import GemOS.Tracer.RecordRoundTrip

/-!
# What the record readers read

The readers look for delimiters and compare positions only where they find one. On a buffer of
any contents they therefore stay within the stored bytes exactly if there are enough delimiters
among these, or if the last stored byte is one.
-/

namespace GemOS.Tracer

open Ring

/-! ## The positions read -/

/-- The positions of the page that `copyRecord` tests, one after the other. -/
def copyPositions (tb : TraceBufferInfo) : Nat → Int → List Int
  | 0, _ => []
  | fuel + 1, rear =>
      rear :: match tb.load rear with
        | none => []
        | some byte => if byte = DELIMITER then [] else copyPositions tb fuel (nextOffset rear)

/-- The positions of the page that `readRecords` tests. -/
def readPositions (tb : TraceBufferInfo) : Nat → Int → Int → List Int
  | 0, _, _ => []
  | count + 1, front, rear =>
      copyPositions tb TRACE_BUFFER_MAX_SIZE rear ++
        match copyRecord tb TRACE_BUFFER_MAX_SIZE rear [] with
        | none => []
        | some (rear, _) =>
            if rear = front then [] else readPositions tb count front (nextOffset rear)

/-- The positions that `sys_read_strace` tests. -/
def stracePositions (file : File) (count : U64) : List Int :=
  let tb := file.traceBuffer
  readPositions tb count.toNat tb.writeOffset.toInt tb.readOffset.toInt

/-- The positions that `sys_read_ftrace` tests. -/
def ftracePositions (file : File) (count : U64) : List Int :=
  if file.traceBuffer.writeOffset.toInt = -1 ∧ file.traceBuffer.readOffset.toInt = -1 then []
  else stracePositions file count

/-- One of the positions from the read offset on that hold the bytes of `queue`. -/
def StoredAt (tb : TraceBufferInfo) (queue : List U8) (i : Int) : Prop :=
  ∃ j < queue.length, i = (tb.readOffset.toInt + (j : Nat)) % 4096

/-- A reader of a buffer that stores `queue` ends, tests stored positions only, hands out no more
bytes than were stored and leaves the bytes it has not read. -/
structure ReadsStored (file : File) (queue : List U8) (positions : List Int)
    (answer : Option ReadAnswer) : Prop where
  within : ∀ i ∈ positions, StoredAt file.traceBuffer queue i
  answers : ∃ a file', answer = some a ∧ a.filep = some file' ∧ a.out.length ≤ queue.length ∧
    ∃ read unread, queue = read ++ unread ∧ a.out = read.filter (· ≠ DELIMITER) ∧
      Represents file'.traceBuffer unread

/-! ## The inner loop -/

variable {tb : TraceBufferInfo} {r n : Nat} {queue bytes rest out : List U8}

theorem load_of_lt (hr : r < 4096) : tb.load r = some (tb.buffer (Fin.ofNat 4096 r)) := by
  have hr' : (r : Int) < 4096 := by omega
  simp [TraceBufferInfo.load, hr']

/-- One test of the inner loop. -/
theorem copy_positions_succ (fuel : Nat) (hr : r < 4096) :
    copyPositions tb (fuel + 1) r = (r : Int) ::
      if tb.buffer (Fin.ofNat 4096 r) = DELIMITER then []
      else copyPositions tb fuel ((r + 1) % 4096 : Nat) := by
  rw [copyPositions, load_of_lt hr, next_offset_nat]

/-- The inner loop tests the positions up to the next delimiter. -/
theorem copy_positions_within (fuel : Nat) (hr : r < 4096)
    (hcontents : contents tb.buffer r n = bytes ++ DELIMITER :: rest) :
    ∀ i ∈ copyPositions tb fuel r, ∃ j ≤ bytes.length, i = ((r + j) % 4096 : Nat) := by
  induction fuel generalizing r n bytes with
  | zero => simp [copyPositions]
  | succ fuel ih =>
      obtain ⟨n, rfl⟩ : ∃ m, n = m + 1 := ⟨n - 1, by
        have := congrArg List.length hcontents
        simp at this
        omega⟩
      rw [contents_pop] at hcontents
      rw [copy_positions_succ fuel hr, List.forall_mem_cons]
      refine ⟨⟨0, Nat.zero_le _, by rw [Nat.add_zero, Nat.mod_eq_of_lt hr]⟩, ?_⟩
      cases bytes with
      | nil =>
          rw [if_pos (List.cons.inj hcontents).1]
          exact List.forall_mem_nil _
      | cons byte bytes =>
          obtain ⟨hhead, htail⟩ := List.cons.inj hcontents
          split_ifs with hbyte
          · simp
          · intro i hi
            obtain ⟨j, hj, rfl⟩ := ih (Nat.mod_lt _ (by omega)) htail i hi
            have hmod : ((r + 1) % 4096 + j) % 4096 = (r + (j + 1)) % 4096 := by omega
            exact ⟨j + 1, by simp; omega, by rw [hmod]⟩

/-- If the inner loop ends, it stands at a delimiter. -/
theorem copy_record_ends {fuel : Nat} {rear rear' : Int} {out' : List U8}
    (h : copyRecord tb fuel rear out = some (rear', out')) :
    tb.load rear' = some DELIMITER ∧ out.length ≤ out'.length := by
  induction fuel generalizing rear out with
  | zero => simp [copyRecord] at h
  | succ fuel ih =>
      simp only [copyRecord, Option.bind_eq_bind, Option.bind_eq_some_iff] at h
      obtain ⟨byte, hload, h⟩ := h
      split_ifs at h with hbyte
      · cases h
        exact ⟨hbyte ▸ hload, Nat.le_refl _⟩
      · obtain ⟨hload', hlen⟩ := ih h
        exact ⟨hload', by simp at hlen; omega⟩

/-- The inner loop has copied all bytes before the first delimiter, if not more. -/
theorem copy_record_passes {fuel : Nat} {rear' : Int} {out' : List U8} (hr : r < 4096)
    (h : copyRecord tb fuel r out = some (rear', out'))
    (hfree : DELIMITER ∉ contents tb.buffer r n) : out.length + n ≤ out'.length := by
  induction n generalizing fuel r out with
  | zero => exact (copy_record_ends h).2
  | succ n ih =>
      rw [contents_pop, List.mem_cons, not_or] at hfree
      cases fuel with
      | zero => simp [copyRecord] at h
      | succ fuel =>
          simp only [copyRecord, load_of_lt hr, Option.bind_eq_bind, Option.bind_some,
            if_neg (Ne.symm hfree.1), next_offset_nat] at h
          have hlen := ih (Nat.mod_lt _ (by omega)) h hfree.2
          simp only [List.length_append, List.length_singleton] at hlen
          omega

/-! ## The outer loop -/

/-- One record, when the inner loop ends. -/
theorem read_positions_succ {count : Nat} {front rear rear' : Int}
    (h : copyRecord tb TRACE_BUFFER_MAX_SIZE rear [] = some (rear', bytes)) :
    readPositions tb (count + 1) front rear = copyPositions tb TRACE_BUFFER_MAX_SIZE rear ++
      if rear' = front then [] else readPositions tb count front (nextOffset rear') := by
  rw [readPositions, h]

theorem read_records_succ {count : Nat} {front rear rear' : Int} {out' : List U8}
    (h : copyRecord tb TRACE_BUFFER_MAX_SIZE rear out = some (rear', out')) :
    readRecords (count + 1) front rear tb out =
      if rear' = front then some (-1, { tb with writeOffset := -1, readOffset := -1 }, out')
      else readRecords count front (nextOffset rear') tb out' := by
  rw [readRecords, h]
  rfl

/-- The stored bytes behind the first delimiter. -/
theorem contents_behind (hcontents : contents tb.buffer r (n + 1) = bytes ++ DELIMITER :: rest)
    {m : Nat} (hm : rest.length = m + 1) :
    n = bytes.length + 1 + m ∧
      contents tb.buffer (((r + bytes.length) % 4096 + 1) % 4096) (m + 1) = rest := by
  have hlen := congrArg List.length hcontents
  simp only [length_contents, List.length_append, List.length_cons, hm] at hlen
  have hn : n = bytes.length + 1 + m := by omega
  refine ⟨hn, ?_⟩
  rw [hn, show bytes.length + 1 + m + 1 = (bytes.length + 1) + (m + 1) by omega, contents_add,
    List.append_cons bytes] at hcontents
  have hright := List.append_inj_right hcontents (by simp)
  rwa [show (r + (bytes.length + 1)) % 4096 = ((r + bytes.length) % 4096 + 1) % 4096 by omega]
    at hright

/-- Enough delimiters for `count` records, or one at the end. -/
def EnoughDelimiters (queue : List U8) (count : Nat) : Prop :=
  count ≤ queue.count DELIMITER ∨ queue.getLast? = some DELIMITER

instance {count : Nat} : Decidable (EnoughDelimiters queue count) :=
  inferInstanceAs (Decidable (_ ∨ _))

theorem EnoughDelimiters.mem {count : Nat} (h : EnoughDelimiters queue (count + 1)) :
    DELIMITER ∈ queue := by
  rcases h with h | h
  · exact List.count_pos_iff.mp (by omega)
  · exact List.mem_of_getLast? h

/-- One record less and one delimiter less. -/
theorem enough_delimiters_iff {count : Nat} (hbytes : DELIMITER ∉ bytes) (hrest : rest ≠ []) :
    EnoughDelimiters (bytes ++ DELIMITER :: rest) (count + 1) ↔ EnoughDelimiters rest count := by
  obtain ⟨byte, rest, rfl⟩ := List.exists_cons_of_ne_nil hrest
  have hlast : (bytes ++ DELIMITER :: byte :: rest).getLast? = (byte :: rest).getLast? := by
    rw [List.getLast?_append, List.getLast?_cons_cons, List.getLast?_cons]
    rfl
  unfold EnoughDelimiters
  rw [hlast, List.count_append, List.count_cons_self, List.count_eq_zero_of_not_mem hbytes,
    Nat.zero_add, Nat.add_le_add_iff_right]

/-- With enough delimiters the readers stay within the stored bytes. -/
theorem read_records_within {count : Nat} (out : List U8) (hr : r < 4096) (hn : n < 4096)
    (hwrite : tb.writeOffset = BitVec.ofInt 32 ((r + n) % 4096 : Nat))
    (hcontents : contents tb.buffer r (n + 1) = queue) (henough : EnoughDelimiters queue count) :
    (∀ i ∈ readPositions tb count ((r + n) % 4096 : Nat) r,
      ∃ j ≤ n, i = ((r + j) % 4096 : Nat)) ∧
    ∃ rear tb' read unread, queue = read ++ unread ∧
      readRecords count ((r + n) % 4096 : Nat) r tb out =
        some (rear, tb', out ++ read.filter (· ≠ DELIMITER)) ∧
      Represents { tb' with readOffset := BitVec.ofInt 32 rear } unread := by
  induction count generalizing r n queue out with
  | zero =>
      refine ⟨by simp [readPositions], r, tb, [], queue, rfl, by simp [readRecords],
        Or.inr ⟨r, n, hr, hn, to_int_ofInt_nat hr, ?_, rfl, hcontents.symm⟩⟩
      simp only [hwrite]
      exact to_int_ofInt_nat (Nat.mod_lt _ (by omega))
  | succ count ih =>
      obtain ⟨bytes, rest, rfl, hbytes⟩ := List.eq_append_cons_of_mem henough.mem
      have hfilter : bytes.filter (· ≠ DELIMITER) = bytes :=
        List.filter_eq_self.mpr fun byte hbyte =>
          decide_eq_true fun heq => hbytes (heq ▸ hbyte)
      have hlen := congrArg List.length hcontents
      simp only [length_contents, List.length_append, List.length_cons] at hlen
      have hfuel : bytes.length < TRACE_BUFFER_MAX_SIZE := by
        unfold TRACE_BUFFER_MAX_SIZE
        omega
      have hwithin := copy_positions_within TRACE_BUFFER_MAX_SIZE hr hcontents
      rw [read_positions_succ (copy_record_bytes _ [] hr hcontents hbytes hfuel),
        read_records_succ (copy_record_bytes _ out hr hcontents hbytes hfuel)]
      cases hrest : rest with
      | nil =>
          -- the last stored byte is a delimiter, and the buffer is empty now
          subst hrest
          have hn' : n = bytes.length := by simpa using hlen
          rw [hn', if_pos rfl, List.append_nil]
          refine ⟨hwithin, -1, { tb with writeOffset := -1, readOffset := -1 },
            bytes ++ [DELIMITER], [], by simp, ?_, Or.inl ⟨by simp, by simp, by simp, rfl⟩⟩
          rw [if_pos rfl, List.filter_append, hfilter, List.filter_cons_of_neg (by simp),
            List.filter_nil, List.append_nil]
      | cons byte rest' =>
          obtain ⟨hn', hnext⟩ := contents_behind hcontents (m := rest'.length) (by simp [hrest])
          have hne : ¬ (((r + bytes.length) % 4096 : Nat) : Int) = ((r + n) % 4096 : Nat) := by
            omega
          have hfront : (r + n) % 4096 =
              (((r + bytes.length) % 4096 + 1) % 4096 + rest'.length) % 4096 := by omega
          rw [if_neg hne, if_neg hne, next_offset_nat]
          rw [hfront] at hwrite ⊢
          obtain ⟨hpositions, rear, tb', read, unread, hsplit, hread, hrep⟩ :=
            ih (out ++ bytes) (Nat.mod_lt _ (by omega)) (by omega) hwrite hnext
              ((enough_delimiters_iff hbytes (by simp [hrest])).mp henough)
          refine ⟨fun i hi => ?_, rear, tb', bytes ++ DELIMITER :: read, unread, ?_, ?_, hrep⟩
          · rcases List.mem_append.mp hi with hi | hi
            · obtain ⟨j, hj, rfl⟩ := hwithin i hi
              exact ⟨j, by omega, rfl⟩
            · obtain ⟨j, hj, rfl⟩ := hpositions i hi
              have hmod : (((r + bytes.length) % 4096 + 1) % 4096 + j) % 4096 =
                  (r + (bytes.length + 1 + j)) % 4096 := by omega
              exact ⟨bytes.length + 1 + j, by omega, by rw [hmod]⟩
          · rw [← hrest, hsplit]
            simp
          · rw [hread, List.filter_append, hfilter, List.filter_cons_of_neg (by simp),
              List.append_assoc]

/-- If the last stored byte is no delimiter, the outer loop never finds the buffer empty. -/
theorem read_records_keeps {count : Nat} {front rear rear' : Int} {tb' : TraceBufferInfo}
    {out' : List U8} (hfront : tb.load front ≠ some DELIMITER)
    (h : readRecords count front rear tb out = some (rear', tb', out')) :
    tb' = tb ∧ out.length ≤ out'.length := by
  induction count generalizing rear out with
  | zero =>
      cases h
      exact ⟨rfl, Nat.le_refl _⟩
  | succ count ih =>
      have hcopy := h
      simp only [readRecords, Option.bind_eq_bind, Option.bind_eq_some_iff] at hcopy
      obtain ⟨⟨rear₁, out₁⟩, hcopy, -⟩ := hcopy
      obtain ⟨hload, hlen⟩ := copy_record_ends hcopy
      have hne : rear₁ ≠ front := fun heq => hfront (heq ▸ hload)
      rw [read_records_succ hcopy, if_neg hne] at h
      obtain ⟨htb, hlen'⟩ := ih h
      exact ⟨htb, Nat.le_trans hlen hlen'⟩

/-- The last stored byte. -/
theorem load_last (hcontents : contents tb.buffer r (n + 1) = queue) :
    tb.load ((r + n) % 4096 : Nat) = queue.getLast? := by
  rw [← hcontents, contents_succ, List.getLast?_concat, load_of_lt (Nat.mod_lt _ (by omega))]
  congr 2
  exact ofNat_congr (Nat.mod_mod _ _)

/-- Without enough delimiters the readers, if they end at all, have copied every stored byte that
is no delimiter. -/
theorem read_records_passes {count : Nat} {rear : Int} {tb' : TraceBufferInfo} {out' : List U8}
    (hr : r < 4096) (hn : n < 4096) (hcontents : contents tb.buffer r (n + 1) = queue)
    (henough : ¬ EnoughDelimiters queue count)
    (h : readRecords count ((r + n) % 4096 : Nat) r tb out = some (rear, tb', out')) :
    out.length + (queue.filter (· ≠ DELIMITER)).length ≤ out'.length := by
  have hfront : tb.load ((r + n) % 4096 : Nat) ≠ some DELIMITER := fun hload =>
    henough (Or.inr ((load_last hcontents).symm.trans hload))
  induction count generalizing r n queue out with
  | zero => exact absurd (Or.inl (Nat.zero_le _)) henough
  | succ count ih =>
      by_cases hmem : DELIMITER ∈ queue
      · obtain ⟨bytes, rest, rfl, hbytes⟩ := List.eq_append_cons_of_mem hmem
        have hrest : rest ≠ [] := by
          intro hnil
          exact henough (Or.inr (by rw [hnil, List.getLast?_concat]))
        have hlen := congrArg List.length hcontents
        simp only [length_contents, List.length_append, List.length_cons] at hlen
        have hpos := List.length_pos_of_ne_nil hrest
        have hfuel : bytes.length < TRACE_BUFFER_MAX_SIZE := by
          unfold TRACE_BUFFER_MAX_SIZE
          omega
        obtain ⟨hn', hnext⟩ := contents_behind hcontents (m := rest.length - 1) (by omega)
        have hne : ¬ (((r + bytes.length) % 4096 : Nat) : Int) = ((r + n) % 4096 : Nat) := by
          omega
        have hmod : (r + n) % 4096 =
            (((r + bytes.length) % 4096 + 1) % 4096 + (rest.length - 1)) % 4096 := by omega
        rw [read_records_succ (copy_record_bytes _ out hr hcontents hbytes hfuel), if_neg hne,
          next_offset_nat] at h
        rw [hmod] at h hfront
        have hcopied := ih (Nat.mod_lt _ (by omega)) (by omega) hnext
          (mt (enough_delimiters_iff hbytes hrest).mpr henough) h hfront
        have hfilter := List.length_filter_le (fun byte => decide (byte ≠ DELIMITER)) bytes
        rw [List.filter_append, List.filter_cons_of_neg (by simp), List.length_append]
        rw [List.length_append] at hcopied
        omega
      · -- the inner loop runs over all that is stored
        have hcopy := h
        simp only [readRecords, Option.bind_eq_bind, Option.bind_eq_some_iff] at hcopy
        obtain ⟨⟨rear₁, out₁⟩, hcopy, -⟩ := hcopy
        have hpasses := copy_record_passes hr hcopy (hcontents ▸ hmem)
        have hne : rear₁ ≠ ((r + n) % 4096 : Nat) := fun heq =>
          hfront (heq ▸ (copy_record_ends hcopy).1)
        rw [read_records_succ hcopy, if_neg hne] at h
        obtain ⟨-, hlen⟩ := read_records_keeps hfront h
        have hfilter := List.length_filter_le (fun byte => decide (byte ≠ DELIMITER)) queue
        rw [← hcontents, length_contents] at hfilter
        rw [← hcontents]
        omega

/-! ## The readers -/

variable {file : File} {count : U64}

/-- The loop of the readers on a buffer that is not empty. -/
theorem read_file_within_iff (h : Represents file.traceBuffer queue) (hne : queue ≠ []) :
    ReadsStored file queue (stracePositions file count) (readFile file count) ↔
      EnoughDelimiters queue count.toNat := by
  have hlength := h.length_le
  rcases h with ⟨_, _, _, hempty⟩ | ⟨r, n, hr, hn, hrear, hfront, _, hqueue⟩
  · exact absurd hempty hne
  have hwrite : file.traceBuffer.writeOffset = BitVec.ofInt 32 ((r + n) % 4096 : Nat) := by
    rw [← hfront, BitVec.ofInt_toInt]
  constructor
  · intro hreads
    by_contra henough
    obtain ⟨a, file', hread, hfilep, _, read, unread, hsplit, hout, hrep⟩ := hreads.answers
    simp only [readFile, hrear, hfront, Option.bind_eq_bind, Option.bind_eq_some_iff,
      Option.some.injEq] at hread
    obtain ⟨⟨rear, tb', out⟩, hrecords, rfl⟩ := hread
    have hlast : file.traceBuffer.load ((r + n) % 4096 : Nat) ≠ some DELIMITER := fun hload =>
      henough (Or.inr ((load_last hqueue.symm).symm.trans hload))
    obtain ⟨htb, -⟩ := read_records_keeps hlast hrecords
    have hcopied := read_records_passes hr hn hqueue.symm henough hrecords
    cases hfilep
    subst htb
    -- the last stored byte has been copied, and is still in the buffer
    have hunread : unread ≠ [] := by
      intro hnil
      have hoffset : file.traceBuffer.writeOffset.toInt = -1 := (hnil ▸ hrep).empty_offsets.1
      omega
    have hbyte : unread.getLast hunread ≠ DELIMITER := by
      intro heq
      refine henough (Or.inr ?_)
      rw [hsplit, List.getLast?_append, List.getLast?_eq_some_getLast hunread, heq]
      rfl
    have hpos : 0 < (unread.filter (· ≠ DELIMITER)).length :=
      List.length_pos_of_mem (List.mem_filter.mpr
        ⟨List.getLast_mem hunread, decide_eq_true hbyte⟩)
    have hout' : out.length = (read.filter (· ≠ DELIMITER)).length := congrArg List.length hout
    rw [hsplit, List.filter_append, List.length_append, hout'] at hcopied
    simp only [List.length_nil] at hcopied
    omega
  · intro henough
    obtain ⟨hpositions, rear, tb', read, unread, hsplit, hread, hrep⟩ :=
      read_records_within [] hr hn hwrite hqueue.symm henough
    rw [List.nil_append] at hread
    let out := read.filter (· ≠ DELIMITER)
    let file' := { file with traceBuffer := { tb' with readOffset := BitVec.ofInt 32 rear } }
    refine ⟨fun i hi => ?_, ⟨(BitVec.ofNat 32 out.length).toInt, out, some file'⟩, file', ?_, rfl,
      ?_, read, unread, hsplit, rfl, hrep⟩
    · rw [stracePositions, hrear, hfront] at hi
      obtain ⟨j, hj, rfl⟩ := hpositions i hi
      refine ⟨j, ?_, by rw [hrear]; rfl⟩
      rw [hqueue, length_contents]
      omega
    · simp only [readFile, hrear, hfront, hread, Option.bind_eq_bind, Option.bind_some]
      rfl
    · show out.length ≤ queue.length
      have hout : out.length ≤ read.length := List.length_filter_le _ read
      rw [hsplit, List.length_append]
      omega

/-- On an empty buffer, `sys_read_strace` is right only if it has nothing to read. -/
theorem read_strace_empty_iff (h : Represents file.traceBuffer []) :
    ReadsStored file [] (stracePositions file count) (sysReadStrace (some file) count) ↔
      EnoughDelimiters [] count.toNat := by
  have henough : EnoughDelimiters [] count.toNat ↔ count.toNat = 0 := by
    simp [EnoughDelimiters]
  rw [henough]
  constructor
  · intro hreads
    by_contra hcount
    obtain ⟨a, file', hread, -⟩ := hreads.answers
    rw [sysReadStrace, read_file_empty h hcount] at hread
    cases hread
  · intro hcount
    refine ⟨by simp [stracePositions, hcount, readPositions], ⟨0, [], some file⟩, file, ?_, rfl,
      Nat.le_refl _, [], [], rfl, rfl, h⟩
    simp [sysReadStrace, readFile, hcount, readRecords]

/-- The readers stay within the stored bytes and leave the unread ones exactly if there are enough
delimiters among them or one at the end; `sys_read_ftrace` also if the buffer is empty. -/
theorem record_readers_iff (h : Represents file.traceBuffer queue) (count : U64) :
    (ReadsStored file queue (stracePositions file count) (sysReadStrace (some file) count) ↔
      EnoughDelimiters queue count.toNat) ∧
    (ReadsStored file queue (ftracePositions file count) (sysReadFtrace (some file) count) ↔
      queue = [] ∨ EnoughDelimiters queue count.toNat) := by
  by_cases hne : queue = []
  · subst hne
    refine ⟨read_strace_empty_iff h, iff_of_true ?_ (Or.inl rfl)⟩
    have hoffsets := h.empty_offsets
    rw [ftracePositions, if_pos hoffsets, sysReadFtrace, if_pos hoffsets]
    exact ⟨by simp, ⟨-EINVAL, [], some file⟩, file, rfl, rfl, Nat.le_refl _, [], [], rfl, rfl, h⟩
  · have hoffsets := mt h.empty_of_offsets hne
    rw [or_iff_right hne, ftracePositions, if_neg hoffsets, sysReadFtrace, if_neg hoffsets]
    exact ⟨read_file_within_iff h hne, read_file_within_iff h hne⟩

/-- One byte and a delimiter. -/
theorem record_readers_sample :
    let file := { sampleFile with traceBuffer := ⟨0, 1, fun i => if i = 0 then 0x41 else 0x20⟩ }
    (ReadsStored file [0x41, 0x20] (stracePositions file 1) (sysReadStrace (some file) 1) ↔
      EnoughDelimiters [0x41, 0x20] (1 : U64).toNat) ∧
    (ReadsStored file [0x41, 0x20] (ftracePositions file 1) (sysReadFtrace (some file) 1) ↔
      [0x41, 0x20] = ([] : List U8) ∨ EnoughDelimiters [0x41, 0x20] (1 : U64).toNat) :=
  record_readers_iff (Or.inr ⟨0, 1, by decide, by decide, rfl, rfl, rfl, by decide⟩) 1

/-- `sys_read_strace` on an empty buffer reads before the page, and both readers run round a page
of zeros without end when the only stored byte is a zero. -/
theorem record_readers_overrun :
    (∃ file, Represents file.traceBuffer [] ∧
      ¬ ReadsStored file [] (stracePositions file 1) (sysReadStrace (some file) 1)) ∧
    ∃ file, Represents file.traceBuffer [0] ∧
      ¬ ReadsStored file [0] (stracePositions file 1) (sysReadStrace (some file) 1) ∧
      ¬ ReadsStored file [0] (ftracePositions file 1) (sysReadFtrace (some file) 1) := by
  refine ⟨⟨sampleFile, sample_file_empty, fun hreads => ?_⟩, ?_⟩
  · exact absurd ((record_readers_iff sample_file_empty 1).1.mp hreads) (by decide)
  · have hzero : Represents (⟨0, 0, fun _ => 0⟩ : TraceBufferInfo) [0] :=
      Or.inr ⟨0, 0, by decide, by decide, rfl, rfl, rfl, rfl⟩
    refine ⟨{ sampleFile with traceBuffer := ⟨0, 0, fun _ => 0⟩ }, hzero, fun hreads => ?_,
      fun hreads => ?_⟩
    · exact absurd ((record_readers_iff hzero 1).1.mp hreads) (by decide)
    · exact absurd ((record_readers_iff hzero 1).2.mp hreads) (by decide)

end GemOS.Tracer
