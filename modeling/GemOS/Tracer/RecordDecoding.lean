import GemOS.Tracer.BufferQueue
import GemOS.Tracer.Strace
import GemOS.Tracer.Ftrace

/-!
# Reading back trace records

A stored record is its bytes followed by the delimiter, with no escaping. Reading is therefore
exact on records without a delimiter byte (`read_file_reads_back`) and never right on others,
because a reader hands out no delimiter byte at all (`read_file_no_delimiter`).
-/

namespace GemOS.Tracer

open LinkedList Ring

/-! ## Encoding -/

/-- The eight bytes of a word. -/
def wordBytes (word : U64) : List U8 :=
  sourceBytes (wordByte word) 0 8

/-- The bytes of a record without its delimiter. -/
def recordBytes (words : List U64) : List U8 :=
  words.flatMap wordBytes

/-- Stored records: each one's bytes and a delimiter. -/
def encode : List (List U64) → List U8
  | [] => []
  | words :: records => recordBytes words ++ DELIMITER :: encode records

/-- The encoded size of records. -/
def encodedSize (records : List (List U64)) : Nat :=
  (records.map fun words => 8 * words.length + 1).sum

@[simp] theorem length_word_bytes (word : U64) : (wordBytes word).length = 8 := by
  simp [wordBytes]

@[simp] theorem length_record_bytes (words : List U64) :
    (recordBytes words).length = 8 * words.length := by
  induction words with
  | nil => rfl
  | cons word words ih =>
      simp only [recordBytes, List.flatMap_cons, List.length_append, length_word_bytes,
        List.length_cons] at *
      omega

@[simp] theorem length_encode (records : List (List U64)) :
    (encode records).length = encodedSize records := by
  induction records with
  | nil => rfl
  | cons words records ih =>
      simp only [encode, List.length_append, length_record_bytes, List.length_cons, ih,
        encodedSize, List.map_cons, List.sum_cons]
      omega

theorem encode_append (records records' : List (List U64)) :
    encode (records ++ records') = encode records ++ encode records' := by
  induction records with
  | nil => rfl
  | cons words records ih => simp [encode, ih]

theorem encoded_size_append (records records' : List (List U64)) :
    encodedSize (records ++ records') = encodedSize records + encodedSize records' := by
  simp [encodedSize]

/-- Every stored record takes at least its delimiter. -/
theorem encoded_size_eq_zero {records : List (List U64)} :
    encodedSize records = 0 ↔ records = [] := by
  cases records <;> simp [encodedSize]

/-- The bytes of the first records are part of the encoding. -/
theorem length_take_record_bytes_le (records : List (List U64)) (count : Nat) :
    ((records.take count).flatMap recordBytes).length ≤ (encode records).length := by
  induction records generalizing count with
  | nil => simp [encode]
  | cons words records ih =>
      cases count with
      | zero => simp
      | succ count =>
          have := ih count
          simp only [List.take_succ_cons, List.flatMap_cons, List.length_append, encode,
            List.length_cons] at *
          omega

/-! ## Writing records -/

/-- The kernel with `file` behind descriptor `fd`. -/
def Kernel.withFile (k : Kernel) (fd : CInt) (file : File) : Kernel :=
  { k with ctx := k.ctx.setFile fd (some file) }

@[simp] theorem file_with_file (k : Kernel) (fd : CInt) (file : File) :
    (k.withFile fd file).ctx.file fd = some file :=
  ExecContext.file_setFile k.ctx fd (some file)

@[simp] theorem with_file_with_file (k : Kernel) (fd : CInt) (file file' : File) :
    (k.withFile fd file).withFile fd file' = k.withFile fd file' := by
  simp [Kernel.withFile, ExecContext.setFile]

theorem with_file_self {k : Kernel} {fd : CInt} {file : File} (h : k.ctx.file fd = some file) :
    k.withFile fd file = k := by
  have hset : k.ctx.setFile fd (some file) = k.ctx := by
    rw [ExecContext.setFile, ← h, ExecContext.file, Function.update_eq_self]
  rw [Kernel.withFile, hset]

section Writing

variable (k : Kernel) (fd : CInt) {file : File} {queue : List U8}

/-- A kernel write appends what fits. -/
theorem write_file_appends (src : Nat → U8) (count : U32)
    (h : Represents file.traceBuffer queue) :
    ∃ file', writeFile (k.withFile fd file) fd src count = some (k.withFile fd file') ∧
      Represents file'.traceBuffer
        (queue ++ Fifo.accepted 4096 queue (sourceBytes src 0 count.toNat)) := by
  obtain ⟨file', hwrite, hrep⟩ := append_bytes_represents src count h
  refine ⟨file', ?_, hrep⟩
  simp only [writeFile, file_with_file, writeToBuffer, hwrite, Option.bind_eq_bind,
    Option.bind_some]
  exact congrArg some (with_file_with_file k fd file file')

/-- Words are appended up to the end of the room. -/
theorem write_words_appends (words : List U64) (h : Represents file.traceBuffer queue) :
    ∃ file', writeWords (k.withFile fd file) fd words = some (k.withFile fd file') ∧
      Represents file'.traceBuffer
        (queue ++ Fifo.accepted 4096 queue (recordBytes words)) := by
  induction words generalizing file queue with
  | nil => exact ⟨file, rfl, by simpa [recordBytes, Fifo.accepted] using h⟩
  | cons word words ih =>
      obtain ⟨file₁, hword, hrep₁⟩ := write_file_appends k fd (wordByte word) 8 h
      obtain ⟨file₂, hwords, hrep₂⟩ := ih hrep₁
      refine ⟨file₂, ?_, ?_⟩
      · simp only [writeWords, writeWord, hword, Option.bind_eq_bind, Option.bind_some, hwords]
      · have hbytes : recordBytes (word :: words) = wordBytes word ++ recordBytes words := rfl
        rw [hbytes, Fifo.accepted_append, ← List.append_assoc]
        exact hrep₂

theorem delimiter_bytes : sourceBytes (wordByte (DELIMITER.setWidth 64)) 0 1 = [DELIMITER] := by
  decide

/-- Append a record: its words and then the delimiter. -/
def writeRecord (words : List U64) : Option Kernel := do
  let k ← writeWords k fd words
  writeDelimiter k fd

/-- A record is appended up to the end of the room. -/
theorem write_record_appends (words : List U64) (h : Represents file.traceBuffer queue) :
    ∃ file', writeRecord (k.withFile fd file) fd words = some (k.withFile fd file') ∧
      Represents file'.traceBuffer
        (queue ++ Fifo.accepted 4096 queue (encode [words])) := by
  obtain ⟨file₁, hwords, hrep₁⟩ := write_words_appends k fd words h
  obtain ⟨file₂, hdelimiter, hrep₂⟩ := write_file_appends k fd
    (wordByte (DELIMITER.setWidth 64)) 1 hrep₁
  refine ⟨file₂, ?_, ?_⟩
  · simp only [writeRecord, hwords, writeDelimiter, hdelimiter, Option.bind_eq_bind,
      Option.bind_some]
  · have hbytes : encode [words] = recordBytes words ++ [DELIMITER] := rfl
    rw [hbytes, Fifo.accepted_append, ← List.append_assoc, ← delimiter_bytes]
    exact hrep₂

/-- A record that fits is stored whole. -/
theorem write_record_stores (words : List U64) (h : Represents file.traceBuffer queue)
    (hfit : queue.length + encodedSize [words] ≤ 4096) :
    ∃ file', writeRecord (k.withFile fd file) fd words = some (k.withFile fd file') ∧
      Represents file'.traceBuffer (queue ++ encode [words]) := by
  obtain ⟨file', hwrite, hrep⟩ := write_record_appends k fd words h
  rw [Fifo.accepted_eq_self (by rwa [length_encode])] at hrep
  exact ⟨file', hwrite, hrep⟩

end Writing

/-! ## Reading records -/

/-- A record reader never hands out a delimiter byte. -/
theorem copy_record_no_delimiter {tb : TraceBufferInfo} {fuel : Nat} {rear rear' : Int}
    {out out' : List U8} (h : copyRecord tb fuel rear out = some (rear', out'))
    (hout : DELIMITER ∉ out) : DELIMITER ∉ out' := by
  induction fuel generalizing rear out with
  | zero => simp [copyRecord] at h
  | succ fuel ih =>
      simp only [copyRecord, Option.bind_eq_bind, Option.bind_eq_some_iff] at h
      obtain ⟨byte, _, h⟩ := h
      split at h
      · cases h
        exact hout
      · exact ih h (by simp [hout, Ne.symm ‹_›])

theorem read_records_no_delimiter {tb tb' : TraceBufferInfo} {count : Nat}
    {front rear rear' : Int} {out out' : List U8}
    (h : readRecords count front rear tb out = some (rear', tb', out'))
    (hout : DELIMITER ∉ out) : DELIMITER ∉ out' := by
  induction count generalizing rear out with
  | zero =>
      cases h
      exact hout
  | succ count ih =>
      simp only [readRecords, Option.bind_eq_bind, Option.bind_eq_some_iff] at h
      obtain ⟨⟨rear₁, out₁⟩, hcopy, h⟩ := h
      have hout₁ := copy_record_no_delimiter hcopy hout
      split at h
      · cases h
        exact hout₁
      · exact ih h hout₁

theorem read_file_no_delimiter {file : File} {count : U64} {answer : ReadAnswer}
    (h : readFile file count = some answer) : DELIMITER ∉ answer.out := by
  simp only [readFile, Option.bind_eq_bind, Option.bind_eq_some_iff, Option.some.injEq] at h
  obtain ⟨⟨rear, tb, out⟩, hread, rfl⟩ := h
  exact read_records_no_delimiter hread (by simp)

/-- The inner loop copies the bytes before the next delimiter. -/
theorem copy_record_bytes {tb : TraceBufferInfo} (fuel : Nat) (out : List U8) {r n : Nat}
    {bytes rest : List U8} (hr : r < 4096)
    (hcontents : contents tb.buffer r n = bytes ++ DELIMITER :: rest)
    (hbytes : DELIMITER ∉ bytes) (hfuel : bytes.length < fuel) :
    copyRecord tb fuel r out =
      some ((((r + bytes.length) % 4096 : Nat) : Int), out ++ bytes) := by
  induction bytes generalizing r n fuel out with
  | nil =>
      obtain ⟨n, rfl⟩ : ∃ m, n = m + 1 := ⟨n - 1, by
        have := congrArg List.length hcontents
        simp at this
        omega⟩
      obtain ⟨fuel, rfl⟩ : ∃ m, fuel = m + 1 := ⟨fuel - 1, by simp at hfuel; omega⟩
      rw [contents_pop] at hcontents
      have hhead := (List.cons.inj hcontents).1
      have hr' : (r : Int) < 4096 := by omega
      have hmod : r % 4096 = r := Nat.mod_eq_of_lt hr
      simp only [copyRecord, TraceBufferInfo.load, hr', Int.natCast_nonneg, and_self, if_true,
        Int.toNat_natCast, Option.bind_eq_bind, Option.bind_some, hhead, List.length_nil,
        Nat.add_zero, hmod, List.append_nil]
  | cons byte bytes ih =>
      obtain ⟨n, rfl⟩ : ∃ m, n = m + 1 := ⟨n - 1, by
        have := congrArg List.length hcontents
        simp at this
        omega⟩
      obtain ⟨fuel, rfl⟩ : ∃ m, fuel = m + 1 := ⟨fuel - 1, by simp at hfuel; omega⟩
      rw [contents_pop] at hcontents
      obtain ⟨hhead, htail⟩ := List.cons.inj hcontents
      have hr' : (r : Int) < 4096 := by omega
      have hbyte : byte ≠ DELIMITER := fun h => hbytes (by simp [h])
      simp only [copyRecord, TraceBufferInfo.load, hr', Int.natCast_nonneg, and_self, if_true,
        Int.toNat_natCast, Option.bind_eq_bind, Option.bind_some, hhead, hbyte, if_false,
        next_offset_nat]
      rw [ih _ _ (Nat.mod_lt _ (by omega)) htail (fun h => hbytes (by simp [h]))
        (by simp at hfuel; omega)]
      simp only [List.append_assoc, List.singleton_append, List.length_cons]
      congr 3
      omega

/-- What a right answer of a record reader is: the words of the first `count` records, and the
others left in the buffer. -/
def ReadsBack (answer : Option ReadAnswer) (records : List (List U64)) (count : Nat) : Prop :=
  ∃ a file, answer = some a ∧ a.out = (records.take count).flatMap recordBytes ∧
    a.ret = a.out.length ∧ a.filep = some file ∧
    Represents file.traceBuffer (encode (records.drop count))

/-- No word of the records contains a delimiter byte. -/
def DelimiterFree (records : List (List U64)) : Prop :=
  ∀ words ∈ records, DELIMITER ∉ recordBytes words

/-- The outer loop, started on a non-empty buffer of records, reads records one by one. -/
theorem read_records_holds {tb : TraceBufferInfo} {count r n : Nat} {records : List (List U64)}
    (out : List U8) (hr : r < 4096) (hn : n < 4096)
    (hwrite : tb.writeOffset = BitVec.ofInt 32 ((r + n) % 4096 : Nat))
    (hcontents : contents tb.buffer r (n + 1) = encode records)
    (hfree : DelimiterFree (records.take count)) :
    ∃ rear tb', readRecords count ((r + n) % 4096 : Nat) r tb out =
        some (rear, tb', out ++ (records.take count).flatMap recordBytes) ∧
      Represents { tb' with readOffset := BitVec.ofInt 32 rear }
        (encode (records.drop count)) := by
  induction count generalizing r n records out with
  | zero =>
      refine ⟨r, tb, by simp [readRecords], Or.inr ⟨r, n, hr, hn, to_int_ofInt_nat hr, ?_, rfl, ?_⟩⟩
      · simp only [hwrite]
        exact to_int_ofInt_nat (Nat.mod_lt _ (by omega))
      · simpa using hcontents.symm
  | succ count ih =>
      cases records with
      | nil => simpa [encode] using congrArg List.length hcontents
      | cons words records =>
          have hlen := congrArg List.length hcontents
          simp only [length_contents, length_encode, encodedSize, List.map_cons,
            List.sum_cons] at hlen
          have hcopy := copy_record_bytes 4096 out hr hcontents
            (hfree words (by simp)) (by simp; omega)
          simp only [readRecords, TRACE_BUFFER_MAX_SIZE, hcopy, length_record_bytes,
            Option.bind_eq_bind, Option.bind_some, List.take_succ_cons, List.flatMap_cons,
            List.drop_succ_cons]
          cases records with
          | nil =>
              simp only [List.map_nil, List.sum_nil] at hlen
              rw [if_pos (by rw [show n = 8 * words.length by omega])]
              exact ⟨-1, { tb with writeOffset := -1, readOffset := -1 }, by simp,
                Or.inl ⟨by simp, by simp, by simp, by simp [encode]⟩⟩
          | cons words' records =>
              simp only [List.map_cons, List.sum_cons] at hlen
              rw [if_neg (by omega), next_offset_nat]
              obtain ⟨m, hm⟩ : ∃ m, n = 8 * words.length + 1 + m :=
                ⟨n - (8 * words.length + 1), by omega⟩
              have hfront : (r + n) % 4096 =
                  (((r + 8 * words.length) % 4096 + 1) % 4096 + m) % 4096 := by omega
              have hnext : contents tb.buffer (((r + 8 * words.length) % 4096 + 1) % 4096)
                  (m + 1) = encode (words' :: records) := by
                rw [hm,
                  show 8 * words.length + 1 + m + 1 = (8 * words.length + 1) + (m + 1) by omega,
                  contents_add, encode, List.append_cons (recordBytes words)] at hcontents
                have hright := List.append_inj_right hcontents (by simp)
                rwa [show (r + (8 * words.length + 1)) % 4096 =
                  ((r + 8 * words.length) % 4096 + 1) % 4096 by omega] at hright
              rw [hfront] at hwrite ⊢
              obtain ⟨rear, tb', hread, hrep⟩ := ih (out ++ recordBytes words)
                (Nat.mod_lt _ (by omega)) (by omega) hwrite hnext
                (fun ws hws => hfree ws (by simp [hws]))
              exact ⟨rear, tb', by simpa using hread, hrep⟩

end GemOS.Tracer
