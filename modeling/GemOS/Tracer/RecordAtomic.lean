import GemOS.Lib.Runs
import GemOS.Tracer.FtraceList
import GemOS.Tracer.RecordRoundTrip

/-!
# Whole records

A record is written word by word, and each write appends what fits. A call or a fault therefore
appends its record whole or not at all exactly if the whole record fits or nothing fits any more,
and a buffer of whole records stays one as long as this is so.
-/

namespace GemOS.Tracer

open LinkedList

/-! ## Events -/

/-- What happens to a process: a system call, the entry of a traced function, or anything else,
which leads to the kernel `k`. -/
inductive Event where
  | call (call : Syscall)
  | fault (fault : Fault)
  | other (k : Kernel)

/-- One event. With this fuel a frame walk ends, or leaves the scratch page. -/
def eventStep (k : Kernel) : Event → Option Kernel
  | .call call => (performTracing k call).map fun answer => answer.2
  | .fault fault =>
      (handleFtraceFault (SCRATCH_WORDS + 1) { k with mem := fault.mem } fault.regs).map
        fun answer => answer.2.1
  | .other k' => some k'

/-- The descriptor and the words of the record of an event, if it is recorded. -/
def eventRecord (k : Kernel) : Event → Option (Option (CInt × List U64))
  | .call call => (traceTarget k call.num).map fun target => target.map fun fd => (fd, call.words)
  | .fault fault => (faultRecord (SCRATCH_WORDS + 1) k fault).map some
  | .other _ => some none

/-- The list of traced calls can be searched, the function is registered, and nothing else
touches the file at descriptor `fd`. -/
def CanHappen (fd : CInt) (k : Kernel) : Event → Prop
  | .call _ => k.ctx.stMdBase = none ∨ ∃ target, TracesTo k target
  | .fault fault => ∃ regs, Listed k regs ∧ ∃ x ∈ regs, x.2.faddr = fault.regs.entryRip
  | .other k' => k'.ctx.file fd = k.ctx.file fd

/-- If the call chain is captured, it fits the scratch page. -/
def ChainFits (k : Kernel) : Event → Prop
  | .fault fault => ∀ info, registration k fault.regs.entryRip = some info →
      ∃ backtrace, backtraceWords (SCRATCH_WORDS + 1) info fault = some backtrace
  | _ => True

/-- Descriptor `fd` is closed, or a trace buffer in a ring state. -/
def RingAt (k : Kernel) (fd : CInt) : Prop :=
  ∀ file, k.ctx.file fd = some file → ∃ queue, Represents file.traceBuffer queue

/-- An event that can happen, and records to a trace buffer if at all. -/
structure Ready (fd : CInt) (k : Kernel) (event : Event) : Prop where
  able : CanHappen fd k event
  ring : ∀ target words, eventRecord k event = some (some (target, words)) → RingAt k target

/-- The event appends to the buffer at descriptor `fd` its whole record or nothing. -/
def AppendsAtomically (fd : CInt) (k : Kernel) (event : Event) : Prop :=
  ∃ k', eventStep k event = some k' ∧
    ∀ file queue, k.ctx.file fd = some file → Represents file.traceBuffer queue →
      ∃ file', k'.ctx.file fd = some file' ∧
        (Represents file'.traceBuffer queue ∨
          ∃ words, eventRecord k event = some (some (fd, words)) ∧
            Represents file'.traceBuffer (queue ++ encode [words]))

/-- The record of the event, if it goes to descriptor `fd`, fits the free bytes of the buffer, or
none is free. -/
def HasRoom (fd : CInt) (k : Kernel) (event : Event) : Prop :=
  ChainFits k event ∧
    ∀ words file queue, eventRecord k event = some (some (fd, words)) →
      k.ctx.file fd = some file → Represents file.traceBuffer queue →
      queue.length = 4096 ∨ queue.length + encodedSize [words] ≤ 4096

/-- The buffer at descriptor `fd` holds a whole number of records. -/
def WholeRecords (fd : CInt) (k : Kernel) : Prop :=
  ∀ file, k.ctx.file fd = some file → ∃ records, Represents file.traceBuffer (encode records)

/-! ## One event -/

variable {k : Kernel} {fd : CInt} {event : Event}

/-- The record of a fault, by the registration of its function. -/
theorem fault_record_eq (fuel : Nat) (fault : Fault) :
    faultRecord fuel k fault = (registration k fault.regs.entryRip).bind fun info =>
      (backtraceWords fuel info fault).map fun backtrace =>
        (info.fd, fault.regs.entryRip :: fault.regs.args.take info.numArgs.toNat ++ backtrace) := by
  simp only [faultRecord, registration, Option.bind_eq_bind, Option.bind_assoc, Option.bind_some,
    Option.map_eq_bind, Function.comp_def]

/-- An event writes nothing, or leaves the scratch page, or writes its record. -/
theorem event_cases (h : CanHappen fd k event) :
    (∃ k', ChainFits k event ∧ eventRecord k event = some none ∧ eventStep k event = some k' ∧
      k'.ctx.file fd = k.ctx.file fd) ∨
    (¬ ChainFits k event ∧ eventStep k event = none) ∨
    ∃ target words mem, ChainFits k event ∧
      eventRecord k event = some (some (target, words)) ∧
      eventStep k event = writeRecord { k with mem := mem } target words := by
  cases event with
  | call call =>
      have htarget : traceTarget k call.num = some none ∨
          ∃ target, traceTarget k call.num = some (some target) := by
        rcases h with hbase | ⟨target, hto⟩
        · left
          simp only [traceTarget, hbase, ite_self]
        · exact (hto.target call.num).imp id fun htarget => ⟨target, htarget⟩
      rcases htarget with htarget | ⟨target, htarget⟩
      · refine Or.inl ⟨k, trivial, ?_, ?_, rfl⟩
        · simp only [eventRecord, htarget, Option.map_some, Option.map_none]
        · simp only [eventStep, performTracing, htarget, Option.bind_eq_bind, Option.bind_some,
            Option.map_some]
      · refine Or.inr (Or.inr ⟨target, call.words, k.mem, trivial, ?_, ?_⟩)
        · simp only [eventRecord, htarget, Option.map_some]
        · rw [eventStep, perform_tracing_record htarget, Option.map_map]
          exact Option.map_id'
  | fault fault =>
      obtain ⟨regs, hlisted, ⟨node, info⟩, hmem, hfaddr⟩ := h
      have hinfo := (hlisted.registration_iff _ info).mpr ⟨node, hmem, hfaddr⟩
      have hstep : eventStep k (.fault fault) =
          (faultRecord (SCRATCH_WORDS + 1) k fault).bind fun record =>
            writeRecord { k with mem := fault.memAfter } record.1 record.2 := by
        rw [eventStep, handle_fault_eq, Option.map_bind]
        simp only [Function.comp_def, Option.map_map, Option.map_id']
      have hchain : ChainFits k (.fault fault) ↔
          ∃ backtrace, backtraceWords (SCRATCH_WORDS + 1) info fault = some backtrace := by
        simp only [ChainFits, hinfo, Option.some.injEq, forall_eq']
      have hrecord := fault_record_eq (k := k) (SCRATCH_WORDS + 1) fault
      rw [hinfo, Option.bind_some] at hrecord
      right
      rw [hstep, hchain, eventRecord, hrecord]
      cases hbacktrace : backtraceWords (SCRATCH_WORDS + 1) info fault with
      | none => exact Or.inl ⟨by simp, rfl⟩
      | some backtrace => exact Or.inr ⟨_, _, fault.memAfter, ⟨backtrace, rfl⟩, rfl, rfl⟩
  | other k' => exact Or.inl ⟨k', trivial, rfl, rfl, h⟩

/-- Writing to a closed descriptor does nothing. -/
theorem write_record_closed {words : List U64} (h : k.ctx.file fd = none) :
    writeRecord k fd words = some k := by
  have hset : k.ctx.setFile fd none = k.ctx := by
    rw [ExecContext.setFile, ← h, ExecContext.file, Function.update_eq_self]
  have hwrite (src : Nat → U8) (count : U32) : writeFile k fd src count = some k := by
    simp only [writeFile, h, writeToBuffer, Option.bind_eq_bind, Option.bind_some, hset]
  have hwords : writeWords k fd words = some k := by
    induction words with
    | nil => rfl
    | cons word words ih =>
        simp only [writeWords, writeWord, hwrite, Option.bind_eq_bind, Option.bind_some, ih]
  simp only [writeRecord, hwords, writeDelimiter, hwrite, Option.bind_eq_bind, Option.bind_some]

/-- The files behind the other descriptors stay. -/
theorem file_with_file_ne {fd' : CInt} (h : fd' ≠ fd) (file : File) :
    (k.withFile fd file).ctx.file fd' = k.ctx.file fd' :=
  Function.update_of_ne (fun heq => h (BitVec.eq_of_toNat_eq heq)) _ _

/-- A record written to a ring or to a closed descriptor: what fits is appended, and the other
files stay. -/
theorem write_record_at (fd : CInt) {target : CInt} (words : List U64) (hring : RingAt k target) :
    ∃ k', writeRecord k target words = some k' ∧
      (fd ≠ target → k'.ctx.file fd = k.ctx.file fd) ∧
      (k.ctx.file target = none → k'.ctx.file target = none) ∧
      ∀ file queue, k.ctx.file target = some file → Represents file.traceBuffer queue →
        ∃ file', k'.ctx.file target = some file' ∧
          Represents file'.traceBuffer (queue ++ Fifo.accepted 4096 queue (encode [words])) := by
  cases hfile : k.ctx.file target with
  | none => exact ⟨k, write_record_closed hfile, fun _ => rfl, fun _ => hfile, by simp⟩
  | some file =>
      obtain ⟨queue, hqueue⟩ := hring file hfile
      obtain ⟨file', hwrite, hrep⟩ := write_record_appends k target words hqueue
      rw [with_file_self hfile] at hwrite
      refine ⟨k.withFile target file', hwrite, fun hne => file_with_file_ne hne file',
        by simp, ?_⟩
      intro file₁ queue₁ hfile₁ hrep₁
      obtain rfl : file = file₁ := Option.some.inj hfile₁
      obtain rfl := hqueue.unique hrep₁
      exact ⟨file', file_with_file k target file', hrep⟩

/-- An event appends its whole record or nothing exactly if there is room for it or none at
all. -/
theorem appends_whole_iff (h : Ready fd k event) :
    AppendsAtomically fd k event ↔ HasRoom fd k event := by
  rcases event_cases h.able with ⟨k', hfits, hrecord, hstep, hfile⟩ | ⟨hfits, hstep⟩ |
    ⟨target, words, mem, hfits, hrecord, hstep⟩
  · -- nothing is written
    refine iff_of_true ⟨k', hstep, fun file queue hopen hrep => ?_⟩ ⟨hfits, ?_⟩
    · exact ⟨file, hfile.trans hopen, Or.inl hrep⟩
    · simp [hrecord]
  · -- the frame walk leaves the scratch page
    refine iff_of_false (fun happends => ?_) fun hroom => hfits hroom.1
    obtain ⟨k', hstep', _⟩ := happends
    simp [hstep] at hstep'
  · have hring : RingAt { k with mem := mem } target := h.ring target words hrecord
    obtain ⟨k', hwrite, hother, -, happend⟩ := write_record_at fd words hring
    have hnew := hstep.trans hwrite
    by_cases htarget : fd = target
    · subst htarget
      constructor
      · intro happends
        obtain ⟨k₁, hnew₁, hwhole⟩ := happends
        obtain rfl := Option.some.inj (hnew.symm.trans hnew₁)
        refine ⟨hfits, fun words₁ file queue hrecord₁ hopen hrep => ?_⟩
        obtain ⟨file₁, hopen₁, hrep₁⟩ := happend file queue hopen hrep
        obtain ⟨file₂, hopen₂, hrep₂⟩ := hwhole file queue hopen hrep
        obtain rfl := Option.some.inj (hopen₁.symm.trans hopen₂)
        obtain rfl : words = words₁ := by simpa [hrecord] using hrecord₁
        rw [← length_encode]
        refine (Fifo.accepted_whole_iff hrep.length_le (by simp [encode])).mp ?_
        rcases hrep₂ with hrep₂ | ⟨words₂, hrecord₂, hrep₂⟩
        · have hqueue := hrep₁.unique hrep₂
          exact Or.inl (List.self_eq_append_right.mp hqueue)
        · obtain rfl : words = words₂ := by simpa [hrecord] using hrecord₂
          exact Or.inr (List.append_cancel_left (hrep₂.unique hrep₁))
      · intro hroom
        refine ⟨k', hnew, fun file queue hopen hrep => ?_⟩
        obtain ⟨file', hopen', hrep'⟩ := happend file queue hopen hrep
        have hfree := hroom.2 words file queue hrecord hopen hrep
        rw [← length_encode] at hfree
        refine ⟨file', hopen', ?_⟩
        rcases (Fifo.accepted_whole_iff hrep.length_le (by simp [encode])).mpr hfree with
          hall | hall
        · rw [hall, List.append_nil] at hrep'
          exact Or.inl hrep'
        · rw [hall] at hrep'
          exact Or.inr ⟨words, hrecord, hrep'⟩
    · refine iff_of_true ⟨k', hnew, fun file queue hopen hrep => ?_⟩ ⟨hfits, ?_⟩
      · exact ⟨file, (hother htarget).trans hopen, Or.inl hrep⟩
      · intro words₁ file queue hrecord₁
        simp only [hrecord, Option.some.injEq, Prod.mk.injEq] at hrecord₁
        exact absurd hrecord₁.1.symm htarget

/-- A closed descriptor stays closed. -/
theorem closed_stays {k' : Kernel} (h : Ready fd k event) (hstep : eventStep k event = some k')
    (hclosed : k.ctx.file fd = none) : k'.ctx.file fd = none := by
  rcases event_cases h.able with ⟨k₁, _, _, hstep₁, hfile⟩ | ⟨_, hstep₁⟩ |
    ⟨target, words, mem, _, hrecord, hstep₁⟩
  · obtain rfl := Option.some.inj (hstep₁.symm.trans hstep)
    exact hfile.trans hclosed
  · simp [hstep] at hstep₁
  · have hring : RingAt { k with mem := mem } target := h.ring target words hrecord
    obtain ⟨k₁, hwrite, hother, hkeeps, -⟩ := write_record_at fd words hring
    obtain rfl := Option.some.inj ((hstep₁.trans hwrite).symm.trans hstep)
    by_cases htarget : fd = target
    · subst htarget
      exact hkeeps hclosed
    · exact (hother htarget).trans hclosed

/-- One event with room keeps a buffer of whole records. -/
theorem whole_records_step (hwhole : WholeRecords fd k) (h : Ready fd k event)
    (hroom : HasRoom fd k event) :
    ∃ k', eventStep k event = some k' ∧ WholeRecords fd k' := by
  obtain ⟨k', hstep, hkeeps⟩ := (appends_whole_iff h).mpr hroom
  refine ⟨k', hstep, fun file' hopen' => ?_⟩
  cases hfile : k.ctx.file fd with
  | none => simp [closed_stays h hstep hfile] at hopen'
  | some file =>
      obtain ⟨records, hrecords⟩ := hwhole file hfile
      obtain ⟨file₁, hopen₁, hcase⟩ := hkeeps file (encode records) hfile hrecords
      obtain rfl := Option.some.inj (hopen₁.symm.trans hopen')
      rcases hcase with hrep | ⟨words, _, hrep⟩
      · exact ⟨records, hrep⟩
      · exact ⟨records ++ [words], by rwa [encode_append]⟩

/-! ## Runs -/

/-- Records are appended whole or not at all exactly if there is room for them or none at all,
and a buffer of whole records stays one in every run in which this is so. -/
theorem records_whole_iff (fd : CInt) :
    (∀ k event, Ready fd k event → (AppendsAtomically fd k event ↔ HasRoom fd k event)) ∧
    ∀ k events, WholeRecords fd k →
      Runs.AllSteps eventStep (fun k event => Ready fd k event ∧ HasRoom fd k event) k events →
      ∃ k', Runs.run eventStep k events = some k' ∧ WholeRecords fd k' :=
  ⟨fun _ _ hready => appends_whole_iff hready, fun _ _ hwhole hsteps =>
    Runs.run_invariant (fun _ _ hinv hstep => whole_records_step hinv hstep.1 hstep.2) hwhole
      hsteps⟩

/-- A call of a process that traces every call to an open trace buffer. -/
theorem sample_call_ready {file : File} {queue : List U8} (h : Represents file.traceBuffer queue)
    (call : Syscall) : Ready 3 (sampleKernel.withFile 3 file) (.call call) := by
  refine ⟨Or.inr ⟨3, sample_kernel_traces⟩, fun target words hrecord => ?_⟩
  simp only [eventRecord, trace_target_with_file] at hrecord
  rcases sample_kernel_traces.target call.num with htarget | htarget
  · simp [htarget] at hrecord
  · simp only [htarget, Option.map_some, Option.some.injEq, Prod.mk.injEq] at hrecord
    obtain ⟨rfl, rfl⟩ := hrecord
    intro file' hopen
    obtain rfl := Option.some.inj ((file_with_file _ _ _).symm.trans hopen)
    exact ⟨queue, h⟩

/-- A `getpid` into an empty buffer. -/
theorem records_whole_sample :
    let k := sampleKernel.withFile 3 sampleFile
    let event := Event.call ⟨2, 0, 0, 0, 0⟩
    (AppendsAtomically 3 k event ↔ HasRoom 3 k event) ∧
      ∃ k', Runs.run eventStep k [event] = some k' ∧ WholeRecords 3 k' := by
  intro k event
  have hready : Ready 3 k event := sample_call_ready sample_file_empty _
  have hroom : HasRoom 3 k event := by
    refine ⟨trivial, fun words file queue hrecord hopen hrep => Or.inr ?_⟩
    have hwords : eventRecord k event = some (some (3, [2])) := by decide
    obtain rfl : [2] = words := by simpa [hwords] using hrecord
    obtain rfl := Option.some.inj ((file_with_file _ _ _).symm.trans hopen)
    rw [sample_file_empty.unique hrep]
    decide
  have hwhole : WholeRecords 3 k := by
    intro file hopen
    obtain rfl := Option.some.inj ((file_with_file _ _ _).symm.trans hopen)
    exact ⟨[], sample_file_empty⟩
  exact ⟨(records_whole_iff 3).1 k event hready,
    (records_whole_iff 3).2 k [event] hwhole ⟨⟨hready, hroom⟩, fun _ _ => trivial⟩⟩

/-- Records end with a delimiter. -/
theorem encode_ends (records : List (List U64)) (hne : records ≠ []) :
    (encode records).getLast? = some DELIMITER := by
  induction records with
  | nil => exact absurd rfl hne
  | cons words records ih =>
      rw [encode, List.getLast?_append, List.getLast?_cons]
      cases records with
      | nil => rfl
      | cons words' records => simp [ih]

/-- After 455 times `getpid` one byte is free. The next `getpid` stores the first byte of its
number there, and the buffer does not hold a whole number of records any more. -/
theorem record_cut_short :
    ∃ k', performAll (sampleKernel.withFile 3 sampleFile) (List.replicate 455 ⟨2, 0, 0, 0, 0⟩) =
        some k' ∧ WholeRecords 3 k' ∧ ¬ AppendsAtomically 3 k' (.call ⟨2, 0, 0, 0, 0⟩) ∧
      ∃ k'', eventStep k' (.call ⟨2, 0, 0, 0, 0⟩) = some k'' ∧ ¬ WholeRecords 3 k'' := by
  let call : Syscall := ⟨2, 0, 0, 0, 0⟩
  have htarget : traceTarget sampleKernel 2 = some (some 3) := by decide
  have hrecords : tracedRecords sampleKernel (List.replicate 455 call) =
      List.replicate 455 [2] := by
    rw [tracedRecords, List.filter_replicate, if_pos (by decide), List.map_replicate]
    rfl
  have hsize : encodedSize (List.replicate 455 [2]) = 4095 := by
    rw [encodedSize, List.map_replicate, List.sum_replicate_nat]
    rfl
  obtain ⟨file, hrun, hrep⟩ := perform_all_stores sample_kernel_traces (List.replicate 455 call)
    sample_file_empty (by rw [hrecords, hsize]; decide)
  rw [hrecords, List.nil_append] at hrep
  have hready := sample_call_ready hrep call
  have htarget' : traceTarget (sampleKernel.withFile 3 file) call.num = some (some 3) := htarget
  refine ⟨_, hrun, ?_, ?_, ?_⟩
  · intro file' hopen
    obtain rfl := Option.some.inj ((file_with_file _ _ _).symm.trans hopen)
    exact ⟨_, hrep⟩
  · rw [appends_whole_iff hready]
    intro hroom
    have hfree := hroom.2 [2] file _ (by
      simp only [eventRecord, trace_target_with_file]
      rw [htarget]
      rfl) (file_with_file _ _ _) hrep
    rw [length_encode, hsize] at hfree
    revert hfree
    decide
  · obtain ⟨file', hwrite, hrep'⟩ := write_record_appends sampleKernel 3 call.words hrep
    have hbyte : Fifo.accepted 4096 (encode (List.replicate 455 [2])) (encode [call.words]) =
        [2] := by
      rw [Fifo.accepted, length_encode, hsize]
      decide
    rw [hbyte] at hrep'
    refine ⟨sampleKernel.withFile 3 file', ?_, fun hwhole => ?_⟩
    · rw [eventStep, perform_tracing_record htarget', hwrite]
      rfl
    · obtain ⟨records, hrecords'⟩ := hwhole file' (file_with_file _ _ _)
      have hqueue := hrep'.unique hrecords'
      have hne : records ≠ [] := by
        intro hnil
        rw [hnil] at hqueue
        exact List.append_ne_nil_of_right_ne_nil _ (by decide) hqueue.symm
      have hend := encode_ends records hne
      rw [hqueue, List.getLast?_concat] at hend
      revert hend
      decide

end GemOS.Tracer
