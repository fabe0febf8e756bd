import GemOS.Tracer.RecordDecoding

/-!
# Round trip of the trace records

What runs of `perform_tracing` and of `handle_ftrace_fault` leave in an empty trace buffer, and
when the record readers give it back. `perform_all_stores` and `fault_all_stores` are the two
run lemmas.
-/

namespace GemOS.Tracer

open LinkedList

/-! ## Readers on a buffer of records -/

/-- The loop of the readers on a buffer that holds at least one record. -/
theorem read_file_reads_back {file : File} {count : U64} {records : List (List U64)}
    (h : Represents file.traceBuffer (encode records)) (hne : records ≠ [])
    (hfree : DelimiterFree (records.take count.toNat)) :
    ReadsBack (readFile file count) records count.toNat := by
  have hlen := h.length_le
  rcases h with ⟨_, _, _, hempty⟩ | ⟨r, n, hr, hn, hrear, hfront, _, hcontents⟩
  · exact absurd (by simpa [encoded_size_eq_zero] using congrArg List.length hempty) hne
  · have hwrite : file.traceBuffer.writeOffset = BitVec.ofInt 32 ((r + n) % 4096 : Nat) := by
      rw [← hfront, BitVec.ofInt_toInt]
    obtain ⟨rear, tb, hread, hrep⟩ :=
      read_records_holds [] hr hn hwrite hcontents.symm hfree
    rw [List.nil_append] at hread
    have hfile : readFile file count = some
        ⟨(BitVec.ofNat 32 ((records.take count.toNat).flatMap recordBytes).length).toInt,
          (records.take count.toNat).flatMap recordBytes,
          some { file with traceBuffer := { tb with readOffset := BitVec.ofInt 32 rear } }⟩ := by
      simp only [readFile, hrear, hfront, hread, Option.bind_eq_bind, Option.bind_some]
    have hout : ((records.take count.toNat).flatMap recordBytes).length ≤ 4096 :=
      Nat.le_trans (length_take_record_bytes_le records _) hlen
    exact ⟨_, _, hfile, rfl, to_int_ofNat hout, rfl, hrep⟩

/-- A right answer contains no delimiter byte, so the records read cannot contain one. -/
theorem ReadsBack.delimiter_free {file : File} {count : U64} {records : List (List U64)}
    (h : ReadsBack (readFile file count) records count.toNat) :
    DelimiterFree (records.take count.toNat) := by
  obtain ⟨answer, _, hread, hout, _⟩ := h
  have hno := read_file_no_delimiter hread
  intro words hwords hmem
  exact hno (hout ▸ List.mem_flatMap.mpr ⟨words, hwords, hmem⟩)

/-- On an empty buffer the reading loop starts at index -1, outside the page. -/
theorem copy_record_outside (tb : TraceBufferInfo) (fuel : Nat) (out : List U8) :
    copyRecord tb fuel (-1) out = none := by
  cases fuel <;> simp [copyRecord, TraceBufferInfo.load]

theorem read_file_empty {file : File} {count : U64} (h : Represents file.traceBuffer [])
    (hcount : count.toNat ≠ 0) : readFile file count = none := by
  have hrear := (h.empty_offsets).2
  obtain ⟨m, hm⟩ := Nat.exists_eq_succ_of_ne_zero hcount
  simp only [readFile, hm, hrear, readRecords, copy_record_outside, Option.bind_eq_bind,
    Option.bind_none]

/-- `sys_read_strace` on a buffer of records. -/
theorem sys_read_strace_iff {file : File} (count : U64) {records : List (List U64)}
    (h : Represents file.traceBuffer (encode records)) :
    ReadsBack (sysReadStrace (some file) count) records count.toNat ↔
      DelimiterFree (records.take count.toNat) ∧ (records ≠ [] ∨ count.toNat = 0) := by
  constructor
  · intro hback
    refine ⟨hback.delimiter_free, ?_⟩
    by_contra hnot
    obtain ⟨hnil, hcount⟩ := not_or.mp hnot
    obtain rfl := not_not.mp hnil
    obtain ⟨answer, _, hread, _⟩ := hback
    simp [sysReadStrace, read_file_empty h hcount] at hread
  · intro h'
    obtain ⟨hfree, hcase⟩ := h'
    by_cases hne : records = []
    · subst hne
      have hcount : count.toNat = 0 := hcase.resolve_left (by simp)
      have hrear := (h.empty_offsets).2
      refine ⟨⟨0, [], some file⟩, file, ?_, by simp, rfl, rfl, by simpa using h⟩
      simp [sysReadStrace, readFile, hcount, readRecords]
    · exact read_file_reads_back h hne hfree

/-- `sys_read_ftrace` on a buffer of records. -/
theorem sys_read_ftrace_iff {file : File} (count : U64) {records : List (List U64)}
    (h : Represents file.traceBuffer (encode records)) :
    ReadsBack (sysReadFtrace (some file) count) records count.toNat ↔
      DelimiterFree (records.take count.toNat) ∧ records ≠ [] := by
  by_cases hne : records = []
  · subst hne
    have hoffsets := h.empty_offsets
    simp only [ne_eq, not_true_eq_false, and_false, iff_false]
    intro h'
    obtain ⟨answer, file', hread, hout, hret, _⟩ := h'
    simp only [sysReadFtrace, hoffsets, and_self, if_true, Option.some.injEq] at hread
    subst hread
    simp [EINVAL] at hret
  · have hread : sysReadFtrace (some file) count = readFile file count :=
      if_neg (fun hempty => hne (by
        simpa [encoded_size_eq_zero] using congrArg List.length (h.empty_of_offsets hempty)))
    rw [hread]
    exact ⟨fun hback => ⟨hback.delimiter_free, hne⟩,
      fun hfree => read_file_reads_back h hne hfree.1⟩

/-! ## Runs of `perform_tracing` -/

/-- Traced system calls of the process are recorded at descriptor `fd`: the list head names it
and the list of traced calls is complete. -/
def TracesTo (k : Kernel) (fd : CInt) : Prop :=
  ∃ base head xs, k.ctx.stMdBase = some base ∧ k.straceHeads.cell base = some head ∧
    head.straceFd = fd ∧ Seg k.straceNodes head.next xs none ∧ (xs.map Prod.fst).Nodup

/-- System calls one after the other. -/
def performAll : Kernel → List Syscall → Option Kernel
  | k, [] => some k
  | k, call :: calls => do
      let (_, k) ← performTracing k call
      performAll k calls

/-- The records of the calls that `perform_tracing` selects. -/
def tracedRecords (k : Kernel) (calls : List Syscall) : List (List U64) :=
  (calls.filter fun call => (traceTarget k call.num).join.isSome).map Syscall.words

/-- The checks of `perform_tracing` end, with the descriptor if the call is selected. -/
theorem TracesTo.target {k : Kernel} {fd : CInt} (h : TracesTo k fd) (num : U64) :
    traceTarget k num = some none ∨ traceTarget k num = some (some fd) := by
  obtain ⟨base, head, xs, hbase, hhead, rfl, hseg, hnodup⟩ := h
  have hsearch := search_seg (fun info : StraceInfo => info.syscallNum.signExtend 64 = num)
    none hseg (Nat.lt_succ_of_le (hseg.length_le hnodup))
  simp only [traceTarget, hbase, hhead, findTraced, hsearch, Option.bind_eq_bind,
    Option.bind_some]
  split_ifs <;> simp

/-- The selection does not look at the files. -/
theorem trace_target_with_file (k : Kernel) (fd : CInt) (file : File) (num : U64) :
    traceTarget (k.withFile fd file) num = traceTarget k num := rfl

section Runs

variable {k : Kernel} {fd : CInt} {file : File} {queue : List U8}

/-- A selected call is a record written. -/
theorem perform_tracing_record {call : Syscall} (h : traceTarget k call.num = some (some fd)) :
    performTracing k call = (writeRecord k fd call.words).map fun k => (0, k) := by
  simp only [performTracing, h, writeRecord, Option.bind_eq_bind, Option.bind_some,
    Option.map_eq_bind, Option.bind_assoc]
  rfl

/-- One call: a selected one stores its record, another leaves the buffer alone. -/
theorem perform_tracing_stores (hto : TracesTo k fd) (call : Syscall)
    (h : Represents file.traceBuffer queue)
    (hfit : queue.length + encodedSize (tracedRecords k [call]) ≤ 4096) :
    ∃ file', performTracing (k.withFile fd file) call = some (0, k.withFile fd file') ∧
      Represents file'.traceBuffer (queue ++ encode (tracedRecords k [call])) := by
  rcases hto.target call.num with htarget | htarget
  · refine ⟨file, ?_, by simpa [tracedRecords, htarget, encode] using h⟩
    simp only [performTracing, trace_target_with_file, htarget, Option.bind_eq_bind,
      Option.bind_some]
  · have hrecords : tracedRecords k [call] = [call.words] := by simp [tracedRecords, htarget]
    rw [hrecords] at hfit ⊢
    obtain ⟨file', hwrite, hrep⟩ := write_record_stores k fd call.words h hfit
    refine ⟨file', ?_, hrep⟩
    rw [perform_tracing_record ((trace_target_with_file k fd file call.num).trans htarget), hwrite]
    rfl

/-- A run of system calls stores the records of the selected ones in order. -/
theorem perform_all_stores (hto : TracesTo k fd) (calls : List Syscall)
    (h : Represents file.traceBuffer queue)
    (hfit : queue.length + encodedSize (tracedRecords k calls) ≤ 4096) :
    ∃ file', performAll (k.withFile fd file) calls = some (k.withFile fd file') ∧
      Represents file'.traceBuffer (queue ++ encode (tracedRecords k calls)) := by
  induction calls generalizing file queue with
  | nil => exact ⟨file, rfl, by simpa [tracedRecords, encode] using h⟩
  | cons call calls ih =>
      have hsplit : tracedRecords k (call :: calls) =
          tracedRecords k [call] ++ tracedRecords k calls := by
        simp only [tracedRecords, ← List.map_append, ← List.filter_append, List.singleton_append]
      rw [hsplit, encoded_size_append] at hfit
      obtain ⟨file₁, hcall, hrep₁⟩ := perform_tracing_stores hto call h (by omega)
      obtain ⟨file₂, hcalls, hrep₂⟩ := ih hrep₁ (by simp; omega)
      refine ⟨file₂, ?_, by simpa [hsplit, encode_append] using hrep₂⟩
      simp only [performAll, hcall, hcalls, Option.bind_eq_bind, Option.bind_some]

/-! ## Runs of `handle_ftrace_fault` -/

/-- User memory and registers when a traced function is entered. -/
structure Fault where
  mem : UserMem
  regs : UserRegs

/-- Faults one after the other. In between the process runs, so each fault comes with its own
memory and registers. -/
def handleFaults (fuel : Nat) : Kernel → List Fault → Option Kernel
  | k, [] => some k
  | k, fault :: faults => do
      let (_, k, _) ← handleFtraceFault fuel { k with mem := fault.mem } fault.regs
      handleFaults fuel k faults

/-- The words after the arguments: the function and its callers, if they are captured. -/
def backtraceWords (fuel : Nat) (info : FtraceInfo) (fault : Fault) : Option (List U64) :=
  let regs := enterFunction fault.regs
  let mem := storeWord fault.mem regs.entryRsp fault.regs.rbp
  if info.captureBacktrace = 1 then do
    let frames ← walkFrames mem fuel SCRATCH_WORDS (loadWord mem regs.rbp)
      (loadWord mem (regs.rbp + 8))
    some (fault.regs.entryRip :: frames)
  else some []

/-- The descriptor and the words of the record of a fault; `none` when the function is not
registered or its call chain does not end within the scratch page. -/
def faultRecord (fuel : Nat) (k : Kernel) (fault : Fault) : Option (CInt × List U64) := do
  let base ← k.ctx.ftMdBase
  let head ← k.ftraceHeads.cell base
  let (_, found) ← findRegistered k head fault.regs.entryRip
  let node ← found
  let cell ← k.ftraceNodes.cell node
  let backtrace ← backtraceWords fuel cell.data fault
  some (cell.data.fd,
    fault.regs.entryRip :: fault.regs.args.take cell.data.numArgs.toNat ++ backtrace)

/-- User memory plays no part in what is written. -/
theorem write_words_mem (words : List U64) (mem : UserMem) :
    writeWords { k with mem := mem } fd words =
      (writeWords k fd words).map fun k => { k with mem := mem } := by
  induction words generalizing k with
  | nil => rfl
  | cons word words ih =>
      simp only [writeWords, writeWord, writeFile, Option.bind_eq_bind]
      cases writeToBuffer (k.ctx.file fd) (wordByte word) 8 with
      | none => rfl
      | some answer => exact ih (k := { k with ctx := k.ctx.setFile fd answer.2 })

/-- Words are written one after the other. -/
theorem write_words_split (words words' : List U64) :
    writeWords k fd (words ++ words') =
      (writeWords k fd words).bind fun k => writeWords k fd words' := by
  induction words generalizing k with
  | nil => rfl
  | cons word words ih =>
      simp only [List.cons_append, writeWords, Option.bind_eq_bind, Option.bind_assoc, ih]

/-- Writing keeps user memory. -/
theorem write_words_keeps_mem {k' : Kernel} {words : List U64}
    (h : writeWords k fd words = some k') : k'.mem = k.mem := by
  have hmem : writeWords k fd words = (writeWords k fd words).map fun k' =>
      { k' with mem := k.mem } := write_words_mem words k.mem
  rw [h] at hmem
  exact Option.some.inj (congrArg (Option.map Kernel.mem) hmem)

/-- Recording the call chain is writing its words. -/
theorem record_backtrace_eq (fuel : Nat) (info : FtraceInfo) {fault : Fault}
    (hmem : k.mem = storeWord fault.mem (enterFunction fault.regs).entryRsp fault.regs.rbp) :
    recordBacktrace fuel k info fault.regs.entryRip (enterFunction fault.regs).rbp =
      (backtraceWords fuel info fault).bind fun backtrace => writeWords k info.fd backtrace := by
  by_cases hcapture : info.captureBacktrace = 1
  · rw [recordBacktrace, if_pos hcapture, backtraceWords, if_pos hcapture]
    cases hword : writeWord k info.fd fault.regs.entryRip with
    | none =>
        simp only [writeWords, hword, Option.bind_eq_bind, Option.bind_none, Option.bind_assoc,
          Option.bind_some, Option.bind_fun_none]
    | some k' =>
        have hwords : writeWords k info.fd [fault.regs.entryRip] = some k' := by
          simp [writeWords, hword]
        have hkept := write_words_keeps_mem hwords
        simp only [writeWords, hword, hkept, hmem, Option.bind_eq_bind, Option.bind_some,
          Option.bind_assoc]
  · rw [recordBacktrace, if_neg hcapture, backtraceWords, if_neg hcapture]
    rfl

/-- User memory when the function goes on: the handler has pushed the frame pointer. -/
def Fault.memAfter (fault : Fault) : UserMem :=
  storeWord fault.mem (enterFunction fault.regs).entryRsp fault.regs.rbp

/-- A fault is a record written. -/
theorem handle_fault_eq (fuel : Nat) (fault : Fault) :
    handleFtraceFault fuel { k with mem := fault.mem } fault.regs =
      (faultRecord fuel k fault).bind fun record =>
        (writeRecord { k with mem := fault.memAfter } record.1 record.2).map
          fun k => (0, k, enterFunction fault.regs) := by
  have hfind (head : FtraceHead) :
      findRegistered { k with mem := fault.mem } head fault.regs.entryRip =
        findRegistered k head fault.regs.entryRip := rfl
  simp only [handleFtraceFault, faultRecord, hfind, Option.bind_eq_bind, Option.bind_assoc,
    Option.bind_some]
  refine Option.bind_congr fun base _ => Option.bind_congr fun head _ =>
    Option.bind_congr fun found _ => Option.bind_congr fun node _ =>
    Option.bind_congr fun cell _ => ?_
  let args := fault.regs.entryRip :: fault.regs.args.take cell.data.numArgs.toNat
  have hstore : writeWords { k with mem := fault.memAfter } cell.data.fd args =
      (writeWords { k with mem := fault.mem } cell.data.fd args).map
        fun k => { k with mem := fault.memAfter } :=
    write_words_mem (k := { k with mem := fault.mem }) args fault.memAfter
  simp only [writeRecord, write_words_split]
  rw [hstore]
  cases hargs : writeWords { k with mem := fault.mem } cell.data.fd args with
  | none => simp
  | some k₁ =>
      have hmem : k₁.mem = fault.mem := write_words_keeps_mem hargs
      have hchain := record_backtrace_eq (k := { k₁ with mem := fault.memAfter }) fuel cell.data rfl
      simp only [Option.bind_some, Option.map_some, hmem]
      rw [← Fault.memAfter, hchain]
      simp only [Option.bind_eq_bind, Option.map_eq_bind, Option.bind_assoc, Function.comp_def]

/-- A fault of a registered function stores its record. -/
theorem handle_fault_stores {fuel : Nat} {fault : Fault} {words : List U64}
    (hrecord : faultRecord fuel k fault = some (fd, words)) (h : Represents file.traceBuffer queue)
    (hfit : queue.length + encodedSize [words] ≤ 4096) :
    ∃ mem regs file',
      handleFtraceFault fuel ({ k with mem := fault.mem }.withFile fd file) fault.regs =
        some (0, { k with mem := mem }.withFile fd file', regs) ∧
      Represents file'.traceBuffer (queue ++ encode [words]) := by
  obtain ⟨file', hwrite, hrep⟩ :=
    write_record_stores { k with mem := fault.memAfter } fd words h hfit
  refine ⟨fault.memAfter, enterFunction fault.regs, file', ?_, hrep⟩
  have hrecord' : faultRecord fuel (k.withFile fd file) fault = some (fd, words) := hrecord
  have hhandle := handle_fault_eq (k := k.withFile fd file) fuel fault
  rw [hrecord'] at hhandle
  change _ = (writeRecord ({ k with mem := fault.memAfter }.withFile fd file) fd words).map _
    at hhandle
  rw [hwrite] at hhandle
  exact hhandle

/-- A run of faults stores their records in order. -/
theorem fault_all_stores {fuel : Nat} {faults : List Fault} {records : List (List U64)}
    (hrecords : List.Forall₂ (fun fault words => faultRecord fuel k fault = some (fd, words))
      faults records)
    (h : Represents file.traceBuffer queue)
    (hfit : queue.length + encodedSize records ≤ 4096) :
    ∃ mem file', handleFaults fuel (k.withFile fd file) faults =
        some ({ k with mem := mem }.withFile fd file') ∧
      Represents file'.traceBuffer (queue ++ encode records) := by
  induction faults generalizing k file queue records with
  | nil =>
      cases hrecords
      exact ⟨k.mem, file, rfl, by simpa [encode] using h⟩
  | cons fault faults ih =>
      obtain ⟨words, records, hrecord, hrest, rfl⟩ := List.forall₂_cons_left_iff.mp hrecords
      have hsplit : words :: records = [words] ++ records := rfl
      rw [hsplit, encoded_size_append] at hfit
      obtain ⟨mem₁, regs, file₁, hfault, hrep₁⟩ := handle_fault_stores hrecord h (by omega)
      obtain ⟨mem₂, file₂, hfaults, hrep₂⟩ := ih (k := { k with mem := mem₁ }) hrest hrep₁
        (by simp; omega)
      refine ⟨mem₂, file₂, ?_, by simpa [encode] using hrep₂⟩
      simp only [handleFaults, Option.bind_eq_bind]
      change (handleFtraceFault fuel ({ k with mem := fault.mem }.withFile fd file)
        fault.regs).bind _ = _
      simp only [hfault, Option.bind_some, hfaults]

end Runs

/-! ## The round trip -/

/-- Records of system calls, and records of function entries, are read back exactly when no
byte of a record that is read looks like the delimiter and the buffer is not empty. -/
theorem trace_records_read_back_iff (k : Kernel) (fd : CInt) (file : File)
    (hempty : Represents file.traceBuffer []) (count : U64) :
    (∀ calls, TracesTo k fd → encodedSize (tracedRecords k calls) ≤ 4096 →
      ∃ k', performAll (k.withFile fd file) calls = some k' ∧
        (ReadsBack (sysReadStrace (k'.ctx.file fd) count) (tracedRecords k calls) count.toNat ↔
          DelimiterFree ((tracedRecords k calls).take count.toNat) ∧
            (tracedRecords k calls ≠ [] ∨ count.toNat = 0))) ∧
    (∀ fuel faults records,
      List.Forall₂ (fun fault words => faultRecord fuel k fault = some (fd, words))
        faults records →
      encodedSize records ≤ 4096 →
      ∃ k', handleFaults fuel (k.withFile fd file) faults = some k' ∧
        (ReadsBack (sysReadFtrace (k'.ctx.file fd) count) records count.toNat ↔
          DelimiterFree (records.take count.toNat) ∧ records ≠ [])) := by
  constructor
  · intro calls hto hfit
    obtain ⟨file', hrun, hrep⟩ := perform_all_stores hto calls hempty (by simpa using hfit)
    refine ⟨_, hrun, ?_⟩
    rw [file_with_file]
    exact sys_read_strace_iff count hrep
  · intro fuel faults records hrecords hfit
    obtain ⟨mem, file', hrun, hrep⟩ := fault_all_stores hrecords hempty (by simpa using hfit)
    refine ⟨_, hrun, ?_⟩
    rw [file_with_file]
    exact sys_read_ftrace_iff count hrep

/-- A process that traces every system call to descriptor 3 and has one registered function with
two arguments, traced to the same descriptor. -/
def sampleKernel : Kernel :=
  { ctx := { sampleContext with ftMdBase := some 0, stMdBase := some 0 }
    straceHeads := (Heap.empty.alloc { newStraceHead with
      isTraced := 1, straceFd := 3, tracingMode := FULL_TRACING }).2
    straceNodes := Heap.empty
    ftraceHeads := (Heap.empty.alloc { count := 1, next := some 0, last := some 0 }).2
    ftraceNodes := (Heap.empty.alloc
      { data := { faddr := 0x100001000, codeBackup := fun _ => 0x55, numArgs := 2, fd := 3
                  captureBacktrace := 0 }
        next := none }).2
    mem := fun _ => 0 }

/-- An open, empty trace buffer. -/
def sampleFile : File :=
  { type := TRACE_BUFFER, mode := O_RDWR, offp := 0, refCount := 1
    traceBuffer := newTraceBuffer fun _ => 0 }

theorem sample_file_empty : Represents sampleFile.traceBuffer [] :=
  represents_new _

theorem sample_kernel_traces : TracesTo sampleKernel 3 :=
  ⟨0, _, [], rfl, Heap.alloc_cell_self _ _, rfl, rfl, List.nodup_nil⟩

/-- A `write` of one byte and a function entry come back. -/
theorem trace_records_read_back_sample :
    let calls : List Syscall := [⟨25, 1, 0x180000000, 1, 0⟩]
    let faults : List Fault := [⟨fun _ => 0, ⟨7, 8, 0, 0, 0, 0x7ff000, 0x100001000, 0x7fe000⟩⟩]
    let records : List (List U64) := [[0x100001000, 7, 8]]
    (∃ k', performAll (sampleKernel.withFile 3 sampleFile) calls = some k' ∧
      (ReadsBack (sysReadStrace (k'.ctx.file 3) 1) (tracedRecords sampleKernel calls) 1 ↔
        DelimiterFree ((tracedRecords sampleKernel calls).take 1) ∧
          (tracedRecords sampleKernel calls ≠ [] ∨ 1 = 0))) ∧
    (∃ k', handleFaults 1 (sampleKernel.withFile 3 sampleFile) faults = some k' ∧
      (ReadsBack (sysReadFtrace (k'.ctx.file 3) 1) records 1 ↔
        DelimiterFree (records.take 1) ∧ records ≠ [])) := by
  intro calls faults records
  have hboth := trace_records_read_back_iff sampleKernel 3 sampleFile sample_file_empty 1
  exact ⟨hboth.1 calls sample_kernel_traces (by decide),
    hboth.2 1 faults records (.cons (by decide) .nil) (by decide)⟩

/-- A `write` of 32 bytes: the length in the record looks like the delimiter, and one record
read is not the record written. -/
theorem strace_record_cut_short :
    ∃ k', performAll (sampleKernel.withFile 3 sampleFile) [⟨25, 1, 0x180000000, 32, 0⟩] =
        some k' ∧
      ¬ ReadsBack (sysReadStrace (k'.ctx.file 3) 1) [[25, 1, 0x180000000, 32]] 1 := by
  have hrecords : tracedRecords sampleKernel [⟨25, 1, 0x180000000, 32, 0⟩] =
      [[25, 1, 0x180000000, 32]] := by decide
  obtain ⟨file, hrun, hrep⟩ := perform_all_stores
    sample_kernel_traces [⟨25, 1, 0x180000000, 32, 0⟩] sample_file_empty (by decide)
  refine ⟨_, hrun, ?_⟩
  rw [file_with_file]
  rw [hrecords, List.nil_append] at hrep
  intro hback
  have hfree := ((sys_read_strace_iff 1 hrep).mp hback).1
  exact hfree [25, 1, 0x180000000, 32] (by decide) (by decide)

end GemOS.Tracer
