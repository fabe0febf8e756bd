import GemOS.Lib.Runs
import GemOS.Tracer.BufferQueue

/-!
# Descriptor modes

`sys_create_trace_buffer` records the mode in the file, and the user calls are meant to refuse
what it forbids. Their tests compare the flag with 0 instead of the masked mode
(`read_guard_inert`, `write_guard_inert`), so `call_enforced_iff` finds every forbidden call
carried out, and a run keeps to the mode exactly when it makes no such call.
-/

namespace GemOS.Tracer

/-- A user call that the mode of the file forbids. -/
def BufferOp.Forbidden (mode : CInt) : BufferOp → Prop
  | .traceBufferWrite _ _ _ _ => mode = O_READ
  | .traceBufferRead _ _ _ _ => mode = O_WRITE
  | .writeToBuffer _ _ => False

/-- The bytes a user call offers for writing. -/
def BufferOp.userOffered : BufferOp → List U8
  | op@(.traceBufferWrite _ _ _ _) => op.offered
  | _ => []

/-- The bytes of user buffers that the calls of a run took in. -/
def userBytes (ops : List BufferOp) (answers : List BufferAnswer) : List U8 :=
  (List.zipWith (fun op answer => op.userOffered.take answer.ret.toNat) ops answers).flatten

/-- The file after a call. -/
def fileStep (filep : Option File) (op : BufferOp) : Option (Option File) :=
  (bufferStep filep op).map Prod.fst

/-- A forbidden call returns `-EINVAL`, hands out nothing, and leaves contents and offsets as
they are. -/
def CallEnforced (mode : CInt) (filep : Option File) (op : BufferOp) : Prop :=
  ∃ filep' answer, bufferStep filep op = some (filep', answer) ∧
    (op.Forbidden mode → answer.ret = -EINVAL ∧ answer.delivered = [] ∧
      filep'.map File.traceBuffer = filep.map File.traceBuffer)

/-- A run keeps to the mode: every forbidden call is refused, so that no user byte enters a
buffer of mode `O_READ` and no byte leaves one of mode `O_WRITE`. -/
def ModeEnforced (mode : CInt) (filep : Option File) (ops : List BufferOp) : Prop :=
  ∃ filep' answers, bufferRun filep ops = some (filep', answers) ∧
    Runs.AllSteps fileStep (CallEnforced mode) filep ops ∧
    (mode = O_READ → userBytes ops answers = []) ∧
    (mode = O_WRITE → deliveredBytes answers = [])

/-- A valid call answers a byte count. -/
theorem answer_not_negative (answer : Fifo.Answer U8) :
    0 ≤ (BufferAnswer.ofFifo answer).ret := by
  cases answer with
  | pushed values => exact Int.natCast_nonneg _
  | popped values => exact Int.natCast_nonneg _

/-- A valid call keeps to the mode exactly when the mode does not forbid it. -/
theorem call_enforced_iff {file : File} {queue : List U8} {op : BufferOp} {mode : CInt}
    (h : Represents file.traceBuffer queue) (hvalid : op.Valid) :
    CallEnforced mode (some file) op ↔ ¬ op.Forbidden mode := by
  obtain ⟨file', hstep, _⟩ := buffer_step_refines h hvalid
  constructor
  · intro henforced hforbidden
    obtain ⟨filep', answer, hanswer, hrefused⟩ := henforced
    have hret := (hrefused hforbidden).1
    obtain ⟨rfl, rfl⟩ := Prod.mk.inj (Option.some.inj (hstep.symm.trans hanswer))
    have hcount := answer_not_negative (Fifo.step 4096 queue op.toFifo).2
    rw [hret] at hcount
    exact absurd hcount (by decide)
  · intro hallowed
    exact ⟨_, _, hstep, fun hforbidden => absurd hforbidden hallowed⟩

/-- A run of valid calls refuses every forbidden one exactly when it contains none. -/
theorem calls_enforced_iff {file : File} {queue : List U8} {ops : List BufferOp} {mode : CInt}
    (h : Represents file.traceBuffer queue) (hvalid : ∀ op ∈ ops, op.Valid) :
    Runs.AllSteps fileStep (CallEnforced mode) (some file) ops ↔
      ∀ op ∈ ops, ¬ op.Forbidden mode := by
  induction ops generalizing file queue with
  | nil => simp [Runs.AllSteps]
  | cons op ops ih =>
      have hop := hvalid op (by simp)
      obtain ⟨file', hstep, hrep⟩ := buffer_step_refines h hop
      have hfile : fileStep (some file) op = some (some file') := by rw [fileStep, hstep]; rfl
      have hrest := ih hrep fun op hmem => hvalid op (by simp [hmem])
      rw [Runs.AllSteps, call_enforced_iff h hop, List.forall_mem_cons, ← hrest]
      simp only [hfile, Option.some.injEq, forall_eq']

/-- Without a user write no user byte is taken in. -/
theorem user_bytes_eq_nil {ops : List BufferOp} (hnone : ∀ op ∈ ops, ¬ op.Forbidden O_READ)
    (answers : List BufferAnswer) : userBytes ops answers = [] := by
  induction ops generalizing answers with
  | nil => rfl
  | cons op ops ih =>
      cases answers with
      | nil => rfl
      | cons answer answers =>
          have hrest := ih (fun op hmem => hnone op (by simp [hmem])) answers
          have hop : op.userOffered = [] := by
            cases op with
            | traceBufferWrite ctx mem buff count =>
                exact (hnone (.traceBufferWrite ctx mem buff count) (by simp) rfl).elim
            | writeToBuffer src count => rfl
            | traceBufferRead ctx mem buff count => rfl
          simpa [userBytes, hop] using hrest

/-- Only a read hands out bytes. -/
theorem delivered_eq_nil {filep filep' : Option File} {op : BufferOp} {answer : BufferAnswer}
    (hstep : bufferStep filep op = some (filep', answer)) (hread : ¬ op.Forbidden O_WRITE) :
    answer.delivered = [] := by
  cases op with
  | traceBufferRead ctx mem buff count => exact absurd rfl hread
  | traceBufferWrite | writeToBuffer =>
      simp only [bufferStep, Option.bind_eq_bind, Option.bind_eq_some_iff, Option.some.injEq,
        Prod.mk.injEq] at hstep
      obtain ⟨_, _, _, rfl⟩ := hstep
      rfl

/-- Without a read nothing is handed out. -/
theorem delivered_bytes_eq_nil {filep filep' : Option File} {ops : List BufferOp}
    {answers : List BufferAnswer} (hrun : bufferRun filep ops = some (filep', answers))
    (hnone : ∀ op ∈ ops, ¬ op.Forbidden O_WRITE) : deliveredBytes answers = [] := by
  induction ops generalizing filep answers with
  | nil =>
      obtain ⟨_, rfl⟩ := Prod.mk.inj (Option.some.inj hrun)
      rfl
  | cons op ops ih =>
      simp only [bufferRun, Option.bind_eq_bind, Option.bind_eq_some_iff, Option.some.injEq,
        Prod.mk.injEq] at hrun
      obtain ⟨⟨filep₁, answer⟩, hstep, ⟨filep₂, rest⟩, hrest, rfl, rfl⟩ := hrun
      have hop := delivered_eq_nil hstep (hnone op (by simp))
      have hrest := ih hrest fun op hmem => hnone op (by simp [hmem])
      simpa [deliveredBytes, hop] using hrest

/-- On a new trace buffer a run of valid calls keeps to the mode exactly when it contains no
call that the mode forbids: every forbidden call is carried out instead of refused. -/
theorem mode_enforced_iff {allocates : Object → Bool} {page : Fin 4096 → U8}
    {ctx ctx' : ExecContext} {mode : CInt} {fd : Nat} {objects : List Object}
    (hcreate : sysCreateTraceBuffer allocates page (some ctx) mode =
      ((fd : Int), some ctx', objects))
    (ops : List BufferOp) (hvalid : ∀ op ∈ ops, op.Valid) :
    ModeEnforced mode (ctx'.files fd) ops ↔ ∀ op ∈ ops, ¬ op.Forbidden mode := by
  obtain ⟨file, hfile, hnew⟩ := create_installs_empty hcreate
  rw [hfile]
  constructor
  · intro henforced
    obtain ⟨_, _, _, hcalls, _⟩ := henforced
    exact (calls_enforced_iff hnew hvalid).mp hcalls
  · intro hnone
    obtain ⟨file', hrun, _⟩ := buffer_run_refines hnew hvalid
    refine ⟨_, _, hrun, (calls_enforced_iff hnew hvalid).mpr hnone, ?_, ?_⟩
    · intro hmode
      subst hmode
      exact user_bytes_eq_nil hnone _
    · intro hmode
      subst hmode
      exact delivered_bytes_eq_nil hrun hnone

/-- A new trace buffer of the given mode. -/
def bufferOfMode (mode : CInt) : File :=
  ⟨TRACE_BUFFER, mode, 0, 1, newTraceBuffer fun _ => 0⟩

/-- A process that has this buffer at descriptor 0. -/
def contextOfMode (mode : CInt) : ExecContext :=
  { sampleContext with
    files := Function.update sampleContext.files 0 (some (bufferOfMode mode)) }

/-- A read-only buffer that the kernel fills and the user reads. -/
theorem mode_enforced_sample :
    let ops : List BufferOp :=
      [.writeToBuffer (fun _ => 0x20) 8, .traceBufferRead sampleContext (fun _ => 0) 0x2000 8]
    ModeEnforced O_READ ((contextOfMode O_READ).files 0) ops := by
  intro ops
  have hcreate : sysCreateTraceBuffer (fun _ => true) (fun _ => 0) (some sampleContext) O_READ =
      (((0 : Nat) : Int), some (contextOfMode O_READ),
        [.file, .traceBufferInfo, .page, .fileops]) := rfl
  refine (mode_enforced_iff hcreate ops ?_).mpr ?_
  · intro op hop
    simp only [ops, List.mem_cons, List.not_mem_nil, or_false] at hop
    rcases hop with rfl | rfl
    · trivial
    · show isValidMemRange _ _ _ _ = true
      decide
  · intro op hop
    simp only [ops, List.mem_cons, List.not_mem_nil, or_false] at hop
    rcases hop with rfl | rfl
    · exact id
    · show ¬ O_READ = O_WRITE
      decide

/-- A user write to a buffer of mode `O_READ` takes in three bytes, and a user read from one of
mode `O_WRITE` hands out what the kernel wrote. -/
theorem mode_ignored :
    let write : BufferOp := .traceBufferWrite sampleContext (fun _ => 0x41) 0x1000 3
    let read : BufferOp := .traceBufferRead sampleContext (fun _ => 0) 0x2000 2
    (∃ file', bufferRun (some (bufferOfMode O_READ)) [write] = some (some file', [⟨3, []⟩]) ∧
      Represents file'.traceBuffer [0x41, 0x41, 0x41]) ∧
    ¬ ModeEnforced O_READ (some (bufferOfMode O_READ)) [write] ∧
    (∃ file', bufferRun (some (bufferOfMode O_WRITE)) [.writeToBuffer (fun _ => 0x20) 8, read] =
      some (some file', [⟨8, []⟩, ⟨2, [0x20, 0x20]⟩])) ∧
    ¬ ModeEnforced O_WRITE (some (bufferOfMode O_WRITE))
      [.writeToBuffer (fun _ => 0x20) 8, read] := by
  intro write read
  have hnew (mode : CInt) : Represents (bufferOfMode mode).traceBuffer [] := represents_new _
  have hwrite : write.Valid := by
    show isValidMemRange _ _ _ _ = true
    decide
  have hread : read.Valid := by
    show isValidMemRange _ _ _ _ = true
    decide
  have hwrites : ∀ op ∈ [write], op.Valid := by simpa using hwrite
  have hreads : ∀ op ∈ [.writeToBuffer (fun _ => 0x20) 8, read], op.Valid :=
    List.forall_mem_cons.mpr ⟨trivial, by simpa using hread⟩
  obtain ⟨file₁, hrun₁, hrep₁⟩ := buffer_run_refines (hnew O_READ) hwrites
  obtain ⟨file₂, hrun₂, _⟩ := buffer_run_refines (hnew O_WRITE) hreads
  refine ⟨⟨file₁, hrun₁, hrep₁⟩, ?_, ⟨file₂, hrun₂⟩, ?_⟩
  · intro henforced
    obtain ⟨_, _, _, hcalls, _⟩ := henforced
    exact (calls_enforced_iff (hnew O_READ) hwrites).mp hcalls write (by simp) rfl
  · intro henforced
    obtain ⟨_, _, _, hcalls, _⟩ := henforced
    exact (calls_enforced_iff (hnew O_WRITE) hreads).mp hcalls read (by simp) rfl

end GemOS.Tracer
