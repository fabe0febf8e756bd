import GemOS.Tracer.FtraceCode
import GemOS.Tracer.FtraceRuns
import GemOS.Tracer.RecordAtomic
import Mathlib.Data.Fin.VecNotation

/-!
# Programs under function tracing

A program runs on a processor that is a parameter: one instruction at a time, or an
invalid-opcode exception. `tracedStep` is the program with the kernel of `tracer.c` below it, whose
code bytes are overwritten while it runs. `observedStep` is what tracing is for: the program as it
was compiled, and an observer that notes the entries of the functions it has been asked to watch.
-/

namespace GemOS.Tracer

variable {Rest : Type}

/-! ## The processor -/

/-- What a program works with: the registers that the fault handler sees, the other registers,
and memory. -/
structure User (Rest : Type) where
  rest : Rest
  regs : UserRegs
  mem : UserMem

/-- One instruction; `none` is an invalid-opcode exception. -/
abbrev Cpu (Rest : Type) := User Rest → Option (User Rest)

/-- `push %rbp; mov %rsp, %rbp`, which every function starts with. -/
def PROLOGUE : Fin 4 → U8 := ![0x55, 0x48, 0x89, 0xe5]

/-- `push %rbp`. -/
def User.pushFrame (u : User Rest) : User Rest :=
  { u with
    regs := { u.regs with entryRsp := u.regs.entryRsp - 8, entryRip := u.regs.entryRip + 1 }
    mem := storeWord u.mem (u.regs.entryRsp - 8) u.regs.rbp }

/-- `mov %rsp, %rbp`. -/
def User.moveFrame (u : User Rest) : User Rest :=
  { u with regs := { u.regs with rbp := u.regs.entryRsp, entryRip := u.regs.entryRip + 3 } }

/-- What the processor does with the bytes that tracing is about. -/
structure Decodes (cpu : Cpu Rest) : Prop where
  invalid : ∀ u, codeBytes u.mem u.regs.entryRip = (fun _ => INV_OPCODE) → cpu u = none
  push : ∀ u, u.mem u.regs.entryRip = PROLOGUE 0 → cpu u = some u.pushFrame
  move : ∀ u, u.mem u.regs.entryRip = PROLOGUE 1 → u.mem (u.regs.entryRip + 1) = PROLOGUE 2 →
    u.mem (u.regs.entryRip + 2) = PROLOGUE 3 → cpu u = some u.moveFrame

/-! ## The traced program -/

/-- A program and the kernel below it, which holds its memory. -/
structure TracedProgram (Rest : Type) where
  rest : Rest
  regs : UserRegs
  k : Kernel

def TracedProgram.user (s : TracedProgram Rest) : User Rest :=
  ⟨s.rest, s.regs, s.k.mem⟩

/-- An instruction of the program, or a call of `do_ftrace`. -/
inductive ProgramEvent where
  | exec
  | ftrace (call : FtraceCall)

/-- The calls among the events of a run. -/
def ProgramEvent.calls : ProgramEvent → List FtraceCall
  | .exec => []
  | .ftrace call => [call]

/-- One event of the traced program. An exception goes to `handle_ftrace_fault`, and the program
goes on with the registers that it leaves; `answer` puts the result of a call into a register. -/
def tracedStep (cpu : Cpu Rest) (answer : Int → Rest → Rest) (fuel : Nat) (s : TracedProgram Rest) :
    ProgramEvent → Option (TracedProgram Rest)
  | .exec =>
      match cpu s.user with
      | some u => some { rest := u.rest, regs := u.regs, k := { s.k with mem := u.mem } }
      | none => (handleFtraceFault fuel s.k s.regs).map fun result =>
          { s with k := result.2.1, regs := result.2.2 }
  | .ftrace call => (call.run s.k).map fun result =>
      { s with rest := answer result.1 s.rest, k := result.2 }

/-! ## The observed program -/

/-- A function that the observer knows. -/
structure Probe where
  faddr : U64
  numArgs : U32
  fd : CInt
  enabled : Bool
  captured : Bool
  deriving DecidableEq

/-- The program as it was compiled, the functions the observer knows, and the records it has
made, each for a descriptor. -/
structure Observed (Rest : Type) where
  user : User Rest
  probes : List Probe
  log : List (CInt × List U64)

/-- The return addresses of the calls that are open when a function has saved the frame
pointer. -/
def callChain (fuel : Nat) (u : User Rest) : Option (List U64) :=
  let u := u.pushFrame
  walkFrames u.mem fuel SCRATCH_WORDS (loadWord u.mem u.regs.entryRsp)
    (loadWord u.mem (u.regs.entryRsp + 8))

/-- The record of an entry: the function, its first arguments, and the call chain if it is
asked for. -/
def Probe.record (fuel : Nat) (u : User Rest) (p : Probe) : Option (CInt × List U64) :=
  (if p.captured then (callChain fuel u).map (u.regs.entryRip :: ·) else some []).map
    fun chain => (p.fd, u.regs.entryRip :: u.regs.args.take p.numArgs.toNat ++ chain)

/-- What is recorded when an instruction is executed: something if it is the first one of an
enabled function. -/
def Observed.entry (fuel : Nat) (o : Observed Rest) : Option (List (CInt × List U64)) :=
  match o.probes.find? fun p => p.enabled && p.faddr == o.user.regs.entryRip with
  | none => some []
  | some p => (p.record fuel o.user).map fun record => [record]

/-- The actions on a function the observer knows. -/
def Probe.switch (action : U64) (p : Probe) : Probe :=
  if action = ENABLE_FTRACE then { p with enabled := true }
  else if action = DISABLE_FTRACE then { p with enabled := false }
  else if action = ENABLE_BACKTRACE then { p with enabled := true, captured := true }
  else if action = DISABLE_BACKTRACE then { p with enabled := false, captured := false }
  else p

instance (call : FtraceCall) : Decidable call.Negative :=
  inferInstanceAs (Decidable (_ ∨ _))

instance (call : FtraceCall) (fs : List U64) : Decidable (call.Refused fs) :=
  inferInstanceAs (Decidable (_ ∨ _))

/-- What an accepted call makes of the functions the observer knows. -/
def FtraceCall.onProbes (call : FtraceCall) (probes : List Probe) : List Probe :=
  if call.action = ADD_FTRACE then
    probes ++ [⟨call.faddr, call.nargs.setWidth 32, call.fdTraceBuffer, false, false⟩]
  else if call.action = REMOVE_FTRACE then probes.filter fun p => p.faddr ≠ call.faddr
  else probes.map fun p => if p.faddr = call.faddr then p.switch call.action else p

/-- One event of the observed program. -/
def observedStep (cpu : Cpu Rest) (answer : Int → Rest → Rest) (fuel : Nat) (o : Observed Rest) :
    ProgramEvent → Option (Observed Rest)
  | .exec => do
      let records ← o.entry fuel
      let u ← cpu o.user
      some { o with user := u, log := o.log ++ records }
  | .ftrace call =>
      if call.Refused (o.probes.map Probe.faddr) then
        some { o with user := { o.user with rest := answer (-EINVAL) o.user.rest } }
      else
        some { o with
          user := { o.user with rest := answer 0 o.user.rest }
          probes := call.onProbes o.probes }

/-- The observer starts with no function and no record. -/
def TracedProgram.start (s : TracedProgram Rest) : Observed Rest :=
  ⟨s.user, [], []⟩

/-! ## What the program must leave alone -/

/-- The first four bytes of the functions. -/
def codeArea (functions : List U64) : Set U64 :=
  {a | ∃ f ∈ functions, ∃ i < 4, a = f + BitVec.ofNat 64 i}

/-- Those of the functions whose code is overwritten. -/
def patchedArea (functions : List U64) (mem : UserMem) : Set U64 :=
  {a | ∃ f ∈ functions, mem f = INV_OPCODE ∧ ∃ i < 4, a = f + BitVec.ofNat 64 i}

/-- An instruction from `u` to `u'` writes no first bytes of functions, and does not depend on the
overwritten ones. -/
structure LeavesCode (cpu : Cpu Rest) (functions : List U64) (u u' : User Rest) : Prop where
  writes : Set.EqOn u'.mem u.mem (codeArea functions)
  reads : ∀ mem, Set.EqOn mem u.mem (patchedArea functions u.mem)ᶜ →
    ∃ mem', cpu { u with mem := mem } = some { u' with mem := mem' } ∧
      Set.EqOn mem' mem (codeArea functions) ∧ Set.EqOn mem' u'.mem (codeArea functions)ᶜ

/-- A function is entered with a stack that is apart from code, and so are the frames of its
callers. -/
structure StackClear (functions : List U64) (fuel : Nat) (u : User Rest) : Prop where
  push : ∀ i < 8, u.regs.entryRsp - 8 + BitVec.ofNat 64 i ∉ codeArea functions
  chain : ∀ mem, Set.EqOn mem u.mem (codeArea functions)ᶜ →
    callChain fuel { u with mem := mem } = callChain fuel u

/-- The conditions on an event. A program leaves the first bytes of its functions alone apart from
executing them; functions that are enabled already are not enabled again, and one that has been
disabled is not enabled by `ENABLE_BACKTRACE`. -/
def EventClear (cpu : Cpu Rest) (functions : List U64) (fuel : Nat) (s : TracedProgram Rest) :
    ProgramEvent → Prop
  | .exec => (∀ u, cpu s.user = some u → LeavesCode cpu functions s.user u) ∧
      (cpu s.user = none → StackClear functions fuel s.user)
  | .ftrace call => call.faddr ∈ functions ∧
      (call.action = ENABLE_FTRACE → s.k.mem call.faddr ≠ INV_OPCODE) ∧
      (call.action = ENABLE_BACKTRACE → ∀ info, registration s.k call.faddr = some info →
        info.codeBackup 0 = 0 ∨ s.k.mem call.faddr = INV_OPCODE)

end GemOS.Tracer
