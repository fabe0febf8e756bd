import GemOS.Tracer.Record

/-!
# Function tracing

`add_ftrace`, `do_ftrace`, `handle_ftrace_fault` and `sys_read_ftrace`. Patching a function
overwrites its first four code bytes in user memory; the registration keeps the old ones in
`code_backup`. A call answers `none` where the C code follows a null pointer, touches a freed
record or stores outside the scratch page. The store `prev->next = node` with a null `prev`, with
which every action but `ADD_FTRACE` starts, is left out: it does not reach the list.
-/

namespace GemOS.Tracer

open LinkedList

def INV_OPCODE : U8 := 0xFF

def END_ADDR : U64 := 0x10000003B

/-- The actions of `do_ftrace`. -/
def ADD_FTRACE : U64 := 0

def REMOVE_FTRACE : U64 := 1

def ENABLE_FTRACE : U64 := 2

def DISABLE_FTRACE : U64 := 3

def ENABLE_BACKTRACE : U64 := 4

def DISABLE_BACKTRACE : U64 := 5

/-! ## Code bytes -/

/-- The first four code bytes of the function at `faddr`. -/
def codeBytes (mem : UserMem) (faddr : U64) : Fin 4 → U8 :=
  fun i => mem (faddr + BitVec.ofNat 64 i)

/-- Overwrite the first four code bytes of the function at `faddr`, first byte first. -/
def patch (mem : UserMem) (faddr : U64) (bytes : Fin 4 → U8) : UserMem :=
  let mem := Function.update mem faddr (bytes 0)
  let mem := Function.update mem (faddr + 1) (bytes 1)
  let mem := Function.update mem (faddr + 2) (bytes 2)
  Function.update mem (faddr + 3) (bytes 3)

/-- Restore the saved bytes when the first one is not 0, the source's test for "was enabled". -/
def restoreCode (mem : UserMem) (info : FtraceInfo) : UserMem :=
  if info.codeBackup 0 ≠ 0 then patch mem info.faddr info.codeBackup else mem

/-- Save the code bytes of a registered function. -/
def FtraceInfo.save (info : FtraceInfo) (mem : UserMem) : FtraceInfo :=
  { info with codeBackup := codeBytes mem info.faddr }

/-- Fill the code bytes of a registered function with `INV_OPCODE`. -/
def invalidate (mem : UserMem) (info : FtraceInfo) : UserMem :=
  patch mem info.faddr fun _ => INV_OPCODE

/-! ## `do_ftrace` -/

/-- The list head of the process, allocated on first use. -/
def ftraceBase (k : Kernel) : Nat × Kernel :=
  match k.ctx.ftMdBase with
  | some base => (base, k)
  | none =>
      let (base, heads) := k.ftraceHeads.alloc { count := 0, next := none, last := none }
      (base, { k with ftraceHeads := heads, ctx := { k.ctx with ftMdBase := some base } })

/-- Walk the list of registered functions to the one at `faddr`. -/
def findRegistered (k : Kernel) (head : FtraceHead) (faddr : U64) :
    Option (Option Nat × Option Nat) :=
  search k.ftraceNodes (fun info => info.faddr = faddr) (k.ftraceNodes.top + 1) none head.next

/-- A new registration: nothing saved, no backtrace. -/
def newFtraceInfo (faddr nargs : U64) (fdTraceBuffer : CInt) : FtraceInfo :=
  { faddr := faddr, codeBackup := fun _ => 0, numArgs := nargs.setWidth 32
    fd := fdTraceBuffer, captureBacktrace := 0 }

/-- `add_ftrace`. -/
def addFtrace (k : Kernel) (base : Nat) (head : FtraceHead) (faddr nargs : U64)
    (fdTraceBuffer : CInt) : Option (Int × Kernel) := do
  if head.count = FTRACE_MAX then some (-EINVAL, k)
  else
    let (_, found) ← findRegistered k head faddr
    if found.isSome then some (-EINVAL, k)
    else
      let (node, nodes) :=
        k.ftraceNodes.alloc ⟨newFtraceInfo faddr nargs fdTraceBuffer, none⟩
      let (nodes, head) ←
        match head.last with
        | none => some (nodes, { head with next := some node, last := some node })
        | some last => do
            let cell ← nodes.cell last
            let nodes ← nodes.store last { cell with next := some node }
            some (nodes, { head with last := some node })
      let heads ← k.ftraceHeads.store base { head with count := head.count + 1 }
      some (0, { k with ftraceNodes := nodes, ftraceHeads := heads })

/-- The `REMOVE_FTRACE` branch: restore the code, unlink the node and free it. -/
def removeFtrace (k : Kernel) (base : Nat) (head : FtraceHead) (prev : Option Nat) (node : Nat)
    (cell : Cell FtraceInfo) : Option (Int × Kernel) := do
  let (nodes, head) ←
    match prev with
    | none => some (k.ftraceNodes, { head with next := cell.next })
    | some prev => do
        let before ← k.ftraceNodes.cell prev
        let nodes ← k.ftraceNodes.store prev { before with next := cell.next }
        some (nodes, head)
  let head := if cell.next.isNone then { head with last := prev } else head
  let nodes ← nodes.free node
  let heads ← k.ftraceHeads.store base { head with count := head.count - 1 }
  some (0,
    { k with ftraceNodes := nodes, ftraceHeads := heads, mem := restoreCode k.mem cell.data })

/-- The branches that keep the registration: what the action makes of it and of the code. -/
def updateFtrace (action : U64) (info : FtraceInfo) (mem : UserMem) : FtraceInfo × UserMem :=
  if action = ENABLE_FTRACE then (info.save mem, invalidate mem info)
  else if action = DISABLE_FTRACE then (info, restoreCode mem info)
  else if action = ENABLE_BACKTRACE then
    -- a function counts as enabled when its first saved byte is not 0
    if info.codeBackup 0 = 0 then
      ({ info.save mem with captureBacktrace := 1 }, invalidate mem info)
    else ({ info with captureBacktrace := 1 }, mem)
  else if action = DISABLE_BACKTRACE then
    ({ info with captureBacktrace := 0 }, restoreCode mem info)
  else (info, mem)

/-- `do_ftrace`. -/
def doFtrace (k : Kernel) (faddr action nargs : U64) (fdTraceBuffer : CInt) :
    Option (Int × Kernel) := do
  if nargs.slt 0 ∨ fdTraceBuffer.slt 0 then some (-EINVAL, k)
  else
    let (base, k) := ftraceBase k
    let head ← k.ftraceHeads.cell base
    if action = ADD_FTRACE then addFtrace k base head faddr nargs fdTraceBuffer
    else
      let (prev, found) ← findRegistered k head faddr
      match found with
      | none => some (-EINVAL, k)
      | some node =>
          let cell ← k.ftraceNodes.cell node
          if action = REMOVE_FTRACE then removeFtrace k base head prev node cell
          else
            let (info, mem) := updateFtrace action cell.data k.mem
            let nodes ← k.ftraceNodes.store node { cell with data := info }
            some (0, { k with ftraceNodes := nodes, mem := mem })

/-! ## `handle_ftrace_fault` -/

/-- The saved user registers the fault handler reads or writes. -/
structure UserRegs where
  rdi : U64
  rsi : U64
  rdx : U64
  rcx : U64
  r8 : U64
  rbp : U64
  entryRip : U64
  entryRsp : U64

/-- The argument registers in calling-convention order. -/
def UserRegs.args (regs : UserRegs) : List U64 :=
  [regs.rdi, regs.rsi, regs.rdx, regs.rcx, regs.r8]

/-- `*((u64*)address)`. -/
def loadWord (mem : UserMem) (address : U64) : U64 :=
  mem (address + 7) ++ mem (address + 6) ++ mem (address + 5) ++ mem (address + 4) ++
    mem (address + 3) ++ mem (address + 2) ++ mem (address + 1) ++ mem address

/-- `*((u64*)address) = word`. -/
def storeWord (mem : UserMem) (address word : U64) : UserMem :=
  fun a => if (a - address).toNat < 8 then wordByte word (a - address).toNat else mem a

/-- Words that fit the scratch page `func_addrs`. -/
def SCRATCH_WORDS : Nat := 512

/-- The frame walk: return addresses up to `END_ADDR`, from the frame at `rbpPtr` whose caller
is reached through `returnAddr`. `room` counts the free words of the scratch page and `fuel` the
frames looked at. -/
def walkFrames (mem : UserMem) : Nat → Nat → U64 → U64 → Option (List U64)
  | 0, _, _, _ => none
  | fuel + 1, room, rbpPtr, returnAddr =>
      if returnAddr = END_ADDR then some []
      else
        match room with
        | 0 => none
        | room + 1 => do
            let rest ← walkFrames mem fuel room (loadWord mem rbpPtr) (loadWord mem (rbpPtr + 8))
            some (returnAddr :: rest)

/-- The registers after the handler has executed the first instruction, `push %rbp; mov
%rsp, %rbp`, on behalf of the function. -/
def enterFunction (regs : UserRegs) : UserRegs :=
  { regs with
    entryRsp := regs.entryRsp - 8
    rbp := regs.entryRsp - 8
    entryRip := regs.entryRip + 4 }

/-- The part of the handler that records the call chain, if it is captured: the function itself
and the return addresses from the frame at `rbp` on. -/
def recordBacktrace (fuel : Nat) (k : Kernel) (info : FtraceInfo) (faddr rbp : U64) :
    Option Kernel :=
  if info.captureBacktrace = 1 then do
    let k ← writeWord k info.fd faddr
    let frames ← walkFrames k.mem fuel SCRATCH_WORDS (loadWord k.mem rbp)
      (loadWord k.mem (rbp + 8))
    writeWords k info.fd frames
  else some k

/-- `handle_ftrace_fault`. `fuel` bounds the frame walk. -/
def handleFtraceFault (fuel : Nat) (k : Kernel) (regs : UserRegs) :
    Option (Int × Kernel × UserRegs) := do
  let base ← k.ctx.ftMdBase
  let head ← k.ftraceHeads.cell base
  let (_, found) ← findRegistered k head regs.entryRip
  let node ← found
  let cell ← k.ftraceNodes.cell node
  let info := cell.data
  let faddr := regs.entryRip
  let k ← writeWords k info.fd (faddr :: regs.args.take info.numArgs.toNat)
  let regs' := enterFunction regs
  let k := { k with mem := storeWord k.mem regs'.entryRsp regs.rbp }
  let k ← recordBacktrace fuel k info faddr regs'.rbp
  let k ← writeDelimiter k info.fd
  some (0, k, regs')

/-- `sys_read_ftrace`: an empty buffer is an error. -/
def sysReadFtrace (filep : Option File) (count : U64) : Option ReadAnswer :=
  match filep with
  | none => some ⟨-EINVAL, [], none⟩
  | some file =>
      if file.traceBuffer.writeOffset.toInt = -1 ∧ file.traceBuffer.readOffset.toInt = -1 then
        some ⟨-EINVAL, [], some file⟩
      else readFile file count

end GemOS.Tracer
