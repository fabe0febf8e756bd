import GemOS.Tracer.Record

/-!
# System call tracing

`sys_strace`, `sys_start_strace`, `sys_end_strace`, `perform_tracing` and `sys_read_strace`. A
call answers `none` where the C code follows a null pointer or touches a record that was freed.
The store through the null `prev` at the start of a removal is left out: it does not reach the
list.
-/

namespace GemOS.Tracer

open LinkedList

def ADD_STRACE : CInt := 0

def REMOVE_STRACE : CInt := 1

/-- A new list head. Its descriptor and mode stay unset until tracing starts. -/
def newStraceHead : StraceHead :=
  { count := 0, isTraced := 0, straceFd := 0, tracingMode := 0, next := none, last := none }

/-- The list head of the process, allocated on first use. -/
def straceBase (k : Kernel) : Nat × Kernel :=
  match k.ctx.stMdBase with
  | some base => (base, k)
  | none =>
      let (base, heads) := k.straceHeads.alloc newStraceHead
      (base, { k with straceHeads := heads, ctx := { k.ctx with stMdBase := some base } })

/-- Walk the list of traced calls to the first one that satisfies `stop`. -/
def findTraced (k : Kernel) (head : StraceHead) (stop : StraceInfo → Bool) :
    Option (Option Nat × Option Nat) :=
  search k.straceNodes stop (k.straceNodes.top + 1) none head.next

/-- The `ADD_STRACE` branch of `sys_strace`. -/
def addStrace (k : Kernel) (base : Nat) (head : StraceHead) (syscallNum : CInt) :
    Option (Int × Kernel) := do
  if head.count = STRACE_MAX then some (-EINVAL, k)
  else
    let (_, found) ← findTraced k head fun info => info.syscallNum = syscallNum
    if found.isSome then some (-EINVAL, k)
    else
      let (node, nodes) := k.straceNodes.alloc ⟨⟨syscallNum⟩, none⟩
      let (nodes, head) ←
        if head.count = 0 then
          some (nodes, { head with next := some node, last := some node })
        else do
          let last ← head.last
          let cell ← nodes.cell last
          let nodes ← nodes.store last { cell with next := some node }
          some (nodes, { head with last := some node })
      let heads ← k.straceHeads.store base { head with count := head.count + 1 }
      some (0, { k with straceNodes := nodes, straceHeads := heads })

/-- The `REMOVE_STRACE` branch of `sys_strace`. -/
def removeStrace (k : Kernel) (base : Nat) (head : StraceHead) (syscallNum : CInt) :
    Option (Int × Kernel) := do
  let (prev, curr) ← findTraced k head fun info => info.syscallNum = syscallNum
  match curr with
  | none => some (-EINVAL, k)
  | some curr =>
      let cell ← k.straceNodes.cell curr
      let (nodes, head) ←
        match prev with
        | none => some (k.straceNodes, { head with next := cell.next })
        | some prev => do
            let before ← k.straceNodes.cell prev
            let nodes ← k.straceNodes.store prev { before with next := cell.next }
            some (nodes, head)
      let head := if cell.next.isNone then { head with last := prev } else head
      let nodes ← nodes.free curr
      let heads ← k.straceHeads.store base { head with count := head.count - 1 }
      some (0, { k with straceNodes := nodes, straceHeads := heads })

/-- `sys_strace`. -/
def sysStrace (k : Kernel) (syscallNum action : CInt) : Option (Int × Kernel) := do
  let (base, k) := straceBase k
  let head ← k.straceHeads.cell base
  if action = ADD_STRACE then addStrace k base head syscallNum
  else if action = REMOVE_STRACE then removeStrace k base head syscallNum
  else some (0, k)

/-- `sys_start_strace`. -/
def sysStartStrace (k : Kernel) (fd tracingMode : CInt) : Option (Int × Kernel) := do
  if fd.slt 0 then some (-EINVAL, k)
  else if tracingMode ≠ FULL_TRACING ∧ tracingMode ≠ FILTERED_TRACING then some (-EINVAL, k)
  else
    let (base, k) := straceBase k
    let head ← k.straceHeads.cell base
    let heads ← k.straceHeads.store base
      { head with straceFd := fd, isTraced := k.ctx.pid, tracingMode := tracingMode }
    some (0, { k with straceHeads := heads })

/-- The loop of `sys_end_strace`: each node is freed before its link is read. `stop` is the
value of `listHead->last->next`, read again at every test. -/
def freeTraced (last : Nat) : Nat → Option Nat → Heap (Cell StraceInfo) →
    Option (Heap (Cell StraceInfo))
  | 0, _, _ => none
  | fuel + 1, temp, nodes => do
      let lastCell ← nodes.cell last
      if temp = lastCell.next then some nodes
      else
        let node ← temp
        let nodes ← nodes.free node
        let cell ← nodes.cell node
        freeTraced last fuel cell.next nodes

/-- `sys_end_strace`. The head is freed but `st_md_base` keeps pointing to it. -/
def sysEndStrace (k : Kernel) : Option (Int × Kernel) := do
  let base ← k.ctx.stMdBase
  let head ← k.straceHeads.cell base
  let heads ← k.straceHeads.store base { head with isTraced := 0 }
  let last ← head.last
  let nodes ← freeTraced last (k.straceNodes.top + 1) head.next k.straceNodes
  let heads ← heads.free base
  some (0, { k with straceNodes := nodes, straceHeads := heads })

/-! ## `perform_tracing` -/

/-- How many parameters `perform_tracing` records for a system call number. -/
def paramCount (sr : CInt) : Nat :=
  if sr ∈ ([2, 10, 11, 13, 15, 20, 21, 22, 38] : List CInt) then 0
  else if sr ∈ ([1, 7, 14, 19, 27, 29, 36] : List CInt) then 1
  else if sr ∈ ([4, 8, 9, 12, 17, 23, 28, 37, 40] : List CInt) then 2
  else if sr ∈ ([18, 24, 25, 30, 39, 41] : List CInt) then 3
  else if sr ∈ ([16, 35] : List CInt) then 4
  else 0

/-- A system call as `perform_tracing` sees it. -/
structure Syscall where
  num : U64
  param1 : U64
  param2 : U64
  param3 : U64
  param4 : U64

/-- The words of the record of a system call: its number (narrowed to an `int` to look up the
parameters) and its parameters. -/
def Syscall.words (call : Syscall) : List U64 :=
  call.num :: [call.param1, call.param2, call.param3, call.param4].take
    (paramCount (call.num.setWidth 32))

/-- The checks of `perform_tracing`: the descriptor to write to, or `none` inside when the call
is not recorded. -/
def traceTarget (k : Kernel) (num : U64) : Option (Option CInt) :=
  if num = 37 ∨ num = 38 then some none
  else
    match k.ctx.stMdBase with
    | none => some none
    | some base => do
        let head ← k.straceHeads.cell base
        if head.isTraced = 0 then some none
        else if k.ctx.pid ≠ head.isTraced then some none
        else if head.tracingMode = FILTERED_TRACING then do
          let (_, found) ← findTraced k head fun info => info.syscallNum.signExtend 64 = num
          some (if found.isSome then some head.straceFd else none)
        else some (some head.straceFd)

/-- `perform_tracing`. -/
def performTracing (k : Kernel) (call : Syscall) : Option (Int × Kernel) := do
  match ← traceTarget k call.num with
  | none => some (0, k)
  | some fd =>
      let k ← writeWords k fd call.words
      let k ← writeDelimiter k fd
      some (0, k)

/-- `sys_read_strace`. -/
def sysReadStrace (filep : Option File) (count : U64) : Option ReadAnswer :=
  match filep with
  | none => some ⟨-EINVAL, [], none⟩
  | some file => readFile file count

end GemOS.Tracer
