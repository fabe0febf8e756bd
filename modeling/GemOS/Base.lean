import Mathlib.Algebra.GroupWithZero.Nat

/-!
# Machine types and the records shared by the kernel sources

The fixed-width types of `types.h`, the error numbers, and the two records of `context.h`
that describe a process's address space. A C `int` kept in a record or passed as an argument
is a `CInt`; a return value that may be a negative error number is an `Int`.
-/

namespace GemOS

/-- `u8` (`char` where it holds a byte). -/
abbrev U8 := BitVec 8

/-- `u32`. -/
abbrev U32 := BitVec 32

/-- `u64` (`unsigned long`). -/
abbrev U64 := BitVec 64

/-- The 32-bit two's complement `int`. -/
abbrev CInt := BitVec 32

/-- Error numbers, returned with a minus sign. -/
def EINVAL : Int := 1

def ENOMEM : Int := 5

def EBADMEM : Int := 6

/-- A refused call does not answer like one that succeeds. -/
theorem neg_einval_ne_zero : (-EINVAL : Int) ≠ 0 := by
  decide

/-- A virtual memory area `[vmStart, vmEnd)`; the `vm_next` link is the position in a list. -/
structure VmArea where
  vmStart : U64
  vmEnd : U64
  accessFlags : U32
  deriving DecidableEq, Repr

/-- A memory segment of a process (code, read-only data, data, stack). -/
structure MmSegment where
  start : U64
  endAddr : U64
  nextFree : U64
  accessFlags : U32
  deriving DecidableEq, Repr

/-- User memory, byte by byte. -/
abbrev UserMem := U64 → U8

/-- The cells of a page. -/
instance neZero_page : NeZero (4096 : Nat) := ⟨by decide⟩

/-- The bytes of code that tracing a function overwrites. -/
instance neZero_code : NeZero (4 : Nat) := ⟨by decide⟩

end GemOS
