import GemOS.Base
import GemOS.Lib.LinkedList

/-!
# Tracing state of a process

The records of `tracer.h`, `file.h` and `context.h` that `tracer.c` works on. List nodes and
list heads live in kernel heaps, one per record type, because the tracing calls free them;
an open file is kept by value in its descriptor slot. User memory is kept apart from these heaps:
a function address or a buffer that points into a kernel record is not modelled.
-/

namespace GemOS.Tracer

open LinkedList

/-- `TRACE_BUFFER_MAX_SIZE`. -/
def TRACE_BUFFER_MAX_SIZE : Nat := 4096

/-- A trace buffer: two offsets kept in `u32` fields, where `-1` marks the empty buffer, and
the page of `TRACE_BUFFER_MAX_SIZE` bytes. -/
structure TraceBufferInfo where
  readOffset : U32
  writeOffset : U32
  buffer : Fin 4096 → U8

/-- An open file. The file kinds count from `STDIN = 0`. -/
structure File where
  type : U32
  mode : U32
  offp : U32
  refCount : U32
  traceBuffer : TraceBufferInfo

/-- `TRACE_BUFFER` in the enumeration of file types. -/
def TRACE_BUFFER : U32 := 4

def O_READ : U32 := 1

def O_WRITE : U32 := 2

def O_RDWR : U32 := O_READ ||| O_WRITE

def MAX_OPEN_FILES : Nat := 16

def STRACE_MAX : Int := 16

def FTRACE_MAX : Int := 16

def FULL_TRACING : CInt := 0

def FILTERED_TRACING : CInt := 1

/-- `strace_info` without its link: a traced system call. -/
structure StraceInfo where
  syscallNum : CInt
  deriving DecidableEq

/-- The head of the list of traced system calls. -/
structure StraceHead where
  count : Int
  isTraced : CInt
  straceFd : CInt
  tracingMode : CInt
  next : Option Nat
  last : Option Nat

/-- `ftrace_info` without its link: a registered function. -/
structure FtraceInfo where
  faddr : U64
  codeBackup : Fin 4 → U8
  numArgs : U32
  fd : CInt
  captureBacktrace : CInt

/-- The head of the list of registered functions. -/
structure FtraceHead where
  count : Int
  next : Option Nat
  last : Option Nat

/-- The fields of `exec_context` that the tracing code uses. The descriptor table is the first
`MAX_OPEN_FILES` entries of `files`. -/
structure ExecContext where
  pid : U32
  mms : List MmSegment
  vmArea : List VmArea
  files : Nat → Option File
  ftMdBase : Option Nat
  stMdBase : Option Nat

/-- The current process, the kernel heaps its tracing records live in, and user memory. -/
structure Kernel where
  ctx : ExecContext
  straceHeads : Heap StraceHead
  straceNodes : Heap (Cell StraceInfo)
  ftraceHeads : Heap FtraceHead
  ftraceNodes : Heap (Cell FtraceInfo)
  mem : UserMem

/-- `current->files[fd]`. -/
def ExecContext.file (ctx : ExecContext) (fd : CInt) : Option File :=
  ctx.files fd.toNat

/-- Replace the file object behind descriptor `fd`. -/
def ExecContext.setFile (ctx : ExecContext) (fd : CInt) (file : Option File) : ExecContext :=
  { ctx with files := Function.update ctx.files fd.toNat file }

@[simp] theorem ExecContext.file_setFile (ctx : ExecContext) (fd : CInt) (file : Option File) :
    (ctx.setFile fd file).file fd = file := by
  simp [ExecContext.file, ExecContext.setFile]

end GemOS.Tracer
