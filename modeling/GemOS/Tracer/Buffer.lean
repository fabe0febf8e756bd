import GemOS.Tracer.Context

/-!
# The trace buffer

`is_valid_mem_range`, `trace_buffer_read`, `trace_buffer_write`, `write_to_buffer` and
`sys_create_trace_buffer`. A function answers `none` where the C code indexes the page outside
its 4096 bytes. The locals `front` and `rear` are the `int` copies of the offsets.
-/

namespace GemOS.Tracer

/-! ## Access to the page -/

namespace TraceBufferInfo

/-- `buffer[i]` as a value. -/
def load (tb : TraceBufferInfo) (i : Int) : Option U8 :=
  if 0 ≤ i ∧ i < 4096 then some (tb.buffer (Fin.ofNat 4096 i.toNat)) else none

/-- `buffer[i] = byte`. -/
def store (tb : TraceBufferInfo) (i : Int) (byte : U8) : Option TraceBufferInfo :=
  if 0 ≤ i ∧ i < 4096 then
    some { tb with buffer := Function.update tb.buffer (Fin.ofNat 4096 i.toNat) byte }
  else none

end TraceBufferInfo

/-- The next position round the page, with C's remainder. -/
def nextOffset (i : Int) : Int :=
  (i + 1).tmod TRACE_BUFFER_MAX_SIZE

/-! ## `is_valid_mem_range` -/

/-- The test of one range `[start, endAddr)`: the end test is on `buff + count - 1` in `u64`. -/
def rangeHolds (start endAddr buff : U64) (count : U32) : Bool :=
  start ≤ buff ∧ endAddr > buff + count.zeroExtend 64 - 1

/-- Flags of the first segment that holds the range, 0 if none does. -/
def segmentFlags (mms : List MmSegment) (buff : U64) (count : U32) : U32 :=
  match mms.find? (fun segment => rangeHolds segment.start segment.endAddr buff count) with
  | some segment => segment.accessFlags
  | none => 0

/-- Flags of the first area that holds the range, 0 if none does. -/
def areaFlags (areas : List VmArea) (buff : U64) (count : U32) : U32 :=
  match areas.find? (fun area => rangeHolds area.vmStart area.vmEnd buff count) with
  | some area => area.accessFlags
  | none => 0

/-- `is_valid_mem_range`: the areas are searched only when the segments gave no flag. -/
def isValidMemRange (ctx : ExecContext) (buff : U64) (count : U32) (accessBit : U32) : Bool :=
  let flag := segmentFlags ctx.mms buff count
  let flag := if flag = 0 then areaFlags ctx.vmArea buff count else flag
  flag &&& accessBit ≠ 0

/-! ## Reading -/

/-- The copy loop of `trace_buffer_read`, with `remaining = count - numBytesRead`. -/
def readLoop (buff : U64) : Nat → Nat → Int → Int → TraceBufferInfo → UserMem →
    Option (Nat × Int × TraceBufferInfo × UserMem)
  | 0, numBytesRead, _, rear, tb, mem => some (numBytesRead, rear, tb, mem)
  | remaining + 1, numBytesRead, front, rear, tb, mem => do
      let byte ← tb.load rear
      let mem := Function.update mem (buff + BitVec.ofNat 64 numBytesRead) byte
      if rear = front then
        -- nothing more to read: both offsets go back to the empty marker
        some (numBytesRead + 1, -1, { tb with writeOffset := -1, readOffset := -1 }, mem)
      else
        readLoop buff remaining (numBytesRead + 1) front (nextOffset rear) tb mem

/-- `trace_buffer_read`. The return value comes with the file and user memory afterwards. -/
def traceBufferRead (ctx : ExecContext) (filep : Option File) (mem : UserMem) (buff : U64)
    (count : U32) : Option (Int × Option File × UserMem) :=
  match filep with
  | none => some (-EINVAL, none, mem)
  | some file =>
      -- `count` is unsigned, so this test never holds
      if count < 0 then some (-EINVAL, some file, mem)
      else if isValidMemRange ctx buff count 2 = false then some (-EBADMEM, some file, mem)
      -- `mode & O_READ == 0` groups as `mode & (O_READ == 0)`
      else if file.mode &&& (if O_READ = 0 then 1 else 0) ≠ 0 then some (-EINVAL, some file, mem)
      else
        let tb := file.traceBuffer
        let front := tb.writeOffset.toInt
        let rear := tb.readOffset.toInt
        if front = -1 ∧ rear = -1 then some (0, some file, mem)
        else do
          let (numBytesRead, rear, tb, mem) ← readLoop buff count.toNat 0 front rear tb mem
          let tb := { tb with readOffset := BitVec.ofInt 32 rear }
          some (numBytesRead, some { file with traceBuffer := tb }, mem)

/-! ## Writing -/

/-- The copy loop shared by `trace_buffer_write` and `write_to_buffer`, with
`remaining = count - numBytesWritten` and `src i` the byte at `buff + i`. -/
def writeLoop (src : Nat → U8) : Nat → Nat → Int → Int → TraceBufferInfo →
    Option (Nat × Int × TraceBufferInfo)
  | 0, numBytesWritten, front, _, tb => some (numBytesWritten, front, tb)
  | remaining + 1, numBytesWritten, front, rear, tb => do
      -- an empty buffer is initialised, any other advances its front
      let empty := front = -1 ∧ rear = -1
      let tb := if empty then { tb with writeOffset := 0, readOffset := 0 } else tb
      let front := if empty then 0 else nextOffset front
      let rear := if empty then 0 else rear
      let tb ← tb.store front (src numBytesWritten)
      if nextOffset front = rear then some (numBytesWritten + 1, front, tb)
      else writeLoop src remaining (numBytesWritten + 1) front rear tb

/-- The part after the argument checks, common to both writers. -/
def appendBytes (file : File) (src : Nat → U8) (count : U32) : Option (Int × Option File) :=
  let tb := file.traceBuffer
  let front := tb.writeOffset.toInt
  let rear := tb.readOffset.toInt
  if nextOffset front = rear then some (0, some file)
  else do
    let (numBytesWritten, front, tb) ← writeLoop src count.toNat 0 front rear tb
    let tb := { tb with writeOffset := BitVec.ofInt 32 front }
    some (numBytesWritten, some { file with traceBuffer := tb })

/-- `trace_buffer_write`. -/
def traceBufferWrite (ctx : ExecContext) (filep : Option File) (mem : UserMem) (buff : U64)
    (count : U32) : Option (Int × Option File) :=
  match filep with
  | none => some (-EINVAL, none)
  | some file =>
      if count < 0 then some (-EINVAL, some file)
      else if isValidMemRange ctx buff count 1 = false then some (-EBADMEM, some file)
      -- `mode & O_WRITE == 0` groups as `mode & (O_WRITE == 0)`
      else if file.mode &&& (if O_WRITE = 0 then 1 else 0) ≠ 0 then some (-EINVAL, some file)
      else appendBytes file (fun i => mem (buff + BitVec.ofNat 64 i)) count

/-- `write_to_buffer`: the kernel's writer, with `src i` the byte at `buff + i`. -/
def writeToBuffer (filep : Option File) (src : Nat → U8) (count : U32) :
    Option (Int × Option File) :=
  match filep with
  | none => some (-EINVAL, none)
  | some file => appendBytes file src count

/-! ## Creation -/

/-- The four objects `sys_create_trace_buffer` allocates, in this order. -/
inductive Object where
  | file
  | traceBufferInfo
  | page
  | fileops
  deriving DecidableEq, Repr

/-- A new trace buffer: both offsets `-1`, over the bytes the page comes with. -/
def newTraceBuffer (page : Fin 4096 → U8) : TraceBufferInfo :=
  { readOffset := -1, writeOffset := -1, buffer := page }

/-- `sys_create_trace_buffer`. `allocates` says which allocation succeeds and `page` is what the
allocated page holds. The answer is the descriptor or error, the process, and the objects
allocated by the call and not released again. -/
def sysCreateTraceBuffer (allocates : Object → Bool) (page : Fin 4096 → U8)
    (current : Option ExecContext) (mode : CInt) : Int × Option ExecContext × List Object :=
  match current with
  | none => (-EINVAL, none, [])
  | some ctx =>
      let freeFd := (List.range MAX_OPEN_FILES).find? fun i => (ctx.files i).isNone
      match freeFd with
      | none => (-EINVAL, some ctx, [])
      | some fd =>
          if mode ≠ O_READ ∧ mode ≠ O_WRITE ∧ mode ≠ O_RDWR then (-EINVAL, some ctx, [])
          else if allocates .file = false then (-ENOMEM, some ctx, [])
          else if allocates .traceBufferInfo = false then (-ENOMEM, some ctx, [.file])
          else if allocates .page = false then
            (-ENOMEM, some ctx, [.file, .traceBufferInfo])
          else if allocates .fileops = false then
            (-ENOMEM, some ctx, [.file, .traceBufferInfo, .page])
          else
            let file : File :=
              { type := TRACE_BUFFER, mode := mode, offp := 0, refCount := 1
                traceBuffer := newTraceBuffer page }
            (fd, some { ctx with files := Function.update ctx.files fd (some file) },
              [.file, .traceBufferInfo, .page, .fileops])

end GemOS.Tracer
