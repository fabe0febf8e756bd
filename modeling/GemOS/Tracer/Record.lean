import GemOS.Tracer.Buffer

/-!
# Trace records

A record is a sequence of 8-byte words followed by one delimiter byte `' '`. The writers append
to the file behind a descriptor and ignore the result; `sys_read_strace` and `sys_read_ftrace`
share the reading loop `readRecords`.
-/

namespace GemOS.Tracer

/-- The delimiter `' '`. -/
def DELIMITER : U8 := 0x20

/-- Byte `i` of a word in memory, least significant first. -/
def wordByte (word : U64) (i : Nat) : U8 :=
  (word >>> (8 * i)).setWidth 8

/-- `write_to_buffer(current->files[fd], buff, count)` with the result ignored. -/
def writeFile (k : Kernel) (fd : CInt) (src : Nat → U8) (count : U32) : Option Kernel := do
  let (_, filep) ← writeToBuffer (k.ctx.file fd) src count
  some { k with ctx := k.ctx.setFile fd filep }

/-- Append one word. -/
def writeWord (k : Kernel) (fd : CInt) (word : U64) : Option Kernel :=
  writeFile k fd (wordByte word) 8

/-- Append words one after the other. -/
def writeWords (k : Kernel) (fd : CInt) : List U64 → Option Kernel
  | [] => some k
  | word :: words => do
      let k ← writeWord k fd word
      writeWords k fd words

/-- Append the delimiter: the first byte of a pointer-sized local that holds `' '`. -/
def writeDelimiter (k : Kernel) (fd : CInt) : Option Kernel :=
  writeFile k fd (wordByte (DELIMITER.setWidth 64)) 1

/-- The inner reading loop: copy bytes until `buffer[rear]` is the delimiter. `fuel` bounds the
tests; the page does not change meanwhile, so after `TRACE_BUFFER_MAX_SIZE` tests without a
delimiter the loop has gone round and never ends. -/
def copyRecord (tb : TraceBufferInfo) : Nat → Int → List U8 → Option (Int × List U8)
  | 0, _, _ => none
  | fuel + 1, rear, out => do
      let byte ← tb.load rear
      if byte = DELIMITER then some (rear, out)
      else copyRecord tb fuel (nextOffset rear) (out ++ [byte])

/-- The outer reading loop. `out` collects the bytes stored from `buff` on. -/
def readRecords : Nat → Int → Int → TraceBufferInfo → List U8 →
    Option (Int × TraceBufferInfo × List U8)
  | 0, _, rear, tb, out => some (rear, tb, out)
  | count + 1, front, rear, tb, out => do
      let (rear, out) ← copyRecord tb TRACE_BUFFER_MAX_SIZE rear out
      if rear = front then
        -- nothing more to read
        some (-1, { tb with writeOffset := -1, readOffset := -1 }, out)
      else
        -- skip over the delimiter
        readRecords count front (nextOffset rear) tb out

/-- What a record reader answers: its return value, the bytes stored in the user's buffer, and
the file. -/
structure ReadAnswer where
  ret : Int
  out : List U8
  filep : Option File

/-- The common part of the two record readers. -/
def readFile (file : File) (count : U64) : Option ReadAnswer := do
  let tb := file.traceBuffer
  let (rear, tb, out) ←
    readRecords count.toNat tb.writeOffset.toInt tb.readOffset.toInt tb []
  let tb := { tb with readOffset := BitVec.ofInt 32 rear }
  some ⟨(BitVec.ofNat 32 out.length).toInt, out, some { file with traceBuffer := tb }⟩

end GemOS.Tracer
