import GemOS.Lib.Ring
import GemOS.Tracer.Buffer

/-!
# The trace buffer is a bounded FIFO queue

`Represents tb queue` relates the ring to the queue of its stored bytes. The two loops are
followed with their local offsets by `Holds`; `write_loop_holds` and `read_loop_holds` are the
loop lemmas, and `buffer_step_refines` is one call.
-/

namespace GemOS.Tracer

open Ring

/-! ## Offsets -/

theorem next_offset_nat (i : Nat) : nextOffset i = ((i + 1) % 4096 : Nat) := by
  simp only [nextOffset, TRACE_BUFFER_MAX_SIZE]
  rw [Int.tmod_eq_emod_of_nonneg (by omega)]
  omega

@[simp] theorem next_offset_empty : nextOffset (-1) = 0 := by decide

/-- The `n + 1` bytes from offset `r` on fill the page exactly when the next write offset is
the read offset. -/
theorem next_offset_eq_iff {r n : Nat} (hr : r < 4096) (hn : n < 4096) :
    nextOffset ((r + n) % 4096 : Nat) = r ↔ n = 4095 := by
  rw [next_offset_nat]
  omega

/-- Byte counts fit in an `int`. -/
theorem to_int_ofNat {i : Nat} (hi : i ≤ 4096) : (BitVec.ofNat 32 i).toInt = i := by
  rw [BitVec.toInt_eq_toNat_of_lt] <;> simp only [BitVec.toNat_ofNat] <;> omega

@[simp] theorem to_int_ofInt_nat {i : Nat} (hi : i < 4096) :
    (BitVec.ofInt 32 (i : Int)).toInt = i := by
  rw [BitVec.ofInt_natCast]
  exact to_int_ofNat (Nat.le_of_lt hi)

/-! ## Representation -/

/-- The locals `front` and `rear` of a loop over `tb` stand for the queue `queue`. The field
`writeOffset` is written back only after the loop, so nothing is said about it. -/
def Holds (tb : TraceBufferInfo) (front rear : Int) (queue : List U8) : Prop :=
  (front = -1 ∧ rear = -1 ∧ tb.readOffset = -1 ∧ queue = []) ∨
  ∃ r n : Nat, r < 4096 ∧ n < 4096 ∧ rear = r ∧ front = ((r + n) % 4096 : Nat) ∧
    tb.readOffset = BitVec.ofInt 32 r ∧ queue = contents tb.buffer r (n + 1)

/-- The trace buffer stores the bytes `queue`, oldest first. -/
def Represents (tb : TraceBufferInfo) (queue : List U8) : Prop :=
  Holds tb tb.writeOffset.toInt tb.readOffset.toInt queue

/-- Both offsets carry the empty marker, or both are positions in the page. -/
def OffsetsOk (tb : TraceBufferInfo) : Prop :=
  (tb.readOffset = -1 ∧ tb.writeOffset = -1) ∨
  (tb.readOffset.toNat < 4096 ∧ tb.writeOffset.toNat < 4096)

theorem Holds.length_le {tb : TraceBufferInfo} {front rear : Int} {queue : List U8}
    (h : Holds tb front rear queue) : queue.length ≤ 4096 := by
  rcases h with ⟨_, _, _, rfl⟩ | ⟨r, n, _, hn, _, _, _, rfl⟩
  · simp
  · simp only [length_contents]
    omega

/-- The full test of the writers. -/
theorem Holds.full_iff {tb : TraceBufferInfo} {front rear : Int} {queue : List U8}
    (h : Holds tb front rear queue) : nextOffset front = rear ↔ queue.length = 4096 := by
  rcases h with ⟨rfl, rfl, _, rfl⟩ | ⟨r, n, hr, hn, rfl, rfl, _, rfl⟩
  · simp
  · rw [next_offset_eq_iff hr hn, length_contents]
    omega

/-- Writing the loop's front back gives a buffer that represents the same queue. -/
theorem Holds.write_back {tb : TraceBufferInfo} {front rear : Int} {queue : List U8}
    (h : Holds tb front rear queue) :
    Represents { tb with writeOffset := BitVec.ofInt 32 front } queue := by
  rcases h with ⟨rfl, rfl, hread, rfl⟩ | ⟨r, n, hr, hn, rfl, rfl, hread, rfl⟩
  · exact Or.inl ⟨by simp, by simp [hread], hread, rfl⟩
  · refine Or.inr ⟨r, n, hr, hn, ?_, ?_, hread, rfl⟩
    · simp only [hread]
      exact to_int_ofInt_nat hr
    · exact to_int_ofInt_nat (Nat.mod_lt _ (by omega))

theorem Represents.offsets_ok {tb : TraceBufferInfo} {queue : List U8}
    (h : Represents tb queue) : OffsetsOk tb := by
  rcases h with ⟨hfront, hrear, _, _⟩ | ⟨r, n, hr, _, hrear, hfront, _, _⟩
  · exact Or.inl ⟨BitVec.eq_of_toInt_eq (by simpa using hrear),
      BitVec.eq_of_toInt_eq (by simpa using hfront)⟩
  · refine Or.inr ⟨?_, ?_⟩
    · have := BitVec.toInt_eq_toNat_cond tb.readOffset
      split at this <;> omega
    · have := BitVec.toInt_eq_toNat_cond tb.writeOffset
      split at this <;> omega

/-- An empty buffer carries the empty marker. -/
theorem Represents.empty_offsets {tb : TraceBufferInfo} (h : Represents tb []) :
    tb.writeOffset.toInt = -1 ∧ tb.readOffset.toInt = -1 := by
  rcases h with ⟨hfront, hrear, _, _⟩ | ⟨r, n, _, _, _, _, _, hqueue⟩
  · exact ⟨hfront, hrear⟩
  · simpa using congrArg List.length hqueue

/-- The empty marker means the empty queue. -/
theorem Represents.empty_of_offsets {tb : TraceBufferInfo} {queue : List U8}
    (h : Represents tb queue) (hempty : tb.writeOffset.toInt = -1 ∧ tb.readOffset.toInt = -1) :
    queue = [] := by
  rcases h with ⟨_, _, _, hqueue⟩ | ⟨r, n, _, _, hrear, _, _, _⟩
  · exact hqueue
  · omega

/-- A trace buffer stores one queue. -/
theorem Represents.unique {tb : TraceBufferInfo} {queue queue' : List U8}
    (h : Represents tb queue) (h' : Represents tb queue') : queue' = queue := by
  rcases h with ⟨hfront, hrear, _, rfl⟩ | ⟨r, n, hr, hn, hrear, hfront, _, rfl⟩
  · exact h'.empty_of_offsets ⟨hfront, hrear⟩
  · rcases h' with ⟨hfront', _, _, _⟩ | ⟨r', n', hr', hn', hrear', hfront', _, rfl⟩
    · omega
    · obtain rfl : r' = r := by omega
      obtain rfl : n' = n := by omega
      rfl

/-- A new trace buffer is empty. -/
theorem represents_new (page : Fin 4096 → U8) : Represents (newTraceBuffer page) [] :=
  Or.inl ⟨by simp [newTraceBuffer], by simp [newTraceBuffer], rfl, rfl⟩

/-! ## Writing -/

/-- Bytes `from`, `from + 1`, ... of a source. -/
def sourceBytes (src : Nat → U8) (start count : Nat) : List U8 :=
  (List.range count).map fun i => src (start + i)

theorem source_bytes_succ (src : Nat → U8) (start count : Nat) :
    sourceBytes src start (count + 1) = src start :: sourceBytes src (start + 1) count := by
  simp only [sourceBytes, List.range_succ_eq_map, List.map_cons, List.map_map, Nat.add_zero]
  congr 1
  apply List.map_congr_left
  intro i _
  show src (start + (i + 1)) = src (start + 1 + i)
  congr 1
  omega

@[simp] theorem length_source_bytes (src : Nat → U8) (start count : Nat) :
    (sourceBytes src start count).length = count := by
  simp [sourceBytes]

/-- One turn of the write loop appends one byte when there is room. -/
theorem Holds.push {tb : TraceBufferInfo} {front rear : Int} {queue : List U8}
    (h : Holds tb front rear queue) (hroom : queue.length < 4096) (byte : U8) :
    let empty := front = -1 ∧ rear = -1
    let tb₁ := if empty then { tb with writeOffset := 0, readOffset := 0 } else tb
    let front₁ := if empty then 0 else nextOffset front
    let rear₁ := if empty then 0 else rear
    ∃ tb₂, tb₁.store front₁ byte = some tb₂ ∧ Holds tb₂ front₁ rear₁ (queue ++ [byte]) := by
  rcases h with ⟨rfl, rfl, hread, rfl⟩ | ⟨r, n, hr, hn, rfl, rfl, hread, rfl⟩
  · refine ⟨_, if_pos (by simp), Or.inr ⟨0, 0, by omega, by omega, ?_⟩⟩
    simp [contents]
  · have hne : ¬ (((r + n) % 4096 : Nat) = (-1 : Int) ∧ (r : Int) = -1) := by omega
    have hn' : n + 1 < 4096 := by simpa using hroom
    simp only [hne, if_false, next_offset_nat]
    refine ⟨_, if_pos (by omega), Or.inr ⟨r, n + 1, hr, hn', rfl, ?_, hread, ?_⟩⟩
    · congr 1
      omega
    · rw [Int.toNat_natCast, show Fin.ofNat 4096 (((r + n) % 4096 + 1) % 4096) =
        Fin.ofNat 4096 (r + (n + 1)) from ofNat_congr (by omega)]
      exact (contents_push tb.buffer r (n + 1) byte hn').symm

/-- The write loop appends what fits of the next `remaining` source bytes. -/
theorem write_loop_holds (src : Nat → U8) (remaining written : Nat) {front rear : Int}
    {tb : TraceBufferInfo} {queue : List U8} (h : Holds tb front rear queue)
    (hroom : queue.length < 4096) :
    ∃ front' rear' tb',
      writeLoop src remaining written front rear tb =
        some (written + min remaining (4096 - queue.length), front', tb') ∧
      Holds tb' front' rear'
        (queue ++ Fifo.accepted 4096 queue (sourceBytes src written remaining)) := by
  induction remaining generalizing written front rear tb queue with
  | zero =>
      exact ⟨front, rear, tb, by simp [writeLoop], by simpa [sourceBytes, Fifo.accepted] using h⟩
  | succ remaining ih =>
      obtain ⟨tb₂, hstore, hholds⟩ := h.push hroom (src written)
      have hfull := hholds.full_iff
      have haccept : Fifo.accepted 4096 queue (sourceBytes src written (remaining + 1)) =
          src written :: Fifo.accepted 4096 (queue ++ [src written])
            (sourceBytes src (written + 1) remaining) := by
        rw [source_bytes_succ, Fifo.accepted, Fifo.accepted, List.length_append,
          show 4096 - queue.length = (4096 - (queue.length + 1)) + 1 by omega, List.take_succ_cons]
        rfl
      simp only [writeLoop, hstore, Option.bind_eq_bind, Option.bind_some]
      by_cases hlast : queue.length + 1 = 4096
      · rw [if_pos (hfull.mpr (by simpa using hlast))]
        refine ⟨_, if front = -1 ∧ rear = -1 then 0 else rear, tb₂, by congr 2; omega, ?_⟩
        rw [haccept]
        simpa [Fifo.accepted, hlast] using hholds
      · rw [if_neg (fun hcontra => hlast (by simpa using hfull.mp hcontra))]
        obtain ⟨front', rear', tb', hloop, hrest⟩ :=
          ih (written + 1) hholds (by simp; omega)
        refine ⟨front', rear', tb', ?_, ?_⟩
        · rw [hloop, List.length_append, List.length_singleton]
          congr 2
          omega
        · rw [haccept]
          simpa using hrest

/-- The common part of the two writers appends what fits and returns how much that was. -/
theorem append_bytes_represents {file : File} {queue : List U8} (src : Nat → U8) (count : U32)
    (h : Represents file.traceBuffer queue) :
    ∃ file', appendBytes file src count =
        some (((Fifo.accepted 4096 queue (sourceBytes src 0 count.toNat)).length : Int),
          some file') ∧
      Represents file'.traceBuffer
        (queue ++ Fifo.accepted 4096 queue (sourceBytes src 0 count.toNat)) := by
  have hlen := h.length_le
  unfold appendBytes
  by_cases hfull : queue.length = 4096
  · rw [if_pos (h.full_iff.mpr hfull)]
    exact ⟨file, by simp [Fifo.accepted, hfull], by simpa [Fifo.accepted, hfull] using h⟩
  · rw [if_neg (fun hcontra => hfull (h.full_iff.mp hcontra))]
    obtain ⟨front, rear, tb, hloop, hholds⟩ :=
      write_loop_holds src count.toNat 0 h (by omega)
    refine ⟨{ file with traceBuffer := _ }, ?_, hholds.write_back⟩
    simp only [hloop, Option.bind_eq_bind, Option.bind_some, Fifo.accepted, List.length_take,
      length_source_bytes]
    congr 2
    omega

/-! ## Reading -/

/-- User memory after storing `bytes` at `buff + at`, `buff + at + 1`, ... -/
def storeBytes (buff : U64) : Nat → List U8 → UserMem → UserMem
  | _, [], mem => mem
  | position, byte :: bytes, mem =>
      storeBytes buff (position + 1) bytes
        (Function.update mem (buff + BitVec.ofNat 64 position) byte)

/-- The `count` bytes at `buff`. -/
def loadBytes (mem : UserMem) (buff : U64) (count : Nat) : List U8 :=
  (List.range count).map fun i => mem (buff + BitVec.ofNat 64 i)

/-- Positions of one buffer below `2 ^ 64` are distinct addresses. -/
theorem add_ofNat_ne {buff : U64} {i j : Nat} (hij : i < j) (hj : j < 2 ^ 64) :
    buff + BitVec.ofNat 64 i ≠ buff + BitVec.ofNat 64 j := by
  intro h
  have heq := congrArg BitVec.toNat ((BitVec.add_right_inj buff).mp h)
  simp only [BitVec.toNat_ofNat] at heq
  omega

theorem store_bytes_below {buff : U64} {position i : Nat} {bytes : List U8} {mem : UserMem}
    (hi : i < position) (hlen : position + bytes.length ≤ 2 ^ 64) :
    storeBytes buff position bytes mem (buff + BitVec.ofNat 64 i) =
      mem (buff + BitVec.ofNat 64 i) := by
  induction bytes generalizing position mem with
  | nil => rfl
  | cons byte bytes ih =>
      simp only [List.length_cons] at hlen
      rw [storeBytes, ih (by omega) (by omega),
        Function.update_of_ne (add_ofNat_ne hi (by omega))]

/-- The stored bytes read back. -/
theorem store_bytes_at (buff : U64) {position i : Nat} {bytes : List U8} (mem : UserMem)
    (hi : i < bytes.length) (hlen : position + bytes.length ≤ 2 ^ 64) :
    storeBytes buff position bytes mem (buff + BitVec.ofNat 64 (position + i)) = bytes[i] := by
  induction bytes generalizing position mem i with
  | nil => simp at hi
  | cons byte bytes ih =>
      simp only [List.length_cons] at hi hlen
      cases i with
      | zero =>
          rw [Nat.add_zero, storeBytes, store_bytes_below (by omega) (by omega),
            Function.update_self]
          rfl
      | succ i =>
          rw [storeBytes, show position + (i + 1) = position + 1 + i by omega,
            ih _ (by omega) (by omega)]
          rfl

theorem load_bytes_store_bytes {buff : U64} {bytes : List U8} {mem : UserMem}
    (hlen : bytes.length ≤ 2 ^ 64) :
    loadBytes (storeBytes buff 0 bytes mem) buff bytes.length = bytes := by
  apply List.ext_getElem
  · simp [loadBytes]
  · intro i hi hi'
    have hat := store_bytes_at buff mem hi' (show 0 + bytes.length ≤ 2 ^ 64 by omega)
    simpa [loadBytes] using hat

/-- The read loop hands out the oldest `remaining` bytes and keeps the others. -/
theorem read_loop_holds (buff : U64) (remaining done : Nat) {r n : Nat} {tb : TraceBufferInfo}
    (mem : UserMem) (hr : r < 4096) (hn : n < 4096)
    (hwrite : tb.writeOffset = BitVec.ofInt 32 ((r + n) % 4096 : Nat)) :
    ∃ rear tb',
      readLoop buff remaining done ((r + n) % 4096 : Nat) r tb mem =
        some (done + min remaining (n + 1), rear, tb',
          storeBytes buff done ((contents tb.buffer r (n + 1)).take remaining) mem) ∧
      Represents { tb' with readOffset := BitVec.ofInt 32 rear }
        ((contents tb.buffer r (n + 1)).drop remaining) := by
  induction remaining generalizing done r n tb mem with
  | zero =>
      refine ⟨r, tb, by simp [readLoop, storeBytes], Or.inr ⟨r, n, hr, hn, ?_, ?_, rfl, rfl⟩⟩
      · exact to_int_ofInt_nat hr
      · simp only [hwrite]
        exact to_int_ofInt_nat (Nat.mod_lt _ (by omega))
  | succ remaining ih =>
      have hload : tb.load r = some (tb.buffer (Fin.ofNat 4096 r)) := by
        have hr' : (r : Int) < 4096 := by omega
        simp [TraceBufferInfo.load, hr']
      simp only [readLoop, hload, Option.bind_eq_bind, Option.bind_some]
      rw [contents_pop]
      cases n with
      | zero =>
          rw [if_pos (by omega)]
          refine ⟨-1, { tb with writeOffset := -1, readOffset := -1 }, ?_,
            Or.inl ⟨by simp, by simp, by simp, by simp⟩⟩
          simp [storeBytes]
      | succ n =>
          rw [if_neg (by omega), next_offset_nat]
          have hfront : (r + (n + 1)) % 4096 = ((r + 1) % 4096 + n) % 4096 := by omega
          rw [hfront] at hwrite ⊢
          obtain ⟨rear, tb', hloop, hholds⟩ := ih (done + 1) (r := (r + 1) % 4096)
            (n := n) (Function.update mem (buff + BitVec.ofNat 64 done)
              (tb.buffer (Fin.ofNat 4096 r))) (by omega) (by omega) hwrite
          refine ⟨rear, tb', ?_, by simpa using hholds⟩
          rw [hloop, List.take_succ_cons, storeBytes,
            show done + 1 + min remaining (n + 1) = done + min (remaining + 1) (n + 1 + 1) by omega]

/-- The mode tests compare the flag, not the masked mode, with 0, so they never fire. -/
theorem read_guard_inert (mode : U32) : mode &&& (if O_READ = 0 then 1 else 0) = 0 := by
  simp [O_READ]

theorem write_guard_inert (mode : U32) : mode &&& (if O_WRITE = 0 then 1 else 0) = 0 := by
  simp [O_WRITE]

theorem count_not_negative (count : U32) : ¬ count < 0 := by simp

/-- A read with a valid user buffer hands out the oldest `count` bytes. -/
theorem trace_buffer_read_represents {ctx : ExecContext} {file : File} (mem : UserMem)
    {buff : U64} {count : U32} {queue : List U8} (h : Represents file.traceBuffer queue)
    (hvalid : isValidMemRange ctx buff count 2 = true) :
    ∃ file', traceBufferRead ctx (some file) mem buff count =
        some (((queue.take count.toNat).length : Int), some file',
          storeBytes buff 0 (queue.take count.toNat) mem) ∧
      Represents file'.traceBuffer (queue.drop count.toNat) := by
  simp only [traceBufferRead, hvalid, count_not_negative, read_guard_inert, if_false,
    Bool.true_eq_false, ne_eq, not_true_eq_false]
  have hrep := h
  rcases h with ⟨hfront, hrear, _, rfl⟩ | ⟨r, n, hr, hn, hrear, hfront, hread, rfl⟩
  · rw [if_pos ⟨hfront, hrear⟩]
    exact ⟨file, by simp [storeBytes], by simpa using hrep⟩
  · rw [if_neg (by omega), hrear, hfront]
    have hwrite : file.traceBuffer.writeOffset = BitVec.ofInt 32 ((r + n) % 4096 : Nat) := by
      rw [← hfront, BitVec.ofInt_toInt]
    obtain ⟨rear, tb, hloop, hholds⟩ := read_loop_holds buff count.toNat 0 mem hr hn hwrite
    refine ⟨{ file with traceBuffer := _ }, ?_, hholds⟩
    simp only [hloop, Option.bind_eq_bind, Option.bind_some, List.length_take, length_contents,
      Nat.zero_add]

/-! ## Runs -/

/-- A call on a trace buffer. A user call carries the calling process and its memory. -/
inductive BufferOp where
  | traceBufferWrite (ctx : ExecContext) (mem : UserMem) (buff : U64) (count : U32)
  | writeToBuffer (src : Nat → U8) (count : U32)
  | traceBufferRead (ctx : ExecContext) (mem : UserMem) (buff : U64) (count : U32)

/-- The user buffer passes `is_valid_mem_range` with the access bit the call asks for. -/
def BufferOp.Valid : BufferOp → Prop
  | .traceBufferWrite ctx _ buff count => isValidMemRange ctx buff count 1 = true
  | .writeToBuffer _ _ => True
  | .traceBufferRead ctx _ buff count => isValidMemRange ctx buff count 2 = true

/-- The bytes a call offers for writing. -/
def BufferOp.offered : BufferOp → List U8
  | .traceBufferWrite _ mem buff count =>
      sourceBytes (fun i => mem (buff + BitVec.ofNat 64 i)) 0 count.toNat
  | .writeToBuffer src count => sourceBytes src 0 count.toNat
  | .traceBufferRead _ _ _ _ => []

/-- What a call answers: its return value, and the bytes it left in the user's buffer. -/
structure BufferAnswer where
  ret : Int
  delivered : List U8
  deriving DecidableEq

/-- One call on the file. -/
def bufferStep (filep : Option File) : BufferOp → Option (Option File × BufferAnswer)
  | .traceBufferWrite ctx mem buff count => do
      let (ret, filep) ← traceBufferWrite ctx filep mem buff count
      some (filep, ⟨ret, []⟩)
  | .writeToBuffer src count => do
      let (ret, filep) ← writeToBuffer filep src count
      some (filep, ⟨ret, []⟩)
  | .traceBufferRead ctx mem buff count => do
      let (ret, filep, mem) ← traceBufferRead ctx filep mem buff count
      some (filep, ⟨ret, loadBytes mem buff ret.toNat⟩)

/-- A sequence of calls: the file afterwards and the answers in order. -/
def bufferRun : Option File → List BufferOp → Option (Option File × List BufferAnswer)
  | filep, [] => some (filep, [])
  | filep, op :: ops => do
      let (filep, answer) ← bufferStep filep op
      let (filep, answers) ← bufferRun filep ops
      some (filep, answer :: answers)

/-- The queue operation a call stands for. -/
def BufferOp.toFifo : BufferOp → Fifo.Op U8
  | .traceBufferRead _ _ _ count => .pop count.toNat
  | op => .push op.offered

/-- The answer of a call that stands for a queue operation: a write returns how much was
accepted, a read returns how much it delivered. -/
def BufferAnswer.ofFifo : Fifo.Answer U8 → BufferAnswer
  | .pushed values => ⟨values.length, []⟩
  | .popped values => ⟨values.length, values⟩

/-- One valid call does on the file what its queue operation does on the queue. -/
theorem buffer_step_refines {file : File} {queue : List U8} {op : BufferOp}
    (h : Represents file.traceBuffer queue) (hvalid : op.Valid) :
    ∃ file', bufferStep (some file) op =
        some (some file', .ofFifo (Fifo.step 4096 queue op.toFifo).2) ∧
      Represents file'.traceBuffer (Fifo.step 4096 queue op.toFifo).1 := by
  cases op with
  | traceBufferWrite ctx mem buff count =>
      obtain ⟨file', hwrite, hrep⟩ := append_bytes_represents
        (fun i => mem (buff + BitVec.ofNat 64 i)) count h
      refine ⟨file', ?_, hrep⟩
      have hvalid' : isValidMemRange ctx buff count 1 = true := hvalid
      simp only [bufferStep, traceBufferWrite, hvalid', count_not_negative, write_guard_inert,
        if_false, Bool.true_eq_false, ne_eq, not_true_eq_false, hwrite]
      rfl
  | writeToBuffer src count =>
      obtain ⟨file', hwrite, hrep⟩ := append_bytes_represents src count h
      exact ⟨file', by simp only [bufferStep, writeToBuffer, hwrite]; rfl, hrep⟩
  | traceBufferRead ctx mem buff count =>
      obtain ⟨file', hread, hrep⟩ := trace_buffer_read_represents mem h hvalid
      refine ⟨file', ?_, hrep⟩
      have hlen : (queue.take count.toNat).length ≤ 2 ^ 64 := by
        have := h.length_le
        simp only [List.length_take]
        omega
      simp only [bufferStep, hread, Option.bind_eq_bind, Option.bind_some, Int.toNat_natCast,
        load_bytes_store_bytes hlen]
      rfl

/-- A sequence of valid calls does what the sequence of queue operations does. -/
theorem buffer_run_refines {file : File} {queue : List U8} {ops : List BufferOp}
    (h : Represents file.traceBuffer queue) (hvalid : ∀ op ∈ ops, op.Valid) :
    ∃ file', bufferRun (some file) ops =
        some (some file', (Fifo.run 4096 queue (ops.map BufferOp.toFifo)).2.map .ofFifo) ∧
      Represents file'.traceBuffer (Fifo.run 4096 queue (ops.map BufferOp.toFifo)).1 := by
  induction ops generalizing file queue with
  | nil => exact ⟨file, rfl, h⟩
  | cons op ops ih =>
      obtain ⟨file₁, hstep, hrep₁⟩ := buffer_step_refines h (hvalid op (by simp))
      obtain ⟨file₂, hrun, hrep₂⟩ := ih hrep₁ (fun op hop => hvalid op (by simp [hop]))
      refine ⟨file₂, ?_, hrep₂⟩
      simp only [bufferRun, hstep, hrun, Option.bind_eq_bind, Option.bind_some]
      rfl

/-- The bytes the writes of a run accepted: of each offer, as many as the call returned. -/
def acceptedBytes (ops : List BufferOp) (answers : List BufferAnswer) : List U8 :=
  (List.zipWith (fun op answer => op.offered.take answer.ret.toNat) ops answers).flatten

/-- The bytes the reads of a run delivered. -/
def deliveredBytes (answers : List BufferAnswer) : List U8 :=
  (answers.map BufferAnswer.delivered).flatten

theorem delivered_bytes_of_fifo (answers : List (Fifo.Answer U8)) :
    deliveredBytes (answers.map .ofFifo) = Fifo.totalPopped answers := by
  induction answers with
  | nil => rfl
  | cons answer answers ih =>
      cases answer with
      | pushed values => exact ih
      | popped values => exact congrArg (values ++ ·) ih

theorem accepted_bytes_of_fifo (queue : List U8) (ops : List BufferOp) :
    acceptedBytes ops ((Fifo.run 4096 queue (ops.map BufferOp.toFifo)).2.map .ofFifo) =
      Fifo.totalPushed (Fifo.run 4096 queue (ops.map BufferOp.toFifo)).2 := by
  induction ops generalizing queue with
  | nil => rfl
  | cons op ops ih =>
      have htail := ih (Fifo.step 4096 queue op.toFifo).1
      have hprefix : op.offered.take (Fifo.accepted 4096 queue op.offered).length =
          Fifo.accepted 4096 queue op.offered := by
        rw [Fifo.accepted, List.length_take, ← List.take_eq_take_min]
      cases op with
      | traceBufferRead ctx mem buff count =>
          simpa [acceptedBytes, BufferOp.offered, Fifo.run, BufferOp.toFifo, Fifo.step,
            BufferAnswer.ofFifo, Fifo.totalPushed] using htail
      | traceBufferWrite ctx mem buff count =>
          simp only [acceptedBytes, List.map_cons, Fifo.run, BufferOp.toFifo, Fifo.step,
            BufferAnswer.ofFifo, Fifo.totalPushed, List.zipWith_cons_cons, List.flatten_cons,
            Int.toNat_natCast, hprefix]
          exact congrArg _ htail
      | writeToBuffer src count =>
          simp only [acceptedBytes, List.map_cons, Fifo.run, BufferOp.toFifo, Fifo.step,
            BufferAnswer.ofFifo, Fifo.totalPushed, List.zipWith_cons_cons, List.flatten_cons,
            Int.toNat_natCast, hprefix]
          exact congrArg _ htail

/-- The file a successful `sys_create_trace_buffer` installs holds an empty trace buffer. -/
theorem create_installs_empty {allocates : Object → Bool} {page : Fin 4096 → U8}
    {ctx ctx' : ExecContext} {mode : CInt} {fd : Nat} {objects : List Object}
    (hcreate : sysCreateTraceBuffer allocates page (some ctx) mode =
      ((fd : Int), some ctx', objects)) :
    ∃ file, ctx'.files fd = some file ∧ Represents file.traceBuffer [] := by
  have hEINVAL : -EINVAL ≠ (fd : Int) := by simp only [EINVAL]; omega
  have hENOMEM : -ENOMEM ≠ (fd : Int) := by simp only [ENOMEM]; omega
  simp only [sysCreateTraceBuffer] at hcreate
  cases hfree : (List.range MAX_OPEN_FILES).find? fun i => (ctx.files i).isNone with
  | none =>
      simp only [hfree] at hcreate
      exact absurd (congrArg Prod.fst hcreate) hEINVAL
  | some free =>
      simp only [hfree] at hcreate
      repeat' split at hcreate
      · exact absurd (congrArg Prod.fst hcreate) hEINVAL
      iterate 4 exact absurd (congrArg Prod.fst hcreate) hENOMEM
      have hfd : free = fd := Int.ofNat.inj (congrArg Prod.fst hcreate)
      have hctx := Option.some.inj (congrArg (fun answer => answer.2.1) hcreate)
      subst hfd
      subst hctx
      exact ⟨_, Function.update_self .., represents_new page⟩

/-- The trace buffer refines a bounded FIFO queue of capacity `TRACE_BUFFER_MAX_SIZE`: after any
sequence of calls on a new buffer, the offsets are both `-1` or both positions in the page, the
buffer stores what the queue holds, every call answered as the queue operation does, and the
delivered bytes followed by the stored ones are the accepted bytes. -/
theorem trace_buffer_refines_fifo {allocates : Object → Bool} {page : Fin 4096 → U8}
    {ctx ctx' : ExecContext} {mode : CInt} {fd : Nat} {objects : List Object}
    (hcreate : sysCreateTraceBuffer allocates page (some ctx) mode =
      ((fd : Int), some ctx', objects))
    (ops : List BufferOp) (hvalid : ∀ op ∈ ops, op.Valid) :
    ∃ file answers queue,
      bufferRun (ctx'.files fd) ops = some (some file, answers) ∧
      OffsetsOk file.traceBuffer ∧ Represents file.traceBuffer queue ∧
      (queue, answers) =
        ((Fifo.run TRACE_BUFFER_MAX_SIZE [] (ops.map BufferOp.toFifo)).1,
          (Fifo.run TRACE_BUFFER_MAX_SIZE [] (ops.map BufferOp.toFifo)).2.map .ofFifo) ∧
      deliveredBytes answers ++ queue = acceptedBytes ops answers := by
  obtain ⟨file, hfile, hnew⟩ := create_installs_empty hcreate
  obtain ⟨file', hrun, hrep⟩ := buffer_run_refines hnew hvalid
  refine ⟨file', _, _, hfile ▸ hrun, hrep.offsets_ok, hrep, rfl, ?_⟩
  simp only [TRACE_BUFFER_MAX_SIZE, delivered_bytes_of_fifo, accepted_bytes_of_fifo]
  exact Fifo.run_conserves 4096 [] _

/-- A process with one writable segment and no open file. -/
def sampleContext : ExecContext :=
  { pid := 1
    mms := [{ start := 0x1000, endAddr := 0x3000, nextFree := 0x2000, accessFlags := 3 }]
    vmArea := []
    files := fun _ => none
    ftMdBase := none
    stMdBase := none }

/-- A new buffer to which the user and the kernel write, and from which the user reads. -/
theorem trace_buffer_refines_fifo_sample :
    let file : File := ⟨TRACE_BUFFER, O_RDWR, 0, 1, newTraceBuffer fun _ => 0⟩
    let ops : List BufferOp :=
      [.traceBufferWrite sampleContext (fun a => a.setWidth 8) 0x1000 3,
        .writeToBuffer (fun _ => 0x20) 1,
        .traceBufferRead sampleContext (fun _ => 0) 0x2000 2]
    ∃ final answers queue,
      bufferRun (some file) ops = some (some final, answers) ∧
      OffsetsOk final.traceBuffer ∧ Represents final.traceBuffer queue ∧
      (queue, answers) =
        ((Fifo.run TRACE_BUFFER_MAX_SIZE [] (ops.map BufferOp.toFifo)).1,
          (Fifo.run TRACE_BUFFER_MAX_SIZE [] (ops.map BufferOp.toFifo)).2.map .ofFifo) ∧
      deliveredBytes answers ++ queue = acceptedBytes ops answers := by
  intro file ops
  have hcreate : sysCreateTraceBuffer (fun _ => true) (fun _ => 0) (some sampleContext) O_RDWR =
      (((0 : Nat) : Int),
        some { sampleContext with files := Function.update sampleContext.files 0 (some file) },
        [.file, .traceBufferInfo, .page, .fileops]) := rfl
  refine trace_buffer_refines_fifo hcreate ops ?_
  intro op hop
  simp only [ops, List.mem_cons, List.not_mem_nil, or_false] at hop
  rcases hop with rfl | rfl | rfl
  · show isValidMemRange _ _ _ _ = true
    decide
  · trivial
  · show isValidMemRange _ _ _ _ = true
    decide

end GemOS.Tracer
