import GemOS.Base
import GemOS.Lib.DoublyLinked

/-!
# The user-space allocator

`memalloc` and `memfree` over a memory of 64-bit words. Every block starts with a word that
holds its size; a free block (`FreeChunk`) also holds the two links of the free list. All
addresses the code uses are multiples of 8, so a word never overlaps another one. A call answers
`none` when one of its search loops does not end. The `printf` calls are left out.
-/

namespace GemOS.Mylib

open DoublyLinked

def ALLOC_MEM_METADATA : U64 := 8

def FREE_MEM_METADATA : U64 := 24

/-- The null pointer. -/
def NULL : U64 := 0

def FOUR_MB : U64 := 4 * 1024 * 1024

/-- Memory by word address, and the head of the free list. -/
structure Heap where
  mem : U64 → U64
  freeList : U64

namespace Heap

/-! ## Fields of `FreeChunk` -/

def size (h : Heap) (chunk : U64) : U64 :=
  h.mem chunk

def next (h : Heap) (chunk : U64) : U64 :=
  h.mem (chunk + 8)

def prev (h : Heap) (chunk : U64) : U64 :=
  h.mem (chunk + 16)

def setSize (h : Heap) (chunk value : U64) : Heap :=
  { h with mem := Function.update h.mem chunk value }

def setNext (h : Heap) (chunk value : U64) : Heap :=
  { h with mem := Function.update h.mem (chunk + 8) value }

def setPrev (h : Heap) (chunk value : U64) : Heap :=
  { h with mem := Function.update h.mem (chunk + 16) value }

/-- Let the list go past a chunk: the link to it gets its own link. -/
def bypass (h : Heap) (current : U64) : Heap :=
  if h.prev current ≠ NULL then h.setNext (h.prev current) (h.next current)
  else { h with freeList := h.next current }

/-- Set the back link of a chunk, if there is one. -/
def setPrevOf (h : Heap) (chunk value : U64) : Heap :=
  if chunk ≠ NULL then h.setPrev chunk value else h

/-- Take a chunk off the free list. -/
def unlink (h : Heap) (current : U64) : Heap :=
  let h := h.bypass current
  h.setPrevOf (h.next current) (h.prev current)

/-- Make a chunk of the given size the head of the free list. -/
def pushFront (h : Heap) (chunk chunkSize : U64) : Heap :=
  let h := ((h.setSize chunk chunkSize).setNext chunk h.freeList).setPrev chunk NULL
  let h := h.setPrevOf h.freeList chunk
  { h with freeList := chunk }

/-- Turn a block into a chunk that is on no list. -/
def makeChunk (h : Heap) (chunk chunkSize : U64) : Heap :=
  ((h.setSize chunk chunkSize).setPrev chunk NULL).setNext chunk NULL

/-- Put a chunk whose other fields are set at the head of the free list. -/
def linkFront (h : Heap) (chunk : U64) : Heap :=
  let h := h.setNext chunk h.freeList
  let h := h.setPrevOf h.freeList chunk
  { h with freeList := chunk }

/-- A new region as `mmap` delivers it, filled with zeros. -/
def mapRegion (h : Heap) (base length : U64) : Heap :=
  { h with mem := fun a => if a - base < length then 0 else h.mem a }

end Heap

/-- A search of the free list that has not ended after this many tests has met a chunk twice:
there are no more addresses. Memory does not change meanwhile, so the loop never ends. -/
def LOOP_BOUND : Nat := 2 ^ 64 + 1

/-! ## `memalloc` -/

/-- `sizeNeeded`, with wrap-around. -/
def sizeNeeded (requestedSize : U64) : U64 :=
  requestedSize + ALLOC_MEM_METADATA

/-- The padding to a multiple of 8, or to 24 bytes. -/
def paddingSize (needed : U64) : U64 :=
  let padding := (ALLOC_MEM_METADATA - needed % ALLOC_MEM_METADATA) % ALLOC_MEM_METADATA
  if needed + padding < FREE_MEM_METADATA then FREE_MEM_METADATA - needed else padding

/-- The size of the region requested from the operating system. -/
def sizeRequestedFromOS (needed : U64) : U64 :=
  let rem := needed % FOUR_MB
  let factor := needed / FOUR_MB
  let factor := factor + (if rem ≠ 0 then 1 else 0)
  factor * FOUR_MB

/-- The test of the search for a free chunk. -/
def fits (h : Heap) (needed chunk : U64) : Bool :=
  h.size chunk ≥ needed ∧ h.size chunk ≥ FREE_MEM_METADATA

/-- `memalloc`. `mmap` is the answer of the system call, should it be made: the address of the
region, or `none` for `MAP_FAILED`. The result is the pointer returned. -/
def memalloc (h : Heap) (requestedSize : U64) (mmap : Option U64) : Option (U64 × Heap) := do
  if requestedSize = 0 then some (NULL, h)
  else
    let needed := sizeNeeded requestedSize
    let current ← find h.next NULL (fits h needed) LOOP_BOUND h.freeList
    if current ≠ NULL then
      let h := h.unlink current
      let remSize := h.size current - (needed + paddingSize needed)
      if remSize < FREE_MEM_METADATA then
        -- the remaining bytes become padding
        some (current + ALLOC_MEM_METADATA, h.setSize current (h.size current))
      else
        let h := h.setSize current (h.size current - remSize)
        some (current + ALLOC_MEM_METADATA, h.pushFront (current + h.size current) remSize)
    else
      let request := sizeRequestedFromOS needed
      match mmap with
      | none => some (NULL, h)
      | some base =>
          let h := h.mapRegion base request
          let h := h.setSize base (needed + paddingSize needed)
          some (base + ALLOC_MEM_METADATA,
            h.pushFront (base + needed + paddingSize needed)
              (request - needed - paddingSize needed))

/-! ## `memfree` -/

/-- The chunk found to the right is taken in by the freed one. -/
def mergeRight (h : Heap) (freed next : U64) : Heap :=
  let h := h.setSize freed (h.size freed + h.size next)
  let h := h.setNext freed (h.next next)
  let h := h.setPrevOf (h.next next) freed
  if h.freeList = next then { h with freeList := freed } else h

/-- The freed chunk is taken in by the one found to the left; `next` is the other search's
result, which is `NULL` here. -/
def mergeLeft (h : Heap) (freed prev next : U64) : Heap :=
  let h := h.setSize prev (h.size prev + h.size freed)
  let h := h.setNext prev next
  let h := h.setPrevOf next prev
  if h.freeList = freed then { h with freeList := prev } else h

/-- The chunk to the left takes in the freed one and the chunk to the right. -/
def mergeBoth (h : Heap) (freed prev next : U64) : Heap :=
  let h := h.setSize prev (h.size prev + (h.size freed + h.size next))
  let h := h.setNext prev (h.next next)
  let h := h.setPrevOf (h.next next) prev
  if h.freeList = freed then { h with freeList := prev } else h

/-- `memfree`. -/
def memfree (h : Heap) (ptr : U64) : Option (Int × Heap) := do
  if ptr = NULL then some (-1, h)
  else
    let freed := ptr - ALLOC_MEM_METADATA
    let sizeFreed := h.size freed
    let h := h.makeChunk freed sizeFreed
    let next ← find h.next NULL (fun c => ptr + sizeFreed - ALLOC_MEM_METADATA = c) LOOP_BOUND
      h.freeList
    let prev ← find h.next NULL (fun c => c + h.size c + ALLOC_MEM_METADATA = ptr) LOOP_BOUND
      h.freeList
    if prev = NULL ∧ next = NULL then some (0, h.linkFront freed)
    else if prev = NULL then some (0, mergeRight h freed next)
    else if next = NULL then some (0, mergeLeft h freed prev next)
    else some (0, mergeBoth h freed prev next)

/-! ## A program using the allocator -/

/-- A region obtained from `mmap`. -/
structure Region where
  base : U64
  length : U64
deriving DecidableEq

/-- The heap of a program, the blocks it holds (by the address of their size word) and the
regions obtained so far. -/
structure State where
  heap : Heap
  live : List U64
  regions : List Region

/-- What a program does: a call of `memalloc`, a call of `memfree` for the block whose size word
is at `block`, or a store of a word. -/
inductive Op where
  | memalloc (requestedSize : U64) (mmap : Option U64)
  | memfree (block : U64)
  | store (address word : U64)

/-- The region a call of `memalloc` has obtained, if it has called `mmap` successfully: no free
chunk fits. -/
def newRegion (h : Heap) (requestedSize : U64) (mmap : Option U64) : List Region :=
  let needed := sizeNeeded requestedSize
  if requestedSize = 0 then []
  else if find h.next NULL (fits h needed) LOOP_BOUND h.freeList = some NULL then
    (mmap.map fun base => ⟨base, sizeRequestedFromOS needed⟩).toList
  else []

/-- One step of a program. -/
def State.step (s : State) : Op → Option State
  | .memalloc requestedSize mmap => do
      let (ptr, heap) ← memalloc s.heap requestedSize mmap
      some
        { heap := heap
          live := if ptr = NULL then s.live else (ptr - ALLOC_MEM_METADATA) :: s.live
          regions := newRegion s.heap requestedSize mmap ++ s.regions }
  | .memfree block => do
      let (_, heap) ← memfree s.heap (block + ALLOC_MEM_METADATA)
      some { s with heap := heap, live := s.live.erase block }
  | .store address word =>
      some { s with heap := { s.heap with mem := Function.update s.heap.mem address word } }

/-- Before the first call: no chunk, no block, no region. -/
def State.start (mem : U64 → U64) : State :=
  { heap := { mem := mem, freeList := NULL }, live := [], regions := [] }

end GemOS.Mylib
