import GemOS.Mylib.Requests

/-!
# Sizes of the parts

`memalloc` compares a chunk with the need before padding, but takes the padded need from it. Sizes
are multiples of 8 and a chunk is only divided if it has 24 bytes, so there is no underflow, for the
chunks of any list, also those that are smaller than a chunk ought to be.
-/

namespace GemOS.Mylib

open DoublyLinked

variable {h : Heap} {cs pre post : List U64} {b c p v requestedSize : U64} {mmap : Option U64}

/-! ## Free lists -/

/-- The bytes that a chunk uses, its fields included. -/
def Heap.footprint (h : Heap) (c : U64) : Nat :=
  max 24 (h.extent c)

/-- The chunks `cs` are linked in the free list and do not overlap, and their sizes are multiples
of 8. A chunk may be smaller than its fields. -/
structure ChunkList (h : Heap) (cs : List U64) : Prop where
  list : IsList h.nextOf h.prev NULL cs
  size_aligned : ∀ c ∈ cs, h.extent c % 8 = 0
  no_wrap : ∀ c ∈ cs, start c + h.footprint c ≤ 2 ^ 64
  apart : ∀ b ∈ cs, ∀ c ∈ cs, b ≠ c → Blocks.Apart start h.footprint b c

theorem ChunkList.all_clear (hlist : ChunkList h cs) : AllClear cs := by
  intro b hb c hc
  have hb' := hlist.no_wrap b hb
  have hc' := hlist.no_wrap c hc
  refine clear_of_apart ?_ ?_ ?_
  · unfold Heap.footprint at hb'
    omega
  · unfold Heap.footprint at hc'
    omega
  · by_cases heq : b = c
    · exact Or.inl heq
    · have hapart := hlist.apart b hb c hc heq
      unfold Blocks.Apart Heap.footprint at hapart
      omega

/-- What the search of `memalloc` finds. -/
theorem ChunkList.find_fit (hlist : ChunkList h cs) (needed : U64) :
    find h.next NULL (fits h needed) LOOP_BOUND h.freeList = some NULL ∨
    ∃ pre c post, cs = pre ++ c :: post ∧ needed.toNat ≤ h.extent c ∧ 24 ≤ h.extent c ∧
      find h.next NULL (fits h needed) LOOP_BOUND h.freeList = some c := by
  have hnodup := List.nodup_cons.mp hlist.list.nodup
  have hnext : ∀ c ∈ cs, h.next c = h.nextOf c := fun c hc =>
    (Heap.nextOf_of_ne fun heq => hnodup.1 (heq ▸ hc)).symm
  rcases hlist.list.find_cases hnext (length_lt_bound hnodup.2) with
    ⟨hfind, _⟩ | ⟨pre, c, post, hcs, _, hstop, hfind⟩
  · exact Or.inl hfind
  · simp only [fits, decide_eq_true_eq] at hstop
    exact Or.inr ⟨pre, c, post, hcs, BitVec.le_def.mp hstop.1, BitVec.le_def.mp hstop.2, hfind⟩

/-! ## Two parts -/

/-- `room` bytes have been divided for a request: the padded need is a multiple of 8, at least 24
and at most `room`, and the sizes of block and remainder are multiples of 8 that add up to
`room`. -/
structure Divided (requestedSize : U64) (room block remainder : Nat) : Prop where
  need_aligned : (sizeNeeded requestedSize + paddingSize (sizeNeeded requestedSize)).toNat % 8 = 0
  need_min : 24 ≤ (sizeNeeded requestedSize + paddingSize (sizeNeeded requestedSize)).toNat
  need_le : (sizeNeeded requestedSize + paddingSize (sizeNeeded requestedSize)).toNat ≤ room
  block_aligned : block % 8 = 0
  remainder_aligned : remainder % 8 = 0
  sum : block + remainder = room

/-- What `memalloc` may do: it gives nothing, a whole chunk, a part of a chunk, or a part of a new
region. What remains of a chunk or region is the first chunk of the list. -/
inductive Division (h h' : Heap) (cs : List U64) (requestedSize : U64) (mmap : Option U64) :
    U64 → Prop where
  | nothing (hnone : requestedSize = 0 ∨ mmap = none) : Division h h' cs requestedSize mmap NULL
  | whole {c : U64} (hc : c ∈ cs) (hsizes : Divided requestedSize (h.extent c) (h'.extent c) 0) :
      Division h h' cs requestedSize mmap (c + ALLOC_MEM_METADATA)
  | part {c : U64} (hc : c ∈ cs) (hbehind : h'.freeList = c + h'.size c)
      (hsizes : Divided requestedSize (h.extent c) (h'.extent c) (h'.extent h'.freeList)) :
      Division h h' cs requestedSize mmap (c + ALLOC_MEM_METADATA)
  | region {base : U64} (hbase : mmap = some base) (hbehind : h'.freeList = base + h'.size base)
      (hsizes : Divided requestedSize (sizeRequestedFromOS (sizeNeeded requestedSize)).toNat
        (h'.extent base) (h'.extent h'.freeList)) :
      Division h h' cs requestedSize mmap (base + ALLOC_MEM_METADATA)

/-- Cutting the padded need off. -/
theorem divided_cut {room : Nat} (h8 : room % 8 = 0)
    (hle : (sizeNeeded requestedSize + paddingSize (sizeNeeded requestedSize)).toNat ≤ room) :
    Divided requestedSize room
      (sizeNeeded requestedSize + paddingSize (sizeNeeded requestedSize)).toNat
      (room - (sizeNeeded requestedSize + paddingSize (sizeNeeded requestedSize)).toNat) := by
  have haligned := padded_aligned (sizeNeeded requestedSize)
  exact ⟨haligned, padded_min _, hle, haligned, by omega, by omega⟩

/-- Leaving everything to the block. -/
theorem divided_whole {room : Nat} (h8 : room % 8 = 0)
    (hle : (sizeNeeded requestedSize + paddingSize (sizeNeeded requestedSize)).toNat ≤ room) :
    Divided requestedSize room room 0 :=
  ⟨padded_aligned _, padded_min _, hle, h8, rfl, rfl⟩

/-- A new first chunk: its size, and the size of a block that none of its fields lies in. -/
theorem pushFront_sizes (hblock : p ≠ b ∧ p + 8 ≠ b ∧ p + 16 ≠ b)
    (hhead : h.freeList ≠ NULL → h.freeList + 16 ≠ b ∧ h.freeList + 16 ≠ p) :
    (h.pushFront p v).size b = h.size b ∧ (h.pushFront p v).size p = v := by
  obtain ⟨hsize, hnext, hprev⟩ := hblock
  let h₁ := ((h.setSize p v).setNext p h.freeList).setPrev p NULL
  have hb : h₁.size b = h.size b := by
    show Function.update (Function.update (Function.update h.mem p v) _ _) _ _ b = _
    rw [Function.update_of_ne hprev.symm, Function.update_of_ne hnext.symm,
      Function.update_of_ne hsize.symm]
    rfl
  have hp : h₁.size p = v := by
    show Function.update (Function.update (Function.update h.mem p v) _ _) _ _ p = _
    rw [Function.update_of_ne (by bv_omega), Function.update_of_ne (by bv_omega),
      Function.update_self]
  show (h₁.setPrevOf h.freeList p).size b = _ ∧ (h₁.setPrevOf h.freeList p).size p = _
  unfold Heap.setPrevOf
  split_ifs with hne
  · obtain ⟨hne_b, hne_p⟩ := hhead hne
    refine ⟨Eq.trans ?_ hb, Eq.trans ?_ hp⟩
    · exact Function.update_of_ne hne_b.symm _ _
    · exact Function.update_of_ne hne_p.symm _ _
  · exact ⟨hb, hp⟩

/-- The fields of a chunk behind a block are not the size word of the block. -/
theorem behind_ne {total : U64} (hmin : 24 ≤ total.toNat) (hmax : total.toNat + 24 ≤ 2 ^ 64) :
    b + total ≠ b ∧ b + total + 8 ≠ b ∧ b + total + 16 ≠ b := by
  refine ⟨?_, ?_, ?_⟩ <;> bv_omega

/-- The link words of other chunks lie outside a chunk. -/
theorem ChunkList.prev_word (hlist : ChunkList h cs) {head total : U64} (hhead : head ∈ cs)
    (hc : c ∈ cs) (hne : head ≠ c) (hroom : total.toNat + 24 ≤ h.extent c) :
    head + 16 ≠ c ∧ head + 16 ≠ c + total := by
  have hhead' := hlist.no_wrap head hhead
  have hc' := hlist.no_wrap c hc
  have hapart := hlist.apart head hhead c hc hne
  unfold Blocks.Apart at hapart
  unfold Heap.footprint at hhead' hc' hapart
  simp only [start] at hhead' hc' hapart
  constructor <;> bv_omega

/-- A chunk that fits is given as a whole or in part. -/
theorem ChunkList.division (hlist : ChunkList h (pre ++ c :: post)) (hsize : requestedSize ≠ 0)
    (hfind : find h.next NULL (fits h (sizeNeeded requestedSize)) LOOP_BOUND h.freeList = some c)
    (hfits : (sizeNeeded requestedSize).toNat ≤ h.extent c) (hmin : 24 ≤ h.extent c) :
    ∃ ptr h', memalloc h requestedSize mmap = some (ptr, h') ∧
      Division h h' (pre ++ c :: post) requestedSize mmap ptr := by
  have hc : c ∈ pre ++ c :: post := by simp
  have h8 := hlist.size_aligned c hc
  have hle := padded_le h8 hmin hfits
  have hnull : c ≠ NULL := hlist.list.node.1
  obtain ⟨hsizes, hrest⟩ := Heap.unlink_of_list hlist.all_clear hlist.list fun _ hb => hb
  have hunlinked : (h.unlink c).size c = h.size c := hsizes c hc
  have hextent : (h.unlink c).extent c = h.extent c := congrArg BitVec.toNat hunlinked
  simp only [memalloc, if_neg hsize, hfind, Option.bind_eq_bind, Option.bind_some, if_pos hnull,
    hunlinked]
  have hwhole := divided_whole h8 hle
  have hcut := divided_cut h8 hle
  have hpadded := padded_min (sizeNeeded requestedSize)
  generalize sizeNeeded requestedSize + paddingSize (sizeNeeded requestedSize) = total at *
  have hrem : (h.size c - total).toNat = h.extent c - total.toNat :=
    BitVec.toNat_sub_of_le (BitVec.le_def.mpr hle)
  split_ifs with hsmall
  · refine ⟨_, _, rfl, Division.whole hc ?_⟩
    have hsame : ((h.unlink c).setSize c (h.size c)).extent c = h.extent c := by
      simp [Heap.extent]
    rw [hsame]
    exact hwhole
  · have hlarge : 24 ≤ h.extent c - total.toNat := by
      rw [← hrem]
      exact BitVec.not_lt.mp hsmall
    have hback : h.size c - (h.size c - total) = total := by bv_omega
    have htotal : ((h.unlink c).setSize c total).size c = total := by simp
    rw [hback, htotal]
    have hhead : ((h.unlink c).setSize c total).freeList ≠ NULL →
        (h.unlink c).freeList + 16 ≠ c ∧ (h.unlink c).freeList + 16 ≠ c + total := by
      intro hne
      have hmem := Heap.freeList_of_list hrest hne
      have hne_c : (h.unlink c).freeList ≠ c := by
        have hnodup := (List.nodup_cons.mp hlist.list.nodup).2
        rw [List.nodup_middle, List.nodup_cons] at hnodup
        exact fun heq => hnodup.1 (heq ▸ hmem)
      refine hlist.prev_word ?_ hc hne_c (by omega)
      simp only [List.mem_append, List.mem_cons] at hmem ⊢
      tauto
    have hlt : h.extent c < 2 ^ 64 := (h.size c).isLt
    have hbehind := behind_ne (b := c) hpadded (by omega)
    obtain ⟨hblock, hremainder⟩ := pushFront_sizes (v := h.size c - total) hbehind hhead
    rw [htotal] at hblock
    refine ⟨_, _, rfl, Division.part hc ?_ ?_⟩
    · rw [hblock]
      rfl
    · show Divided requestedSize _ (BitVec.toNat (Heap.size _ c))
        (BitVec.toNat (Heap.size _ (c + total)))
      rw [hblock, hremainder, hrem]
      exact hcut

/-- What `mmap` promises: a region that is not empty and does not wrap around, and that no field of
a free chunk lies in. -/
structure FreshMemory (cs : List U64) (r : Region) : Prop where
  not_empty : 0 < r.length.toNat
  no_wrap : r.base.toNat + r.length.toNat ≤ 2 ^ 64
  apart : ∀ c ∈ cs, start c + 24 ≤ r.base.toNat ∨ r.base.toNat + r.length.toNat ≤ start c

/-- The sizes of the two parts of a new region. -/
theorem ChunkList.region_sizes (hlist : ChunkList h cs) {base total request : U64}
    (hfresh : FreshMemory cs ⟨base, request⟩) (hmin : 24 ≤ total.toNat)
    (hmax : total.toNat + 24 ≤ 2 ^ 64) (hle : total.toNat ≤ request.toNat) :
    (((h.mapRegion base request).setSize base total).pushFront (base + total) v).size base = total ∧
      (((h.mapRegion base request).setSize base total).pushFront (base + total) v).size
        (base + total) = v := by
  have hhead : h.freeList ≠ NULL → h.freeList + 16 ≠ base ∧ h.freeList + 16 ≠ base + total := by
    intro hne
    have hmem := Heap.freeList_of_list hlist.list hne
    have hroom := hlist.no_wrap _ hmem
    have hoff := hfresh.apart _ hmem
    have hwrap := hfresh.no_wrap
    unfold Heap.footprint at hroom
    simp only [start] at hroom hoff hwrap
    constructor <;> bv_omega
  obtain ⟨hblock, hremainder⟩ := pushFront_sizes
    (h := (h.mapRegion base request).setSize base total) (v := v) (behind_ne hmin hmax) hhead
  rw [Heap.size_setSize, if_pos rfl] at hblock
  exact ⟨hblock, hremainder⟩

/-- A new region is given in part. -/
theorem ChunkList.division_region (hlist : ChunkList h cs) {base : U64} (hsize : requestedSize ≠ 0)
    (hfind : find h.next NULL (fits h (sizeNeeded requestedSize)) LOOP_BOUND h.freeList = some NULL)
    (hfresh : FreshMemory cs ⟨base, sizeRequestedFromOS (sizeNeeded requestedSize)⟩) :
    ∃ ptr h', memalloc h requestedSize (some base) = some (ptr, h') ∧
      Division h h' cs requestedSize (some base) ptr := by
  obtain ⟨hneeded, hle⟩ := request_ge hfresh.not_empty
  have hlimit : (sizeNeeded requestedSize + paddingSize (sizeNeeded requestedSize)).toNat + 24 ≤
      2 ^ 64 := by
    rw [padded_toNat]
    split_ifs <;> omega
  have hrem := BitVec.toNat_sub_of_le (BitVec.le_def.mpr hle)
  obtain ⟨hblock, hremainder⟩ := hlist.region_sizes hfresh (padded_min _) hlimit hle
  refine ⟨_, _, memalloc_new base hsize hfind, Division.region rfl ?_ ?_⟩
  · rw [hblock]
    rfl
  · show Divided requestedSize _ (BitVec.toNat (Heap.size _ base))
      (BitVec.toNat (Heap.size _ (base + _)))
    rw [hblock, hremainder, hrem]
    exact divided_cut (request_aligned _) hle

/-- The sizes of what `memalloc` divides: the padded need fits, and the parts add up. -/
theorem memalloc_divides (hlist : ChunkList h cs)
    (hmmap : ∀ base, mmap = some base →
      FreshMemory cs ⟨base, sizeRequestedFromOS (sizeNeeded requestedSize)⟩) :
    ∃ ptr h', memalloc h requestedSize mmap = some (ptr, h') ∧
      Division h h' cs requestedSize mmap ptr := by
  by_cases hsize : requestedSize = 0
  · exact ⟨NULL, h, by rw [memalloc, if_pos hsize], Division.nothing (Or.inl hsize)⟩
  · rcases hlist.find_fit (sizeNeeded requestedSize) with
      hfind | ⟨pre, c, post, rfl, hfits, hmin, hfind⟩
    · cases mmap with
      | none =>
          refine ⟨NULL, h, ?_, Division.nothing (Or.inr rfl)⟩
          simp only [memalloc, if_neg hsize, hfind, Option.bind_eq_bind, Option.bind_some, ne_eq,
            not_true_eq_false, if_false]
      | some base => exact hlist.division_region hsize hfind (hmmap base rfl)
    · exact hlist.division hsize hfind hfits hmin

/-- A list of one chunk of 64 bytes. -/
def oneChunk : Heap :=
  ⟨fun a => if a = 4096 then 64 else 0, 4096⟩

theorem oneChunk_list : ChunkList oneChunk [4096] := by
  have hextent : oneChunk.extent 4096 = 64 := rfl
  refine ⟨⟨⟨rfl, fun _ => rfl, rfl, fun hne => absurd rfl hne, trivial⟩, by decide⟩, ?_, ?_, ?_⟩
  · intro c hc
    rw [List.mem_singleton.mp hc, hextent]
  · intro c hc
    rw [List.mem_singleton.mp hc, Heap.footprint, hextent]
    decide
  · intro b hb c hc hne
    exact absurd ((List.mem_singleton.mp hb).trans (List.mem_singleton.mp hc).symm) hne

/-- A request of 16 bytes gets a part of the chunk, even if there could be a new region. -/
theorem memalloc_divides_sample :
    ∃ ptr h', memalloc oneChunk 16 (some sampleBase) = some (ptr, h') ∧
      Division oneChunk h' [4096] 16 (some sampleBase) ptr :=
  memalloc_divides oneChunk_list fun base hbase => by
    obtain rfl := Option.some.inj hbase
    refine ⟨by decide +kernel, by decide +kernel, fun c hc => ?_⟩
    rw [List.mem_singleton.mp hc]
    exact Or.inl (by decide)

end GemOS.Mylib
