import GemOS.Mylib.Coalescing

/-!
# Calls of the allocator

One lemma for each call: under which condition on the heap before the call the layout of the
heap is kept, and under which no memory is lost. `memalloc` needs room for a chunk at the end of
a new region. `memfree` depends on where the free neighbours of the block are on the list.
-/

namespace GemOS.Mylib

open DoublyLinked

/-! ## Sizes -/

/-- The padding to a multiple of 8. -/
theorem padding_toNat (needed : U64) :
    ((8#64 - needed % 8#64) % 8#64).toNat = (8 - needed.toNat % 8) % 8 := by
  have hlt := Nat.mod_lt needed.toNat (show 0 < 8 by decide)
  have hmod : (needed % 8#64).toNat = needed.toNat % 8 := BitVec.toNat_umod
  rw [BitVec.toNat_umod, BitVec.toNat_sub_of_le (BitVec.le_def.mpr (by rw [hmod]; exact hlt.le)),
    hmod]
  rfl

/-- The size with the smaller padding `p`, or with padding to 24 bytes. -/
theorem padded_cases {needed p : U64} (hp : p.toNat = (8 - needed.toNat % 8) % 8) :
    (needed + if needed + p < 24#64 then 24#64 - needed else p).toNat =
      if needed.toNat ≤ 24 ∨ 2 ^ 64 - 8 < needed.toNat then 24
      else needed.toNat + (8 - needed.toNat % 8) % 8 := by
  have hlt := needed.isLt
  have hsum : (needed + p).toNat = (needed.toNat + p.toNat) % 2 ^ 64 := BitVec.toNat_add ..
  by_cases hsmall : needed + p < 24#64
  · have hle : (needed + p).toNat < 24 := hsmall
    rw [if_pos hsmall, if_pos (by omega)]
    bv_omega
  · have hge : ¬ (needed + p).toNat < 24 := hsmall
    rw [if_neg hsmall]
    split_ifs <;> omega

/-- The size of an allocated block: rounded up to a multiple of 8, at least 24, and 24 too where
this wraps around. -/
theorem padded_toNat (needed : U64) :
    (needed + paddingSize needed).toNat =
      if needed.toNat ≤ 24 ∨ 2 ^ 64 - 8 < needed.toNat then 24
      else needed.toNat + (8 - needed.toNat % 8) % 8 :=
  padded_cases (padding_toNat needed)

theorem padded_aligned (needed : U64) : (needed + paddingSize needed).toNat % 8 = 0 := by
  rw [padded_toNat]
  split_ifs <;> omega

theorem padded_min (needed : U64) : 24 ≤ (needed + paddingSize needed).toNat := by
  rw [padded_toNat]
  split_ifs <;> omega

/-- A block that the search accepts has room for the padding too. -/
theorem padded_le {needed : U64} {n : Nat} (h8 : n % 8 = 0) (hmin : 24 ≤ n)
    (hneeded : needed.toNat ≤ n) : (needed + paddingSize needed).toNat ≤ n := by
  rw [padded_toNat]
  split_ifs <;> omega

/-- Padding a size that a block can have does not make it smaller. -/
theorem le_padded {needed : U64} {n : Nat} (h8 : n % 8 = 0) (hn : n < 2 ^ 64)
    (hneeded : needed.toNat ≤ n) : needed.toNat ≤ (needed + paddingSize needed).toNat := by
  rw [padded_toNat]
  split_ifs <;> omega

theorem request_aligned (needed : U64) : (sizeRequestedFromOS needed).toNat % 8 = 0 := by
  have hmb : FOUR_MB.toNat = 8 * 524288 := by decide
  rw [sizeRequestedFromOS, BitVec.toNat_mul, hmb, Nat.mod_mod_of_dvd _ (by decide), ← mul_assoc,
    mul_right_comm]
  exact Nat.mul_mod_left _ 8

/-! ## Regions -/

/-- The addresses of the regions obtained. -/
def mapped (regions : List Region) : Set Nat :=
  {x | ∃ r ∈ regions, r.base.toNat ≤ x ∧ x < r.base.toNat + r.length.toNat}

/-- The total size of the regions obtained. -/
def mappedSize (regions : List Region) : Nat :=
  (regions.map fun r => r.length.toNat).sum

theorem mem_mapped_cons {r : Region} {regions : List Region} {x : Nat} :
    x ∈ mapped (r :: regions) ↔
      x ∈ mapped regions ∨ r.base.toNat ≤ x ∧ x < r.base.toNat + r.length.toNat := by
  simp [mapped, or_comm]

/-- What `mmap` promises: a region that is not empty, starts at a page other than the first one,
does not wrap around and overlaps no earlier region. -/
structure FreshRegion (regions : List Region) (r : Region) : Prop where
  nonzero : r.base ≠ NULL
  aligned : r.base.toNat % 4096 = 0
  not_empty : 0 < r.length.toNat
  no_wrap : r.base.toNat + r.length.toNat ≤ 2 ^ 64
  apart : ∀ old ∈ regions, r.base.toNat + r.length.toNat ≤ old.base.toNat ∨
    old.base.toNat + old.length.toNat ≤ r.base.toNat

instance (regions : List Region) (r : Region) : Decidable (FreshRegion regions r) :=
  decidable_of_iff (r.base ≠ NULL ∧ r.base.toNat % 4096 = 0 ∧ 0 < r.length.toNat ∧
      r.base.toNat + r.length.toNat ≤ 2 ^ 64 ∧
      ∀ old ∈ regions, r.base.toNat + r.length.toNat ≤ old.base.toNat ∨
        old.base.toNat + old.length.toNat ≤ r.base.toNat)
    ⟨fun ⟨h₁, h₂, h₃, h₄, h₅⟩ => ⟨h₁, h₂, h₃, h₄, h₅⟩,
      fun h => ⟨h.nonzero, h.aligned, h.not_empty, h.no_wrap, h.apart⟩⟩

/-- The addresses of a fresh region are new. -/
theorem FreshRegion.not_mapped {regions : List Region} {r : Region} (h : FreshRegion regions r) :
    ∀ x ∈ mapped regions, ¬ (r.base.toNat ≤ x ∧ x < r.base.toNat + r.length.toNat) := by
  rintro x ⟨old, hold, hx⟩ hnew
  have := h.apart old hold
  omega

/-- A new region of the size requested has room for a chunk behind the first block. -/
def LeavesChunk (needed : U64) : Prop :=
  (needed + paddingSize needed).toNat + 24 ≤ (sizeRequestedFromOS needed).toNat

instance (needed : U64) : Decidable (LeavesChunk needed) :=
  inferInstanceAs (Decidable (_ ≤ _))

/-! ## `memalloc` -/

/-- No chunk occurs twice on the list, so the search ends. -/
theorem length_lt_bound {cs : List U64} (hcs : cs.Nodup) : cs.length < LOOP_BOUND := by
  have hnodup : (cs.map BitVec.toNat).Nodup :=
    hcs.map fun _ _ heq => BitVec.eq_of_toNat_eq heq
  have hsub : cs.map BitVec.toNat ⊆ List.range (2 ^ 64) := by
    intro n hn
    obtain ⟨c, _, rfl⟩ := List.mem_map.mp hn
    exact List.mem_range.mpr c.isLt
  have hle := (List.subperm_of_subset hnodup hsub).length_le
  rw [List.length_map, List.length_range] at hle
  exact Nat.lt_succ_of_le hle

section Memalloc

variable {h : Heap} {cs live : List U64} {area : Set Nat}

theorem Layout.chunks_nodup (hL : Layout h cs live area) : cs.Nodup :=
  (List.nodup_cons.mp hL.list.nodup).2

/-- The links of the chunks are those the walk follows. -/
theorem Layout.next_eq (hL : Layout h cs live area) : ∀ c ∈ cs, h.next c = h.nextOf c := fun _ hc =>
  (Heap.nextOf_of_ne (hL.ne_null (List.mem_append_left live hc))).symm

/-- The search of `memalloc` only looks at the size. -/
theorem Layout.fits_iff (hL : Layout h cs live area) {c : U64} (hc : c ∈ cs) (needed : U64) :
    fits h needed c = true ↔ needed.toNat ≤ h.extent c := by
  have hmin : FREE_MEM_METADATA ≤ h.size c :=
    BitVec.le_def.mpr (hL.header c (List.mem_append_left live hc)).min_size
  simp only [fits, decide_eq_true_eq]
  exact ⟨fun hfits => BitVec.le_def.mp hfits.1, fun hle => ⟨BitVec.le_def.mpr hle, hmin⟩⟩

/-- What the search of `memalloc` finds: the first chunk that is large enough. -/
theorem Layout.find_fit (hL : Layout h cs live area) (needed : U64) :
    (find h.next NULL (fits h needed) LOOP_BOUND h.freeList = some NULL ∧
      ∀ c ∈ cs, fits h needed c = false) ∨
    ∃ pre c post, cs = pre ++ c :: post ∧ (∀ d ∈ pre, fits h needed d = false) ∧
      needed.toNat ≤ h.extent c ∧
      find h.next NULL (fits h needed) LOOP_BOUND h.freeList = some c := by
  have hbound := length_lt_bound hL.chunks_nodup
  rcases hL.list.find_cases hL.next_eq hbound with
    ⟨hfind, hno⟩ | ⟨pre, c, post, hcs, hbefore, hstop, hfind⟩
  · exact Or.inl ⟨hfind, hno⟩
  · have hfits := (hL.fits_iff (by simp [hcs] : c ∈ cs) needed).mp hstop
    exact Or.inr ⟨pre, c, post, hcs, hbefore, hfits, hfind⟩

/-- The search of `memalloc` ends. -/
theorem Layout.memalloc_ends (hL : Layout h cs live area) (requestedSize : U64)
    (mmap : Option U64) : (memalloc h requestedSize mmap).isSome := by
  by_cases hzero : requestedSize = 0
  · simp [memalloc, hzero]
  have hends : ∃ c, find h.next NULL (fits h (sizeNeeded requestedSize)) LOOP_BOUND h.freeList =
      some c := by
    rcases hL.find_fit (sizeNeeded requestedSize) with ⟨hfind, -⟩ | ⟨-, c, -, -, -, -, hfind⟩
    · exact ⟨NULL, hfind⟩
    · exact ⟨c, hfind⟩
  obtain ⟨c, hfind⟩ := hends
  simp only [memalloc, if_neg hzero, hfind, Option.bind_eq_bind, Option.bind_some]
  split_ifs
  · rfl
  · rfl
  · cases mmap <;> rfl

/-- A block at `b` has been cut from `room` bytes. What is left is the first chunk if it has room
for one, and else belongs to the block; the chunks `rest` are as they were. -/
structure Carved (h h' : Heap) (b total : U64) (room : Nat) (rest cs' : List U64) : Prop where
  list : cs' = if total.toNat + 24 ≤ room then (b + total) :: rest else rest
  block : h'.extent b = if total.toNat + 24 ≤ room then total.toNat else room
  remainder : total.toNat + 24 ≤ room → h'.extent (b + total) = room - total.toNat
  kept : ∀ c ∈ rest, h'.size c = h.size c

/-- The sizes after a block has been cut. -/
theorem Layout.carved {h' h₁ : Heap} {b total : U64} {room : Nat} {rest : List U64}
    (hL : Layout h' ((b + total) :: rest) (b :: live) area) (hroom : total.toNat + 24 ≤ room)
    (hextent : ∀ x ∈ (b + total) :: rest ++ b :: live, h'.extent x =
      if x = b + total then room - total.toNat else if x = b then total.toNat else h₁.extent x)
    (hkept : ∀ c ∈ rest, h₁.size c = h.size c) :
    Carved h h' b total room rest ((b + total) :: rest) := by
  have hnodup := hL.nodup
  simp only [List.cons_append, List.nodup_cons, List.mem_append, List.mem_cons, not_or,
    List.nodup_append] at hnodup
  obtain ⟨⟨hrest_cut, hb_cut, -⟩, -, -, hrest_b⟩ := hnodup
  refine ⟨(if_pos hroom).symm, ?_, fun _ => ?_, fun c hc => ?_⟩
  · rw [hextent b (by simp), if_neg (Ne.symm hb_cut), if_pos rfl, if_pos hroom]
  · rw [hextent (b + total) (by simp), if_pos rfl]
  · have hc_cut : c ≠ b + total := fun heq => hrest_cut (heq ▸ hc)
    have hc_b : c ≠ b := hrest_b c hc b (Or.inl rfl)
    have hsize := hextent c (by simp [hc])
    rw [if_neg hc_cut, if_neg hc_b] at hsize
    exact (BitVec.eq_of_toNat_eq hsize).trans (hkept c hc)

/-- Allocating from a chunk that is large enough. -/
theorem memalloc_found {requestedSize c : U64} (mmap : Option U64) {pre post : List U64}
    (hL : Layout h (pre ++ c :: post) live area) (hsize : requestedSize ≠ 0)
    (hfind : find h.next NULL (fits h (sizeNeeded requestedSize)) LOOP_BOUND h.freeList = some c)
    (hfits : (sizeNeeded requestedSize).toNat ≤ h.extent c) :
    ∃ h' cs', memalloc h requestedSize mmap = some (c + ALLOC_MEM_METADATA, h') ∧
      Layout h' cs' (c :: live) area ∧
      (∀ sum, Full h (pre ++ c :: post) live area sum → Full h' cs' (c :: live) area sum) ∧
      Carved h h' c (sizeNeeded requestedSize + paddingSize (sizeNeeded requestedSize))
        (h.extent c) (pre ++ post) cs' := by
  have hc : c ∈ pre ++ c :: post ++ live := by simp
  have hheader := hL.header c hc
  obtain ⟨hsizes, hL₁⟩ := hL.unlink
  have hperm : (pre ++ c :: post ++ live).Perm (pre ++ post ++ c :: live) := by
    have hmiddle : (c :: (post ++ live)).Perm (post ++ c :: live) := List.perm_middle.symm
    rw [List.append_assoc, List.append_assoc]
    exact hmiddle.append_left pre
  have hF₁ := fun sum (hF : Full h (pre ++ c :: post) live area sum) =>
    Full.relist hF hperm hsizes
  have hextent : (h.unlink c).extent c = h.extent c := congrArg BitVec.toNat (hsizes c hc)
  have hkept : ∀ d ∈ pre ++ post, (h.unlink c).size d = h.size d := fun d hd =>
    hsizes d (hperm.mem_iff.mpr (List.mem_append_left _ hd))
  have hpadded := padded_le hheader.size_aligned hheader.min_size hfits
  set total := sizeNeeded requestedSize + paddingSize (sizeNeeded requestedSize) with htotal
  have hrem : ((h.unlink c).size c - total).toNat = h.extent c - total.toNat := by
    have hle : total ≤ (h.unlink c).size c :=
      BitVec.le_def.mpr (le_of_le_of_eq hpadded hextent.symm)
    rw [BitVec.toNat_sub_of_le hle, ← hextent]
  by_cases hsmall : (h.unlink c).size c - total < FREE_MEM_METADATA
  · have hlt : h.extent c - total.toNat < 24 := hrem ▸ BitVec.lt_def.mp hsmall
    have hroom : ¬ total.toNat + 24 ≤ h.extent c := by omega
    refine ⟨(h.unlink c).setSize c ((h.unlink c).size c), pre ++ post, ?_, ?_⟩
    · simp only [memalloc, hfind, Option.bind_eq_bind, Option.bind_some, if_neg hsize,
        if_pos hheader.nonzero, ← htotal, if_pos hsmall]
    · rw [Heap.setSize_size]
      exact ⟨hL₁, hF₁, (if_neg hroom).symm, hextent.trans (if_neg hroom).symm,
        fun h => absurd h hroom, hkept⟩
  · have hlarge : 24 ≤ ((h.unlink c).size c - total).toNat := by
      rw [BitVec.lt_def, Nat.not_lt] at hsmall
      exact hsmall
    have hback : (h.unlink c).size c - ((h.unlink c).size c - total) = total := by
      bv_omega
    obtain ⟨hL₂, hF₂, hsizes₂⟩ := hL₁.split (m := total) (n := (h.unlink c).size c - total)
      (by rw [hextent, hrem]; omega) (padded_min _) hlarge (padded_aligned _)
    rw [hrem] at hlarge hsizes₂
    refine ⟨_, _, ?_, hL₂, fun sum hF => hF₂ sum (hF₁ sum hF),
      hL₂.carved (by omega) hsizes₂ hkept⟩
    simp only [memalloc, hfind, Option.bind_eq_bind, Option.bind_some, if_neg hsize,
      if_pos hheader.nonzero, ← htotal, if_neg hsmall, hback, Heap.size_setSize, if_true]

/-- `memalloc` when no chunk fits and `mmap` succeeds. -/
theorem memalloc_new {requestedSize : U64} (base : U64) (hsize : requestedSize ≠ 0)
    (hfind : find h.next NULL (fits h (sizeNeeded requestedSize)) LOOP_BOUND h.freeList =
      some NULL) :
    let total := sizeNeeded requestedSize + paddingSize (sizeNeeded requestedSize)
    let request := sizeRequestedFromOS (sizeNeeded requestedSize)
    memalloc h requestedSize (some base) = some (base + ALLOC_MEM_METADATA,
      ((h.mapRegion base request).setSize base total).pushFront (base + total)
        (request - total)) := by
  intro total request
  have hrest : request - sizeNeeded requestedSize - paddingSize (sizeNeeded requestedSize) =
      request - total := by
    simp only [total]
    bv_omega
  simp only [memalloc, if_neg hsize, hfind, Option.bind_eq_bind, Option.bind_some, ne_eq,
    not_true_eq_false, if_false, BitVec.add_assoc base, total, ← hrest, request]

/-- Allocating from a new region. -/
theorem memalloc_mapped {requestedSize base : U64} {regions : List Region}
    (hL : Layout h cs live (mapped regions)) (hsize : requestedSize ≠ 0)
    (hfind : find h.next NULL (fits h (sizeNeeded requestedSize)) LOOP_BOUND h.freeList =
      some NULL)
    (hfresh : FreshRegion regions ⟨base, sizeRequestedFromOS (sizeNeeded requestedSize)⟩)
    (hroom : LeavesChunk (sizeNeeded requestedSize)) :
    ∃ h' cs', memalloc h requestedSize (some base) = some (base + ALLOC_MEM_METADATA, h') ∧
      Layout h' cs' (base :: live)
        (mapped (⟨base, sizeRequestedFromOS (sizeNeeded requestedSize)⟩ :: regions)) ∧
      (∀ sum, Full h cs live (mapped regions) sum →
        Full h' cs' (base :: live)
          (mapped (⟨base, sizeRequestedFromOS (sizeNeeded requestedSize)⟩ :: regions))
          ((sizeRequestedFromOS (sizeNeeded requestedSize)).toNat + sum)) ∧
      Carved h h' base (sizeNeeded requestedSize + paddingSize (sizeNeeded requestedSize))
        (sizeRequestedFromOS (sizeNeeded requestedSize)).toNat cs cs' := by
  have heval := memalloc_new base hsize hfind
  generalize sizeNeeded requestedSize = needed at hfresh hroom heval ⊢
  have hrequest8 := request_aligned needed
  have hpadded := padded_min needed
  have hpage : start base % 4096 = 0 := hfresh.aligned
  have haligned : start base % 8 = 0 := by omega
  unfold LeavesChunk at hroom
  generalize sizeRequestedFromOS needed = request at hfresh hroom hrequest8 heval ⊢
  have htotal8 := padded_aligned needed
  generalize needed + paddingSize needed = total at hroom hpadded htotal8 heval ⊢
  obtain ⟨hL₁, hF₁, hsizes₁⟩ := hL.addRegion hfresh.nonzero haligned hrequest8
    (by omega) hfresh.no_wrap hfresh.not_mapped
    fun x => mem_mapped_cons (r := ⟨base, request⟩) (x := x)
  have hextent : ((h.mapRegion base request).setSize base request).extent base = request.toNat := by
    simp [Heap.extent]
  have hrem : (request - total).toNat = request.toNat - total.toNat :=
    BitVec.toNat_sub_of_le (BitVec.le_def.mpr (by omega))
  obtain ⟨hL₂, hF₂, hsizes₂⟩ := hL₁.split (m := total) (n := request - total)
    (by rw [hextent, hrem]; omega) hpadded (by omega) htotal8
  rw [Heap.setSize_setSize] at hL₂ hF₂ hsizes₂
  rw [hrem] at hsizes₂
  refine ⟨_, _, heval, hL₂, fun sum hF => hF₂ _ (hF₁ sum hF), hL₂.carved hroom hsizes₂ ?_⟩
  exact fun c hc => hsizes₁ c (List.mem_append_left live hc)

end Memalloc

/-! ## `memfree` -/

/-- The chunk is met when `Next` is followed from `FreeList`. -/
def Heap.Reachable (h : Heap) (c : U64) : Prop :=
  Reach h.next NULL h.freeList c

/-- A chunk of the free list starts where block `b` ends. -/
def RightNeighbour (h : Heap) (b r : U64) : Prop :=
  h.Reachable r ∧ b + h.size b = r

/-- A chunk of the free list ends where block `b` starts. -/
def LeftNeighbour (h : Heap) (b l : U64) : Prop :=
  h.Reachable l ∧ l + h.size l = b

/-- Freeing `b` leaves the list well linked: the only free neighbour, if on the right, is the first
or the last chunk; of two free neighbours the right one does not lead to the left one. -/
structure KeepsList (h : Heap) (b : U64) : Prop where
  right : ∀ r, RightNeighbour h b r →
    (∃ l, LeftNeighbour h b l) ∨ r = h.freeList ∨ h.next r = NULL
  both : ∀ l r, LeftNeighbour h b l → RightNeighbour h b r → ¬ Reach h.next NULL r l

/-- Freeing `b` loses no memory: the only free neighbour is the first chunk if on the right and
the last chunk if on the left; of two free neighbours the left one is followed by the right one. -/
structure KeepsMemory (h : Heap) (b : U64) : Prop where
  right : ∀ r, RightNeighbour h b r → (∃ l, LeftNeighbour h b l) ∨ r = h.freeList
  left : ∀ l, LeftNeighbour h b l → (∃ r, RightNeighbour h b r) ∨ h.next l = NULL
  both : ∀ l r, LeftNeighbour h b l → RightNeighbour h b r → h.next l = r

section Memfree

variable {h : Heap} {cs live : List U64} {area : Set Nat}

theorem Layout.reachable_iff (hL : Layout h cs live area) {c : U64} : h.Reachable c ↔ c ∈ cs :=
  hL.list.reach_iff hL.next_eq

theorem Layout.reach_from_iff {pre post : List U64} {c b : U64}
    (hL : Layout h (pre ++ c :: post) live area) : Reach h.next NULL c b ↔ b ∈ c :: post :=
  hL.list.reach_from_iff hL.next_eq

theorem headOr_eq_null {post : List U64} (hpost : NULL ∉ post) (hnull : headOr NULL post = NULL) :
    post = [] := by
  cases post with
  | nil => rfl
  | cons c post => exact absurd hnull fun heq => hpost (by simp [show c = NULL from heq])

/-- The last chunk is the one without a successor. -/
theorem Layout.last_of_next {pre post : List U64} {c : U64}
    (hL : Layout h (pre ++ c :: post) live area) (hnext : h.next c = NULL) : post = [] := by
  refine headOr_eq_null (fun hmem => ?_) (hL.node.2.2.symm.trans hnext)
  exact hL.ne_null (b := NULL) (by simp [hmem]) rfl

/-- The first chunk is the one `FreeList` points to. -/
theorem Layout.first_of_freeList {pre post : List U64} {c : U64}
    (hL : Layout h (pre ++ c :: post) live area) (hlist : c = h.freeList) : pre = [] := by
  cases pre with
  | nil => rfl
  | cons p pre =>
      have hhead : h.freeList = p := hL.list.head_eq
      have hnodup := hL.chunks_nodup
      rw [← hhead, ← hlist] at hnodup
      simp at hnodup

/-- The successor of a chunk stands right behind it. -/
theorem Layout.next_adjacent {pre mid post : List U64} {c r : U64}
    (hL : Layout h (pre ++ c :: (mid ++ r :: post)) live area) (hnext : h.next c = r) :
    mid = [] := by
  cases mid with
  | nil => rfl
  | cons m mid =>
      have hhead : h.next c = m := hL.node.2.2
      have hnodup := hL.chunks_nodup
      rw [← hhead, hnext] at hnodup
      simp [List.nodup_append] at hnodup

/-- A call that loses no memory leaves the list well linked. -/
theorem KeepsMemory.keepsList {b : U64} (hL : Layout h cs live area) (hkeeps : KeepsMemory h b) :
    KeepsList h b := by
  refine ⟨fun r hr => (hkeeps.right r hr).imp id Or.inl, fun l r hl hr hreach => ?_⟩
  obtain ⟨pre, post, rfl⟩ := List.append_of_mem (hL.reachable_iff.mp hl.1)
  have hnext := hkeeps.both l r hl hr
  have hnode := hL.node.2.2
  cases post with
  | nil =>
      exact hL.ne_null (List.mem_append_left live (hL.reachable_iff.mp hr.1))
        (hnext.symm.trans hnode)
  | cons p post =>
      obtain rfl : p = r := hnode.symm.trans hnext
      have hsplit : Layout h ((pre ++ [l]) ++ p :: post) live area := by
        simpa using hL
      have hmem := hsplit.reach_from_iff.mp hreach
      have hnodup := hL.chunks_nodup
      rw [List.nodup_append] at hnodup
      exact (List.nodup_cons.mp hnodup.2.1).1 hmem

/-- A chunk found by its address is adjacent. -/
theorem Header.adjacent_iff {b c : U64} (hb : Header h b) (hc : c ≠ NULL) :
    b + h.size b = c ↔ Blocks.Adjacent start h.extent b c := by
  have hwrap := hb.no_wrap
  have hpos : start c ≠ 0 := fun h0 => hc (BitVec.eq_of_toNat_eq h0)
  have hsum : start (b + h.size b) = (start b + h.extent b) % 2 ^ 64 := BitVec.toNat_add ..
  have hlt : start c < 2 ^ 64 := c.isLt
  unfold Blocks.Adjacent
  constructor
  · intro heq
    rw [heq] at hsum
    omega
  · intro hadjacent
    refine BitVec.eq_of_toNat_eq (?_ : start (b + h.size b) = start c)
    rw [hsum, hadjacent]
    exact Nat.mod_eq_of_lt hlt

/-- What the two searches of `memfree` find. -/
theorem Layout.find_stop (hL : Layout h cs live area) {stop : U64 → Bool} {P : U64 → Prop}
    (hstop : ∀ c, stop c = true ↔ P c) :
    (find h.next NULL stop LOOP_BOUND h.freeList = some NULL ∧ ∀ c ∈ cs, ¬ P c) ∨
    ∃ c ∈ cs, P c ∧ find h.next NULL stop LOOP_BOUND h.freeList = some c := by
  have hbound := length_lt_bound hL.chunks_nodup
  rcases hL.list.find_cases hL.next_eq hbound with
    ⟨hfind, hno⟩ | ⟨pre, c, post, hcs, -, hc, hfind⟩
  · refine Or.inl ⟨hfind, fun c hc hP => ?_⟩
    exact absurd ((hno c hc).symm.trans ((hstop c).mpr hP)) (by decide)
  · exact Or.inr ⟨c, by simp [hcs], (hstop c).mp hc, hfind⟩

/-- `memfree` by the results of its two searches, in the heap where the block is a chunk. -/
theorem memfree_eq {b l r : U64} (hb : b + ALLOC_MEM_METADATA ≠ NULL)
    (hright : find (h.makeChunk b (h.size b)).next NULL
      (fun c => b + ALLOC_MEM_METADATA + h.size b - ALLOC_MEM_METADATA = c) LOOP_BOUND
      h.freeList = some r)
    (hleft : find (h.makeChunk b (h.size b)).next NULL
      (fun c => c + (h.makeChunk b (h.size b)).size c + ALLOC_MEM_METADATA = b + ALLOC_MEM_METADATA)
      LOOP_BOUND h.freeList = some l) :
    memfree h (b + ALLOC_MEM_METADATA) = some (0,
      if l = NULL ∧ r = NULL then (h.makeChunk b (h.size b)).linkFront b
      else if l = NULL then mergeRight (h.makeChunk b (h.size b)) b r
      else if r = NULL then mergeLeft (h.makeChunk b (h.size b)) b l r
      else mergeBoth (h.makeChunk b (h.size b)) b l r) := by
  have hfreed : b + ALLOC_MEM_METADATA - ALLOC_MEM_METADATA = b := BitVec.add_sub_cancel b _
  have hlist : (h.makeChunk b (h.size b)).freeList = h.freeList := rfl
  simp only [memfree, if_neg hb, hfreed, hlist, Option.bind_eq_bind]
  rw [hright, Option.bind_some, hleft, Option.bind_some]
  split_ifs <;> rfl

/-- The neighbours of a live block, by their addresses. -/
theorem Layout.right_iff {b c : U64} (hL : Layout h cs live area) (hb : b ∈ live) :
    RightNeighbour h b c ↔ c ∈ cs ∧ Blocks.Adjacent start h.extent b c := by
  rw [RightNeighbour, hL.reachable_iff, and_congr_right_iff]
  intro hc
  exact (hL.header b (List.mem_append_right cs hb)).adjacent_iff
    (hL.ne_null (List.mem_append_left live hc))

theorem Layout.left_iff {b c : U64} (hL : Layout h cs live area) (hb : b ∈ live) :
    LeftNeighbour h b c ↔ c ∈ cs ∧ Blocks.Adjacent start h.extent c b := by
  rw [LeftNeighbour, hL.reachable_iff, and_congr_right_iff]
  intro hc
  exact (hL.header c (List.mem_append_left live hc)).adjacent_iff
    (hL.ne_null (List.mem_append_right cs hb))

/-- The four cases of `memfree`, by the free neighbours of the block. -/
inductive Freeing (h : Heap) (b : U64) : Heap → Prop where
  | alone (hleft : ∀ l, ¬ LeftNeighbour h b l) (hright : ∀ r, ¬ RightNeighbour h b r) :
      Freeing h b ((h.makeChunk b (h.size b)).linkFront b)
  | right {r : U64} (hleft : ∀ l, ¬ LeftNeighbour h b l) (hright : RightNeighbour h b r) :
      Freeing h b (mergeRight (h.makeChunk b (h.size b)) b r)
  | left {l : U64} (hleft : LeftNeighbour h b l) (hright : ∀ r, ¬ RightNeighbour h b r) :
      Freeing h b (mergeLeft (h.makeChunk b (h.size b)) b l NULL)
  | both {l r : U64} (hleft : LeftNeighbour h b l) (hright : RightNeighbour h b r) :
      Freeing h b (mergeBoth (h.makeChunk b (h.size b)) b l r)

/-- A call of `memfree` for a live block ends, in one of the four cases. -/
theorem Layout.memfree_freeing {b : U64} (hL : Layout h cs live area) (hb : b ∈ live) :
    ∃ h', memfree h (b + ALLOC_MEM_METADATA) = some (0, h') ∧ Freeing h b h' := by
  have hptr := (hL.header b (List.mem_append_right cs hb)).payload_ne
  obtain ⟨hL₀, -, -, hfields⟩ := hL.makeChunk hb
  -- the tests of the two searches
  have hright_of : ∀ c, decide (b + ALLOC_MEM_METADATA + h.size b - ALLOC_MEM_METADATA = c) =
      true ↔ b + h.size b = c := by
    intro c
    rw [decide_eq_true_eq, BitVec.add_assoc, BitVec.add_comm ALLOC_MEM_METADATA,
      ← BitVec.add_assoc, BitVec.add_sub_cancel]
  have hleft_of : ∀ c, decide (c + (h.makeChunk b (h.size b)).size c + ALLOC_MEM_METADATA =
      b + ALLOC_MEM_METADATA) = true ↔ c + (h.makeChunk b (h.size b)).size c = b := by
    intro c
    rw [decide_eq_true_eq, BitVec.add_left_inj]
  have hsize : ∀ c ∈ cs, (h.makeChunk b (h.size b)).size c = h.size c := fun c hc =>
    (hfields c (List.mem_append_left live hc)).1
  have hright : ∀ r, RightNeighbour h b r ↔ r ∈ cs ∧ b + h.size b = r := by
    intro r
    rw [RightNeighbour, hL.reachable_iff]
  have hleft : ∀ l, LeftNeighbour h b l ↔
      l ∈ cs ∧ l + (h.makeChunk b (h.size b)).size l = b := by
    intro l
    rw [LeftNeighbour, hL.reachable_iff, and_congr_right_iff]
    intro hl
    rw [hsize l hl]
  have hne : ∀ c ∈ cs, c ≠ NULL := fun c hc => hL.ne_null (List.mem_append_left live hc)
  rcases hL₀.find_stop hright_of with ⟨hfind_r, hno_r⟩ | ⟨r, hr, hbr, hfind_r⟩ <;>
    rcases hL₀.find_stop hleft_of with ⟨hfind_l, hno_l⟩ | ⟨l, hl, hlb, hfind_l⟩ <;>
    refine ⟨_, memfree_eq hptr hfind_r hfind_l, ?_⟩
  · rw [if_pos ⟨rfl, rfl⟩]
    exact .alone (fun l hl => hno_l l ((hleft l).mp hl).1 ((hleft l).mp hl).2)
      fun r hr => hno_r r ((hright r).mp hr).1 ((hright r).mp hr).2
  · rw [if_neg (fun hand => hne l hl hand.1), if_neg (hne l hl), if_pos rfl]
    exact .left ((hleft l).mpr ⟨hl, hlb⟩)
      fun r hr => hno_r r ((hright r).mp hr).1 ((hright r).mp hr).2
  · rw [if_neg (fun hand => hne r hr hand.2), if_pos rfl]
    exact .right (fun l hl => hno_l l ((hleft l).mp hl).1 ((hleft l).mp hl).2)
      ((hright r).mpr ⟨hr, hbr⟩)
  · rw [if_neg (fun hand => hne l hl hand.1), if_neg (hne l hl), if_neg (hne r hr)]
    exact .both ((hleft l).mpr ⟨hl, hlb⟩) ((hright r).mpr ⟨hr, hbr⟩)

/-- The searches of `memfree` end. -/
theorem Layout.memfree_ends {b : U64} (hL : Layout h cs live area) (hb : b ∈ live) :
    (memfree h (b + ALLOC_MEM_METADATA)).isSome := by
  obtain ⟨h', heval, -⟩ := hL.memfree_freeing hb
  exact Option.isSome_of_eq_some heval

/-- The heap in which the searches of `memfree` have run: the freed block is a chunk on no list,
and everything else is as it was. -/
theorem Layout.freed {b : U64} (hL : Layout h cs live area) (hb : b ∈ live) :
    Layout (h.makeChunk b (h.size b)) cs (b :: live.erase b) area ∧
    (h.makeChunk b (h.size b)).prev b = NULL ∧
    (∀ c ∈ cs ++ live, (h.makeChunk b (h.size b)).size c = h.size c) ∧
    (∀ sum, Full h cs live area sum →
      Full (h.makeChunk b (h.size b)) cs (b :: live.erase b) area sum) := by
  have hperm := (List.perm_cons_erase hb).append_left cs
  obtain ⟨hL₀, -, hprev, hfields⟩ := hL.makeChunk hb
  exact ⟨hL₀.relist hperm (fun _ _ => rfl) hL₀.list, hprev, fun c hc => (hfields c hc).1,
    fun sum hF => Full.relist hF hperm fun a ha => (hfields a ha).1⟩

/-- Free neighbours are adjacent in that heap as well. -/
theorem Layout.freed_adjacent {b c d : U64} (hL : Layout h cs live area) (hb : b ∈ live)
    (hc : c ∈ cs ++ live) (hadjacent : Blocks.Adjacent start h.extent c d) :
    start c + (h.makeChunk b (h.size b)).extent c = start d := by
  obtain ⟨-, -, hsize, -⟩ := hL.freed hb
  rw [Heap.extent, hsize c hc]
  exact hadjacent

/-- Of two chunks one stands before the other. -/
theorem two_in_list {cs : List U64} {l r : U64} (hl : l ∈ cs) (hr : r ∈ cs) (hne : r ≠ l) :
    (∃ pre mid post, cs = pre ++ l :: (mid ++ r :: post)) ∨
      ∃ pre mid post, cs = pre ++ r :: (mid ++ l :: post) := by
  obtain ⟨pre, post, rfl⟩ := List.append_of_mem hl
  rcases List.mem_append.mp hr with hr | hr
  · obtain ⟨pre, mid, rfl⟩ := List.append_of_mem hr
    exact Or.inr ⟨pre, mid, post, by simp⟩
  · obtain ⟨mid, post, rfl⟩ := List.append_of_mem (List.mem_of_ne_of_mem hne hr)
    exact Or.inl ⟨pre, mid, post, rfl⟩

/-- A block has one chunk on its left and another one on its right. -/
theorem Layout.neighbours_ne {b l r : U64} (hL : Layout h cs live area) (hb : b ∈ live)
    (hleft : Blocks.Adjacent start h.extent l b) (hright : Blocks.Adjacent start h.extent b r) :
    r ≠ l := by
  intro heq
  have := (hL.header b (List.mem_append_right cs hb)).min_size
  unfold Blocks.Adjacent at *
  rw [heq] at hright
  omega

/-- Freeing a live block. The cases are those of the code; what the search finds may stand
anywhere on the list, and the condition leaves the positions that `mergeRight`, `mergeLeft` and
`mergeBoth` are right for. -/
theorem memfree_layout {b : U64} (hL : Layout h cs live area) (hb : b ∈ live)
    (hkeeps : KeepsList h b) :
    ∃ h' cs', memfree h (b + ALLOC_MEM_METADATA) = some (0, h') ∧
      Layout h' cs' (live.erase b) area ∧
      (KeepsMemory h b → ∀ sum, Full h cs live area sum →
        Full h' cs' (live.erase b) area sum) := by
  obtain ⟨hL₁, hprev, -, hF₁⟩ := hL.freed hb
  have hb_mem := List.mem_append_right cs hb
  have hcs_mem : ∀ c ∈ cs, c ∈ cs ++ live := fun c hc => List.mem_append_left live hc
  obtain ⟨h', heval, hcase⟩ := hL.memfree_freeing hb
  cases hcase with
  | alone hno_l hno_r =>
      obtain ⟨hsize₂, hL₂⟩ := hL₁.linkFront hprev
      exact ⟨_, _, heval, hL₂, fun _ sum hF =>
        Full.relist (hF₁ sum hF) List.perm_middle hsize₂⟩
  | @left l hleft hno_r =>
      obtain ⟨hl, hadj⟩ := (hL.left_iff hb).mp hleft
      have hadjacent := hL.freed_adjacent hb (hcs_mem l hl) hadj
      obtain ⟨pre, post, rfl⟩ := List.append_of_mem hl
      obtain ⟨hL₂, hF₂, -⟩ := hL₁.mergeLeft hadjacent
      refine ⟨_, _, heval, hL₂, fun hmemory sum hF => hF₂ ?_ sum (hF₁ sum hF)⟩
      rcases hmemory.left l hleft with ⟨r, hr⟩ | hlast
      · exact absurd hr (hno_r r)
      · exact hL.last_of_next hlast
  | @right r hno_l hright =>
      have hno_left : ¬ ∃ l, LeftNeighbour h b l := not_exists.mpr hno_l
      obtain ⟨hr, hadj⟩ := (hL.right_iff hb).mp hright
      have hadjacent := hL.freed_adjacent hb hb_mem hadj
      obtain ⟨pre, post, rfl⟩ := List.append_of_mem hr
      by_cases hpre : pre = []
      · subst hpre
        obtain ⟨hL₂, hF₂, -⟩ := hL₁.mergeRight hprev hadjacent
        exact ⟨_, _, heval, hL₂, fun _ sum hF => hF₂ sum (hF₁ sum hF)⟩
      · have hhead : r ≠ h.freeList := fun heq => hpre (hL.first_of_freeList heq)
        obtain rfl := hL.last_of_next
          (((hkeeps.right r hright).resolve_left hno_left).resolve_left hhead)
        refine ⟨_, _, heval, hL₁.mergeRight_last hpre, fun hmemory => ?_⟩
        exact absurd ((hmemory.right r hright).resolve_left hno_left) hhead
  | @both l r hleft hright =>
      obtain ⟨hl, hadj_l⟩ := (hL.left_iff hb).mp hleft
      obtain ⟨hr, hadj_r⟩ := (hL.right_iff hb).mp hright
      rcases two_in_list hl hr (hL.neighbours_ne hb hadj_l hadj_r) with
        ⟨pre, mid, post, rfl⟩ | ⟨pre, mid, post, rfl⟩
      · obtain ⟨hL₂, hF₂, -⟩ := hL₁.mergeBoth (hL.freed_adjacent hb (hcs_mem l hl) hadj_l)
          (hL.freed_adjacent hb hb_mem hadj_r)
        exact ⟨_, _, heval, hL₂, fun hmemory sum hF =>
          hF₂ (hL.next_adjacent (hmemory.both l r hleft hright)) sum (hF₁ sum hF)⟩
      · exact absurd (hL.reach_from_iff.mpr (by simp)) (hkeeps.both l r hleft hright)

end Memfree

end GemOS.Mylib
