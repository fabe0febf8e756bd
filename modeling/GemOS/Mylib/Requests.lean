import GemOS.Mylib.Frees

/-!
# What `memalloc` promises

A request is served from the first chunk that can hold it, else from a new region. The contract
says so for requests of any size, without wrap-around. The code meets it if adding the header does
not wrap around and a new region has room for a chunk behind the block; else the block is too
small, or the chunk that is pushed lies outside the region.
-/

namespace GemOS.Mylib

open DoublyLinked

variable {h h' : Heap} {cs live : List U64} {area : Set Nat} {regions : List Region}
variable {requestedSize base ptr b total : U64} {mmap : Option U64} {room : Nat} {rest : List U64}

/-! ## Sizes -/

/-- The bytes that a request takes: with its header, a multiple of 8 and at least 24. -/
def blockSize (requestedSize : U64) : Nat :=
  max 24 ((requestedSize.toNat + 8 + 7) / 8 * 8)

theorem le_blockSize (requestedSize : U64) : requestedSize.toNat + 8 ≤ blockSize requestedSize := by
  unfold blockSize
  omega

theorem sizeNeeded_toNat (hwrap : requestedSize.toNat + 8 < 2 ^ 64) :
    (sizeNeeded requestedSize).toNat = requestedSize.toNat + 8 := by
  rw [sizeNeeded, BitVec.toNat_add]
  exact Nat.mod_eq_of_lt hwrap

/-- The size that `memalloc` computes, as long as nothing wraps around. -/
theorem padded_eq_blockSize (hsmall : requestedSize.toNat + 8 ≤ 2 ^ 64 - 8) :
    (sizeNeeded requestedSize + paddingSize (sizeNeeded requestedSize)).toNat =
      blockSize requestedSize := by
  rw [padded_toNat, sizeNeeded_toNat (by omega), blockSize]
  split_ifs <;> omega

/-- The size of a new region: rounded up to a multiple of 4 MB, with wrap-around. -/
theorem request_toNat (needed : U64) : (sizeRequestedFromOS needed).toNat =
    (needed.toNat + 4194303) / 4194304 * 4194304 % 2 ^ 64 := by
  have hmb : FOUR_MB.toNat = 4194304 := by decide
  have hrem : needed % FOUR_MB ≠ 0 ↔ needed.toNat % 4194304 ≠ 0 := by
    rw [← hmb, ← BitVec.toNat_umod, ne_eq, ne_eq, ← BitVec.toNat_inj]
    rfl
  have := needed.isLt
  rw [sizeRequestedFromOS, BitVec.toNat_mul, BitVec.toNat_add, BitVec.toNat_udiv, hmb]
  by_cases hzero : needed % FOUR_MB ≠ 0
  · have := hrem.mp hzero
    rw [if_pos hzero]
    simp only [show ((1 : U64)).toNat = 1 from rfl]
    omega
  · have := mt hrem.mpr hzero
    rw [if_neg hzero]
    simp only [show ((0 : U64)).toNat = 0 from rfl]
    omega

/-- A region that is not empty has room for the block. -/
theorem request_ge {needed : U64} (hpos : 0 < (sizeRequestedFromOS needed).toNat) :
    needed.toNat ≤ 2 ^ 64 - 4194304 ∧
      (needed + paddingSize needed).toNat ≤ (sizeRequestedFromOS needed).toNat := by
  have := needed.isLt
  rw [request_toNat] at hpos ⊢
  rw [padded_toNat]
  split_ifs <;> omega

/-- The chunk is large enough for the request. -/
def CanHold (h : Heap) (requestedSize c : U64) : Prop :=
  blockSize requestedSize ≤ h.extent c

instance (c : U64) : Decidable (CanHold h requestedSize c) :=
  inferInstanceAs (Decidable (_ ≤ _))

/-- The test of the search is right if adding the header does not wrap around. -/
theorem Layout.fits_iff_canHold (hL : Layout h cs live area) {c : U64} (hc : c ∈ cs)
    (hwrap : requestedSize.toNat + 8 < 2 ^ 64) :
    fits h (sizeNeeded requestedSize) c = true ↔ CanHold h requestedSize c := by
  have hheader := hL.header c (List.mem_append_left live hc)
  have hmin := hheader.min_size
  have h8 := hheader.size_aligned
  rw [hL.fits_iff hc, sizeNeeded_toNat hwrap, CanHold, blockSize]
  omega

/-- A chunk that can hold the request passes the test. -/
theorem CanHold.no_wrap {c : U64} (hhold : CanHold h requestedSize c) :
    requestedSize.toNat + 8 < 2 ^ 64 := by
  have hle : blockSize requestedSize ≤ h.extent c := hhold
  have := le_blockSize requestedSize
  have := (h.size c).isLt
  simp only [Heap.extent] at hle
  omega

/-! ## New regions -/

/-- The `k` bytes from `a` on lie in the region. -/
def Region.Contains (r : Region) (a : U64) (k : Nat) : Prop :=
  r.base.toNat ≤ a.toNat ∧ a.toNat + k ≤ r.base.toNat + r.length.toNat

/-- What `memalloc` writes in front of the block and behind it lies in the new region, and the
chunk that is pushed has room for its fields. -/
structure HeadersInside (r : Region) (ptr : U64) (h' : Heap) : Prop where
  block : r.Contains (ptr - ALLOC_MEM_METADATA) 8
  chunk : r.Contains h'.freeList 24
  size : 24 ≤ h'.extent h'.freeList

/-- When a region is obtained. -/
theorem newRegion_eq_singleton {r : Region} (hnew : newRegion h requestedSize mmap = [r]) :
    requestedSize ≠ 0 ∧ mmap = some r.base ∧
      r = ⟨r.base, sizeRequestedFromOS (sizeNeeded requestedSize)⟩ ∧
      find h.next NULL (fits h (sizeNeeded requestedSize)) LOOP_BOUND h.freeList = some NULL := by
  unfold newRegion at hnew
  simp only at hnew
  split_ifs at hnew with hzero hfind
  cases mmap with
  | none => cases hnew
  | some base =>
      obtain rfl := List.head_eq_of_cons_eq hnew
      exact ⟨hzero, rfl, rfl, hfind⟩

/-- The chunk behind the block of a new region. -/
theorem start_behind {request : U64} (hwrap : base.toNat + request.toNat ≤ 2 ^ 64)
    (hroom : total.toNat + 24 ≤ request.toNat) :
    (base + total).toNat = base.toNat + total.toNat := by
  rw [BitVec.toNat_add]
  exact Nat.mod_eq_of_lt (by omega)

/-- Whenever a new region is obtained, all headers lie in it exactly if it has room for a chunk
behind the padded block. -/
theorem new_region_headers_iff {r : Region} (hL : Layout h cs live (mapped regions))
    (hnew : newRegion h requestedSize mmap = [r]) (hfresh : FreshRegion regions r) :
    ∃ ptr h', memalloc h requestedSize mmap = some (ptr, h') ∧
      (HeadersInside r ptr h' ↔ LeavesChunk (sizeNeeded requestedSize)) := by
  obtain ⟨hsize, rfl, hr, hfind⟩ := newRegion_eq_singleton hnew
  generalize hbase : r.base = base at hr hfresh
  subst hr
  have heval := memalloc_new base hsize hfind
  have hwrap : base.toNat + (sizeRequestedFromOS (sizeNeeded requestedSize)).toNat ≤ 2 ^ 64 :=
    hfresh.no_wrap
  refine ⟨_, _, heval, ?_⟩
  constructor
  · intro hinside
    obtain ⟨hlow, hhigh⟩ := hinside.chunk
    have hchunk := BitVec.toNat_add base
      (sizeNeeded requestedSize + paddingSize (sizeNeeded requestedSize))
    simp only [Heap.pushFront, hchunk] at hlow hhigh
    unfold LeavesChunk
    omega
  · intro hroom
    obtain ⟨h', cs', heval', _, _, hcarved⟩ := memalloc_mapped hL hsize hfind hfresh hroom
    obtain rfl := (Prod.mk.inj (Option.some.inj (heval.symm.trans heval'))).2
    have hroom' : (sizeNeeded requestedSize + paddingSize (sizeNeeded requestedSize)).toNat + 24 ≤
      (sizeRequestedFromOS (sizeNeeded requestedSize)).toNat := hroom
    have hchunk := start_behind hwrap hroom'
    have hsize' := hcarved.remainder hroom'
    refine ⟨⟨?_, ?_⟩, ⟨?_, ?_⟩, ?_⟩
    · rw [BitVec.add_sub_cancel]
    · rw [BitVec.add_sub_cancel]
      show base.toNat + 8 ≤ base.toNat + (sizeRequestedFromOS (sizeNeeded requestedSize)).toNat
      omega
    · simp only [Heap.pushFront, hchunk]
      omega
    · simp only [Heap.pushFront, hchunk]
      omega
    · exact hsize'.symm ▸ (by omega)

/-- A request of 16 bytes gets a region of 4 MB. -/
theorem new_region_headers_sample :
    ∃ ptr h', memalloc ⟨fun _ => 0, NULL⟩ 16 (some sampleBase) = some (ptr, h') ∧
      (HeadersInside ⟨sampleBase, FOUR_MB⟩ ptr h' ↔ LeavesChunk (sizeNeeded 16)) :=
  new_region_headers_iff (laidOut_start fun _ => 0).1 (by decide +kernel) (by decide +kernel)

/-- The largest request for one unit of 4 MB fills its region, and the chunk is pushed behind it. -/
theorem new_region_full :
    newRegion ⟨fun _ => 0, NULL⟩ 4194296 (some sampleBase) = [⟨sampleBase, FOUR_MB⟩] ∧
    FreshRegion [] ⟨sampleBase, FOUR_MB⟩ ∧
    ∃ ptr h', memalloc ⟨fun _ => 0, NULL⟩ 4194296 (some sampleBase) = some (ptr, h') ∧
      ¬ HeadersInside ⟨sampleBase, FOUR_MB⟩ ptr h' := by
  refine ⟨by decide +kernel, by decide +kernel, _, _, rfl, fun hinside => ?_⟩
  exact absurd hinside.size (by decide +kernel)

/-! ## The contract -/

/-- A block at `b` is cut from `room` bytes for a request: it is large enough, a remainder of at
least 24 bytes is the first chunk, and the chunks `rest` are as they were. -/
structure Served (h h' : Heap) (requestedSize b : U64) (room : Nat) (rest live : List U64)
    (area : Set Nat) : Prop where
  size : requestedSize.toNat + 8 ≤ h'.extent b
  layout : Layout h' (if blockSize requestedSize + 24 ≤ room
    then (b + BitVec.ofNat 64 (blockSize requestedSize)) :: rest else rest) (b :: live) area
  remainder : blockSize requestedSize + 24 ≤ room →
    h'.extent (b + BitVec.ofNat 64 (blockSize requestedSize)) = room - blockSize requestedSize
  kept : ∀ c ∈ rest, h'.size c = h.size c

/-- The contract of `memalloc`: the pointer and the heap that a request may end with. -/
inductive Contract (h : Heap) (cs live : List U64) (regions : List Region) (requestedSize : U64) :
    Option U64 → U64 → Heap → Prop where
  | failed {h' : Heap} (hnone : ∀ d ∈ cs, ¬ CanHold h requestedSize d) :
      Contract h cs live regions requestedSize none NULL h'
  | fromChunk {mmap : Option U64} {pre post : List U64} {c : U64} {h' : Heap}
      (hcs : cs = pre ++ c :: post) (hfirst : ∀ d ∈ pre, ¬ CanHold h requestedSize d)
      (hhold : CanHold h requestedSize c) (haligned : (c + ALLOC_MEM_METADATA).toNat % 8 = 0)
      (hserved : Served h h' requestedSize c (h.extent c) (pre ++ post) live (mapped regions)) :
      Contract h cs live regions requestedSize mmap (c + ALLOC_MEM_METADATA) h'
  | fromRegion {base : U64} {h' : Heap} (hnone : ∀ d ∈ cs, ¬ CanHold h requestedSize d)
      (haligned : (base + ALLOC_MEM_METADATA).toNat % 8 = 0)
      (hserved : Served h h' requestedSize base
        (sizeRequestedFromOS (sizeNeeded requestedSize)).toNat cs live
        (mapped (⟨base, sizeRequestedFromOS (sizeNeeded requestedSize)⟩ :: regions))) :
      Contract h cs live regions requestedSize (some base) (base + ALLOC_MEM_METADATA) h'

/-- The requests that the code is right for: `mmap` is called and fails, or adding the header does
not wrap around and either a chunk is large enough or a new region leaves a chunk. -/
def RequestOk (h : Heap) (cs : List U64) (requestedSize : U64) (mmap : Option U64) : Prop :=
  (mmap = none ∧ ∀ c ∈ cs, fits h (sizeNeeded requestedSize) c = false) ∨
    requestedSize.toNat + 8 < 2 ^ 64 ∧
      ((∃ c ∈ cs, fits h (sizeNeeded requestedSize) c = true) ∨
        LeavesChunk (sizeNeeded requestedSize))

/-- A block that has been cut serves the request, if the size was computed without wrap-around. -/
theorem Carved.served {cs' : List U64} (hcarved : Carved h h' b total room rest cs')
    (hL : Layout h' cs' (b :: live) area) (htotal : total.toNat = blockSize requestedSize)
    (hroom : blockSize requestedSize ≤ room) :
    Served h h' requestedSize b room rest live area := by
  obtain ⟨hlist, hblock, hremainder, hkept⟩ := hcarved
  have hcut : b + BitVec.ofNat 64 (blockSize requestedSize) = b + total := by
    rw [← htotal, BitVec.ofNat_toNat, BitVec.setWidth_eq]
  have := le_blockSize requestedSize
  rw [htotal] at hlist hblock hremainder
  refine ⟨?_, ?_, ?_, hkept⟩
  · rw [hblock]
    split_ifs <;> omega
  · rw [hcut, ← hlist]
    exact hL
  · rw [hcut]
    exact hremainder

/-- The pointer to a well-formed block is aligned. -/
theorem Header.payload_aligned (hb : Header h b) : (b + ALLOC_MEM_METADATA).toNat % 8 = 0 := by
  have h8 := hb.words.1
  have := hb.aligned
  rw [show (b + ALLOC_MEM_METADATA).toNat = start b + 8 from h8]
  omega

/-- If no chunk passes the test, none can hold the request. -/
theorem Layout.none_holds (hL : Layout h cs live area)
    (hno : ∀ c ∈ cs, fits h (sizeNeeded requestedSize) c = false) :
    ∀ d ∈ cs, ¬ CanHold h requestedSize d := by
  intro d hd hhold
  have hfits := (hL.fits_iff_canHold hd hhold.no_wrap).mpr hhold
  rw [hno d hd] at hfits
  cases hfits

theorem memalloc_failed (hsize : requestedSize ≠ 0)
    (hfind : find h.next NULL (fits h (sizeNeeded requestedSize)) LOOP_BOUND h.freeList =
      some NULL) : memalloc h requestedSize none = some (NULL, h) := by
  simp only [memalloc, if_neg hsize, hfind, Option.bind_eq_bind, Option.bind_some, ne_eq,
    not_true_eq_false, if_false]

/-- When no chunk fits and `mmap` succeeds, the region is new. -/
theorem newRegion_of_find (hsize : requestedSize ≠ 0)
    (hfind : find h.next NULL (fits h (sizeNeeded requestedSize)) LOOP_BOUND h.freeList =
      some NULL) : newRegion h requestedSize (some base) =
      [⟨base, sizeRequestedFromOS (sizeNeeded requestedSize)⟩] := by
  simp only [newRegion, if_neg hsize, hfind, if_true]
  rfl

/-- The requests that the code is right for meet the contract. -/
theorem RequestOk.contract (hok : RequestOk h cs requestedSize mmap)
    (hL : Layout h cs live (mapped regions)) (hsize : requestedSize ≠ 0)
    (hfresh : ∀ r ∈ newRegion h requestedSize mmap, FreshRegion regions r) :
    ∃ ptr h', memalloc h requestedSize mmap = some (ptr, h') ∧
      Contract h cs live regions requestedSize mmap ptr h' := by
  rcases hL.find_fit (sizeNeeded requestedSize) with
    ⟨hfind, hno⟩ | ⟨pre, c, post, rfl, hbefore, hfits, hfind⟩
  · have hnone := hL.none_holds hno
    cases mmap with
    | none => exact ⟨NULL, h, memalloc_failed hsize hfind, .failed hnone⟩
    | some base =>
        rcases hok with ⟨hfailed, _⟩ | ⟨hwrap, ⟨c, hc, hfits⟩ | hroom⟩
        · cases hfailed
        · rw [hno c hc] at hfits
          cases hfits
        · rw [newRegion_of_find hsize hfind] at hfresh
          have hregion := hfresh _ List.mem_cons_self
          obtain ⟨h', cs', heval, hL', _, hcarved⟩ := memalloc_mapped hL hsize hfind hregion hroom
          have hpos : 0 < (sizeRequestedFromOS (sizeNeeded requestedSize)).toNat :=
            Nat.lt_of_lt_of_le (by omega) hroom
          obtain ⟨hsmall, hle⟩ := request_ge hpos
          rw [sizeNeeded_toNat hwrap] at hsmall
          have htotal : (sizeNeeded requestedSize + paddingSize (sizeNeeded requestedSize)).toNat =
              blockSize requestedSize := padded_eq_blockSize (by omega)
          exact ⟨_, h', heval, .fromRegion hnone (hL'.header base (by simp)).payload_aligned
            (hcarved.served hL' htotal (htotal ▸ hle))⟩
  · have hc : c ∈ pre ++ c :: post := by simp
    have hheader := hL.header c (List.mem_append_left live hc)
    have hwrap : requestedSize.toNat + 8 < 2 ^ 64 := by
      rcases hok with ⟨_, hno⟩ | ⟨hwrap, _⟩
      · have := (hL.fits_iff hc _).mpr hfits
        rw [hno c hc] at this
        cases this
      · exact hwrap
    have hhold : CanHold h requestedSize c :=
      (hL.fits_iff_canHold hc hwrap).mp ((hL.fits_iff hc _).mpr hfits)
    have hfirst : ∀ d ∈ pre, ¬ CanHold h requestedSize d := by
      intro d hd hhold
      have := (hL.fits_iff_canHold (by simp [hd]) hwrap).mpr hhold
      rw [hbefore d hd] at this
      cases this
    obtain ⟨h', cs', heval, hL', _, hcarved⟩ := memalloc_found mmap hL hsize hfind hfits
    have hsmall : requestedSize.toNat + 8 ≤ 2 ^ 64 - 8 := by
      have := hheader.size_aligned
      have := (h.size c).isLt
      rw [sizeNeeded_toNat hwrap] at hfits
      simp only [Heap.extent] at *
      omega
    exact ⟨_, h', heval, .fromChunk rfl hfirst hhold hheader.payload_aligned
      (hcarved.served hL' (padded_eq_blockSize hsmall) hhold)⟩

theorem Heap.freeList_pushFront {chunk size : U64} :
    (h.pushFront chunk size).freeList = chunk := rfl

/-- The size of a chunk that has been pushed, when it was already the first one. -/
theorem Heap.size_pushFront {chunk size : U64} (hlist : h.freeList = chunk) :
    (h.pushFront chunk size).size chunk = size := by
  have h8 : chunk + 8 ≠ chunk := by bv_omega
  have h16 : chunk + 16 ≠ chunk := by bv_omega
  simp only [pushFront, setPrevOf, setPrev, setNext, setSize, Heap.size, hlist]
  split_ifs <;> simp

/-- A region without room for a chunk: the chunk that is pushed is not well formed, wherever it
lies. -/
theorem Served.leavesChunk (hL : Layout h cs live (mapped regions)) (hsize : requestedSize ≠ 0)
    (hfind : find h.next NULL (fits h (sizeNeeded requestedSize)) LOOP_BOUND h.freeList =
      some NULL)
    (hregion : FreshRegion regions ⟨base, sizeRequestedFromOS (sizeNeeded requestedSize)⟩)
    (hend : base.toNat + (sizeRequestedFromOS (sizeNeeded requestedSize)).toNat < 2 ^ 64)
    (hwrap : requestedSize.toNat + 8 < 2 ^ 64)
    (heval : memalloc h requestedSize (some base) = some (base + ALLOC_MEM_METADATA, h'))
    (hserved : Served h h' requestedSize base
      (sizeRequestedFromOS (sizeNeeded requestedSize)).toNat cs live area) :
    LeavesChunk (sizeNeeded requestedSize) := by
  by_contra hroom
  obtain ⟨hsmall, hle⟩ := request_ge hregion.not_empty
  rw [sizeNeeded_toNat hwrap] at hsmall
  have htotal : (sizeNeeded requestedSize + paddingSize (sizeNeeded requestedSize)).toNat =
      blockSize requestedSize := padded_eq_blockSize (by omega)
  unfold LeavesChunk at hroom
  have hafter := hserved.layout
  rw [← htotal, if_neg hroom] at hafter
  obtain rfl := (Prod.mk.inj (Option.some.inj
    ((memalloc_new base hsize hfind).symm.trans heval))).2
  generalize sizeNeeded requestedSize + paddingSize (sizeNeeded requestedSize) = total at *
  generalize sizeRequestedFromOS (sizeNeeded requestedSize) = request at *
  -- the chunk that is pushed would have to be one of the old chunks
  have hchunk : base + total ≠ NULL := by
    intro hnull
    have hzero := congrArg BitVec.toNat hnull
    have hbase : base.toNat ≠ 0 := fun h0 => hregion.nonzero (BitVec.eq_of_toNat_eq h0)
    rw [BitVec.toNat_add, Nat.mod_eq_of_lt (by omega)] at hzero
    have hnull : NULL.toNat = 0 := rfl
    omega
  have hmem := hafter.freeList_mem
  have hhead' := hafter.list.head_eq
  rw [Heap.nextOf, if_pos rfl] at hhead'
  rw [Heap.freeList_pushFront] at hmem hhead'
  have hlist : ((h.mapRegion base request).setSize base total).freeList = base + total :=
    hL.list.head_eq.trans hhead'.symm
  have hmin := (hafter.header _ (List.mem_append_left _ (hmem hchunk))).min_size
  rw [Heap.extent, Heap.size_pushFront hlist, BitVec.toNat_sub_of_le (BitVec.le_def.mpr hle)]
    at hmin
  omega

/-- Where the contract is met, the code is right. -/
theorem Contract.requestOk (hL : Layout h cs live (mapped regions)) (hsize : requestedSize ≠ 0)
    (hfresh : ∀ r ∈ newRegion h requestedSize mmap, FreshRegion regions r ∧
      r.base.toNat + r.length.toNat < 2 ^ 64)
    (heval : memalloc h requestedSize mmap = some (ptr, h'))
    (hcontract : Contract h cs live regions requestedSize mmap ptr h') :
    RequestOk h cs requestedSize mmap := by
  cases hcontract with
  | failed hnone =>
      rcases hL.find_fit (sizeNeeded requestedSize) with
        ⟨hfind, hno⟩ | ⟨pre, c, post, rfl, _, hfits, hfind⟩
      · exact Or.inl ⟨rfl, hno⟩
      · -- a chunk that fits is handed out
        obtain ⟨_, _, heval', _⟩ := memalloc_found none hL hsize hfind hfits
        have hptr := (Prod.mk.inj (Option.some.inj (heval.symm.trans heval'))).1
        exact absurd hptr.symm (hL.header c (by simp)).payload_ne
  | fromChunk hcs hfirst hhold haligned hserved =>
      have hc := hcs ▸ List.mem_append_right _ List.mem_cons_self
      exact Or.inr ⟨hhold.no_wrap, Or.inl ⟨_, hc, (hL.fits_iff_canHold hc hhold.no_wrap).mpr hhold⟩⟩
  | @fromRegion base _ hnone haligned hserved =>
      have hwrap : requestedSize.toNat + 8 < 2 ^ 64 :=
        Nat.lt_of_le_of_lt hserved.size (h'.size base).isLt
      refine Or.inr ⟨hwrap, ?_⟩
      by_contra hnot
      obtain ⟨hno, hroom⟩ := not_or.mp hnot
      have hfind : find h.next NULL (fits h (sizeNeeded requestedSize)) LOOP_BOUND h.freeList =
          some NULL := by
        rcases hL.find_fit (sizeNeeded requestedSize) with
          ⟨hfind, _⟩ | ⟨pre, c, post, rfl, _, hfits, _⟩
        · exact hfind
        · exact absurd ⟨c, by simp, (hL.fits_iff (by simp) _).mpr hfits⟩ hno
      rw [newRegion_of_find hsize hfind] at hfresh
      obtain ⟨hregion, hend⟩ := hfresh _ List.mem_cons_self
      exact hroom (hserved.leavesChunk hL hsize hfind hregion hend hwrap heval)

/-- `memalloc` meets its contract exactly for the requests that the code is right for, in every
heap that is laid out, for every request and every answer of `mmap`. -/
theorem memalloc_contract_iff (hL : Layout h cs live (mapped regions)) (hsize : requestedSize ≠ 0)
    (hfresh : ∀ r ∈ newRegion h requestedSize mmap, FreshRegion regions r ∧
      r.base.toNat + r.length.toNat < 2 ^ 64) :
    (∃ ptr h', memalloc h requestedSize mmap = some (ptr, h') ∧
      Contract h cs live regions requestedSize mmap ptr h') ↔
    RequestOk h cs requestedSize mmap := by
  constructor
  · intro h'
    obtain ⟨ptr, h', heval, hcontract⟩ := h'
    exact hcontract.requestOk hL hsize hfresh heval
  · exact fun hok => hok.contract hL hsize fun r hr => (hfresh r hr).1

/-- A first request of 16 bytes, which obtains a region, and a request of 100 bytes that the first
chunk of the list is too small for. -/
theorem memalloc_contract_sample :
    ((∃ ptr h', memalloc ⟨fun _ => 0, NULL⟩ 16 (some sampleBase) = some (ptr, h') ∧
      Contract ⟨fun _ => 0, NULL⟩ [] [] [] 16 (some sampleBase) ptr h') ↔
    RequestOk ⟨fun _ => 0, NULL⟩ [] 16 (some sampleBase)) ∧
    ((∃ ptr h', memalloc (threeBlocks (sampleBase + 24)) 100 none = some (ptr, h') ∧
      Contract (threeBlocks (sampleBase + 24)) [sampleBase + 24, sampleBase + 72]
        [sampleBase, sampleBase + 48] [sampleRegion] 100 none ptr h') ↔
    RequestOk (threeBlocks (sampleBase + 24)) [sampleBase + 24, sampleBase + 72] 100 none) :=
  ⟨memalloc_contract_iff (laidOut_start fun _ => 0).1 (by decide) (by decide +kernel),
    memalloc_contract_iff threeBlocks_second_free (by decide) (by decide +kernel)⟩

/-- A request so large that adding the header wraps around gets a block of 24 bytes. -/
theorem memalloc_breaks_contract :
    (∀ r ∈ newRegion ⟨fun _ => 0, NULL⟩ (-1) (some sampleBase), FreshRegion [] r) ∧
    ¬ ∃ ptr h', memalloc ⟨fun _ => 0, NULL⟩ (-1) (some sampleBase) = some (ptr, h') ∧
      Contract ⟨fun _ => 0, NULL⟩ [] [] [] (-1) (some sampleBase) ptr h' := by
  refine ⟨by decide +kernel, fun h' => ?_⟩
  obtain ⟨ptr, h', heval, hcontract⟩ := h'
  have hok := hcontract.requestOk (laidOut_start fun _ => 0).1 (by decide) (by decide +kernel) heval
  rcases hok with ⟨hnone, _⟩ | ⟨hwrap, _⟩
  · cases hnone
  · exact absurd hwrap (by decide)

end GemOS.Mylib
