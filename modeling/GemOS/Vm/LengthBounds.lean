import Mathlib.Order.Bounds.Basic
import GemOS.Vm.EndStores
import GemOS.Vm.ProtectData
import GemOS.Vm.UnmapResults

/-!
# Overflow of lengths and ends of areas

The functions round a length in `int` arithmetic and add it to a `u64` address. An accepted call
rounds correctly, does not wrap around and stores no bad end exactly if its range fits
(`CallFits`).
-/

namespace GemOS.Vm

variable {s : Areas} {memptr next prev v : VmArea} {areas rest post : List VmArea}
variable {addr len addrEnd : U64} {prot : U32} {length : CInt} {a e lo : Nat}

/-! ## The property -/

/-- The length is rounded to the least multiple of 4096 that is not smaller, and the address plus
the rounded length does not wrap around. -/
structure RoundedUp (addr : U64) (length : CInt) : Prop where
  least : IsLeast {n : Int | 4096 ∣ n ∧ length.toInt ≤ n} (alignedLength length).toInt
  no_wrap : addr.toNat + (alignedLength length).toInt < 2 ^ 64

/-- A node does not end before it starts, nor behind the mmap area. -/
def EndStore.InBounds (store : EndStore) : Prop :=
  store.start ≤ store.vmEnd ∧ store.vmEnd ≤ MMAP_AREA_END

/-- All that a call rounds is rounded up, and all ends that it stores are in bounds. -/
structure Trace.Sound (t : Trace) : Prop where
  rounded : ∀ r ∈ t.rounded, RoundedUp r.1 r.2
  ends : ∀ store ∈ t.ends, store.InBounds

/-- Areas in increasing order from `lo` on that end in the mmap area. -/
structure InArea (lo : Nat) (areas : List VmArea) : Prop where
  order : InOrder lo areas
  top : InMmapArea areas

/-! ## Rounding -/

/-- Only lengths near the end of the `int`s overflow. -/
theorem roundedUp_iff (addr : U64) (hlen : ¬ length.toInt < 0) :
    RoundedUp addr length ↔
      length.toNat ≤ MAX_LENGTH ∧ addr.toNat + pageCeil length.toNat < 2 ^ 64 := by
  have hlt := toNat_lt_of_nonneg hlen
  have hlength : length.toInt = length.toNat := BitVec.toInt_eq_toNat_of_lt (by omega)
  have hvalue (hmax : length.toNat ≤ MAX_LENGTH) :
      (alignedLength length).toInt = pageCeil length.toNat := by
    have haligned := alignedLength_pageCeil hmax
    unfold MAX_LENGTH at hmax
    rw [BitVec.toInt_eq_toNat_of_lt, haligned]
    rw [haligned, pageCeil]
    omega
  constructor
  · intro h
    have hmax : length.toNat ≤ MAX_LENGTH := by
      by_contra hover
      have hmin := alignedLength_min hlen (Nat.lt_of_not_le hover)
      have hneg : (alignedLength length).toInt < 0 := by
        rw [hmin]
        decide
      have := h.least.1.2
      omega
    have hwrap := h.no_wrap
    rw [hvalue hmax] at hwrap
    exact ⟨hmax, by omega⟩
  · intro h
    obtain ⟨hmax, hwrap⟩ := h
    rw [pageCeil] at hwrap
    refine ⟨⟨⟨?_, ?_⟩, fun n hn => ?_⟩, ?_⟩
    · rw [hvalue hmax, pageCeil]
      omega
    · rw [hvalue hmax, pageCeil]
      omega
    · obtain ⟨hdvd, hle⟩ := hn
      rw [hvalue hmax, pageCeil]
      omega
    · rw [hvalue hmax, pageCeil]
      omega

/-! ## `vm_area_map` -/

theorem InArea.tail (h : InArea lo (memptr :: rest)) : InArea memptr.vmEnd.toNat rest :=
  ⟨h.order.2.2, fun v hv => h.top v (List.mem_cons_of_mem _ hv)⟩

theorem InArea.first_top (h : InArea lo (memptr :: rest)) :
    memptr.vmEnd.toNat ≤ MMAP_AREA_END.toNat :=
  BitVec.le_def.mp (h.top memptr List.mem_cons_self)

theorem EndStore.inBounds_iff {start vmEnd : U64} : (⟨start, vmEnd⟩ : EndStore).InBounds ↔
    start.toNat ≤ vmEnd.toNat ∧ vmEnd.toNat ≤ MMAP_AREA_END.toNat := by
  simp only [EndStore.InBounds, BitVec.le_def]

/-- Memory placed between two areas. -/
theorem betweenEnds_inBounds (h : InArea lo (memptr :: next :: rest))
    (hend : (addr + len).toNat = addr.toNat + len.toNat)
    (hbehind : memptr.vmEnd.toNat ≤ addr.toNat)
    (hfits : addr.toNat + len.toNat ≤ next.vmStart.toNat) :
    ∀ store ∈ betweenEnds addr len prot memptr next, store.InBounds := by
  have htop := h.tail.first_top
  obtain ⟨_, hsize, _, hnext, _⟩ := h.order
  unfold betweenEnds
  simp only
  split_ifs with hprev hnext' hboth
  · -- only the area before is extended
    obtain ⟨⟨rfl, _⟩, _⟩ := hprev
    rw [List.forall_mem_singleton, EndStore.inBounds_iff, hend]
    omega
  · exact List.forall_mem_nil _
  · -- the gap is closed
    rw [List.forall_mem_singleton, EndStore.inBounds_iff]
    omega
  · rw [List.forall_mem_singleton, EndStore.inBounds_iff, hend]
    omega

/-- Memory placed behind the last area. -/
theorem lastEnds_inBounds (hsize : memptr.vmStart.toNat ≤ memptr.vmEnd.toNat)
    (hend : (addr + len).toNat = addr.toNat + len.toNat)
    (hbehind : memptr.vmEnd.toNat ≤ addr.toNat)
    (hfits : addr.toNat + len.toNat ≤ MMAP_AREA_END.toNat) :
    ∀ store ∈ lastEnds addr len prot memptr, store.InBounds := by
  unfold lastEnds
  split_ifs with hprev
  · obtain ⟨rfl, _⟩ := hprev
    rw [List.forall_mem_singleton, EndStore.inBounds_iff, hend]
    omega
  · rw [List.forall_mem_singleton, EndStore.inBounds_iff, hend]
    omega

/-- A length that is an `int` does not wrap around in the mmap area. -/
theorem InArea.end_toNat (h : InArea lo (memptr :: rest)) (hlen : len.toNat < 2 ^ 31) :
    (memptr.vmEnd + len).toNat = memptr.vmEnd.toNat + len.toNat := by
  have := h.first_top
  have := mmapAreaEnd_lt
  exact BitVec.toNat_add_of_lt (by omega)

theorem allocEnds_inBounds (h : InArea lo (memptr :: rest)) (hlen : len.toNat < 2 ^ 31) :
    ∀ store ∈ allocEnds len prot memptr rest, store.InBounds := by
  induction rest generalizing lo memptr with
  | nil =>
      have hend := h.end_toNat hlen
      rw [allocEnds]
      split_ifs with hfits
      · rw [BitVec.le_def, hend] at hfits
        exact lastEnds_inBounds h.order.2.1 hend (Nat.le_refl _) hfits
      · exact List.forall_mem_nil _
  | cons next rest ih =>
      have hend := h.end_toNat hlen
      rw [allocEnds]
      split_ifs with hfits
      · rw [BitVec.le_def, hend] at hfits
        exact betweenEnds_inBounds h hend (Nat.le_refl _) hfits
      · exact ih h.tail

theorem hintEnds_inBounds {edit : Edit} (h : InArea lo (memptr :: rest))
    (hend : (addr + len).toNat = addr.toNat + len.toNat)
    (hplace : placeAt addr len prot memptr rest = .placed edit) :
    ∀ store ∈ hintEnds addr len prot memptr rest, store.InBounds := by
  induction rest generalizing lo memptr edit with
  | nil =>
      rw [placeAt] at hplace
      split_ifs at hplace with hin hbehind hfits
      rw [BitVec.le_def] at hbehind
      rw [BitVec.le_def, hend] at hfits
      exact lastEnds_inBounds h.order.2.1 hend hbehind hfits
  | cons next rest ih =>
      rw [placeAt] at hplace
      rw [hintEnds]
      by_cases hbetween : memptr.vmEnd ≤ addr ∧ next.vmStart > addr
      · rw [if_pos hbetween] at hplace ⊢
        split_ifs at hplace with hin hfits
        rw [BitVec.le_def, hend] at hfits
        exact betweenEnds_inBounds h hend (BitVec.le_def.mp hbetween.1) hfits
      · rw [if_neg hbetween] at hplace ⊢
        split_ifs at hplace
        cases hrec : placeAt addr len prot next rest with
        | placed later => exact ih h.tail hrec
        | notFree => simp [hrec] at hplace
        | notFound => simp [hrec] at hplace

/-- The search for a place. -/
theorem placeEnds_inBounds {flag : CInt} (h : InArea lo (memptr :: rest))
    (hlen : len.toNat < 2 ^ 31) (hend : (addr + len).toNat = addr.toNat + len.toNat) :
    ∀ store ∈ placeEnds addr len prot flag (memptr :: rest), store.InBounds := by
  have halloc : ∀ store ∈ if flag = MAP_FIXED then [] else allocEnds len prot memptr rest,
      store.InBounds := by
    split_ifs
    · exact List.forall_mem_nil _
    · exact allocEnds_inBounds h hlen
  rw [placeEnds]
  by_cases hzero : addr = 0
  · rw [if_pos hzero]
    exact halloc
  · rw [if_neg hzero]
    cases hplace : placeAt addr len prot memptr rest with
    | placed edit => exact hintEnds_inBounds h hend hplace
    | notFree => exact halloc
    | notFound => exact List.forall_mem_nil _

/-- The list with its first area. -/
theorem InArea.create (h : InArea MMAP_AREA_START.toNat s.list) :
    InArea MMAP_AREA_START.toNat s.create.list := by
  unfold Areas.create
  split_ifs
  · refine ⟨⟨Nat.le_refl _, by decide, trivial⟩, fun v hv => ?_⟩
    obtain rfl := List.mem_singleton.mp hv
    decide
  · exact h

/-- `vm_area_map` with good arguments. -/
theorem map_sound_iff {flag : CInt} (hlist : InArea MMAP_AREA_START.toNat s.list) (addr : U64)
    (hgood : ¬ badMapArgs length prot flag = true) :
    (AreaCall.trace s (.map addr length prot flag)).Sound ↔
      length.toNat ≤ MAX_LENGTH ∧ addr.toNat + pageCeil length.toNat < 2 ^ 64 := by
  have hlen : ¬ length.toInt < 0 := by
    simp only [badMapArgs, decide_eq_true_eq, not_or] at hgood
    exact hgood.1
  simp only [AreaCall.trace, if_neg hgood]
  constructor
  · intro h
    exact (roundedUp_iff addr hlen).mp (h.rounded _ List.mem_cons_self)
  · intro hfits
    refine ⟨List.forall_mem_singleton.mpr ((roundedUp_iff addr hlen).mpr hfits), ?_⟩
    obtain ⟨hmax, hwrap⟩ := hfits
    have hsize := alignedLength_toNat hmax
    unfold MAX_LENGTH at hmax
    have hend : (addr + widen (alignedLength length)).toNat =
        addr.toNat + (widen (alignedLength length)).toNat :=
      BitVec.toNat_add_of_lt (by rwa [hsize])
    have hshort : (widen (alignedLength length)).toNat < 2 ^ 31 := by
      rw [hsize, pageCeil]
      omega
    intro store hstore
    rw [mapEnds, List.mem_append] at hstore
    rcases hstore with hstore | hstore
    · split_ifs at hstore
      · obtain rfl := List.mem_singleton.mp hstore
        exact ⟨by decide, by decide⟩
      · cases hstore
    · obtain ⟨memptr, rest, hcreate⟩ := s.create_ne_nil
      have hareas := hlist.create
      rw [hcreate] at hareas hstore
      exact placeEnds_inBounds hareas hshort hend store hstore

/-! ## `vm_area_mprotect` -/

/-- The search of `vm_area_mprotect` ends in an area that holds the address, with the area before
it, if there is one. -/
theorem mprotectEnds_found (isHead : Bool) {p : Protected}
    (h : mprotectFrom addr len prot prev areas = some p) :
    ∃ v ∈ areas, ∃ before post, areas = before ++ v :: post ∧
      v.vmStart.toNat ≤ addr.toNat ∧ addr.toNat < v.vmEnd.toNat ∧
      (before = [] ∧ mprotectEnds addr len prot isHead prev areas =
          protectEnds isHead addr (addr + len) prot prev v post ∨
        ∃ last ∈ before, mprotectEnds addr len prot isHead prev areas =
          protectEnds false addr (addr + len) prot last v post) := by
  induction areas generalizing isHead prev p with
  | nil => cases h
  | cons memptr rest ih =>
      rw [mprotectFrom] at h
      rw [mprotectEnds]
      split_ifs at h ⊢ with hstart hend
      · exact ⟨memptr, List.mem_cons_self, [], rest, rfl, BitVec.le_def.mp hstart,
          BitVec.lt_def.mp hend, Or.inl ⟨rfl, rfl⟩⟩
      · obtain ⟨q, hq, rfl⟩ := Option.map_eq_some_iff.mp h
        obtain ⟨v, hv, before, post, rfl, hstart', hend', hcase⟩ := ih false hq
        refine ⟨v, List.mem_cons_of_mem _ hv, memptr :: before, post, rfl, hstart', hend',
          Or.inr ?_⟩
        rcases hcase with ⟨_, hends⟩ | ⟨last, hlast, hends⟩
        · exact ⟨memptr, List.mem_cons_self, hends⟩
        · exact ⟨last, List.mem_cons_of_mem _ hlast, hends⟩

/-- The range of a call of `vm_area_mprotect` does not go on behind the area `v`, or it starts with
the area and ends in the mmap area. The last alternative is a store through `NULL` in place of one
to a node: `isHead` tells that no area comes before `v`, and `prev` what is read from `NULL`. -/
def ProtectFits (isHead : Prop) (prev : VmArea) (addr : U64) (addrEnd : Nat) (prot : U32)
    (v : VmArea) : Prop :=
  addrEnd ≤ v.vmEnd.toNat ∨ addr = v.vmStart ∧
    (addrEnd ≤ MMAP_AREA_END.toNat ∨ isHead ∧ prev.vmEnd = addr ∧ prev.accessFlags = prot)

/-- The store to the area before. -/
theorem prevEnd_inBounds {isHead : Bool} {vmEnd : U64}
    (hprev : isHead = false → prev.vmStart.toNat ≤ vmEnd.toNat) :
    (∀ store ∈ if isHead = true then [] else [(⟨prev.vmStart, vmEnd⟩ : EndStore)],
      store.InBounds) ↔ isHead = true ∨ vmEnd.toNat ≤ MMAP_AREA_END.toNat := by
  cases isHead with
  | true => simp
  | false =>
      rw [if_neg Bool.false_ne_true, List.forall_mem_singleton, EndStore.inBounds_iff,
        or_iff_right Bool.false_ne_true]
      exact and_iff_right (hprev rfl)

/-- If the range is the whole area, only ends of other areas are stored. -/
theorem protectEnds_whole {isHead : Bool} (h : InArea lo (v :: post))
    (hprev : isHead = false → prev.vmStart.toNat ≤ prev.vmEnd.toNat) :
    ∀ store ∈ protectEnds isHead v.vmStart v.vmEnd prot prev v post, store.InBounds := by
  have htop := h.first_top
  have hsize := h.order.2.1
  have hnext : ∀ next rest', joiningNext v.vmEnd prot post = some (next, rest') →
      v.vmEnd.toNat ≤ next.vmEnd.toNat ∧ next.vmEnd.toNat ≤ MMAP_AREA_END.toNat := by
    intro next rest' hjoin
    obtain ⟨rfl, _, _⟩ := joiningNext_some hjoin
    have hnext := h.tail.first_top
    obtain ⟨_, _, hbehind, hsize, _⟩ := h.order
    omega
  simp only [protectEnds, ne_eq, not_true_eq_false, and_false, false_and, if_false]
  by_cases hjoins : prev.accessFlags = prot ∧ prev.vmEnd = v.vmStart
  · have hlow : isHead = false → prev.vmStart.toNat ≤ v.vmStart.toNat := fun hhead =>
      congrArg BitVec.toNat hjoins.2 ▸ hprev hhead
    rw [if_pos hjoins]
    cases hjoin : joiningNext v.vmEnd prot post with
    | none =>
        exact (prevEnd_inBounds fun hhead => Nat.le_trans (hlow hhead) hsize).mpr (Or.inr htop)
    | some found =>
        obtain ⟨hbehind, hnext⟩ := hnext found.1 found.2 hjoin
        exact (prevEnd_inBounds fun hhead => Nat.le_trans (hlow hhead)
          (Nat.le_trans hsize hbehind)).mpr (Or.inr hnext)
  · rw [if_neg hjoins]
    cases hjoin : joiningNext v.vmEnd prot post with
    | none => exact List.forall_mem_nil _
    | some found =>
        obtain ⟨hbehind, hnext⟩ := hnext found.1 found.2 hjoin
        rw [List.forall_mem_singleton, EndStore.inBounds_iff]
        exact ⟨Nat.le_trans hsize hbehind, hnext⟩

/-- The stores in the area that holds the address. -/
theorem protectEnds_inBounds_iff {isHead : Bool} (h : InArea lo (v :: post))
    (hstart : v.vmStart.toNat ≤ addr.toNat) (hend : addr.toNat < v.vmEnd.toNat)
    (hle : addr.toNat ≤ addrEnd.toNat)
    (hprev : isHead = false → prev.vmStart.toNat ≤ prev.vmEnd.toNat) :
    (∀ store ∈ protectEnds isHead addr addrEnd prot prev v post, store.InBounds) ↔
      ProtectFits (isHead = true) prev addr addrEnd.toNat prot v := by
  have htop := h.first_top
  by_cases hfirst : addr = v.vmStart
  · subst hfirst
    by_cases hlast : addrEnd = v.vmEnd
    · subst hlast
      exact iff_of_true (protectEnds_whole h hprev) (Or.inl (Nat.le_refl _))
    · -- the range starts with the area
      simp only [protectEnds, ne_eq, hlast, not_true_eq_false, not_false_eq_true, and_true,
        and_false, if_false, if_true]
      by_cases hjoins : v.vmStart = prev.vmEnd ∧ prev.accessFlags = prot
      · rw [if_pos hjoins, prevEnd_inBounds fun hhead =>
          Nat.le_trans (congrArg BitVec.toNat hjoins.1 ▸ hprev hhead) hle]
        unfold ProtectFits
        have hjoins' : prev.vmEnd = v.vmStart ∧ prev.accessFlags = prot :=
          ⟨hjoins.1.symm, hjoins.2⟩
        simp only [hjoins', and_self, and_true, true_and]
        constructor
        · intro hcase
          exact Or.inr hcase.symm
        · intro hcase
          rcases hcase with hin | hcase
          · exact Or.inr (Nat.le_trans hin htop)
          · exact hcase.symm
      · rw [if_neg hjoins, List.forall_mem_singleton, EndStore.inBounds_iff]
        unfold ProtectFits
        have hjoins' : ¬ (prev.vmEnd = v.vmStart ∧ prev.accessFlags = prot) := fun hmatch =>
          hjoins ⟨hmatch.1.symm, hmatch.2⟩
        simp only [hjoins', and_false, or_false, true_and]
        omega
  · have hne : ¬ addr.toNat = v.vmStart.toNat := mt BitVec.eq_of_toNat_eq hfirst
    have hfits : ProtectFits (isHead = true) prev addr addrEnd.toNat prot v ↔
        addrEnd.toNat ≤ v.vmEnd.toNat := or_iff_left fun hmatch => hfirst hmatch.1
    rw [hfits]
    by_cases hlast : addrEnd = v.vmEnd
    · -- the range ends with the area
      subst hlast
      refine iff_of_true ?_ (Nat.le_refl _)
      simp only [protectEnds, ne_eq, hfirst, not_true_eq_false, not_false_eq_true, and_false,
        true_and, if_false, if_true]
      rw [List.forall_mem_cons, EndStore.inBounds_iff]
      refine ⟨by omega, ?_⟩
      cases joiningNext v.vmEnd prot post with
      | none =>
          rw [List.forall_mem_singleton, EndStore.inBounds_iff]
          omega
      | some found => exact List.forall_mem_nil _
    · -- the area is split in three
      simp only [protectEnds, ne_eq, hfirst, hlast, not_false_eq_true, and_self, if_true]
      rw [List.forall_mem_cons, List.forall_mem_cons, List.forall_mem_singleton]
      simp only [EndStore.inBounds_iff]
      omega

/-- Later areas start behind earlier ones. -/
theorem InOrder.end_le {w : VmArea} {before : List VmArea}
    (h : InOrder lo (before ++ v :: post)) (hw : w ∈ before) :
    w.vmEnd.toNat ≤ v.vmStart.toNat := by
  induction before generalizing lo with
  | nil => cases hw
  | cons u before ih =>
      obtain ⟨_, _, hrest⟩ := h
      rcases List.mem_cons.mp hw with rfl | hw
      · exact hrest.le_start v (by simp)
      · exact ih hrest hw

/-- Part of the list. -/
theorem InArea.drop {before : List VmArea} (h : InArea lo (before ++ areas)) :
    ∃ lo', InArea lo' areas := by
  induction before generalizing lo with
  | nil => exact ⟨lo, h⟩
  | cons u before ih => exact ih h.tail

/-- The size of an area. -/
theorem InOrder.size (h : InOrder lo areas) (hv : v ∈ areas) :
    v.vmStart.toNat ≤ v.vmEnd.toNat := by
  induction areas generalizing lo with
  | nil => cases hv
  | cons u rest ih =>
      obtain ⟨_, hsize, hrest⟩ := h
      rcases List.mem_cons.mp hv with rfl | hv
      · exact hsize
      · exact ih hrest hv

/-- An accepted call of `vm_area_mprotect`. -/
theorem mprotect_sound_iff (hlist : InArea lo s.list)
    (hok : (vmAreaMprotect s addr length prot).1 ≠ -EINVAL) :
    (AreaCall.trace s (.mprotect addr length prot)).Sound ↔
      length.toNat ≤ MAX_LENGTH ∧ ∀ v ∈ s.list, v.vmStart.toNat ≤ addr.toNat →
        addr.toNat < v.vmEnd.toNat →
        ProtectFits (s.list.head? = some v) s.nullArea addr
          (addr.toNat + pageCeil length.toNat) prot v := by
  have hgood : ¬ badProtectArgs length prot = true := by
    intro hbad
    exact hok (by rw [vmAreaMprotect, if_pos hbad])
  have hlen : ¬ length.toInt < 0 := by
    simp only [badProtectArgs, decide_eq_true_eq, not_or] at hgood
    exact hgood.1
  obtain ⟨p, hfrom⟩ : ∃ p, mprotectFrom addr (widen (alignedLength length)) prot s.nullArea
      s.list = some p := by
    cases hfrom : mprotectFrom addr (widen (alignedLength length)) prot s.nullArea s.list with
    | none => exact absurd (by simp only [vmAreaMprotect, if_neg hgood, hfrom]) hok
    | some p => exact ⟨p, rfl⟩
  obtain ⟨v, hv, before, post, hsplit, hstart, hend, hcase⟩ := mprotectEnds_found true hfrom
  have htop := BitVec.le_def.mp (hlist.top v hv)
  have hvalue := mmapAreaEnd_lt
  have hunique : ∀ w ∈ s.list, w.vmStart.toNat ≤ addr.toNat → addr.toNat < w.vmEnd.toNat →
      w = v := fun w hw hstart' hend' =>
    hlist.order.area_unique hw hv ⟨hstart', hend'⟩ ⟨hstart, hend⟩
  have hsound : (AreaCall.trace s (.mprotect addr length prot)).Sound ↔
      length.toNat ≤ MAX_LENGTH ∧
        ∀ store ∈ mprotectEnds addr (widen (alignedLength length)) prot true s.nullArea s.list,
          store.InBounds := by
    simp only [AreaCall.trace, if_neg hgood]
    constructor
    · intro h
      exact ⟨((roundedUp_iff addr hlen).mp (h.rounded _ List.mem_cons_self)).1, h.ends⟩
    · intro h
      refine ⟨List.forall_mem_singleton.mpr ((roundedUp_iff addr hlen).mpr ⟨h.1, ?_⟩), h.2⟩
      have hmax := h.1
      unfold MAX_LENGTH at hmax
      rw [pageCeil]
      omega
  rw [hsound]
  refine and_congr_right fun hmax => ?_
  have hsize := alignedLength_toNat hmax
  have hnowrap : (addr + widen (alignedLength length)).toNat =
      addr.toNat + pageCeil length.toNat := by
    unfold MAX_LENGTH at hmax
    rw [BitVec.toNat_add_of_lt, hsize]
    rw [hsize, pageCeil]
    omega
  obtain ⟨lo', harea⟩ : ∃ lo', InArea lo' (v :: post) := (hsplit ▸ hlist).drop
  have hfits : (∀ w ∈ s.list, w.vmStart.toNat ≤ addr.toNat → addr.toNat < w.vmEnd.toNat →
        ProtectFits (s.list.head? = some w) s.nullArea addr
          (addr.toNat + pageCeil length.toNat) prot w) ↔
      ProtectFits (s.list.head? = some v) s.nullArea addr
        (addr.toNat + pageCeil length.toNat) prot v :=
    ⟨fun h => h v hv hstart hend, fun h w hw hw_start hw_end =>
      hunique w hw hw_start hw_end ▸ h⟩
  rw [hfits]
  rcases hcase with ⟨rfl, hends⟩ | ⟨last, hlast, hends⟩
  · -- the first area
    have hhead : s.list.head? = some v := by rw [hsplit]; rfl
    rw [hends, protectEnds_inBounds_iff harea hstart hend (by omega) (by simp), hnowrap]
    simp only [ProtectFits, hhead, true_and]
  · have hbefore := (hsplit ▸ hlist.order).end_le hlast
    have hhead : s.list.head? ≠ some v := by
      intro hhead
      obtain ⟨first, before', rfl⟩ := List.exists_cons_of_ne_nil (List.ne_nil_of_mem hlast)
      rw [hsplit] at hhead
      obtain rfl : first = v := Option.some.inj hhead
      have := (hsplit ▸ hlist.order).end_le (List.mem_cons_self (a := first))
      omega
    have hlast_mem : last ∈ s.list := by simp [hsplit, hlast]
    rw [hends, protectEnds_inBounds_iff harea hstart hend (by omega)
      (fun _ => hlist.order.size hlast_mem), hnowrap]
    simp only [ProtectFits, hhead, Bool.false_eq_true, false_and, or_false]

/-! ## `vm_area_unmap` -/

/-- The part of `[a, e)` from the start of the area `v` on is no longer than can be rounded. If the
range starts inside the area, the rounded range does not go on behind it. -/
def UnmapFits (a e : Nat) (v : VmArea) : Prop :=
  e - max a v.vmStart.toNat ≤ MAX_LENGTH ∧
    (a ≤ v.vmStart.toNat ∨ a + pageCeil (e - a) ≤ v.vmEnd.toNat)

/-- All areas that hold the end of the range fit. -/
def EndsFit (a e : Nat) (areas : List VmArea) : Prop :=
  ∀ v ∈ areas, v.vmStart.toNat < e → e ≤ v.vmEnd.toNat → UnmapFits a e v

/-- An area that does not hold the end of the range does not matter. -/
theorem endsFit_cons (hout : ¬ (memptr.vmStart.toNat < e ∧ e ≤ memptr.vmEnd.toNat)) :
    EndsFit a e (memptr :: rest) ↔ EndsFit a e rest := by
  unfold EndsFit
  rw [List.forall_mem_cons]
  exact and_iff_right fun hlow hhigh => absurd ⟨hlow, hhigh⟩ hout

/-- Nor does it matter where the range starts before the areas. -/
theorem endsFit_start {a' : Nat} (ha : ∀ v ∈ areas, a ≤ v.vmStart.toNat)
    (ha' : ∀ v ∈ areas, a' ≤ v.vmStart.toNat) : EndsFit a e areas ↔ EndsFit a' e areas := by
  refine forall₂_congr fun v hv => ?_
  have h := ha v hv
  have h' := ha' v hv
  rw [UnmapFits, UnmapFits, Nat.max_eq_right h, Nat.max_eq_right h']
  simp only [h, h', true_or]

/-- If the first area holds the end of the range, no later area does. -/
theorem endsFit_first (hold : InOrder lo (memptr :: rest)) (hlow : memptr.vmStart.toNat < e)
    (hhigh : e ≤ memptr.vmEnd.toNat) : EndsFit a e (memptr :: rest) ↔ UnmapFits a e memptr := by
  unfold EndsFit
  rw [List.forall_mem_cons]
  refine ⟨fun h => h.1 hlow hhigh, fun h => ⟨fun _ _ => h, fun v hv hstart => ?_⟩⟩
  have := hold.2.2.le_start v hv
  omega

/-- Areas behind the range do not matter. -/
theorem endsFit_behind (hbehind : ∀ v ∈ areas, e ≤ v.vmStart.toNat) : EndsFit a e areas := by
  intro v hv hlow
  have := hbehind v hv
  omega

/-- The stores in the area that holds the end of the range. -/
theorem insideEnds_inBounds_iff (hstart : memptr.vmStart.toNat ≤ addr.toNat)
    (hend : addr.toNat ≤ memptr.vmEnd.toNat)
    (htop : memptr.vmEnd.toNat ≤ MMAP_AREA_END.toNat)
    (hsum : (addr + len).toNat = addr.toNat + len.toNat) :
    (∀ store ∈ insideEnds addr len memptr, store.InBounds) ↔
      addr.toNat ≤ memptr.vmStart.toNat ∨ addr.toNat + len.toNat ≤ memptr.vmEnd.toNat := by
  unfold insideEnds
  split_ifs with hwhole hfirst hlast
  · exact iff_of_true (List.forall_mem_nil _)
      (Or.inl (Nat.le_of_eq (congrArg BitVec.toNat hwhole.2).symm))
  · exact iff_of_true (List.forall_mem_nil _)
      (Or.inl (Nat.le_of_eq (congrArg BitVec.toNat hfirst).symm))
  · have hlast' := congrArg BitVec.toNat hlast
    rw [List.forall_mem_singleton, EndStore.inBounds_iff]
    exact iff_of_true (by omega) (Or.inr (by omega))
  · have hne : ¬ memptr.vmStart.toNat = addr.toNat := mt BitVec.eq_of_toNat_eq hfirst
    rw [List.forall_mem_cons, List.forall_mem_singleton, EndStore.inBounds_iff,
      EndStore.inBounds_iff, hsum]
    omega

theorem Trace.sound_nil : (⟨[], []⟩ : Trace).Sound :=
  ⟨List.forall_mem_nil _, List.forall_mem_nil _⟩

/-- The end of an area that is trimmed is in bounds. -/
theorem Trace.sound_trimmed {t : Trace} (hstart : memptr.vmStart.toNat ≤ addr.toNat)
    (hend : addr.toNat ≤ MMAP_AREA_END.toNat) :
    Trace.Sound { t with ends := ⟨memptr.vmStart, addr⟩ :: t.ends } ↔ t.Sound := by
  constructor
  · intro h
    exact ⟨h.rounded, fun store hstore => h.ends store (List.mem_cons_of_mem _ hstore)⟩
  · intro h
    exact ⟨h.rounded, List.forall_mem_cons.mpr ⟨EndStore.inBounds_iff.mpr ⟨hstart, hend⟩, h.ends⟩⟩

/-- The area that holds the end of the range. -/
theorem inside_sound_iff {addr' : U64} {length' : CInt}
    (hsize : memptr.vmStart.toNat ≤ memptr.vmEnd.toNat)
    (htop : memptr.vmEnd.toNat ≤ MMAP_AREA_END.toNat)
    (he : addr'.toNat + length'.toNat = e) (hlen : length'.toNat < 2 ^ 31) (hwrap : e < 2 ^ 64)
    (hinside : memptr.vmStart.toNat ≤ addr'.toNat ∧ e ≤ memptr.vmEnd.toNat)
    (hclip : addr.toNat < memptr.vmStart.toNat ∧ memptr.vmStart.toNat ≤ e ∧
        addr' = memptr.vmStart ∨
      (memptr.vmStart.toNat ≤ addr.toNat ∨ e < memptr.vmStart.toNat) ∧ addr' = addr) :
    Trace.Sound ⟨[(addr', length')],
        insideEnds addr' (widen (alignedLength length')) memptr⟩ ↔
      UnmapFits addr.toNat e memptr := by
  have hvalue := mmapAreaEnd_lt
  have hnonneg : ¬ length'.toInt < 0 := by
    rw [BitVec.toInt_eq_toNat_of_lt (by omega)]
    omega
  -- the rounded range, when it does not overflow
  have hends : length'.toNat ≤ MAX_LENGTH →
      ((∀ store ∈ insideEnds addr' (widen (alignedLength length')) memptr, store.InBounds) ↔
        addr'.toNat ≤ memptr.vmStart.toNat ∨
          addr'.toNat + pageCeil length'.toNat ≤ memptr.vmEnd.toNat) := by
    intro hmax
    have hround := alignedLength_toNat hmax
    have hsum : (addr' + widen (alignedLength length')).toNat =
        addr'.toNat + (widen (alignedLength length')).toNat := by
      refine BitVec.toNat_add_of_lt ?_
      rw [hround, pageCeil]
      omega
    rw [insideEnds_inBounds_iff hinside.1 (by omega) htop hsum, hround]
  have hsound : Trace.Sound ⟨[(addr', length')],
        insideEnds addr' (widen (alignedLength length')) memptr⟩ ↔
      length'.toNat ≤ MAX_LENGTH ∧ (addr'.toNat ≤ memptr.vmStart.toNat ∨
        addr'.toNat + pageCeil length'.toNat ≤ memptr.vmEnd.toNat) := by
    constructor
    · intro h
      have hmax := ((roundedUp_iff addr' hnonneg).mp (h.rounded _ List.mem_cons_self)).1
      exact ⟨hmax, (hends hmax).mp h.ends⟩
    · intro h
      obtain ⟨hmax, hfits⟩ := h
      refine ⟨List.forall_mem_singleton.mpr ((roundedUp_iff addr' hnonneg).mpr ⟨hmax, ?_⟩),
        (hends hmax).mpr hfits⟩
      rw [pageCeil]
      omega
  rw [hsound, UnmapFits]
  rcases hclip with ⟨hbelow, _, rfl⟩ | ⟨hout, rfl⟩
  · have hleft : e - max addr.toNat memptr.vmStart.toNat = length'.toNat := by omega
    rw [hleft]
    exact and_congr_right fun _ => iff_of_true (Or.inl (Nat.le_refl _))
      (Or.inl (Nat.le_of_lt hbelow))
  · have hleft : e - max addr'.toNat memptr.vmStart.toNat = length'.toNat := by omega
    have hleft' : e - addr'.toNat = length'.toNat := by omega
    rw [hleft, hleft']

/-- The loop of `vm_area_unmap` on a range that does not wrap around. -/
theorem unmapTrace_sound_iff {isHead : Bool} (h : InArea lo areas)
    (he : addr.toNat + length.toNat = e) (hlen : length.toNat < 2 ^ 31) (hwrap : e < 2 ^ 64)
    (hok : (unmapFrom isHead areas addr length).result ≠ -EINVAL) :
    (unmapTrace areas addr length).Sound ↔ EndsFit addr.toNat e areas := by
  induction areas generalizing lo addr length isHead with
  | nil => exact iff_of_true Trace.sound_nil (fun v hv => absurd hv List.not_mem_nil)
  | cons memptr rest ih =>
      obtain ⟨addr', length', haddr', hlength', he', hlen', hclip⟩ :=
        clip_spec memptr he hlen hwrap
      have hsum : (addr' + widen length').toNat = e := by
        rw [BitVec.toNat_add_of_lt (by rw [widen_toNat hlen']; omega), widen_toNat hlen', he']
      have htop := h.first_top
      obtain ⟨hlo, hsize, hrest⟩ := id h.order
      rw [unmapFrom] at hok
      rw [unmapTrace]
      simp only [haddr', hlength'] at hok ⊢
      simp only [toInt_nonpos_iff hlen, toInt_nonpos_iff hlen', BitVec.le_def, ge_iff_le,
        gt_iff_lt, BitVec.lt_def, hsum] at hok ⊢
      by_cases hzero : length.toNat = 0 ∨ length'.toNat = 0
      · rw [if_pos hzero] at hok
        exact absurd rfl hok
      rw [if_neg hzero] at hok ⊢
      rw [not_or] at hzero
      -- where the range starts in this area, or behind it
      have hstart : memptr.vmStart.toNat ≤ e → memptr.vmStart.toNat ≤ addr'.toNat := by
        intro hle
        rcases hclip with ⟨_, _, rfl⟩ | ⟨hout, rfl⟩
        · exact Nat.le_refl _
        · omega
      by_cases hinside : memptr.vmStart.toNat ≤ addr'.toNat ∧ e ≤ memptr.vmEnd.toNat
      · rw [if_pos hinside, endsFit_first h.order (by omega) hinside.2]
        exact inside_sound_iff hsize htop he' hlen' hwrap hinside hclip
      rw [if_neg hinside] at hok ⊢
      by_cases hover : memptr.vmStart.toNat ≤ addr'.toNat ∧ addr'.toNat < memptr.vmEnd.toNat ∧
          memptr.vmEnd.toNat < e
      · rw [if_pos hover] at hok ⊢
        rw [endsFit_cons (by omega)]
        have htrimmed := Nat.le_trans (Nat.le_of_lt hover.2.1) htop
        cases rest with
        | nil =>
            exact iff_of_true ((Trace.sound_trimmed hover.1 htrimmed).mpr Trace.sound_nil)
              (fun v hv => absurd hv List.not_mem_nil)
        | cons next rest' =>
            simp only at hok ⊢
            by_cases hgap : e < next.vmStart.toNat
            · rw [if_pos hgap]
              refine iff_of_true ((Trace.sound_trimmed hover.1 htrimmed).mpr Trace.sound_nil)
                (endsFit_behind fun v hv => ?_)
              have := hrest.first_le v hv
              omega
            · rw [if_neg hgap] at hok ⊢
              have hbehind := hrest.1
              have hleft := left_toNat hsum (Nat.not_lt.mp hgap) (by omega)
              rw [Trace.sound_trimmed hover.1 htrimmed,
                ih h.tail (by rw [hleft]; omega) (by rw [hleft]; omega) hok]
              refine endsFit_start hrest.first_le fun v hv => ?_
              have := hrest.le_start v hv
              rcases hclip with ⟨_, _, rfl⟩ | ⟨_, rfl⟩ <;> omega
      rw [if_neg hover] at hok ⊢
      by_cases hstop : e < memptr.vmStart.toNat ∨ rest = []
      · rw [if_pos hstop, endsFit_cons (by omega)]
        refine iff_of_true Trace.sound_nil (endsFit_behind ?_)
        rcases hstop with hbehind | rfl
        · intro v hv
          have := hrest.le_start v hv
          omega
        · exact fun v hv => absurd hv List.not_mem_nil
      · rw [if_neg hstop] at hok ⊢
        rw [endsFit_cons (by omega), ih h.tail he' hlen' hok]
        rcases hclip with ⟨hbelow, _, rfl⟩ | ⟨_, rfl⟩
        · refine endsFit_start (fun v hv => ?_) fun v hv => ?_
          · have := hrest.le_start v hv
            omega
          · have := hrest.le_start v hv
            omega
        · exact Iff.rfl

/-- A range that wraps around is taken to lie in the first area. -/
theorem unmapTrace_wrap (h : InArea MMAP_AREA_START.toNat (memptr :: rest))
    (hpos : 0 < length.toInt) (hwrap : 2 ^ 64 ≤ addr.toNat + length.toNat) :
    (addr, length) ∈ (unmapTrace (memptr :: rest) addr length).rounded := by
  have hlen : length.toNat < 2 ^ 31 := toNat_lt_of_nonneg (by omega)
  have haddr := addr.isLt
  have hsum : (addr + widen length).toNat = addr.toNat + length.toNat - 2 ^ 64 := by
    rw [BitVec.toNat_add, widen_toNat hlen, Nat.mod_eq_sub_mod hwrap, Nat.mod_eq_of_lt (by omega)]
  have htop := h.first_top
  have hlow : MMAP_AREA_START.toNat = 0x180200000 := rfl
  have hhigh := mmapAreaEnd_lt
  obtain ⟨hstart, hsize, _⟩ := h.order
  have hbefore : ¬ (addr < memptr.vmStart ∧ addr + widen length ≥ memptr.vmStart) := by
    intro hbefore
    have := BitVec.lt_def.mp hbefore.1
    omega
  have hinside : memptr.vmStart ≤ addr ∧ memptr.vmEnd ≥ addr + widen length :=
    ⟨BitVec.le_def.mpr (by omega), BitVec.le_def.mpr (by omega)⟩
  have hnonpos : ¬ (length.toInt ≤ 0 ∨ length.toInt ≤ 0) := by omega
  rw [unmapTrace]
  simp only [if_neg hbefore, if_neg hnonpos, if_pos hinside]
  exact List.mem_cons_self

/-- An accepted call of `vm_area_unmap`. -/
theorem unmap_sound_iff (hlist : InArea MMAP_AREA_START.toNat s.list)
    (hok : (vmAreaUnmap s addr length).1 ≠ -EINVAL) :
    (AreaCall.trace s (.unmap addr length)).Sound ↔
      addr.toNat + length.toNat < 2 ^ 64 ∧
        EndsFit addr.toNat (addr.toNat + length.toNat) s.list := by
  have hpos : 0 < length.toInt := by
    by_contra hnonpos
    exact hok (by rw [vmAreaUnmap_nonpos (by omega)])
  have hnonneg : ¬ length.toInt < 0 := by omega
  have hlen := toNat_lt_of_nonneg hnonneg
  rw [vmAreaUnmap, if_neg hnonneg] at hok
  simp only [AreaCall.trace, if_neg hnonneg]
  by_cases hwrap : addr.toNat + length.toNat < 2 ^ 64
  · rw [and_iff_right hwrap]
    exact unmapTrace_sound_iff hlist rfl hlen hwrap hok
  · refine iff_of_false (fun h => ?_) fun h => hwrap h.1
    cases hareas : s.list with
    | nil =>
        rw [hareas] at hok
        exact hok rfl
    | cons memptr rest =>
        rw [hareas] at h hlist
        have hround := h.rounded _ (unmapTrace_wrap hlist hpos (Nat.le_of_not_lt hwrap))
        have hend := ((roundedUp_iff addr hnonneg).mp hround).2
        rw [pageCeil] at hend
        omega

/-! ## Runs -/

theorem AreasInv.inArea {least : Nat} (h : AreasInv (mmapKind least) areas) :
    InArea MMAP_AREA_START.toNat areas := by
  rcases h with rfl | ⟨tail, rfl, hordered⟩
  · exact ⟨trivial, List.forall_mem_nil _⟩
  · refine ⟨⟨by decide, by decide, hordered.inOrder⟩, List.forall_mem_cons.mpr ⟨by decide, ?_⟩⟩
    intro v hv
    exact BitVec.le_def.mpr (hordered.bounds hv).2.2.2.2

/-- After any calls that keep the areas ordered, they lie in order in the mmap area. -/
theorem reached_inArea {nullArea : VmArea} {numVmArea : U64} {calls : List AreaCall}
    (hcalls : Runs.AllSteps areaStep AreaCallOk ⟨[], nullArea, numVmArea⟩ calls) :
    ∃ s, Runs.run areaStep ⟨[], nullArea, numVmArea⟩ calls = some s ∧
      InArea MMAP_AREA_START.toNat s.list := by
  have hstart : AreasInv (mmapKind 1) (⟨[], nullArea, numVmArea⟩ : Areas).list := Or.inl rfl
  obtain ⟨s, hrun, hinv⟩ :=
    Runs.run_invariant (fun s call hinv hok => areaStep_inv hinv hok) hstart hcalls
  exact ⟨s, hrun, hinv.inArea⟩

/-! ## All calls -/

/-- The range of an accepted call fits. -/
def CallFits (s : Areas) : AreaCall → Prop
  | .map addr length _ _ =>
      length.toNat ≤ MAX_LENGTH ∧ addr.toNat + pageCeil length.toNat < 2 ^ 64
  | .unmap addr length =>
      addr.toNat + length.toNat < 2 ^ 64 ∧
        EndsFit addr.toNat (addr.toNat + length.toNat) s.list
  | .mprotect addr length prot =>
      length.toNat ≤ MAX_LENGTH ∧ ∀ v ∈ s.list, v.vmStart.toNat ≤ addr.toNat →
        addr.toNat < v.vmEnd.toNat →
        ProtectFits (s.list.head? = some v) s.nullArea addr
          (addr.toNat + pageCeil length.toNat) prot v

/-- An accepted call rounds lengths up, does not wrap around and stores no end before the start of
its node or behind the mmap area exactly if its range fits. -/
theorem accepted_call_sound_iff (hlist : InArea MMAP_AREA_START.toNat s.list) (call : AreaCall)
    (haccepted : call.result s ≠ -EINVAL) : (call.trace s).Sound ↔ CallFits s call := by
  cases call with
  | map addr length prot flag =>
      refine map_sound_iff hlist addr fun hbad => haccepted ?_
      rw [AreaCall.result, vmAreaMap, if_pos hbad]
  | unmap addr length => exact unmap_sound_iff hlist haccepted
  | mprotect addr length prot => exact mprotect_sound_iff hlist haccepted

/-- The first area and two pages behind it. -/
def twoPages : Areas :=
  ⟨[dummyNode, ⟨0x180201000, 0x180203000, 3⟩], ⟨0, 0, 0⟩, 2⟩

theorem twoPages_reached : Runs.run areaStep noAreas [.map 0 0x2000 3 0] = some twoPages := by
  rfl

theorem twoPages_inArea : InArea MMAP_AREA_START.toNat twoPages.list := by
  have hcalls : Runs.AllSteps areaStep AreaCallOk noAreas [.map 0 0x2000 3 0] :=
    .cons twoPages_reached
      (Or.inr (Or.inr ⟨by decide, by decide, fun _ => ⟨by decide, by decide⟩⟩)) trivial
  obtain ⟨s, hrun, hinside⟩ := reached_inArea hcalls
  obtain rfl := Option.some.inj (hrun.symm.trans twoPages_reached)
  exact hinside

/-- The second of the two pages is made readable only. -/
theorem accepted_call_sound_sample :
    (AreaCall.trace twoPages (.mprotect 0x180202000 0x1000 1)).Sound ↔
      CallFits twoPages (.mprotect 0x180202000 0x1000 1) :=
  accepted_call_sound_iff twoPages_inArea _ (by decide)

/-- After two pages are mapped three calls are accepted: the rounded length overflows; two pages are
protected where one is left of the area, whose last part then ends before it starts; the range wraps
around. -/
theorem accepted_calls_overflow :
    Runs.run areaStep noAreas [.map 0 0x2000 3 0] = some twoPages ∧
    ∀ call ∈ ([.map 0 0x7FFFFFFF 1 0, .mprotect 0x180202000 0x2000 1,
        .unmap 0xFFFFFFFFFFFFF000 0x1000] : List AreaCall),
      call.result twoPages ≠ -EINVAL ∧ ¬ (call.trace twoPages).Sound := by
  have hmap : ¬ (AreaCall.trace twoPages (.map 0 0x7FFFFFFF 1 0)).Sound := by
    rw [map_sound_iff twoPages_inArea 0 (by decide)]
    decide
  have hprotect : ¬ (AreaCall.trace twoPages (.mprotect 0x180202000 0x2000 1)).Sound := by
    intro h
    have hstored : (⟨0x180204000, 0x180203000⟩ : EndStore) ∈
        (AreaCall.trace twoPages (.mprotect 0x180202000 0x2000 1)).ends :=
      .tail _ (.tail _ (.head _))
    exact absurd (h.ends _ hstored).1 (by decide)
  have hunmap : ¬ (AreaCall.trace twoPages (.unmap 0xFFFFFFFFFFFFF000 0x1000)).Sound := by
    rw [unmap_sound_iff twoPages_inArea (by decide)]
    intro h
    exact absurd h.1 (by decide)
  refine ⟨twoPages_reached, ?_⟩
  rw [List.forall_mem_cons, List.forall_mem_cons, List.forall_mem_singleton]
  exact ⟨⟨by decide, hmap⟩, ⟨by decide, hprotect⟩, by decide, hunmap⟩

end GemOS.Vm
