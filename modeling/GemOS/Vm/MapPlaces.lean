import Mathlib.Algebra.Order.Group.Nat
import GemOS.Lib.FirstFit
import GemOS.Vm.AreaReuse

/-!
# Where `vm_area_map` places memory

Without a hint the search of `allocVMArea` is a first fit over the bounds of the areas, so it
finds the least free place. A hint at a free place is kept. Any other hint from the start of the
mmap area on falls back to that search; a hint before the mmap area is rejected.
-/

namespace GemOS.Vm

open FirstFit (firstFit)

variable {k : AreaKind} {s : Areas} {memptr : VmArea} {areas rest tail : List VmArea}
variable {addr len : U64} {length prot : CInt} {lo n : Nat}

/-! ## The search is a first fit -/

/-- The bounds of an area. -/
def spanOf (v : VmArea) : Nat × Nat :=
  (v.vmStart.toNat, v.vmEnd.toNat)

/-- The addresses of pages. -/
def pageStarts : Set Nat :=
  {a | a % 4096 = 0}

theorem Ordered.sorted (h : Ordered k lo areas) (hk : 0 < k.least) :
    FirstFit.Sorted pageStarts lo (areas.map spanOf) := by
  induction areas generalizing lo with
  | nil => exact h.1
  | cons v rest ih =>
      obtain ⟨hlo, hle, _, hsize, _, hrest⟩ := h
      have hspan : v.vmStart.toNat < v.vmEnd.toNat := by omega
      exact ⟨hlo, hle, hspan, ih hrest⟩

theorem Ordered.span_le_top (h : Ordered k lo areas) :
    ∀ span ∈ areas.map spanOf, span.2 ≤ k.top := by
  intro span hspan
  obtain ⟨v, hv, rfl⟩ := List.mem_map.mp hspan
  exact (h.bounds hv).2.2.2.2

theorem freeRange_iff {a e : Nat} :
    FreeRange a e areas ↔ FirstFit.Free (areas.map spanOf) a e := by
  constructor
  · intro hfree span hspan x hstart hend
    obtain ⟨v, hv, rfl⟩ := List.mem_map.mp hspan
    exact hfree x v.accessFlags ⟨v, hv, hstart, hend, rfl⟩
  · intro hfree x f hx
    obtain ⟨v, hv, hstart, hend, _⟩ := hx
    exact hfree (spanOf v) (List.mem_map_of_mem hv) x hstart hend

/-- The sums of the search do not wrap around. -/
theorem vmEnd_add_toNat {v : VmArea} (hend : v.vmEnd.toNat ≤ MMAP_AREA_END.toNat)
    (hlen : len.toNat ≤ 2 ^ 31) : (v.vmEnd + len).toNat = v.vmEnd.toNat + len.toNat := by
  have hbound := mmapAreaEnd_toNat
  exact BitVec.toNat_add_of_lt (by omega)

/-- The result of `allocVMArea` for the place that a search has found. -/
def placeResult : Option Nat → Int
  | some a => a
  | none => -EINVAL

theorem vmEnd_toInt {v : VmArea} (hend : v.vmEnd.toNat ≤ MMAP_AREA_END.toNat) :
    v.vmEnd.toInt = v.vmEnd.toNat := by
  have hbound := mmapAreaEnd_toNat
  exact BitVec.toInt_eq_toNat_of_lt (by omega)

/-- `allocVMArea` answers with the first fit. -/
theorem allocVMArea_firstFit (prot : U32) (hold : Ordered k memptr.vmEnd.toNat rest)
    (htop : k.top = MMAP_AREA_END.toNat) (hlen : len.toNat ≤ 2 ^ 31) :
    (allocVMArea len prot memptr rest).1 = placeResult
      (firstFit MMAP_AREA_END.toNat len.toNat memptr.vmEnd.toNat (rest.map spanOf)) := by
  induction rest generalizing memptr with
  | nil =>
      have hend : memptr.vmEnd.toNat ≤ MMAP_AREA_END.toNat := htop ▸ hold.2
      have hsum := vmEnd_add_toNat hend hlen
      rw [allocVMArea, List.map_nil, firstFit]
      simp only [BitVec.le_def, hsum]
      split_ifs
      · exact vmEnd_toInt hend
      · rfl
  | cons next rest ih =>
      have hend : memptr.vmEnd.toNat ≤ MMAP_AREA_END.toNat := htop ▸ hold.low.2
      obtain ⟨_, _, _, _, _, hrest⟩ := hold
      have hsum := vmEnd_add_toNat hend hlen
      have hfirst : firstFit MMAP_AREA_END.toNat len.toNat memptr.vmEnd.toNat
          ((next :: rest).map spanOf) =
          if memptr.vmEnd.toNat + len.toNat ≤ next.vmStart.toNat then some memptr.vmEnd.toNat
          else firstFit MMAP_AREA_END.toNat len.toNat next.vmEnd.toNat (rest.map spanOf) := rfl
      rw [allocVMArea, hfirst]
      simp only [BitVec.le_def, hsum]
      by_cases hfits : memptr.vmEnd.toNat + len.toNat ≤ next.vmStart.toNat
      · rw [if_pos hfits, if_pos hfits]
        exact vmEnd_toInt hend
      · rw [if_neg hfits, if_neg hfits]
        exact ih hrest

/-! ## Without a hint -/

/-- The pages behind the first area from which `n` bytes of the mmap area are free. -/
def freePlaces (list : List VmArea) (n : Nat) : Set Nat :=
  {a | a % 4096 = 0 ∧ HEAD_END ≤ a ∧ a + n ≤ MMAP_AREA_END.toNat ∧ FreeRange a (a + n) list}

/-- The first area is not in the way behind it. -/
theorem freeRange_dummyNode {a e : Nat} (ha : HEAD_END ≤ a) :
    FreeRange a e (dummyNode :: tail) ↔ FreeRange a e tail := by
  have hhead : dummyNode.vmEnd.toNat = HEAD_END := rfl
  constructor
  · exact fun hfree x f hx => hfree x f (hasAccess_cons.mpr (Or.inr hx))
  · intro hfree x f hx
    rcases hasAccess_cons.mp hx with hx | hx
    · omega
    · exact hfree x f hx

theorem freePlaces_eq : freePlaces (dummyNode :: tail) n =
    FirstFit.places pageStarts MMAP_AREA_END.toNat n HEAD_END (tail.map spanOf) := by
  ext a
  refine and_congr_right fun _ => and_congr_right fun ha => and_congr_right fun _ => ?_
  rw [freeRange_dummyNode ha, freeRange_iff]

/-- The checks of `vm_area_map` let a good call pass. -/
theorem badMapArgs_of_good (hmax : length.toNat ≤ MAX_LENGTH) (hprot : prot = 1 ∨ prot = 3) :
    ¬ badMapArgs length prot 0 = true := by
  have hnonneg : ¬ length.toInt < 0 := by
    unfold MAX_LENGTH at hmax
    rw [BitVec.toInt_eq_toNat_of_lt (by omega)]
    omega
  rw [badMapArgs, decide_eq_true_eq]
  rcases hprot with rfl | rfl <;> simp [hnonneg]

/-- A call without a hint finds the least place, or there is none. -/
theorem vmAreaMap_firstFit (hlist : s.list = dummyNode :: tail)
    (hordered : Ordered mmapAreas HEAD_END tail) (hpos : 1 ≤ length.toNat)
    (hmax : length.toNat ≤ MAX_LENGTH) (hprot : prot = 1 ∨ prot = 3) :
    (∃ a : Nat, (vmAreaMap s 0 length prot 0).1 = a ∧
        IsLeast (freePlaces s.list (pageCeil length.toNat)) a) ∨
      ((vmAreaMap s 0 length prot 0).1 = -EINVAL ∧
        freePlaces s.list (pageCeil length.toNat) = ∅) := by
  have hlen := alignedLength_toNat hmax
  obtain ⟨_, _, hlen_pos, hsmall⟩ := goodLength (m := 0) (by omega) hpos hmax
  rw [hlen] at hlen_pos
  have hresult : (vmAreaMap s 0 length prot 0).1 = placeResult
      (firstFit MMAP_AREA_END.toNat (pageCeil length.toNat) HEAD_END (tail.map spanOf)) := by
    have hbehind : Ordered mmapAreas dummyNode.vmEnd.toNat tail := hordered
    have hfound := allocVMArea_firstFit prot hbehind rfl hsmall
    rw [hlen] at hfound
    have hflag : ¬ (0 : CInt) = MAP_FIXED := by decide
    rw [vmAreaMap, if_neg (badMapArgs_of_good hmax hprot), Areas.create_of_cons hlist]
    simp only [if_true, if_neg hflag, Areas.alloc, hlist]
    exact hfound
  rw [hresult, hlist, freePlaces_eq]
  rcases FirstFit.firstFit_spec (hordered.sorted (by decide)) hlen_pos hordered.span_le_top with
    ⟨a, hfound, hleast⟩ | ⟨hnone, hempty⟩
  · refine Or.inl ⟨a, ?_, hleast⟩
    rw [show MMAP_AREA_END.toNat = mmapAreas.top from rfl, hfound]
    rfl
  · refine Or.inr ⟨?_, hempty⟩
    rw [show MMAP_AREA_END.toNat = mmapAreas.top from rfl, hnone]
    rfl

/-- An address is no error number. -/
theorem natCast_ne_error (a : Nat) : (a : Int) ≠ -EINVAL := by
  have : 0 < EINVAL := by decide
  omega

/-- First fit: without a hint, `vm_area_map` returns the least page behind the first area from
which the rounded length is free up to the end of the mmap area, and `-EINVAL` exactly when there
is none. -/
theorem map_first_fit (hlist : AreaList mmapAreas s.list) (hpos : 1 ≤ length.toNat)
    (hmax : length.toNat ≤ MAX_LENGTH) (hprot : prot = 1 ∨ prot = 3) :
    (∀ a : Nat, (vmAreaMap s 0 length prot 0).1 = a ↔
      IsLeast (freePlaces s.list (pageCeil length.toNat)) a) ∧
    ((vmAreaMap s 0 length prot 0).1 = -EINVAL ↔
      freePlaces s.list (pageCeil length.toNat) = ∅) := by
  obtain ⟨tail, hcons, hordered⟩ := hlist
  rcases vmAreaMap_firstFit hcons hordered hpos hmax hprot with
    ⟨a, hresult, hleast⟩ | ⟨hresult, hempty⟩
  · rw [hresult]
    refine ⟨fun b => ?_, iff_of_false (natCast_ne_error a) hleast.nonempty.ne_empty⟩
    rw [Int.natCast_inj]
    constructor
    · intro heq
      exact heq ▸ hleast
    · exact hleast.unique
  · rw [hresult]
    refine ⟨fun b => iff_of_false (natCast_ne_error b).symm fun hb => ?_, iff_of_true rfl hempty⟩
    exact hb.nonempty.ne_empty hempty

/-- With a page of memory behind a gap of one page, two pages go behind that memory. -/
theorem map_first_fit_sample :
    (∀ a : Nat, (vmAreaMap onePage 0 0x1001 3 0).1 = a ↔
      IsLeast (freePlaces onePage.list (pageCeil (0x1001 : CInt).toNat)) a) ∧
    ((vmAreaMap onePage 0 0x1001 3 0).1 = -EINVAL ↔
      freePlaces onePage.list (pageCeil (0x1001 : CInt).toNat) = ∅) :=
  map_first_fit onePage_list (by decide) (by decide) (Or.inr rfl)

/-! ## With a hint -/

/-- Before the first area the search finds no place. -/
theorem placeAt_notFound {prot : U32} (hbefore : addr.toNat < memptr.vmStart.toNat)
    (hsize : memptr.vmStart.toNat ≤ memptr.vmEnd.toNat)
    (hold : Ordered k memptr.vmEnd.toNat rest) :
    placeAt addr len prot memptr rest = .notFound := by
  have hin : ¬ (memptr.vmStart ≤ addr ∧ memptr.vmEnd > addr) := fun h =>
    absurd (BitVec.le_def.mp h.1) (by omega)
  have hbehind : ¬ memptr.vmEnd ≤ addr := fun h => absurd (BitVec.le_def.mp h) (by omega)
  induction rest generalizing memptr with
  | nil => rw [placeAt, if_neg hin, if_neg hbehind]
  | cons next rest ih =>
      obtain ⟨_, hle, _, hnext, _, hrest⟩ := hold
      have hlow : addr.toNat < next.vmStart.toNat := by omega
      have hin' : ¬ (next.vmStart ≤ addr ∧ next.vmEnd > addr) := fun h =>
        absurd (BitVec.le_def.mp h.1) (by omega)
      have hbehind' : ¬ next.vmEnd ≤ addr := fun h => absurd (BitVec.le_def.mp h) (by omega)
      rw [placeAt, if_neg hin, if_neg fun h => hbehind h.1,
        ih hlow (by omega) hrest hin' hbehind']

/-- Behind the first area the search finds a place, or that the place is not free. -/
theorem placeAt_ne_notFound {prot : U32} (hbehind : memptr.vmEnd.toNat ≤ addr.toNat)
    (hold : Ordered k memptr.vmEnd.toNat rest) :
    placeAt addr len prot memptr rest ≠ .notFound := by
  have hin : ¬ (memptr.vmStart ≤ addr ∧ memptr.vmEnd > addr) := fun h =>
    absurd (BitVec.lt_def.mp h.2) (by omega)
  induction rest generalizing memptr with
  | nil =>
      rw [placeAt, if_neg hin, if_pos (BitVec.le_def.mpr hbehind)]
      split_ifs
      · intro h
        cases h
      · intro h
        cases h
  | cons next rest ih =>
      obtain ⟨_, _, _, _, _, hrest⟩ := hold
      rw [placeAt, if_neg hin]
      split_ifs with hgap hfits
      · intro h
        cases h
      · intro h
        cases h
      · have hstart : next.vmStart ≤ addr := by
          by_contra hlt
          exact hgap ⟨BitVec.le_def.mpr hbehind, BitVec.not_le.mp hlt⟩
        by_cases hend : addr < next.vmEnd
        · rw [placeAt_notFree hstart hend]
          intro h
          cases h
        · have hpast : next.vmEnd.toNat ≤ addr.toNat := BitVec.le_def.mp (BitVec.not_lt.mp hend)
          have hlater := ih hpast hrest fun h => hend h.2
          intro h
          cases hplace : placeAt addr len prot next rest with
          | placed edit => simp only [hplace, reduceCtorEq] at h
          | notFree => simp only [hplace, reduceCtorEq] at h
          | notFound => exact hlater hplace

/-- The range of a hint lies in the mmap area and is free. -/
def HintFree (list : List VmArea) (addr : U64) (n : Nat) : Prop :=
  MMAP_AREA_START.toNat ≤ addr.toNat ∧ addr.toNat + n ≤ MMAP_AREA_END.toNat ∧
    FreeRange addr.toNat (addr.toNat + n) list

/-- The page of the first area is not free. -/
theorem not_hintFree_of_head (tail : List VmArea) (hstart : MMAP_AREA_START.toNat ≤ addr.toNat)
    (hend : addr.toNat < HEAD_END) (hn : 0 < n) : ¬ HintFree (dummyNode :: tail) addr n := by
  intro h
  obtain ⟨_, _, hfree⟩ := h
  have hhead : HasAccess (dummyNode :: tail) addr.toNat 0 :=
    hasAccess_cons.mpr (Or.inl ⟨hstart, hend, rfl⟩)
  exact hfree _ _ hhead ⟨Nat.le_refl _, by omega⟩

/-- A hint is kept exactly if its range is free. -/
theorem placeAt_hintFree (prot : U32) (hordered : Ordered mmapAreas HEAD_END tail)
    (hlow : HEAD_END ≤ addr.toNat) (hpos : 0 < len.toNat)
    (hwrap : addr.toNat + len.toNat < 2 ^ 64) :
    (∃ edit, placeAt addr len prot dummyNode tail = .placed edit) ↔
      HintFree (dummyNode :: tail) addr len.toNat := by
  have hsum : (addr + len).toNat = addr.toNat + len.toNat := BitVec.toNat_add_of_lt hwrap
  have hstart := mmapAreaStart_lt_head
  have hnone : NoEmptyInside addr.toNat (addr.toNat + len.toNat) tail := by
    intro v hv hempty
    have hsize : v.vmStart.toNat + 1 ≤ v.vmEnd.toNat := (hordered.bounds hv).2.2.1
    rw [hempty] at hsize
    omega
  have hsizes : ∀ v ∈ tail, v.vmStart.toNat ≤ v.vmEnd.toNat := fun v hv =>
    Nat.le_trans (Nat.le_add_right _ _) (hordered.bounds hv).2.2.1
  have hbehind : Ordered mmapAreas dummyNode.vmEnd.toNat tail := hordered
  rw [placeAt_iff hbehind rfl hlow (by omega), hsum, clear_iff (by omega) hsizes, HintFree,
    freeRange_dummyNode hlow]
  constructor
  · intro h
    obtain ⟨hend, hfree, _⟩ := h
    exact ⟨by omega, hend, hfree⟩
  · intro h
    obtain ⟨_, hend, hfree⟩ := h
    exact ⟨hend, hfree, hnone⟩

/-- A call with a hint, by the outcome of the search. -/
theorem vmAreaMap_hint (hlist : s.list = dummyNode :: tail) (hne : addr ≠ 0)
    (hmax : length.toNat ≤ MAX_LENGTH) (hprot : prot = 1 ∨ prot = 3) :
    (vmAreaMap s addr length prot 0).1 =
      match placeAt addr (widen (alignedLength length)) prot dummyNode tail with
      | .placed _ => addr.toInt
      | .notFree => (vmAreaMap s 0 length prot 0).1
      | .notFound => -EINVAL := by
  have hflag : ¬ (0 : CInt) = MAP_FIXED := by decide
  simp only [vmAreaMap, if_neg (badMapArgs_of_good hmax hprot), Areas.create_of_cons hlist,
    if_neg hne, if_true, hlist, if_neg hflag]
  cases placeAt addr (widen (alignedLength length)) prot dummyNode tail <;> rfl

/-- A hint whose range does not wrap around: at a free range of the mmap area it is kept, before
the mmap area it is rejected, and anywhere else the call answers as it does without a hint. -/
theorem map_hint (hlist : AreaList mmapAreas s.list) (hne : addr ≠ 0) (hpos : 1 ≤ length.toNat)
    (hmax : length.toNat ≤ MAX_LENGTH) (hprot : prot = 1 ∨ prot = 3)
    (hwrap : addr.toNat + pageCeil length.toNat < 2 ^ 64) :
    (HintFree s.list addr (pageCeil length.toNat) →
      (vmAreaMap s addr length prot 0).1 = addr.toNat) ∧
    (addr.toNat < MMAP_AREA_START.toNat → (vmAreaMap s addr length prot 0).1 = -EINVAL) ∧
    (MMAP_AREA_START.toNat ≤ addr.toNat → ¬ HintFree s.list addr (pageCeil length.toNat) →
      (vmAreaMap s addr length prot 0).1 = (vmAreaMap s 0 length prot 0).1) := by
  obtain ⟨tail, hcons, hordered⟩ := hlist
  have hbehind : Ordered mmapAreas dummyNode.vmEnd.toNat tail := hordered
  have hlen := alignedLength_toNat hmax
  have hlen_pos := (goodLength (m := 0) (by omega) hpos hmax).2.2.1
  rw [hcons, vmAreaMap_hint hcons hne hmax hprot]
  rcases Nat.lt_or_ge addr.toNat MMAP_AREA_START.toNat with hbefore | hstart
  · rw [placeAt_notFound hbefore (by decide) hbehind]
    exact ⟨fun hfree => absurd hfree.1 (by omega), fun _ => rfl, fun h => absurd h (by omega)⟩
  rcases Nat.lt_or_ge addr.toNat HEAD_END with hhead | hlow
  · have hbusy := not_hintFree_of_head tail hstart hhead (hlen ▸ hlen_pos)
    rw [placeAt_notFree (BitVec.le_def.mpr hstart) (BitVec.lt_def.mpr hhead)]
    exact ⟨fun hfree => absurd hfree hbusy, fun h => absurd h (by omega), fun _ _ => rfl⟩
  have hplace := placeAt_hintFree prot hordered hlow hlen_pos (hlen.symm ▸ hwrap)
  rw [hlen] at hplace
  cases hfound : placeAt addr (widen (alignedLength length)) prot dummyNode tail with
  | placed edit =>
      have hfree := hplace.mp ⟨edit, hfound⟩
      have hbound := mmapAreaEnd_toNat
      have hend := hfree.2.1
      refine ⟨fun _ => BitVec.toInt_eq_toNat_of_lt (by omega), fun h => absurd h (by omega),
        fun _ hbusy => absurd hfree hbusy⟩
  | notFree =>
      have hbusy : ¬ HintFree (dummyNode :: tail) addr (pageCeil length.toNat) := by
        intro hfree
        obtain ⟨edit, hedit⟩ := hplace.mpr hfree
        rw [hfound] at hedit
        cases hedit
      exact ⟨fun hfree => absurd hfree hbusy, fun h => absurd h (by omega), fun _ _ => rfl⟩
  | notFound => exact absurd hfound (placeAt_ne_notFound hlow hbehind)

/-- A hint at the end of the gap before the page: the range of two pages is not free. -/
theorem map_hint_sample :
    (HintFree onePage.list 0x180201000 (pageCeil (0x2000 : CInt).toNat) →
      (vmAreaMap onePage 0x180201000 0x2000 1 0).1 = (0x180201000 : U64).toNat) ∧
    ((0x180201000 : U64).toNat < MMAP_AREA_START.toNat →
      (vmAreaMap onePage 0x180201000 0x2000 1 0).1 = -EINVAL) ∧
    (MMAP_AREA_START.toNat ≤ (0x180201000 : U64).toNat →
      ¬ HintFree onePage.list 0x180201000 (pageCeil (0x2000 : CInt).toNat) →
      (vmAreaMap onePage 0x180201000 0x2000 1 0).1 = (vmAreaMap onePage 0 0x2000 1 0).1) :=
  map_hint onePage_list (by decide) (by decide) (by decide) (Or.inl rfl) (by decide)

/-- A hint before the mmap area is rejected although there is room. -/
theorem low_hint_rejected :
    AreaList mmapAreas onePage.list ∧
      ¬ HintFree onePage.list 0x1000 (pageCeil (0x1000 : CInt).toNat) ∧
      (vmAreaMap onePage 0x1000 0x1000 1 0).1 = -EINVAL ∧
      (vmAreaMap onePage 0 0x1000 1 0).1 = 0x180201000 := by
  refine ⟨onePage_list, fun hfree => absurd hfree.1 (by decide), by decide, by decide⟩

end GemOS.Vm
