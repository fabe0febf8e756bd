import GemOS.Vm.AreaCounts
import GemOS.Vm.UnmapResults

/-!
# Ranges of `vm_area_mprotect`

A range inside one area gets the new access and nothing else changes. The code
compares the end of the range with the end of that one area and with nothing else, so a range
that goes on behind the area leaves the memory it ends in, or adds memory where there was none
(`protectArea_overrun`).
-/

namespace GemOS.Vm

variable {k : AreaKind} {s : Areas} {memptr prev v : VmArea} {tail areas rest post : List VmArea}
variable {addr len addrEnd : U64} {length prot : CInt} {x : Nat}

/-! ## The area that holds the address -/

/-- The search stops at the area that holds the address; the areas before it stay. -/
theorem mprotectFrom_at (len : U64) (prot : U32) (hold : Ordered k prev.vmEnd.toNat rest)
    (hv : v ∈ rest) (hstart : v.vmStart.toNat ≤ addr.toNat) (hend : addr.toNat < v.vmEnd.toNat) :
    ∃ before last post p, prev :: rest = before ++ last :: v :: post ∧
      mprotectFrom addr len prot prev rest = some p ∧
      p.prev :: p.fromPrev = before ++ (protectArea addr (addr + len) prot last v post).prev ::
        (protectArea addr (addr + len) prot last v post).fromPrev := by
  induction rest generalizing prev with
  | nil => cases hv
  | cons memptr rest ih =>
      obtain ⟨_, _, _, hsize, _, hrest⟩ := hold
      rw [mprotectFrom]
      rcases List.mem_cons.mp hv with rfl | hlater
      · rw [if_pos (BitVec.le_def.mpr hstart), if_pos (BitVec.lt_def.mpr hend)]
        exact ⟨[], prev, rest, _, rfl, rfl, rfl⟩
      · have hbehind := (hrest.bounds hlater).1
        have hle : memptr.vmStart ≤ addr := BitVec.le_def.mpr (by omega)
        have hpast : ¬ addr < memptr.vmEnd := fun h => absurd (BitVec.lt_def.mp h) (by omega)
        obtain ⟨before, last, post, p, hsplit, hfrom, hedit⟩ := ih hrest hlater
        rw [if_pos hle, if_neg hpast, hfrom]
        exact ⟨prev :: before, last, post, _, congrArg _ hsplit, rfl, congrArg _ hedit⟩

/-- `vm_area_mprotect` for an address behind the first area. -/
theorem vmAreaMprotect_found {p : Protected} (hlist : s.list = dummyNode :: tail)
    (hgood : ¬ badProtectArgs length prot = true) (hbehind : HEAD_END ≤ addr.toNat)
    (hfrom : mprotectFrom addr (widen (alignedLength length)) prot dummyNode tail = some p) :
    vmAreaMprotect s addr length prot = (0, s.apply ⟨p.prev :: p.fromPrev, p.count⟩,
      some (addr, addr + widen (alignedLength length))) := by
  have hend : dummyNode.vmEnd.toNat = HEAD_END := rfl
  have hstart : dummyNode.vmStart ≤ addr :=
    BitVec.le_def.mpr (Nat.le_trans (by decide) hbehind)
  have hpast : ¬ addr < dummyNode.vmEnd := fun h => absurd (BitVec.lt_def.mp h) (by omega)
  simp only [vmAreaMprotect, if_neg hgood, hlist, mprotectFrom, if_pos hstart, if_neg hpast, hfrom,
    Option.map_some]
  rfl

/-! ## Ranges inside an area -/

/-- Areas of any access, anywhere, none of them empty. -/
def pageAreas : AreaKind :=
  ⟨1, 2 ^ 64, fun _ => True⟩

/-- Address `x` lies in an area. -/
def Covered (list : List VmArea) (x : Nat) : Prop :=
  ∃ f, HasAccess list x f

/-- The access of `[a, e)` has become `prot`, and nothing else has changed. -/
structure ProtectEffect (prot : U32) (s s' : Areas) (a e : Nat) : Prop where
  covered : ∀ x, Covered s'.list x ↔ Covered s.list x
  inside : ∀ x f, a ≤ x → x < e → (HasAccess s'.list x f ↔ f = prot)
  outside : ∀ x f, ¬ (a ≤ x ∧ x < e) → (HasAccess s'.list x f ↔ HasAccess s.list x f)
  form : AreaList pageAreas s'.list
  count : s'.numVmArea = s.numVmArea + BitVec.ofInt 64 (s'.list.length - s.list.length)

theorem badProtectArgs_of_good (hlen : length.toNat < 2 ^ 31) (hprot : prot = 1 ∨ prot = 3) :
    ¬ badProtectArgs length prot = true := by
  have hnonneg : ¬ length.toInt < 0 := by
    rw [BitVec.toInt_eq_toNat_of_lt (by omega)]
    omega
  rw [badProtectArgs, decide_eq_true_eq]
  rcases hprot with rfl | rfl <;> simp [hnonneg]

/-- A range inside an area behind the first one: the call succeeds, the range has the new access,
and all else is as it was. -/
theorem mprotect_within (hlist : AreaList pageAreas s.list) (hv : v ∈ s.list.tail)
    (hstart : v.vmStart ≤ addr) (haligned : addr.toNat % 4096 = 0) (hpos : 1 ≤ length.toNat)
    (hmax : length.toNat ≤ MAX_LENGTH)
    (hfits : addr.toNat + pageCeil length.toNat ≤ v.vmEnd.toNat) (hprot : prot = 1 ∨ prot = 3) :
    ∃ s', vmAreaMprotect s addr length prot =
        (0, s', some (addr, addr + widen (alignedLength length))) ∧
      ProtectEffect prot s s' addr.toNat (addr.toNat + pageCeil length.toNat) := by
  obtain ⟨tail, hcons, hordered⟩ := hlist
  rw [hcons, List.tail_cons] at hv
  rw [BitVec.le_def] at hstart
  obtain ⟨hlow, _, _, _, _⟩ := hordered.bounds hv
  have hlen := alignedLength_toNat hmax
  obtain ⟨h4096, hsize, hlen_pos, _⟩ := goodLength (m := 1) (by omega) hpos hmax
  have hbound := v.vmEnd.isLt
  have hend : addr.toNat < v.vmEnd.toNat := by omega
  have hbehind : Ordered pageAreas dummyNode.vmEnd.toNat tail := hordered
  obtain ⟨_, _, _, p, _, hfrom, _⟩ := mprotectFrom_at
    (widen (alignedLength length)) prot hbehind hv hstart hend
  have hgood : ¬ badProtectArgs length prot = true := by
    unfold MAX_LENGTH at hmax
    exact badProtectArgs_of_good (by omega) hprot
  have honly : ∀ w ∈ tail, w.vmStart.toNat ≤ addr.toNat → addr.toNat < w.vmEnd.toNat →
      addr.toNat + (widen (alignedLength length)).toNat ≤ w.vmEnd.toNat := by
    intro w hw hw_start hw_end
    obtain rfl := hordered.inOrder.area_unique hv hw ⟨hstart, hend⟩ ⟨hw_start, hw_end⟩
    rwa [hlen]
  have hchanged := mprotectFrom_changed hbehind (by decide) (by decide)
    ⟨haligned, h4096, hsize, by omega, trivial⟩ hlen_pos honly hfrom
  rw [hlen] at hchanged
  have hflags : dummyNode.accessFlags ≠ prot := by
    rcases hprot with rfl | rfl <;> decide
  have haccess := hchanged.access
  rw [← hcons] at haccess
  have hold_covered : ∀ x, addr.toNat ≤ x → x < addr.toNat + pageCeil length.toNat →
      Covered s.list x := by
    intro x ha he
    exact ⟨v.accessFlags, v, by simp [hcons, hv], by omega, by omega, rfl⟩
  refine ⟨_, vmAreaMprotect_found hcons hgood (by omega) hfrom, ⟨fun x => ?_, fun x f ha he => ?_,
    fun x f hout => ?_, ?_, ?_⟩⟩
  · constructor
    · intro h
      obtain ⟨f, hf⟩ := h
      rcases (haccess x f).mp hf with ⟨hin, _⟩ | ⟨_, hf⟩
      · exact hold_covered x hin.1 hin.2
      · exact ⟨f, hf⟩
    · intro h
      obtain ⟨f, hf⟩ := h
      by_cases hin : addr.toNat ≤ x ∧ x < addr.toNat + pageCeil length.toNat
      · exact ⟨prot, (haccess x prot).mpr (Or.inl ⟨hin, rfl⟩)⟩
      · exact ⟨f, (haccess x f).mpr (Or.inr ⟨hin, hf⟩)⟩
  · refine (haccess x f).trans ⟨fun h => ?_, fun h => Or.inl ⟨⟨ha, he⟩, h⟩⟩
    exact (h.resolve_right fun hout => hout.1 ⟨ha, he⟩).2
  · refine (haccess x f).trans ⟨fun h => ?_, fun h => Or.inr ⟨hout, h⟩⟩
    exact (h.resolve_left fun hin => hout hin.1).2
  · exact (AreasInv.of_extends hchanged.extends_first hprot).resolve_left (List.cons_ne_nil _ _)
  · have hcount := mprotectFrom_count hfrom
    have hchange : p.count = (p.prev :: p.fromPrev).length - s.list.length := by
      rw [hcons, List.length_cons, List.length_cons]
      omega
    rw [Areas.apply, hchange]

/-- The page before the page that can be written is made readable only. -/
theorem mprotect_within_sample :
    let two : Areas := ⟨[dummyNode, ⟨0x180201000, 0x180203000, 3⟩], ⟨0, 0, 0⟩, 2⟩
    ∃ s', vmAreaMprotect two 0x180201000 0xFFF 1 =
        (0, s', some (0x180201000, 0x180201000 + widen (alignedLength 0xFFF))) ∧
      ProtectEffect 1 two s' (0x180201000 : U64).toNat
        ((0x180201000 : U64).toNat + pageCeil (0xFFF : CInt).toNat) := by
  intro two
  have hlist : AreaList pageAreas two.list :=
    ⟨_, rfl, by decide, by decide, by decide, by decide, trivial, by decide, by decide⟩
  exact mprotect_within (v := ⟨0x180201000, 0x180203000, 3⟩) hlist (List.mem_singleton.mpr rfl)
    (by decide) (by decide) (by decide) (by decide) (by decide) (Or.inl rfl)

/-! ## Ranges that go on behind the area -/

/-- The end of the range is no end of the area: some new area ends there, and what was to be left
of the area starts there. -/
theorem protectArea_overrun (addr : U64) (prot : U32) (rest : List VmArea)
    (hne : addrEnd ≠ memptr.vmEnd)
    (hprev : prev.vmStart.toNat ≤ prev.vmEnd.toNat) :
    ∃ areas, (protectArea addr addrEnd prot prev memptr rest).prev ::
        (protectArea addr addrEnd prot prev memptr rest).fromPrev = areas ++ rest ∧
      { memptr with vmStart := addrEnd } ∈ areas ∧
      ∃ w ∈ areas, w.vmStart.toNat ≤ addr.toNat ∧ w.vmEnd = addrEnd := by
  unfold protectArea
  simp only [ne_eq, hne, not_false_eq_true, and_true, and_false, if_false]
  by_cases hstart : addr = memptr.vmStart
  · simp only [hstart, not_true_eq_false, if_false, if_true]
    split_ifs with hjoins
    · refine ⟨[{ prev with vmEnd := addrEnd }, { memptr with vmStart := addrEnd }], rfl,
        by simp, _, List.mem_cons_self, ?_, rfl⟩
      rw [hjoins.1]
      exact hprev
    · exact ⟨[prev, ⟨memptr.vmStart, addrEnd, prot⟩, { memptr with vmStart := addrEnd }], rfl,
        by simp, ⟨memptr.vmStart, addrEnd, prot⟩, by simp, Nat.le_refl _, rfl⟩
  · simp only [hstart, not_false_eq_true, if_true]
    exact ⟨[prev, { memptr with vmEnd := addr }, ⟨addr, addrEnd, prot⟩,
      { memptr with vmStart := addrEnd }], rfl, by simp, ⟨addr, addrEnd, prot⟩, by simp,
      Nat.le_refl _, rfl⟩

/-- What is asked of a call, whatever its range: it fails and changes nothing, or it changes the
access of memory of its range; the same addresses are covered, and areas do not overlap. -/
structure ProtectKeeps (a : FrameAlloc) (pgd : Nat) (s : Space) (addr : U64)
    (length prot : CInt) : Prop where
  failed : (s.mprotect a pgd addr length prot).1 < 0 →
    (s.mprotect a pgd addr length prot).2.areas.list = s.areas.list ∧
      (s.mprotect a pgd addr length prot).2.machine.table = s.machine.table
  covered : ∀ x, Covered (s.mprotect a pgd addr length prot).2.areas.list x ↔
    Covered s.areas.list x
  inside : ∀ x f, HasAccess (s.mprotect a pgd addr length prot).2.areas.list x f →
    HasAccess s.areas.list x f ∨ f = prot
  outside : ∀ (x : Nat) (f : U32),
    ¬ (addr.toNat ≤ x ∧ (x : Int) < addr.toNat + (alignedLength length).toInt) →
    (HasAccess (s.mprotect a pgd addr length prot).2.areas.list x f ↔
      HasAccess s.areas.list x f)
  sorted : (s.mprotect a pgd addr length prot).2.areas.list.Pairwise fun v w =>
    v.vmEnd ≤ w.vmStart

/-- The list after a call whose range does not end where the area ends. -/
theorem vmAreaMprotect_overrun (hlist : s.list = dummyNode :: tail)
    (hordered : Ordered k HEAD_END tail) (hv : v ∈ tail) (hstart : v.vmStart.toNat ≤ addr.toNat)
    (hend : addr.toNat < v.vmEnd.toNat) (hgood : ¬ badProtectArgs length prot = true)
    (hne : addr + widen (alignedLength length) ≠ v.vmEnd) :
    ∃ before areas post, s.list = before ++ v :: post ∧
      (∃ rest, (vmAreaMprotect s addr length prot).2.1.list = rest ++ (areas ++ post)) ∧
      { v with vmStart := addr + widen (alignedLength length) } ∈ areas ∧
      ∃ w ∈ areas, w.vmStart.toNat ≤ addr.toNat ∧
        w.vmEnd = addr + widen (alignedLength length) := by
  have hbehind : Ordered k dummyNode.vmEnd.toNat tail := hordered
  have hlow := (hordered.bounds hv).1
  obtain ⟨before, last, post, p, hsplit, hfrom, hedit⟩ := mprotectFrom_at
    (widen (alignedLength length)) prot hbehind hv hstart hend
  have hlast : last.vmStart.toNat ≤ last.vmEnd.toNat := by
    have hmem : last ∈ dummyNode :: tail := by simp [hsplit]
    rcases List.mem_cons.mp hmem with rfl | hmem
    · decide
    · exact Nat.le_trans (Nat.le_add_right _ _) (hordered.bounds hmem).2.2.1
  obtain ⟨areas, hareas, hleft, hw⟩ := protectArea_overrun addr prot post hne hlast
  refine ⟨before ++ [last], areas, post, ?_, ⟨before, ?_⟩, hleft, hw⟩
  · rw [hlist, hsplit, List.append_assoc, List.singleton_append]
  · rw [vmAreaMprotect_found hlist hgood (by omega) hfrom, Areas.apply, hedit, hareas]

/-- The rounded length is positive only for a length that is not negative. -/
theorem alignedLength_pos (hpos : 0 < (alignedLength length).toInt) : ¬ length.toInt < 0 := by
  intro hneg
  have haligned := alignedLength_shift length
  have hsum : (length + 0xFFF).toNat = (length.toNat + 4095) % 2 ^ 32 := BitVec.toNat_add ..
  rw [BitVec.toInt_eq_toNat_cond] at hneg hpos
  split_ifs at hneg hpos <;> omega

/-- Addresses before the first area are in no area. -/
theorem not_covered_before (hlist : s.list = dummyNode :: tail)
    (hordered : Ordered k HEAD_END tail) (hx : x < MMAP_AREA_START.toNat) :
    ¬ Covered s.list x := by
  intro h
  obtain ⟨f, hf⟩ := h
  rw [hlist] at hf
  rcases hasAccess_cons.mp hf with ⟨hstart, _⟩ | hf
  · exact absurd hstart (Nat.not_le.mpr hx)
  · have := hordered.le_of_access hf
    have := mmapAreaStart_lt_head
    omega

/-- An accepted call with a range that leaves the area changes which addresses are covered, or
makes areas overlap. -/
theorem overrun_not_kept (hlist : s.list = dummyNode :: tail)
    (hordered : Ordered anyAreas HEAD_END tail) (hv : v ∈ tail)
    (hstart : v.vmStart.toNat ≤ addr.toNat) (hend : addr.toNat < v.vmEnd.toNat)
    (hgood : ¬ badProtectArgs length prot = true)
    (hover : v.vmEnd.toNat < addr.toNat + (widen (alignedLength length)).toNat)
    (hshort : (widen (alignedLength length)).toNat < 2 ^ 31)
    (hcovered : ∀ x, Covered (vmAreaMprotect s addr length prot).2.1.list x ↔ Covered s.list x)
    (hsorted : (vmAreaMprotect s addr length prot).2.1.list.Pairwise fun v w =>
      v.vmEnd ≤ w.vmStart) : False := by
  have hbound := v.vmEnd.isLt
  have haddr := addr.isLt
  have hsum : (addr + widen (alignedLength length)).toNat =
      (addr.toNat + (widen (alignedLength length)).toNat) % 2 ^ 64 := BitVec.toNat_add ..
  have hne : addr + widen (alignedLength length) ≠ v.vmEnd := by
    intro heq
    have := congrArg BitVec.toNat heq
    omega
  obtain ⟨before, areas, post, hsplit, ⟨rest, hnew⟩, hleft, w, hw, hw_start, hw_end⟩ :=
    vmAreaMprotect_overrun hlist hordered hv hstart hend hgood hne
  rw [hnew] at hcovered hsorted
  have hw_toNat := congrArg BitVec.toNat hw_end
  by_cases hwrap : addr.toNat + (widen (alignedLength length)).toNat < 2 ^ 64
  · -- the first address behind the area is now in `w`, so it was in a later area
    rw [Nat.mod_eq_of_lt hwrap] at hsum
    have hin : Covered (rest ++ (areas ++ post)) v.vmEnd.toNat :=
      ⟨w.accessFlags, w, by simp [hw], by omega, by omega, rfl⟩
    obtain ⟨f, u, hu, hu_start, hu_end, _⟩ := (hcovered _).mp hin
    have hu_post : u ∈ post := by
      have hall : Ordered anyAreas MMAP_AREA_START.toNat (before ++ v :: post) := by
        rw [← hsplit, hlist]
        exact ⟨by decide, Nat.le_refl _, by decide, by decide, trivial, hordered⟩
      have hpairs := List.pairwise_append.mp hall.pairwise
      rw [hsplit] at hu
      rcases List.mem_append.mp hu with hu | hu
      · have := BitVec.le_def.mp (hpairs.2.2 u hu v List.mem_cons_self)
        omega
      · rcases List.mem_cons.mp hu with rfl | hu
        · omega
        · exact hu
    have hapart := List.pairwise_append.mp (List.pairwise_append.mp hsorted).2.1
    have := BitVec.le_def.mp (hapart.2.2 w hw u hu_post)
    omega
  · -- what was to be left of the area starts below the first area
    have hin : Covered (rest ++ (areas ++ post)) (2 ^ 31) :=
      ⟨v.accessFlags, _, List.mem_append_right _ (List.mem_append_left _ hleft), by
        simp only
        omega, by
        simp only
        omega, rfl⟩
    exact not_covered_before hlist hordered (by decide) ((hcovered _).mp hin)

theorem mprotect_areas {s : Space} {a : FrameAlloc} {pgd : Nat} :
    (s.mprotect a pgd addr length prot).1 = (vmAreaMprotect s.areas addr length prot).1 ∧
      (s.mprotect a pgd addr length prot).2.areas =
        (vmAreaMprotect s.areas addr length prot).2.1 := by
  unfold Space.mprotect
  rcases vmAreaMprotect s.areas addr length prot with ⟨result, areas, _ | ⟨b, c⟩⟩ <;>
    exact ⟨rfl, rfl⟩

/-- For a range that goes on behind the area of its address, `vm_area_mprotect` keeps what it
should exactly if the access is none it accepts, so that the call fails. -/
theorem mprotect_overrun_iff {s : Space} {a : FrameAlloc} {pgd : Nat}
    (hlist : AreaList anyAreas s.areas.list) (hv : v ∈ s.areas.list.tail)
    (hstart : v.vmStart ≤ addr) (hend : addr < v.vmEnd)
    (hover : (v.vmEnd.toNat : Int) < addr.toNat + (alignedLength length).toInt) :
    ProtectKeeps a pgd s addr length prot ↔ prot ≠ 1 ∧ prot ≠ 3 := by
  obtain ⟨tail, hcons, hordered⟩ := hlist
  rw [hcons, List.tail_cons] at hv
  rw [BitVec.le_def] at hstart
  rw [BitVec.lt_def] at hend
  have hnonneg : ¬ length.toInt < 0 := alignedLength_pos (by omega)
  have hlen : (alignedLength length).toNat < 2 ^ 31 := by
    refine toNat_lt_of_nonneg ?_
    omega
  have hlen_int : (alignedLength length).toInt = (alignedLength length).toNat :=
    BitVec.toInt_eq_toNat_of_lt (by omega)
  constructor
  · intro hkeeps
    by_contra hprot
    have hgood : ¬ badProtectArgs length prot = true := by
      rw [badProtectArgs, decide_eq_true_eq]
      exact fun hbad => hbad.elim hnonneg hprot
    have hcovered := hkeeps.covered
    have hsorted := hkeeps.sorted
    rw [mprotect_areas.2] at hcovered hsorted
    exact overrun_not_kept hcons hordered hv hstart hend hgood
      (by rw [widen_toNat hlen]; omega) (by rw [widen_toNat hlen]; exact hlen) hcovered hsorted
  · intro hprot
    have hbad : badProtectArgs length prot = true := by
      rw [badProtectArgs, decide_eq_true_eq]
      exact Or.inr hprot
    have hsame : s.mprotect a pgd addr length prot = (-EINVAL, s) := by
      rw [Space.mprotect, vmAreaMprotect, if_pos hbad]
    have hall : Ordered anyAreas MMAP_AREA_START.toNat (dummyNode :: tail) :=
      ⟨by decide, Nat.le_refl _, by decide, by decide, trivial, hordered⟩
    constructor
    case sorted =>
      rw [hsame, hcons]
      exact hall.pairwise
    case failed => simp [hsame]
    case covered => simp [hsame]
    case inside =>
      rw [hsame]
      exact fun _ _ => Or.inl
    case outside => simp [hsame]

/-- Execute access is refused, so nothing is lost. -/
theorem mprotect_overrun_sample :
    ProtectKeeps nextFrame 1 onePageSpace 0x180202000 0x2000 4 := by
  have hlist : AreaList anyAreas onePageSpace.areas.list :=
    ⟨_, rfl, by decide, by decide, by decide, by decide, trivial, by decide, by decide⟩
  exact (mprotect_overrun_iff (v := ⟨0x180202000, 0x180203000, 3⟩) hlist
    (List.mem_singleton.mpr rfl) (by decide) (by decide) (by decide)).mpr ⟨by decide, by decide⟩

/-- Two pages from the start of the only page: the call succeeds, and the page behind it is covered
after it. -/
theorem mprotect_covers_gap :
    (onePageSpace.mprotect nextFrame 1 0x180202000 0x2000 1).1 = 0 ∧
    ¬ Covered onePageSpace.areas.list 0x180203000 ∧
    Covered (onePageSpace.mprotect nextFrame 1 0x180202000 0x2000 1).2.areas.list 0x180203000 ∧
    ¬ ProtectKeeps nextFrame 1 onePageSpace 0x180202000 0x2000 1 := by
  have hresult : (onePageSpace.mprotect nextFrame 1 0x180202000 0x2000 1).1 = 0 := by
    rw [mprotect_areas.1]
    decide
  have hnew : (onePageSpace.mprotect nextFrame 1 0x180202000 0x2000 1).2.areas.list =
      [dummyNode, ⟨0x180202000, 0x180204000, 1⟩, ⟨0x180204000, 0x180203000, 3⟩] := by
    rw [mprotect_areas.2]
    decide
  have hold : ¬ Covered onePageSpace.areas.list 0x180203000 := by
    intro h
    obtain ⟨f, v, hv, _, hv_end, _⟩ := h
    rcases List.mem_cons.mp hv with rfl | hv
    · exact absurd hv_end (by decide)
    · rw [List.mem_singleton.mp hv] at hv_end
      exact absurd hv_end (by decide)
  have hin : Covered (onePageSpace.mprotect nextFrame 1 0x180202000 0x2000 1).2.areas.list
      0x180203000 := by
    rw [hnew]
    exact ⟨1, _, by simp only [List.mem_cons]; exact Or.inr (Or.inl rfl), by decide, by decide, rfl⟩
  exact ⟨hresult, hold, hin, fun h => hold ((h.covered _).mp hin)⟩

end GemOS.Vm
