import GemOS.Lib.Runs
import GemOS.Vm.AreaEdits
import GemOS.Vm.AreaUnmap

/-!
# Areas over runs

The area list of a process after any calls of `vm_area_map`, `vm_area_unmap` and
`vm_area_mprotect`. One lemma for each call says when it keeps the invariant and how it changes
the access rights of addresses; `areaStep_inv` puts them together for runs.
-/

namespace GemOS.Vm

/-- Where the first area ends. -/
def HEAD_END : Nat := (MMAP_AREA_START + FOUR_KB).toNat

theorem mmapAreaStart_lt_head : MMAP_AREA_START.toNat < HEAD_END := by decide

/-- No list yet, or the first area and ordered areas behind it. -/
def AreasInv (k : AreaKind) (list : List VmArea) : Prop :=
  list = [] ∨ ∃ tail, list = dummyNode :: tail ∧ Ordered k HEAD_END tail

variable {k : AreaKind} {m : Nat} {s : Areas} {addr : U64} {length prot flag : CInt}
variable {tail areas : List VmArea} {a e : Nat}

/-- The kind of areas that the three calls produce; `least` is 1 where areas are not empty. -/
def mmapKind (least : Nat) : AreaKind :=
  ⟨least, MMAP_AREA_END.toNat, fun f => f = 1 ∨ f = 3⟩

theorem mmapKind_forMmap (hm : m ≤ 4096) : (mmapKind m).ForMmap :=
  ⟨hm, rfl, fun _ => id⟩

theorem Areas.create_list (hk : k.ForMmap) (h : AreasInv k s.list) :
    ∃ tail, s.create.list = dummyNode :: tail ∧ Ordered k HEAD_END tail := by
  rcases h with hnil | ⟨tail, hlist, hordered⟩
  · refine ⟨[], by simp [Areas.create, hnil], ?_⟩
    unfold Ordered
    rw [hk.top_eq]
    decide
  · exact ⟨tail, by simp [Areas.create, hlist], hordered⟩

/-- An edit behind the first area does not touch it: it has no access rights. -/
theorem AreasInv.of_extends {prot : U32} (h : Extends k prot dummyNode areas)
    (hprot : prot = 1 ∨ prot = 3) : AreasInv k areas := by
  obtain ⟨first, rest, rfl, _, _, _, hsame, hrest⟩ := h
  have hfirst : first = dummyNode := hsame (by rcases hprot with rfl | rfl <;> decide)
  subst hfirst
  exact Or.inr ⟨rest, rfl, hrest⟩

/-! ## `vm_area_map` -/

/-- The calls of `vm_area_map` that the invariant allows: rejected ones, and those with a length
from 1 to `MAX_LENGTH` whose address, if the memory is placed there, is a page and does not make
the range wrap around. -/
def MapOk (s : Areas) (addr : U64) (length prot flag : CInt) : Prop :=
  badMapArgs length prot flag = true ∨
  flag = MAP_FIXED ∧ ¬ TakesHint addr (widen (alignedLength length)) s.create.list ∨
  1 ≤ length.toNat ∧ length.toNat ≤ MAX_LENGTH ∧
    (TakesHint addr (widen (alignedLength length)) s.create.list →
      addr.toNat % 4096 = 0 ∧ addr.toNat + pageCeil length.toNat < 2 ^ 64)

/-- Memory with access `prot` has been added to a list, or nothing. -/
structure Mapped (k : AreaKind) (prot : U32) (old areas : List VmArea) : Prop where
  inv : AreasInv k areas
  access : ∃ a e, (∀ x f, HasAccess old x f → ¬ (a ≤ x ∧ x < e)) ∧
    ∀ x f, HasAccess areas x f ↔ HasAccess old x f ∨ a ≤ x ∧ x < e ∧ f = prot

theorem Mapped.same (h : AreasInv k areas) : Mapped k prot areas areas :=
  ⟨h, 0, 0, by simp, by simp⟩

theorem Mapped.of_placed (h : Placed k prot dummyNode tail a e areas)
    (hprot : prot = 1 ∨ prot = 3) : Mapped k prot (dummyNode :: tail) areas := by
  refine ⟨AreasInv.of_extends h.extends_first hprot, a, e, fun x f hx => ?_, h.access⟩
  rcases hasAccess_cons.mp hx with hx | hx
  · have := h.above
    omega
  · exact h.free x f hx

/-- What the code knows of a rounded length. -/
theorem goodLength (hm : m ≤ 4096) (hpos : 1 ≤ length.toNat) (hmax : length.toNat ≤ MAX_LENGTH) :
    (widen (alignedLength length)).toNat % 4096 = 0 ∧
      m ≤ (widen (alignedLength length)).toNat ∧
      0 < (widen (alignedLength length)).toNat ∧
      (widen (alignedLength length)).toNat ≤ 2 ^ 31 := by
  rw [alignedLength_toNat hmax, pageCeil]
  unfold MAX_LENGTH at hmax
  omega

/-- What `vm_area_map` can do with the list once it is there. -/
theorem vmAreaMap_placed (hlist : s.list = dummyNode :: tail) (hordered : Ordered k HEAD_END tail)
    (hk : k.ForMmap) (hgood : ¬ badMapArgs length prot flag = true) (hprot : prot = 1 ∨ prot = 3)
    (hok : MapOk s addr length prot flag) :
    vmAreaMap s addr length prot flag = (-EINVAL, s) ∨
    ∃ start edit, vmAreaMap s addr length prot flag = (start.toInt, s.apply edit) ∧
      Splice start (widen (alignedLength length)) prot dummyNode tail edit ∧
      GoodRange k start (widen (alignedLength length)) prot := by
  refine (vmAreaMap_cases hlist hgood).imp id ?_
  intro h'
  obtain ⟨start, edit, heq, hsplice, hwhere⟩ := h'
  refine ⟨start, edit, heq, hsplice, ?_⟩
  rw [MapOk, Areas.create_of_cons hlist, hlist] at hok
  obtain ⟨hpos, hmax, hhint⟩ := (hok.resolve_left hgood).resolve_left fun h =>
    hwhere.elim (fun hw => h.2 (hw.2.1 ▸ hw.2.2)) fun hw => hw.1 h.1
  obtain ⟨h4096, hsize, _, hsmall⟩ := goodLength hk.least_le hpos hmax
  rcases hwhere with ⟨_, rfl, htakes⟩ | ⟨_, area, harea, rfl⟩
  · obtain ⟨haligned, hwrap⟩ := hhint htakes
    rw [← alignedLength_toNat hmax] at hwrap
    exact ⟨haligned, h4096, hsize, hwrap, hk.flags_good _ hprot⟩
  · have hend : area.vmEnd.toNat % 4096 = 0 ∧ area.vmEnd.toNat ≤ MMAP_AREA_END.toNat := by
      rcases List.mem_cons.mp harea with rfl | harea
      · decide
      · exact hk.top_eq ▸ (hordered.bounds harea).2.2.2
    have hbound := mmapAreaEnd_toNat
    exact ⟨hend.1, h4096, hsize, by omega, hk.flags_good _ hprot⟩

/-- `vm_area_map` leaves the list as it was or adds memory. -/
theorem vmAreaMap_spec (hinv : AreasInv k s.list) (hk : k.ForMmap)
    (hok : MapOk s addr length prot flag) :
    (vmAreaMap s addr length prot flag).2 = s ∨
    (prot = 1 ∨ prot = 3) ∧
      Mapped k prot s.create.list (vmAreaMap s addr length prot flag).2.list := by
  obtain ⟨tail, hlist, hordered⟩ := Areas.create_list hk hinv
  have hcreated : AreasInv k s.create.list := Or.inr ⟨tail, hlist, hordered⟩
  by_cases hbad : badMapArgs length prot flag = true
  · exact Or.inl (by rw [vmAreaMap, if_pos hbad])
  have hprot : prot = 1 ∨ prot = 3 := by
    simp only [badMapArgs, decide_eq_true_eq] at hbad
    grind only
  refine Or.inr ⟨hprot, ?_⟩
  have hok' : MapOk s.create addr length prot flag := by
    rwa [MapOk, Areas.create_of_cons hlist]
  rw [vmAreaMap_create hbad]
  rcases vmAreaMap_placed hlist hordered hk hbad hprot hok' with
    hsame | ⟨start, edit, hplaced, hsplice, hrange⟩
  · rw [hsame]
    exact Mapped.same hcreated
  · have hbehind : Ordered k dummyNode.vmEnd.toNat tail := hordered
    rw [hplaced, hlist]
    exact Mapped.of_placed (hsplice.placed hbehind (by decide) hrange hk.top_eq) hprot

/-! ## `vm_area_mprotect` -/

/-- The calls of `vm_area_mprotect` that the invariant allows: rejected ones, and those where the
area that holds the address, if there is one, is not the first one and holds the whole rounded
range, which starts at a page and is not empty. -/
def ProtectOk (s : Areas) (addr : U64) (length prot : CInt) : Prop :=
  badProtectArgs length prot = true ∨
  ∀ v ∈ s.list, v.vmStart.toNat ≤ addr.toNat → addr.toNat < v.vmEnd.toNat →
    HEAD_END ≤ addr.toNat ∧ addr.toNat % 4096 = 0 ∧ 1 ≤ length.toNat ∧
      length.toNat ≤ MAX_LENGTH ∧ addr.toNat + pageCeil length.toNat ≤ v.vmEnd.toNat

/-- The access rights of a range have been overwritten, and the range given to `updateAllPFNs`. -/
structure Reprotected (k : AreaKind) (prot : U32) (old areas : List VmArea) (r : U64 × U64) :
    Prop where
  inv : AreasInv k areas
  access : ∀ x f, HasAccess areas x f ↔
    (r.1.toNat ≤ x ∧ x < r.2.toNat) ∧ f = prot ∨
      ¬ (r.1.toNat ≤ x ∧ x < r.2.toNat) ∧ HasAccess old x f
  prot_good : prot = 1 ∨ prot = 3
  range_good : PageRange r.1 r.2
  range_above : HEAD_END ≤ r.1.toNat
  range_inside : r.2.toNat ≤ k.top

/-- The search of `vm_area_mprotect` goes past the first area, unless that holds the address. -/
theorem vmAreaMprotect_cases (hlist : s.list = dummyNode :: tail)
    (hhead : dummyNode.vmStart ≤ addr → ¬ addr < dummyNode.vmEnd) :
    vmAreaMprotect s addr length prot = (-EINVAL, s, none) ∨
    ¬ badProtectArgs length prot = true ∧
      ∃ p, mprotectFrom addr (widen (alignedLength length)) prot dummyNode tail = some p ∧
        vmAreaMprotect s addr length prot = (0, s.apply ⟨p.prev :: p.fromPrev, p.count⟩,
          some (addr, addr + widen (alignedLength length))) := by
  by_cases hbad : badProtectArgs length prot = true
  · exact Or.inl (by rw [vmAreaMprotect, if_pos hbad])
  simp only [vmAreaMprotect, if_neg hbad, hlist, mprotectFrom]
  by_cases hstart : dummyNode.vmStart ≤ addr
  · simp only [if_pos hstart, if_neg (hhead hstart)]
    cases hfrom : mprotectFrom addr (widen (alignedLength length)) prot dummyNode tail with
    | none => exact Or.inl rfl
    | some p => exact Or.inr ⟨hbad, p, rfl, rfl⟩
  · simp only [if_neg hstart]
    exact Or.inl trivial

/-- `vm_area_mprotect` leaves the list as it was or changes the access of its range. -/
theorem vmAreaMprotect_spec (hinv : AreasInv k s.list) (hm : k.least ≤ 4096)
    (hflags : ∀ prot : U32, prot = 1 ∨ prot = 3 → k.flags prot)
    (hok : ProtectOk s addr length prot) :
    vmAreaMprotect s addr length prot = (-EINVAL, s, none) ∨
    ∃ s' r, vmAreaMprotect s addr length prot = (0, s', some r) ∧
      Reprotected k prot s.list s'.list r := by
  by_cases hbad : badProtectArgs length prot = true
  · exact Or.inl (by rw [vmAreaMprotect, if_pos hbad])
  have hprot : prot = 1 ∨ prot = 3 := by
    simp only [badProtectArgs, decide_eq_true_eq] at hbad
    grind only
  replace hok := hok.resolve_left hbad
  rcases hinv with hnil | ⟨tail, hlist, hordered⟩
  · refine Or.inl ?_
    simp only [vmAreaMprotect, if_neg hbad, hnil, mprotectFrom]
  have hhead : dummyNode.vmStart ≤ addr → ¬ addr < dummyNode.vmEnd := by
    intro hstart hend
    have hafter := (hok dummyNode (by simp [hlist]) (BitVec.le_def.mp hstart)
      (BitVec.lt_def.mp hend)).1
    exact absurd (Nat.lt_of_lt_of_le (BitVec.lt_def.mp hend) hafter) (Nat.lt_irrefl _)
  refine (vmAreaMprotect_cases hlist hhead).imp id ?_
  intro h
  obtain ⟨_, p, hfrom, heq⟩ := h
  refine ⟨_, _, heq, ?_⟩
  obtain ⟨v, hv, hstart, hend⟩ := mprotectFrom_some hfrom
  obtain ⟨hafter, haligned, hpos, hmax, hfits⟩ := hok v (by simp [hlist, hv]) hstart hend
  obtain ⟨h4096, hsize, hlen_pos, _⟩ := goodLength hm hpos hmax
  have hbound := (hordered.bounds hv).2.2.2.2
  rw [← alignedLength_toNat hmax] at hfits
  have hwrap : addr.toNat + (widen (alignedLength length)).toNat < 2 ^ 64 := by
    have := v.vmEnd.isLt
    omega
  have hbehind : Ordered k dummyNode.vmEnd.toNat tail := hordered
  have hchanged := mprotectFrom_changed hbehind hm (by decide)
    ⟨haligned, h4096, hsize, hwrap, hflags _ hprot⟩ hlen_pos
    (fun w hw hw_start hw_end => by
      have := (hok w (by simp [hlist, hw]) hw_start hw_end).2.2.2.2
      rwa [← alignedLength_toNat hmax] at this) hfrom
  have hsum : (addr + widen (alignedLength length)).toNat =
      addr.toNat + (widen (alignedLength length)).toNat := BitVec.toNat_add_of_lt hwrap
  have hsmall : (widen (alignedLength length)).toNat < 2 ^ 31 := by
    rw [alignedLength_toNat hmax, pageCeil]
    unfold MAX_LENGTH at hmax
    omega
  refine ⟨AreasInv.of_extends hchanged.extends_first hprot, fun x f => ?_, hprot,
    ⟨haligned, ?_, ?_, ?_⟩, hafter, ?_⟩
  · rw [hsum, hlist]
    exact hchanged.access x f
  all_goals
    simp only [hsum]
    omega

/-! ## `vm_area_unmap` -/

/-- The calls of `vm_area_unmap` that the invariant allows: those without effect, and those whose
range does not wrap around, misses the first area and is good for the areas behind it. -/
def UnmapOk (m : Nat) (s : Areas) (addr : U64) (length : CInt) : Prop :=
  length.toInt ≤ 0 ∨ s.list = [] ∨
  addr.toNat + length.toNat < 2 ^ 64 ∧
    (HEAD_END ≤ addr.toNat ∨ addr.toNat + length.toNat ≤ MMAP_AREA_START.toNat) ∧
    GoodUnmap m s.list.tail addr.toNat (addr.toNat + length.toNat)

/-- Where the memory that a call unmaps ends. -/
def unmapEnd (addr : U64) (length : CInt) : Nat :=
  if length.toInt ≤ 0 then addr.toNat else pageCeil (addr.toNat + length.toNat)

/-- The memory of a range is gone, and it has been given to `freeAllPFNs`. -/
structure Unmapping (k : AreaKind) (old areas : List VmArea) (a e : Nat)
    (freed : List (U64 × U64)) : Prop where
  inv : AreasInv k areas
  access : ∀ x f, HasAccess areas x f ↔ HasAccess old x f ∧ ¬ (a ≤ x ∧ x < e)
  freed_good : ∀ r ∈ freed, FreedRange k a e r
  freed_all : ∀ x f, HasAccess old x f → a ≤ x → x < e →
    ∃ r ∈ freed, r.1.toNat ≤ x ∧ x < r.2.toNat

/-- There was no memory in the range. -/
theorem Unmapping.none (h : AreasInv k areas)
    (hout : ∀ x f, HasAccess areas x f → ¬ (a ≤ x ∧ x < e)) : Unmapping k areas areas a e [] :=
  ⟨h, fun x f => ⟨fun hx => ⟨hx, hout x f hx⟩, And.left⟩, by simp,
    fun x f hx ha he => absurd ⟨ha, he⟩ (hout x f hx)⟩

/-- The loop goes past the first area if the range starts behind it. -/
theorem unmapFrom_head_after (hpos : ¬ length.toInt ≤ 0) (hlen : length.toNat < 2 ^ 31)
    (hwrap : addr.toNat + length.toNat < 2 ^ 64) (hafter : HEAD_END ≤ addr.toNat) :
    unmapFrom true (dummyNode :: tail) addr length =
      if tail = [] then ⟨0, dummyNode :: tail, 0, []⟩
      else { unmapFrom false tail addr length with
        list := dummyNode :: (unmapFrom false tail addr length).list } := by
  have hend : dummyNode.vmEnd.toNat = HEAD_END := rfl
  have hstart : dummyNode.vmStart.toNat ≤ HEAD_END := by decide
  have hsum : (addr + widen length).toNat = addr.toNat + length.toNat := by
    rw [BitVec.toNat_add_of_lt (by rwa [widen_toNat hlen]), widen_toNat hlen]
  have hpos' : 0 < length.toNat := by
    rw [BitVec.toInt_eq_toNat_of_lt (by omega)] at hpos
    omega
  have hbefore : ¬ (addr < dummyNode.vmStart ∧ addr + widen length ≥ dummyNode.vmStart) := fun h =>
    absurd (BitVec.lt_def.mp h.1) (by omega)
  have hinside : ¬ (dummyNode.vmStart ≤ addr ∧ dummyNode.vmEnd ≥ addr + widen length) := by
    intro h
    have := BitVec.le_def.mp h.2
    omega
  have hover : ¬ (dummyNode.vmStart ≤ addr ∧ dummyNode.vmEnd > addr ∧
      addr + widen length > dummyNode.vmEnd) := fun h => absurd (BitVec.lt_def.mp h.2.1) (by omega)
  have hstop : ¬ dummyNode.vmStart > addr + widen length := fun h =>
    absurd (BitVec.lt_def.mp h) (by omega)
  simp only [unmapFrom, if_neg hbefore, hpos, or_self, if_false, if_neg hinside, if_neg hover,
    hstop, false_or]

/-- The loop stops at the first area if the range ends before it. -/
theorem unmapFrom_head_before (tail : List VmArea) (hlen : length.toNat < 2 ^ 31)
    (hbefore : addr.toNat + length.toNat ≤ MMAP_AREA_START.toNat) :
    ∃ result, unmapFrom true (dummyNode :: tail) addr length =
      ⟨result, dummyNode :: tail, 0, []⟩ := by
  have hstart : dummyNode.vmStart.toNat = MMAP_AREA_START.toNat := rfl
  have hbound : MMAP_AREA_START.toNat < 2 ^ 64 := MMAP_AREA_START.isLt
  have he : addr.toNat + length.toNat = addr.toNat + length.toNat := rfl
  obtain ⟨addr', length', haddr', hlength', he', hlen', hclip⟩ :=
    clip_spec dummyNode he hlen (by omega)
  have hsum : (addr' + widen length').toNat = addr.toNat + length.toNat := by
    rw [BitVec.toNat_add_of_lt (by rw [widen_toNat hlen']; omega), widen_toNat hlen', he']
  rw [unmapFrom]
  simp only [haddr', hlength']
  by_cases hzero : length.toInt ≤ 0 ∨ length'.toInt ≤ 0
  · exact ⟨_, if_pos hzero⟩
  rw [not_or, BitVec.toInt_eq_toNat_of_lt (show 2 * length'.toNat < 2 ^ 32 by omega)] at hzero
  have hin : ¬ dummyNode.vmStart ≤ addr' := by
    intro h
    have := BitVec.le_def.mp h
    rcases hclip with ⟨_, _, rfl⟩ | ⟨_, rfl⟩ <;> omega
  have hstop : dummyNode.vmStart > addr' + widen length' := BitVec.lt_def.mpr (by
    have : ¬ dummyNode.vmStart.toNat ≤ addr'.toNat := fun h => hin (BitVec.le_def.mpr h)
    rcases hclip with ⟨_, _, rfl⟩ | ⟨_, rfl⟩ <;> omega)
  refine ⟨0, ?_⟩
  rw [if_neg (by
    rw [not_or, BitVec.toInt_eq_toNat_of_lt (show 2 * length'.toNat < 2 ^ 32 by omega)]
    exact hzero)]
  simp only [hin, false_and, if_false, hstop, true_or, if_true]

/-- `vm_area_unmap` for a range that misses the first area: it does nothing, or the loop runs on
the areas behind the first one. -/
theorem vmAreaUnmap_cases (hlist : s.list = dummyNode :: tail)
    (hrange : length.toInt ≤ 0 ∨ addr.toNat + length.toNat < 2 ^ 64 ∧
      (HEAD_END ≤ addr.toNat ∨ addr.toNat + length.toNat ≤ MMAP_AREA_START.toNat)) :
    (∃ result, vmAreaUnmap s addr length = (result, s, []) ∧
      (length.toInt ≤ 0 ∨ tail = [] ∨
        addr.toNat + length.toNat ≤ MMAP_AREA_START.toNat)) ∨
    ¬ length.toInt ≤ 0 ∧ HEAD_END ≤ addr.toNat ∧ addr.toNat + length.toNat < 2 ^ 64 ∧
      vmAreaUnmap s addr length = ((unmapFrom false tail addr length).result,
        s.apply ⟨dummyNode :: (unmapFrom false tail addr length).list,
          (unmapFrom false tail addr length).count⟩,
        (unmapFrom false tail addr length).freed) := by
  by_cases hneg : length.toInt < 0
  · exact Or.inl ⟨_, if_pos hneg, Or.inl (by omega)⟩
  have hlen := toNat_lt_of_nonneg hneg
  have hsame : s.apply ⟨dummyNode :: tail, 0⟩ = s := hlist ▸ s.apply_same
  rw [vmAreaUnmap, if_neg hneg, hlist]
  by_cases hzero : length.toInt ≤ 0
  · refine Or.inl ⟨-EINVAL, ?_, Or.inl hzero⟩
    simp only [unmapFrom, hzero, true_or, if_true, hsame]
  obtain ⟨hwrap, hafter | hbefore⟩ := hrange.resolve_left hzero
  · rw [unmapFrom_head_after hzero hlen hwrap hafter]
    by_cases htail : tail = []
    · refine Or.inl ⟨0, ?_, Or.inr (Or.inl htail)⟩
      simp only [if_pos htail, hsame]
    · refine Or.inr ⟨hzero, hafter, hwrap, ?_⟩
      simp only [if_neg htail]
  · obtain ⟨result, heq⟩ := unmapFrom_head_before tail hlen hbefore
    refine Or.inl ⟨result, ?_, Or.inr (Or.inr hbefore)⟩
    rw [heq]
    simp only [hsame]

/-- `vm_area_unmap` removes a range, which may be empty. -/
theorem vmAreaUnmap_spec (hinv : AreasInv k s.list) (hm : k.least ≤ 4096)
    (hok : UnmapOk k.least s addr length) :
    Unmapping k s.list (vmAreaUnmap s addr length).2.1.list addr.toNat (unmapEnd addr length)
      (vmAreaUnmap s addr length).2.2 := by
  rcases id hinv with hnil | ⟨tail, hlist, hordered⟩
  · have hnothing : (vmAreaUnmap s addr length).2 = (s, []) := by
      unfold vmAreaUnmap
      split_ifs
      · rfl
      · simp only [hnil, unmapFrom]
        rw [← hnil, s.apply_same]
    rw [hnothing]
    exact Unmapping.none hinv (by simp [hnil])
  have hgood : length.toInt ≤ 0 ∨ addr.toNat + length.toNat < 2 ^ 64 ∧
      (HEAD_END ≤ addr.toNat ∨ addr.toNat + length.toNat ≤ MMAP_AREA_START.toNat) ∧
      GoodUnmap k.least tail addr.toNat (addr.toNat + length.toNat) := by
    refine hok.imp id fun h => ?_
    have := h.resolve_left (by simp [hlist])
    rwa [hlist] at this
  rcases vmAreaUnmap_cases hlist (hgood.imp id fun h => ⟨h.1, h.2.1⟩) with
    ⟨result, heq, hnone⟩ | ⟨hzero, hafter, hwrap, heq⟩
  · -- there is no memory in the range
    rw [heq]
    refine Unmapping.none hinv fun x f hx => ?_
    unfold unmapEnd
    split_ifs with hzero
    · omega
    obtain ⟨_, hside, _⟩ := hgood.resolve_left hzero
    have hend : dummyNode.vmEnd.toNat = HEAD_END := rfl
    have hstart : MMAP_AREA_START.toNat ≤ x := by
      rw [hlist] at hx
      rcases hasAccess_cons.mp hx with hx | hx
      · exact hx.1
      · exact Nat.le_trans (by decide) (hordered.le_of_access hx)
    have haligned : MMAP_AREA_START.toNat % 4096 = 0 := by decide
    have hhead := mmapAreaStart_lt_head
    rcases hnone.resolve_left hzero with rfl | hbefore
    · simp only [hlist, hasAccess_cons, hasAccess_nil, or_false] at hx
      unfold pageCeil
      omega
    · unfold pageCeil
      omega
  · rw [heq, unmapEnd, if_neg hzero, hlist]
    have hlen := toNat_lt_of_nonneg (show ¬ length.toInt < 0 by omega)
    have hspec := unmapFrom_spec hordered hm rfl hlen hwrap (hgood.resolve_left hzero).2.2
    have hhead : ∀ x, x < dummyNode.vmEnd.toNat → x < addr.toNat := fun x hx =>
      Nat.lt_of_lt_of_le hx hafter
    refine ⟨Or.inr ⟨_, rfl, hspec.cleared.ordered⟩, fun x f => ?_, hspec.freed_good,
      fun x f hx ha he => ?_⟩
    · have hrest := hspec.cleared.access x f
      have := hhead x
      simp only [Areas.apply, hasAccess_cons, hrest]
      grind
    · rcases hasAccess_cons.mp hx with hx | hx
      · have := hhead x hx.2.1
        omega
      · exact hspec.freed_all x f hx ha he

/-! ## Page-aligned ranges -/

/-- A range of pages that is not empty, does not wrap around and misses the first area. -/
structure RangeOk (addr : U64) (length : CInt) : Prop where
  aligned : addr.toNat % 4096 = 0
  pos : 1 ≤ length.toNat
  small : length.toNat ≤ MAX_LENGTH
  no_wrap : addr.toNat + pageCeil length.toNat < 2 ^ 64
  outside : HEAD_END ≤ addr.toNat ∨
    addr.toNat + pageCeil length.toNat ≤ MMAP_AREA_START.toNat

theorem RangeOk.mapOk (h : RangeOk addr length) : MapOk s addr length prot flag :=
  Or.inr (Or.inr ⟨h.pos, h.small, fun _ => ⟨h.aligned, h.no_wrap⟩⟩)

theorem RangeOk.misses_head (h : RangeOk addr length) :
    addr.toNat + length.toNat < 2 ^ 64 ∧
      (HEAD_END ≤ addr.toNat ∨ addr.toNat + length.toNat ≤ MMAP_AREA_START.toNat) := by
  have hceil := le_pageCeil length.toNat
  have hwrap := h.no_wrap
  have houtside := h.outside
  omega

/-- Areas may become empty. -/
theorem RangeOk.goodUnmap (h : RangeOk addr length) (areas : List VmArea) :
    GoodUnmap 0 areas addr.toNat (addr.toNat + length.toNat) :=
  ⟨fun _ _ _ _ => h.aligned, fun _ _ _ _ => by have := h.small; omega, nofun⟩

theorem RangeOk.unmapOk (h : RangeOk addr length) : UnmapOk 0 s addr length :=
  Or.inr (Or.inr ⟨h.misses_head.1, h.misses_head.2, h.goodUnmap _⟩)

/-! ## Runs -/

/-- The calls that keep the areas ordered and not empty. -/
def AreaCallOk (s : Areas) : AreaCall → Prop
  | .map addr length prot flag => MapOk s addr length prot flag
  | .unmap addr length => UnmapOk 1 s addr length
  | .mprotect addr length prot => ProtectOk s addr length prot

/-- One call keeps the invariant. -/
theorem areaStep_inv {call : AreaCall} (hinv : AreasInv (mmapKind 1) s.list)
    (hok : AreaCallOk s call) :
    ∃ s', areaStep s call = some s' ∧ AreasInv (mmapKind 1) s'.list := by
  cases call with
  | map addr length prot flag =>
      refine ⟨_, rfl, ?_⟩
      rcases vmAreaMap_spec hinv (mmapKind_forMmap (by decide)) hok with hsame | ⟨_, hmapped⟩
      · exact hsame.symm ▸ hinv
      · exact hmapped.inv
  | unmap addr length =>
      exact ⟨_, rfl, (vmAreaUnmap_spec hinv (by decide) hok).inv⟩
  | mprotect addr length prot =>
      refine ⟨_, rfl, ?_⟩
      rcases vmAreaMprotect_spec hinv (by decide) (fun _ => id) hok with
        hsame | ⟨s', r, heq, hchanged⟩
      · rw [hsame]
        exact hinv
      · rw [heq]
        exact hchanged.inv

/-- The first area, and behind it areas in increasing order that do not overlap, are not empty,
start and end at pages of the mmap area and can be read or read and written. -/
structure WellOrdered (list : List VmArea) : Prop where
  first : list.head? = some dummyNode
  sorted : list.tail.Pairwise fun v w => v.vmEnd ≤ w.vmStart
  not_empty : ∀ v ∈ list.tail, v.vmStart < v.vmEnd
  aligned : ∀ v ∈ list.tail, v.vmStart.toNat % 4096 = 0 ∧ v.vmEnd.toNat % 4096 = 0
  access : ∀ v ∈ list.tail, v.accessFlags = 1 ∨ v.accessFlags = 3
  inside : ∀ v ∈ list.tail, MMAP_AREA_START + FOUR_KB ≤ v.vmStart ∧ v.vmEnd ≤ MMAP_AREA_END

theorem Ordered.pairwise {lo : Nat} (h : Ordered k lo areas) :
    areas.Pairwise fun v w => v.vmEnd ≤ w.vmStart := by
  induction areas generalizing lo with
  | nil => exact List.Pairwise.nil
  | cons v rest ih =>
      obtain ⟨_, _, _, _, _, hrest⟩ := h
      exact List.pairwise_cons.mpr
        ⟨fun w hw => BitVec.le_def.mpr (hrest.bounds hw).1, ih hrest⟩

theorem Ordered.access_good {lo : Nat} (h : Ordered k lo areas) :
    ∀ v ∈ areas, k.flags v.accessFlags := by
  induction areas generalizing lo with
  | nil => simp
  | cons v rest ih =>
      obtain ⟨_, _, _, _, hflags, hrest⟩ := h
      intro w hw
      rcases List.mem_cons.mp hw with rfl | hw
      · exact hflags
      · exact ih hrest w hw

/-- The invariant in terms of the areas. -/
theorem AreasInv.wellOrdered (h : AreasInv (mmapKind 1) areas) :
    areas = [] ∨ WellOrdered areas := by
  refine h.imp id ?_
  intro h'
  obtain ⟨tail, rfl, hordered⟩ := h'
  refine ⟨rfl, hordered.pairwise, fun v hv => ?_, fun v hv => ?_, hordered.access_good,
    fun v hv => ?_⟩ <;> obtain ⟨hlo, hstart, hsize, hend, hle⟩ := hordered.bounds hv
  · exact BitVec.lt_def.mpr hsize
  · exact ⟨hstart, hend⟩
  · exact ⟨BitVec.le_def.mpr hlo, BitVec.le_def.mpr hle⟩

/-- After any calls that meet the conditions, the list is well ordered once it is there. -/
theorem areas_well_ordered {nullArea : VmArea} {numVmArea : U64} {calls : List AreaCall}
    (hcalls : Runs.AllSteps areaStep AreaCallOk ⟨[], nullArea, numVmArea⟩ calls) :
    ∃ s, Runs.run areaStep ⟨[], nullArea, numVmArea⟩ calls = some s ∧
      (s.list = [] ∨ WellOrdered s.list) := by
  have hstep : ∀ (s : Areas) (call : AreaCall), AreasInv (mmapKind 1) s.list → AreaCallOk s call →
      ∃ s', areaStep s call = some s' ∧ AreasInv (mmapKind 1) s'.list :=
    fun s call hinv hok => areaStep_inv hinv hok
  have hstart : AreasInv (mmapKind 1) (⟨[], nullArea, numVmArea⟩ : Areas).list := Or.inl rfl
  obtain ⟨s, hrun, hinv⟩ := Runs.run_invariant hstep hstart hcalls
  exact ⟨s, hrun, hinv.wellOrdered⟩

/-- A process without areas. -/
def noAreas : Areas :=
  ⟨[], ⟨0, 0, 0⟩, 0⟩

/-- Three pages are mapped, the second one is made writable and the first one unmapped. -/
theorem areas_well_ordered_sample :
    ∃ s, Runs.run areaStep noAreas [.map 0 0x3000 1 0, .mprotect 0x180202000 0x1000 3,
        .unmap 0x180201000 0x1000] = some s ∧ (s.list = [] ∨ WellOrdered s.list) := by
  refine areas_well_ordered (.cons rfl ?_ (.cons rfl ?_ (.cons rfl ?_ trivial)))
  · exact Or.inr (Or.inr ⟨by decide, by decide, fun _ => ⟨by decide, by decide⟩⟩)
  · exact Or.inr (by decide)
  · exact Or.inr (Or.inr ⟨by decide, by decide, by decide, by decide, by decide⟩)

/-- Unmapping three pages of an area that has two leaves an area without any page. -/
theorem unmap_leaves_empty_area :
    ∃ s, Runs.run areaStep noAreas [.map 0 0x2000 1 0, .unmap 0x180201000 0x3000] = some s ∧
      ¬ (s.list = [] ∨ WellOrdered s.list) := by
  refine ⟨_, rfl, ?_⟩
  intro h
  rcases h with hnil | hordered
  · exact absurd hnil (by decide)
  · exact absurd hordered.not_empty (by decide)

end GemOS.Vm
