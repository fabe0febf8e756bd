import Mathlib.Tactic.SplitIfs
import GemOS.Vm.Areas

/-!
# Where new memory goes

`vm_area_map` rejects a call or places new memory next to one area of the list, at the hint or
behind the area (`vmAreaMap_cases`). `Splice` describes the edit; the facts about new memory are
inductions on it.
-/

namespace GemOS.Vm

variable {s : Areas} {addr len : U64} {prot : U32} {memptr next : VmArea} {areas rest : List VmArea}
variable {edit : Edit} {length flag : CInt}

/-- New memory `[addr, addr + len)` behind one of the areas, before the next one or the end of the
mmap area. -/
inductive Splice (addr len : U64) (prot : U32) : VmArea → List VmArea → Edit → Prop
  | between {memptr next : VmArea} {rest : List VmArea} (hbehind : memptr.vmEnd ≤ addr)
      (hfits : addr + len ≤ next.vmStart) :
      Splice addr len prot memptr (next :: rest) (placeBetween addr len prot memptr next rest)
  | last {memptr : VmArea} (hbehind : memptr.vmEnd ≤ addr) (hfits : addr + len ≤ MMAP_AREA_END) :
      Splice addr len prot memptr [] (placeLast addr len prot memptr)
  | later {memptr next : VmArea} {rest : List VmArea} {edit : Edit}
      (h : Splice addr len prot next rest edit) :
      Splice addr len prot memptr (next :: rest) (edit.cons memptr)

/-- `allocVMArea` finds no gap, or places the memory behind an area. -/
theorem allocVMArea_cases :
    allocVMArea len prot memptr rest = (-EINVAL, ⟨memptr :: rest, 0⟩) ∨
    ∃ area ∈ memptr :: rest, ∃ edit,
      allocVMArea len prot memptr rest = (area.vmEnd.toInt, edit) ∧
        Splice area.vmEnd len prot memptr rest edit := by
  induction rest generalizing memptr with
  | nil =>
      rw [allocVMArea]
      split_ifs with hfits
      · exact Or.inr ⟨memptr, List.mem_cons_self, _, rfl, .last (BitVec.le_refl _) hfits⟩
      · exact Or.inl rfl
  | cons next rest ih =>
      rw [allocVMArea]
      split_ifs with hfits
      · exact Or.inr ⟨memptr, List.mem_cons_self, _, rfl, .between (BitVec.le_refl _) hfits⟩
      · rcases @ih next with hnone | ⟨area, harea, edit, hfound, hsplice⟩
        · rw [hnone]
          exact Or.inl rfl
        · rw [hfound]
          exact Or.inr ⟨area, List.mem_cons_of_mem memptr harea, _, rfl, .later hsplice⟩

/-- `placeAt` places memory at the hint. -/
theorem placeAt_splice (h : placeAt addr len prot memptr rest = .placed edit) :
    Splice addr len prot memptr rest edit := by
  induction rest generalizing memptr edit with
  | nil =>
      rw [placeAt] at h
      split_ifs at h with hin hbehind hfits
      obtain rfl := Hint.placed.inj h
      exact .last hbehind hfits
  | cons next rest ih =>
      rw [placeAt] at h
      split_ifs at h with hin hbetween hfits
      · obtain rfl := Hint.placed.inj h
        exact .between hbetween.1 hfits
      · cases hrec : placeAt addr len prot next rest with
        | placed later =>
            simp only [hrec, Hint.placed.injEq] at h
            subst h
            exact .later (ih hrec)
        | notFree => simp [hrec] at h
        | notFound => simp [hrec] at h

/-- A hint is taken: `addr` lies behind an area of the list, and the new memory ends before the
next one, or before the end of the mmap area. -/
def TakesHint (addr len : U64) (areas : List VmArea) : Prop :=
  ∃ before area behind, areas = before ++ area :: behind ∧ area.vmEnd ≤ addr ∧
    match behind with
    | [] => addr + len ≤ MMAP_AREA_END
    | next :: _ => addr < next.vmStart ∧ addr + len ≤ next.vmStart

theorem TakesHint.cons (h : TakesHint addr len areas) : TakesHint addr len (memptr :: areas) := by
  obtain ⟨before, area, behind, rfl, h⟩ := h
  exact ⟨memptr :: before, area, behind, rfl, h⟩

/-- Memory is placed at the hint only if the hint can be taken. -/
theorem placeAt_takesHint {edit : Edit}
    (hplaced : placeAt addr len prot memptr rest = .placed edit) :
    TakesHint addr len (memptr :: rest) := by
  induction rest generalizing memptr edit with
  | nil =>
      rw [placeAt] at hplaced
      split_ifs at hplaced with hin hbehind hfits
      exact ⟨[], memptr, [], rfl, hbehind, hfits⟩
  | cons next rest ih =>
      rw [placeAt] at hplaced
      split_ifs at hplaced with hin hbetween hfits
      · exact ⟨[], memptr, next :: rest, rfl, hbetween.1, hbetween.2, hfits⟩
      · cases hrec : placeAt addr len prot next rest with
        | placed e => exact (ih hrec).cons
        | notFree => simp [hrec] at hplaced
        | notFound => simp [hrec] at hplaced

/-! ## The whole list -/

/-- An edit that does nothing. -/
theorem Areas.apply_same (s : Areas) : s.apply ⟨s.list, 0⟩ = s := by
  simp [Areas.apply]

theorem Areas.create_of_cons (h : s.list = memptr :: rest) : s.create = s := by
  rw [Areas.create, if_neg (by simp [h])]

theorem Areas.create_ne_nil (s : Areas) : ∃ memptr rest, s.create.list = memptr :: rest := by
  cases h : s.list with
  | nil => exact ⟨dummyNode, [], by simp [Areas.create, h]⟩
  | cons memptr rest => exact ⟨memptr, rest, by rw [Areas.create_of_cons h, h]⟩

/-- The first thing that `vm_area_map` does with good arguments is to create the list. -/
theorem vmAreaMap_create (hgood : ¬ badMapArgs length prot flag = true) :
    vmAreaMap s addr length prot flag = vmAreaMap s.create addr length prot flag := by
  obtain ⟨memptr, rest, hlist⟩ := s.create_ne_nil
  rw [vmAreaMap, vmAreaMap, if_neg hgood, if_neg hgood, Areas.create_of_cons hlist]

theorem Areas.alloc_cases (hlist : s.list = memptr :: rest) :
    s.alloc len prot = (-EINVAL, s) ∨
    ∃ area ∈ memptr :: rest, ∃ edit, s.alloc len prot = (area.vmEnd.toInt, s.apply edit) ∧
      Splice area.vmEnd len prot memptr rest edit := by
  rcases @allocVMArea_cases len prot memptr rest with hnone | ⟨area, harea, edit, hfound, hsplice⟩
  · refine Or.inl ?_
    simp only [Areas.alloc, hlist, hnone]
    rw [← hlist, Areas.apply_same]
  · refine Or.inr ⟨area, harea, edit, ?_, hsplice⟩
    simp only [Areas.alloc, hlist, hfound]

/-- `vm_area_map` changes nothing, or it places memory at the hint, or, unless the hint is to be
kept, behind some area. -/
theorem vmAreaMap_cases (hlist : s.list = memptr :: rest)
    (hgood : ¬ badMapArgs length prot flag = true) :
    vmAreaMap s addr length prot flag = (-EINVAL, s) ∨
    ∃ start edit, vmAreaMap s addr length prot flag = (start.toInt, s.apply edit) ∧
      Splice start (widen (alignedLength length)) prot memptr rest edit ∧
      (addr ≠ 0 ∧ start = addr ∧
          TakesHint addr (widen (alignedLength length)) (memptr :: rest) ∨
        flag ≠ MAP_FIXED ∧ ∃ area ∈ memptr :: rest, start = area.vmEnd) := by
  -- a search for a gap can only follow if the hint need not be kept
  have halloc : flag ≠ MAP_FIXED →
      s.alloc (widen (alignedLength length)) prot = (-EINVAL, s) ∨
      ∃ start edit, s.alloc (widen (alignedLength length)) prot = (start.toInt, s.apply edit) ∧
        Splice start (widen (alignedLength length)) prot memptr rest edit ∧
        (addr ≠ 0 ∧ start = addr ∧
            TakesHint addr (widen (alignedLength length)) (memptr :: rest) ∨
          flag ≠ MAP_FIXED ∧ ∃ area ∈ memptr :: rest, start = area.vmEnd) := by
    intro hflag
    refine (Areas.alloc_cases hlist).imp id ?_
    intro h
    obtain ⟨area, harea, edit, hfound, hsplice⟩ := h
    exact ⟨_, edit, hfound, hsplice, Or.inr ⟨hflag, area, harea, rfl⟩⟩
  rw [vmAreaMap, if_neg hgood, Areas.create_of_cons hlist]
  simp only [hlist]
  by_cases hzero : addr = 0
  · simp only [if_pos hzero]
    by_cases hfixed : flag = MAP_FIXED
    · exact Or.inl (if_pos hfixed)
    · rw [if_neg hfixed]
      exact halloc hfixed
  · simp only [if_neg hzero]
    cases hplace : placeAt addr (widen (alignedLength length)) prot memptr rest with
    | placed edit =>
        exact Or.inr ⟨addr, edit, rfl, placeAt_splice hplace,
          Or.inl ⟨hzero, rfl, placeAt_takesHint hplace⟩⟩
    | notFree =>
        by_cases hfixed : flag = MAP_FIXED
        · exact Or.inl (if_pos hfixed)
        · simp only [if_neg hfixed]
          exact halloc hfixed
    | notFound => exact Or.inl rfl

/-! ## The number of areas -/

/-- The count of an edit is the change of the length of the list. -/
theorem Splice.count (h : Splice addr len prot memptr rest edit) :
    edit.count = edit.list.length - (memptr :: rest).length := by
  induction h with
  | between hbehind hfits =>
      unfold placeBetween
      simp only
      split_ifs <;> simp only [List.length_cons] <;> omega
  | last hbehind hfits =>
      unfold placeLast
      split_ifs <;> rfl
  | later h ih =>
      simp only [Edit.cons, List.length_cons] at ih ⊢
      omega

end GemOS.Vm
