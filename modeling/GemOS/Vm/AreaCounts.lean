import GemOS.Lib.Runs
import GemOS.Vm.AreaRuns
import GemOS.Vm.Fork

/-!
# The number of areas

`stats->num_vm_area` is one counter for the areas of all processes. Every edit of a list changes
it by the change of the length of the list (`Splice.count`, `unmapFrom_count`,
`mprotectFrom_count`), and `do_cfork` adds the length of the new list. Only the first call of
`vm_area_map` of a process sets it.
-/

namespace GemOS.Vm

variable {k : AreaKind} {s : Areas} {memptr next prev v : VmArea} {tail areas rest : List VmArea}
variable {addr len : U64} {prot : U32} {edit : Edit} {length flag : CInt} {p : Protected}

/-! ## `vm_area_mprotect` -/

theorem protectArea_count {addrEnd : U64} :
    (protectArea addr addrEnd prot prev memptr rest).fromPrev.length =
      (memptr :: rest).length + (protectArea addr addrEnd prot prev memptr rest).count := by
  unfold protectArea
  simp only
  split_ifs with hmiddle hback hfront hjoins hjoins
  · simp only [List.length_cons]
    omega
  · cases hjoin : joiningNext addrEnd prot rest with
    | none =>
        simp only [List.length_cons]
        omega
    | some p =>
        obtain ⟨next, rest'⟩ := p
        obtain ⟨rfl, _⟩ := joiningNext_some hjoin
        simp only [List.length_cons]
        omega
  · simp only [List.length_cons]
    omega
  · simp only [List.length_cons]
    omega
  all_goals
    cases hjoin : joiningNext addrEnd prot rest with
    | none =>
        simp only [List.length_cons]
        omega
    | some p =>
        obtain ⟨next, rest'⟩ := p
        obtain ⟨rfl, _⟩ := joiningNext_some hjoin
        simp only [List.length_cons]
        omega

/-- An area with other access does not grow. -/
theorem protectArea_prev {addrEnd : U64} (hflags : prev.accessFlags ≠ prot) :
    (protectArea addr addrEnd prot prev memptr rest).prev = prev := by
  unfold protectArea
  simp only [hflags, false_and, and_false, if_false]
  split_ifs <;> cases joiningNext addrEnd prot rest <;> rfl

theorem mprotectFrom_count (h : mprotectFrom addr len prot prev rest = some p) :
    p.fromPrev.length = rest.length + p.count := by
  induction rest generalizing prev p with
  | nil => cases h
  | cons memptr rest ih =>
      rw [mprotectFrom] at h
      split_ifs at h with hstart hend
      · obtain rfl := Option.some.inj h
        exact protectArea_count
      · obtain ⟨q, hq, rfl⟩ := Option.map_eq_some_iff.mp h
        have := ih hq
        simp only [List.length_cons]
        omega

theorem mprotectFrom_prev (h : mprotectFrom addr len prot prev rest = some p)
    (hflags : prev.accessFlags ≠ prot) : p.prev = prev := by
  cases rest with
  | nil => cases h
  | cons memptr rest =>
      rw [mprotectFrom] at h
      split_ifs at h with hstart hend
      · obtain rfl := Option.some.inj h
        exact protectArea_prev hflags
      · obtain ⟨q, _, rfl⟩ := Option.map_eq_some_iff.mp h
        rfl

/-! ## `vm_area_map` -/

/-- An area with other access does not grow. -/
theorem Splice.first (h : Splice addr len prot memptr rest edit)
    (hflags : memptr.accessFlags ≠ prot) : ∃ tail, edit.list = memptr :: tail := by
  have hne : prot ≠ memptr.accessFlags := hflags.symm
  cases h with
  | between _ _ =>
      simp only [placeBetween, hne, and_false, false_and, if_false, not_false_eq_true, true_and]
      split_ifs <;> exact ⟨_, rfl⟩
  | last _ _ =>
      simp only [placeLast, hne, and_false, if_false]
      exact ⟨_, rfl⟩
  | later h => exact ⟨_, rfl⟩

/-! ## One process -/

/-- No list yet, or one that starts with the first area. -/
def HeadFirst (list : List VmArea) : Prop :=
  list = [] ∨ ∃ tail, list = dummyNode :: tail

/-- The counter has changed by the change of the length of the list. -/
structure Counted (s s' : Areas) : Prop where
  head : HeadFirst s'.list
  count : s'.numVmArea = s.numVmArea + BitVec.ofInt 64 (s'.list.length - s.list.length)

theorem Counted.refl (h : HeadFirst s.list) : Counted s s :=
  ⟨h, by simp⟩

theorem Counted.of_apply (hhead : HeadFirst edit.list)
    (hcount : edit.count = edit.list.length - s.list.length) : Counted s (s.apply edit) :=
  ⟨hhead, by rw [Areas.apply, hcount]⟩

theorem Counted.trans {s₁ s' : Areas} (h : Counted s s₁) (h' : Counted s₁ s') : Counted s s' := by
  refine ⟨h'.head, ?_⟩
  rw [h'.count, h.count, BitVec.add_assoc, ← BitVec.ofInt_add]
  congr 2
  omega

theorem badMapArgs_false {prot : CInt} (h : ¬ badMapArgs length prot flag = true) :
    prot = 1 ∨ prot = 3 := by
  simp only [badMapArgs, decide_eq_true_eq] at h
  grind only

/-- The list is there, or the call does not get as far as creating it, or its area is counted
first. -/
theorem vmAreaMap_counted {prot : CInt} (h : HeadFirst s.list)
    (hcreate : s.list ≠ [] ∨ badMapArgs length prot flag = true ∨ s.numVmArea = 0) :
    Counted s (vmAreaMap s addr length prot flag).2 := by
  by_cases hbad : badMapArgs length prot flag = true
  · rw [vmAreaMap, if_pos hbad]
    exact Counted.refl h
  have hcreated : Counted s s.create := by
    unfold Areas.create
    split_ifs with hnil
    · have hzero := (hcreate.resolve_left fun hne => hne hnil).resolve_left hbad
      exact ⟨Or.inr ⟨[], rfl⟩, by rw [hnil, hzero]; rfl⟩
    · exact Counted.refl h
  obtain ⟨tail, hlist⟩ : ∃ tail, s.create.list = dummyNode :: tail := by
    obtain ⟨memptr, rest, hcons⟩ := s.create_ne_nil
    obtain ⟨tail, htail⟩ := hcreated.head.resolve_left (by simp [hcons])
    exact ⟨tail, htail⟩
  rw [vmAreaMap_create hbad]
  rcases vmAreaMap_cases hlist hbad with hsame | ⟨start, edit, hplaced, hsplice, _⟩
  · rw [hsame]
    exact hcreated
  · have hflags : dummyNode.accessFlags ≠ prot := by
      rcases badMapArgs_false hbad with rfl | rfl <;> decide
    rw [hplaced]
    refine hcreated.trans (Counted.of_apply (Or.inr (hsplice.first hflags)) ?_)
    rw [hsplice.count, hlist]

theorem vmAreaMprotect_counted {prot : CInt} (h : HeadFirst s.list)
    (hhead : dummyNode.vmStart ≤ addr → ¬ addr < dummyNode.vmEnd) :
    Counted s (vmAreaMprotect s addr length prot).2.1 := by
  rcases id h with hnil | ⟨tail, hlist⟩
  · have hsame : (vmAreaMprotect s addr length prot).2.1 = s := by
      unfold vmAreaMprotect
      split_ifs
      · rfl
      · simp only [hnil, mprotectFrom]
    rw [hsame]
    exact Counted.refl h
  rcases vmAreaMprotect_cases hlist hhead with heq | ⟨hgood, p, hfrom, heq⟩ <;> rw [heq]
  · exact Counted.refl h
  · have hflags : dummyNode.accessFlags ≠ prot := by
      have hprot : prot = 1 ∨ prot = 3 := by
        simp only [badProtectArgs, decide_eq_true_eq] at hgood
        grind only
      rcases hprot with rfl | rfl <;> decide
    refine Counted.of_apply (Or.inr ⟨p.fromPrev, by rw [mprotectFrom_prev hfrom hflags]⟩) ?_
    have := mprotectFrom_count hfrom
    simp only [hlist, List.length_cons]
    omega

/-- What is asked of a range that `vm_area_unmap` removes: it does not wrap around and misses the
first area. -/
def MissesHead (addr : U64) (length : CInt) : Prop :=
  length.toInt ≤ 0 ∨ addr.toNat + length.toNat < 2 ^ 64 ∧
    (HEAD_END ≤ addr.toNat ∨ addr.toNat + length.toNat ≤ MMAP_AREA_START.toNat)

theorem vmAreaUnmap_counted (h : HeadFirst s.list) (hrange : MissesHead addr length) :
    Counted s (vmAreaUnmap s addr length).2.1 := by
  rcases id h with hnil | ⟨tail, hlist⟩
  · have hsame : (vmAreaUnmap s addr length).2.1 = s := by
      unfold vmAreaUnmap
      split_ifs
      · rfl
      · simp only [hnil, unmapFrom]
        rw [← hnil, s.apply_same]
    rw [hsame]
    exact Counted.refl h
  rcases vmAreaUnmap_cases hlist hrange with ⟨_, heq, _⟩ | ⟨_, _, _, heq⟩ <;> rw [heq]
  · exact Counted.refl h
  · refine Counted.of_apply (Or.inr ⟨_, rfl⟩) ?_
    simp only [unmapFrom_count, hlist, List.length_cons]
    omega

/-! ## All processes -/

/-- The area lists of all processes, the bytes at address 0 read as an area, and
`stats->num_vm_area`. -/
structure AreaSystem where
  lists : List (List VmArea)
  nullArea : VmArea
  numVmArea : U64

/-- What a call of process `i` works on. -/
def AreaSystem.areasOf (s : AreaSystem) (i : Nat) : Areas :=
  ⟨s.lists.getD i [], s.nullArea, s.numVmArea⟩

/-- A call of a process, or `do_cfork`. -/
inductive SystemCall where
  | call (i : Nat) (call : AreaCall)
  | fork (i : Nat)

/-- The processes after a call; `do_cfork` adds the child. -/
def systemStep (s : AreaSystem) : SystemCall → Option AreaSystem
  | .call i call =>
      if i < s.lists.length then
        (areaStep (s.areasOf i) call).map fun areas =>
          ⟨s.lists.set i areas.list, areas.nullArea, areas.numVmArea⟩
      else none
  | .fork i =>
      if i < s.lists.length then
        let child := copyVmAreas (s.lists.getD i [])
        some { s with lists := s.lists ++ [child]
                      numVmArea := s.numVmArea + BitVec.ofNat 64 child.length }
      else none

/-- The number of areas in all lists. -/
def areaTotal (lists : List (List VmArea)) : Nat :=
  (lists.map List.length).sum

/-- The calls that keep the count right: ranges that miss the first area, and no list is created
while there are other areas. -/
def SystemCallOk (s : AreaSystem) : SystemCall → Prop
  | .call i (.map _ length prot flag) => i < s.lists.length ∧
      (s.lists.getD i [] ≠ [] ∨ badMapArgs length prot flag = true ∨ areaTotal s.lists = 0)
  | .call i (.unmap addr length) => i < s.lists.length ∧ MissesHead addr length
  | .call i (.mprotect addr _ _) => i < s.lists.length ∧
      (dummyNode.vmStart ≤ addr → ¬ addr < dummyNode.vmEnd)
  | .fork i => i < s.lists.length

theorem areaTotal_set {lists : List (List VmArea)} {i : Nat} (hi : i < lists.length)
    (list : List VmArea) :
    (areaTotal (lists.set i list) : Int) =
      areaTotal lists + (list.length - (lists.getD i []).length) := by
  induction lists generalizing i with
  | nil => cases hi
  | cons first lists ih =>
      cases i with
      | zero =>
          simp only [areaTotal, List.set_cons_zero, List.map_cons, List.sum_cons,
            List.getD_cons_zero]
          omega
      | succ i =>
          have := ih (Nat.lt_of_succ_lt_succ hi)
          simp only [areaTotal, List.set_cons_succ, List.map_cons, List.sum_cons,
            List.getD_cons_succ] at this ⊢
          omega

/-- What holds of all processes. -/
structure CountInv (s : AreaSystem) : Prop where
  heads : ∀ list ∈ s.lists, HeadFirst list
  count : s.numVmArea = BitVec.ofInt 64 (areaTotal s.lists)

theorem CountInv.headOf {s : AreaSystem} (h : CountInv s) {i : Nat} (hi : i < s.lists.length) :
    HeadFirst (s.lists.getD i []) := by
  rw [List.getD_eq_getElem?_getD, List.getElem?_eq_getElem hi]
  exact h.heads _ (List.getElem_mem hi)

/-- What one process does to its list and the counter. -/
theorem CountInv.set {s : AreaSystem} (h : CountInv s) {i : Nat} (hi : i < s.lists.length)
    {areas : Areas} (hcounted : Counted (s.areasOf i) areas) :
    CountInv ⟨s.lists.set i areas.list, areas.nullArea, areas.numVmArea⟩ := by
  refine ⟨fun list hlist => ?_, ?_⟩
  · rcases List.mem_or_eq_of_mem_set hlist with hold | rfl
    · exact h.heads list hold
    · exact hcounted.head
  · rw [areaTotal_set hi, BitVec.ofInt_add, ← h.count]
    exact hcounted.count

/-- One call keeps the count right. -/
theorem systemStep_count {s : AreaSystem} {call : SystemCall} (h : CountInv s)
    (hok : SystemCallOk s call) : ∃ s', systemStep s call = some s' ∧ CountInv s' := by
  cases call with
  | call i call =>
      have hi : i < s.lists.length := by cases call <;> exact hok.1
      have hcounted : ∃ areas, areaStep (s.areasOf i) call = some areas ∧
          Counted (s.areasOf i) areas := by
        cases call with
        | map addr length prot flag =>
            refine ⟨_, rfl,
              vmAreaMap_counted (h.headOf hi) (hok.2.imp id (Or.imp id fun hzero => ?_))⟩
            show s.numVmArea = 0
            rw [h.count, hzero]
            rfl
        | unmap addr length => exact ⟨_, rfl, vmAreaUnmap_counted (h.headOf hi) hok.2⟩
        | mprotect addr length prot => exact ⟨_, rfl, vmAreaMprotect_counted (h.headOf hi) hok.2⟩
      obtain ⟨areas, hstep, hcounted⟩ := hcounted
      refine ⟨_, ?_, h.set hi hcounted⟩
      rw [systemStep, if_pos hi, hstep]
      rfl
  | fork i =>
      have hi : i < s.lists.length := hok
      refine ⟨_, if_pos hi, ⟨fun list hlist => ?_, ?_⟩⟩
      · rcases List.mem_append.mp hlist with hold | hnew
        · exact h.heads list hold
        · rw [List.mem_singleton.mp hnew]
          cases s.lists.getD i [] with
          | nil => exact Or.inl rfl
          | cons _ par => exact Or.inr ⟨par, rfl⟩
      · have htotal : areaTotal (s.lists ++ [copyVmAreas (s.lists.getD i [])]) =
            areaTotal s.lists + (copyVmAreas (s.lists.getD i [])).length := by
          simp [areaTotal]
        show s.numVmArea + BitVec.ofNat 64 _ = _
        rw [htotal, Int.natCast_add, BitVec.ofInt_add,
          BitVec.ofInt_natCast _ (copyVmAreas _).length,
          h.count]

/-- After any calls of any processes that meet the conditions, the counter is the number of all
areas. -/
theorem num_vm_area_exact {processes : Nat} {nullArea : VmArea} {calls : List SystemCall}
    (hcalls : Runs.AllSteps systemStep SystemCallOk ⟨List.replicate processes [], nullArea, 0⟩
      calls) :
    ∃ s, Runs.run systemStep ⟨List.replicate processes [], nullArea, 0⟩ calls = some s ∧
      s.numVmArea = BitVec.ofNat 64 (areaTotal s.lists) := by
  have hstart : CountInv ⟨List.replicate processes [], nullArea, 0⟩ := by
    refine ⟨fun list hlist => Or.inl (List.eq_of_mem_replicate hlist), ?_⟩
    simp [areaTotal]
  have hstep : ∀ (s : AreaSystem) (call : SystemCall), CountInv s → SystemCallOk s call →
      ∃ s', systemStep s call = some s' ∧ CountInv s' := fun _ _ h hok => systemStep_count h hok
  obtain ⟨s, hrun, hinv⟩ := Runs.run_invariant hstep hstart hcalls
  exact ⟨s, hrun, hinv.count.trans (BitVec.ofInt_natCast _ _)⟩

/-- A process maps a page and forks, and the child maps another page. -/
theorem num_vm_area_exact_sample :
    ∃ s, Runs.run systemStep ⟨List.replicate 1 [], ⟨0, 0, 0⟩, 0⟩
        [.call 0 (.map 0 0x1000 1 0), .fork 0, .call 1 (.map 0 0x1000 3 0)] = some s ∧
      s.numVmArea = BitVec.ofNat 64 (areaTotal s.lists) := by
  refine num_vm_area_exact (.cons rfl ?_ (.cons rfl ?_ (.cons rfl ?_ trivial)))
  · exact ⟨by decide, Or.inr (Or.inr rfl)⟩
  · exact (by decide : 0 < 1)
  · exact ⟨by decide, Or.inl (by decide)⟩

/-- The first page that a second process maps sets the counter to the number of its areas. -/
theorem first_map_resets_count :
    ∃ s, Runs.run systemStep ⟨List.replicate 2 [], ⟨0, 0, 0⟩, 0⟩
        [.call 0 (.map 0 0x1000 1 0), .call 1 (.map 0 0x1000 1 0)] = some s ∧
      s.numVmArea ≠ BitVec.ofNat 64 (areaTotal s.lists) :=
  ⟨_, rfl, by decide⟩

end GemOS.Vm
