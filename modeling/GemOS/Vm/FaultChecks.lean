import GemOS.Vm.AreaCounts
import GemOS.Vm.FaultEffects
import GemOS.Vm.FrameRuns

/-!
# Which faults are granted

`vm_area_pagefault` compares the access flags of the first area that holds the address for equality
with 1. That is enough as long as the flags are 1 or 3; the first node of the list has 0. The
invariant below holds after any calls, whatever their arguments; the runs of `faults_checked_iff`
do not free the first node, which `os_alloc` could hand out again.
-/

namespace GemOS.Vm

variable {a : FrameAlloc} {m m' : Machine} {pgd : Nat} {x y addr : U64} {s : Space} {st : Areas}
variable {accessFlags f prot : U32} {errorCode length flag : CInt} {len : U64} {e : Edit}
variable {areas list rest : List VmArea} {vma prev memptr next : VmArea} {P : U32 → Prop}

/-! ## Access flags after any call -/

/-- The access flags of all areas satisfy `P`. -/
def FlagsAll (P : U32 → Prop) (list : List VmArea) : Prop :=
  ∀ v ∈ list, P v.accessFlags

/-- An empty list has no flags that could fail. -/
@[simp] theorem flagsAll_nil : FlagsAll P [] :=
  fun _ h => absurd h List.not_mem_nil

/-- The flags of the first area and of the others. -/
@[simp] theorem flagsAll_cons : FlagsAll P (vma :: list) ↔ P vma.accessFlags ∧ FlagsAll P list :=
  List.forall_mem_cons

/-- Placing an area between two others: the list gets the flags asked for at most. -/
theorem placeBetween_flags (hprot : P prot) (h : FlagsAll P (memptr :: next :: rest)) :
    FlagsAll P (placeBetween addr len prot memptr next rest).list := by
  simp only [flagsAll_cons] at h
  unfold placeBetween
  simp only
  split_ifs <;> simp [h, hprot]

/-- Placing an area behind the last one. -/
theorem placeLast_flags (hprot : P prot) (h : P memptr.accessFlags) :
    FlagsAll P (placeLast addr len prot memptr).list := by
  unfold placeLast
  split_ifs <;> simp [h, hprot]

/-- Placing an area in the first gap that is large enough. -/
theorem allocVMArea_flags (hprot : P prot) (h : FlagsAll P (memptr :: rest)) :
    FlagsAll P (allocVMArea len prot memptr rest).2.list := by
  induction rest generalizing memptr with
  | nil =>
      rw [allocVMArea]
      split_ifs
      · exact placeLast_flags hprot (flagsAll_cons.mp h).1
      · exact h
  | cons next rest ih =>
      rw [allocVMArea]
      split_ifs
      · exact placeBetween_flags hprot h
      · exact flagsAll_cons.mpr ⟨(flagsAll_cons.mp h).1, ih (flagsAll_cons.mp h).2⟩

/-- Placing an area at a hint. -/
theorem placeAt_flags (hprot : P prot) (h : FlagsAll P (memptr :: rest))
    (hplaced : placeAt addr len prot memptr rest = .placed e) : FlagsAll P e.list := by
  induction rest generalizing memptr e with
  | nil =>
      rw [placeAt] at hplaced
      split_ifs at hplaced
      obtain rfl := Hint.placed.inj hplaced
      exact placeLast_flags hprot (flagsAll_cons.mp h).1
  | cons next rest ih =>
      rw [placeAt] at hplaced
      split_ifs at hplaced
      · obtain rfl := Hint.placed.inj hplaced
        exact placeBetween_flags hprot h
      · cases hrest : placeAt addr len prot next rest with
        | placed e₁ =>
            rw [hrest] at hplaced
            obtain rfl := Hint.placed.inj hplaced
            exact flagsAll_cons.mpr ⟨(flagsAll_cons.mp h).1, ih (flagsAll_cons.mp h).2 hrest⟩
        | notFree =>
            rw [hrest] at hplaced
            cases hplaced
        | notFound =>
            rw [hrest] at hplaced
            cases hplaced

/-- `allocVMArea` from the start of the list. -/
theorem Areas.alloc_flags (hprot : P prot) (h : FlagsAll P st.list) :
    FlagsAll P (st.alloc len prot).2.list := by
  unfold Areas.alloc
  cases hlist : st.list with
  | nil =>
      simp only [hlist]
      exact flagsAll_nil
  | cons memptr rest =>
      rw [hlist] at h
      exact allocVMArea_flags hprot h

/-- `vm_area_map` adds flags that it has checked, and those of the head node. -/
theorem vmAreaMap_flags (hdummy : P 0) (h1 : P 1) (h3 : P 3) (h : FlagsAll P st.list) :
    FlagsAll P (vmAreaMap st addr length prot flag).2.list := by
  unfold vmAreaMap
  by_cases hbad : badMapArgs length prot flag = true
  · rw [if_pos hbad]
    exact h
  · have hprot : P prot := (badMapArgs_false hbad).elim (fun heq => heq ▸ h1) fun heq => heq ▸ h3
    have hcreate : FlagsAll P st.create.list := by
      unfold Areas.create
      split_ifs
      · exact flagsAll_cons.mpr ⟨hdummy, flagsAll_nil⟩
      · exact h
    -- without a place at `addr`, the first gap is taken, unless that is ruled out
    have halloc : ∀ c : Prop, [Decidable c] → FlagsAll P (if c then (-EINVAL, st.create)
        else st.create.alloc (widen (alignedLength length)) prot).2.list := by
      intro c _
      split_ifs
      · exact hcreate
      · exact Areas.alloc_flags hprot hcreate
    rw [if_neg hbad]
    by_cases haddr : addr = 0
    · rw [if_pos haddr]
      exact halloc _
    · rw [if_neg haddr]
      cases hlist : st.create.list with
      | nil => exact hcreate
      | cons memptr rest =>
          simp only
          cases hplace : placeAt addr (widen (alignedLength length)) prot memptr rest with
          | placed e => exact placeAt_flags hprot (hlist ▸ hcreate) hplace
          | notFree => exact halloc _
          | notFound => exact hcreate

/-- The area that a changed range is joined with is the next one of the list. -/
theorem joiningNext_mem {addrEnd : U64} {next : VmArea} {rest' : List VmArea}
    (h : joiningNext addrEnd prot rest = some (next, rest')) : rest = next :: rest' := by
  cases rest with
  | nil => cases h
  | cons v rest =>
      rw [joiningNext] at h
      split_ifs at h
      obtain ⟨rfl, rfl⟩ := Prod.mk.inj (Option.some.inj h)
      rfl

/-- The area before the changed one keeps its access; the others have the old or the new one. -/
structure FlagsKept (P : U32 → Prop) (prev : VmArea) (p : Protected) : Prop where
  prev : p.prev.accessFlags = prev.accessFlags
  fromPrev : FlagsAll P p.fromPrev
  fromArea : FlagsAll P p.fromArea

/-- Splitting and joining areas in `vm_area_mprotect` gives each piece the old flags or the new
ones. -/
theorem protectArea_flags {addrEnd : U64} (hprot : P prot) (h : FlagsAll P (memptr :: rest)) :
    FlagsKept P prev (protectArea addr addrEnd prot prev memptr rest) := by
  have hmemptr := (flagsAll_cons.mp h).1
  have hrest := (flagsAll_cons.mp h).2
  unfold protectArea
  simp only
  cases hjoin : joiningNext addrEnd prot rest with
  | none =>
      simp only
      split_ifs <;> constructor <;> simp [hprot, hmemptr, hrest]
  | some pair =>
      obtain ⟨next, rest'⟩ := pair
      rw [joiningNext_mem hjoin, flagsAll_cons] at hrest
      rw [joiningNext_mem hjoin]
      simp only
      split_ifs <;> constructor <;> simp [hprot, hmemptr, hrest]

/-- The loop of `vm_area_mprotect`. -/
theorem mprotectFrom_flags {p : Protected} (hprot : P prot) (h : FlagsAll P list)
    (hsome : mprotectFrom addr len prot prev list = some p) : FlagsKept P prev p := by
  induction list generalizing prev p with
  | nil => cases hsome
  | cons memptr rest ih =>
      rw [mprotectFrom] at hsome
      split_ifs at hsome
      · obtain rfl := Option.some.inj hsome
        exact protectArea_flags hprot h
      · obtain ⟨q, hq, rfl⟩ := Option.map_eq_some_iff.mp hsome
        obtain ⟨hprev, hfrom, _⟩ := ih (flagsAll_cons.mp h).2 hq
        have hall : FlagsAll P (q.prev :: q.fromPrev) :=
          flagsAll_cons.mpr ⟨hprev ▸ (flagsAll_cons.mp h).1, hfrom⟩
        exact ⟨rfl, hall, hall⟩

/-- The permissions that `vm_area_mprotect` accepts. -/
theorem badProtectArgs_false (h : ¬ badProtectArgs length prot = true) : prot = 1 ∨ prot = 3 := by
  simp only [badProtectArgs, decide_eq_true_eq] at h
  grind only

/-- `vm_area_mprotect` sets flags that it has checked. -/
theorem vmAreaMprotect_flags (h1 : P 1) (h3 : P 3) (h : FlagsAll P st.list) :
    FlagsAll P (vmAreaMprotect st addr length prot).2.1.list := by
  unfold vmAreaMprotect
  by_cases hbad : badProtectArgs length prot = true
  · rw [if_pos hbad]
    exact h
  · have hprot : P prot :=
      (badProtectArgs_false hbad).elim (fun heq => heq ▸ h1) fun heq => heq ▸ h3
    rw [if_neg hbad]
    simp only
    cases hsome : mprotectFrom addr (widen (alignedLength length)) prot st.nullArea st.list with
    | none => exact h
    | some p => exact (mprotectFrom_flags hprot h hsome).fromArea

/-- Cutting a range out of an area sets no flags. -/
theorem unmapInside_flags {isHead : Bool} (h : FlagsAll P (memptr :: rest)) :
    FlagsAll P (unmapInside isHead addr len memptr rest).list := by
  have hmemptr := (flagsAll_cons.mp h).1
  have hrest := (flagsAll_cons.mp h).2
  unfold unmapInside
  cases isHead <;> split_ifs <;> simp_all

/-- The loop of `vm_area_unmap` sets no flags. -/
theorem unmapFrom_flags {isHead : Bool} (h : FlagsAll P list) :
    FlagsAll P (unmapFrom isHead list addr length).list := by
  induction list generalizing isHead addr length with
  | nil => exact flagsAll_nil
  | cons memptr rest ih =>
      have hrest := (flagsAll_cons.mp h).2
      have hshrunk : ∀ {l newEnd}, FlagsAll P l →
          FlagsAll P ({ memptr with vmEnd := newEnd } :: l) := fun hl =>
        flagsAll_cons.mpr ⟨(flagsAll_cons.mp h).1, hl⟩
      rw [unmapFrom]
      simp only
      -- which part of the range is looked at does not matter
      generalize (if addr < memptr.vmStart ∧ addr + widen length ≥ memptr.vmStart
        then memptr.vmStart else addr) = addr'
      generalize (if addr < memptr.vmStart ∧ addr + widen length ≥ memptr.vmStart
        then (addr + widen length - memptr.vmStart).setWidth 32 else length) = length'
      split_ifs
      · exact h
      · exact unmapInside_flags h
      · cases rest with
        | nil => exact hshrunk flagsAll_nil
        | cons next rest =>
            simp only
            split_ifs
            · exact hshrunk hrest
            · exact hshrunk (ih hrest)
      · exact h
      · exact hshrunk (ih hrest)

/-- `vm_area_unmap` sets no flags. -/
theorem vmAreaUnmap_flags (h : FlagsAll P st.list) :
    FlagsAll P (vmAreaUnmap st addr length).2.1.list := by
  unfold vmAreaUnmap
  split_ifs
  · exact h
  · exact unmapFrom_flags h

/-! ## Runs -/

/-- The access flags that areas have: none for the first node, else 1 or 3. -/
def KnownFlags (f : U32) : Prop :=
  f = 0 ∨ f = 1 ∨ f = 3

/-- What holds of a process after any calls and faults. -/
structure FaultInv (pgd : Nat) (s : Space) : Prop where
  flags : FlagsAll KnownFlags s.areas.list
  tidy : Tidy {pgd} Set.univ s.machine

/-- An error code with the present bit set is raised for pages that are present. -/
def Raised (pgd : Nat) (s : Space) : SpaceCall → Prop
  | .fault addr errorCode => FaultOk pgd s.machine addr errorCode
  | _ => True

/-- The call does not free the first area, to which `current->vm_area` would still point. -/
def KeepsFirst (s : Space) : SpaceCall → Prop
  | .unmap addr length => unmapFreesFirst s.areas.list addr length = false
  | .mprotect addr length prot => mprotectFreesFirst s.areas addr length prot = false
  | _ => True

/-- An area that `vm_area_unmap` does not free, it leaves as if there were another one before it. -/
theorem unmapFrom_head (h : unmapFreesFirst list addr length = false) :
    unmapFrom true list addr length = unmapFrom false list addr length := by
  cases list with
  | nil => rfl
  | cons memptr rest =>
      simp only [unmapFreesFirst, decide_eq_false_iff_not] at h
      rw [unmapFrom, unmapFrom]
      simp only
      generalize (if addr < memptr.vmStart ∧ addr + widen length ≥ memptr.vmStart
        then memptr.vmStart else addr) = addr' at h ⊢
      generalize (if addr < memptr.vmStart ∧ addr + widen length ≥ memptr.vmStart
        then (addr + widen length - memptr.vmStart).setWidth 32 else length) = length' at h ⊢
      split_ifs with hlength hinside
      · rfl
      · have hends := fun hends => h ⟨hlength, hinside, hends⟩
        have hedit : unmapInside true addr' (widen (alignedLength length')) memptr rest =
            unmapInside false addr' (widen (alignedLength length')) memptr rest := by
          unfold unmapInside
          split_ifs <;> tauto
        rw [hedit]
      all_goals rfl

/-- Changing the permissions of a range of pages keeps the tables tidy. -/
theorem updateAllPFNs_tidy {addrStart addrEnd : U64} (h : Tidy {pgd} Set.univ m) :
    Tidy {pgd} Set.univ (updateAllPFNs a m pgd addrStart addrEnd prot) := by
  by_cases hread : prot = 1
  · subst hread
    obtain ⟨hweaker, hframes, _⟩ :=
      @readPages_spec m pgd a (pagesFrom addrStart (numPages addrStart addrEnd))
    exact h.weaker hweaker (congrArg _ hframes)
  · exact (writePages_spec h (Set.mem_singleton pgd) (fun _ _ => Set.mem_univ _) hread).1

/-- A fault keeps the tables tidy. -/
theorem vmAreaPagefault_tidy (ha : a.Fresh) (h : Tidy {pgd} Set.univ m)
    (hok : FaultOk pgd m addr errorCode) :
    Tidy {pgd} Set.univ (vmAreaPagefault a m pgd areas addr errorCode).2 := by
  have hr : pgd ∈ ({pgd} : Set Nat) := Set.mem_singleton pgd
  unfold vmAreaPagefault
  cases faultArea addr areas with
  | none => exact h
  | some vma =>
      simp only
      split_ifs with hbad hcow hread
      · exact h
      · exact h
      · by_cases hflags : vma.accessFlags = 1 ∨ vma.accessFlags = 3
        · obtain ⟨e, he⟩ := Option.isSome_iff_exists.mp (hok hcow)
          obtain ⟨t, hcopied, hset⟩ :=
            handleCowFault_spec (a := a) h.trees hr (Set.mem_univ addr) hflags he
          rw [hcopied]
          exact h.leafSet hset
            ((Machine.release_tablesUsed _).trans FrameAlloc.allocPage_tablesUsed)
        · rw [handleCowFault, if_pos (not_or.mp hflags)]
          exact h
      · exact (makePresent_spec vma.accessFlags h ha hr (Set.mem_univ addr)).tidy

/-- Every call keeps the invariant. -/
theorem FaultInv.step (ha : a.Fresh) {call : SpaceCall} (h : FaultInv pgd s)
    (hok : Raised pgd s call) : ∃ s', spaceStep a pgd s call = some s' ∧ FaultInv pgd s' := by
  have h0 : KnownFlags 0 := Or.inl rfl
  have h1 : KnownFlags 1 := Or.inr (Or.inl rfl)
  have h3 : KnownFlags 3 := Or.inr (Or.inr rfl)
  cases call with
  | map addr length prot flag => exact ⟨_, rfl, vmAreaMap_flags h0 h1 h3 h.flags, h.tidy⟩
  | unmap addr length => exact ⟨_, rfl, vmAreaUnmap_flags h.flags, freeRanges_tidy h.tidy⟩
  | mprotect addr length prot =>
      refine ⟨_, rfl, ?_⟩
      have hflags : FlagsAll KnownFlags (vmAreaMprotect s.areas addr length prot).2.1.list :=
        vmAreaMprotect_flags h1 h3 h.flags
      unfold Space.mprotect
      rcases hanswer : vmAreaMprotect s.areas addr length prot with ⟨result, areas', _ | range⟩
      all_goals rw [hanswer] at hflags
      · exact ⟨hflags, h.tidy⟩
      · exact ⟨hflags, updateAllPFNs_tidy h.tidy⟩
  | fault addr errorCode => exact ⟨_, rfl, h.flags, vmAreaPagefault_tidy ha h.tidy hok⟩

/-- Every state that is reached by calls and faults from a process without areas. -/
theorem run_faultInv {nullArea : VmArea} {numVmArea : U64} (ha : a.Fresh)
    (htidy : Tidy {pgd} Set.univ m) {calls : List SpaceCall}
    (hcalls : Runs.AllSteps (spaceStep a pgd) (Raised pgd) ⟨⟨[], nullArea, numVmArea⟩, m⟩ calls) :
    ∃ s, Runs.run (spaceStep a pgd) ⟨⟨[], nullArea, numVmArea⟩, m⟩ calls = some s ∧
      FaultInv pgd s := by
  have hstep : ∀ (s : Space) (call : SpaceCall), FaultInv pgd s → Raised pgd s call →
      ∃ s', spaceStep a pgd s call = some s' ∧ FaultInv pgd s' :=
    fun s call hinv hok => hinv.step ha hok
  exact Runs.run_invariant hstep ⟨flagsAll_nil, htidy⟩ hcalls

/-! ## The check -/

/-- The access flags permit the access of a fault: `PROT_WRITE` for the two write faults, else
`PROT_READ`. -/
def Permits (accessFlags : U32) (errorCode : CInt) : Prop :=
  if errorCode = 0x4 then accessFlags &&& 0x1 ≠ 0 else accessFlags &&& 0x2 ≠ 0

instance : Decidable (Permits accessFlags errorCode) :=
  inferInstanceAs (Decidable (if errorCode = 0x4 then accessFlags &&& 0x1 ≠ 0
    else accessFlags &&& 0x2 ≠ 0))

/-- Some area holds the address and permits the access. -/
def Permitted (areas : List VmArea) (addr : U64) (errorCode : CInt) : Prop :=
  ∃ v ∈ areas, v.vmStart ≤ addr ∧ addr < v.vmEnd ∧ Permits v.accessFlags errorCode

/-- A fault is granted only if an area permits it; else it fails and no walk changes. -/
def FaultChecked (a : FrameAlloc) (m : Machine) (pgd : Nat) (areas : List VmArea) (addr : U64)
    (errorCode : CInt) : Prop :=
  let answer := vmAreaPagefault a m pgd areas addr errorCode
  answer.1 = 1 ∧ Permitted areas addr errorCode ∨
    answer.1 = -EINVAL ∧ ∀ y, levels answer.2 pgd y = levels m pgd y

/-- The first area that holds the address has access flags, or `handle_cow_fault` looks at them,
or another area permits the access. -/
def FlagsSeen (areas : List VmArea) (addr : U64) (errorCode : CInt) : Prop :=
  ∀ v, faultArea addr areas = some v → v.accessFlags = 0 →
    errorCode = 0x7 ∨ Permitted areas addr errorCode

/-- The entries of a walk only depend on the page. -/
theorem levels_congr (h : pageOf x = pageOf y) : levels m pgd x = levels m pgd y := by
  obtain ⟨hpath, hpte⟩ := pageOf_eq_iff.mp h
  simp only [tablePath, List.cons.injEq, and_true] at hpath
  obtain ⟨hpgd, hpud, hpmd⟩ := hpath
  rw [levels, levels, presentSlots, presentSlots, hpgd, hpud, hpmd, hpte]

/-- A fault that is refused has been checked. -/
theorem FaultChecked.refused
    (h : vmAreaPagefault a m pgd areas addr errorCode = (-EINVAL, m)) :
    FaultChecked a m pgd areas addr errorCode := by
  unfold FaultChecked
  rw [h]
  exact Or.inr ⟨rfl, fun _ => rfl⟩

/-- A fault on an absent page that an area permits. -/
theorem FaultChecked.permitted (ha : a.Fresh) (h : Tidy {pgd} Set.univ m)
    (hcode : errorCode ≠ 0x7) (hpermitted : Permitted areas addr errorCode) :
    FaultChecked a m pgd areas addr errorCode := by
  have heffect := pagefault_effect ha h areas addr hcode
  rcases heffect.returned with hone | hrefused
  · exact Or.inl ⟨hone, hpermitted⟩
  · refine Or.inr ⟨hrefused, fun y => ?_⟩
    by_cases hpage : pageOf y = pageOf addr
    · rw [levels_congr hpage, levels_congr hpage]
      exact heffect.refused hrefused
    · exact heffect.other y hpage

/-- With frames left, every page can be made present. -/
theorem makePresent_ample (ha : a.Ample) : (makePresent a accessFlags m pgd addr).1 = 1 := by
  have htable : ∀ m s, ∃ m', ensureTable a accessFlags m s = (true, m') := by
    intro m s
    unfold ensureTable
    simp only [if_neg (ha.table_ne_zero m)]
    split_ifs <;> exact ⟨_, rfl⟩
  unfold makePresent
  obtain ⟨m₁, h₁⟩ := htable m ⟨pgd, pgdIdx addr⟩
  simp only [h₁]
  obtain ⟨m₂, h₂⟩ := htable m₁ ⟨(m₁.entry ⟨pgd, pgdIdx addr⟩).pfn, pudIdx addr⟩
  simp only [h₂]
  obtain ⟨m₃, h₃⟩ := htable m₂ ⟨(m₂.entry ⟨(m₁.entry ⟨pgd, pgdIdx addr⟩).pfn, pudIdx addr⟩).pfn,
    pmdIdx addr⟩
  have hpage : (a.allocPage m₃).1 ≠ 0 := by
    rw [FrameAlloc.allocPage_some (ha.some_page _)]
    exact ha.some_page _
  simp only [h₃, ensurePage, if_neg hpage]
  split_ifs <;> rfl

/-- A fault in an area without access flags is granted if there are frames. -/
theorem vmAreaPagefault_flagless (ha : a.Ample) (harea : faultArea addr areas = some vma)
    (hflags : vma.accessFlags = 0) (hcode : errorCode ≠ 0x7) :
    (vmAreaPagefault a m pgd areas addr errorCode).1 = 1 := by
  have hread : ¬ (errorCode = 0x6 ∧ vma.accessFlags = PROT_READ) := by
    rw [hflags]
    exact fun h => absurd h.2 (by decide)
  unfold vmAreaPagefault
  simp only [harea, if_neg hread, if_neg hcode]
  exact makePresent_ample ha

/-- In a state that calls and faults have reached. -/
theorem FaultInv.checked_iff (h : FaultInv pgd s)
    (hcode : errorCode = 0x4 ∨ errorCode = 0x6 ∨ errorCode = 0x7) :
    (∀ b : FrameAlloc, b.Fresh →
      FaultChecked b s.machine pgd s.areas.list addr errorCode) ↔
    FlagsSeen s.areas.list addr errorCode := by
  constructor
  · intro hall v harea hflags
    by_contra hnot
    obtain ⟨hne, hdenied⟩ := not_or.mp hnot
    have hone : (vmAreaPagefault nextFrame s.machine pgd s.areas.list addr errorCode).1 = 1 :=
      vmAreaPagefault_flagless nextFrame_ample harea hflags hne
    rcases hall nextFrame nextFrame_fresh with ⟨_, hpermitted⟩ | ⟨hrefused, _⟩
    · exact hdenied hpermitted
    · rw [hone] at hrefused
      exact absurd hrefused (by decide)
  · intro hseen b hb
    cases harea : faultArea addr s.areas.list with
    | none => exact FaultChecked.refused (by rw [vmAreaPagefault, harea])
    | some v =>
        obtain ⟨hmem, hlo, hhi⟩ := faultArea_some harea
        have hpermitted : Permits v.accessFlags errorCode →
            Permitted s.areas.list addr errorCode := fun hp =>
          ⟨v, hmem, BitVec.le_def.mpr hlo, BitVec.lt_def.mpr hhi, hp⟩
        rcases h.flags v hmem with hflags | hflags | hflags
        · -- the first node of the list
          by_cases hcow : errorCode = 0x7
          · refine FaultChecked.refused ?_
            simp only [vmAreaPagefault, harea, hcow, hflags, handleCowFault]
            rfl
          · exact FaultChecked.permitted hb h.tidy hcow
              ((hseen v harea hflags).resolve_left hcow)
        · rcases hcode with rfl | rfl | rfl
          · exact FaultChecked.permitted hb h.tidy (by decide)
              (hpermitted (by rw [Permits, hflags]; decide))
          · exact FaultChecked.refused (by simp [vmAreaPagefault, harea, hflags, PROT_READ])
          · exact FaultChecked.refused (by simp [vmAreaPagefault, harea, hflags, PROT_READ])
        · have hperm : Permitted s.areas.list addr errorCode := by
            rcases hcode with rfl | rfl | rfl
            all_goals exact hpermitted (by rw [Permits, hflags]; decide)
          by_cases hcow : errorCode = 0x7
          · refine Or.inl ⟨?_, hperm⟩
            simp only [vmAreaPagefault, harea, hcow, hflags, handleCowFault]
            rfl
          · exact FaultChecked.permitted hb h.tidy hcow hperm

/-- After any calls and faults that do not free the first area, the check is right for every
address and every kind of fault unless the fault lies in an area without access flags: whatever
frames there are, a fault is granted only if an area permits it, and otherwise changes no walk. -/
theorem faults_checked_iff {nullArea : VmArea} {numVmArea : U64} (ha : a.Fresh)
    (htidy : Tidy {pgd} Set.univ m) {calls : List SpaceCall}
    (hcalls : Runs.AllSteps (spaceStep a pgd) (fun s call => Raised pgd s call ∧ KeepsFirst s call)
      ⟨⟨[], nullArea, numVmArea⟩, m⟩ calls) :
    ∃ s, Runs.run (spaceStep a pgd) ⟨⟨[], nullArea, numVmArea⟩, m⟩ calls = some s ∧
      ∀ addr errorCode, errorCode = 0x4 ∨ errorCode = 0x6 ∨ errorCode = 0x7 →
        ((∀ b : FrameAlloc, b.Fresh →
            FaultChecked b s.machine pgd s.areas.list addr errorCode) ↔
          FlagsSeen s.areas.list addr errorCode) := by
  obtain ⟨s, hrun, hinv⟩ := run_faultInv ha htidy (hcalls.mono fun _ _ hok => hok.1)
  exact ⟨s, hrun, fun _ _ hcode => hinv.checked_iff hcode⟩

/-- Two pages are mapped, one of them is read, and it is unmapped again. -/
theorem faults_checked_sample :
    ∃ s, Runs.run (spaceStep nextFrame 1) ⟨noAreas, emptyMachine⟩
        [.map 0 0x2000 1 0, .fault 0x180201000 0x4, .unmap 0x180201000 0x1000] = some s ∧
      ∀ addr errorCode, errorCode = 0x4 ∨ errorCode = 0x6 ∨ errorCode = 0x7 →
        ((∀ b : FrameAlloc, b.Fresh →
            FaultChecked b s.machine 1 s.areas.list addr errorCode) ↔
          FlagsSeen s.areas.list addr errorCode) := by
  refine faults_checked_iff nextFrame_fresh emptyMachine_tidy (.cons rfl ⟨trivial, trivial⟩
    (.cons rfl ⟨fun h => absurd h (by decide), trivial⟩ (.cons rfl ⟨trivial, ?_⟩ trivial)))
  show unmapFreesFirst _ _ _ = false
  decide +kernel

/-- A read of the first node, which no area permits, is granted. -/
theorem fault_in_first_node :
    ∃ s, Runs.run (spaceStep nextFrame 1) ⟨noAreas, emptyMachine⟩ [.map 0 0x1000 3 0] = some s ∧
      ¬ FaultChecked nextFrame s.machine 1 s.areas.list 0x180200000 0x4 := by
  refine ⟨_, rfl, fun hchecked => ?_⟩
  rcases hchecked with ⟨_, v, hv, hlo, hhi, hpermits⟩ | ⟨hrefused, _⟩
  · have hlist : (vmAreaMap noAreas 0 0x1000 3 0).2.list =
        [dummyNode, ⟨0x180201000, 0x180202000, 3⟩] := by decide +kernel
    rw [hlist] at hv
    simp only [List.mem_cons, List.not_mem_nil, or_false] at hv
    rcases hv with rfl | rfl
    · exact absurd hpermits (by decide)
    · exact absurd hlo (by decide)
  · exact absurd hrefused (by decide +kernel)

end GemOS.Vm
