import GemOS.Vm.Accesses
import GemOS.Vm.FaultChecks

/-!
# Whether one write fault is enough

`vm_area_pagefault` sets the writable bit of an upper entry only when it creates the entry. A page
of an area that may be written becomes writable at all four levels exactly if the entries that were
already on the way to it are writable.
-/

namespace GemOS.Vm

open Radix (follow)

variable {a : FrameAlloc} {m m' m₁ : Machine} {pgd f r : Nat} {x addr : U64} {s : Slot} {i : U64}
variable {roots : Set Nat} {area : Set U64} {accessFlags : U32} {areas : List VmArea} {q : List U64}

/-- The entries of all four levels are writable. -/
def Levels.writable (l : Levels) : Bool :=
  l.pgd.writable && l.pud.writable && l.pmd.writable && l.pte.writable

/-- The upper entries for an address that are present are writable. -/
def upperWritable (m : Machine) (pgd : Nat) (addr : U64) : Bool :=
  let pgdEntry : Slot := ⟨pgd, pgdIdx addr⟩
  if (m.entry pgdEntry).present = false then true
  else
    let pudEntry : Slot := ⟨(m.entry pgdEntry).pfn, pudIdx addr⟩
    (m.entry pgdEntry).writable &&
      if (m.entry pudEntry).present = false then true
      else
        let pmdEntry : Slot := ⟨(m.entry pudEntry).pfn, pmdIdx addr⟩
        (m.entry pudEntry).writable &&
          if (m.entry pmdEntry).present = false then true else (m.entry pmdEntry).writable

/-- An upper entry after `ensureTable` has gone through it: it was there, or it is new, with the
bits of the access, and leads to an empty table. -/
structure Ensured (accessFlags : U32) (m m' : Machine) (s : Slot) : Prop where
  present : (m'.entry s).present = true
  used : (m'.entry s).pfn ∈ m'.frames.tablesUsed
  cases : (m.entry s).present = true ∧ m' = m ∨
    (m.entry s).present = false ∧ (m'.entry s).writable = decide (accessFlags = 3) ∧
      ∀ i, (m'.entry ⟨(m'.entry s).pfn, i⟩).present = false

theorem ensureTable_ensured (h : Tidy roots area m) (ha : a.Fresh)
    (hq : InScope roots area r (q ++ [i])) (hf : follow Entry.ref m.table r q = some f)
    (hstep : ensureTable a accessFlags m ⟨f, i⟩ = (true, m')) :
    Ensured accessFlags m m' ⟨f, i⟩ := by
  obtain ⟨hext, hnext⟩ := ensureTable_spec h ha hq hf hstep
  have hused := hext.tidy.used r _ _ hq (hnext rfl)
  unfold ensureTable at hstep
  split_ifs at hstep with hpresent
  · obtain rfl := (Prod.mk.inj hstep).2
    exact ⟨hpresent, hused, Or.inl ⟨hpresent, rfl⟩⟩
  · simp only at hstep
    split_ifs at hstep with hzero
    · cases (Prod.mk.inj hstep).1
    · obtain rfl := (Prod.mk.inj hstep).2
      have hq₀ : InScope roots area r q := inScope_closed _ _ _ hq (List.prefix_append q [i])
      have habsent : (m.entry ⟨f, i⟩).present = false := by simpa using hpresent
      have href : (newEntry (a.allocTable m).1 accessFlags).ref = some (a.allocTable m).1 :=
        newEntry_ref _
      obtain ⟨_, _, hempty, _⟩ := h.installed ha hzero hf hq₀ habsent href
      have hpfn : (((a.allocTable m).2.setEntry ⟨f, i⟩ (newEntry (a.allocTable m).1
          accessFlags)).entry ⟨f, i⟩).pfn = (a.allocTable m).1 := by
        rw [Machine.entry_setEntry, newEntry_eq]
      refine ⟨by rw [Machine.entry_setEntry]; exact newEntry_present _, hused,
        Or.inr ⟨habsent, ?_, fun j => ?_⟩⟩
      · rw [Machine.entry_setEntry, Bool.eq_iff_iff, newEntry_writable, decide_eq_true_iff]
      · rw [hpfn]
        exact congrArg Entry.present (hempty j)

/-- The upper levels that `vm_area_pagefault` has gone through when it succeeds. -/
structure Descent (accessFlags : U32) (m m₁ m₂ m₃ : Machine) (pgd : Nat) (x : U64) : Prop where
  atPgd : Ensured accessFlags m m₁ ⟨pgd, pgdIdx x⟩
  atPud : Ensured accessFlags m₁ m₂ ⟨(m₁.entry ⟨pgd, pgdIdx x⟩).pfn, pudIdx x⟩
  atPmd : Ensured accessFlags m₂ m₃
    ⟨(m₂.entry ⟨(m₁.entry ⟨pgd, pgdIdx x⟩).pfn, pudIdx x⟩).pfn, pmdIdx x⟩
  kept₁ : Kept m m₁
  kept₂ : Kept m₁ m₂
  kept₃ : Kept m₂ m₃

variable (accessFlags) in
theorem makePresent_descent (h : Tidy roots area m) (ha : a.Fresh) (hr : pgd ∈ roots)
    (hx : x ∈ area) (hone : (makePresent a accessFlags m pgd x).1 = 1) :
    ∃ m₁ m₂ m₃, Descent accessFlags m m₁ m₂ m₃ pgd x ∧
      Kept m₃ (makePresent a accessFlags m pgd x).2 := by
  have hroot : follow Entry.ref m.table pgd [] = some pgd := rfl
  have hscope : ∀ p, p <+: tablePath x → InScope roots area pgd p := fun p hp => ⟨hr, x, hx, hp⟩
  have hfailed : ¬ (-EINVAL : Int) = 1 := by decide
  unfold makePresent at hone ⊢
  simp only at hone ⊢
  rcases h₁ : ensureTable a accessFlags m ⟨pgd, pgdIdx x⟩ with ⟨_ | _, m₁⟩
  all_goals simp only [h₁] at hone ⊢
  · exact absurd hone hfailed
  obtain ⟨hext₁, hpud⟩ := ensureTable_spec h ha (q := []) (hscope _ ⟨_, rfl⟩) hroot h₁
  have hpgd := ensureTable_ensured h ha (q := []) (hscope _ ⟨_, rfl⟩) hroot h₁
  rcases h₂ : ensureTable a accessFlags m₁ ⟨(m₁.entry ⟨pgd, pgdIdx x⟩).pfn, pudIdx x⟩
    with ⟨_ | _, m₂⟩
  all_goals simp only [h₂] at hone ⊢
  · exact absurd hone hfailed
  obtain ⟨hext₂, hpmd⟩ := ensureTable_spec hext₁.tidy ha (hscope _ ⟨_, rfl⟩) (hpud rfl) h₂
  have hpud' := ensureTable_ensured hext₁.tidy ha (hscope _ ⟨_, rfl⟩) (hpud rfl) h₂
  rcases h₃ : ensureTable a accessFlags m₂
      ⟨(m₂.entry ⟨(m₁.entry ⟨pgd, pgdIdx x⟩).pfn, pudIdx x⟩).pfn, pmdIdx x⟩ with ⟨_ | _, m₃⟩
  all_goals simp only [h₃] at hone ⊢
  · exact absurd hone hfailed
  have hpmd' := ensureTable_ensured hext₂.tidy ha (hscope _ (List.prefix_refl _)) (hpmd rfl) h₃
  exact ⟨m₁, m₂, m₃, ⟨hpgd, hpud', hpmd', ensureTable_kept ha h₁, ensureTable_kept ha h₂,
    ensureTable_kept ha h₃⟩, ensurePage_kept⟩

/-- An upper entry that is present afterwards keeps its contents. -/
theorem Ensured.entry (h : Ensured accessFlags m m₁ s) (hkept : Kept m₁ m')
    (hused : s.table ∈ m₁.frames.tablesUsed) : m'.entry s = m₁.entry s :=
  hkept.entry _ hused _ h.present

/-- A new entry is writable for an area that may be written, and leads to an empty table. -/
theorem Ensured.of_absent (h : Ensured 3 m m₁ s) (habsent : (m.entry s).present = false) :
    (m₁.entry s).writable = true ∧ ∀ i, (m₁.entry ⟨(m₁.entry s).pfn, i⟩).present = false := by
  rcases h.cases with ⟨hpresent, _⟩ | ⟨_, hwritable, hempty⟩
  · rw [habsent] at hpresent
    cases hpresent
  · exact ⟨hwritable, hempty⟩

/-- An entry that was there is left alone, and so is the rest. -/
theorem Ensured.of_present (h : Ensured accessFlags m m₁ s)
    (hpresent : (m.entry s).present = true) : m₁ = m := by
  rcases h.cases with ⟨_, hsame⟩ | ⟨habsent, _⟩
  · exact hsame
  · rw [hpresent] at habsent
    cases habsent

/-- The upper entries after a fault on a page of an area that may be written are writable if those
that were there are. -/
theorem makePresent_upper {l : Levels} (h : Tidy roots area m) (ha : a.Fresh) (hr : pgd ∈ roots)
    (hx : x ∈ area) (hone : (makePresent a 3 m pgd x).1 = 1)
    (hl : levels (makePresent a 3 m pgd x).2 pgd x = some l) :
    (l.pgd.writable && l.pud.writable && l.pmd.writable) = upperWritable m pgd x := by
  obtain ⟨m₁, m₂, m₃, hdescent, hkept⟩ := makePresent_descent 3 h ha hr hx hone
  obtain ⟨s, hslots, rfl⟩ := Option.map_eq_some_iff.mp hl
  obtain ⟨⟨hpgd, hpud, hpmd, _⟩, _⟩ := presentSlots_eq_some.mp hslots
  obtain ⟨hpgd', hpud', hpmd', hkept₁, hkept₂, hkept₃⟩ := hdescent
  have hroot : pgd ∈ m.frames.tablesUsed := h.used pgd [] pgd ⟨hr, x, hx, List.nil_prefix⟩ rfl
  -- the entries of the walk are those that the levels were left with
  have hentry₁ := hpgd'.entry (hkept₂.trans (hkept₃.trans hkept)) (hkept₁.used _ hroot)
  rw [← hpgd] at hentry₁ hpgd' hpud' hpmd'
  rw [hentry₁] at hpud
  have hentry₂ := hpud'.entry (hkept₃.trans hkept) (hkept₂.used _ hpgd'.used)
  rw [← hpud] at hentry₂ hpud' hpmd'
  rw [hentry₂] at hpmd
  have hentry₃ := hpmd'.entry hkept (hkept₃.used _ hpud'.used)
  rw [← hpmd] at hentry₃ hpmd'
  simp only [hentry₁, hentry₂, hentry₃]
  unfold upperWritable
  simp only [← hpgd]
  cases hp₁ : (m.entry s.pgd).present with
  | false =>
      obtain ⟨hw₁, hempty₁⟩ := hpgd'.of_absent hp₁
      obtain ⟨hw₂, hempty₂⟩ := hpud'.of_absent (hpud ▸ hempty₁ _)
      obtain ⟨hw₃, _⟩ := hpmd'.of_absent (hpmd ▸ hempty₂ _)
      simp [hw₁, hw₂, hw₃]
  | true =>
      obtain rfl := hpgd'.of_present hp₁
      simp only [← hpud]
      cases hp₂ : (m₁.entry s.pud).present with
      | false =>
          obtain ⟨hw₂, hempty₂⟩ := hpud'.of_absent hp₂
          obtain ⟨hw₃, _⟩ := hpmd'.of_absent (hpmd ▸ hempty₂ _)
          simp [hw₂, hw₃]
      | true =>
          obtain rfl := hpud'.of_present hp₂
          simp only [← hpmd]
          cases hp₃ : (m₂.entry s.pmd).present with
          | false => simp [(hpmd'.of_absent hp₃).1]
          | true =>
              obtain rfl := hpmd'.of_present hp₃
              simp [Bool.and_assoc]

/-- The walk of an address is present and writable at all four levels: a write goes through. -/
def MayWrite (m : Machine) (pgd : Nat) (addr : U64) : Prop :=
  ∃ l, levels m pgd addr = some l ∧ l.writable = true

/-- The fault is for an area that may be written, and the upper entries are writable so far. -/
def WayWritable (m : Machine) (pgd : Nat) (areas : List VmArea) (addr : U64) : Prop :=
  (∃ v, faultArea addr areas = some v ∧ v.accessFlags = 3) ∧ upperWritable m pgd addr = true

/-- A write fault on an absent page that has been granted. -/
theorem mayWrite_after_fault_iff (ha : a.Fresh) (h : Tidy {pgd} Set.univ m)
    (habsent : walk m.table pgd addr = none)
    (hone : (vmAreaPagefault a m pgd areas addr 0x6).1 = 1) :
    MayWrite (vmAreaPagefault a m pgd areas addr 0x6).2 pgd addr ↔
      WayWritable m pgd areas addr := by
  have heffect := pagefault_effect ha h areas addr (by decide : (0x6 : CInt) ≠ 0x7)
  obtain ⟨v, l, harea, hl, hold | ⟨_, hnew⟩⟩ := heffect.granted hone
  · rw [levels_eq_none.mpr habsent] at hold
    cases hold
  have hlevels : MayWrite (vmAreaPagefault a m pgd areas addr 0x6).2 pgd addr ↔
      l.writable = true := by
    constructor
    · intro hwrite
      obtain ⟨l', hl', hw⟩ := hwrite
      obtain rfl := Option.some.inj (hl.symm.trans hl')
      exact hw
    · exact fun hw => ⟨l, hl, hw⟩
  rw [hlevels, WayWritable, harea]
  by_cases hflags : v.accessFlags = 3
  · have hmade : vmAreaPagefault a m pgd areas addr 0x6 = makePresent a 3 m pgd addr := by
      simp only [vmAreaPagefault, harea, hflags]
      rfl
    rw [hmade] at hone hl
    have hupper := makePresent_upper h ha (Set.mem_singleton pgd) (Set.mem_univ addr) hone hl
    rw [Levels.writable, hupper, hnew.writable.mpr hflags, Bool.and_true]
    exact ⟨fun hw => ⟨⟨v, rfl, hflags⟩, hw⟩, And.right⟩
  · -- the entry of the page itself is not writable
    have hpte : l.pte.writable = false := by
      rw [Bool.eq_false_iff]
      exact fun hw => hflags (hnew.writable.mp hw)
    rw [Levels.writable, hpte, Bool.and_false]
    constructor
    · exact fun hfalse => absurd hfalse (by decide)
    · intro h
      obtain ⟨⟨v', hv', hflags'⟩, _⟩ := h
      obtain rfl := Option.some.inj hv'
      exact absurd hflags' hflags

/-- After any calls and faults, whatever frames there are: a granted write fault on an absent page
of an area that may be written is enough for the write exactly if the way to the page is writable
so far. -/
theorem one_fault_enough_iff {nullArea : VmArea} {numVmArea : U64} (ha : a.Fresh)
    (htidy : Tidy {pgd} Set.univ m) {calls : List SpaceCall}
    (hcalls : Runs.AllSteps (spaceStep a pgd) (Raised pgd) ⟨⟨[], nullArea, numVmArea⟩, m⟩ calls) :
    ∃ s, Runs.run (spaceStep a pgd) ⟨⟨[], nullArea, numVmArea⟩, m⟩ calls = some s ∧
      ∀ b : FrameAlloc, b.Fresh → ∀ v ∈ s.areas.list, v.accessFlags = 3 →
        ∀ addr, v.vmStart ≤ addr → addr < v.vmEnd → walk s.machine.table pgd addr = none →
        (vmAreaPagefault b s.machine pgd s.areas.list addr 0x6).1 = 1 →
        (MayWrite (vmAreaPagefault b s.machine pgd s.areas.list addr 0x6).2 pgd addr ↔
          WayWritable s.machine pgd s.areas.list addr) := by
  obtain ⟨s, hrun, hinv⟩ := run_faultInv ha htidy hcalls
  exact ⟨s, hrun, fun b hb _ _ _ _ _ _ habsent hone =>
    mayWrite_after_fault_iff hb hinv.tidy habsent hone⟩

/-- Two pages are mapped and one of them is written. -/
theorem one_fault_enough_sample :
    ∃ s, Runs.run (spaceStep nextFrame 1) ⟨noAreas, emptyMachine⟩
        [.map 0 0x2000 3 0, .fault 0x180201000 0x6] = some s ∧
      ∀ b : FrameAlloc, b.Fresh → ∀ v ∈ s.areas.list, v.accessFlags = 3 →
        ∀ addr, v.vmStart ≤ addr → addr < v.vmEnd → walk s.machine.table 1 addr = none →
        (vmAreaPagefault b s.machine 1 s.areas.list addr 0x6).1 = 1 →
        (MayWrite (vmAreaPagefault b s.machine 1 s.areas.list addr 0x6).2 1 addr ↔
          WayWritable s.machine 1 s.areas.list addr) :=
  one_fault_enough_iff nextFrame_fresh emptyMachine_tidy
    (.cons rfl trivial (.cons rfl (fun h => absurd h (by decide)) trivial))

/-- A page of a read-only area is read first. The write fault on the page of the next area, which
may be written, is granted, but the upper entries stay read-only. -/
theorem one_fault_not_enough :
    ∃ s, Runs.run (spaceStep nextFrame 1) ⟨noAreas, emptyMachine⟩
        [.map 0 0x1000 1 0, .fault 0x180201000 0x4, .map 0 0x1000 3 0] = some s ∧
      (∃ v ∈ s.areas.list, v.accessFlags = 3 ∧ v.vmStart ≤ 0x180202000 ∧ 0x180202000 < v.vmEnd) ∧
      walk s.machine.table 1 0x180202000 = none ∧
      (vmAreaPagefault nextFrame s.machine 1 s.areas.list 0x180202000 0x6).1 = 1 ∧
      ¬ MayWrite (vmAreaPagefault nextFrame s.machine 1 s.areas.list 0x180202000 0x6).2 1
        0x180202000 := by
  refine ⟨_, rfl, by decide +kernel, by decide +kernel, by decide +kernel, fun hwrite => ?_⟩
  obtain ⟨l, hl, hw⟩ := hwrite
  have hbits := congrArg (Option.map Levels.writable) hl
  rw [Option.map_some, hw] at hbits
  exact absurd hbits (by decide +kernel)

end GemOS.Vm
