import GemOS.Vm.FrameCounts
import GemOS.Vm.Translations

/-!
# What a fault on an absent page changes

`vm_area_pagefault` with an error code other than 0x7 only stores into entries that are not
present, and the tables it adds are empty frames that no walk has led to. So walks that are present
keep their entries at all four levels, and the only walk that can appear is the one of the address.
-/

namespace GemOS.Vm

open Radix (follow)

variable {a : FrameAlloc} {m m' m₁ m₂ : Machine} {pgd r f : Nat} {x y addr : U64} {s : Slot}
variable {roots : Set Nat} {area : Set U64} {accessFlags : U32} {errorCode : CInt}
variable {areas : List VmArea} {vma : VmArea}

/-- The entries at the four levels of a walk. -/
structure Levels where
  pgd : Entry
  pud : Entry
  pmd : Entry
  pte : Entry
  deriving DecidableEq, Repr

/-- The entries of a walk, if the walk is present. -/
def levels (m : Machine) (pgd : Nat) (addr : U64) : Option Levels :=
  (presentSlots m pgd addr).map fun s =>
    ⟨m.entry s.pgd, m.entry s.pud, m.entry s.pmd, m.entry s.pte⟩

/-! ## Entries that are present -/

/-- Entries that are present in the tables in use are as they were. -/
structure Kept (m m' : Machine) : Prop where
  entry : ∀ f ∈ m.frames.tablesUsed, ∀ i, (m.table f i).present = true →
    m'.table f i = m.table f i
  used : ∀ f ∈ m.frames.tablesUsed, f ∈ m'.frames.tablesUsed

theorem Kept.refl (m : Machine) : Kept m m :=
  ⟨fun _ _ _ _ => rfl, fun _ => id⟩

theorem Kept.trans (h : Kept m m₁) (h' : Kept m₁ m₂) : Kept m m₂ := by
  refine ⟨fun f hf i hpresent => ?_, fun f hf => h'.used f (h.used f hf)⟩
  have hsame := h.entry f hf i hpresent
  rw [h'.entry f (h.used f hf) i (hsame ▸ hpresent), hsame]

/-- A store into an entry that is not present. -/
theorem Kept.setEntry (h : Kept m m₁) (habsent : ¬ (m.entry s).present = true) (e : Entry) :
    Kept m (m₁.setEntry s e) := by
  refine ⟨fun f hf i hpresent => ?_, h.used⟩
  rw [Machine.setEntry_table, put_apply, if_neg]
  · exact h.entry f hf i hpresent
  · rintro rfl
    exact habsent hpresent

/-- A new table is not one of those in use. -/
theorem FrameAlloc.allocTable_kept (ha : a.Fresh) : Kept m (a.allocTable m).2 := by
  unfold FrameAlloc.allocTable
  simp only
  split_ifs with hzero
  · exact ⟨fun _ _ _ _ => rfl, fun _ => id⟩
  · refine ⟨fun f hf i _ => if_neg ?_, fun f hf => List.mem_cons_of_mem _ hf⟩
    rintro rfl
    exact ha.table _ hzero hf

theorem FrameAlloc.allocPage_kept : Kept m (a.allocPage m).2 := by
  refine ⟨fun f _ i _ => ?_, fun f hf => ?_⟩
  · rw [FrameAlloc.allocPage_table]
  · rw [FrameAlloc.allocPage_tablesUsed]
    exact hf

theorem ensureTable_kept {found : Bool} (ha : a.Fresh)
    (hstep : ensureTable a accessFlags m s = (found, m')) : Kept m m' := by
  unfold ensureTable at hstep
  split_ifs at hstep with hpresent
  · rw [← (Prod.mk.inj hstep).2]
    exact Kept.refl m
  · simp only at hstep
    split_ifs at hstep
    · rw [← (Prod.mk.inj hstep).2]
      exact FrameAlloc.allocTable_kept ha
    · rw [← (Prod.mk.inj hstep).2]
      exact (FrameAlloc.allocTable_kept ha).setEntry hpresent _

theorem ensurePage_kept : Kept m (ensurePage a accessFlags m s).2 := by
  by_cases hpresent : (m.entry s).present = true
  · rw [ensurePage, if_pos hpresent]
    exact Kept.refl m
  by_cases hzero : (a.allocPage m).1 = 0
  · rw [ensurePage_none hpresent hzero]
    exact ⟨fun _ _ _ _ => rfl, fun _ => id⟩
  · rw [ensurePage_new hpresent hzero]
    exact FrameAlloc.allocPage_kept.setEntry hpresent _

theorem makePresent_kept (ha : a.Fresh) : Kept m (makePresent a accessFlags m pgd addr).2 := by
  unfold makePresent
  simp only
  rcases h₁ : ensureTable a accessFlags m ⟨pgd, pgdIdx addr⟩ with ⟨_ | _, m₁⟩
  all_goals have hkept₁ := ensureTable_kept ha h₁
  · exact hkept₁
  simp only
  rcases h₂ : ensureTable a accessFlags m₁ ⟨(m₁.entry ⟨pgd, pgdIdx addr⟩).pfn, pudIdx addr⟩
    with ⟨_ | _, m₂⟩
  all_goals have hkept₂ := hkept₁.trans (ensureTable_kept ha h₂)
  · exact hkept₂
  simp only
  rcases h₃ : ensureTable a accessFlags m₂
      ⟨(m₂.entry ⟨(m₁.entry ⟨pgd, pgdIdx addr⟩).pfn, pudIdx addr⟩).pfn, pmdIdx addr⟩
    with ⟨_ | _, m₃⟩
  all_goals have hkept₃ := hkept₂.trans (ensureTable_kept ha h₃)
  · exact hkept₃
  · exact hkept₃.trans ensurePage_kept

/-! ## Walks that are present -/

theorem levels_eq_none : levels m pgd x = none ↔ walk m.table pgd x = none := by
  rcases presentSlots_spec m pgd x with ⟨hslots, hwalk⟩ | ⟨s, hslots, _, hwalk⟩
  · simp [levels, hslots, hwalk]
  · simp [levels, hslots, hwalk]

/-- A walk that is present, by the entries of its levels. -/
theorem levels_of_walk {e : Entry} (h : walk m.table pgd x = some e) :
    ∃ l, levels m pgd x = some l ∧ l.pte = e := by
  rcases presentSlots_spec m pgd x with ⟨_, hwalk⟩ | ⟨s, hslots, _, hwalk⟩
  · rw [hwalk] at h
    cases h
  · obtain rfl := Option.some.inj (hwalk.symm.trans h)
    exact ⟨_, by rw [levels, hslots, Option.map_some], rfl⟩

/-- What `presentSlots` has gone through. -/
theorem presentSlots_eq_some {s : Slots} : presentSlots m pgd x = some s ↔
    (s.pgd = ⟨pgd, pgdIdx x⟩ ∧ s.pud = ⟨(m.entry s.pgd).pfn, pudIdx x⟩ ∧
      s.pmd = ⟨(m.entry s.pud).pfn, pmdIdx x⟩ ∧ s.pte = ⟨(m.entry s.pmd).pfn, pteIdx x⟩) ∧
    (m.entry s.pgd).present = true ∧ (m.entry s.pud).present = true ∧
      (m.entry s.pmd).present = true ∧ (m.entry s.pte).present = true := by
  obtain ⟨pgdEntry, pudEntry, pmdEntry, pteEntry⟩ := s
  simp only [presentSlots]
  constructor
  · intro h
    split_ifs at h with hpgd hpud hpmd hpte
    obtain ⟨rfl, rfl, rfl, rfl⟩ := Slots.mk.inj (Option.some.inj h)
    simp only [Bool.not_eq_false] at hpgd hpud hpmd hpte
    exact ⟨⟨rfl, rfl, rfl, rfl⟩, hpgd, hpud, hpmd, hpte⟩
  · intro h
    obtain ⟨⟨rfl, rfl, rfl, rfl⟩, hpgd, hpud, hpmd, hpte⟩ := h
    simp only [hpgd, hpud, hpmd, hpte, Bool.true_eq_false, if_false]

/-- A walk that is present keeps its entries at all levels. -/
theorem Kept.levels {l : Levels} (h : Kept m m') (htidy : Tidy roots area m) (hr : pgd ∈ roots)
    (hx : x ∈ area) (hl : levels m pgd x = some l) : Vm.levels m' pgd x = some l := by
  obtain ⟨s, hslots, rfl⟩ := Option.map_eq_some_iff.mp hl
  rcases presentSlots_spec m pgd x with ⟨hnone, _⟩ | ⟨s', hslots', hreached, _⟩
  · rw [hnone] at hslots
    cases hslots
  obtain rfl : s' = s := Option.some.inj (hslots'.symm.trans hslots)
  obtain ⟨hpath, hpgd, hpud, hpmd, hpte⟩ := presentSlots_eq_some.mp hslots
  -- the four tables are in use
  have hused : ∀ p t, p <+: tablePath x → follow Entry.ref m.table pgd p = some t →
      t ∈ m.frames.tablesUsed := fun p t hp ht => htidy.used pgd p t ⟨hr, x, hx, hp⟩ ht
  have hkeep : ∀ slot : Slot, slot.table ∈ m.frames.tablesUsed → (m.entry slot).present = true →
      m'.entry slot = m.entry slot := fun slot hmem hpresent => h.entry _ hmem _ hpresent
  have hpgd' := hkeep s'.pgd
    (hused [] _ List.nil_prefix (by rw [hreached.pgd_slot]; rfl)) hpgd
  have hpud' := hkeep s'.pud (hused _ _ ⟨_, rfl⟩ hreached.pud_slot.2) hpud
  have hpmd' := hkeep s'.pmd (hused _ _ ⟨_, rfl⟩ hreached.pmd_slot.2) hpmd
  have hpte' := hkeep s'.pte (hused _ _ (List.prefix_refl _) hreached.pte_slot.2) hpte
  have hslots' : presentSlots m' pgd x = some s' := by
    refine presentSlots_eq_some.mpr ?_
    rw [hpgd', hpud', hpmd', hpte']
    exact ⟨hpath, hpgd, hpud, hpmd, hpte⟩
  rw [Vm.levels, hslots', Option.map_some, hpgd', hpud', hpmd', hpte']

/-- Walks that are present before or absent afterwards are as they were. -/
theorem Kept.levels_eq (h : Kept m m') (htidy : Tidy roots area m) (hr : pgd ∈ roots)
    (hx : x ∈ area) (hwalk : walk m'.table pgd x = walk m.table pgd x) :
    Vm.levels m' pgd x = Vm.levels m pgd x := by
  cases hl : Vm.levels m pgd x with
  | none => rw [levels_eq_none, hwalk, ← levels_eq_none, hl]
  | some l => exact h.levels htidy hr hx hl

/-! ## The fault -/

theorem ensureTable_present (h : (m.entry s).present = true) :
    ensureTable a accessFlags m s = (true, m) :=
  if_pos h

/-- A page that is present is left alone. -/
theorem makePresent_present {l : Levels} (hl : levels m pgd addr = some l) :
    makePresent a accessFlags m pgd addr = (1, m) := by
  obtain ⟨s, hslots, _⟩ := Option.map_eq_some_iff.mp hl
  obtain ⟨⟨hpgd, hpud, hpmd, hpte⟩, hpresent⟩ := presentSlots_eq_some.mp hslots
  simp only [makePresent, ← hpgd, ensureTable_present hpresent.1, ← hpud,
    ensureTable_present hpresent.2.1, ← hpmd, ensureTable_present hpresent.2.2.1, ← hpte,
    ensurePage, if_pos hpresent.2.2.2]

theorem newEntry_writable (n : Nat) :
    (newEntry n accessFlags).writable = true ↔ accessFlags = 3 := by
  have hbit : ∀ b : Bool, (if b then 0x19 else 0x11 : BitVec 12).getLsbD 3 = b := by decide
  rw [newEntry_eq, Entry.writable]
  simpa using Eq.to_iff (congrArg (· = true) (hbit (accessFlags = 3)))

variable (accessFlags) in
/-- A fault on a page that is absent: it fails and the page stays absent, or the page is mapped to
a new frame. -/
theorem makePresent_absent (h : Tidy roots area m) (ha : a.Fresh) (hr : pgd ∈ roots)
    (hx : x ∈ area) (hnone : walk m.table pgd x = none) :
    ((makePresent a accessFlags m pgd x).1 = -EINVAL ∧
      walk (makePresent a accessFlags m pgd x).2.table pgd x = none) ∨
    ((makePresent a accessFlags m pgd x).1 = 1 ∧ ∃ n, n ∉ m.frames.pagesUsed ∧
      (makePresent a accessFlags m pgd x).2.frames.pagesUsed = n :: m.frames.pagesUsed ∧
      walk (makePresent a accessFlags m pgd x).2.table pgd x =
        some (newEntry n accessFlags)) := by
  obtain ⟨m₁, hext, hresult | ⟨_, f, hf, hresult⟩⟩ := makePresent_cases accessFlags h ha hr hx
  all_goals rw [hresult]
  · exact Or.inl ⟨rfl, (hext.walk pgd x hr hx).trans hnone⟩
  have hleaf : leaf m₁.table pgd x = some (m₁.entry ⟨f, pteIdx x⟩) := leaf_eq_some.mpr ⟨f, hf, rfl⟩
  have habsent : ¬ (m₁.entry ⟨f, pteIdx x⟩).present = true := by
    intro hpresent
    have hwalk := walk_eq_some.mpr ⟨hleaf, hpresent⟩
    rw [hext.walk pgd x hr hx, hnone] at hwalk
    cases hwalk
  by_cases hzero : (a.allocPage m₁).1 = 0
  · rw [ensurePage_none habsent hzero]
    exact Or.inl ⟨rfl, (hext.walk pgd x hr hx).trans hnone⟩
  · rw [ensurePage_new habsent hzero]
    have hset := hext.tidy.trees.newPage a accessFlags hr hx hf
    have hpfn : a.page m₁.frames ≠ 0 := fun heq => hzero (by simp [FrameAlloc.allocPage, heq])
    have hfresh : a.page m₁.frames ∉ m.frames.pagesUsed := hext.pagesUsed ▸ ha.page _ hpfn
    refine Or.inr ⟨rfl, a.page m₁.frames, hfresh, ?_, ?_⟩
    · rw [← hext.pagesUsed, FrameAlloc.allocPage_some hpfn]
      rfl
    · rw [hset.walk (newEntry_present _), FrameAlloc.allocPage_some hpfn]

/-- The page of an address that was absent and is now mapped through the entries `l`. -/
structure NewPage (accessFlags : U32) (m m' : Machine) (l : Levels) : Prop where
  fresh : l.pte.pfn ∉ m.frames.pagesUsed
  used : m'.frames.pagesUsed = l.pte.pfn :: m.frames.pagesUsed
  writable : l.pte.writable = true ↔ accessFlags = 3

/-- What `vm_area_pagefault` leaves when it has returned `result`. -/
structure Faulted (areas : List VmArea) (m m' : Machine) (pgd : Nat) (addr : U64) (result : Int) :
    Prop where
  returned : result = 1 ∨ result = -EINVAL
  granted : result = 1 → ∃ vma l, faultArea addr areas = some vma ∧
    levels m' pgd addr = some l ∧
    (levels m pgd addr = some l ∨
      levels m pgd addr = none ∧ NewPage vma.accessFlags m m' l)
  refused : result = -EINVAL → levels m' pgd addr = levels m pgd addr
  other : ∀ y, pageOf y ≠ pageOf addr → levels m' pgd y = levels m pgd y

theorem Faulted.unchanged : Faulted areas m m pgd addr (-EINVAL) :=
  ⟨Or.inr rfl, fun h => absurd h (by decide), fun _ => rfl, fun _ _ => rfl⟩

/-- The part of `vm_area_pagefault` that makes the page present. -/
theorem makePresent_faulted (ha : a.Fresh) (h : Tidy {pgd} Set.univ m)
    (harea : faultArea addr areas = some vma) :
    Faulted areas m (makePresent a vma.accessFlags m pgd addr).2 pgd addr
      (makePresent a vma.accessFlags m pgd addr).1 := by
  have hr : pgd ∈ ({pgd} : Set Nat) := Set.mem_singleton pgd
  cases hl : levels m pgd addr with
  | some l =>
      rw [makePresent_present hl]
      exact ⟨Or.inl rfl, fun _ => ⟨vma, l, harea, hl, Or.inl hl⟩, fun _ => rfl, fun _ _ => rfl⟩
  | none =>
      have hkept : Kept m (makePresent a vma.accessFlags m pgd addr).2 := makePresent_kept ha
      have hmade := makePresent_spec vma.accessFlags h ha hr (Set.mem_univ addr)
      have hother : ∀ y, pageOf y ≠ pageOf addr →
          levels (makePresent a vma.accessFlags m pgd addr).2 pgd y = levels m pgd y := by
        intro y hne
        refine hkept.levels_eq h hr (Set.mem_univ y) ?_
        exact hmade.other pgd y hr (Set.mem_univ y) fun heq => hne heq.2
      rcases makePresent_absent vma.accessFlags h ha hr (Set.mem_univ addr)
        (levels_eq_none.mp hl) with ⟨hresult, hnone⟩ | ⟨hresult, n, hfresh, hused, hwalk⟩
      all_goals rw [hresult]
      · exact ⟨Or.inr rfl, fun h => absurd h (by decide),
          fun _ => (levels_eq_none.mpr hnone).trans hl.symm, hother⟩
      · obtain ⟨l, hl', hpte⟩ := levels_of_walk hwalk
        have hpfn : l.pte.pfn = n := by rw [hpte, newEntry_eq]
        have hnew : NewPage vma.accessFlags m (makePresent a vma.accessFlags m pgd addr).2 l :=
          ⟨hpfn ▸ hfresh, hpfn ▸ hused, hpte ▸ newEntry_writable n⟩
        exact ⟨Or.inl rfl, fun _ => ⟨vma, l, harea, hl', Or.inr ⟨hl, hnew⟩⟩,
          fun h => absurd h (by decide), hother⟩

/-- A fault with an error code other than 0x7 makes at most the page of its address present, in a
frame of its own, and changes no other walk at any level. -/
theorem pagefault_effect (ha : a.Fresh) (h : Tidy {pgd} Set.univ m) (areas : List VmArea)
    (addr : U64) (hcode : errorCode ≠ 0x7) :
    Faulted areas m (vmAreaPagefault a m pgd areas addr errorCode).2 pgd addr
      (vmAreaPagefault a m pgd areas addr errorCode).1 := by
  unfold vmAreaPagefault
  cases harea : faultArea addr areas with
  | none => exact Faulted.unchanged
  | some vma =>
      simp only [if_neg hcode]
      split_ifs with hread
      · exact Faulted.unchanged
      · exact makePresent_faulted ha h harea

/-- The first write to a page of an area that may be written. -/
theorem pagefault_effect_sample :
    let areas : List VmArea := [dummyNode, ⟨0x180201000, 0x180203000, 3⟩]
    let answer := vmAreaPagefault nextFrame emptyMachine 1 areas 0x180201000 0x6
    Faulted areas emptyMachine answer.2 1 0x180201000 answer.1 :=
  pagefault_effect nextFrame_fresh emptyMachine_tidy _ _ (by decide : (0x6 : CInt) ≠ 0x7)

end GemOS.Vm
