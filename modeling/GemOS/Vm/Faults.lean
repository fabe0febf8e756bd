import GemOS.Vm.TableEdits

/-!
# Faults and new tables

`handle_cow_fault` replaces the page of one address by a copy. `vm_area_pagefault` makes a page
present, and on the way to it installs empty tables, which no walk sees.
-/

namespace GemOS.Vm

open Radix (follow Separated Installed)

variable {t t' t₁ t₂ : Tables} {m m' m₁ : Machine} {r r' pgd f g pfn : Nat} {x y : U64} {i : U64}
variable {s : Slot} {e e' : Entry} {roots : Set Nat} {area : Set U64} {p q : List U64}
variable {a : FrameAlloc} {accessFlags : U32}

/-! ## `handle_cow_fault` -/

/-- The frame of an entry that refers to one. -/
theorem Entry.pfn_of_ref (h : e.ref = some f) : e.pfn = f :=
  (Entry.ref_eq_some.mp h).2

/-- `grant`, for tables. -/
def Tables.grant (accessFlags : U32) (t : Tables) (s : Slot) : Tables :=
  if accessFlags = 3 then t.setWrite s else t

/-- What `grantUpper` does to the entries of an address. -/
def Tables.grantAll (accessFlags : U32) (t : Tables) (s : Slots) : Tables :=
  ((t.grant accessFlags s.pgd).grant accessFlags s.pud).grant accessFlags s.pmd

/-- The upper levels of `handle_cow_fault` come to the last-level entry of a walk. -/
theorem grantUpper_spec (accessFlags : U32) (h : Trees roots area m.table) (hr : pgd ∈ roots)
    (hx : x ∈ area) {s : Slots} (hs : s.Reached m.table pgd x) :
    grantUpper accessFlags m pgd x =
        (s.pte, { m with table := m.table.grantAll accessFlags s }) ∧
      SameLeaves roots area m.table (m.table.grantAll accessFlags s) := by
  have hupper : ∀ {t slot}, Trees roots area t → s.Reached t pgd x →
      slot = s.pgd ∨ slot = s.pud ∨ slot = s.pmd →
      SameLeaves roots area t (t.grant accessFlags slot) ∧
        s.Reached (t.grant accessFlags slot) pgd x := by
    intro t slot ht hs hslot
    unfold Tables.grant
    split_ifs
    · exact hs.setWrite_upper ht hr hx hslot
    · exact ⟨SameLeaves.refl, hs⟩
  have hgrant : ∀ t slot, grant accessFlags { m with table := t } slot =
      { m with table := t.grant accessFlags slot } := by
    intro t slot
    unfold grant Tables.grant
    split_ifs <;> rfl
  obtain ⟨hpgd, hs₁⟩ := hupper h hs (Or.inl rfl)
  have h₁ := hpgd.trees h
  obtain ⟨hpud, hs₂⟩ := hupper h₁ hs₁ (Or.inr (Or.inl rfl))
  have h₂ := hpud.trees h₁
  obtain ⟨hpmd, hs₃⟩ := hupper h₂ hs₂ (Or.inr (Or.inr rfl))
  refine ⟨?_, (hpgd.trans hpud).trans hpmd⟩
  -- each level finds the slot of the next one
  unfold grantUpper
  simp only
  rw [← hs.pgd_slot, show grant accessFlags m s.pgd = _ from hgrant m.table s.pgd]
  have hpud_slot : ∀ {t}, s.Reached t pgd x →
      (⟨({ m with table := t }.entry s.pgd).pfn, pudIdx x⟩ : Slot) = s.pud := by
    intro t hs
    rw [← hs.pud_slot.1]
    exact congrArg (Slot.mk · _) (Entry.pfn_of_ref hs.refs.1)
  have hpmd_slot : ∀ {t}, s.Reached t pgd x →
      (⟨({ m with table := t }.entry s.pud).pfn, pmdIdx x⟩ : Slot) = s.pmd := by
    intro t hs
    rw [← hs.pmd_slot.1]
    exact congrArg (Slot.mk · _) (Entry.pfn_of_ref hs.refs.2.1)
  have hpte_slot : ∀ {t}, s.Reached t pgd x →
      (⟨({ m with table := t }.entry s.pmd).pfn, pteIdx x⟩ : Slot) = s.pte := by
    intro t hs
    rw [← hs.pte_slot.1]
    exact congrArg (Slot.mk · _) (Entry.pfn_of_ref hs.refs.2.2)
  rw [hpud_slot hs₁, hgrant, hpmd_slot hs₂, hgrant, hpte_slot hs₃]
  rfl

/-- The machine after a page has been copied for one of its holders, apart from the tables. -/
def Machine.copied (a : FrameAlloc) (m : Machine) (oldPfn : Nat) : Machine :=
  let (newPfn, m) := a.allocPage m
  { m with page := Function.update m.page newPfn (m.page oldPfn) }.release oldPfn

/-- Handing out a page does not look at the tables. -/
theorem FrameAlloc.allocPage_withTable : a.allocPage { m with table := t } =
    ((a.allocPage m).1, { (a.allocPage m).2 with table := t }) := by
  simp only [FrameAlloc.allocPage]
  split_ifs <;> rfl

/-- The second of two stores into one slot counts. -/
theorem Machine.setEntry_setEntry : (m.setEntry s e).setEntry s e' = m.setEntry s e' := by
  rw [Machine.setEntry, Machine.setEntry_table, put_put]
  rfl

/-- The entry of a page that has been copied. -/
def copiedEntry (accessFlags : U32) (n : Nat) : Entry :=
  ⟨n, if accessFlags = 3 then 0x19 else 0x11⟩

/-- The entry that `handle_cow_fault` stores, in one expression. -/
theorem copiedEntry_eq (n : Nat) : copiedEntry accessFlags n =
    if accessFlags = 3 then (Entry.mk n 0x11).set 0x8 else (Entry.mk n 0x11).clear 0x8 := by
  have hclear : (0x11 : BitVec 12) &&& ~~~0x8 = 0x11 := by decide
  rw [copiedEntry, Entry.set_write_new, Entry.clear, hclear]
  split_ifs <;> rfl

/-- The tables after `handle_cow_fault`, when a walk leads to the slots `s`. -/
theorem handleCowFault_at (h : Trees roots area m.table) (hr : pgd ∈ roots) (hx : x ∈ area)
    (hflags : accessFlags = 1 ∨ accessFlags = 3) {s : Slots} (hs : s.Reached m.table pgd x) :
    handleCowFault a m pgd x accessFlags = (1, { m.copied a (m.entry s.pte).pfn with
        table := (m.table.grantAll accessFlags s).put s.pte
          (copiedEntry accessFlags (a.allocPage m).1) }) ∧
      LeafSet roots area m.table ((m.table.grantAll accessFlags s).put s.pte
        (copiedEntry accessFlags (a.allocPage m).1)) pgd x
        (copiedEntry accessFlags (a.allocPage m).1) := by
  obtain ⟨hupper, hsame⟩ := grantUpper_spec accessFlags h hr hx hs
  have hs' := hs.of_follow hr hx hsame.follow
  -- the last-level entry is still the one of the walk
  have hold : m.table.grantAll accessFlags s s.pte.table s.pte.index = m.entry s.pte := by
    have hleaf := hsame.leaf pgd x hr hx
    rw [hs'.leaf, hs.leaf] at hleaf
    exact Option.some.inj hleaf
  refine ⟨?_, hsame.trans_set (hs'.put_leaf (hsame.trees h) hr hx)⟩
  have hentry' : ({ (a.allocPage m).2 with table := m.table.grantAll accessFlags s } :
      Machine).entry s.pte = m.entry s.pte := hold
  have hgood : ¬ (accessFlags ≠ 1 ∧ accessFlags ≠ 3) := fun hbad => hflags.elim hbad.1 hbad.2
  rw [handleCowFault, if_neg hgood, hupper]
  simp only [copyOnWrite, FrameAlloc.allocPage_withTable, hentry', Machine.copied,
    Machine.modify, Machine.entry_setEntry, Machine.setEntry_setEntry, ← copiedEntry_eq,
    ← Machine.release_withTable]
  rfl

/-- A fault on a page that is present gives the process a copy of the page. -/
theorem handleCowFault_spec (h : Trees roots area m.table) (hr : pgd ∈ roots) (hx : x ∈ area)
    (hflags : accessFlags = 1 ∨ accessFlags = 3) (hwalk : walk m.table pgd x = some e) :
    ∃ t, handleCowFault a m pgd x accessFlags = (1, { m.copied a e.pfn with table := t }) ∧
      LeafSet roots area m.table t pgd x (copiedEntry accessFlags (a.allocPage m).1) := by
  rcases presentSlots_spec m pgd x with ⟨_, hnone⟩ | ⟨s, _, hs, hentry⟩
  · rw [hnone] at hwalk
    cases hwalk
  obtain rfl : m.entry s.pte = e := Option.some.inj (hentry.symm.trans hwalk)
  exact ⟨_, handleCowFault_at h hr hx hflags hs⟩

/-! ## New tables -/

/-- The page tables are separate, and the allocator knows their frames. -/
structure Tidy (roots : Set Nat) (area : Set U64) (m : Machine) : Prop where
  trees : Trees roots area m.table
  used : ∀ r p f, InScope roots area r p → follow Entry.ref m.table r p = some f →
    f ∈ m.frames.tablesUsed

/-- The allocator only chooses frames that are not in use. -/
structure FrameAlloc.Fresh (a : FrameAlloc) : Prop where
  table : ∀ frames, a.table frames ≠ 0 → a.table frames ∉ frames.tablesUsed
  page : ∀ frames, a.page frames ≠ 0 → a.page frames ∉ frames.pagesUsed

/-- Tables have been added below entries that were not present; no walk has changed. -/
structure Extended (roots : Set Nat) (area : Set U64) (m m' : Machine) : Prop where
  tidy : Tidy roots area m'
  walk : ∀ r x, r ∈ roots → x ∈ area → walk m'.table r x = walk m.table r x
  follow : ∀ r p f, InScope roots area r p → follow Entry.ref m.table r p = some f →
    follow Entry.ref m'.table r p = some f
  page : m'.page = m.page
  refcount : m'.refcount = m.refcount
  pagesUsed : m'.frames.pagesUsed = m.frames.pagesUsed

/-- No table is added. -/
theorem Extended.refl (h : Tidy roots area m) : Extended roots area m m :=
  ⟨h, fun _ _ _ _ => rfl, fun _ _ _ _ => id, rfl, rfl, rfl⟩

/-- Tables are added twice. -/
theorem Extended.trans (h : Extended roots area m m₁) (h' : Extended roots area m₁ m') :
    Extended roots area m m' :=
  ⟨h'.tidy, fun r x hr hx => (h'.walk r x hr hx).trans (h.walk r x hr hx),
    fun r p f hp hf => h'.follow r p f hp (h.follow r p f hp hf), h'.page.trans h.page,
    h'.refcount.trans h.refcount, h'.pagesUsed.trans h.pagesUsed⟩

/-- A new table takes no page and no reference. -/
theorem FrameAlloc.allocTable_frames : (a.allocTable m).2.page = m.page ∧
    (a.allocTable m).2.refcount = m.refcount ∧
    (a.allocTable m).2.frames.pagesUsed = m.frames.pagesUsed := by
  unfold FrameAlloc.allocTable
  simp only
  split_ifs <;> exact ⟨rfl, rfl, rfl⟩

/-- A new table, seen as an installation of an empty one. -/
theorem Tidy.installed (h : Tidy roots area m) (ha : a.Fresh) (hnew : (a.allocTable m).1 ≠ 0)
    (hf : follow Entry.ref m.table r q = some f) (hq : InScope roots area r q)
    (habsent : (m.entry ⟨f, i⟩).present = false) (he : e.ref = some (a.allocTable m).1) :
    Installed Entry.ref (InScope roots area) m.table
      ((a.allocTable m).2.setEntry ⟨f, i⟩ e).table r q i (a.allocTable m).1 ∧
    (a.allocTable m).2.frames.tablesUsed = (a.allocTable m).1 :: m.frames.tablesUsed ∧
    (∀ j, ((a.allocTable m).2.setEntry ⟨f, i⟩ e).table (a.allocTable m).1 j = .zero) ∧
    ∀ g j, g ≠ (a.allocTable m).1 → (⟨g, j⟩ : Slot) ≠ ⟨f, i⟩ →
      ((a.allocTable m).2.setEntry ⟨f, i⟩ e).table g j = m.table g j := by
  have hpfn : a.table m.frames ≠ 0 := fun hzero => hnew (by simp [FrameAlloc.allocTable, hzero])
  have halloc : a.allocTable m = (a.table m.frames, _) := if_neg hpfn
  rw [halloc] at he ⊢
  have hfresh : ∀ r p, InScope roots area r p →
      follow Entry.ref m.table r p ≠ some (a.table m.frames) := fun r p hp hg =>
    ha.table _ hpfn (h.used r p _ hp hg)
  have hne : a.table m.frames ≠ f := fun heq => hfresh r q hq (heq ▸ hf)
  have hempty : ∀ j, Tables.put (fun f i => if f = a.table m.frames then .zero else m.table f i)
      ⟨f, i⟩ e (a.table m.frames) j = .zero := by
    intro j
    rw [put_apply, if_neg fun heq => hne (congrArg Slot.table heq), if_pos rfl]
  have hothers : ∀ g j, g ≠ a.table m.frames → (⟨g, j⟩ : Slot) ≠ ⟨f, i⟩ →
      Tables.put (fun f i => if f = a.table m.frames then .zero else m.table f i) ⟨f, i⟩ e g j =
        m.table g j := by
    intro g j hg hslot
    rw [put_apply, if_neg hslot, if_neg hg]
  refine ⟨⟨hfresh, fun j => congrArg Entry.ref (hempty j), ⟨f, hf, ?_, ?_⟩, fun g j hg hslot => ?_⟩,
    rfl, hempty, hothers⟩
  · exact Entry.ref_of_not_present habsent
  · exact (congrArg Entry.ref put_same).trans he
  · refine congrArg Entry.ref (hothers g j hg fun heq => hslot ?_)
    obtain ⟨rfl, rfl⟩ := Slot.mk.inj heq
    exact ⟨hf, rfl⟩

/-- A new table is empty, and what is stored at the last level stays. -/
theorem Tidy.install_leafEntry (h : Tidy roots area m) (ha : a.Fresh)
    (hnew : (a.allocTable m).1 ≠ 0) (hq : InScope roots area r (q ++ [i]))
    (hf : follow Entry.ref m.table r q = some f) (habsent : (m.entry ⟨f, i⟩).present = false)
    (he : e.ref = some (a.allocTable m).1) {r' : Nat} {y : U64} (hr' : r' ∈ roots)
    (hy : y ∈ area) :
    leafEntry ((a.allocTable m).2.setEntry ⟨f, i⟩ e).table r' y = leafEntry m.table r' y := by
  have hq₀ : InScope roots area r q := inScope_closed _ _ _ hq (List.prefix_append q [i])
  obtain ⟨hinst, _, hempty, hothers⟩ := h.installed ha hnew hf hq₀ habsent he
  have hy' : InScope roots area r' (tablePath y) := ⟨hr', y, hy, List.prefix_refl _⟩
  rw [leafEntry, leafEntry, leaf, leaf, tableOf, tableOf]
  by_cases heq : r' = r ∧ tablePath y = q ++ [i]
  · -- the new table is the last one for the address
    obtain ⟨rfl, hpath⟩ := heq
    have hbefore : follow Entry.ref m.table r' (q ++ [i]) = none :=
      (follow_entry hf).trans (Entry.ref_of_not_present habsent)
    rw [hpath, hinst.follow_new h.trees inScope_closed hq₀, hbefore, Option.map_some, hempty]
    rfl
  · rw [hinst.follow_other h.trees inScope_closed hq₀ hy' heq]
    cases hg : follow Entry.ref m.table r' (tablePath y) with
    | none => rfl
    | some g =>
        rw [Option.map_some, Option.map_some,
          hothers g _ fun hpfn => hinst.fresh r' _ hy' (hpfn ▸ hg)]
        rintro hslot
        obtain ⟨rfl, _⟩ := Slot.mk.inj hslot
        obtain ⟨_, rfl⟩ := h.trees _ _ _ _ _ hy' hq₀ hg hf
        exact absurd hq.length_le (by simp [tablePath])

/-- A new table below an entry that was not present. -/
theorem Tidy.install (h : Tidy roots area m) (ha : a.Fresh) (hnew : (a.allocTable m).1 ≠ 0)
    (hq : InScope roots area r (q ++ [i])) (hf : follow Entry.ref m.table r q = some f)
    (habsent : (m.entry ⟨f, i⟩).present = false) (he : e.ref = some (a.allocTable m).1) :
    Extended roots area m ((a.allocTable m).2.setEntry ⟨f, i⟩ e) ∧
      follow Entry.ref ((a.allocTable m).2.setEntry ⟨f, i⟩ e).table r (q ++ [i]) =
        some (a.allocTable m).1 := by
  have hq₀ : InScope roots area r q := inScope_closed _ _ _ hq (List.prefix_append q [i])
  obtain ⟨hinst, hused, hempty, hothers⟩ := h.installed ha hnew hf hq₀ habsent he
  obtain ⟨hpage, hrefcount, hpages⟩ := FrameAlloc.allocTable_frames (a := a) (m := m)
  have hbefore : follow Entry.ref m.table r (q ++ [i]) = none :=
    (follow_entry hf).trans (Entry.ref_of_not_present habsent)
  have hafter := hinst.follow_new h.trees inScope_closed hq₀
  have hkeep : ∀ r' p, InScope roots area r' p → ¬ (r' = r ∧ p = q ++ [i]) →
      follow Entry.ref ((a.allocTable m).2.setEntry ⟨f, i⟩ e).table r' p =
        follow Entry.ref m.table r' p := fun r' p hp hne =>
    hinst.follow_other h.trees inScope_closed hq₀ hp hne
  refine ⟨⟨⟨hinst.separated h.trees inScope_closed hq₀, fun r' p g hp hg => ?_⟩,
    fun r' y hr' hy => ?_, fun r' p g hp hg => ?_, hpage, hrefcount, hpages⟩, hafter⟩
  · show g ∈ (a.allocTable m).2.frames.tablesUsed
    rw [hused]
    by_cases heq : r' = r ∧ p = q ++ [i]
    · obtain ⟨rfl, rfl⟩ := heq
      rw [hafter] at hg
      exact Option.some.inj hg ▸ List.mem_cons_self
    · exact List.mem_cons_of_mem _ (h.used r' p g hp (hkeep r' p hp heq ▸ hg))
  · exact walk_of_leafEntry (h.install_leafEntry ha hnew hq hf habsent he hr' hy)
  · rw [hkeep r' p hp fun heq => ?_]
    · exact hg
    · obtain ⟨rfl, rfl⟩ := heq
      rw [hbefore] at hg
      cases hg

/-- The entry that a page fault stores, as a number. -/
theorem newEntry_eq (n : Nat) :
    newEntry n accessFlags = ⟨n, if accessFlags = 3 then 0x19 else 0x11⟩ := by
  have huser : (0x1 : BitVec 12) ||| 0x10 = 0x11 := by decide
  have hwrite : (0x11 : BitVec 12) ||| 0x8 = 0x19 := by decide
  simp only [newEntry, Entry.set, huser, hwrite]
  split_ifs <;> rfl

/-- It is present. -/
theorem newEntry_present (n : Nat) : (newEntry n accessFlags).present = true := by
  have hbit : ∀ b : Bool, (if b then 0x19 else 0x11 : BitVec 12).getLsbD 0 = true := by decide
  rw [newEntry_eq, Entry.present]
  simpa using hbit (accessFlags = 3)

/-- It refers to the new frame. -/
theorem newEntry_ref (n : Nat) : (newEntry n accessFlags).ref = some n := by
  rw [Entry.ref_eq_some]
  exact ⟨newEntry_present n, by rw [newEntry_eq]⟩

/-- A failed allocation adds no table. -/
theorem Tidy.allocFailed (h : Tidy roots area m) : Extended roots area m m.allocFailed :=
  ⟨⟨h.trees, h.used⟩, fun _ _ _ _ => rfl, fun _ _ _ _ => id, rfl, rfl, rfl⟩

/-- The machine after no frame was left for a table. -/
theorem FrameAlloc.allocTable_of_zero (h : (a.allocTable m).1 = 0) :
    (a.allocTable m).2 = m.allocFailed := by
  unfold FrameAlloc.allocTable at h ⊢
  simp only at h ⊢
  split_ifs at h ⊢ with hzero
  · rfl
  · exact absurd h hzero

/-- The machine after no frame was left for a page. -/
theorem FrameAlloc.allocPage_of_zero (h : (a.allocPage m).1 = 0) :
    (a.allocPage m).2 = m.allocFailed := by
  unfold FrameAlloc.allocPage at h ⊢
  simp only at h ⊢
  split_ifs at h ⊢ with hzero
  · rfl
  · exact absurd h hzero

/-- One upper level of `vm_area_pagefault`. -/
theorem ensureTable_spec {found : Bool} (h : Tidy roots area m) (ha : a.Fresh)
    (hq : InScope roots area r (q ++ [i])) (hf : follow Entry.ref m.table r q = some f)
    (hstep : ensureTable a accessFlags m ⟨f, i⟩ = (found, m')) :
    Extended roots area m m' ∧
      (found = true → follow Entry.ref m'.table r (q ++ [i]) = some (m'.entry ⟨f, i⟩).pfn) := by
  unfold ensureTable at hstep
  split_ifs at hstep with hpresent
  · obtain ⟨rfl, rfl⟩ := Prod.mk.inj hstep
    exact ⟨Extended.refl h,
      fun _ => (follow_entry hf).trans (Entry.ref_eq_some.mpr ⟨hpresent, rfl⟩)⟩
  · simp only at hstep
    split_ifs at hstep with hzero <;> obtain ⟨rfl, rfl⟩ := Prod.mk.inj hstep
    · rw [FrameAlloc.allocTable_of_zero hzero]
      exact ⟨h.allocFailed, nofun⟩
    · obtain ⟨hextended, hnew⟩ :=
        h.install ha hzero hq hf (by simpa using hpresent) (newEntry_ref _)
      refine ⟨hextended, fun _ => ?_⟩
      rw [hnew, Machine.entry_setEntry, newEntry_eq]

/-- Setting a leaf keeps the tables tidy. -/
theorem Tidy.leafSet (h : Tidy roots area m) (hset : LeafSet roots area m.table m'.table r x e)
    (hframes : m'.frames.tablesUsed = m.frames.tablesUsed) : Tidy roots area m' :=
  ⟨hset.trees h.trees, fun r p f hp hf => hframes ▸ h.used r p f hp (hset.follow r p hp ▸ hf)⟩

/-- Handing out a page uses no table. -/
theorem FrameAlloc.allocPage_tablesUsed :
    (a.allocPage m).2.frames.tablesUsed = m.frames.tablesUsed := by
  unfold FrameAlloc.allocPage
  simp only
  split_ifs <;> rfl

/-- The page of one address may have become present. -/
structure MadePresent (roots : Set Nat) (area : Set U64) (accessFlags : U32) (m m' : Machine)
    (pgd : Nat) (x : U64) : Prop where
  tidy : Tidy roots area m'
  other : ∀ r y, r ∈ roots → y ∈ area → ¬ (r = pgd ∧ pageOf y = pageOf x) →
    walk m'.table r y = walk m.table r y
  this : walk m'.table pgd x = walk m.table pgd x ∨ walk m.table pgd x = none ∧
    ∃ n, walk m'.table pgd x = some ⟨n, if accessFlags = 3 then 0x19 else 0x11⟩

/-- Tables were added, and the fault got no further. -/
theorem Extended.madePresent (h : Extended roots area m m') (hr : pgd ∈ roots) (hx : x ∈ area) :
    MadePresent roots area accessFlags m m' pgd x :=
  ⟨h.tidy, fun r y hr hy _ => h.walk r y hr hy, Or.inl (h.walk pgd x hr hx)⟩

/-- Tables are added, and then the page is made present. -/
theorem Extended.trans_madePresent (h : Extended roots area m m₁) (hr : pgd ∈ roots)
    (hx : x ∈ area) (h' : MadePresent roots area accessFlags m₁ m' pgd x) :
    MadePresent roots area accessFlags m m' pgd x :=
  ⟨h'.tidy, fun r y hr hy hne => (h'.other r y hr hy hne).trans (h.walk r y hr hy),
    by rw [← h.walk pgd x hr hx]; exact h'.this⟩

/-- The last level of `vm_area_pagefault` stores one entry for a new page. -/
theorem ensurePage_new (habsent : ¬ (m.entry s).present = true) (hnew : (a.allocPage m).1 ≠ 0) :
    ensurePage a accessFlags m s =
      (1, (a.allocPage m).2.setEntry s (newEntry (a.allocPage m).1 accessFlags)) := by
  rw [ensurePage, if_neg habsent]
  simp only [if_neg hnew]
  split_ifs with hflags
  · rfl
  · have hclear : (0x11 : BitVec 12) &&& ~~~0x8 = 0x11 := by decide
    rw [Machine.modify, Machine.setEntry_setEntry, Machine.entry_setEntry, newEntry_eq,
      if_neg hflags, Entry.clear, hclear]

/-- The fault is refused if no frame is left for the page. -/
theorem ensurePage_none (habsent : ¬ (m.entry s).present = true) (hnew : (a.allocPage m).1 = 0) :
    ensurePage a accessFlags m s = (-EINVAL, m.allocFailed) := by
  rw [ensurePage, if_neg habsent]
  simp only [if_pos hnew, FrameAlloc.allocPage_of_zero hnew]

variable (a accessFlags) in
/-- The entry that a new page gets. -/
theorem Trees.newPage (h : Trees roots area m.table) (hr : pgd ∈ roots) (hx : x ∈ area)
    (hf : tableOf m.table pgd x = some f) :
    LeafSet roots area m.table ((a.allocPage m).2.setEntry ⟨f, pteIdx x⟩
      (newEntry (a.allocPage m).1 accessFlags)).table pgd x
      (newEntry (a.allocPage m).1 accessFlags) := by
  rw [Machine.setEntry_table, FrameAlloc.allocPage_table]
  exact h.put_leaf hr hx hf

/-- The last level of `vm_area_pagefault`. -/
theorem ensurePage_spec (h : Tidy roots area m) (hr : pgd ∈ roots) (hx : x ∈ area)
    (hf : tableOf m.table pgd x = some f) :
    MadePresent roots area accessFlags m (ensurePage a accessFlags m ⟨f, pteIdx x⟩).2 pgd x := by
  by_cases hpresent : (m.entry ⟨f, pteIdx x⟩).present = true
  · rw [ensurePage, if_pos hpresent]
    exact (Extended.refl h).madePresent hr hx
  by_cases hzero : (a.allocPage m).1 = 0
  · rw [ensurePage_none hpresent hzero]
    exact h.allocFailed.madePresent hr hx
  rw [ensurePage_new hpresent hzero]
  have hleaf : leaf m.table pgd x = some (m.entry ⟨f, pteIdx x⟩) := leaf_eq_some.mpr ⟨f, hf, rfl⟩
  have hset := h.trees.newPage a accessFlags hr hx hf
  refine ⟨h.leafSet hset FrameAlloc.allocPage_tablesUsed,
    fun r' y hr' hy hne => hset.walk_other hr' hy hne,
    Or.inr ⟨?_, (a.allocPage m).1, ?_⟩⟩
  · rw [walk, hleaf]
    exact Option.filter_some_neg (by simpa using hpresent)
  · rw [hset.walk (newEntry_present _), newEntry_eq]

/-- A table that is handed out is no failure. -/
theorem FrameAlloc.allocTable_failed (h : (a.allocTable m).1 ≠ 0) :
    (a.allocTable m).2.frames.failed = m.frames.failed := by
  unfold FrameAlloc.allocTable at h ⊢
  simp only at h ⊢
  split_ifs at h ⊢ with hzero
  · exact absurd rfl h
  · rfl

/-- A level that was found or made took no failed allocation. -/
theorem ensureTable_failed (hstep : ensureTable a accessFlags m s = (true, m')) :
    m'.frames.failed = m.frames.failed := by
  unfold ensureTable at hstep
  split_ifs at hstep with hpresent
  · rw [← (Prod.mk.inj hstep).2]
  · simp only at hstep
    split_ifs at hstep with hzero
    · exact absurd (Prod.mk.inj hstep).1 (by decide)
    · rw [← (Prod.mk.inj hstep).2]
      exact FrameAlloc.allocTable_failed hzero

variable (accessFlags) in
/-- `vm_area_pagefault` for a page that need not be present: either a table is missing, or the
last level is reached. -/
theorem makePresent_cases (h : Tidy roots area m) (ha : a.Fresh) (hr : pgd ∈ roots)
    (hx : x ∈ area) : ∃ m₁, Extended roots area m m₁ ∧
      (makePresent a accessFlags m pgd x = (-EINVAL, m₁) ∨
        m₁.frames.failed = m.frames.failed ∧ ∃ f, tableOf m₁.table pgd x = some f ∧
          makePresent a accessFlags m pgd x = ensurePage a accessFlags m₁ ⟨f, pteIdx x⟩) := by
  have hroot : follow Entry.ref m.table pgd [] = some pgd := rfl
  have hscope : ∀ p, p <+: tablePath x → InScope roots area pgd p := fun p hp => ⟨hr, x, hx, hp⟩
  unfold makePresent
  simp only
  rcases h₁ : ensureTable a accessFlags m ⟨pgd, pgdIdx x⟩ with ⟨_ | _, m₁⟩
  all_goals
    obtain ⟨hext₁, hpud⟩ := ensureTable_spec h ha (q := []) (hscope _ ⟨_, rfl⟩) hroot h₁
  · exact ⟨m₁, hext₁, Or.inl rfl⟩
  simp only
  rcases h₂ : ensureTable a accessFlags m₁ ⟨(m₁.entry ⟨pgd, pgdIdx x⟩).pfn, pudIdx x⟩
    with ⟨_ | _, m₂⟩
  all_goals
    obtain ⟨hext₂, hpmd⟩ := ensureTable_spec hext₁.tidy ha (hscope _ ⟨_, rfl⟩) (hpud rfl) h₂
  · exact ⟨m₂, hext₁.trans hext₂, Or.inl rfl⟩
  simp only
  rcases h₃ : ensureTable a accessFlags m₂
      ⟨(m₂.entry ⟨(m₁.entry ⟨pgd, pgdIdx x⟩).pfn, pudIdx x⟩).pfn, pmdIdx x⟩ with ⟨_ | _, m₃⟩
  all_goals
    obtain ⟨hext₃, hpte⟩ :=
      ensureTable_spec hext₂.tidy ha (hscope _ (List.prefix_refl _)) (hpmd rfl) h₃
  · exact ⟨m₃, hext₁.trans (hext₂.trans hext₃), Or.inl rfl⟩
  · refine ⟨m₃, hext₁.trans (hext₂.trans hext₃), Or.inr ⟨?_, _, hpte rfl, rfl⟩⟩
    rw [ensureTable_failed h₃, ensureTable_failed h₂, ensureTable_failed h₁]

variable (accessFlags) in
/-- `vm_area_pagefault` for a page that need not be present. -/
theorem makePresent_spec (h : Tidy roots area m) (ha : a.Fresh) (hr : pgd ∈ roots)
    (hx : x ∈ area) :
    MadePresent roots area accessFlags m (makePresent a accessFlags m pgd x).2 pgd x := by
  obtain ⟨m₁, hext, hresult | ⟨_, f, hf, hresult⟩⟩ :=
    makePresent_cases accessFlags h ha hr hx
  all_goals rw [hresult]
  · exact hext.madePresent hr hx
  · exact hext.trans_madePresent hr hx (ensurePage_spec hext.tidy hr hx hf)

end GemOS.Vm
