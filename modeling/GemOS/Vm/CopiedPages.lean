import GemOS.Vm.Accesses
import GemOS.Vm.ProtectData

/-!
# The copy that `handle_cow_fault` makes

After a write fault on a page that is present, the process has a frame of its own for the page,
writable at all four levels, and no other page of any process has changed.
The upper entries that became writable are shared with other pages of the process; their last-level
entries keep the rights they had.
-/

namespace GemOS.Vm

variable {a : FrameAlloc} {m m' : Machine} {t : Tables} {r pgd f n old : Nat} {x y : U64}
variable {s slot : Slot} {e : Entry} {pgds : Finset Nat} {accessFlags : U32}

/-! ## Rights at all levels -/

/-- An entry of the tables is writable. -/
def Tables.CanWrite (t : Tables) (s : Slot) : Prop :=
  (t s.table s.index).writable = true

/-- A writable entry is stored: no right is lost. -/
theorem Tables.CanWrite.put (h : t.CanWrite s) (he : e.writable = true) :
    (t.put slot e).CanWrite s := by
  rw [Tables.CanWrite, put_apply]
  split_ifs
  · exact he
  · exact h

theorem Entry.set_write_writable : (e.set 0x8).writable = true := by
  simp [Entry.set, Entry.writable]

theorem Tables.CanWrite.grant (h : t.CanWrite s) : (t.grant accessFlags slot).CanWrite s := by
  unfold Tables.grant
  split_ifs
  · exact h.put Entry.set_write_writable
  · exact h

theorem Tables.grant_canWrite : (t.grant 3 s).CanWrite s := by
  rw [Tables.grant, if_pos rfl, Tables.setWrite, Tables.CanWrite, put_same]
  exact Entry.set_write_writable

/-- After a write fault the entries of all levels are writable. -/
theorem grantAll_writable {s : Slots} (he : e.writable = true)
    (htable : m'.table = (t.grantAll 3 s).put s.pte e) : s.writable m' = true := by
  have hall : ∀ slot, ((t.grantAll 3 s).put s.pte e).CanWrite slot →
      (m'.entry slot).writable = true := by
    intro slot h
    rw [Machine.entry, htable]
    exact h
  have hpgd := hall s.pgd (Tables.grant_canWrite.grant.grant.put he)
  have hpud := hall s.pud (Tables.grant_canWrite.grant.put he)
  have hpmd := hall s.pmd (Tables.grant_canWrite.put he)
  have hpte : (m'.entry s.pte).writable = true := by
    rw [Machine.entry, htable, put_same]
    exact he
  rw [Slots.writable, hpgd, hpud, hpmd, hpte]
  rfl

/-- A walk leads to one place at each level. -/
theorem Slots.Reached.unique {s s' : Slots} (h : s.Reached t pgd x) (h' : s'.Reached t pgd x) :
    s = s' := by
  have hslot : ∀ {s s' : Slot}, s.table = s'.table → s.index = s'.index → s = s' := by
    intro s s' htable hindex
    rw [Slot.mk.injEq]
    exact ⟨htable, hindex⟩
  have hpud := Option.some.inj (h.pud_slot.2.symm.trans h'.pud_slot.2)
  have hpmd := Option.some.inj (h.pmd_slot.2.symm.trans h'.pmd_slot.2)
  have hpte := Option.some.inj (h.pte_slot.2.symm.trans h'.pte_slot.2)
  rw [Slots.mk.injEq]
  exact ⟨h.pgd_slot.trans h'.pgd_slot.symm, hslot hpud (h.pud_slot.1.trans h'.pud_slot.1.symm),
    hslot hpmd (h.pmd_slot.1.trans h'.pmd_slot.1.symm),
    hslot hpte (h.pte_slot.1.trans h'.pte_slot.1.symm)⟩

/-! ## The fault -/

/-- What a write fault leaves that has given the page of `x` the frame `f` in place of `old`. -/
structure PageCopied (pgds : Finset Nat) (m m' : Machine) (pgd : Nat) (x : U64) (old f : Nat) :
    Prop where
  mapped : ∃ s, presentSlots m' pgd x = some s ∧ s.writable m' = true ∧ (m'.entry s.pte).pfn = f
  bytes : m'.page f = m.page old
  only : ∀ r ∈ pgds, ∀ y, frameOf m'.table r y = some f → r = pgd ∧ pageOf y = pageOf x
  leaf : ∀ r ∈ pgds, ∀ y, ¬ (r = pgd ∧ pageOf y = pageOf x) →
    leaf m'.table r y = leaf m.table r y
  contents : ∀ r ∈ pgds, ∀ y, ¬ (r = pgd ∧ pageOf y = pageOf x) →
    contents m' r y = contents m r y
  refcount : m'.refcount old = m.refcount old - 1
  freed : m'.frames.pagesUsed = if m'.refcount old = 0
    then (f :: m.frames.pagesUsed).filter (· ≠ old) else f :: m.frames.pagesUsed
  last : m'.refcount old = 0 ↔ ∀ r ∈ pgds, ∀ y, frameOf m'.table r y ≠ some old

/-- The reference counts and the frames in use after a page has been copied. -/
theorem copied_counts (hsome : a.page m.frames ≠ 0) (hne : old ≠ a.page m.frames) :
    (m.copied a old).refcount old = m.refcount old - 1 ∧
      (m.copied a old).frames.pagesUsed = if m.refcount old - 1 = 0
        then (a.page m.frames :: m.frames.pagesUsed).filter (· ≠ old)
        else a.page m.frames :: m.frames.pagesUsed := by
  rw [Machine.copied, FrameAlloc.allocPage_some hsome]
  simp only [Machine.release, Machine.putPfn, Function.update_self, Function.update_of_ne hne]
  split_ifs
  · exact ⟨Function.update_self .., rfl⟩
  · exact ⟨Function.update_self .., rfl⟩

/-- A write fault whose walk leads to the slots `s`, part by part. -/
theorem cowFault_parts {s : Slots} (htrees : Trees pgds Set.univ m.table) (hr : pgd ∈ pgds)
    (hs : s.Reached m.table pgd x) (hsome : a.page m.frames ≠ 0)
    (hne : (m.entry s.pte).pfn ≠ a.page m.frames) :
    ∃ m', handleCowFault a m pgd x 3 = (1, m') ∧
      m'.table = (m.table.grantAll 3 s).put s.pte (copiedEntry 3 (a.page m.frames)) ∧
      LeafSet pgds Set.univ m.table m'.table pgd x (copiedEntry 3 (a.page m.frames)) ∧
      m'.page = Function.update m.page (a.page m.frames) (m.page (m.entry s.pte).pfn) ∧
      m'.refcount (m.entry s.pte).pfn = m.refcount (m.entry s.pte).pfn - 1 ∧
      m'.frames.pagesUsed = if m'.refcount (m.entry s.pte).pfn = 0
        then (a.page m.frames :: m.frames.pagesUsed).filter (· ≠ (m.entry s.pte).pfn)
        else a.page m.frames :: m.frames.pagesUsed := by
  obtain ⟨hcow, hset⟩ := handleCowFault_at (a := a) htrees hr (Set.mem_univ x) (Or.inr rfl) hs
  have hnew : (a.allocPage m).1 = a.page m.frames := by rw [FrameAlloc.allocPage_some hsome]
  have hpage := copied_page hsome (hnew.symm ▸ hne)
  obtain ⟨hrefcount, hfrees⟩ := copied_counts hsome hne
  rw [hnew] at hcow hset hpage
  rw [← hrefcount] at hfrees
  exact ⟨_, hcow, rfl, hset, hpage, hrefcount, hfrees⟩

theorem copiedEntry_writable : (copiedEntry 3 n).writable = true :=
  (by decide : (0x19 : BitVec 12).getLsbD 3 = true)

/-- A write fault on a page that is present, with a frame that no page is mapped to. -/
theorem cowFault_isolated (htrees : Trees pgds Set.univ m.table)
    (hrefs : ∀ g, holders pgds m.table g ≠ 0 → m.refcount g = holders pgds m.table g)
    (hr : pgd ∈ pgds) (hwalk : walk m.table pgd x = some e) (halloc : a.page m.frames = f)
    (hsome : f ≠ 0) (hunused : holders pgds m.table f = 0) :
    ∃ m', handleCowFault a m pgd x 3 = (1, m') ∧ PageCopied pgds m m' pgd x e.pfn f := by
  subst halloc
  rcases presentSlots_spec m pgd x with ⟨_, hnone⟩ | ⟨s, _, hs, hentry⟩
  · rw [hnone] at hwalk
    cases hwalk
  obtain rfl : m.entry s.pte = e := Option.some.inj (hentry.symm.trans hwalk)
  have hfresh : ∀ r ∈ pgds, ∀ y, frameOf m.table r y ≠ some (a.page m.frames) :=
    fun r hr y hframe => holders_pos hr hframe hunused
  have hframe := frameOf_of_walk hwalk
  have hne : (m.entry s.pte).pfn ≠ a.page m.frames := fun heq => hfresh pgd hr x (heq ▸ hframe)
  obtain ⟨m', hcow, htable, hset, hpage, hrefcount, hfreed⟩ :=
    cowFault_parts htrees hr hs hsome hne
  refine ⟨m', hcow, ?_⟩
  constructor
  case mapped =>
    -- the walk leads to the slots that it led to before
    have hwalk' := hset.walk (Entry.ref_eq_some.mp (copiedEntry_ref _)).1
    rcases presentSlots_spec m' pgd x with ⟨_, hnone⟩ | ⟨s', hslots, hs', hentry'⟩
    · rw [hnone] at hwalk'
      cases hwalk'
    · obtain rfl := hs'.unique (hs.of_follow hr (Set.mem_univ x) hset.follow)
      have hleaf := Option.some.inj (hentry'.symm.trans hwalk')
      exact ⟨s', hslots, grantAll_writable copiedEntry_writable htable, congrArg Entry.pfn hleaf⟩
  case bytes => rw [hpage, Function.update_self]
  case only =>
    intro r hr' y hy
    by_contra hother
    rw [frameOf, hset.walk_other hr' (Set.mem_univ y) hother] at hy
    exact hfresh r hr' y hy
  case leaf => exact fun r hr' y hother => hset.other r y hr' (Set.mem_univ y) hother
  case contents =>
    have hmoved := hset.moved_fresh hfresh (copiedEntry_ref _) hpage
    exact fun r hr' y hother => contents_of_moved_other hmoved hr' hother
  case refcount => exact hrefcount
  case freed => exact hfreed
  case last =>
    have hheld := hrefs _ (holders_pos hr hframe)
    have hholders := hset.holders_replace hr (copiedEntry_ref _) hwalk (m.entry s.pte).pfn
    rw [if_pos rfl, if_neg (Ne.symm hne)] at hholders
    constructor
    · intro hzero r hr' y hy
      have := holders_pos hr' hy
      omega
    · intro hnone
      have : holders pgds m'.table (m.entry s.pte).pfn = 0 :=
        RefCount.held_eq_zero fun q hq => hnone q.1 (mem_allPages.mp hq).1 _
      omega

/-- The process writes to the page that it shares with its child. -/
theorem cowFault_isolated_sample :
    ∃ m', handleCowFault nextFrame forkedMachine 1 0x180201000 3 = (1, m') ∧
      PageCopied {5, 1} forkedMachine m' 1 0x180201000 1 2 := by
  have hexact : RefsExact {5, 1} forkedMachine :=
    filledMachine_exact.doCfork nextFrame_ample nextFrame_counts 0x180201000
      (Finset.mem_singleton_self 1)
  have hwalk : walk forkedMachine.table 1 0x180201000 = some ⟨1, 0x11⟩ := by decide +kernel
  have halloc : nextFrame.page forkedMachine.frames = 2 := by decide +kernel
  have hunused : holders {5, 1} forkedMachine.table 2 = 0 := by
    by_contra hne
    have hfree : 2 ∉ forkedMachine.frames.pagesUsed := by decide +kernel
    exact hfree ((hexact.frames.used 2).mpr hne)
  exact cowFault_isolated hexact.tidy.trees (fun g _ => hexact.frames.refcount g)
    (Finset.mem_insert_of_mem (Finset.mem_singleton_self 1)) hwalk halloc (by decide) hunused

end GemOS.Vm
