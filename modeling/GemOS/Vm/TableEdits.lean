import GemOS.Vm.Walks

/-!
# Edits of page tables

What the functions for one address change. `freePFN`, and `updatePFN` for read-only pages, only
take rights away, in any tables. The other functions rely on page tables that do not share frames,
`Trees`: then an edit of a last-level entry is seen at its own page alone.
-/

namespace GemOS.Vm

open Radix (follow Separated PrefixClosed follow_congr)

variable {t t' t₁ t₂ : Tables} {m m' : Machine} {r r' pgd f g : Nat} {x y : U64}
variable {s : Slot} {e e' e₁ e₂ : Entry} {roots : Set Nat} {area : Set U64} {p q : List U64}

/-! ## Separate tables -/

/-- The paths to the tables for the addresses of an area, in the page tables of some processes. -/
def InScope (roots : Set Nat) (area : Set U64) (r : Nat) (p : List U64) : Prop :=
  r ∈ roots ∧ ∃ x ∈ area, p <+: tablePath x

/-- These tables are different frames. -/
def Trees (roots : Set Nat) (area : Set U64) (t : Tables) : Prop :=
  Separated Entry.ref (InScope roots area) t

/-- A prefix of a path to an entry is a path to a table on the way. -/
theorem inScope_closed : PrefixClosed (InScope roots area) :=
  fun _ _ _ ⟨hr, x, hx, hq⟩ hp => ⟨hr, x, hx, hp.trans hq⟩

/-- A path of the walk names at most three entries above the last level. -/
theorem InScope.length_le (h : InScope roots area r p) : p.length ≤ 3 :=
  h.2.choose_spec.2.length_le

/-- Entries that only lose bits leave the tables trees. -/
theorem Trees.weaker (h : Trees roots area t) (hweaker : Weaker t t') : Trees roots area t' :=
  Separated.of_shrinks h fun g i f hf => (hweaker g i).ref f hf

/-- Paths and last-level entries are as they were. -/
structure SameLeaves (roots : Set Nat) (area : Set U64) (t t' : Tables) : Prop where
  follow : ∀ r p, InScope roots area r p → follow Entry.ref t' r p = follow Entry.ref t r p
  leaf : ∀ r x, r ∈ roots → x ∈ area → leaf t' r x = leaf t r x

/-- One last-level entry has been replaced. -/
structure LeafSet (roots : Set Nat) (area : Set U64) (t t' : Tables) (r : Nat) (x : U64)
    (e : Entry) : Prop where
  follow : ∀ r p, InScope roots area r p → follow Entry.ref t' r p = follow Entry.ref t r p
  other : ∀ r' y, r' ∈ roots → y ∈ area → ¬ (r' = r ∧ pageOf y = pageOf x) →
    leaf t' r' y = leaf t r' y
  leaf : leaf t' r x = some e

/-- Nothing is changed. -/
theorem SameLeaves.refl : SameLeaves roots area t t :=
  ⟨fun _ _ _ => rfl, fun _ _ _ _ => rfl⟩

/-- Two changes that keep all leaves, one after the other. -/
theorem SameLeaves.trans (h : SameLeaves roots area t t₁) (h' : SameLeaves roots area t₁ t₂) :
    SameLeaves roots area t t₂ :=
  ⟨fun r p hp => (h'.follow r p hp).trans (h.follow r p hp),
    fun r x hr hx => (h'.leaf r x hr hx).trans (h.leaf r x hr hx)⟩

/-- A change that keeps all leaves leaves the tables trees. -/
theorem SameLeaves.trees (h : SameLeaves roots area t t') (ht : Trees roots area t) :
    Trees roots area t' :=
  Separated.congr ht h.follow

/-- Setting one leaf leaves the tables trees. -/
theorem LeafSet.trees (h : LeafSet roots area t t' r x e) (ht : Trees roots area t) :
    Trees roots area t' :=
  Separated.congr ht h.follow

/-- A leaf is set, and what follows keeps the leaves. -/
theorem LeafSet.trans_same (hr : r ∈ roots) (hx : x ∈ area) (h : LeafSet roots area t t₁ r x e)
    (h' : SameLeaves roots area t₁ t₂) : LeafSet roots area t t₂ r x e :=
  ⟨fun r p hp => (h'.follow r p hp).trans (h.follow r p hp),
    fun r' y hr hy hne => (h'.leaf r' y hr hy).trans (h.other r' y hr hy hne),
    (h'.leaf r x hr hx).trans h.leaf⟩

/-- What comes before keeps the leaves, and then one is set. -/
theorem SameLeaves.trans_set (h : SameLeaves roots area t t₁)
    (h' : LeafSet roots area t₁ t₂ r x e) : LeafSet roots area t t₂ r x e :=
  ⟨fun r p hp => (h'.follow r p hp).trans (h.follow r p hp),
    fun r' y hr hy hne => (h'.other r' y hr hy hne).trans (h.leaf r' y hr hy), h'.leaf⟩

/-- The walks of other pages are as they were. -/
theorem LeafSet.walk_other (h : LeafSet roots area t t' r x e) (hr : r' ∈ roots) (hy : y ∈ area)
    (hne : ¬ (r' = r ∧ pageOf y = pageOf x)) : walk t' r' y = walk t r' y := by
  rw [walk, walk, h.other r' y hr hy hne]

/-- A walk to the address that was set finds the new entry, if this is present. -/
theorem LeafSet.walk (h : LeafSet roots area t t' r x e) (hpresent : e.present = true) :
    walk t' r x = some e :=
  walk_eq_some.mpr ⟨h.leaf, hpresent⟩

/-- Walks are as before where the leaves are. -/
theorem SameLeaves.walk (h : SameLeaves roots area t t') (hr : r ∈ roots) (hx : x ∈ area) :
    walk t' r x = Vm.walk t r x := by
  rw [Vm.walk, Vm.walk, h.leaf r x hr hx]

/-- An edit of an upper entry that leaves its table. -/
theorem Trees.put_upper (h : Trees roots area t) (hq : InScope roots area r q)
    (hlen : q.length < 3) (hf : follow Entry.ref t r q = some s.table)
    (href : e.ref = (t s.table s.index).ref) : SameLeaves roots area t (t.put s e) := by
  have hfollow : ∀ r p, InScope roots area r p →
      follow Entry.ref (t.put s e) r p = follow Entry.ref t r p := by
    intro r p _
    refine follow_congr fun _ i g _ _ => ?_
    rw [put_apply]
    split_ifs with heq
    · rw [href, ← heq]
    · rfl
  refine ⟨hfollow, fun r' y hr hy => ?_⟩
  have hy' : InScope roots area r' (tablePath y) := ⟨hr, y, hy, List.prefix_refl _⟩
  rw [leaf, leaf, tableOf, tableOf, hfollow r' _ hy']
  cases hg : follow Entry.ref t r' (tablePath y) with
  | none => rfl
  | some g =>
      rw [Option.map_some, Option.map_some, put_apply, if_neg]
      intro heq'
      subst heq'
      -- the table of an upper entry is not a last-level table
      obtain ⟨_, rfl⟩ := h _ _ _ _ _ hq hy' hf hg
      exact absurd hlen (by simp [tablePath])

/-- An edit of a last-level entry. -/
theorem Trees.put_leaf (h : Trees roots area t) (hr : r ∈ roots) (hx : x ∈ area)
    (hf : tableOf t r x = some f) : LeafSet roots area t (t.put ⟨f, pteIdx x⟩ e) r x e := by
  have hq : InScope roots area r (tablePath x) := ⟨hr, x, hx, List.prefix_refl _⟩
  have hfollow : ∀ r' p, InScope roots area r' p →
      follow Entry.ref (t.put ⟨f, pteIdx x⟩ e) r' p = follow Entry.ref t r' p := by
    intro r' p hp
    refine Separated.follow_other (i := pteIdx x) h inScope_closed (fun g j hne => ?_) hq hf hp ?_
    · rw [put_apply, if_neg fun heq => hne ⟨congrArg Slot.table heq, congrArg Slot.index heq⟩]
    · intro h'
      obtain ⟨_, hprefix⟩ := h'
      have hlength := hprefix.length_le
      rw [List.length_append, List.length_singleton] at hlength
      have := hp.length_le
      have : (tablePath x).length = 3 := rfl
      omega
  refine ⟨hfollow, fun r' y hr' hy hne => ?_, ?_⟩
  · have hy' : InScope roots area r' (tablePath y) := ⟨hr', y, hy, List.prefix_refl _⟩
    rw [leaf, leaf, tableOf, tableOf, hfollow r' _ hy']
    cases hg : follow Entry.ref t r' (tablePath y) with
    | none => rfl
    | some g =>
        rw [Option.map_some, Option.map_some, put_apply, if_neg]
        intro heq
        obtain ⟨rfl, hindex⟩ := Slot.mk.inj heq
        obtain ⟨rfl, hpath⟩ := h _ _ _ _ _ hy' hq hg hf
        exact hne ⟨rfl, pageOf_eq_iff.mpr ⟨hpath, hindex⟩⟩
  · rw [leaf, tableOf, hfollow r _ hq, ← tableOf, hf, Option.map_some]
    exact congrArg some put_same

/-! ## Slots of a walk -/

/-- The slots of a walk as long as the paths to them stay. -/
theorem Slots.Reached.of_follow {s : Slots} (hs : s.Reached t pgd x) (hr : pgd ∈ roots)
    (hx : x ∈ area)
    (h : ∀ r p, InScope roots area r p → follow Entry.ref t' r p = follow Entry.ref t r p) :
    s.Reached t' pgd x :=
  ⟨hs.pgd_slot, ⟨hs.pud_slot.1, (h pgd _ ⟨hr, x, hx, ⟨_, rfl⟩⟩).trans hs.pud_slot.2⟩,
    ⟨hs.pmd_slot.1, (h pgd _ ⟨hr, x, hx, ⟨_, rfl⟩⟩).trans hs.pmd_slot.2⟩,
    ⟨hs.pte_slot.1, (h pgd _ ⟨hr, x, hx, List.prefix_refl _⟩).trans hs.pte_slot.2⟩⟩

/-- Storing into the last-level slot of an address sets its leaf and no other. -/
theorem Slots.Reached.put_leaf {s : Slots} (hs : s.Reached t pgd x) (h : Trees roots area t)
    (hr : pgd ∈ roots) (hx : x ∈ area) : LeafSet roots area t (t.put s.pte e) pgd x e := by
  have hslot : s.pte = ⟨s.pte.table, pteIdx x⟩ := by rw [← hs.pte_slot.1]
  rw [hslot]
  exact h.put_leaf hr hx hs.pte_slot.2

/-- Setting bits of the three upper entries. -/
theorem Slots.Reached.put_upper {s : Slots} (hs : s.Reached t pgd x) (h : Trees roots area t)
    (hr : pgd ∈ roots) (hx : x ∈ area) {slot : Slot}
    (hslot : slot = s.pgd ∨ slot = s.pud ∨ slot = s.pmd)
    (href : e.ref = (t slot.table slot.index).ref) : SameLeaves roots area t (t.put slot e) := by
  rcases hslot with rfl | rfl | rfl
  · rw [hs.pgd_slot] at href ⊢
    exact h.put_upper (q := []) ⟨hr, x, hx, List.nil_prefix⟩ (by decide) rfl href
  · exact h.put_upper ⟨hr, x, hx, ⟨_, rfl⟩⟩ (by simp : [pgdIdx x].length < 3) hs.pud_slot.2 href
  · exact h.put_upper ⟨hr, x, hx, ⟨_, rfl⟩⟩ (by simp : [pgdIdx x, pudIdx x].length < 3)
      hs.pmd_slot.2 href

/-- What the upper entries refer to. -/
theorem Slots.Reached.refs {s : Slots} (hs : s.Reached t pgd x) :
    (t s.pgd.table s.pgd.index).ref = some s.pud.table ∧
      (t s.pud.table s.pud.index).ref = some s.pmd.table ∧
      (t s.pmd.table s.pmd.index).ref = some s.pte.table := by
  have hroot : follow Entry.ref t pgd [] = some pgd := rfl
  refine ⟨?_, ?_, ?_⟩
  · rw [hs.pgd_slot, ← hs.pud_slot.2]
    exact (follow_entry hroot).symm
  · rw [hs.pud_slot.1, ← hs.pmd_slot.2]
    exact (follow_entry hs.pud_slot.2).symm
  · rw [hs.pmd_slot.1, ← hs.pte_slot.2]
    exact (follow_entry hs.pmd_slot.2).symm

/-- The write bit is not the present bit. -/
theorem Entry.set_write_present : (e.set 0x8).present = e.present := by
  simp [Entry.set, Entry.present]

/-- Setting the write bit does not change where an entry points to. -/
theorem Entry.set_write_ref : (e.set 0x8).ref = e.ref := by
  simp only [Entry.ref, Entry.set_write_present]
  rfl

/-- Clearing the write bit does not touch the present bit. -/
theorem Entry.clear_write_present : (e.clear 0x8).present = e.present := by
  simp [Entry.clear, Entry.present]

/-- Clearing the write bit does not change where an entry points to. -/
theorem Entry.clear_write_ref : (e.clear 0x8).ref = e.ref := by
  simp only [Entry.ref, Entry.clear_write_present]
  rfl

/-- An entry without the write bit is not writable. -/
theorem Entry.clear_write_writable : (e.clear 0x8).writable = false := by
  simp [Entry.clear, Entry.writable]

/-! ## Pages in memory -/

/-- Giving a frame back does not touch the tables. -/
@[simp] theorem Machine.release_table (pfn : Nat) : (m.release pfn).table = m.table := by
  unfold Machine.release
  simp only
  split_ifs <;> rfl

/-- Giving a frame back leaves its bytes as they are. -/
@[simp] theorem Machine.release_page (pfn : Nat) : (m.release pfn).page = m.page := by
  unfold Machine.release
  simp only
  split_ifs <;> rfl

/-- Counting references does not look at the tables. -/
theorem Machine.release_withTable (pfn : Nat) :
    ({ m with table := t } : Machine).release pfn = { m.release pfn with table := t } := by
  simp only [Machine.release, Machine.putPfn, Function.update_self]
  by_cases hlast : m.refcount pfn - 1 = 0
  · simp only [if_pos hlast]
    rfl
  · simp only [if_neg hlast]

variable {a : FrameAlloc}

/-- A new page is not in the tables yet. -/
@[simp] theorem FrameAlloc.allocPage_table : (a.allocPage m).2.table = m.table := by
  unfold FrameAlloc.allocPage
  simp only
  split_ifs <;> rfl

/-! ## `freePFN` -/

/-- `freePFN` sets no bit of any entry. -/
theorem freePFN_weaker : Weaker m.table (freePFN m pgd x).table := by
  unfold freePFN
  cases presentSlots m pgd x with
  | none => exact Weaker.refl _
  | some s =>
      have hzero : Weaker m.table (m.setEntry s.pte .zero).table := Weaker.put (Entry.zero_le _)
      simp only
      split_ifs
      · exact hzero
      · rw [Machine.release_table]
        exact hzero

/-- The page of the address is no longer present. -/
theorem freePFN_walk : walk (freePFN m pgd x).table pgd x = none := by
  cases hwalk : walk (freePFN m pgd x).table pgd x with
  | none => rfl
  | some e' =>
      obtain ⟨e, hold, _⟩ := freePFN_weaker.walk hwalk
      rcases presentSlots_spec m pgd x with ⟨_, hnone⟩ | ⟨s, hs, hreached, _⟩
      · rw [hnone] at hold
        cases hold
      · -- the entry found is the one that was zeroed
        have htable : (freePFN m pgd x).table = m.table.put s.pte .zero := by
          simp only [freePFN, hs]
          split_ifs <;> simp
        have he' := hreached.walk_weaker freePFN_weaker hwalk
        have hpresent := (walk_eq_some.mp hwalk).2
        rw [he', htable, put_same] at hpresent
        cases hpresent

/-- `freePFN` does nothing for a page that is not present. -/
theorem freePFN_absent (h : walk m.table pgd x = none) : freePFN m pgd x = m := by
  rcases presentSlots_spec m pgd x with ⟨hnone, _⟩ | ⟨s, _, _, hsome⟩
  · simp only [freePFN, hnone]
  · rw [h] at hsome
    cases hsome

/-- The walks of other pages are as they were. -/
theorem freePFN_other (h : Trees roots area m.table) (hr : pgd ∈ roots) (hx : x ∈ area)
    (hy : y ∈ area) (hne : pageOf y ≠ pageOf x) :
    walk (freePFN m pgd x).table pgd y = walk m.table pgd y := by
  rcases presentSlots_spec m pgd x with ⟨_, hnone⟩ | ⟨s, hs, hreached, _⟩
  · rw [freePFN_absent hnone]
  · have hset : LeafSet roots area m.table (m.table.put s.pte .zero) pgd x .zero :=
      hreached.put_leaf h hr hx
    have htable : (freePFN m pgd x).table = m.table.put s.pte .zero := by
      simp only [freePFN, hs]
      split_ifs <;> simp
    rw [htable]
    exact hset.walk_other hr hy fun heq => hne heq.2

/-! ## `updatePFN` -/

/-- `updatePTPermissions` sets no bit of any entry. -/
theorem updatePTPermissions_weaker {s : Slots} :
    Weaker m.table (updatePTPermissions m s).table := by
  unfold updatePTPermissions
  simp only
  split_ifs
  · exact Weaker.refl _
  · exact Weaker.modify
  · exact Weaker.modify.trans Weaker.modify
  · exact Weaker.modify.trans (Weaker.modify.trans Weaker.modify)

/-- `updatePFN` with `PROT_READ` sets no bit of any entry. -/
theorem updatePFN_read_weaker : Weaker m.table (updatePFN a m pgd x 1).table := by
  unfold updatePFN
  cases presentSlots m pgd x with
  | none => exact Weaker.refl _
  | some s => exact Weaker.modify.trans updatePTPermissions_weaker

/-- The page of the address is not writable, if it is present. -/
theorem updatePFN_read_walk (hwalk : walk (updatePFN a m pgd x 1).table pgd x = some e) :
    e.writable = false := by
  rcases presentSlots_spec m pgd x with ⟨_, hnone⟩ | ⟨s, hs, hreached, _⟩
  · obtain ⟨_, hold, _⟩ := updatePFN_read_weaker.walk hwalk
    rw [hnone] at hold
    cases hold
  · have he := hreached.walk_weaker updatePFN_read_weaker hwalk
    have hupdate : updatePFN a m pgd x 1 =
        updatePTPermissions (m.modify s.pte (·.clear 0x8)) s := by
      simp [updatePFN, hs]
    have hle := @updatePTPermissions_weaker (m.modify s.pte (·.clear 0x8)) s s.pte.table s.pte.index
    rw [hupdate] at he
    rw [← he, Machine.modify_table, put_same] at hle
    cases hw : e.writable with
    | false => rfl
    | true =>
        have hcleared := hle.writable hw
        rw [Entry.clear_write_writable] at hcleared
        cases hcleared

/-- `updatePFN` does nothing for a page that is not present. -/
theorem updatePFN_absent {prot : CInt} (h : walk m.table pgd x = none) :
    updatePFN a m pgd x prot = m := by
  rcases presentSlots_spec m pgd x with ⟨hnone, _⟩ | ⟨s, _, _, hsome⟩
  · simp only [updatePFN, hnone]
  · rw [h] at hsome
    cases hsome

/-- Make an entry writable. -/
def Tables.setWrite (t : Tables) (s : Slot) : Tables :=
  t.put s ((t s.table s.index).set 0x8)

/-- The second of two stores into one slot counts. -/
theorem put_put : (t.put s e).put s e' = t.put s e' := by
  funext f i
  simp only [put_apply]
  split_ifs <;> rfl

/-- The write bit is set on what the slot holds. -/
theorem setWrite_put : (t.put s e).setWrite s = t.put s (e.set 0x8) := by
  rw [Tables.setWrite, put_put, put_same]

/-- Setting the write bit in an entry on the way to a page keeps all leaves, and the way. -/
theorem Slots.Reached.setWrite_upper {s : Slots} (hs : s.Reached t pgd x)
    (h : Trees roots area t) (hr : pgd ∈ roots) (hx : x ∈ area) {slot : Slot}
    (hslot : slot = s.pgd ∨ slot = s.pud ∨ slot = s.pmd) :
    SameLeaves roots area t (t.setWrite slot) ∧ s.Reached (t.setWrite slot) pgd x := by
  have hsame := hs.put_upper h hr hx hslot (Entry.set_write_ref (e := t slot.table slot.index))
  exact ⟨hsame, hs.of_follow hr hx hsame.follow⟩

/-- The end of `updatePFN`: the upper entries become writable. -/
theorem Slots.Reached.setWrite_all {s : Slots} (hs : s.Reached t pgd x) (h : Trees roots area t)
    (hr : pgd ∈ roots) (hx : x ∈ area) :
    SameLeaves roots area t (((t.setWrite s.pmd).setWrite s.pud).setWrite s.pgd) := by
  obtain ⟨hpmd, hs₁⟩ := hs.setWrite_upper h hr hx (Or.inr (Or.inr rfl))
  have h₁ := hpmd.trees h
  obtain ⟨hpud, hs₂⟩ := hs₁.setWrite_upper h₁ hr hx (Or.inr (Or.inl rfl))
  have h₂ := hpud.trees h₁
  obtain ⟨hpgd, _⟩ := hs₂.setWrite_upper h₂ hr hx (Or.inl rfl)
  exact (hpmd.trans hpud).trans hpgd

/-- A new read-only entry with the write bit is a writable entry. -/
theorem Entry.set_write_new (n : Nat) : (Entry.mk n 0x11).set 0x8 = ⟨n, 0x19⟩ :=
  congrArg (Entry.mk n) (by decide : (0x11 : BitVec 12) ||| 0x8 = 0x19)

/-- Setting the write bit of a writable entry changes nothing. -/
theorem Entry.set_write_again (n : Nat) : (Entry.mk n 0x19).set 0x8 = ⟨n, 0x19⟩ :=
  congrArg (Entry.mk n) (by decide : (0x19 : BitVec 12) ||| 0x8 = 0x19)

/-- The tables after `unshare`, and the rest of the machine. -/
theorem unshare_eq (s : Slot) : unshare a m s =
    if m.refcount (m.entry s).pfn > 1 then
      { (a.allocPage m).2.release (m.entry s).pfn with
        table := m.table.put s ⟨(a.allocPage m).1, 0x19⟩ }
    else m := by
  by_cases hshared : m.refcount (m.entry s).pfn > 1
  · simp only [unshare, if_pos hshared]
    rw [← Entry.set_write_new, ← setWrite_put, ← FrameAlloc.allocPage_table (a := a) (m := m),
      ← Machine.release_withTable]
    rfl
  · simp only [unshare, if_neg hshared]

/-- A page is made writable; if it is shared, it gets a new frame. -/
theorem updatePFN_write (h : Trees roots area m.table) (hr : pgd ∈ roots) (hx : x ∈ area)
    {prot : CInt} (hprot : prot ≠ 1) (hwalk : walk m.table pgd x = some e) :
    ∃ t, updatePFN a m pgd x prot =
        { (if m.refcount e.pfn > 1 then (a.allocPage m).2.release e.pfn else m) with table := t } ∧
      LeafSet roots area m.table t pgd x
        (if m.refcount e.pfn > 1 then ⟨(a.allocPage m).1, 0x19⟩ else e.set 0x8) := by
  rcases presentSlots_spec m pgd x with ⟨_, hnone⟩ | ⟨s, hs, hreached, hentry⟩
  · rw [hnone] at hwalk
    cases hwalk
  obtain rfl : m.entry s.pte = e := Option.some.inj (hentry.symm.trans hwalk)
  -- the last-level entry, and then the upper ones
  have hfinish : ∀ (base : Machine) t₁ e₁, LeafSet roots area m.table t₁ pgd x e₁ →
      ∃ t, (((({ base with table := t₁ } : Machine).modify s.pmd (·.set 0x8)).modify s.pud
          (·.set 0x8)).modify s.pgd (·.set 0x8)) = { base with table := t } ∧
        LeafSet roots area m.table t pgd x e₁ := by
    intro base t₁ e₁ hset
    have hs₁ := hreached.of_follow hr hx hset.follow
    exact ⟨_, rfl, hset.trans_same hr hx (hs₁.setWrite_all (hset.trees h) hr hx)⟩
  have hupdate : updatePFN a m pgd x prot =
      ((((unshare a m s.pte).modify s.pte (·.set 0x8)).modify s.pmd (·.set 0x8)).modify s.pud
        (·.set 0x8)).modify s.pgd (·.set 0x8) := by
    simp only [updatePFN, hs, if_neg hprot]
  rw [hupdate, unshare_eq]
  split_ifs with hshared
  · refine hfinish ((a.allocPage m).2.release (m.entry s.pte).pfn)
      ((m.table.put s.pte ⟨(a.allocPage m).1, 0x19⟩).setWrite s.pte) _ ?_
    rw [setWrite_put, Entry.set_write_again]
    exact hreached.put_leaf h hr hx
  · exact hfinish m _ _ (hreached.put_leaf h hr hx)

end GemOS.Vm
