import GemOS.Vm.PageRanges

/-!
# Making pages read-only

`updatePFN` takes the write access from a last-level entry and then looks at the first 64 entries
of its table. When none of them is writable, it clears the present bit of the entry above, and the
table is cut off with all its pages. `Keeps` says for which pages of a range this does not happen;
then the call changes the entries of these pages alone.
-/

namespace GemOS.Vm

open Radix (follow)

variable {a : FrameAlloc} {m m' : Machine} {t t' t₁ : Tables} {r pgd f : Nat} {x y : U64}
variable {e : Entry} {roots : Set Nat} {area : Set U64} {pages : List U64} {s : Slots}

theorem anyWritable_iff {table : Nat} : anyWritable m table = true ↔
    ∃ j < 64, (m.table table (BitVec.ofNat 64 j)).writable = true := by
  rw [anyWritable, List.any_eq_true]
  simp only [List.mem_range]
  rfl

/-- The entry above the last-level table, after a change of a last-level entry. -/
theorem Slots.Reached.pmd_pfn (hs : s.Reached t pgd x) :
    (t s.pmd.table s.pmd.index).pfn = s.pte.table :=
  (Entry.ref_eq_some.mp hs.refs.2.2).2

/-- Some entry of the table stays writable: only the last-level entry has changed. -/
theorem updatePFN_read_kept (h : Trees roots area m.table) (hr : pgd ∈ roots) (hx : x ∈ area)
    (hwalk : walk m.table pgd x = some e) (htable : tableOf m.table pgd x = some f)
    {j : Nat} (hj : j < 64) (hwrite : (m.table f (BitVec.ofNat 64 j)).writable = true)
    (hslot : pteIdx x ≠ BitVec.ofNat 64 j) :
    ∃ t, updatePFN a m pgd x 1 = { m with table := t } ∧
      t = m.table.put ⟨f, pteIdx x⟩ (e.clear 0x8) ∧
      LeafSet roots area m.table t pgd x (e.clear 0x8) := by
  rcases presentSlots_spec m pgd x with ⟨_, hnone⟩ | ⟨s, hs, hreached, hentry⟩
  · rw [hnone] at hwalk
    cases hwalk
  obtain rfl : m.entry s.pte = e := Option.some.inj (hentry.symm.trans hwalk)
  obtain rfl : s.pte.table = f := Option.some.inj (hreached.pte_slot.2.symm.trans htable)
  have hpte : s.pte = ⟨s.pte.table, pteIdx x⟩ := by rw [← hreached.pte_slot.1]
  have hset : LeafSet roots area m.table (m.table.put s.pte ((m.entry s.pte).clear 0x8)) pgd x
      ((m.entry s.pte).clear 0x8) := hreached.put_leaf h hr hx
  have hany : anyWritable (m.modify s.pte (·.clear 0x8))
      ((m.modify s.pte (·.clear 0x8)).entry s.pmd).pfn = true := by
    refine anyWritable_iff.mpr ⟨j, hj, ?_⟩
    rw [Machine.entry, Machine.modify_table, (hreached.of_follow hr hx hset.follow).pmd_pfn,
      put_apply, if_neg]
    · exact hwrite
    · intro heq
      rw [hpte] at heq
      exact hslot (congrArg Slot.index heq).symm
  refine ⟨_, ?_, rfl, ?_⟩
  · simp only [updatePFN, hs, if_true, updatePTPermissions, hany]
    rw [← hpte]
    rfl
  · rw [← hpte]
    exact hset

/-- A path to an entry that is not present leads nowhere. -/
theorem walk_cut (hweaker : Weaker t t') (hs : s.Reached t pgd x)
    (hcut : (t' s.pmd.table s.pmd.index).present = false) : walk t' pgd x = none := by
  refine walk_none (p := [pgdIdx x, pudIdx x] ++ [pmdIdx x]) ?_ (List.prefix_refl _)
  cases hg : follow Entry.ref t' pgd [pgdIdx x, pudIdx x] with
  | none => rw [Radix.follow_snoc, hg, Option.bind_none]
  | some g =>
      obtain rfl : s.pmd.table = g :=
        Option.some.inj (hs.pmd_slot.2.symm.trans (hweaker.follow hg))
      rw [follow_entry hg, ← hs.pmd_slot.1]
      exact Entry.ref_of_not_present hcut

theorem Entry.clear_both_present : (e.clear 0x3).present = false := by
  simp [Entry.clear, Entry.present]

/-- An entry that refers to nothing gets no reference by losing rights. -/
theorem Weaker.not_present {slot : Slot} (h : Weaker t t')
    (habsent : (t slot.table slot.index).present = false) :
    (t' slot.table slot.index).present = false := by
  cases hpresent : (t' slot.table slot.index).present with
  | false => rfl
  | true =>
      have hold := (h slot.table slot.index).ref _ (Entry.ref_eq_some.mpr ⟨hpresent, rfl⟩)
      rw [Entry.ref_of_not_present habsent] at hold
      cases hold

/-- `updatePTPermissions` clears the present bit above a table without a writable entry. -/
theorem updatePTPermissions_cut (hnot : anyWritable m (m.entry s.pmd).pfn = false) :
    ((updatePTPermissions m s).entry s.pmd).present = false := by
  have hcleared :
      ((m.modify s.pmd (·.clear 0x3)).table s.pmd.table s.pmd.index).present = false := by
    rw [Machine.modify_table, put_same]
    exact Entry.clear_both_present
  refine Weaker.not_present (t := (m.modify s.pmd (·.clear 0x3)).table) ?_ hcleared
  simp only [updatePTPermissions, hnot, Bool.false_eq_true, if_false]
  split_ifs
  · exact Weaker.refl _
  · exact Weaker.modify
  · exact Weaker.modify.trans Weaker.modify

/-- No entry of the table stays writable: the table is cut off. -/
theorem updatePFN_read_cut (hreached : s.Reached m.table pgd x)
    (hs : presentSlots m pgd x = some s)
    (hnot : anyWritable (m.modify s.pte (·.clear 0x8))
      ((m.modify s.pte (·.clear 0x8)).entry s.pmd).pfn = false) :
    walk (updatePFN a m pgd x 1).table pgd x = none := by
  refine walk_cut updatePFN_read_weaker hreached ?_
  simp only [updatePFN, hs, if_true]
  exact updatePTPermissions_cut hnot

/-! ## The pages of a range -/

/-- Every last-level table with a present page among `pages` has a writable entry, among its first
64, that is not the one of a present page among them. -/
def Keeps (t : Tables) (pgd : Nat) (pages : List U64) : Prop :=
  ∀ x ∈ pages, ∀ f, (walk t pgd x).isSome → tableOf t pgd x = some f →
    ∃ j < 64, (t f (BitVec.ofNat 64 j)).writable = true ∧
      ∀ y ∈ pages, (walk t pgd y).isSome → tableOf t pgd y = some f →
        pteIdx y ≠ BitVec.ofNat 64 j

/-- The pages of one process have lost the write access; everything else is as it was. -/
structure MadeReadOnly (roots : Set Nat) (area : Set U64) (t t' : Tables) (pgd : Nat)
    (pages : List U64) : Prop where
  other : ∀ r y, r ∈ roots → y ∈ area → ¬ (r = pgd ∧ ∃ x ∈ pages, pageOf y = pageOf x) →
    leaf t' r y = leaf t r y
  pages : ∀ y ∈ area, (∃ x ∈ pages, pageOf y = pageOf x) →
    walk t' pgd y = (walk t pgd y).map (·.clear 0x8)

theorem Entry.clear_clear : (e.clear 0x8).clear 0x8 = e.clear 0x8 := by
  rw [Entry.clear, Entry.clear, BitVec.and_assoc, BitVec.and_self]

/-- A table is the same last-level table for all addresses that reach it. -/
theorem tableOf_of_leafSet (h : LeafSet roots area t t' r x e) (hpgd : pgd ∈ roots)
    (hy : y ∈ area) : tableOf t' pgd y = tableOf t pgd y :=
  h.follow pgd _ ⟨hpgd, y, hy, List.prefix_refl _⟩

theorem isSome_walk_leafSet (h : LeafSet roots area t t' pgd x e) (hr : pgd ∈ roots)
    (hy : y ∈ area) (hpresent : e.present = true) (hx : (walk t pgd x).isSome) :
    (walk t' pgd y).isSome ↔ (walk t pgd y).isSome := by
  by_cases hpage : pageOf y = pageOf x
  · rw [walk_congr hpage, walk_congr hpage, h.walk hpresent]
    exact iff_of_true rfl hx
  · rw [h.walk_other hr hy fun heq => hpage heq.2]

/-- Nothing has to change for a page that is absent. -/
theorem madeReadOnly_absent (hx : walk t pgd x = none) :
    MadeReadOnly roots area t t pgd [x] := by
  refine ⟨fun _ _ _ _ _ => rfl, fun y _ hin => ?_⟩
  obtain ⟨_, hmem, hsame⟩ := hin
  obtain rfl := List.mem_singleton.mp hmem
  rw [walk_congr hsame, hx]
  rfl

theorem LeafSet.madeReadOnly (hset : LeafSet roots area t t' pgd x (e.clear 0x8))
    (hwalk : Vm.walk t pgd x = some e) : MadeReadOnly roots area t t' pgd [x] := by
  refine ⟨fun r y hr hy hne => hset.other r y hr hy fun heq => ?_, fun y hy hin => ?_⟩
  · exact hne ⟨heq.1, x, List.mem_singleton_self x, heq.2⟩
  · obtain ⟨_, hmem, hsame⟩ := hin
    obtain rfl := List.mem_singleton.mp hmem
    rw [walk_congr hsame, walk_congr hsame, hwalk, hset.walk]
    · rfl
    · rw [Entry.clear_write_present]
      exact (walk_eq_some.mp hwalk).2

/-- One page after the other. -/
theorem MadeReadOnly.cons (hr : pgd ∈ roots) (h : MadeReadOnly roots area t t₁ pgd [x])
    (h' : MadeReadOnly roots area t₁ t' pgd pages) :
    MadeReadOnly roots area t t' pgd (x :: pages) := by
  refine ⟨fun r y hr hy hne => ?_, fun y hy hin => ?_⟩
  · have hpages : ¬ (r = pgd ∧ ∃ z ∈ pages, pageOf y = pageOf z) := by
      intro hcase
      obtain ⟨heq, z, hz, hsame⟩ := hcase
      exact hne ⟨heq, z, List.mem_cons_of_mem x hz, hsame⟩
    have hfirst : ¬ (r = pgd ∧ ∃ z ∈ [x], pageOf y = pageOf z) := by
      intro hcase
      obtain ⟨heq, z, hz, hsame⟩ := hcase
      rw [List.mem_singleton.mp hz] at hsame
      exact hne ⟨heq, x, List.mem_cons_self, hsame⟩
    rw [h'.other r y hr hy hpages, h.other r y hr hy hfirst]
  · have hlater : ¬ (∃ z ∈ pages, pageOf y = pageOf z) → walk t' pgd y = walk t₁ pgd y := by
      intro hno
      rw [walk, walk, h'.other pgd y hr hy fun heq => hno heq.2]
    have hfirst : ¬ pageOf y = pageOf x → walk t₁ pgd y = walk t pgd y := by
      intro hno
      have hother : ¬ (pgd = pgd ∧ ∃ z ∈ [x], pageOf y = pageOf z) := by
        intro hcase
        obtain ⟨_, z, hz, hsame⟩ := hcase
        exact hno (List.mem_singleton.mp hz ▸ hsame)
      rw [walk, walk, h.other pgd y hr hy hother]
    have hx : pageOf y = pageOf x → walk t₁ pgd y = (walk t pgd y).map (·.clear 0x8) := fun hsame =>
      h.pages y hy ⟨x, List.mem_singleton_self x, hsame⟩
    by_cases hin' : ∃ z ∈ pages, pageOf y = pageOf z
    · rw [h'.pages y hy hin']
      by_cases hsame : pageOf y = pageOf x
      · rw [hx hsame, Option.map_map]
        congr 1
        funext e
        exact Entry.clear_clear
      · rw [hfirst hsame]
    · obtain ⟨z, hz, hsame⟩ := hin
      rcases List.mem_cons.mp hz with rfl | hz
      · rw [hlater hin', hx hsame]
      · exact absurd ⟨z, hz, hsame⟩ hin'

theorem Keeps.tail (h : Keeps t pgd (x :: pages)) : Keeps t pgd pages := by
  intro y hy f hys hyf
  obtain ⟨j, hj, hw, hne⟩ := h y (List.mem_cons_of_mem x hy) f hys hyf
  exact ⟨j, hj, hw, fun z hz => hne z (List.mem_cons_of_mem x hz)⟩

/-- The entries that keep the later tables are not touched. -/
theorem Keeps.leafSet (h : Keeps t pgd (x :: pages)) (hr : pgd ∈ roots)
    (hpages : ∀ y ∈ pages, y ∈ area) (hwalk : (walk t pgd x).isSome)
    (hf : tableOf t pgd x = some f) (hpresent : e.present = true)
    (hset : LeafSet roots area t (t.put ⟨f, pteIdx x⟩ e) pgd x e) :
    Keeps (t.put ⟨f, pteIdx x⟩ e) pgd pages := by
  intro y hy g hys hyg
  rw [isSome_walk_leafSet hset hr (hpages y hy) hpresent hwalk] at hys
  rw [tableOf_of_leafSet hset hr (hpages y hy)] at hyg
  obtain ⟨j, hj, hw, hne⟩ := h y (List.mem_cons_of_mem x hy) g hys hyg
  refine ⟨j, hj, ?_, fun z hz hzs hzg => ?_⟩
  · rw [put_apply, if_neg]
    · exact hw
    · intro heq
      obtain ⟨rfl, hindex⟩ := Slot.mk.inj heq
      exact hne x List.mem_cons_self hwalk hf hindex.symm
  · rw [isSome_walk_leafSet hset hr (hpages z hz) hpresent hwalk] at hzs
    rw [tableOf_of_leafSet hset hr (hpages z hz)] at hzg
    exact hne z (List.mem_cons_of_mem x hz) hzs hzg

/-- If every table keeps a writable entry, the pages become read-only and nothing else
changes. -/
theorem readPages_kept (h : Trees roots area m.table) (hr : pgd ∈ roots)
    (hpages : ∀ x ∈ pages, x ∈ area) (hkeeps : Keeps m.table pgd pages) :
    ∃ t, pages.foldl (fun m addr => updatePFN a m pgd addr 1) m = { m with table := t } ∧
      Trees roots area t ∧ MadeReadOnly roots area m.table t pgd pages := by
  induction pages generalizing m with
  | nil => exact ⟨m.table, rfl, h, fun _ _ _ _ _ => rfl, by simp⟩
  | cons page pages ih =>
      have hrest : ∀ x ∈ pages, x ∈ area := fun x hx => hpages x (List.mem_cons_of_mem page hx)
      rw [List.foldl_cons]
      cases hwalk : walk m.table pgd page with
      | none =>
          rw [updatePFN_absent hwalk]
          obtain ⟨t, hfold, htrees, honly⟩ := ih h hrest hkeeps.tail
          exact ⟨t, hfold, htrees, (madeReadOnly_absent hwalk).cons hr honly⟩
      | some e =>
          have hsome : (walk m.table pgd page).isSome := by rw [hwalk]; rfl
          obtain ⟨hleaf, hpresent⟩ := walk_eq_some.mp hwalk
          obtain ⟨f, hf, _⟩ := leaf_eq_some.mp hleaf
          obtain ⟨j, hj, hw, hne⟩ := hkeeps page List.mem_cons_self f hsome hf
          obtain ⟨t₁, hupdate, rfl, hset⟩ := updatePFN_read_kept (a := a) h hr
            (hpages page List.mem_cons_self) hwalk hf hj hw (hne page List.mem_cons_self hsome hf)
          have hkeeps₁ := hkeeps.leafSet hr hrest hsome hf
            (Entry.clear_write_present.trans hpresent) hset
          rw [hupdate]
          obtain ⟨t, hfold, htrees, honly⟩ := @ih { m with table := _ } (hset.trees h) hrest hkeeps₁
          exact ⟨t, hfold, htrees, (hset.madeReadOnly hwalk).cons hr honly⟩

/-! ## The converse -/

/-- A page that is still present has kept its table through a writable entry. -/
theorem updatePFN_read_some (h : Trees roots area m.table) (hr : pgd ∈ roots) (hx : x ∈ area)
    (hwalk : walk m.table pgd x = some e) (htable : tableOf m.table pgd x = some f)
    (hstays : (walk (updatePFN a m pgd x 1).table pgd x).isSome) :
    ∃ j < 64, (m.table f (BitVec.ofNat 64 j)).writable = true ∧ pteIdx x ≠ BitVec.ofNat 64 j := by
  rcases presentSlots_spec m pgd x with ⟨_, hnone⟩ | ⟨s, hs, hreached, _⟩
  · rw [hnone] at hwalk
    cases hwalk
  obtain rfl : s.pte.table = f := Option.some.inj (hreached.pte_slot.2.symm.trans htable)
  cases hany : anyWritable (m.modify s.pte (·.clear 0x8))
      ((m.modify s.pte (·.clear 0x8)).entry s.pmd).pfn with
  | false =>
      rw [updatePFN_read_cut hreached hs hany] at hstays
      cases hstays
  | true =>
      have hset : LeafSet roots area m.table (m.table.put s.pte ((m.entry s.pte).clear 0x8)) pgd x
          ((m.entry s.pte).clear 0x8) := hreached.put_leaf h hr hx
      obtain ⟨j, hj, hw⟩ := anyWritable_iff.mp hany
      rw [Machine.entry, Machine.modify_table, (hreached.of_follow hr hx hset.follow).pmd_pfn,
        put_apply] at hw
      split_ifs at hw with hslot
      · rw [Entry.clear_write_writable] at hw
        cases hw
      · refine ⟨j, hj, hw, fun heq => hslot ?_⟩
        rw [← heq, ← hreached.pte_slot.1]

/-- If all present pages stay present, every table kept a writable entry. -/
theorem keeps_of_stay (h : Trees roots area m.table) (hr : pgd ∈ roots)
    (hpages : ∀ x ∈ pages, x ∈ area)
    (hstay : ∀ x ∈ pages, (walk m.table pgd x).isSome →
      (walk (pages.foldl (fun m addr => updatePFN a m pgd addr 1) m).table pgd x).isSome) :
    Keeps m.table pgd pages := by
  induction pages generalizing m with
  | nil => exact fun x hx => absurd hx List.not_mem_nil
  | cons page pages ih =>
      have hpage : page ∈ area := hpages page List.mem_cons_self
      have hrest : ∀ x ∈ pages, x ∈ area := fun x hx => hpages x (List.mem_cons_of_mem page hx)
      have hlater : ∀ x ∈ pages, (walk m.table pgd x).isSome → _ := fun x hx =>
        hstay x (List.mem_cons_of_mem page hx)
      simp only [List.foldl_cons] at hstay hlater
      cases hwalk : walk m.table pgd page with
      | none =>
          rw [updatePFN_absent hwalk] at hlater
          have hkeeps := ih h hrest hlater
          have hnot : ¬ (walk m.table pgd page).isSome := by simp [hwalk]
          intro x hx f hxs hxf
          rcases List.mem_cons.mp hx with rfl | hx
          · exact absurd hxs hnot
          obtain ⟨j, hj, hw, hne⟩ := hkeeps x hx f hxs hxf
          refine ⟨j, hj, hw, fun y hy hys hyf => ?_⟩
          rcases List.mem_cons.mp hy with rfl | hy
          · exact absurd hys hnot
          · exact hne y hy hys hyf
      | some e =>
          have hsome : (walk m.table pgd page).isSome := by rw [hwalk]; rfl
          obtain ⟨hleaf, hpresent⟩ := walk_eq_some.mp hwalk
          obtain ⟨f, hf, _⟩ := leaf_eq_some.mp hleaf
          -- the page is present at the end, so it is after the first step
          obtain ⟨e', he'⟩ := Option.isSome_iff_exists.mp (hstay page List.mem_cons_self hsome)
          obtain ⟨e₁, he₁, _⟩ := (readPages_spec (a := a)).1.walk he'
          obtain ⟨j, hj, hw, hne⟩ :=
            updatePFN_read_some (a := a) h hr hpage hwalk hf (by rw [he₁]; rfl)
          obtain ⟨t₁, hupdate, rfl, hset⟩ :=
            updatePFN_read_kept (a := a) h hr hpage hwalk hf hj hw hne
          have hpresent' : (e.clear 0x8).present = true :=
            Entry.clear_write_present.trans hpresent
          have hkeeps : Keeps (m.table.put ⟨f, pteIdx page⟩ (e.clear 0x8)) pgd pages := by
            refine @ih { m with table := _ } (hset.trees h) hrest fun x hx hxs => ?_
            rw [hupdate] at hlater
            exact hlater x hx
              ((isSome_walk_leafSet hset hr (hrest x hx) hpresent' hsome).mp hxs)
          intro x hx g hxs hxg
          by_cases hz : ∃ z ∈ pages, (walk m.table pgd z).isSome ∧ tableOf m.table pgd z = some g
          · -- a later page has the same table
            obtain ⟨z, hz, hzs, hzg⟩ := hz
            obtain ⟨i, hi, hwi, hnei⟩ := hkeeps z hz g
              ((isSome_walk_leafSet hset hr (hrest z hz) hpresent' hsome).mpr hzs)
              ((tableOf_of_leafSet hset hr (hrest z hz)).trans hzg)
            rw [put_apply] at hwi
            split_ifs at hwi with hslot
            · rw [Entry.clear_write_writable] at hwi
              cases hwi
            refine ⟨i, hi, hwi, fun y hy hys hyg => ?_⟩
            rcases List.mem_cons.mp hy with rfl | hy
            · obtain rfl : f = g := Option.some.inj (hf.symm.trans hyg)
              exact fun heq => hslot (by rw [heq])
            · exact hnei y hy ((isSome_walk_leafSet hset hr (hrest y hy) hpresent' hsome).mpr hys)
                ((tableOf_of_leafSet hset hr (hrest y hy)).trans hyg)
          · rcases List.mem_cons.mp hx with rfl | hx
            · obtain rfl : f = g := Option.some.inj (hf.symm.trans hxg)
              refine ⟨j, hj, hw, fun y hy hys hyg => ?_⟩
              rcases List.mem_cons.mp hy with rfl | hy
              · exact hne
              · exact absurd ⟨y, hy, hys, hyg⟩ hz
            · exact absurd ⟨x, hx, hxs, hxg⟩ hz

end GemOS.Vm
