import GemOS.Lib.RefCount
import GemOS.Vm.ReadOnlyPages

/-!
# Frames and their reference counts

`RefsExact` says that the reference count of every frame of user memory is the number of entries
that hold it, over the page tables of some processes, and that exactly the frames with holders are
in use. A change of one last-level entry comes with a change of the counts; the lemmas below
match the two for every edit of `v2p.c`.
-/

namespace GemOS.Vm

open RefCount (held held_congr held_update held_extend held_pos)
open Radix (follow)

variable {a : FrameAlloc} {m m' m₁ : Machine} {t t' : Tables} {r pgd f n : Nat} {x y : U64}
variable {e e' : Entry} {pgds : Finset Nat} {count count' : Nat → Nat} {s : Slot}

/-! ## Frames and pages -/

/-- The number of pages that four levels of nine bits tell apart. -/
def PAGES : Nat := 2 ^ 36

/-- An address on a page. -/
def pageAddr (p : Nat) : U64 :=
  BitVec.ofNat 64 (p * 4096)

/-- The first address of a page lies in it. -/
theorem pageOf_pageAddr {p : Nat} (hp : p < PAGES) : pageOf (pageAddr p) = p := by
  unfold PAGES at hp
  rw [pageOf, pageAddr, BitVec.toNat_ofNat]
  omega

/-- Every address lies in one of the pages. -/
theorem pageOf_lt (x : U64) : pageOf x < PAGES :=
  Nat.mod_lt _ (by decide)

/-- The frame that an address is mapped to. -/
def frameOf (t : Tables) (pgd : Nat) (x : U64) : Option Nat :=
  (walk t pgd x).map Entry.pfn

/-- All addresses of a page have the same frame. -/
theorem frameOf_congr (h : pageOf x = pageOf y) : frameOf t pgd x = frameOf t pgd y := by
  rw [frameOf, frameOf, walk_congr h]

/-- The frame that a walk leads to. -/
theorem frameOf_of_walk (h : walk t pgd x = some e) : frameOf t pgd x = some e.pfn := by
  rw [frameOf, h, Option.map_some]

/-- All pages of some processes. -/
def allPages (pgds : Finset Nat) : Finset (Nat × Nat) :=
  pgds ×ˢ Finset.range PAGES

/-- The pages of the processes. -/
theorem mem_allPages {p : Nat} : (r, p) ∈ allPages pgds ↔ r ∈ pgds ∧ p < PAGES := by
  rw [allPages, Finset.mem_product, Finset.mem_range]

/-- How many pages of the processes are mapped to a frame. -/
def holders (pgds : Finset Nat) (t : Tables) (f : Nat) : Nat :=
  held (allPages pgds) (fun q => frameOf t q.1 (pageAddr q.2)) f

/-- A frame behind a page is held. -/
theorem holders_pos (hr : r ∈ pgds) (h : frameOf t r x = some f) : holders pgds t f ≠ 0 := by
  refine held_pos (i := (r, pageOf x)) (mem_allPages.mpr ⟨hr, pageOf_lt x⟩) ?_
  exact (frameOf_congr (pageOf_pageAddr (pageOf_lt x))).trans h

/-- Where walks are as before, frames are held as before. -/
theorem holders_congr (h : ∀ r x, r ∈ pgds → walk t' r x = walk t r x) :
    holders pgds t' f = holders pgds t f :=
  held_congr fun q hq => by
    rw [frameOf, frameOf, h q.1 _ (Finset.mem_product.mp hq).1]

/-- The frame that an entry gives its page. -/
theorem LeafSet.frameOf {roots : Set Nat} {area : Set U64} (h : LeafSet roots area t t' r x e) :
    frameOf t' r x = e.ref := by
  rw [Vm.frameOf, Vm.walk, h.leaf, Entry.ref]
  cases hpresent : e.present <;> simp [hpresent]

/-- One last-level entry has been replaced: its old frame loses a holder, and the new one gains
one. -/
theorem LeafSet.holders (h : LeafSet pgds Set.univ t t' r x e) (hr : r ∈ pgds) (f : Nat) :
    holders pgds t' f + (if Vm.frameOf t r x = some f then 1 else 0) =
      Vm.holders pgds t f + (if e.ref = some f then 1 else 0) := by
  have hpage : pageOf (pageAddr (pageOf x)) = pageOf x := pageOf_pageAddr (pageOf_lt x)
  have hothers : ∀ q ∈ allPages pgds, q ≠ (r, pageOf x) →
      Vm.frameOf t' q.1 (pageAddr q.2) = Vm.frameOf t q.1 (pageAddr q.2) := by
    intro q hq hne
    obtain ⟨hq, hp⟩ := mem_allPages.mp hq
    rw [Vm.frameOf, Vm.frameOf, h.walk_other hq (Set.mem_univ _)]
    intro h'
    obtain ⟨hqr, hqx⟩ := h'
    rw [pageOf_pageAddr hp] at hqx
    exact hne (Prod.ext hqr hqx)
  have hupdate := held_update (mem_allPages.mpr ⟨hr, pageOf_lt x⟩) hothers f
  simp only [frameOf_congr hpage, h.frameOf] at hupdate
  exact hupdate

/-! ## Counted frames -/

/-- The reference counts are those of `count`, and the frames with references are in use. -/
structure FramesCounted (count : Nat → Nat) (m : Machine) : Prop where
  refcount : ∀ f, m.refcount f = count f
  used : ∀ f, f ∈ m.frames.pagesUsed ↔ count f ≠ 0

/-- The counts stay exact if neither the pages nor the counts change. -/
theorem FramesCounted.congr (h : FramesCounted count m) (hcount : ∀ f, count' f = count f)
    (hrefcount : m'.refcount = m.refcount)
    (hused : m'.frames.pagesUsed = m.frames.pagesUsed) : FramesCounted count' m' :=
  ⟨fun f => by rw [hrefcount, hcount, h.refcount], fun f => by rw [hused, hcount, h.used]⟩

/-- One reference less; the frame is given back with the last one. -/
theorem FramesCounted.release (h : FramesCounted count m) (hf : count f ≠ 0)
    (hcount : ∀ g, count' g + (if f = g then 1 else 0) = count g) :
    FramesCounted count' (m.release f) := by
  have hself := hcount f
  rw [if_pos rfl] at hself
  have hother : ∀ g, g ≠ f → count' g = count g := by
    intro g hg
    have := hcount g
    rwa [if_neg (Ne.symm hg)] at this
  have hput : m.refcount f - 1 = count' f := by
    rw [h.refcount]
    omega
  have hrefcount : (m.release f).refcount = Function.update m.refcount f (m.refcount f - 1) := by
    unfold Machine.release
    simp only
    split_ifs <;> rfl
  constructor
  · intro g
    rw [hrefcount]
    by_cases hg : g = f
    · subst hg
      rw [Function.update_self, hput]
    · rw [Function.update_of_ne hg, h.refcount, hother g hg]
  · intro g
    unfold Machine.release
    simp only [Machine.putPfn, Function.update_self, hput, Machine.freePage]
    by_cases hlast : count' f = 0
    · rw [if_pos (by exact_mod_cast hlast)]
      by_cases hg : g = f
      · simp [hg, hlast]
      · simp [hg, h.used, hother g hg]
    · rw [if_neg (by exact_mod_cast hlast)]
      by_cases hg : g = f
      · simp [hg, h.used, hf, hlast]
      · simp [h.used, hother g hg]

/-- One reference more. -/
theorem FramesCounted.getPfn (h : FramesCounted count m) (hcounts : a.CountsExactly)
    (hf : count f ≠ 0) (hcount : ∀ g, count' g = count g + (if f = g then 1 else 0)) :
    FramesCounted count' (m.getPfn a f) := by
  constructor
  · intro g
    show Function.update m.refcount f (a.increment (m.refcount f)) g = count' g
    rw [hcounts]
    by_cases hg : g = f
    · subst hg
      rw [Function.update_self, h.refcount, hcount, if_pos rfl]
      rfl
    · rw [Function.update_of_ne hg, h.refcount, hcount, if_neg (Ne.symm hg)]
      rfl
  · intro g
    rw [hcount]
    show g ∈ m.frames.pagesUsed ↔ _
    by_cases hg : f = g
    · subst hg
      simp [h.used, hf]
    · simp [h.used, hg]

/-- The allocator finds frames, and chooses some that are not in use. -/
structure FrameAlloc.Ample (a : FrameAlloc) : Prop extends a.Fresh where
  some_table : ∀ frames, a.table frames ≠ 0
  some_page : ∀ frames, a.page frames ≠ 0

/-- An ample allocator always has a frame for a table. -/
theorem FrameAlloc.Ample.table_ne_zero (ha : a.Ample) (m : Machine) : (a.allocTable m).1 ≠ 0 := by
  rw [FrameAlloc.allocTable, if_neg (ha.some_table _)]
  exact ha.some_table _

/-- An ample allocator always has a frame for a page. -/
theorem FrameAlloc.Ample.page_ne_zero (ha : a.Ample) (m : Machine) : (a.allocPage m).1 ≠ 0 := by
  rw [FrameAlloc.allocPage, if_neg (ha.some_page _)]
  exact ha.some_page _

/-- The machine after a frame for a page has been found. -/
theorem FrameAlloc.allocPage_some (hsome : a.page m.frames ≠ 0) :
    a.allocPage m = (a.page m.frames, { m with
      page := Function.update m.page (a.page m.frames) (a.fill (m.page (a.page m.frames)))
      refcount := Function.update m.refcount (a.page m.frames) 1
      frames := { m.frames with
        pagesUsed := a.page m.frames :: m.frames.pagesUsed, count := m.frames.count + 1 } }) :=
  if_neg hsome

/-- The machine after `os_pfn_alloc(USER_REG)` of an ample allocator. -/
theorem FrameAlloc.Ample.allocPage_eq (ha : a.Ample) (m : Machine) :
    a.allocPage m = (a.page m.frames, { m with
      page := Function.update m.page (a.page m.frames) (a.fill (m.page (a.page m.frames)))
      refcount := Function.update m.refcount (a.page m.frames) 1
      frames := { m.frames with
        pagesUsed := a.page m.frames :: m.frames.pagesUsed, count := m.frames.count + 1 } }) :=
  FrameAlloc.allocPage_some (ha.some_page _)

/-- A new frame has no holders. -/
theorem FrameAlloc.Ample.page_fresh (ha : a.Ample) (h : FramesCounted count m) :
    count (a.allocPage m).1 = 0 := by
  rw [ha.allocPage_eq]
  exact not_not.mp fun hne => ha.page _ (ha.some_page _) ((h.used _).mpr hne)

/-- A new frame with one reference. -/
theorem FramesCounted.allocPage (h : FramesCounted count m) (ha : a.Ample)
    (hcount : ∀ g, count' g = count g + (if (a.allocPage m).1 = g then 1 else 0)) :
    FramesCounted count' (a.allocPage m).2 := by
  have hfresh := ha.page_fresh h
  rw [ha.allocPage_eq] at hcount hfresh ⊢
  constructor
  · intro g
    by_cases hg : g = a.page m.frames
    · subst hg
      simp [hcount, hfresh]
    · simp [hcount, Function.update_of_ne hg, h.refcount, Ne.symm hg]
  · intro g
    by_cases hg : g = a.page m.frames
    · subst hg
      simp [hcount]
    · simp [hcount, h.used, hg, Ne.symm hg]

/-! ## Exact reference counts -/

/-- The page tables of the processes are separate, and the reference count of every frame is the
number of pages that hold it; the frames that are held are those in use. -/
structure RefsExact (pgds : Finset Nat) (m : Machine) : Prop where
  tidy : Tidy pgds Set.univ m
  frames : FramesCounted (holders pgds m.table) m

/-- New tables hold no frame. -/
theorem RefsExact.extended (h : RefsExact pgds m) (hext : Extended pgds Set.univ m m') :
    RefsExact pgds m' :=
  ⟨hext.tidy,
    h.frames.congr (fun _ => holders_congr fun r x hr => hext.walk r x hr (Set.mem_univ x))
    hext.refcount hext.pagesUsed⟩

/-- Only the rights of entries have changed. -/
theorem RefsExact.rights (h : RefsExact pgds m) (htidy : Tidy pgds Set.univ m')
    (hframe : ∀ r x, r ∈ pgds → frameOf m'.table r x = frameOf m.table r x)
    (hrefcount : m'.refcount = m.refcount)
    (hused : m'.frames.pagesUsed = m.frames.pagesUsed) : RefsExact pgds m' :=
  ⟨htidy, h.frames.congr
    (fun _ => held_congr fun q hq => hframe q.1 _ (Finset.mem_product.mp hq).1) hrefcount hused⟩

/-- Counting one page, with or without `some`. -/
theorem some_eq_some_ite (f g : Nat) :
    (if some f = some g then 1 else 0) = if f = g then 1 else 0 := by
  simp only [Option.some.injEq]

section Edits

variable {accessFlags : U32} {prot : CInt}

/-- What `freePFN` does to a page that is present. -/
theorem freePFN_present (h : Trees pgds Set.univ m.table) (hr : pgd ∈ pgds)
    (hwalk : walk m.table pgd x = some e) :
    ∃ t, freePFN m pgd x =
        { (if m.refcount e.pfn = 0 then m else m.release e.pfn) with table := t } ∧
      LeafSet pgds Set.univ m.table t pgd x .zero := by
  rcases presentSlots_spec m pgd x with ⟨_, hnone⟩ | ⟨s, hs, hreached, hentry⟩
  · rw [hnone] at hwalk
    cases hwalk
  obtain rfl : m.entry s.pte = e := Option.some.inj (hentry.symm.trans hwalk)
  refine ⟨m.table.put s.pte .zero, ?_, hreached.put_leaf h hr (Set.mem_univ x)⟩
  simp only [freePFN, hs]
  show (if m.refcount _ = 0 then _ else _) = _
  split_ifs
  · rfl
  · exact Machine.release_withTable _

/-- `freePFN` takes one page and one reference away. -/
theorem RefsExact.freePFN (h : RefsExact pgds m) (hr : pgd ∈ pgds) :
    RefsExact pgds (freePFN m pgd x) := by
  refine ⟨h.tidy.weaker freePFN_weaker freePFN_tablesUsed, ?_⟩
  cases hwalk : walk m.table pgd x with
  | none =>
      rw [freePFN_absent hwalk]
      exact h.frames
  | some e =>
      obtain ⟨t, hfree, hset⟩ := freePFN_present h.tidy.trees hr hwalk
      have hheld := holders_pos hr (frameOf_of_walk hwalk)
      have hrefcount : m.refcount e.pfn ≠ 0 := by
        rw [h.frames.refcount]
        exact_mod_cast hheld
      rw [hfree, if_neg hrefcount]
      have hframes : FramesCounted (holders pgds t) (m.release e.pfn) :=
        h.frames.release hheld fun g => by
          have := hset.holders hr g
          rw [frameOf_of_walk hwalk, some_eq_some_ite] at this
          simpa [Entry.ref] using this
      exact hframes.congr (fun _ => rfl) rfl rfl

/-- One frame is replaced by a new one. -/
theorem FramesCounted.replace (h : FramesCounted count m) (ha : a.Ample) (hf : count f ≠ 0)
    (hrefcount : m'.refcount = (a.allocPage m).2.refcount)
    (hused : m'.frames.pagesUsed = (a.allocPage m).2.frames.pagesUsed)
    (hcount : ∀ g, count' g + (if f = g then 1 else 0) =
      count g + (if (a.allocPage m).1 = g then 1 else 0)) :
    FramesCounted count' (m'.release f) := by
  have halloc : FramesCounted (fun g => count g + if (a.allocPage m).1 = g then 1 else 0) m' :=
    (h.allocPage ha fun _ => rfl).congr (fun _ => rfl) hrefcount hused
  exact halloc.release (by omega) hcount

/-- The old frame of a page loses a holder, and a new frame gains one. -/
theorem LeafSet.holders_replace (h : LeafSet pgds Set.univ t t' r x e') (hr : r ∈ pgds)
    (href : e'.ref = some n) (hwalk : Vm.walk t r x = some e) (g : Nat) :
    Vm.holders pgds t' g + (if e.pfn = g then 1 else 0) =
      Vm.holders pgds t g + (if n = g then 1 else 0) := by
  have := h.holders hr g
  rw [frameOf_of_walk hwalk, href] at this
  simpa only [some_eq_some_ite] using this

/-- A writable entry refers to its frame. -/
theorem Entry.ref_writable (n : Nat) : (Entry.mk n 0x19).ref = some n :=
  Entry.ref_eq_some.mpr ⟨(by decide : (0x19 : BitVec 12).getLsbD 0 = true), rfl⟩

/-- A read-only entry refers to its frame. -/
theorem Entry.ref_readOnly (n : Nat) : (Entry.mk n 0x11).ref = some n :=
  Entry.ref_eq_some.mpr ⟨(by decide : (0x11 : BitVec 12).getLsbD 0 = true), rfl⟩

/-- The entry after a copy refers to the new frame. -/
theorem copiedEntry_ref (n : Nat) : (copiedEntry accessFlags n).ref = some n := by
  rw [copiedEntry]
  split_ifs
  · exact Entry.ref_writable n
  · exact Entry.ref_readOnly n

/-- `handle_cow_fault` moves one page, with its reference, to a new frame, or leaves it. -/
theorem RefsExact.cowFault (h : RefsExact pgds m) (ha : a.Ample) (hr : pgd ∈ pgds)
    (hwalk : (walk m.table pgd x).isSome) :
    RefsExact pgds (handleCowFault a m pgd x accessFlags).2 := by
  by_cases hflags : accessFlags = 1 ∨ accessFlags = 3
  · obtain ⟨e, hwalk⟩ := Option.isSome_iff_exists.mp hwalk
    obtain ⟨t, hcow, hset⟩ :=
      handleCowFault_spec (a := a) h.tidy.trees hr (Set.mem_univ x) hflags hwalk
    rw [hcow]
    have hframes : FramesCounted (holders pgds t) (m.copied a e.pfn) :=
      h.frames.replace ha (holders_pos hr (frameOf_of_walk hwalk)) rfl rfl fun g =>
        hset.holders_replace hr (copiedEntry_ref _) hwalk g
    refine ⟨h.tidy.leafSet hset ?_, hframes.congr (fun _ => rfl) rfl rfl⟩
    exact (Machine.release_tablesUsed _).trans FrameAlloc.allocPage_tablesUsed
  · rw [handleCowFault, if_pos (not_or.mp hflags)]
    exact h

/-- A page is made writable, with a frame of its own. -/
theorem RefsExact.writePFN (h : RefsExact pgds m) (ha : a.Ample) (hr : pgd ∈ pgds)
    (hprot : prot ≠ 1) : RefsExact pgds (updatePFN a m pgd x prot) := by
  cases hwalk : walk m.table pgd x with
  | none =>
      rw [updatePFN_absent hwalk]
      exact h
  | some e =>
      have htidy := (updatePFN_write_rights (a := a) h.tidy hr (Set.mem_univ x) hprot).1
      obtain ⟨t, hupdate, hset⟩ :=
        updatePFN_write (a := a) h.tidy.trees hr (Set.mem_univ x) hprot hwalk
      rw [hupdate] at htidy ⊢
      refine ⟨htidy, ?_⟩
      by_cases hshared : m.refcount e.pfn > 1
      · rw [if_pos hshared] at hset
        simp only [if_pos hshared]
        have hframes : FramesCounted (holders pgds t) ((a.allocPage m).2.release e.pfn) :=
          h.frames.replace ha (holders_pos hr (frameOf_of_walk hwalk)) rfl rfl fun g =>
            hset.holders_replace hr (Entry.ref_writable _) hwalk g
        exact hframes.congr (fun _ => rfl) rfl rfl
      · rw [if_neg hshared] at hset
        simp only [if_neg hshared]
        refine h.frames.congr (fun g => ?_) rfl rfl
        have := hset.holders hr g
        rw [frameOf_of_walk hwalk, Entry.set_write_ref,
          Entry.ref_eq_some.mpr ⟨(walk_eq_some.mp hwalk).2, rfl⟩] at this
        exact Nat.add_right_cancel this

/-- Pages become read-only and no table is cut off. -/
theorem RefsExact.readPages {pages : List U64} (h : RefsExact pgds m) (hr : pgd ∈ pgds)
    (hkeeps : Keeps m.table pgd pages) :
    RefsExact pgds (pages.foldl (fun m addr => updatePFN a m pgd addr 1) m) := by
  obtain ⟨hweaker, hframes, _⟩ := @readPages_spec m pgd a pages
  have htidy := h.tidy.weaker hweaker (congrArg _ hframes)
  obtain ⟨t, hfold, _, honly⟩ :=
    readPages_kept (a := a) h.tidy.trees hr (fun x _ => Set.mem_univ x) hkeeps
  rw [hfold] at htidy ⊢
  refine h.rights htidy (fun r x hr' => ?_) rfl rfl
  by_cases hin : r = pgd ∧ ∃ page ∈ pages, pageOf x = pageOf page
  · obtain ⟨rfl, hin⟩ := hin
    rw [frameOf, frameOf, honly.pages x (Set.mem_univ x) hin, Option.map_map]
    rfl
  · rw [frameOf, frameOf, walk, walk, honly.other r x hr' (Set.mem_univ x) hin]

/-- A page fault adds one page with one reference, or nothing. -/
theorem RefsExact.makePresent (h : RefsExact pgds m) (ha : a.Ample) (hr : pgd ∈ pgds) :
    RefsExact pgds (makePresent a accessFlags m pgd x).2 := by
  have htidy := (makePresent_spec accessFlags h.tidy ha.toFresh hr (Set.mem_univ x)).tidy
  obtain ⟨m₁, hext, hresult | ⟨_, f, hf, hresult⟩⟩ :=
    makePresent_cases accessFlags h.tidy ha.toFresh hr (Set.mem_univ x)
  all_goals rw [hresult] at htidy ⊢
  · exact h.extended hext
  · have h₁ := h.extended hext
    by_cases hpresent : (m₁.entry ⟨f, pteIdx x⟩).present = true
    · rw [ensurePage, if_pos hpresent]
      exact h₁
    · rw [ensurePage_new hpresent (ha.page_ne_zero m₁)] at htidy ⊢
      have hset := h₁.tidy.trees.newPage a accessFlags hr (Set.mem_univ x) hf
      have habsent : frameOf m₁.table pgd x = none := by
        rw [frameOf, walk, leaf_eq_some.mpr ⟨f, hf, rfl⟩, Option.filter_some_neg, Option.map_none]
        simpa [Machine.entry] using hpresent
      refine ⟨htidy, (h₁.frames.allocPage ha fun g => ?_).congr (fun _ => rfl) rfl rfl⟩
      have := hset.holders hr g
      rw [habsent, newEntry_ref] at this
      simpa only [some_eq_some_ite, reduceCtorEq, if_false, Nat.add_zero] using this

end Edits

end GemOS.Vm
