import GemOS.Vm.Accesses
import GemOS.Vm.ForkCounts

/-!
# Frames are never counted too low

`vm_area_mprotect` may cut off a table with its pages, and then reference counts are too high.
They are never too low, though, as long as they fit in a byte: `FramesSafe` says that every page
holds a frame that is in use, that a frame has at least as many references as pages that hold it,
and that a page that may be written is the only one with its frame. Every call of every process
keeps this. The one thing asked of a fault is that `handle_cow_fault` is called for a page that is
present.

A count that runs over is not above 0 any more. Its frame is `stuck`: it is never given back,
because `put_pfn` stops the kernel at such a count.
-/

namespace GemOS.Vm

open CopyOnWrite (Moved Written)
open RefCount (held held_mono held_congr)

variable {a : FrameAlloc} {m m' m₁ : Machine} {t t' : Tables} {r par child pgd f n : Nat}
variable {x y addr : U64} {b : U8} {e e' : Entry} {pgds : Finset Nat} {stuck stuck' : Set Nat}
variable {count count' : Nat → Nat} {pages : List U64} {accessFlags : U32} {prot : CInt}

/-! ## Counts from above -/

/-- The reference counts are at least those of `count`, except for the frames that are stuck, and
what has a count is in use. -/
structure FramesCovered (stuck : Set Nat) (count : Nat → Nat) (m : Machine) : Prop where
  refcount : ∀ f ∉ stuck, (count f : Int) ≤ m.refcount f
  used : ∀ f, count f ≠ 0 → f ∈ m.frames.pagesUsed
  stuck : ∀ f ∈ stuck, m.refcount f ≤ 0 ∧ f ∈ m.frames.pagesUsed

/-- Counts that cover the pages cover fewer of them. -/
theorem FramesCovered.mono (h : FramesCovered stuck count m) (hcount : ∀ f, count' f ≤ count f)
    (hrefcount : m'.refcount = m.refcount)
    (hused : m'.frames.pagesUsed = m.frames.pagesUsed) : FramesCovered stuck count' m' := by
  refine ⟨fun f hf => ?_, fun f hf => ?_, fun f hf => ?_⟩
  · have := h.refcount f hf
    have := hcount f
    rw [hrefcount]
    omega
  · have := hcount f
    rw [hused]
    exact h.used f (by omega)
  · rw [hrefcount, hused]
    exact h.stuck f hf

/-- One reference less. -/
theorem Machine.release_refcount :
    (m.release f).refcount = Function.update m.refcount f (m.refcount f - 1) := by
  unfold Machine.release
  simp only
  split_ifs <;> rfl

/-- A frame that loses a reference stays in use if it had more than one. -/
theorem Machine.mem_release (hn : n ∈ m.frames.pagesUsed) (hkeep : n = f → m.refcount f ≠ 1) :
    n ∈ (m.release f).frames.pagesUsed := by
  unfold Machine.release
  simp only [Machine.putPfn, Function.update_self, Machine.freePage]
  split_ifs with hlast
  · have hne : n ≠ f := fun heq => hkeep heq (by omega)
    simp [hn, hne]
  · exact hn

/-- One holder less, and one reference less. -/
theorem FramesCovered.release (h : FramesCovered stuck count m)
    (hcount : ∀ g, count' g + (if f = g then 1 else 0) ≤ count g) :
    FramesCovered stuck count' (m.release f) := by
  refine ⟨fun g hg => ?_, fun g hg => ?_, fun g hg => ?_⟩
  · have hcover := h.refcount g hg
    have hless := hcount g
    rw [Machine.release_refcount]
    by_cases heq : g = f
    · subst heq
      rw [if_pos rfl] at hless
      rw [Function.update_self]
      omega
    · rw [if_neg (Ne.symm heq)] at hless
      rw [Function.update_of_ne heq]
      omega
  · have hless := hcount g
    refine Machine.mem_release (h.used g (by omega)) fun heq hone => ?_
    -- a frame with one reference is not stuck
    have hnot : g ∉ stuck := fun hmem => by
      have := (h.stuck g hmem).1
      rw [heq] at this
      omega
    have hcover := h.refcount g hnot
    rw [if_pos heq.symm] at hless
    rw [heq] at hcover hless hg
    omega
  · obtain ⟨hle, hused⟩ := h.stuck g hg
    rw [Machine.release_refcount]
    by_cases heq : g = f
    · subst heq
      rw [Function.update_self]
      exact ⟨by omega, Machine.mem_release hused fun _ => by omega⟩
    · rw [Function.update_of_ne heq]
      exact ⟨hle, Machine.mem_release hused fun h => absurd h heq⟩

/-- One holder more, of a frame that has some. -/
theorem FramesCovered.holder (h : FramesCovered stuck count m) (hf : count f ≠ 0)
    (hcount : ∀ g, count' g ≤ count g + (if f = g then 1 else 0)) {g : Nat} (hg : count' g ≠ 0) :
    g ∈ m.frames.pagesUsed := by
  have hmore := hcount g
  by_cases heq : f = g
  · exact h.used g (heq ▸ hf)
  · rw [if_neg heq] at hmore
    exact h.used g (by omega)

/-- One holder more, and one reference more. -/
theorem FramesCovered.getPfn (h : FramesCovered stuck count m) (hf : count f ≠ 0) (hnot : f ∉ stuck)
    (hmore : a.increment (m.refcount f) = m.refcount f + 1)
    (hcount : ∀ g, count' g ≤ count g + (if f = g then 1 else 0)) :
    FramesCovered stuck count' (m.getPfn a f) := by
  refine ⟨fun g hg => ?_, fun g hg => h.holder hf hcount hg, fun g hg => ?_⟩
  · have hcover := h.refcount g hg
    have hless := hcount g
    show _ ≤ Function.update m.refcount f (a.increment (m.refcount f)) g
    rw [hmore]
    by_cases heq : g = f
    · subst heq
      rw [if_pos rfl] at hless
      rw [Function.update_self]
      omega
    · rw [if_neg (Ne.symm heq)] at hless
      rw [Function.update_of_ne heq]
      omega
  · have hne : g ≠ f := fun heq => hnot (heq ▸ hg)
    show Function.update m.refcount f (a.increment (m.refcount f)) g ≤ 0 ∧ _
    rw [Function.update_of_ne hne]
    exact h.stuck g hg

/-- One holder more, and the count runs over. -/
theorem FramesCovered.getPfn_over (h : FramesCovered stuck count m) (hf : count f ≠ 0)
    (hover : a.increment (m.refcount f) ≤ 0)
    (hcount : ∀ g, count' g ≤ count g + (if f = g then 1 else 0)) :
    FramesCovered (insert f stuck) count' (m.getPfn a f) := by
  refine ⟨fun g hg => ?_, fun g hg => h.holder hf hcount hg, fun g hg => ?_⟩
  · obtain ⟨hne, hnot⟩ := not_or.mp hg
    have hcover := h.refcount g hnot
    have hless := hcount g
    rw [if_neg (Ne.symm hne)] at hless
    show _ ≤ Function.update m.refcount f (a.increment (m.refcount f)) g
    rw [Function.update_of_ne hne]
    omega
  · show Function.update m.refcount f (a.increment (m.refcount f)) g ≤ 0 ∧ g ∈ m.frames.pagesUsed
    by_cases heq : g = f
    · subst heq
      rw [Function.update_self]
      exact ⟨hover, h.used g hf⟩
    · rw [Function.update_of_ne heq]
      exact h.stuck g (hg.resolve_left heq)

/-- A new frame with one holder. -/
theorem FramesCovered.allocPage (h : FramesCovered stuck count m) (ha : a.Ample)
    (hcount : ∀ g, count' g ≤ count g + (if (a.allocPage m).1 = g then 1 else 0)) :
    FramesCovered stuck count' (a.allocPage m).2 := by
  have hnew : a.page m.frames ∉ m.frames.pagesUsed := ha.page _ (ha.some_page _)
  have hfresh : count (a.page m.frames) = 0 := not_not.mp fun hne => hnew (h.used _ hne)
  rw [ha.allocPage_eq] at hcount ⊢
  refine ⟨fun g hg => ?_, fun g hg => ?_, fun g hg => ?_⟩
  · have hcover := h.refcount g hg
    have hmore := hcount g
    show _ ≤ Function.update m.refcount (a.page m.frames) 1 g
    by_cases heq : g = a.page m.frames
    · subst heq
      rw [if_pos rfl, hfresh] at hmore
      rw [Function.update_self]
      omega
    · rw [if_neg (Ne.symm heq)] at hmore
      rw [Function.update_of_ne heq]
      omega
  · have hmore := hcount g
    by_cases heq : a.page m.frames = g
    · exact heq ▸ List.mem_cons_self
    · rw [if_neg heq] at hmore
      exact List.mem_cons_of_mem _ (h.used g (by omega))
  · obtain ⟨hle, hused⟩ := h.stuck g hg
    have hne : g ≠ a.page m.frames := fun heq => hnew (heq ▸ hused)
    show Function.update m.refcount (a.page m.frames) 1 g ≤ 0 ∧ _
    rw [Function.update_of_ne hne]
    exact ⟨hle, List.mem_cons_of_mem _ hused⟩

/-! ## Frames and pages -/

/-- The page tables of the processes are separate; a frame that is not stuck has at least as many
references as pages that hold it, and is in use if there are any; a page that may be written has
its frame to itself. -/
structure FramesSafe (stuck : Set Nat) (pgds : Finset Nat) (m : Machine) : Prop where
  tidy : Tidy pgds Set.univ m
  frames : FramesCovered stuck (holders pgds m.table) m
  exclusive : m.store.Exclusive (pagesOf pgds)

/-- The frames behind the pages have been handed out. -/
theorem FramesSafe.framesUsed (h : FramesSafe stuck pgds m) : FramesUsed pgds m :=
  fun _ _ _ hr hf => h.frames.used _ (holders_pos hr hf)

/-- A new frame is behind no page. -/
theorem FramesSafe.fresh (h : FramesSafe stuck pgds m) (ha : a.Ample) :
    ∀ r ∈ pgds, ∀ y, frameOf m.table r y ≠ some (a.allocPage m).1 :=
  fun _ hr _ => h.framesUsed.fresh ha hr

/-- A page that may be written, and a page with its frame. -/
theorem page_unique (h : m.store.Exclusive (pagesOf pgds)) (hr : r ∈ pgds) (hpgd : pgd ∈ pgds)
    (hwalk : walk m.table r x = some e) (hw : e.writable = true)
    (hframe : frameOf m.table pgd y = some e.pfn) : r = pgd ∧ pageOf x = pageOf y := by
  have hsame := h (r, pageOf x) (mem_pagesOf hr) (pgd, pageOf y) (mem_pagesOf hpgd) e.pfn
    (store_writable.mpr ⟨e, hwalk, hw⟩) (store_ref.trans (frameOf_of_walk hwalk))
    (store_ref.trans hframe)
  exact Prod.mk.inj hsame

/-- What pages that may be written have to do with each other, for one address each. -/
theorem exclusive_of_unique
    (h : ∀ r ∈ pgds, ∀ s ∈ pgds, ∀ x y e, walk m.table r x = some e → e.writable = true →
      frameOf m.table s y = some e.pfn → r = s ∧ pageOf x = pageOf y) :
    m.store.Exclusive (pagesOf pgds) := by
  rintro ⟨r, p⟩ ⟨hr, hp⟩ ⟨s, q⟩ ⟨hs, hq⟩ f ⟨e, he, hw⟩ hf hf'
  change frameOf m.table r (pageAddr p) = some f at hf
  rw [frameOf_of_walk he] at hf
  obtain rfl := Option.some.inj hf
  obtain ⟨rfl, hpage⟩ := h r hr s hs _ _ e he hw hf'
  rw [pageOf_pageAddr hp, pageOf_pageAddr hq] at hpage
  exact Prod.ext rfl hpage

/-- New tables keep the frames safe. -/
theorem FramesSafe.extended (h : FramesSafe stuck pgds m) (hext : Extended pgds Set.univ m m') :
    FramesSafe stuck pgds m' := by
  have hwalk : ∀ r x, r ∈ pgds → walk m'.table r x = walk m.table r x :=
    fun r x hr => hext.walk r x hr (Set.mem_univ x)
  refine ⟨hext.tidy, h.frames.mono (fun _ => (holders_congr hwalk).le) hext.refcount
    hext.pagesUsed, exclusive_of_unique fun r hr s hs x y e he hw hf => ?_⟩
  rw [hwalk r x hr] at he
  rw [frameOf, hwalk s y hs] at hf
  exact page_unique h.exclusive hr hs he hw hf

/-- Rights have been taken away. -/
theorem FramesSafe.weaker (h : FramesSafe stuck pgds m) (hweaker : Weaker m.table m'.table)
    (hcover : FramesCovered stuck (holders pgds m'.table) m')
    (htables : m'.frames.tablesUsed = m.frames.tablesUsed) : FramesSafe stuck pgds m' := by
  refine ⟨h.tidy.weaker hweaker htables, hcover,
    exclusive_of_unique fun r hr s hs x y e he hw hf => ?_⟩
  obtain ⟨e₀, he₀, hpfn, hle⟩ := hweaker.walk he
  obtain ⟨e₁', he₁', hpfn'⟩ := Option.map_eq_some_iff.mp hf
  obtain ⟨e₁, he₁, hpfn₁, _⟩ := hweaker.walk he₁'
  refine page_unique h.exclusive hr hs he₀ (hle hw) ((frameOf_of_walk he₁).trans (congrArg some ?_))
  rw [hpfn₁, hpfn', hpfn]

/-- Entries that lose bits hold no more frames than before. -/
theorem holders_weaker (h : Weaker t t') : holders pgds t' f ≤ holders pgds t f := by
  refine held_mono fun q _ hq => ?_
  obtain ⟨e', he', hpfn'⟩ := Option.map_eq_some_iff.mp hq
  obtain ⟨e, he, hpfn, _⟩ := h.walk he'
  exact (frameOf_of_walk he).trans (congrArg some (hpfn.trans hpfn'))

/-- One page has got a frame that no page had. -/
theorem LeafSet.exclusive (hset : LeafSet pgds Set.univ m.table m'.table pgd x e)
    (h : m.store.Exclusive (pagesOf pgds))
    (hfresh : ∀ r ∈ pgds, ∀ y, Vm.frameOf m.table r y ≠ some n) (href : e.ref = some n)
    {c : BitVec 12 → U8} (hpage : m'.page = Function.update m.page n c) :
    m'.store.Exclusive (pagesOf pgds) :=
  (hset.moved_fresh hfresh href hpage).exclusive h

/-! ## The functions for one page -/

/-- What a new page holds. -/
theorem newPage_page (ha : a.Ample) : (a.allocPage m).2.page =
    Function.update m.page (a.allocPage m).1 (a.fill (m.page (a.allocPage m).1)) := by
  rw [ha.allocPage_eq]

/-- `freePFN` keeps the frames safe: it takes a reference for the page it clears. -/
theorem FramesSafe.freePFN (h : FramesSafe ∅ pgds m) (hr : pgd ∈ pgds) :
    FramesSafe ∅ pgds (freePFN m pgd x) := by
  refine h.weaker freePFN_weaker ?_ freePFN_tablesUsed
  cases hwalk : walk m.table pgd x with
  | none =>
      rw [freePFN_absent hwalk]
      exact h.frames
  | some e =>
      obtain ⟨t, hfree, hset⟩ := freePFN_present h.tidy.trees hr hwalk
      have hheld := holders_pos hr (frameOf_of_walk hwalk)
      have hrefcount : m.refcount e.pfn ≠ 0 := by
        have := h.frames.refcount e.pfn (Set.notMem_empty _)
        omega
      rw [hfree, if_neg hrefcount]
      have hframes : FramesCovered ∅ (holders pgds t) (m.release e.pfn) :=
        h.frames.release fun g => by
          have := hset.holders hr g
          rw [frameOf_of_walk hwalk, some_eq_some_ite] at this
          simpa [Entry.ref] using this.le
      exact hframes.mono (fun _ => le_rfl) rfl rfl

/-- A page gets a new frame in place of the one it has. -/
theorem FramesSafe.replace (h : FramesSafe stuck pgds m) (ha : a.Ample) (hr : pgd ∈ pgds)
    (hwalk : walk m.table pgd x = some e) (href : e'.ref = some (a.allocPage m).1)
    (hset : LeafSet pgds Set.univ m.table t pgd x e')
    (hrefcount : m₁.refcount = (a.allocPage m).2.refcount)
    (hframes : m₁.frames = (a.allocPage m).2.frames)
    {c : BitVec 12 → U8}
    (hpage : (m₁.release e.pfn).page = Function.update m.page (a.allocPage m).1 c) :
    FramesSafe stuck pgds { m₁.release e.pfn with table := t } := by
  have hreplace : ∀ g, holders pgds t g + (if e.pfn = g then 1 else 0) =
      holders pgds m.table g + (if (a.allocPage m).1 = g then 1 else 0) :=
    hset.holders_replace hr href hwalk
  have halloc : FramesCovered stuck (fun g => holders pgds m.table g +
      if (a.allocPage m).1 = g then 1 else 0) m₁ :=
    (h.frames.allocPage ha fun _ => le_rfl).mono (fun _ => le_rfl) hrefcount
      (congrArg _ hframes)
  have hcover : FramesCovered stuck (holders pgds t) (m₁.release e.pfn) :=
    halloc.release fun g => (hreplace g).le
  refine ⟨h.tidy.leafSet hset ?_, hcover.mono (fun _ => le_rfl) rfl rfl,
    LeafSet.exclusive hset h.exclusive (h.fresh ha) href hpage⟩
  show (m₁.release e.pfn).frames.tablesUsed = _
  rw [Machine.release_tablesUsed, hframes]
  exact FrameAlloc.allocPage_tablesUsed

/-- `handle_cow_fault` keeps the frames safe. -/
theorem FramesSafe.cowFault (h : FramesSafe stuck pgds m) (ha : a.Ample) (hr : pgd ∈ pgds)
    (hpresent : (walk m.table pgd x).isSome) :
    FramesSafe stuck pgds (handleCowFault a m pgd x accessFlags).2 := by
  by_cases hflags : accessFlags = 1 ∨ accessFlags = 3
  · obtain ⟨e, hwalk⟩ := Option.isSome_iff_exists.mp hpresent
    obtain ⟨t, hcow, hset⟩ :=
      handleCowFault_spec (a := a) h.tidy.trees hr (Set.mem_univ x) hflags hwalk
    have hne : e.pfn ≠ (a.allocPage m).1 := fun heq =>
      h.fresh ha pgd hr x (heq ▸ frameOf_of_walk hwalk)
    rw [hcow]
    exact h.replace ha hr hwalk (copiedEntry_ref _) hset rfl rfl (copied_page (ha.some_page _) hne)
  · rw [handleCowFault, if_pos (not_or.mp hflags)]
    exact h

/-- Making pages read-only touches no count. -/
theorem readPages_refcount :
    (pages.foldl (fun m addr => updatePFN a m pgd addr 1) m).refcount = m.refcount := by
  induction pages generalizing m with
  | nil => rfl
  | cons page pages ih =>
      rw [List.foldl_cons, ih, updatePFN]
      cases presentSlots m pgd page with
      | none => rfl
      | some s =>
          simp only [if_true, updatePTPermissions]
          split_ifs <;> rfl

/-- Making pages read-only keeps the frames safe. -/
theorem FramesSafe.readPages (h : FramesSafe stuck pgds m) :
    FramesSafe stuck pgds (pages.foldl (fun m addr => updatePFN a m pgd addr 1) m) := by
  obtain ⟨hweaker, hframes, _⟩ := @readPages_spec m pgd a pages
  refine h.weaker hweaker ?_ (congrArg _ hframes)
  exact h.frames.mono (fun _ => holders_weaker hweaker) readPages_refcount (congrArg _ hframes)

/-- The only page with its frame. -/
theorem page_of_holders {s : Nat} (h : holders pgds t f ≤ 1) (hr : r ∈ pgds) (hs : s ∈ pgds)
    (hx : frameOf t r x = some f) (hy : frameOf t s y = some f) :
    r = s ∧ pageOf x = pageOf y := by
  have hholds : ∀ {r x}, frameOf t r x = some f →
      frameOf t (r, pageOf x).1 (pageAddr (r, pageOf x).2) = some f := fun {_ x} hx =>
    (frameOf_congr (pageOf_pageAddr (pageOf_lt x))).trans hx
  have hsame : (r, pageOf x) = (s, pageOf y) := RefCount.unique_of_held_le_one h
    (mem_allPages.mpr ⟨hr, pageOf_lt x⟩) (mem_allPages.mpr ⟨hs, pageOf_lt y⟩) (hholds hx)
    (hholds hy)
  exact Prod.mk.inj hsame

/-- A page that has its frame to itself becomes writable. -/
theorem FramesSafe.grantWrite (h : FramesSafe ∅ pgds m) (hr : pgd ∈ pgds)
    (hwalk : walk m.table pgd x = some e) (halone : ¬ m.refcount e.pfn > 1)
    (hset : LeafSet pgds Set.univ m.table t pgd x (e.set 0x8)) :
    FramesSafe ∅ pgds { m with table := t } := by
  have hnew : frameOf t pgd x = some e.pfn := by
    rw [hset.frameOf, Entry.set_write_ref]
    exact Entry.ref_eq_some.mpr ⟨(walk_eq_some.mp hwalk).2, rfl⟩
  -- every page has the frame that it had
  have hframe : ∀ r ∈ pgds, ∀ y, frameOf t r y = frameOf m.table r y := by
    intro r hr' y
    by_cases heq : r = pgd ∧ pageOf y = pageOf x
    · rw [heq.1, frameOf_congr heq.2, frameOf_congr heq.2, hnew, frameOf_of_walk hwalk]
    · rw [frameOf, frameOf, hset.walk_other hr' (Set.mem_univ y) heq]
  have hholders : ∀ f, holders pgds t f = holders pgds m.table f := fun f =>
    held_congr fun q hq => hframe q.1 (Finset.mem_product.mp hq).1 _
  refine ⟨h.tidy.leafSet hset rfl, h.frames.mono (fun f => (hholders f).le) rfl rfl,
    exclusive_of_unique fun r hr' s hs y z e₁ he₁ hw hf => ?_⟩
  replace hf : frameOf m.table s z = some e₁.pfn := (hframe s hs z).symm.trans hf
  by_cases heq : r = pgd ∧ pageOf y = pageOf x
  · -- the frame has one reference, so no other page
    obtain ⟨rfl, hpage⟩ := heq
    have hpfn : e₁.pfn = e.pfn := by
      have hthis := (frameOf_congr hpage).trans hnew
      rw [frameOf_of_walk he₁] at hthis
      exact Option.some.inj hthis
    have hone : holders pgds m.table e.pfn ≤ 1 := by
      have := h.frames.refcount e.pfn (Set.notMem_empty _)
      omega
    obtain ⟨hroot, hsame⟩ := page_of_holders hone hr hs (frameOf_of_walk hwalk) (hpfn ▸ hf)
    exact ⟨hroot, hpage.trans hsame⟩
  · have hold : walk m.table r y = some e₁ :=
      (hset.walk_other hr' (Set.mem_univ y) heq).symm.trans he₁
    exact page_unique h.exclusive hr' hs hold hw hf

/-- `updatePFN` with `PROT_WRITE` keeps the frames safe: a page whose frame is shared gets a frame
of its own. -/
theorem FramesSafe.writePFN (h : FramesSafe ∅ pgds m) (ha : a.Ample) (hr : pgd ∈ pgds)
    (hprot : prot ≠ 1) : FramesSafe ∅ pgds (updatePFN a m pgd x prot) := by
  cases hwalk : walk m.table pgd x with
  | none =>
      rw [updatePFN_absent hwalk]
      exact h
  | some e =>
      obtain ⟨t, hupdate, hset⟩ :=
        updatePFN_write (a := a) h.tidy.trees hr (Set.mem_univ x) hprot hwalk
      rw [hupdate]
      by_cases hshared : m.refcount e.pfn > 1
      · rw [if_pos hshared] at hset
        simp only [if_pos hshared]
        exact h.replace ha hr hwalk (Entry.ref_writable _) hset rfl rfl
          ((Machine.release_page _).trans (newPage_page ha))
      · rw [if_neg hshared] at hset
        simp only [if_neg hshared]
        exact h.grantWrite hr hwalk hshared hset

/-- Making pages writable keeps the frames safe. -/
theorem FramesSafe.writePages (h : FramesSafe ∅ pgds m) (ha : a.Ample) (hr : pgd ∈ pgds)
    (hprot : prot ≠ 1) :
    FramesSafe ∅ pgds (pages.foldl (fun m addr => updatePFN a m pgd addr prot) m) :=
  List.foldlRecOn pages _ h fun _ h _ _ => h.writePFN ha hr hprot

/-- A page fault keeps the frames safe. -/
theorem FramesSafe.makePresent (h : FramesSafe stuck pgds m) (ha : a.Ample) (hr : pgd ∈ pgds) :
    FramesSafe stuck pgds (makePresent a accessFlags m pgd x).2 := by
  obtain ⟨m₁, hext, hresult | ⟨_, f, hf, hresult⟩⟩ :=
    makePresent_cases accessFlags h.tidy ha.toFresh hr (Set.mem_univ x)
  all_goals rw [hresult]
  · exact h.extended hext
  · have h₁ := h.extended hext
    by_cases hpresent : (m₁.entry ⟨f, pteIdx x⟩).present = true
    · rw [ensurePage, if_pos hpresent]
      exact h₁
    · rw [ensurePage_new hpresent (ha.page_ne_zero m₁)]
      have hset := h₁.tidy.trees.newPage a accessFlags hr (Set.mem_univ x) hf
      have habsent : frameOf m₁.table pgd x = none := by
        rw [frameOf, walk, leaf_eq_some.mpr ⟨f, hf, rfl⟩, Option.filter_some_neg, Option.map_none]
        simpa [Machine.entry] using hpresent
      refine ⟨h₁.tidy.leafSet hset FrameAlloc.allocPage_tablesUsed,
        (h₁.frames.allocPage ha fun g => ?_).mono (fun _ => le_rfl) rfl rfl,
        LeafSet.exclusive hset h₁.exclusive (h₁.fresh ha) (newEntry_ref _) (newPage_page ha)⟩
      have := hset.holders hr g
      rw [habsent, newEntry_ref] at this
      simpa only [some_eq_some_ite, reduceCtorEq, if_false, Nat.add_zero] using this.le

/-! ## `do_cfork` -/

/-- A process with empty tables keeps the frames safe. -/
theorem FramesSafe.newRoot (h : FramesSafe stuck pgds m) (ha : a.Ample) :
    FramesSafe stuck (insert (a.allocTable m).1 pgds) (a.allocTable m).2 := by
  have hnew := h.tidy.newRoot ha ⟨0, Set.mem_univ 0⟩
  have hempty : ∀ r ∈ insert (a.allocTable m).1 pgds, ∀ x e,
      walk (a.allocTable m).2.table r x = some e → r ∈ pgds ∧ walk m.table r x = some e := by
    intro r hr x e he
    rcases Finset.mem_insert.mp hr with rfl | hr
    · rw [hnew.empty] at he
      cases he
    · exact ⟨hr, (hnew.walk r x hr (Set.mem_univ x)).symm.trans he⟩
  refine ⟨by simpa using hnew.tidy, h.frames.mono (fun f => ?_) hnew.refcount hnew.pagesUsed,
    exclusive_of_unique fun r hr s hs x y e he hw hf => ?_⟩
  · refine Finset.card_le_card fun q hq => ?_
    rw [Finset.mem_filter] at hq ⊢
    obtain ⟨hq, hf⟩ := hq
    obtain ⟨e, he, hpfn⟩ := Option.map_eq_some_iff.mp hf
    obtain ⟨hroot, hold⟩ := hempty q.1 (mem_allPages.mp hq).1 _ e he
    exact ⟨mem_allPages.mpr ⟨hroot, (mem_allPages.mp hq).2⟩,
      (frameOf_of_walk hold).trans (congrArg some hpfn)⟩
  · obtain ⟨hr, he⟩ := hempty r hr x e he
    obtain ⟨e', he', hpfn⟩ := Option.map_eq_some_iff.mp hf
    obtain ⟨hs, he'⟩ := hempty s hs y e' he'
    exact page_unique h.exclusive hr hs he hw ((frameOf_of_walk he').trans (congrArg some hpfn))

/-- Parent and child have one more page in common, read-only for both. -/
theorem Shared.exclusive (hshared : Shared a pgds Set.univ m m' par child x e)
    (h : m.store.Exclusive (pagesOf pgds)) (hpar : par ∈ pgds) (hchild : child ∈ pgds)
    (hne : par ≠ child) (hwalk : walk m.table par x = some e) :
    m'.store.Exclusive (pagesOf pgds) := by
  have hnew := hshared.walk_child hne hchild
  have hparent := hshared.walk_parent (walk_eq_some.mp hwalk).2
  have hframe : ∀ s ∈ pgds, ∀ y f, frameOf m'.table s y = some f →
      frameOf m.table s y = some f ∨ frameOf m.table par x = some f := by
    intro s hs y f hf
    by_cases hpc : s = child ∧ pageOf y = pageOf x
    · obtain ⟨rfl, hpage⟩ := hpc
      rw [frameOf_congr hpage, frameOf_of_walk hnew] at hf
      rw [frameOf_of_walk hwalk]
      exact Or.inr hf
    · by_cases hpp : s = par ∧ pageOf y = pageOf x
      · obtain ⟨rfl, hpage⟩ := hpp
        rw [frameOf_congr hpage, frameOf_of_walk hparent] at hf
        rw [frameOf_of_walk hwalk]
        exact Or.inr hf
      · rw [frameOf, hshared.walk_other hs hpp hpc] at hf
        exact Or.inl hf
  refine exclusive_of_unique fun r hr s hs y z e₁ he₁ hw hf => ?_
  -- the page that may be written is not the one in common
  have hpc : ¬ (r = child ∧ pageOf y = pageOf x) := by
    rintro ⟨rfl, hpage⟩
    rw [walk_congr hpage, hnew] at he₁
    rw [← Option.some.inj he₁] at hw
    exact absurd hw (by decide : ¬ (0x11 : BitVec 12).getLsbD 3 = true)
  have hpp : ¬ (r = par ∧ pageOf y = pageOf x) := by
    rintro ⟨rfl, hpage⟩
    rw [walk_congr hpage, hparent] at he₁
    rw [← Option.some.inj he₁, Entry.clear_write_writable] at hw
    cases hw
  rw [hshared.walk_other hr hpp hpc] at he₁
  rcases hframe s hs z _ hf with hold | hold
  · exact page_unique h hr hs he₁ hw hold
  · exact absurd (page_unique h hr hpar he₁ hw hold) hpp

/-- `get_pfn` keeps counts covered, and which frames may be stuck. -/
def FrameAlloc.Covers (a : FrameAlloc) (P : Set Nat → Prop) : Prop :=
  ∀ {stuck : Set Nat} {count count' : Nat → Nat} {m : Machine} {f : Nat}, P stuck →
    FramesCovered stuck count m → count f ≠ 0 →
    (∀ g, count' g ≤ count g + (if f = g then 1 else 0)) →
    ∃ stuck', P stuck' ∧ FramesCovered stuck' count' (m.getPfn a f)

/-- With counts that have no bound, no frame is stuck. -/
theorem FrameAlloc.CountsExactly.covers (hcounts : a.CountsExactly) : a.Covers (· = ∅) := by
  rintro _ _ _ m f rfl h hf hcount
  exact ⟨∅, rfl, h.getPfn hf (Set.notMem_empty f) (hcounts _) hcount⟩

/-- Counting in a byte covers the pages, or the frame is stuck. -/
theorem FrameAlloc.CountsInBytes.covers (hbytes : a.CountsInBytes) :
    a.Covers fun _ => True := by
  rintro stuck _ _ m f - h hf hcount
  by_cases hroom : 0 < m.refcount f ∧ m.refcount f < 127
  · have hnot : f ∉ stuck := fun hmem => by
      have := (h.stuck f hmem).1
      omega
    exact ⟨stuck, trivial, h.getPfn hf hnot (hbytes.fits _ hroom.1 hroom.2) hcount⟩
  · exact ⟨insert f stuck, trivial, h.getPfn_over hf (hbytes.overrun _ (by omega)) hcount⟩

/-- Sharing one page keeps the frames safe. -/
theorem FramesSafe.copyPageToChildProcess {P : Set Nat → Prop} (h : FramesSafe stuck pgds m)
    (ha : a.Ample) (hcovers : a.Covers P) (hP : P stuck) (hpar : par ∈ pgds) (hchild : child ∈ pgds)
    (hne : par ≠ child) :
    ∃ stuck', P stuck' ∧ FramesSafe stuck' pgds (copyPageToChildProcess a par child m x).2 := by
  obtain ⟨m₁, hext, ⟨_, hcopy⟩ | ⟨e, hwalk, habsent, hshared⟩⟩ :=
    copyPageToChildProcess_spec h.tidy ha hpar hchild hne (Set.mem_univ x)
  · exact ⟨stuck, hP, hcopy ▸ h.extended hext.toExtended⟩
  · have h₁ := h.extended hext.toExtended
    rw [← hext.walk par x hpar (Set.mem_univ x)] at hwalk
    rw [← hext.walk child x hchild (Set.mem_univ x)] at habsent
    have hcount := hshared.holders hpar hchild hne hwalk habsent
    obtain ⟨stuck', hP', hcover⟩ := hcovers hP h₁.frames
      (holders_pos hpar (frameOf_of_walk hwalk)) fun g => (hcount g).le
    obtain ⟨t₁, hm', _, _⟩ := id hshared.machine
    refine ⟨stuck', hP', hshared.tidy h₁.tidy, ?_,
      hshared.exclusive h₁.exclusive hpar hchild hne hwalk⟩
    rw [hm']
    exact hcover.mono (fun _ => le_rfl) rfl rfl

/-- The loops of `do_cfork` keep the frames safe. -/
theorem FramesSafe.copyPages {P : Set Nat → Prop} (h : FramesSafe stuck pgds m) (ha : a.Ample)
    (hcovers : a.Covers P) (hP : P stuck) (hpar : par ∈ pgds) (hchild : child ∈ pgds)
    (hne : par ≠ child) :
    ∃ stuck', P stuck' ∧ FramesSafe stuck' pgds (copyPages a par child m pages) := by
  unfold Vm.copyPages
  induction pages generalizing m stuck with
  | nil => exact ⟨stuck, hP, h⟩
  | cons page pages ih =>
      obtain ⟨_, hP', hnext⟩ := h.copyPageToChildProcess ha hcovers hP hpar hchild hne
      exact ih hnext hP'

/-- `do_cfork` keeps the frames safe, whichever of them get stuck. -/
theorem FramesSafe.doCfork {P : Set Nat → Prop} {ctx : Process} (h : FramesSafe stuck pgds m)
    (ha : a.Ample) (hcovers : a.Covers P) (hP : P stuck) (addrStart : U64) (hpgd : ctx.pgd ∈ pgds) :
    ∃ stuck', P stuck' ∧ FramesSafe stuck' (insert (doCfork a addrStart ctx m).1.pgd pgds)
      (doCfork a addrStart ctx m).2 := by
  have hnew := h.tidy.newRoot ha ⟨0, Set.mem_univ 0⟩
  exact (h.newRoot ha).copyPages ha hcovers hP (Finset.mem_insert_of_mem hpgd)
    (Finset.mem_insert_self _ _) fun heq => hnew.fresh (heq ▸ hpgd)

/-- With counts that fit, no frame gets stuck. -/
theorem FramesSafe.doCfork_fits {ctx : Process} {addrStart : U64} (h : FramesSafe ∅ pgds m)
    (ha : a.Ample) (hbytes : a.CountsInBytes) (hpgd : ctx.pgd ∈ pgds)
    (hfit : CountsFit m ctx.pgd (pageSet (forkPages addrStart ctx))) :
    FramesSafe ∅ (insert (Vm.doCfork a addrStart ctx m).1.pgd pgds)
      (Vm.doCfork a addrStart ctx m).2 := by
  rw [hfit.doCfork h.tidy ha hbytes hpgd]
  obtain ⟨_, rfl, hsafe⟩ := h.doCfork ha.exact a.exact_counts.covers rfl addrStart hpgd
  exact hsafe

/-! ## What the processes see -/

/-- Nobody notices that a page is copied. -/
theorem FramesSafe.cowFault_contents (h : FramesSafe stuck pgds m) (ha : a.Ample) (hr : pgd ∈ pgds)
    (hpresent : (walk m.table pgd x).isSome) (accessFlags : U32) (hr' : r ∈ pgds) :
    contents (handleCowFault a m pgd x accessFlags).2 r y = contents m r y := by
  by_cases hflags : accessFlags = 1 ∨ accessFlags = 3
  · obtain ⟨e, hwalk⟩ := Option.isSome_iff_exists.mp hpresent
    obtain ⟨t, hcow, hset⟩ :=
      handleCowFault_spec (a := a) h.tidy.trees hr (Set.mem_univ x) hflags hwalk
    have hne : e.pfn ≠ (a.allocPage m).1 := fun heq =>
      h.fresh ha pgd hr x (heq ▸ frameOf_of_walk hwalk)
    have hmoved : Moved (pagesOf pgds) m.store { m.copied a e.pfn with table := t }.store
        (pgd, pageOf x) (a.allocPage m).1 (m.page e.pfn) :=
      hset.moved h.framesUsed ha (copiedEntry_ref _) (copied_page (ha.some_page _) hne)
    rw [hcow]
    by_cases heq : r = pgd ∧ pageOf y = pageOf x
    · obtain ⟨rfl, hpage⟩ := heq
      rw [contents_page hpage, contents_page hpage, contents_of_moved hmoved,
        contents_of_walk hwalk]
    · exact contents_of_moved_other hmoved hr' heq
  · rw [handleCowFault, if_pos (not_or.mp hflags)]

/-- A store that goes through. -/
theorem FramesSafe.store (h : FramesSafe stuck pgds m) (hr : pgd ∈ pgds)
    (hwalk : walk m.table pgd x = some e) (hw : e.writable = true) :
    FramesSafe stuck pgds (m.storeByte e.pfn (offsetOf x) b) ∧
      contents (m.storeByte e.pfn (offsetOf x) b) pgd x =
        some (Function.update (m.page e.pfn) (offsetOf x) b) ∧
      ∀ r ∈ pgds, ∀ y, ¬ (r = pgd ∧ pageOf y = pageOf x) →
        contents (m.storeByte e.pfn (offsetOf x) b) r y = contents m r y := by
  have hwritten : Written (pagesOf pgds) m.store (m.storeByte e.pfn (offsetOf x) b).store
      (pgd, pageOf x) e.pfn _ := write_written hwalk hw
  refine ⟨⟨⟨h.tidy.trees, h.tidy.used⟩, h.frames.mono (fun _ => le_rfl) rfl rfl,
    hwritten.exclusive h.exclusive⟩, ?_, fun r hr' y hne => ?_⟩
  · rw [contents_eq, hwritten.view (mem_pagesOf hr)]
  · rw [contents_eq, contents_eq]
    exact hwritten.view_other h.exclusive (mem_pagesOf hr) (mem_pagesOf hr')
      fun heq => hne (Prod.mk.inj heq)

end GemOS.Vm
