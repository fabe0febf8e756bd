import GemOS.Vm.ForkWalks

/-!
# References of shared pages

A page that is copied for a child adds one reference to its frame, with `get_pfn`. `Copied` follows
the tables and the counts through the loops, and from it comes what the counts must be like for
`get_pfn`, which counts in one byte, to add 1 each time (`CountsFit`): then the loops do what they
would do with counts that have no bound (`copyPages_exact`).
-/

namespace GemOS.Vm

variable {a : FrameAlloc} {m₀ m m₁ m' : Machine} {par child r f : Nat} {x y addrStart : U64}
variable {e : Entry} {roots : Set Nat} {visited : Finset Nat} {pages : List U64}
variable {pgds : Finset Nat} {ctx : Process}

/-! ## One page after the other -/

/-- How many pages of a set the parent maps to a frame. -/
def mappedPages (t : Tables) (par : Nat) (visited : Finset Nat) (f : Nat) : Nat :=
  (visited.filter fun p => frameOf t par (pageAddr p) = some f).card

/-- One page more, counted if it is mapped to the frame. -/
theorem mappedPages_insert (hnew : pageOf x ∉ visited) :
    mappedPages m.table par (insert (pageOf x) visited) f =
      mappedPages m.table par visited f + if frameOf m.table par x = some f then 1 else 0 := by
  have hpage : frameOf m.table par (pageAddr (pageOf x)) = frameOf m.table par x :=
    frameOf_congr (pageOf_pageAddr (pageOf_lt x))
  rw [mappedPages, mappedPages, Finset.filter_insert, hpage]
  split_ifs
  · exact Finset.card_insert_of_notMem fun hmem => hnew (Finset.mem_filter.mp hmem).1
  · rfl

/-- The pages that have been visited are shared; what is stored for others is as it was. -/
structure Copied (m m' : Machine) (par child : Nat) (visited : Finset Nat) : Prop where
  tidy : Tidy {par, child} Set.univ m'
  parent_in : ∀ x, pageOf x ∈ visited →
    walk m'.table par x = (walk m.table par x).map (·.clear 0x8)
  child_in : ∀ x, pageOf x ∈ visited →
    walk m'.table child x = (walk m.table par x).map fun e => ⟨e.pfn, 0x11⟩
  outside : ∀ r x, r ∈ ({par, child} : Set Nat) → pageOf x ∉ visited →
    leafEntry m'.table r x = leafEntry m.table r x
  refcount : ∀ f, m'.refcount f = m.refcount f + mappedPages m.table par visited f

/-- Nothing has been copied yet. -/
theorem Copied.start (h : Tidy {par, child} Set.univ m) : Copied m m par child ∅ :=
  ⟨h, fun _ hx => absurd hx (Finset.notMem_empty _), fun _ hx => absurd hx (Finset.notMem_empty _),
    fun _ _ _ _ => rfl, fun f => by simp [mappedPages]⟩

/-- One more page: what its visit must do. -/
theorem Copied.visit (h : Copied m₀ m par child visited) (hnew : pageOf x ∉ visited)
    (htidy : Tidy {par, child} Set.univ m')
    (hothers : ∀ r y, r ∈ ({par, child} : Set Nat) → pageOf y ≠ pageOf x →
      leafEntry m'.table r y = leafEntry m.table r y)
    (hparent : walk m'.table par x = (walk m₀.table par x).map (·.clear 0x8))
    (hchild : walk m'.table child x = (walk m₀.table par x).map fun e => ⟨e.pfn, 0x11⟩)
    (hrefcount : ∀ f, m'.refcount f =
      m.refcount f + if frameOf m₀.table par x = some f then 1 else 0) :
    Copied m₀ m' par child (insert (pageOf x) visited) := by
  refine ⟨htidy, fun y hy => ?_, fun y hy => ?_, fun r y hr hy => ?_, fun f => ?_⟩
  · by_cases heq : pageOf y = pageOf x
    · rw [walk_congr heq, walk_congr heq, hparent]
    · rw [walk_of_leafEntry (hothers par y (Or.inl rfl) heq),
        h.parent_in y (Finset.mem_of_mem_insert_of_ne hy heq)]
  · by_cases heq : pageOf y = pageOf x
    · rw [walk_congr heq, walk_congr heq, hchild]
    · rw [walk_of_leafEntry (hothers child y (Or.inr rfl) heq),
        h.child_in y (Finset.mem_of_mem_insert_of_ne hy heq)]
  · rw [Finset.mem_insert, not_or] at hy
    rw [hothers r y hr hy.1, h.outside r y hr hy.2]
  · rw [hrefcount, h.refcount, mappedPages_insert hnew]
    split_ifs <;> omega

/-- The entries of other pages are left alone. -/
theorem Shared.leafEntry_other (h : Shared a roots Set.univ m m' par child x e) (hr : r ∈ roots)
    (hy : pageOf y ≠ pageOf x) : leafEntry m'.table r y = leafEntry m.table r y := by
  obtain ⟨t₁, _, hset, hset'⟩ := h.machine
  rw [leafEntry, leafEntry, hset'.other r y hr (Set.mem_univ y) fun heq => hy heq.2,
    hset.other r y hr (Set.mem_univ y) fun heq => hy heq.2]

/-- What `get_pfn` makes of the count of a shared frame. -/
theorem Shared.refcount_update (h : Shared a roots Set.univ m m' par child x e) :
    m'.refcount = Function.update m.refcount e.pfn (a.increment (m.refcount e.pfn)) := by
  obtain ⟨t₁, hm', _, _⟩ := h.machine
  rw [hm']
  rfl

/-- A shared frame has one more reference. -/
theorem Shared.refcount (h : Shared a roots Set.univ m m' par child x e)
    (hcounts : a.CountsExactly) :
    m'.refcount f = m.refcount f + if e.pfn = f then 1 else 0 := by
  rw [h.refcount_update, hcounts, Function.update_apply]
  by_cases heq : f = e.pfn
  · rw [if_pos heq, if_pos heq.symm, heq]
  · rw [if_neg heq, if_neg (Ne.symm heq), add_zero]

/-- Tables have been added. -/
theorem Copied.grown (h : Copied m₀ m par child visited)
    (hgrown : Grown {par, child} Set.univ m m') : Copied m₀ m' par child visited := by
  refine ⟨hgrown.tidy, fun y hy => ?_, fun y hy => ?_, fun r y hr hy => ?_, fun f => ?_⟩
  · rw [hgrown.walk par y (Or.inl rfl) (Set.mem_univ y), h.parent_in y hy]
  · rw [hgrown.walk child y (Or.inr rfl) (Set.mem_univ y), h.child_in y hy]
  · rw [hgrown.leafEntry r y hr (Set.mem_univ y), h.outside r y hr hy]
  · rw [hgrown.refcount, h.refcount]

/-- A page that has been visited is not shared a second time. -/
theorem Copied.again (h : Copied m₀ m par child visited) (ha : a.Ample) (hne : par ≠ child)
    (hold : pageOf x ∈ visited) :
    Copied m₀ (copyPageToChildProcess a par child m x).2 par child visited := by
  obtain ⟨m₁, hgrown, ⟨_, hcopy⟩ | ⟨e, hwalk, hnone, _⟩⟩ :=
    copyPageToChildProcess_spec h.tidy ha (Or.inl rfl) (Or.inr rfl) hne (Set.mem_univ x)
  · exact hcopy ▸ h.grown hgrown
  · rw [h.child_in x hold, Option.map_eq_none_iff] at hnone
    rw [h.parent_in x hold, hnone] at hwalk
    cases hwalk

/-- A page that has not been visited. -/
theorem Copied.next (h : Copied m₀ m par child visited) (ha : a.Ample)
    (hcounts : a.CountsExactly) (hne : par ≠ child) (hnew : pageOf x ∉ visited)
    (habsent : walk m₀.table child x = none) :
    Copied m₀ (copyPageToChildProcess a par child m x).2 par child
      (insert (pageOf x) visited) := by
  have hpar : par ∈ ({par, child} : Set Nat) := Or.inl rfl
  have hchild : child ∈ ({par, child} : Set Nat) := Or.inr rfl
  have hold : walk m.table par x = walk m₀.table par x :=
    walk_of_leafEntry (h.outside par x hpar hnew)
  have hnone : walk m.table child x = none :=
    (walk_of_leafEntry (h.outside child x hchild hnew)).trans habsent
  obtain ⟨m₁, hgrown, ⟨hdone, hcopy⟩ | ⟨e, hwalk, _, hshared⟩⟩ :=
    copyPageToChildProcess_spec h.tidy ha hpar hchild hne (Set.mem_univ x)
  · -- the parent has no page here
    have hparent : walk m.table par x = none := hdone.resolve_right (by simp [hnone])
    rw [hcopy]
    refine h.visit hnew hgrown.tidy (fun r y hr _ => hgrown.leafEntry r y hr (Set.mem_univ y))
      ?_ ?_ fun f => ?_
    · rw [hgrown.walk par x hpar (Set.mem_univ x), ← hold, hparent]
      rfl
    · rw [hgrown.walk child x hchild (Set.mem_univ x), ← hold, hnone, hparent]
      rfl
    · rw [hgrown.refcount, frameOf, ← hold, hparent]
      simp
  · refine h.visit hnew (hshared.tidy hgrown.tidy) (fun r y hr hy => ?_) ?_ ?_ fun f => ?_
    · rw [hshared.leafEntry_other hr hy, hgrown.leafEntry r y hr (Set.mem_univ y)]
    · rw [← hold, hwalk, hshared.walk_parent (walk_eq_some.mp hwalk).2, Option.map_some]
    · rw [← hold, hwalk, hshared.walk_child hne hchild, Option.map_some]
    · rw [hshared.refcount hcounts, hgrown.refcount, frameOf_of_walk (hold ▸ hwalk)]
      simp only [Option.some.injEq]

/-- The step of the loop. -/
theorem Copied.step (h : Copied m₀ m par child visited) (ha : a.Ample)
    (hcounts : a.CountsExactly) (hne : par ≠ child) (habsent : walk m₀.table child x = none) :
    Copied m₀ (copyPageToChildProcess a par child m x).2 par child
      (insert (pageOf x) visited) := by
  by_cases hold : pageOf x ∈ visited
  · rw [Finset.insert_eq_of_mem hold]
    exact h.again ha hne hold
  · exact h.next ha hcounts hne hold habsent

/-- The pages that a list of addresses visits. -/
def pageSet (pages : List U64) : Finset Nat :=
  (pages.map pageOf).toFinset

/-- The page of a visited address. -/
theorem mem_pageSet (hx : x ∈ pages) : pageOf x ∈ pageSet pages :=
  List.mem_toFinset.mpr (List.mem_map_of_mem hx)

/-- The run of the loop. -/
theorem Copied.run (h : Copied m₀ m par child visited) (ha : a.Ample)
    (hcounts : a.CountsExactly) (hne : par ≠ child)
    (habsent : ∀ x ∈ pages, walk m₀.table child x = none) :
    Copied m₀ (copyPages a par child m pages) par child (pageSet pages ∪ visited) := by
  unfold copyPages
  induction pages generalizing m visited with
  | nil => simpa [pageSet] using h
  | cons page pages ih =>
      rw [pageSet, List.map_cons, List.toFinset_cons, Finset.insert_union, ← Finset.union_insert]
      exact ih (h.step ha hcounts hne (habsent page List.mem_cons_self))
        fun x hx => habsent x (List.mem_cons_of_mem page hx)

/-! ## Counts of one byte -/

/-- The same allocator, with counts that have no bound. -/
def FrameAlloc.exact (a : FrameAlloc) : FrameAlloc :=
  { a with increment := fun n => n + 1 }

/-- The allocator that counts without a bound counts exactly. -/
theorem FrameAlloc.exact_counts (a : FrameAlloc) : a.exact.CountsExactly :=
  fun _ => rfl

/-- It still has a frame for every table and page. -/
theorem FrameAlloc.Ample.exact (ha : a.Ample) : a.exact.Ample :=
  ⟨⟨ha.table, ha.page⟩, ha.some_table, ha.some_page⟩

/-- The counts of frames that the parent has on some pages are not 0, and they still fit in a byte
with one more reference for each of these pages. -/
def CountsFit (m : Machine) (par : Nat) (pages : Finset Nat) : Prop :=
  ∀ p ∈ pages, ∀ f ∈ frameOf m.table par (pageAddr p),
    0 < m.refcount f ∧ m.refcount f + mappedPages m.table par pages f ≤ 127

instance : Decidable (CountsFit m par visited) :=
  inferInstanceAs (Decidable (∀ p ∈ visited, ∀ f ∈ frameOf m.table par (pageAddr p), _ ∧ _))

/-- The bound at a frame that is mapped. -/
theorem CountsFit.at (hfit : CountsFit m par visited) (hx : pageOf x ∈ visited)
    (hf : frameOf m.table par x = some f) :
    0 < m.refcount f ∧ m.refcount f + mappedPages m.table par visited f ≤ 127 :=
  hfit _ hx f ((frameOf_congr (pageOf_pageAddr (pageOf_lt x))).trans hf)

/-- What is counted is all that `get_pfn` has a part in. -/
theorem copyPage_counts {fp fc : Slot} : copyPage a m fp fc =
    { copyPage a.exact m fp fc with refcount := (copyPage a m fp fc).refcount } := by
  unfold copyPage
  split_ifs <;> rfl

/-- How the allocator counts matters for the counts only. -/
theorem copyPageToChildProcess_counts : (copyPageToChildProcess a par child m x).2 =
    { (copyPageToChildProcess a.exact par child m x).2 with
      refcount := (copyPageToChildProcess a par child m x).2.refcount } := by
  have htable : ∀ m s s', copyTable a.exact m s s' = copyTable a m s s' := fun _ _ _ => rfl
  unfold copyPageToChildProcess
  simp only [htable]
  split_ifs
  · rfl
  · rfl
  · rfl
  · rfl
  · exact copyPage_counts

/-- The counts after one page. -/
theorem copyPageToChildProcess_refcount (h : Tidy roots Set.univ m) (ha : a.Ample)
    (hpar : par ∈ roots) (hchild : child ∈ roots) (hne : par ≠ child) :
    (copyPageToChildProcess a par child m x).2.refcount =
      match walk m.table par x, walk m.table child x with
      | some e, none => Function.update m.refcount e.pfn (a.increment (m.refcount e.pfn))
      | _, _ => m.refcount := by
  obtain ⟨m₁, hgrown, ⟨hdone, hcopy⟩ | ⟨e, hwalk, hnone, hshared⟩⟩ :=
    copyPageToChildProcess_spec h ha hpar hchild hne (Set.mem_univ x)
  · rw [hcopy, hgrown.refcount]
    cases hwalk : walk m.table par x <;> cases hnone : walk m.table child x <;>
      simp_all
  · rw [hshared.refcount_update, hgrown.refcount, hwalk, hnone]

/-- Counts that have no bound never fall, -/
theorem copyPageToChildProcess_refcount_le (h : Tidy roots Set.univ m) (ha : a.Ample)
    (hpar : par ∈ roots) (hchild : child ∈ roots) (hne : par ≠ child) :
    m.refcount f ≤ (copyPageToChildProcess a.exact par child m x).2.refcount f := by
  rw [copyPageToChildProcess_refcount h ha.exact hpar hchild hne]
  cases walk m.table par x <;> cases walk m.table child x
  · exact le_rfl
  · exact le_rfl
  · next e =>
      simp only [Function.update_apply, a.exact_counts _]
      split_ifs with heq
      · rw [heq]
        omega
      · exact le_rfl
  · exact le_rfl

/-- No pages are left to copy. -/
theorem copyPages_nil : copyPages a par child m [] = m :=
  List.foldl_nil

/-- The first page is copied, then the others. -/
theorem copyPages_cons : copyPages a par child m (x :: pages) =
    copyPages a par child (copyPageToChildProcess a par child m x).2 pages :=
  List.foldl_cons ..

/-- Counting without a bound, `do_cfork` takes no reference away. -/
theorem copyPages_refcount_le (h : Tidy roots Set.univ m) (ha : a.Ample) (hpar : par ∈ roots)
    (hchild : child ∈ roots) (hne : par ≠ child) :
    m.refcount f ≤ (copyPages a.exact par child m pages).refcount f := by
  unfold copyPages
  induction pages generalizing m with
  | nil => exact le_rfl
  | cons page pages ih =>
      exact (copyPageToChildProcess_refcount_le h ha hpar hchild hne).trans
        (ih (h.copyPageToChildProcess ha.exact hpar hchild hne (Set.mem_univ page)))

/-- and the parent's pages keep their frames. -/
theorem copyPageToChildProcess_frame (h : Tidy roots Set.univ m) (ha : a.Ample)
    (hpar : par ∈ roots) (hchild : child ∈ roots) (hne : par ≠ child) :
    frameOf (copyPageToChildProcess a par child m x).2.table par y = frameOf m.table par y := by
  obtain ⟨m₁, hgrown, ⟨_, hcopy⟩ | ⟨e, hwalk, _, hshared⟩⟩ :=
    copyPageToChildProcess_spec h ha hpar hchild hne (Set.mem_univ x)
  · rw [hcopy, frameOf, frameOf, hgrown.walk par y hpar (Set.mem_univ y)]
  · by_cases hpage : pageOf y = pageOf x
    · rw [frameOf_congr hpage, frameOf_congr hpage, frameOf_of_walk hwalk,
        frameOf_of_walk (hshared.walk_parent (walk_eq_some.mp hwalk).2)]
      rfl
    · rw [frameOf, frameOf, hshared.walk_other hpar (fun heq => hpage heq.2)
        fun heq => hpage heq.2, hgrown.walk par y hpar (Set.mem_univ y)]

/-- One page, if the count of its frame has room for one more. -/
theorem copyPageToChildProcess_exact (h : Tidy roots Set.univ m) (ha : a.Ample)
    (hbytes : a.CountsInBytes) (hpar : par ∈ roots) (hchild : child ∈ roots) (hne : par ≠ child)
    (hfit : ∀ e, walk m.table par x = some e → walk m.table child x = none →
      0 < m.refcount e.pfn ∧ m.refcount e.pfn < 127) :
    (copyPageToChildProcess a par child m x).2 =
      (copyPageToChildProcess a.exact par child m x).2 := by
  have hrefcount : (copyPageToChildProcess a par child m x).2.refcount =
      (copyPageToChildProcess a.exact par child m x).2.refcount := by
    rw [copyPageToChildProcess_refcount h ha hpar hchild hne,
      copyPageToChildProcess_refcount h ha.exact hpar hchild hne]
    cases hwalk : walk m.table par x <;> cases hnone : walk m.table child x
    · rfl
    · rfl
    · obtain ⟨hpos, hroom⟩ := hfit _ hwalk hnone
      simp only [a.exact_counts _, hbytes.fits _ hpos hroom]
    · rfl
  rw [copyPageToChildProcess_counts, hrefcount]

/-- The loop, if the counts that it would come to without a bound fit in a byte. -/
theorem copyPages_exact (h : Tidy roots Set.univ m) (ha : a.Ample) (hbytes : a.CountsInBytes)
    (hpar : par ∈ roots) (hchild : child ∈ roots) (hne : par ≠ child)
    (hfit : ∀ x ∈ pages, ∀ f, frameOf m.table par x = some f →
      0 < m.refcount f ∧ (copyPages a.exact par child m pages).refcount f ≤ 127) :
    copyPages a par child m pages = copyPages a.exact par child m pages := by
  induction pages generalizing m with
  | nil => rw [copyPages_nil, copyPages_nil]
  | cons page pages ih =>
      have hnext := h.copyPageToChildProcess ha.exact hpar hchild hne (Set.mem_univ page)
      rw [copyPages_cons] at hfit
      have hroom : ∀ e, walk m.table par page = some e → walk m.table child page = none →
          0 < m.refcount e.pfn ∧ m.refcount e.pfn < 127 := by
        intro e hwalk hnone
        obtain ⟨hpos, hle⟩ := hfit page List.mem_cons_self _ (frameOf_of_walk hwalk)
        have hmore := (copyPages_refcount_le hnext ha hpar hchild hne).trans hle
        rw [copyPageToChildProcess_refcount h ha.exact hpar hchild hne, hwalk, hnone] at hmore
        simp only [Function.update_self, a.exact_counts _] at hmore
        omega
      rw [copyPages_cons, copyPages_cons,
        copyPageToChildProcess_exact h ha hbytes hpar hchild hne hroom]
      refine ih hnext fun x hx f hf => ?_
      rw [copyPageToChildProcess_frame h ha.exact hpar hchild hne] at hf
      obtain ⟨hpos, hle⟩ := hfit x (List.mem_cons_of_mem page hx) f hf
      exact ⟨hpos.trans_le (copyPageToChildProcess_refcount_le h ha hpar hchild hne), hle⟩

/-! ## Both loops -/

/-- Fewer processes are tidy as well. -/
theorem Tidy.mono {roots' : Set Nat} (h : Tidy roots Set.univ m) (hsub : roots' ⊆ roots) :
    Tidy roots' Set.univ m :=
  ⟨fun r p r' p' f hp hp' => h.trees r p r' p' f ⟨hsub hp.1, hp.2⟩ ⟨hsub hp'.1, hp'.2⟩,
    fun r p f hp => h.used r p f ⟨hsub hp.1, hp.2⟩⟩

/-- While the counts fit in a byte, counting in a byte is exact. -/
theorem CountsFit.copyPages (hfit : CountsFit m par (pageSet pages))
    (h : Tidy {par, child} Set.univ m) (ha : a.Ample) (hbytes : a.CountsInBytes) (hne : par ≠ child)
    (habsent : ∀ x ∈ pages, walk m.table child x = none) :
    Vm.copyPages a par child m pages = Vm.copyPages a.exact par child m pages := by
  refine copyPages_exact h ha hbytes (Or.inl rfl) (Or.inr rfl) hne fun x hx f hf => ?_
  obtain ⟨hpos, hle⟩ := hfit.at (mem_pageSet hx) hf
  have hrun := (Copied.start h).run ha.exact a.exact_counts hne habsent
  rw [Finset.union_empty] at hrun
  exact ⟨hpos, (hrun.refcount f).le.trans hle⟩

/-- A new first-level table does not change what fits. -/
theorem CountsFit.newRoot (hfit : CountsFit m par visited) (h : Tidy roots Set.univ m)
    (ha : a.Ample) (hr : par ∈ roots) : CountsFit (a.allocTable m).2 par visited := by
  have hnew := h.newRoot ha ⟨0, Set.mem_univ 0⟩
  have hframe : ∀ x, frameOf (a.allocTable m).2.table par x = frameOf m.table par x :=
    fun x => congrArg (Option.map Entry.pfn) (hnew.walk par x hr (Set.mem_univ x))
  intro p hp f hf
  rw [hframe] at hf
  simp only [mappedPages, hframe, hnew.refcount]
  exact hfit p hp f hf

/-- `do_cfork` for counts that fit. -/
theorem CountsFit.doCfork (hfit : CountsFit m ctx.pgd (pageSet (forkPages addrStart ctx)))
    (h : Tidy pgds Set.univ m) (ha : a.Ample) (hbytes : a.CountsInBytes) (hr : ctx.pgd ∈ pgds) :
    Vm.doCfork a addrStart ctx m = Vm.doCfork a.exact addrStart ctx m := by
  have hnew := h.newRoot ha ⟨0, Set.mem_univ 0⟩
  have hne : ctx.pgd ≠ (a.allocTable m).1 := fun heq => hnew.fresh (heq ▸ hr)
  have htidy : Tidy {ctx.pgd, (a.allocTable m).1} Set.univ (a.allocTable m).2 := by
    refine hnew.tidy.mono ?_
    rintro r (rfl | rfl)
    · exact Or.inr hr
    · exact Or.inl rfl
  exact congrArg (Prod.mk _)
    ((hfit.newRoot h ha hr).copyPages htidy ha hbytes hne fun x _ => hnew.empty x)

end GemOS.Vm
