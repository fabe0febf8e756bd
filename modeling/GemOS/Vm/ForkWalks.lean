import GemOS.Vm.ForkPages

/-!
# Walks after `do_cfork`

`do_cfork` shares the pages that it visits, read-only on both sides, and leaves all other walks of
the parent and of other processes alone.
-/

namespace GemOS.Vm

variable {a : FrameAlloc} {m m₀ m₁ m' : Machine} {r par child : Nat} {x y addrStart : U64}
variable {e : Entry} {roots : Set Nat} {pgds : Finset Nat} {pages : List U64} {visited : Set Nat}
variable {ctx : Process}

/-! ## The copied pages -/

/-- The child gets a read-only entry for the frame of the parent. -/
theorem Shared.walk_child (h : Shared a roots Set.univ m m' par child x e) (hne : par ≠ child)
    (hchild : child ∈ roots) : walk m'.table child x = some ⟨e.pfn, 0x11⟩ := by
  obtain ⟨t₁, _, hset, hset'⟩ := h.machine
  rw [hset'.walk_other hchild (Set.mem_univ x) fun heq => hne heq.1.symm]
  exact hset.walk (Entry.ref_eq_some.mp (Entry.ref_readOnly e.pfn)).1

/-- The parent keeps its page, without the write bit. -/
theorem Shared.walk_parent (h : Shared a roots Set.univ m m' par child x e)
    (hpresent : e.present = true) : walk m'.table par x = some (e.clear 0x8) := by
  obtain ⟨t₁, _, _, hset'⟩ := h.machine
  exact hset'.walk (Entry.clear_write_present.trans hpresent)

/-- Every other page is left alone. -/
theorem Shared.walk_other (h : Shared a roots Set.univ m m' par child x e) (hr : r ∈ roots)
    (hpar : ¬ (r = par ∧ pageOf y = pageOf x)) (hchild : ¬ (r = child ∧ pageOf y = pageOf x)) :
    walk m'.table r y = walk m.table r y := by
  obtain ⟨t₁, _, hset, hset'⟩ := h.machine
  rw [hset'.walk_other hr (Set.mem_univ y) hpar, hset.walk_other hr (Set.mem_univ y) hchild]

/-- No byte is copied. -/
theorem Shared.page (h : Shared a roots Set.univ m m' par child x e) : m'.page = m.page := by
  obtain ⟨t₁, hm', _, _⟩ := h.machine
  rw [hm']
  rfl

/-- The child has the pages of the parent that have been visited, and no others. -/
structure Forked (m m' : Machine) (par child : Nat) (visited : Set Nat) : Prop where
  parent_in : ∀ x, pageOf x ∈ visited →
    walk m'.table par x = (walk m.table par x).map (·.clear 0x8)
  parent_out : ∀ x, pageOf x ∉ visited → walk m'.table par x = walk m.table par x
  child_in : ∀ x, pageOf x ∈ visited →
    walk m'.table child x = (walk m.table par x).map fun e => ⟨e.pfn, 0x11⟩
  child_out : ∀ x, pageOf x ∉ visited → walk m'.table child x = none
  page : m'.page = m.page

/-- One more page has been visited, and the machine has changed for this page alone. -/
theorem Forked.visit (h : Forked m₀ m par child visited)
    (hother : ∀ r y, r = par ∨ r = child → pageOf y ≠ pageOf x →
      walk m'.table r y = walk m.table r y)
    (hpage : m'.page = m.page)
    (hparent : walk m'.table par x = (walk m₀.table par x).map (·.clear 0x8))
    (hchild : walk m'.table child x = (walk m₀.table par x).map fun e => ⟨e.pfn, 0x11⟩) :
    Forked m₀ m' par child (insert (pageOf x) visited) := by
  refine ⟨fun y hy => ?_, fun y hy => ?_, fun y hy => ?_, fun y hy => ?_, hpage.trans h.page⟩
  · by_cases heq : pageOf y = pageOf x
    · rw [walk_congr heq, walk_congr heq, hparent]
    · rw [hother par y (Or.inl rfl) heq, h.parent_in y (hy.resolve_left heq)]
  · obtain ⟨hne, hold⟩ := not_or.mp hy
    rw [hother par y (Or.inl rfl) hne, h.parent_out y hold]
  · by_cases heq : pageOf y = pageOf x
    · rw [walk_congr heq, walk_congr heq, hchild]
    · rw [hother child y (Or.inr rfl) heq, h.child_in y (hy.resolve_left heq)]
  · obtain ⟨hne, hold⟩ := not_or.mp hy
    rw [hother child y (Or.inr rfl) hne, h.child_out y hold]

/-- One page more is shared. -/
theorem Forked.copyPageToChildProcess (h : Forked m₀ m par child visited)
    (hm : Tidy pgds Set.univ m) (ha : a.Ample) (hpar : par ∈ pgds) (hchild : child ∈ pgds)
    (hne : par ≠ child) :
    Forked m₀ (copyPageToChildProcess a par child m x).2 par child
      (insert (pageOf x) visited) := by
  have hroots : ∀ r, r = par ∨ r = child → r ∈ pgds := by
    rintro r (rfl | rfl)
    · exact hpar
    · exact hchild
  obtain ⟨m₁, hext, ⟨hdone, hcopy⟩ | ⟨e, hwalk, habsent, hshared⟩⟩ :=
    copyPageToChildProcess_spec hm ha hpar hchild hne (Set.mem_univ x)
  · -- no page of the parent, or one that the child has already
    have hwalks : ∀ r y, r = par ∨ r = child → walk m₁.table r y = walk m.table r y :=
      fun r y hr => hext.walk r y (hroots r hr) (Set.mem_univ y)
    rw [hcopy]
    by_cases hin : pageOf x ∈ visited
    · exact h.visit (fun r y hr _ => hwalks r y hr) hext.page
        ((hwalks par x (Or.inl rfl)).trans (h.parent_in x hin))
        ((hwalks child x (Or.inr rfl)).trans (h.child_in x hin))
    · have hnone : walk m.table par x = none := hdone.resolve_right (by simp [h.child_out x hin])
      have hold : walk m₀.table par x = none := (h.parent_out x hin).symm.trans hnone
      refine h.visit (fun r y hr _ => hwalks r y hr) hext.page ?_ ?_
      · rw [hwalks par x (Or.inl rfl), hnone, hold]
        rfl
      · rw [hwalks child x (Or.inr rfl), h.child_out x hin, hold]
        rfl
  · have hout : pageOf x ∉ visited := by
      intro hin
      rw [h.child_in x hin, Option.map_eq_none_iff] at habsent
      rw [h.parent_in x hin, habsent] at hwalk
      cases hwalk
    have hold : walk m₀.table par x = some e := (h.parent_out x hout).symm.trans hwalk
    refine h.visit (fun r y hr hy => ?_) (hshared.page.trans hext.page) ?_ ?_
    · rw [hshared.walk_other (hroots r hr) (fun heq => hy heq.2) fun heq => hy heq.2,
        hext.walk r y (hroots r hr) (Set.mem_univ y)]
    · rw [hold, hshared.walk_parent (walk_eq_some.mp hwalk).2, Option.map_some]
    · rw [hold, hshared.walk_child hne hchild, Option.map_some]

/-- The pages that a list of addresses visits. -/
def pagesVisited (pages : List U64) : Set Nat :=
  {p | ∃ x ∈ pages, pageOf x = p}

/-- The pages of the addresses that the loops visit. -/
theorem mem_pagesVisited {p : Nat} : p ∈ pagesVisited pages ↔ ∃ x ∈ pages, pageOf x = p :=
  Iff.rfl

/-- The first address adds its page. -/
theorem pagesVisited_cons {page : U64} : pagesVisited (page :: pages) ∪ visited =
    pagesVisited pages ∪ insert (pageOf page) visited := by
  ext p
  simp only [mem_pagesVisited, List.mem_cons, exists_eq_or_imp, Set.mem_union,
    Set.mem_insert_iff]
  rw [or_assoc, or_left_comm, eq_comm]

/-- The loops share one page after the other. -/
theorem Forked.copyPages (h : Forked m₀ m par child visited) (hm : Tidy pgds Set.univ m)
    (ha : a.Ample) (hpar : par ∈ pgds) (hchild : child ∈ pgds) (hne : par ≠ child) :
    Forked m₀ (copyPages a par child m pages) par child (pagesVisited pages ∪ visited) := by
  unfold Vm.copyPages
  induction pages generalizing m visited with
  | nil =>
      have hnone : pagesVisited [] ∪ visited = visited := by
        simp [pagesVisited]
      rw [hnone]
      exact h
  | cons page pages ih =>
      rw [pagesVisited_cons]
      exact ih (h.copyPageToChildProcess hm ha hpar hchild hne)
        (hm.copyPageToChildProcess ha hpar hchild hne (Set.mem_univ page))

variable (addrStart) in
/-- What `do_cfork` does to the walks of parent and child. -/
theorem Tidy.doCfork_forked (h : Tidy pgds Set.univ m) (ha : a.Ample) (hr : ctx.pgd ∈ pgds) :
    Forked m (doCfork a addrStart ctx m).2 ctx.pgd (doCfork a addrStart ctx m).1.pgd
      (pagesVisited (forkPages addrStart ctx)) := by
  have hnew := h.newRoot ha ⟨0, Set.mem_univ 0⟩
  have hne : ctx.pgd ≠ (a.allocTable m).1 := fun heq => hnew.fresh (heq ▸ hr)
  have hstart : Forked m (a.allocTable m).2 ctx.pgd (a.allocTable m).1 ∅ :=
    ⟨fun _ hx => absurd hx (Set.notMem_empty _),
      fun x _ => hnew.walk ctx.pgd x hr (Set.mem_univ x),
      fun _ hx => absurd hx (Set.notMem_empty _), fun x _ => hnew.empty x, hnew.page⟩
  rw [← Set.union_empty (pagesVisited (forkPages addrStart ctx))]
  have htidy : Tidy ↑(insert (a.allocTable m).1 pgds) Set.univ (a.allocTable m).2 := by
    simpa using hnew.tidy
  exact hstart.copyPages htidy ha (Finset.mem_insert_of_mem hr) (Finset.mem_insert_self _ _) hne

/-- A process that does not take part in the fork. -/
theorem copyPages_other (h : Tidy pgds Set.univ m) (ha : a.Ample) (hpar : par ∈ pgds)
    (hchild : child ∈ pgds) (hne : par ≠ child) (hr : r ∈ pgds) (hrp : r ≠ par)
    (hrc : r ≠ child) : walk (copyPages a par child m pages).table r y = walk m.table r y := by
  unfold copyPages
  induction pages generalizing m with
  | nil => rfl
  | cons page pages ih =>
      rw [List.foldl_cons, ih (h.copyPageToChildProcess ha hpar hchild hne (Set.mem_univ page))]
      obtain ⟨m₁, hext, ⟨_, hcopy⟩ | ⟨e, _, _, hshared⟩⟩ :=
        copyPageToChildProcess_spec h ha hpar hchild hne (Set.mem_univ page)
      · rw [hcopy, hext.walk r y hr (Set.mem_univ y)]
      · rw [hshared.walk_other hr (fun heq => hrp heq.1) fun heq => hrc heq.1,
          hext.walk r y hr (Set.mem_univ y)]

/-! ## Frames of the two processes -/

/-- The parent keeps the frames of its pages. -/
theorem Forked.frame_parent (h : Forked m m' par child visited) :
    frameOf m'.table par x = frameOf m.table par x := by
  by_cases hin : pageOf x ∈ visited
  · rw [frameOf, frameOf, h.parent_in x hin, Option.map_map]
    rfl
  · rw [frameOf, frameOf, h.parent_out x hin]

/-- The child has frames of the parent. -/
theorem Forked.frame_child (h : Forked m m' par child visited) (hin : pageOf x ∈ visited) :
    frameOf m'.table child x = frameOf m.table par x := by
  rw [frameOf, frameOf, h.child_in x hin, Option.map_map]
  rfl

end GemOS.Vm
