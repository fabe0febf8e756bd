import Mathlib.Data.List.Nodup
import Mathlib.Data.List.Infix

/-!
# Null-terminated doubly linked lists

Nodes are linked by two functions `next` and `prev`. The list pointer is the successor of `null`,
so the ends of a list are neighbours of `null` and need no case of their own. `IsList cs` says
that the nodes from the list pointer on are `cs`, linked both ways. Every edit of a list replaces
some consecutive nodes by others: `IsList.splice` is the rule for all of them. `find` is a search
along the links.
-/

namespace DoublyLinked

variable {ι : Type*} {next prev next' prev' : ι → ι} {null : ι}

/-- Consecutive nodes are linked both ways. Nothing is stored behind `null`. -/
def Linked (next prev : ι → ι) (null : ι) : List ι → Prop
  | x :: y :: rest => next x = y ∧ (y ≠ null → prev y = x) ∧ Linked next prev null (y :: rest)
  | _ => True

/-- A walk is linked when its two parts are. -/
theorem linked_append (xs : List ι) {ys : List ι} {x : ι} :
    Linked next prev null (xs ++ x :: ys) ↔
      Linked next prev null (xs ++ [x]) ∧ Linked next prev null (x :: ys) := by
  induction xs with
  | nil => simp [Linked]
  | cons a xs ih =>
      cases xs with
      | nil => simp [Linked, and_assoc]
      | cons b xs =>
          simp only [List.cons_append, Linked] at ih ⊢
          rw [ih, and_assoc, and_assoc]

/-- Links depend on the successors of all nodes but the last and on the predecessors of all
nodes but the first. -/
theorem Linked.congr {xs : List ι} (h : Linked next prev null xs)
    (hnext : ∀ a ∈ xs.dropLast, next' a = next a)
    (hprev : ∀ a ∈ xs.tail, a ≠ null → prev' a = prev a) : Linked next' prev' null xs := by
  induction xs with
  | nil => trivial
  | cons x xs ih =>
      cases xs with
      | nil => trivial
      | cons y rest =>
          obtain ⟨hxy, hyx, hrest⟩ := h
          simp only [List.dropLast_cons_cons, List.mem_cons, List.tail_cons] at hnext hprev
          refine ⟨(hnext x (Or.inl rfl)).trans hxy,
            fun hy => (hprev y (Or.inl rfl) hy).trans (hyx hy), ih hrest ?_ ?_⟩
          · exact fun a ha => hnext a (Or.inr ha)
          · exact fun a ha => hprev a (Or.inr ha)

/-- The nodes from the list pointer on. -/
structure IsList (next prev : ι → ι) (null : ι) (cs : List ι) : Prop where
  linked : Linked next prev null (null :: (cs ++ [null]))
  nodup : (null :: cs).Nodup

/-- A list depends on the links of its own nodes and on the list pointer. -/
theorem IsList.congr {cs : List ι} (h : IsList next prev null cs)
    (hnext : ∀ a ∈ null :: cs, next' a = next a) (hprev : ∀ a ∈ cs, prev' a = prev a) :
    IsList next' prev' null cs := by
  refine ⟨h.linked.congr ?_ ?_, h.nodup⟩
  · intro a ha
    rw [← List.cons_append, List.dropLast_concat] at ha
    exact hnext a ha
  · intro a ha hne
    exact hprev a (by simpa [hne] using ha)

/-- The neighbour before a position: the last of the nodes before it, or null. -/
def lastOr (null : ι) (pre : List ι) : ι :=
  pre.getLastD null

/-- The neighbour after a position: the first of the nodes after it, or null. -/
def headOr (null : ι) (post : List ι) : ι :=
  post.headD null

/-- The end of the nodes before a position of the list. -/
theorem exists_before (null : ι) (pre : List ι) :
    ∃ xs, null :: pre = xs ++ [lastOr null pre] := by
  rcases List.eq_nil_or_concat' pre with rfl | ⟨xs, x, rfl⟩
  · exact ⟨[], rfl⟩
  · exact ⟨null :: xs, by simp [lastOr]⟩

/-- The start of the nodes after a position of the list. -/
theorem exists_after (null : ι) (post : List ι) :
    ∃ ys, post ++ [null] = headOr null post :: ys ∧ (headOr null post :: ys).dropLast = post ∧
      ∀ a ∈ ys, a ≠ null → a ∈ post.tail := by
  cases post with
  | nil => exact ⟨[], rfl, rfl, by simp⟩
  | cons y post =>
      refine ⟨post ++ [null], rfl, ?_, ?_⟩
      · show (y :: post ++ [null]).dropLast = y :: post
        exact List.dropLast_concat
      · intro a ha hne
        simpa [hne] using ha

/-- A neighbour before a position is one of the nodes before it, unless it is null. -/
theorem lastOr_mem {pre : List ι} (h : lastOr null pre ≠ null) : lastOr null pre ∈ pre := by
  rcases List.eq_nil_or_concat' pre with rfl | ⟨xs, x, rfl⟩
  · exact absurd rfl h
  · simp [lastOr]

theorem lastOr_mem_cons (null : ι) (pre : List ι) : lastOr null pre ∈ null :: pre := by
  by_cases h : lastOr null pre = null
  · simp [h]
  · exact List.mem_cons_of_mem null (lastOr_mem h)

/-- A neighbour after a position is one of the nodes after it, unless it is null. -/
theorem headOr_mem {post : List ι} (h : headOr null post ≠ null) : headOr null post ∈ post := by
  cases post with
  | nil => exact absurd rfl h
  | cons y post => simp [headOr]

/-- Replacing the nodes between two positions. The new nodes are linked to each other and to the
neighbours, and no other link changes. -/
theorem IsList.splice {pre mid mid' post : List ι}
    (h : IsList next prev null (pre ++ (mid ++ post)))
    (hmid : Linked next' prev' null (lastOr null pre :: (mid' ++ [headOr null post])))
    (hnodup : (null :: (pre ++ (mid' ++ post))).Nodup)
    (hnext : ∀ a ∈ null :: (pre ++ post), a ≠ lastOr null pre → next' a = next a)
    (hprev : ∀ a ∈ pre ++ post, a ≠ headOr null post → prev' a = prev a) :
    IsList next' prev' null (pre ++ (mid' ++ post)) := by
  obtain ⟨xs, hxs⟩ := exists_before null pre
  obtain ⟨ys, hys, hdrop, htail⟩ := exists_after null post
  have hsplit : ∀ middle : List ι, null :: (pre ++ (middle ++ post) ++ [null]) =
      xs ++ lastOr null pre :: (middle ++ headOr null post :: ys) := by
    intro middle
    calc null :: (pre ++ (middle ++ post) ++ [null])
        = (null :: pre) ++ (middle ++ (post ++ [null])) := by simp
      _ = _ := by rw [hxs, hys, List.append_assoc, List.singleton_append]
  -- `null` occurs once, so the neighbours of the replaced nodes are met once
  have hold := h.nodup
  rw [List.nodup_cons, List.mem_append, List.mem_append, not_or, not_or] at hold
  obtain ⟨⟨hnull_pre, _, hnull_post⟩, hnodup_old⟩ := hold
  have hbefore : ∀ a ∈ xs, a ≠ lastOr null pre := by
    have hpre : (null :: pre).Nodup :=
      List.nodup_cons.mpr ⟨hnull_pre, (List.nodup_append.mp hnodup_old).1⟩
    rw [hxs, List.nodup_append] at hpre
    exact fun a ha => hpre.2.2 a ha _ (by simp)
  have hbefore_post : ∀ a ∈ post, a ≠ lastOr null pre := by
    intro a ha heq
    have hmem : a ∈ null :: pre := by rw [hxs, heq]; simp
    rcases List.mem_cons.mp hmem with rfl | hpre
    · exact hnull_post ha
    · exact (List.nodup_append.mp hnodup_old).2.2 a hpre a (by simp [ha]) rfl
  have hafter : ∀ a ∈ pre ++ post.tail, a ≠ null → a ≠ headOr null post := by
    intro a ha hne heq
    cases post with
    | nil => exact hne heq
    | cons y post =>
        obtain rfl : a = y := heq
        rcases List.mem_append.mp ha with ha | ha
        · exact (List.nodup_append.mp hnodup_old).2.2 a ha a (by simp) rfl
        · have hpost := (List.nodup_append.mp (List.nodup_append.mp hnodup_old).2.1).2.1
          exact (List.nodup_cons.mp hpost).1 ha
  have hlinked := h.linked
  rw [hsplit, linked_append] at hlinked
  obtain ⟨hleft, hrest⟩ := hlinked
  have hright : Linked next prev null (headOr null post :: ys) :=
    ((linked_append (_ :: mid)).mp hrest).2
  refine ⟨?_, hnodup⟩
  rw [hsplit, linked_append]
  refine ⟨hleft.congr ?_ ?_, (linked_append (_ :: mid')).mpr ⟨hmid, hright.congr ?_ ?_⟩⟩
  · intro a ha
    rw [List.dropLast_concat] at ha
    have hmem : a ∈ null :: pre := by rw [hxs]; simp [ha]
    exact hnext a (by simp only [List.mem_cons, List.mem_append] at hmem ⊢; tauto) (hbefore a ha)
  · intro a ha hne
    rw [← hxs, List.tail_cons] at ha
    exact hprev a (by simp [ha]) (hafter a (by simp [ha]) hne)
  · intro a ha
    rw [hdrop] at ha
    exact hnext a (by simp [ha]) (hbefore_post a ha)
  · intro a ha hne
    have hmem := htail a ha hne
    exact hprev a (by simp [List.mem_of_mem_tail hmem]) (hafter a (by simp [hmem]) hne)

/-- The node before a position is none of those after it. -/
theorem lastOr_ne {pre post : List ι} (h : (null :: (pre ++ post)).Nodup) {a : ι} (ha : a ∈ post) :
    a ≠ lastOr null pre := by
  rw [← List.cons_append, List.nodup_append] at h
  exact fun heq => h.2.2 _ (lastOr_mem_cons null pre) a ha heq.symm

section Edits

variable [DecidableEq ι] {pre post cs : List ι} {c r : ι}

/-- Taking out the nodes behind `c`, up to `post`. -/
theorem IsList.cut {mid : List ι} (h : IsList next prev null (pre ++ c :: (mid ++ post)))
    (hnext : ∀ a ∈ null :: (pre ++ c :: post),
      next' a = if a = c then headOr null post else next a)
    (hprev : ∀ a ∈ pre ++ c :: post, prev' a = if a = headOr null post then c else prev a) :
    IsList next' prev' null (pre ++ c :: post) := by
  have hsub : List.Sublist (pre ++ c :: post) (pre ++ c :: (mid ++ post)) :=
    ((List.sublist_append_right mid post).cons_cons c).append_left pre
  have hnodup := h.nodup.sublist (hsub.cons_cons null)
  have hlast : lastOr null (pre ++ [c]) = c := by simp [lastOr]
  have hold : IsList next prev null ((pre ++ [c]) ++ (mid ++ post)) := by simpa using h
  have hnew : IsList next' prev' null ((pre ++ [c]) ++ ([] ++ post)) := by
    refine hold.splice ⟨?_, ?_, trivial⟩ (by simpa using hnodup) ?_ ?_
    · rw [hlast, hnext c (by simp), if_pos rfl]
    · intro hne
      rw [hlast, hprev _ (by simp [headOr_mem hne]), if_pos rfl]
    · intro a ha hac
      rw [hlast] at hac
      rw [hnext a (by simpa using ha), if_neg hac]
    · intro a ha hac
      rw [hprev a (by simpa using ha), if_neg hac]
  simpa using hnew

/-- Taking out one node. -/
theorem IsList.remove (h : IsList next prev null (pre ++ c :: post))
    (hnext : ∀ a ∈ null :: (pre ++ post),
      next' a = if a = lastOr null pre then headOr null post else next a)
    (hprev : ∀ a ∈ pre ++ post,
      prev' a = if a = headOr null post then lastOr null pre else prev a) :
    IsList next' prev' null (pre ++ post) := by
  have hsub : List.Sublist (pre ++ post) (pre ++ c :: post) :=
    (List.sublist_cons_self c post).append_left pre
  have hold : IsList next prev null (pre ++ ([c] ++ post)) := h
  have hnew : IsList next' prev' null (pre ++ ([] ++ post)) := by
    refine hold.splice ⟨?_, ?_, trivial⟩ (h.nodup.sublist (hsub.cons_cons null)) ?_ ?_
    · have hmem := lastOr_mem_cons null pre
      rw [hnext _ (by simp only [List.mem_cons, List.mem_append] at hmem ⊢; tauto), if_pos rfl]
    · intro hne
      rw [hprev _ (by simp [headOr_mem hne]), if_pos rfl]
    · intro a ha hac
      rw [hnext a ha, if_neg hac]
    · intro a ha hac
      rw [hprev a ha, if_neg hac]
  exact hnew

/-- A new first node. -/
theorem IsList.pushFront (h : IsList next prev null cs) (hnull : c ≠ null) (hc : c ∉ cs)
    (hlist : next' null = c) (hnext : ∀ a ∈ c :: cs, next' a = if a = c then next null else next a)
    (hprev : ∀ a ∈ c :: cs,
      prev' a = if a = next null then c else if a = c then null else prev a) :
    IsList next' prev' null (c :: cs) := by
  have hold : IsList next prev null ([] ++ ([] ++ cs)) := h
  have hnodup : (null :: ([] ++ ([c] ++ cs))).Nodup := by
    have := h.nodup
    simp only [List.nodup_cons] at this
    simp [this, hc, hnull.symm]
  have hhead : next null = headOr null cs := by
    cases cs <;> exact h.linked.1
  have hself : c ≠ headOr null cs := by
    intro heq
    exact hc (heq ▸ headOr_mem (heq ▸ hnull))
  have hother : ∀ a ∈ cs, a ≠ c := fun a ha heq => hc (heq ▸ ha)
  rw [hhead] at hnext hprev
  have hnew : IsList next' prev' null ([] ++ ([c] ++ cs)) := by
    refine hold.splice ⟨hlist, fun _ => ?_, ?_, ?_, trivial⟩ hnodup ?_ ?_
    · rw [hprev c (by simp), if_neg hself, if_pos rfl]
      rfl
    · rw [hnext c (by simp), if_pos rfl]
    · intro hne
      rw [hprev _ (by simp [headOr_mem hne]), if_pos rfl]
    · intro a ha hne
      obtain ha | ha := List.mem_cons.mp ha
      · exact absurd ha hne
      · rw [hnext a (List.mem_cons_of_mem c ha), if_neg (hother a ha)]
    · intro a ha hne
      rw [hprev a (List.mem_cons_of_mem c ha), if_neg hne, if_neg (hother a ha)]
  exact hnew

/-- Another node in place of the first one. -/
theorem IsList.replaceHead (h : IsList next prev null (r :: cs)) (hnull : c ≠ null) (hc : c ∉ cs)
    (hlist : next' null = c) (hnext : ∀ a ∈ c :: cs, next' a = if a = c then next r else next a)
    (hprev : ∀ a ∈ c :: cs,
      prev' a = if a = next r then c else if a = c then null else prev a) :
    IsList next' prev' null (c :: cs) := by
  have hnode : next r = headOr null cs := by
    cases cs <;> exact h.linked.2.2.1
  have hempty : lastOr null ([] : List ι) = null := rfl
  have hold : IsList next prev null ([] ++ r :: cs) := h
  have hrest : IsList (fun a => if a = null then next r else next a)
      (fun a => if a = next r then null else prev a) null ([] ++ cs) :=
    hold.remove (fun a _ => by rw [hempty, hnode]) (fun a _ => by rw [hempty, hnode])
  have hne : ∀ a ∈ cs, a ≠ null := fun a ha heq =>
    (List.nodup_cons.mp hrest.nodup).1 (heq ▸ ha)
  refine hrest.pushFront hnull hc hlist ?_ ?_
  · intro a ha
    rw [hnext a ha, if_pos rfl]
    obtain rfl | ha := List.mem_cons.mp ha
    · rw [if_pos rfl, if_pos rfl]
    · rw [if_neg (hne a ha)]
  · intro a ha
    rw [hprev a ha, if_pos rfl]
    by_cases heq : a = next r
    · rw [if_pos heq, if_pos heq]
    · rw [if_neg heq, if_neg heq, if_neg heq]

end Edits

/-- The list pointer is the first node. -/
theorem IsList.head_eq {cs : List ι} (h : IsList next prev null cs) :
    next null = headOr null cs := by
  cases cs with
  | nil => exact h.linked.1
  | cons c cs => exact h.linked.1

/-- The links of one node of a list. -/
theorem IsList.node {pre post : List ι} {c : ι} (h : IsList next prev null (pre ++ c :: post)) :
    c ≠ null ∧ prev c = lastOr null pre ∧ next c = headOr null post := by
  have hc : c ≠ null := fun heq => (List.nodup_cons.mp h.nodup).1 (by simp [heq])
  obtain ⟨xs, hxs⟩ := exists_before null pre
  obtain ⟨ys, hys, _, _⟩ := exists_after null post
  have hsplit : null :: (pre ++ c :: post ++ [null]) =
      xs ++ lastOr null pre :: c :: headOr null post :: ys := by
    calc null :: (pre ++ c :: post ++ [null])
        = (null :: pre) ++ c :: (post ++ [null]) := by simp
      _ = _ := by rw [hxs, hys, List.append_assoc, List.singleton_append]
  have hlinked := h.linked
  rw [hsplit, linked_append] at hlinked
  obtain ⟨_, _, hprev, hnext, _⟩ := hlinked
  exact ⟨hc, hprev hc, hnext⟩

/-! ## Walks -/

/-- The walk along the links from a node: `cs`, and then `null`. -/
inductive Walk (next : ι → ι) (null : ι) : ι → List ι → Prop where
  | nil : Walk next null null []
  | cons {c : ι} {cs : List ι} (hc : c ≠ null) (h : Walk next null (next c) cs) :
      Walk next null c (c :: cs)

/-- A list is a walk. -/
theorem Linked.walk {before : ι} {cs : List ι}
    (h : Linked next prev null (before :: (cs ++ [null]))) (hcs : null ∉ cs)
    (hnext : ∀ c ∈ cs, next' c = next c) : Walk next' null (next before) cs := by
  induction cs generalizing before with
  | nil =>
      rw [show next before = null from h.1]
      exact Walk.nil
  | cons c cs ih =>
      obtain ⟨hc, _, hrest⟩ := h
      simp only [List.mem_cons, not_or] at hcs
      rw [hc]
      refine Walk.cons (Ne.symm hcs.1) ?_
      rw [hnext c (by simp)]
      exact ih hrest hcs.2 fun a ha => hnext a (List.mem_cons_of_mem c ha)

/-- `b` is met on the walk along the links from `a`. -/
inductive Reach (next : ι → ι) (null : ι) : ι → ι → Prop where
  | here {a : ι} (ha : a ≠ null) : Reach next null a a
  | step {a b : ι} (ha : a ≠ null) (h : Reach next null (next a) b) : Reach next null a b

/-- A step of a walk whose end is known. -/
theorem Reach.of_next {a b c : ι} (ha : a ≠ null) (hab : next a = b) (h : Reach next null b c) :
    Reach next null a c :=
  Reach.step ha (hab ▸ h)

/-- A walk of one node meets that node only. -/
theorem Reach.eq_of_last {a b : ι} (ha : next a = null) (h : Reach next null a b) : b = a := by
  cases h with
  | here _ => rfl
  | step _ h =>
      rw [ha] at h
      cases h with
      | here hnull => exact absurd rfl hnull
      | step hnull _ => exact absurd rfl hnull

/-- The nodes met from inside a walk are those that follow. -/
theorem Linked.reach_iff {before b : ι} {cs : List ι}
    (h : Linked next prev null (before :: (cs ++ [null]))) (hcs : null ∉ cs)
    (hnext : ∀ c ∈ cs, next' c = next c) : Reach next' null (next before) b ↔ b ∈ cs := by
  induction cs generalizing before with
  | nil =>
      have hnull : next before = null := h.1
      refine ⟨fun hreach => ?_, by simp⟩
      cases hreach with
      | here ha => exact absurd hnull ha
      | step ha _ => exact absurd hnull ha
  | cons c cs ih =>
      obtain ⟨hc, _, hrest⟩ := h
      simp only [List.mem_cons, not_or] at hcs
      have hih := ih hrest hcs.2 fun a ha => hnext a (List.mem_cons_of_mem c ha)
      rw [hc, List.mem_cons, ← hih, ← hnext c (by simp)]
      constructor
      · intro hreach
        cases hreach with
        | here _ => exact Or.inl rfl
        | step _ hreach => exact Or.inr hreach
      · intro h'
        rcases h' with rfl | hreach
        · exact Reach.here (Ne.symm hcs.1)
        · exact Reach.step (Ne.symm hcs.1) hreach

/-- The nodes met from the list pointer on are the list. -/
theorem IsList.reach_iff {cs : List ι} {b : ι} (h : IsList next prev null cs)
    (hnext : ∀ c ∈ cs, next' c = next c) : Reach next' null (next null) b ↔ b ∈ cs :=
  h.linked.reach_iff (List.nodup_cons.mp h.nodup).1 hnext

/-- The nodes met from a node of the list on are that node and those behind it. -/
theorem IsList.reach_from_iff {pre post : List ι} {c b : ι}
    (h : IsList next prev null (pre ++ c :: post))
    (hnext : ∀ a ∈ pre ++ c :: post, next' a = next a) :
    Reach next' null c b ↔ b ∈ c :: post := by
  have hc := h.node.1
  have hnull : null ∉ post := fun hmem => (List.nodup_cons.mp h.nodup).1 (by simp [hmem])
  have hlinked : Linked next prev null ((null :: pre) ++ c :: (post ++ [null])) := by
    simpa using h.linked
  have hrest := ((linked_append (null :: pre)).mp hlinked).2.reach_iff (b := b) hnull fun a ha =>
    hnext a (by simp [ha])
  rw [List.mem_cons, ← hrest, ← hnext c (by simp)]
  constructor
  · intro hreach
    cases hreach with
    | here _ => exact Or.inl rfl
    | step _ hreach => exact Or.inr hreach
  · intro h'
    rcases h' with rfl | hreach
    · exact Reach.here hc
    · exact Reach.step hc hreach

/-- A node is met if the links before it are as they were. -/
theorem Linked.reach_prefix {before c : ι} {pre post : List ι}
    (h : Linked next prev null (before :: (pre ++ c :: post))) (hpre : null ∉ pre)
    (hc : c ≠ null) (hnext : ∀ a ∈ pre, next' a = next a) :
    Reach next' null (next before) c := by
  induction pre generalizing before with
  | nil =>
      rw [show next before = c from h.1]
      exact Reach.here hc
  | cons a pre ih =>
      obtain ⟨ha, _, hrest⟩ := h
      simp only [List.mem_cons, not_or] at hpre
      rw [ha]
      refine Reach.step (Ne.symm hpre.1) ?_
      rw [hnext a (by simp)]
      exact ih hrest hpre.2 fun d hd => hnext d (List.mem_cons_of_mem a hd)

theorem IsList.reach_prefix {pre post : List ι} {c : ι}
    (h : IsList next prev null (pre ++ c :: post)) (hnext : ∀ a ∈ pre, next' a = next a) :
    Reach next' null (next null) c := by
  have hlinked : Linked next prev null (null :: (pre ++ c :: (post ++ [null]))) := by
    simpa using h.linked
  have hnull := (List.nodup_cons.mp h.nodup).1
  exact hlinked.reach_prefix (fun hmem => hnull (List.mem_append_left _ hmem)) h.node.1 hnext

/-! ## Searching -/

section Find

variable [DecidableEq ι]

/-- Follow the links from `cur` to the first node that satisfies `stop`, or to `null`. A walk
longer than `fuel` nodes has no result. -/
def find (next : ι → ι) (null : ι) (stop : ι → Bool) : Nat → ι → Option ι
  | 0, _ => none
  | fuel + 1, cur =>
      if cur = null then some null
      else if stop cur then some cur else find next null stop fuel (next cur)

/-- A search that starts inside a walk. -/
theorem Linked.find_eq {stop : ι → Bool} {fuel : Nat} {before : ι} {cs : List ι}
    (h : Linked next prev null (before :: (cs ++ [null]))) (hcs : null ∉ cs)
    (hnext : ∀ c ∈ cs, next' c = next c) (hfuel : cs.length < fuel) :
    find next' null stop fuel (next before) = some ((cs.find? stop).getD null) := by
  induction cs generalizing before fuel with
  | nil =>
      obtain ⟨fuel, rfl⟩ : ∃ n, fuel = n + 1 := ⟨fuel - 1, by simp at hfuel; omega⟩
      simp [find, h.1]
  | cons c cs ih =>
      obtain ⟨fuel, rfl⟩ : ∃ n, fuel = n + 1 := ⟨fuel - 1, by simp at hfuel; omega⟩
      obtain ⟨hc, _, hrest⟩ := h
      simp only [List.mem_cons, not_or] at hcs
      rw [find, hc, if_neg (Ne.symm hcs.1)]
      cases hstop : stop c with
      | true => simp [hstop]
      | false =>
          rw [hnext c (by simp), List.find?_cons_of_neg (by simp [hstop])]
          simpa using ih hrest hcs.2 (fun a ha => hnext a (by simp [ha])) (by simp at hfuel; omega)

/-- A search of a whole list. -/
theorem IsList.find_eq {stop : ι → Bool} {fuel : Nat} {cs : List ι}
    (h : IsList next prev null cs) (hnext : ∀ c ∈ cs, next' c = next c)
    (hfuel : cs.length < fuel) :
    find next' null stop fuel (next null) = some ((cs.find? stop).getD null) :=
  h.linked.find_eq (List.nodup_cons.mp h.nodup).1 hnext hfuel

/-- What a search of a list finds. -/
theorem IsList.find_cases {stop : ι → Bool} {fuel : Nat} {cs : List ι}
    (h : IsList next prev null cs) (hnext : ∀ c ∈ cs, next' c = next c)
    (hfuel : cs.length < fuel) :
    (find next' null stop fuel (next null) = some null ∧ ∀ c ∈ cs, stop c = false) ∨
    ∃ pre c post, cs = pre ++ c :: post ∧ (∀ d ∈ pre, stop d = false) ∧ stop c = true ∧
      find next' null stop fuel (next null) = some c := by
  rw [h.find_eq hnext hfuel]
  cases hfind : cs.find? stop with
  | none => exact Or.inl ⟨rfl, fun c hc => by simpa using List.find?_eq_none.mp hfind c hc⟩
  | some c =>
      obtain ⟨hstop, pre, post, hcs, hbefore⟩ := List.find?_eq_some_iff_append.mp hfind
      exact Or.inr ⟨pre, c, post, hcs, fun d hd => by simpa using hbefore d hd, hstop, rfl⟩

end Find

end DoublyLinked
