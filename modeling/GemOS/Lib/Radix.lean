import Mathlib.Data.List.Induction

/-!
# Tables that refer to tables

A table has an entry for each index, and an entry may refer to a further table: `next` tells to
which. A path of indices leads from a root table to a table, `follow`. The frames that hold the
tables may be shared or even form cycles; `Separated` says that they do not for the paths of some
scope, so that those paths form trees. Then a write to an entry is seen only through the path that
leads to it, and a fresh table can be installed without a change of the paths that were there.
-/

namespace Radix

variable {Frame Index Entry : Type*}

/-- The table that a path leads to from table `f`. -/
def follow (next : Entry → Option Frame) (t : Frame → Index → Entry) :
    Frame → List Index → Option Frame
  | f, [] => some f
  | f, i :: path => (next (t f i)).bind fun g => follow next t g path

/-- Replace one entry. -/
def setEntry [DecidableEq Frame] [DecidableEq Index] (t : Frame → Index → Entry) (f : Frame)
    (i : Index) (e : Entry) : Frame → Index → Entry :=
  fun g j => if g = f ∧ j = i then e else t g j

/-- The tables that the paths of the scope lead to are pairwise different. -/
def Separated (next : Entry → Option Frame) (scope : Frame → List Index → Prop)
    (t : Frame → Index → Entry) : Prop :=
  ∀ r p r' p' f, scope r p → scope r' p' →
    follow next t r p = some f → follow next t r' p' = some f → r = r' ∧ p = p'

/-- With a path, its first part is in the scope. -/
def PrefixClosed (scope : Frame → List Index → Prop) : Prop :=
  ∀ r p q, scope r q → p <+: q → scope r p

variable {next : Entry → Option Frame} {t t' : Frame → Index → Entry}
variable {r r' f g : Frame} {i : Index} {p q : List Index}
variable {scope : Frame → List Index → Prop}

@[simp] theorem setEntry_same [DecidableEq Frame] [DecidableEq Index] {e : Entry} :
    setEntry t f i e f i = e := by
  simp [setEntry]

theorem setEntry_other [DecidableEq Frame] [DecidableEq Index] {e : Entry} {j : Index}
    (h : ¬ (g = f ∧ j = i)) : setEntry t f i e g j = t g j :=
  if_neg h

/-! ## Paths -/

/-- A path after a path. -/
theorem follow_append : follow next t r (p ++ q) =
    (follow next t r p).bind fun g => follow next t g q := by
  induction p generalizing r with
  | nil => rfl
  | cons j p ih => simp only [List.cons_append, follow, Option.bind_assoc, ih]

/-- The last step of a path. -/
theorem follow_snoc : follow next t r (p ++ [i]) =
    (follow next t r p).bind fun g => next (t g i) := by
  simp [follow_append, follow]

/-- A path only depends on what the entries along it refer to. -/
theorem follow_congr {path : List Index}
    (h : ∀ p j g, p ++ [j] <+: path → follow next t r p = some g → next (t' g j) = next (t g j)) :
    follow next t' r path = follow next t r path := by
  induction path using List.reverseRecOn with
  | nil => rfl
  | append_singleton p i ih =>
      have hp : follow next t' r p = follow next t r p :=
        ih fun q j g hq hg => h q j g (hq.trans (List.prefix_append p [i])) hg
      rw [follow_snoc, follow_snoc, hp]
      cases hg : follow next t r p with
      | none => rfl
      | some g => exact h p i g (List.prefix_refl _) hg

/-- If no entry refers to anything new, neither does a path. -/
theorem follow_of_shrinks (h : ∀ g j f, next (t' g j) = some f → next (t g j) = some f)
    (hf : follow next t' r p = some f) : follow next t r p = some f := by
  induction p generalizing r with
  | nil => exact hf
  | cons i p ih =>
      obtain ⟨g, hg, hf⟩ := Option.bind_eq_some_iff.mp hf
      exact Option.bind_eq_some_iff.mpr ⟨g, h _ _ _ hg, ih hf⟩

/-! ## Separated tables -/

theorem Separated.of_shrinks (hsep : Separated next scope t)
    (h : ∀ g j f, next (t' g j) = some f → next (t g j) = some f) : Separated next scope t' :=
  fun r p r' p' f hp hp' hf hf' =>
    hsep r p r' p' f hp hp' (follow_of_shrinks h hf) (follow_of_shrinks h hf')

/-- The same paths lead to the same tables. -/
theorem Separated.congr (hsep : Separated next scope t)
    (h : ∀ r p, scope r p → follow next t' r p = follow next t r p) : Separated next scope t' :=
  fun r p r' p' f hp hp' hf hf' =>
    hsep r p r' p' f hp hp' (h r p hp ▸ hf) (h r' p' hp' ▸ hf')

/-- A change of one entry is seen only by the paths that use it. -/
theorem Separated.follow_other (hsep : Separated next scope t) (hclosed : PrefixClosed scope)
    (hagree : ∀ g j, ¬ (g = f ∧ j = i) → next (t' g j) = next (t g j))
    (hq : scope r q) (hf : follow next t r q = some f)
    (hp : scope r' p) (hnot : ¬ (r' = r ∧ q ++ [i] <+: p)) :
    follow next t' r' p = follow next t r' p := by
  refine follow_congr fun p₁ j g hprefix hg => hagree g j ?_
  intro h'
  obtain ⟨rfl, rfl⟩ := h'
  have hp₁ : scope r' p₁ := hclosed r' p₁ p hp ((List.prefix_append p₁ [j]).trans hprefix)
  obtain ⟨rfl, rfl⟩ := hsep _ _ _ _ _ hp₁ hq hg hf
  exact hnot ⟨rfl, hprefix⟩

/-- A change of tables that one root leads to is not seen by the paths from another one. -/
theorem Separated.follow_other_root (hsep : Separated next scope t) (hclosed : PrefixClosed scope)
    (hchange : ∀ g j, next (t' g j) ≠ next (t g j) → ∃ q, scope r q ∧ follow next t r q = some g)
    (hp : scope r' p) (hne : r' ≠ r) : follow next t' r' p = follow next t r' p := by
  refine follow_congr fun p₁ j g hprefix hg => ?_
  by_contra hdiffers
  obtain ⟨q, hq, hg'⟩ := hchange g j hdiffers
  have hp₁ : scope r' p₁ := hclosed r' p₁ p hp ((List.prefix_append p₁ [j]).trans hprefix)
  exact hne (hsep _ _ _ _ _ hp₁ hq hg hg').1

/-- An empty table `g` that no path led to has been put into entry `i` of the table at the end of
`q`, which referred to nothing; nothing else has changed. -/
structure Installed (next : Entry → Option Frame) (scope : Frame → List Index → Prop)
    (t t' : Frame → Index → Entry) (r : Frame) (q : List Index) (i : Index) (g : Frame) : Prop where
  fresh : ∀ r p, scope r p → follow next t r p ≠ some g
  empty : ∀ j, next (t' g j) = none
  entry : ∃ f, follow next t r q = some f ∧ next (t f i) = none ∧ next (t' f i) = some g
  others : ∀ h j, h ≠ g → ¬ (follow next t r q = some h ∧ j = i) → next (t' h j) = next (t h j)

/-- Paths that do not use the entry lead where they led. -/
theorem Installed.follow_avoiding (h : Installed next scope t t' r q i g)
    (hsep : Separated next scope t) (hclosed : PrefixClosed scope) (hq : scope r q)
    (hp : scope r' p) (hnot : ¬ (r' = r ∧ q ++ [i] <+: p)) :
    follow next t' r' p = follow next t r' p := by
  refine follow_congr fun p₁ j h₁ hprefix hh₁ => ?_
  have hp₁ : scope r' p₁ := hclosed _ _ _ hp ((List.prefix_append p₁ [j]).trans hprefix)
  refine h.others h₁ j (fun heq => h.fresh r' p₁ hp₁ (heq ▸ hh₁)) ?_
  intro h'
  obtain ⟨hh, rfl⟩ := h'
  obtain ⟨rfl, rfl⟩ := hsep _ _ _ _ _ hp₁ hq hh₁ hh
  exact hnot ⟨rfl, hprefix⟩

/-- The path to the new table. -/
theorem Installed.follow_new (h : Installed next scope t t' r q i g)
    (hsep : Separated next scope t) (hclosed : PrefixClosed scope) (hq : scope r q) :
    follow next t' r (q ++ [i]) = some g := by
  obtain ⟨f, hf, _, hsome⟩ := h.entry
  have hshort : ¬ (r = r ∧ q ++ [i] <+: q) := by
    intro hprefix
    have hlength := hprefix.2.length_le
    rw [List.length_append, List.length_singleton] at hlength
    omega
  rw [follow_snoc, h.follow_avoiding hsep hclosed hq hq hshort, hf]
  exact hsome

/-- Paths other than the one to the new table lead where they led. -/
theorem Installed.follow_other (h : Installed next scope t t' r q i g)
    (hsep : Separated next scope t) (hclosed : PrefixClosed scope) (hq : scope r q)
    (hp : scope r' p) (hne : ¬ (r' = r ∧ p = q ++ [i])) :
    follow next t' r' p = follow next t r' p := by
  by_cases huses : r' = r ∧ q ++ [i] <+: p
  · -- beyond the entry there was nothing, and the new table is empty
    obtain ⟨rfl, rest, rfl⟩ := huses
    obtain ⟨f, hf, hnone, _⟩ := h.entry
    cases rest with
    | nil => exact absurd ⟨rfl, List.append_nil _⟩ hne
    | cons j rest =>
        rw [follow_append (p := q ++ [i]), follow_append (p := q ++ [i]),
          h.follow_new hsep hclosed hq, follow_snoc, hf]
        simp only [Option.bind_some, Option.bind_none, hnone, follow, h.empty]
  · exact h.follow_avoiding hsep hclosed hq hp huses

theorem Installed.separated (h : Installed next scope t t' r q i g)
    (hsep : Separated next scope t) (hclosed : PrefixClosed scope) (hq : scope r q) :
    Separated next scope t' := by
  have hnew := h.follow_new hsep hclosed hq
  -- a path to the new table is the path to the entry
  have honly : ∀ r' p f, scope r' p → follow next t' r' p = some f →
      (f = g ∧ r' = r ∧ p = q ++ [i]) ∨ f ≠ g ∧ follow next t r' p = some f := by
    intro r' p f hp hf
    by_cases heq : r' = r ∧ p = q ++ [i]
    · obtain ⟨rfl, rfl⟩ := heq
      rw [hnew] at hf
      exact Or.inl ⟨(Option.some.inj hf).symm, rfl, rfl⟩
    · rw [h.follow_other hsep hclosed hq hp heq] at hf
      exact Or.inr ⟨fun hfg => h.fresh r' p hp (hfg ▸ hf), hf⟩
  intro r₁ p₁ r₂ p₂ f hp₁ hp₂ hf₁ hf₂
  rcases honly r₁ p₁ f hp₁ hf₁ with ⟨hfg, rfl, rfl⟩ | ⟨hfg, hf₁⟩ <;>
    rcases honly r₂ p₂ f hp₂ hf₂ with ⟨hfg', rfl, rfl⟩ | ⟨hfg', hf₂⟩
  · exact ⟨rfl, rfl⟩
  · exact absurd hfg hfg'
  · exact absurd hfg' hfg
  · exact hsep _ _ _ _ _ hp₁ hp₂ hf₁ hf₂

end Radix
