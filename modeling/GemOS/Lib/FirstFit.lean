import Mathlib.Algebra.Order.Monoid.Defs
import Mathlib.Order.Bounds.Basic
import Mathlib.Tactic.SplitIfs

/-!
# First fit

Spans `[lo, hi)` in increasing order occupy part of a line that ends at `top`. A search that
only tries the ends of spans finds the least place for `n` units, or there is none
(`firstFit_spec`). The places may be restricted to a grid that the ends of all spans lie on.
-/

namespace FirstFit

variable {α : Type*} [LinearOrder α]

/-- Spans that are not empty, in increasing order from `lo` on, with their ends on the grid. -/
def Sorted (grid : Set α) : α → List (α × α) → Prop
  | lo, [] => lo ∈ grid
  | lo, span :: spans => lo ∈ grid ∧ lo ≤ span.1 ∧ span.1 < span.2 ∧ Sorted grid span.2 spans

/-- No span reaches into `[a, e)`. -/
def Free (spans : List (α × α)) (a e : α) : Prop :=
  ∀ span ∈ spans, ∀ x, span.1 ≤ x → x < span.2 → ¬ (a ≤ x ∧ x < e)

variable {grid : Set α} {lo : α} {span : α × α} {spans : List (α × α)}

/-- All spans start at `lo` or behind it. -/
theorem Sorted.le_start (h : Sorted grid lo spans) : ∀ s ∈ spans, lo ≤ s.1 := by
  induction spans generalizing lo with
  | nil => exact fun s hs => absurd hs List.not_mem_nil
  | cons span spans ih =>
      obtain ⟨_, hlo, hspan, hrest⟩ := h
      intro s hs
      rcases List.mem_cons.mp hs with rfl | hs
      · exact hlo
      · exact le_trans (le_trans hlo hspan.le) (ih hrest s hs)

/-- Before the first span everything is free. -/
theorem Sorted.free_before {e : α} (h : Sorted grid lo spans) (hle : e ≤ lo) (a : α) :
    Free spans a e :=
  fun s hs _ hstart _ hin => absurd hin.2 (not_lt.mpr (hle.trans ((h.le_start s hs).trans hstart)))

theorem free_cons {a e : α} : Free (span :: spans) a e ↔
    (∀ x, span.1 ≤ x → x < span.2 → ¬ (a ≤ x ∧ x < e)) ∧ Free spans a e :=
  List.forall_mem_cons

/-! ## The search -/

variable [AddCommMonoid α] {top n : α}

/-- The places on the grid, from `lo` on and up to `top`, where `n` units are free. -/
def places (grid : Set α) (top n lo : α) (spans : List (α × α)) : Set α :=
  {a | a ∈ grid ∧ lo ≤ a ∧ a + n ≤ top ∧ Free spans a (a + n)}

/-- The first of `lo` and the ends of the spans behind which `n` units are free. -/
def firstFit (top n : α) : α → List (α × α) → Option α
  | lo, [] => if lo + n ≤ top then some lo else none
  | lo, span :: spans => if lo + n ≤ span.1 then some lo else firstFit top n span.2 spans

variable [IsOrderedCancelAddMonoid α]

/-- A place that does not fit before a span lies behind it. -/
theorem places_cons (hlo : lo ≤ span.1) (hspan : span.1 < span.2) (hn : 0 < n)
    (hfull : ¬ lo + n ≤ span.1) :
    places grid top n lo (span :: spans) = places grid top n span.2 spans := by
  ext a
  constructor
  · intro h
    obtain ⟨hgrid, hle, htop, hfree⟩ := h
    obtain ⟨hout, hfree⟩ := free_cons.mp hfree
    refine ⟨hgrid, ?_, htop, hfree⟩
    by_contra hbefore
    rw [not_le] at hbefore
    rcases lt_or_ge a span.1 with hlt | hge
    · have hreach : span.1 < a + n := (not_le.mp hfull).trans_le (add_le_add_left hle n)
      exact hout span.1 le_rfl hspan ⟨hlt.le, hreach⟩
    · exact hout a hge hbefore ⟨le_rfl, lt_add_of_pos_right a hn⟩
  · intro h
    obtain ⟨hgrid, hle, htop, hfree⟩ := h
    refine ⟨hgrid, hlo.trans (hspan.le.trans hle), htop, free_cons.mpr ⟨?_, hfree⟩⟩
    intro x _ hx hin
    exact absurd hin.1 (not_le.mpr (hx.trans_le hle))

/-- The search finds the least place, or there is none. -/
theorem firstFit_spec (h : Sorted grid lo spans) (hn : 0 < n)
    (htop : ∀ s ∈ spans, s.2 ≤ top) :
    (∃ a, firstFit top n lo spans = some a ∧ IsLeast (places grid top n lo spans) a) ∨
      (firstFit top n lo spans = none ∧ places grid top n lo spans = ∅) := by
  induction spans generalizing lo with
  | nil =>
      rw [firstFit]
      split_ifs with hfits
      · exact Or.inl ⟨lo, rfl, ⟨h, le_rfl, hfits, fun s hs => absurd hs List.not_mem_nil⟩,
          fun a ha => ha.2.1⟩
      · refine Or.inr ⟨rfl, Set.eq_empty_of_forall_notMem ?_⟩
        rintro a ⟨_, hle, hend, _⟩
        exact hfits ((add_le_add_left hle n).trans hend)
  | cons span spans ih =>
      obtain ⟨hgrid, hlo, hspan, hrest⟩ := id h
      rw [firstFit]
      split_ifs with hfits
      · have hend : lo + n ≤ top :=
          hfits.trans (hspan.le.trans (htop span List.mem_cons_self))
        refine Or.inl ⟨lo, rfl, ⟨hgrid, le_rfl, hend, ?_⟩, fun a ha => ha.2.1⟩
        refine free_cons.mpr ⟨fun x hx _ hin => absurd hin.2 (not_lt.mpr (hfits.trans hx)), ?_⟩
        exact hrest.free_before (hfits.trans hspan.le) lo
      · rw [places_cons hlo hspan hn hfits]
        exact ih hrest fun s hs => htop s (List.mem_cons_of_mem span hs)

end FirstFit
