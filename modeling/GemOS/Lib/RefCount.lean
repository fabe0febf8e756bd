import Mathlib.Algebra.BigOperators.Group.Finset.Piecewise
import Mathlib.Data.Finset.Prod

/-!
# Counting references

Holders from a finite set refer to objects, or to nothing; `held` counts the holders of an object.
The rules say what a change of one holder, or holders that come and refer to nothing, do to the
counts of all objects at once.
-/

namespace RefCount

variable {Holder Object : Type*} [DecidableEq Object]

/-- How many holders refer to an object. -/
def held (S : Finset Holder) (ref : Holder → Option Object) (o : Object) : Nat :=
  (S.filter fun i => ref i = some o).card

variable {S S' : Finset Holder} {ref ref' : Holder → Option Object} {i j : Holder} {o : Object}

theorem held_congr (h : ∀ i ∈ S, ref' i = ref i) : held S ref' o = held S ref o := by
  rw [held, held, Finset.filter_congr fun i hi => by rw [h i hi]]

/-- Holders may refer to nothing in place of an object. -/
theorem held_mono (h : ∀ i ∈ S, ref' i = some o → ref i = some o) :
    held S ref' o ≤ held S ref o :=
  Finset.card_le_card fun i hi => by
    rw [Finset.mem_filter] at hi ⊢
    exact ⟨hi.1, h i hi.1 hi.2⟩

/-- One holder refers to something else. -/
theorem held_update [DecidableEq Holder] (hi : i ∈ S) (h : ∀ j ∈ S, j ≠ i → ref' j = ref j)
    (o : Object) : held S ref' o + (if ref i = some o then 1 else 0) =
      held S ref o + (if ref' i = some o then 1 else 0) := by
  have hrest : ((S.erase i).sum fun j => if ref' j = some o then 1 else 0) =
      (S.erase i).sum fun j => if ref j = some o then 1 else 0 :=
    Finset.sum_congr rfl fun j hj => by
      rw [h j (Finset.mem_of_mem_erase hj) (Finset.ne_of_mem_erase hj)]
  rw [held, held, Finset.card_filter, Finset.card_filter, ← Finset.add_sum_erase S _ hi,
    ← Finset.add_sum_erase S _ hi, hrest]
  omega

/-- More holders that refer to nothing. -/
theorem held_extend (hsub : S ⊆ S') (h : ∀ i ∈ S', i ∉ S → ref i = none) :
    held S' ref o = held S ref o := by
  rw [held, held]
  congr 1
  ext i
  rw [Finset.mem_filter, Finset.mem_filter]
  refine ⟨fun ⟨hi, href⟩ => ⟨?_, href⟩, fun ⟨hi, href⟩ => ⟨hsub hi, href⟩⟩
  by_contra hnot
  rw [h i hi hnot] at href
  cases href

theorem held_pos (hi : i ∈ S) (href : ref i = some o) : held S ref o ≠ 0 :=
  Finset.card_ne_zero_of_mem (Finset.mem_filter.mpr ⟨hi, href⟩)

theorem held_eq_zero (h : ∀ i ∈ S, ref i ≠ some o) : held S ref o = 0 :=
  Finset.card_eq_zero.mpr (Finset.filter_eq_empty_iff.mpr fun i hi => h i hi)

/-- An object with a count has a holder. -/
theorem exists_of_held (h : held S ref o ≠ 0) : ∃ i ∈ S, ref i = some o := by
  obtain ⟨i, hi⟩ := Finset.card_ne_zero.mp h
  exact ⟨i, Finset.mem_filter.mp hi⟩

/-- The only holder of an object. -/
theorem unique_of_held_le_one (h : held S ref o ≤ 1) (hi : i ∈ S) (hj : j ∈ S)
    (hri : ref i = some o) (hrj : ref j = some o) : i = j :=
  Finset.card_le_one.mp h i (Finset.mem_filter.mpr ⟨hi, hri⟩) j (Finset.mem_filter.mpr ⟨hj, hrj⟩)

end RefCount
