import Mathlib.Data.Set.Basic

/-!
# Copy on write

Holders refer to objects, which have contents; several holders may refer to one object. Nobody
notices that objects are shared as long as a holder that may write refers to an object that no
other holder refers to, `Exclusive`. The two rules: a holder can move to an object of its own, and
a holder that may write can change its object.
-/

namespace CopyOnWrite

variable {Holder Object Content : Type*}

/-- Who refers to what, the contents of the objects, and which holders may write. -/
structure Store (Holder Object Content : Type*) where
  ref : Holder → Option Object
  mem : Object → Content
  writable : Holder → Prop

variable {σ σ' : Store Holder Object Content} {S : Set Holder} {i j : Holder} {n o : Object}
variable {c : Content}

/-- What a holder sees. -/
def Store.view (σ : Store Holder Object Content) (i : Holder) : Option Content :=
  (σ.ref i).map σ.mem

/-- A holder that may write has its object to itself. -/
def Store.Exclusive (σ : Store Holder Object Content) (S : Set Holder) : Prop :=
  ∀ i ∈ S, ∀ j ∈ S, ∀ o, σ.writable i → σ.ref i = some o → σ.ref j = some o → i = j

theorem view_of_ref (h : σ.ref i = some o) : σ.view i = some (σ.mem o) := by
  rw [Store.view, h, Option.map_some]

/-- A holder refers to the same object, which has not changed. -/
theorem view_congr (href : σ'.ref i = σ.ref i)
    (hmem : ∀ o, σ.ref i = some o → σ'.mem o = σ.mem o) : σ'.view i = σ.view i := by
  rw [Store.view, Store.view, href]
  cases h : σ.ref i with
  | none => rfl
  | some o => exact congrArg some (hmem o h)

/-- A holder has moved to an object that nobody referred to, which has got some contents. -/
structure Moved (S : Set Holder) (σ σ' : Store Holder Object Content) (i : Holder) (n : Object)
    (c : Content) : Prop where
  fresh : ∀ j ∈ S, σ.ref j ≠ some n
  ref : σ'.ref i = some n
  ref_other : ∀ j ∈ S, j ≠ i → σ'.ref j = σ.ref j
  mem : σ'.mem n = c
  mem_other : ∀ o, o ≠ n → σ'.mem o = σ.mem o
  writable : ∀ j ∈ S, j ≠ i → σ'.writable j → σ.writable j

theorem Moved.mono (h : Moved S σ σ' i n c) {T : Set Holder} (hT : T ⊆ S) : Moved T σ σ' i n c :=
  ⟨fun j hj => h.fresh j (hT hj), h.ref, fun j hj => h.ref_other j (hT hj), h.mem, h.mem_other,
    fun j hj => h.writable j (hT hj)⟩

theorem Moved.view (h : Moved S σ σ' i n c) : σ'.view i = some c := by
  rw [view_of_ref h.ref, h.mem]

theorem Moved.view_other (h : Moved S σ σ' i n c) (hj : j ∈ S) (hne : j ≠ i) :
    σ'.view j = σ.view j :=
  view_congr (h.ref_other j hj hne) fun o ho => h.mem_other o fun heq => h.fresh j hj (heq ▸ ho)

theorem Moved.exclusive (h : Moved S σ σ' i n c) (hσ : σ.Exclusive S) : σ'.Exclusive S := by
  -- a holder that has not moved refers to another object than the one that has
  have hother : ∀ k ∈ S, k ≠ i → ∀ o, σ'.ref k = some o → o ≠ n := fun k hk hne o ho heq =>
    h.fresh k hk (by rw [← h.ref_other k hk hne, ho, heq])
  intro j hj k hk o hw hjo hko
  by_cases hji : j = i <;> by_cases hki : k = i
  · rw [hji, hki]
  · rw [hji, h.ref] at hjo
    exact absurd (Option.some.inj hjo).symm (hother k hk hki o hko)
  · rw [hki, h.ref] at hko
    exact absurd (Option.some.inj hko).symm (hother j hj hji o hjo)
  · rw [h.ref_other j hj hji] at hjo
    rw [h.ref_other k hk hki] at hko
    exact hσ j hj k hk o (h.writable j hj hji hw) hjo hko

/-- A holder that may write has changed the contents of its object. -/
structure Written (S : Set Holder) (σ σ' : Store Holder Object Content) (i : Holder) (o : Object)
    (c : Content) : Prop where
  may : σ.writable i
  old : σ.ref i = some o
  ref : ∀ j ∈ S, σ'.ref j = σ.ref j
  mem : σ'.mem o = c
  mem_other : ∀ o', o' ≠ o → σ'.mem o' = σ.mem o'
  writable : ∀ j ∈ S, σ'.writable j → σ.writable j

theorem Written.view (h : Written S σ σ' i o c) (hi : i ∈ S) : σ'.view i = some c := by
  rw [view_of_ref ((h.ref i hi).trans h.old), h.mem]

theorem Written.view_other (h : Written S σ σ' i o c) (hσ : σ.Exclusive S) (hi : i ∈ S)
    (hj : j ∈ S) (hne : j ≠ i) : σ'.view j = σ.view j :=
  view_congr (h.ref j hj) fun o' ho' => h.mem_other o' fun heq =>
    hne (hσ i hi j hj o h.may h.old (heq ▸ ho')).symm

theorem Written.exclusive (h : Written S σ σ' i o c) (hσ : σ.Exclusive S) : σ'.Exclusive S :=
  fun j hj k hk o hw hjo hko =>
    hσ j hj k hk o (h.writable j hj hw) (h.ref j hj ▸ hjo) (h.ref k hk ▸ hko)

end CopyOnWrite
