import Mathlib.Data.List.Nodup
import Mathlib.Data.List.Perm.Subperm
import Mathlib.Data.List.TakeWhile
import Mathlib.Logic.Function.Basic

/-!
# Singly linked lists in a heap

List cells carry a payload and a link; a null link is `none`. Reading, writing or freeing an
object that is not allocated is an error (`none`), so a successful operation never touches
freed memory. `Seg h l xs m` says that following links from `l` meets exactly the cells `xs` and
then the link `m`; a complete list is a segment that ends in `none`. Read `search_seg` first: a
list search stops at the first matching cell and remembers the cell before it.
-/

namespace LinkedList

variable {β : Type*}

/-- A list cell: its payload and its link. -/
structure Cell (β : Type*) where
  data : β
  next : Option Nat

/-- Allocated objects by address. No address from `top` on has ever been handed out. -/
structure Heap (α : Type*) where
  cell : Nat → Option α
  top : Nat
  unused : ∀ p, top ≤ p → cell p = none

namespace Heap

variable {α : Type*}

/-- A heap with no object. -/
def empty : Heap α := ⟨fun _ => none, 0, fun _ _ => rfl⟩

/-- Allocate an object at an address never used before. -/
def alloc (h : Heap α) (a : α) : Nat × Heap α :=
  (h.top,
    { cell := Function.update h.cell h.top (some a)
      top := h.top + 1
      unused := fun p hp => by
        rw [Function.update_of_ne (by omega)]
        exact h.unused p (by omega) })

/-- An allocated object lies below `top`. -/
theorem lt_top {h : Heap α} {p : Nat} (hp : (h.cell p).isSome) : p < h.top := by
  by_contra hlt
  simp [h.unused p (by omega)] at hp

/-- Overwrite an allocated object. -/
def store (h : Heap α) (p : Nat) (a : α) : Option (Heap α) :=
  if hp : (h.cell p).isSome then
    some
      { cell := Function.update h.cell p (some a)
        top := h.top
        unused := fun q hq => by
          rw [Function.update_of_ne (by have := lt_top hp; omega)]
          exact h.unused q hq }
  else none

/-- Give an allocated object back. -/
def free (h : Heap α) (p : Nat) : Option (Heap α) :=
  if (h.cell p).isSome then
    some
      { cell := Function.update h.cell p none
        top := h.top
        unused := fun q hq => by
          by_cases hqp : q = p
          · simp [hqp]
          · rw [Function.update_of_ne hqp]
            exact h.unused q hq }
  else none

@[simp] theorem alloc_cell_self (h : Heap α) (a : α) :
    (h.alloc a).2.cell (h.alloc a).1 = some a := by
  simp [alloc]

theorem alloc_cell_other {h : Heap α} {a : α} {q : Nat} (hq : (h.cell q).isSome) :
    (h.alloc a).2.cell q = h.cell q := by
  have := lt_top hq
  simp [alloc, Function.update_of_ne (show q ≠ h.top by omega)]

/-- The address handed out was not allocated. -/
theorem alloc_fresh (h : Heap α) (a : α) : h.cell (h.alloc a).1 = none :=
  h.unused _ (Nat.le_refl _)

/-- Storing to an allocated object succeeds and changes that object only. -/
theorem store_eq {h : Heap α} {p : Nat} {old : α} (a : α) (hp : h.cell p = some old) :
    ∃ h', h.store p a = some h' ∧ h'.cell p = some a ∧ h'.top = h.top ∧
      ∀ q, q ≠ p → h'.cell q = h.cell q := by
  refine ⟨_, dif_pos (by simp [hp]), by simp, rfl, ?_⟩
  intro q hq
  simp [Function.update_of_ne hq]

/-- Freeing an allocated object succeeds and removes that object only. -/
theorem free_eq {h : Heap α} {p : Nat} {old : α} (hp : h.cell p = some old) :
    ∃ h', h.free p = some h' ∧ h'.top = h.top ∧ ∀ q, q ≠ p → h'.cell q = h.cell q := by
  refine ⟨_, if_pos (by simp [hp]), rfl, ?_⟩
  intro q hq
  simp [Function.update_of_ne hq]

end Heap

/-! ## Segments -/

/-- Following links from `first` meets the cells `xs` and then the link `last`. -/
def Seg (h : Heap (Cell β)) (first : Option Nat) : List (Nat × β) → Option Nat → Prop
  | [], last => first = last
  | (p, b) :: rest, last =>
      first = some p ∧ ∃ next, h.cell p = some ⟨b, next⟩ ∧ Seg h next rest last

/-- A segment depends on its own cells only. -/
theorem Seg.congr {h h' : Heap (Cell β)} {xs : List (Nat × β)} {first last : Option Nat}
    (hseg : Seg h first xs last) (hcells : ∀ x ∈ xs, h'.cell x.1 = h.cell x.1) :
    Seg h' first xs last := by
  induction xs generalizing first with
  | nil => exact hseg
  | cons x xs ih =>
      obtain ⟨hfirst, next, hcell, hrest⟩ := hseg
      exact ⟨hfirst, next, (hcells x (by simp)).trans hcell,
        ih hrest (fun y hy => hcells y (by simp [hy]))⟩

/-- Segments compose end to end. -/
theorem seg_append {h : Heap (Cell β)} {xs ys : List (Nat × β)} {first last : Option Nat} :
    Seg h first (xs ++ ys) last ↔ ∃ middle, Seg h first xs middle ∧ Seg h middle ys last := by
  induction xs generalizing first with
  | nil => simp [Seg]
  | cons x xs ih =>
      constructor
      · intro h'
        obtain ⟨hfirst, next, hcell, hrest⟩ := h'
        obtain ⟨middle, hxs, hys⟩ := ih.mp hrest
        exact ⟨middle, ⟨hfirst, next, hcell, hxs⟩, hys⟩
      · intro h'
        obtain ⟨middle, ⟨hfirst, next, hcell, hxs⟩, hys⟩ := h'
        exact ⟨hfirst, next, hcell, ih.mpr ⟨middle, hxs, hys⟩⟩

/-- Every cell of a segment is allocated with its payload. -/
theorem Seg.cell_of_mem {h : Heap (Cell β)} {xs : List (Nat × β)} {first last : Option Nat}
    (hseg : Seg h first xs last) {x : Nat × β} (hx : x ∈ xs) :
    ∃ next, h.cell x.1 = some ⟨x.2, next⟩ := by
  induction xs generalizing first with
  | nil => simp at hx
  | cons y ys ih =>
      obtain ⟨_, next, hcell, hrest⟩ := hseg
      rcases List.mem_cons.mp hx with rfl | hx
      · exact ⟨next, hcell⟩
      · exact ih hrest hx

/-- The address of the last cell, or `prev` when there is none. -/
def lastPtr (prev : Option Nat) : List (Nat × β) → Option Nat
  | [] => prev
  | x :: xs => lastPtr (some x.1) xs

@[simp] theorem lastPtr_concat (prev : Option Nat) (xs : List (Nat × β)) (x : Nat × β) :
    lastPtr prev (xs ++ [x]) = some x.1 := by
  induction xs generalizing prev with
  | nil => rfl
  | cons y ys ih => exact ih _

/-- With a cell behind it, a cell does not matter for the end of the list. -/
theorem lastPtr_remove {prev : Option Nat} {pre post : List (Nat × β)} {x : Nat × β}
    (hpost : post ≠ []) : lastPtr prev (pre ++ x :: post) = lastPtr prev (pre ++ post) := by
  induction pre generalizing prev with
  | nil =>
      cases post with
      | nil => exact absurd rfl hpost
      | cons y post => rfl
  | cons y pre ih => exact ih

/-- The payloads of the cells do not matter for the end of the list. -/
theorem lastPtr_set_data {prev : Option Nat} {pre post : List (Nat × β)} {p : Nat} {b b' : β} :
    lastPtr prev (pre ++ (p, b') :: post) = lastPtr prev (pre ++ (p, b) :: post) := by
  induction pre generalizing prev with
  | nil => rfl
  | cons y pre ih => exact ih

/-- The last cell's link can be redirected. -/
theorem Seg.redirect {h h' : Heap (Cell β)} {xs : List (Nat × β)} {q : Nat} {b : β}
    {first last last' : Option Nat} (hseg : Seg h first (xs ++ [(q, b)]) last)
    (hq : h'.cell q = some ⟨b, last'⟩) (hxs : ∀ x ∈ xs, h'.cell x.1 = h.cell x.1) :
    Seg h' first (xs ++ [(q, b)]) last' := by
  obtain ⟨middle, hpre, hlast⟩ := seg_append.mp hseg
  exact seg_append.mpr ⟨middle, hpre.congr hxs, hlast.1, last', hq, rfl⟩

/-! ## Adding and removing a cell -/

/-- Entries of a list with distinct keys have different keys. -/
theorem ne_of_nodup {γ δ : Type*} {key : γ → δ} {pre post : List γ} {x : γ}
    (hnodup : ((pre ++ x :: post).map key).Nodup) :
    (∀ y ∈ pre, key y ≠ key x) ∧ ∀ y ∈ post, key y ≠ key x := by
  rw [List.map_append, List.map_cons, List.nodup_middle, List.nodup_cons, List.mem_append,
    not_or] at hnodup
  exact ⟨fun y hy heq => hnodup.1.1 (heq ▸ List.mem_map_of_mem hy),
    fun y hy heq => hnodup.1.2 (heq ▸ List.mem_map_of_mem hy)⟩

/-- A new cell has none of the addresses of a list. -/
theorem Seg.alloc_ne {h : Heap (Cell β)} {xs : List (Nat × β)} {first last : Option Nat}
    (hseg : Seg h first xs last) (c : Cell β) : ∀ x ∈ xs, x.1 ≠ (h.alloc c).1 := by
  intro x hx heq
  obtain ⟨next, hcell⟩ := hseg.cell_of_mem hx
  simp [heq, Heap.alloc_fresh] at hcell

/-- Allocating a cell does not touch a list. -/
theorem Seg.alloc {h : Heap (Cell β)} {xs : List (Nat × β)} {first last : Option Nat}
    (hseg : Seg h first xs last) (c : Cell β) : Seg (h.alloc c).2 first xs last := by
  refine hseg.congr fun x hx => ?_
  obtain ⟨next, hcell⟩ := hseg.cell_of_mem hx
  exact Heap.alloc_cell_other (by simp [hcell])

/-- Allocate a cell and let the last cell point to it. -/
theorem Seg.push_back {h : Heap (Cell β)} {xs : List (Nat × β)} {q : Nat} {c : β}
    {first : Option Nat} (hseg : Seg h first (xs ++ [(q, c)]) none)
    (hnodup : ((xs ++ [(q, c)]).map Prod.fst).Nodup) (b : β) :
    (h.alloc ⟨b, none⟩).2.cell q = some ⟨c, none⟩ ∧
    ∃ h', (h.alloc ⟨b, none⟩).2.store q ⟨c, some (h.alloc ⟨b, none⟩).1⟩ = some h' ∧
      Seg h' first (xs ++ [(q, c)] ++ [((h.alloc ⟨b, none⟩).1, b)]) none := by
  have hseg' := hseg.alloc ⟨b, none⟩
  obtain ⟨_, _, _, next, hq, hnext⟩ := seg_append.mp hseg'
  obtain rfl : next = none := hnext
  obtain ⟨h', hstore, hself, _, hother⟩ := Heap.store_eq ⟨c, some (h.alloc ⟨b, none⟩).1⟩ hq
  refine ⟨hq, h', hstore, seg_append.mpr ⟨some (h.alloc ⟨b, none⟩).1, ?_, rfl, none, ?_, rfl⟩⟩
  · exact hseg'.redirect hself fun x hx => hother x.1 ((ne_of_nodup hnodup).1 x hx)
  · rw [hother _ (hseg.alloc_ne ⟨b, none⟩ (q, c) (by simp)).symm, Heap.alloc_cell_self]

/-- Removing the first cell: the list starts at its link. -/
theorem Seg.unlink_first {h : Heap (Cell β)} {p : Nat} {b : β} {post : List (Nat × β)}
    {first : Option Nat} (hseg : Seg h first ((p, b) :: post) none)
    (hnodup : (((p, b) :: post).map Prod.fst).Nodup) :
    ∃ next h', h.cell p = some ⟨b, next⟩ ∧ (next = none ↔ post = []) ∧ h.free p = some h' ∧
      Seg h' next post none := by
  obtain ⟨_, next, hcell, hrest⟩ := hseg
  obtain ⟨h', hfree, _, hother⟩ := Heap.free_eq hcell
  have hne := (ne_of_nodup (by simpa using hnodup :
    (([] ++ (p, b) :: post).map Prod.fst).Nodup)).2
  refine ⟨next, h', hcell, ?_, hfree, hrest.congr fun x hx => hother x.1 (hne x hx)⟩
  cases post with
  | nil => simpa [Seg] using hrest
  | cons y post => simp [hrest.1]

/-- Removing a later cell: the cell before it takes over its link. -/
theorem Seg.unlink_after {h : Heap (Cell β)} {q p : Nat} {c b : β} {pre post : List (Nat × β)}
    {first : Option Nat} (hseg : Seg h first (pre ++ (q, c) :: (p, b) :: post) none)
    (hnodup : ((pre ++ (q, c) :: (p, b) :: post).map Prod.fst).Nodup) :
    ∃ next h₁ h', h.cell p = some ⟨b, next⟩ ∧ (next = none ↔ post = []) ∧
      h.cell q = some ⟨c, some p⟩ ∧ h.store q ⟨c, next⟩ = some h₁ ∧ h₁.free p = some h' ∧
      Seg h' first (pre ++ (q, c) :: post) none := by
  obtain ⟨middle, hpre, hmiddle, link, hq, hlink, next, hp, hpost⟩ := seg_append.mp hseg
  obtain rfl : link = some p := hlink
  have hq_ne := ne_of_nodup hnodup
  have hp_ne := ne_of_nodup (show (((pre ++ [(q, c)]) ++ (p, b) :: post).map Prod.fst).Nodup by
    simpa using hnodup)
  obtain ⟨h₁, hstore, hself, _, hother₁⟩ := Heap.store_eq ⟨c, next⟩ hq
  have hqp : p ≠ q := hq_ne.2 (p, b) (by simp)
  obtain ⟨h', hfree, _, hother⟩ := Heap.free_eq ((hother₁ p hqp).trans hp)
  refine ⟨next, h₁, h', hp, ?_, hq, hstore, hfree,
    seg_append.mpr ⟨middle, ?_, hmiddle, next, ?_, ?_⟩⟩
  · cases post with
    | nil => simpa [Seg] using hpost
    | cons y post => simp [hpost.1]
  · refine hpre.congr fun x hx => ?_
    rw [hother x.1 (hp_ne.1 x (by simp [hx])), hother₁ x.1 (hq_ne.1 x hx)]
  · rw [hother q hqp.symm, hself]
  · refine hpost.congr fun x hx => ?_
    rw [hother x.1 (hp_ne.2 x hx), hother₁ x.1 (hq_ne.2 x (by simp [hx]))]

/-- Overwriting the payload of one cell. -/
theorem Seg.set_data {h : Heap (Cell β)} {p : Nat} {b : β} {pre post : List (Nat × β)}
    {first last : Option Nat} (hseg : Seg h first (pre ++ (p, b) :: post) last)
    (hnodup : ((pre ++ (p, b) :: post).map Prod.fst).Nodup) (b' : β) :
    ∃ next h', h.cell p = some ⟨b, next⟩ ∧ h.store p ⟨b', next⟩ = some h' ∧
      Seg h' first (pre ++ (p, b') :: post) last := by
  obtain ⟨middle, hpre, hmiddle, next, hp, hpost⟩ := seg_append.mp hseg
  obtain ⟨h', hstore, hself, _, hother⟩ := Heap.store_eq ⟨b', next⟩ hp
  have hne := ne_of_nodup hnodup
  exact ⟨next, h', hp, hstore, seg_append.mpr ⟨middle,
    hpre.congr fun x hx => hother x.1 (hne.1 x hx), hmiddle, next, hself,
    hpost.congr fun x hx => hother x.1 (hne.2 x hx)⟩⟩

/-! ## Searching -/

/-- Walk from `cur` to the first cell whose payload satisfies `stop`, remembering the cell
before it. The result is the pair of these two pointers, with `cur = none` when no cell
matches. A walk longer than `fuel` cells, or one that meets a cell that is not allocated, has
no result. -/
def search (h : Heap (Cell β)) (stop : β → Bool) :
    Nat → Option Nat → Option Nat → Option (Option Nat × Option Nat)
  | 0, _, _ => none
  | _ + 1, prev, none => some (prev, none)
  | fuel + 1, prev, some p =>
      match h.cell p with
      | none => none
      | some c => if stop c.data then some (prev, some p) else search h stop fuel (some p) c.next

/-- On a complete list the search ends at the first match. -/
theorem search_seg {h : Heap (Cell β)} {xs : List (Nat × β)} (stop : β → Bool) {fuel : Nat}
    (prev : Option Nat) {first : Option Nat} (hseg : Seg h first xs none)
    (hfuel : xs.length < fuel) :
    search h stop fuel prev first =
      some (lastPtr prev (xs.takeWhile fun x => !stop x.2),
        (xs.dropWhile fun x => !stop x.2).head?.map Prod.fst) := by
  induction xs generalizing fuel prev first with
  | nil =>
      cases hseg
      obtain ⟨fuel, rfl⟩ : ∃ k, fuel = k + 1 := ⟨fuel - 1, by simp at hfuel; omega⟩
      rfl
  | cons x xs ih =>
      obtain ⟨p, b⟩ := x
      obtain ⟨rfl, next, hcell, hrest⟩ := hseg
      obtain ⟨fuel, rfl⟩ : ∃ k, fuel = k + 1 := ⟨fuel - 1, by simp at hfuel; omega⟩
      have hlen : xs.length < fuel := by simp at hfuel; omega
      cases hstop : stop b with
      | true => simp [search, hcell, hstop, lastPtr]
      | false => simp [search, hcell, hstop, lastPtr, ih (some p) hrest hlen]

/-- What a search of a complete list finds: nothing, or the first matching cell. -/
theorem search_cases {h : Heap (Cell β)} {xs : List (Nat × β)} (stop : β → Bool) {fuel : Nat}
    (prev : Option Nat) {first : Option Nat} (hseg : Seg h first xs none)
    (hfuel : xs.length < fuel) :
    (search h stop fuel prev first = some (lastPtr prev xs, none) ∧
      ∀ x ∈ xs, stop x.2 = false) ∨
    ∃ pre p b post, xs = pre ++ (p, b) :: post ∧ stop b = true ∧
      search h stop fuel prev first = some (lastPtr prev pre, some p) := by
  have hsearch := search_seg stop prev hseg hfuel
  have hsplit := List.takeWhile_append_dropWhile (p := fun x : Nat × β => !stop x.2) (l := xs)
  cases hdrop : xs.dropWhile fun x => !stop x.2 with
  | nil =>
      rw [hdrop, List.append_nil] at hsplit
      refine Or.inl ⟨by rw [hsearch, hdrop, hsplit]; rfl, ?_⟩
      intro x hx
      simpa using List.dropWhile_eq_nil_iff.mp hdrop x hx
  | cons x post =>
      rw [hdrop] at hsplit
      refine Or.inr ⟨_, x.1, x.2, post, hsplit.symm, ?_, by rw [hsearch, hdrop]; rfl⟩
      have hhead := List.head?_dropWhile_not (fun x : Nat × β => !stop x.2) xs
      simpa [hdrop] using hhead

/-- Distinct cells of one heap fit below `top`, so `top + 1` steps are enough for any list. -/
theorem Seg.length_le {h : Heap (Cell β)} {xs : List (Nat × β)} {first last : Option Nat}
    (hseg : Seg h first xs last) (hnodup : (xs.map Prod.fst).Nodup) : xs.length ≤ h.top := by
  have hsub : xs.map Prod.fst ⊆ List.range h.top := by
    intro p hp
    obtain ⟨x, hx, rfl⟩ := List.mem_map.mp hp
    obtain ⟨next, hcell⟩ := hseg.cell_of_mem hx
    exact List.mem_range.mpr (Heap.lt_top (by simp [hcell]))
  have hle := (List.subperm_of_subset hnodup hsub).length_le
  simpa using hle

/-! ## Lists with a head -/

/-- A head with a pointer to the first cell, one to the last cell and a count stands for the
cells `xs`, no two of which have the same key. -/
structure ListOk {κ : Type*} (key : β → κ) (h : Heap (Cell β)) (next last : Option Nat)
    (count : Int) (xs : List (Nat × β)) : Prop where
  seg : Seg h next xs none
  nodup : (xs.map Prod.fst).Nodup
  keys : (xs.map fun x => key x.2).Nodup
  last : last = lastPtr none xs
  count : count = xs.length

namespace ListOk

variable {κ : Type*} {key : β → κ} {h h' : Heap (Cell β)} {next next' last last' : Option Nat}
  {count count' : Int} {xs pre post : List (Nat × β)}

/-- A head without cells. -/
theorem nil (key : β → κ) (h : Heap (Cell β)) : ListOk key h none none 0 [] :=
  ⟨rfl, List.nodup_nil, List.nodup_nil, rfl, rfl⟩

/-- A search of the list finds nothing, or splits it at the key. -/
theorem find (hok : ListOk key h next last count xs) {stop : β → Bool} {k : κ}
    (hstop : ∀ b, stop b = true ↔ key b = k) :
    (search h stop (h.top + 1) none next = some (lastPtr none xs, none) ∧
      k ∉ xs.map fun x => key x.2) ∨
    ∃ pre p b post, xs = pre ++ (p, b) :: post ∧ key b = k ∧
      search h stop (h.top + 1) none next = some (lastPtr none pre, some p) := by
  rcases search_cases stop none hok.seg (Nat.lt_succ_of_le (hok.seg.length_le hok.nodup)) with
    ⟨hsearch, hnone⟩ | ⟨pre, p, b, post, hxs, hb, hsearch⟩
  · refine Or.inl ⟨hsearch, fun hmem => ?_⟩
    obtain ⟨x, hx, hkey⟩ := List.mem_map.mp hmem
    exact Bool.false_ne_true ((hnone x hx).symm.trans ((hstop x.2).mpr hkey))
  · exact Or.inr ⟨pre, p, b, post, hxs, (hstop b).mp hb, hsearch⟩

/-- One cell more at the end. -/
theorem concat (hok : ListOk key h next last count xs) {p : Nat} {b : β}
    (hseg : Seg h' next' (xs ++ [(p, b)]) none) (hp : ∀ x ∈ xs, x.1 ≠ p)
    (hb : key b ∉ xs.map fun x => key x.2) :
    ListOk key h' next' (some p) (count + 1) (xs ++ [(p, b)]) where
  seg := hseg
  nodup := by
    have hnew : p ∉ xs.map Prod.fst := fun hmem => by
      obtain ⟨x, hx, heq⟩ := List.mem_map.mp hmem
      exact hp x hx heq
    rw [List.map_append]
    exact List.nodup_append_comm.mp (List.nodup_cons.mpr ⟨hnew, hok.nodup⟩)
  keys := by
    rw [List.map_append]
    exact List.nodup_append_comm.mp (List.nodup_cons.mpr ⟨hb, hok.keys⟩)
  last := by rw [lastPtr_concat]
  count := by simp [hok.count]

/-- One cell less. -/
theorem erase {x : Nat × β} (hok : ListOk key h next last count (pre ++ x :: post))
    (hseg : Seg h' next' (pre ++ post) none)
    (hlast : last' = if post = [] then lastPtr none pre else last) (hcount : count' = count - 1) :
    ListOk key h' next' last' count' (pre ++ post) where
  seg := hseg
  nodup := hok.nodup.sublist (((List.sublist_cons_self x post).append_left pre).map _)
  keys := hok.keys.sublist (((List.sublist_cons_self x post).append_left pre).map _)
  last := by
    by_cases hpost : post = []
    · simp [hlast, hpost]
    · rw [hlast, if_neg hpost, hok.last, lastPtr_remove hpost]
  count := by
    rw [hcount, hok.count]
    simp only [List.length_append, List.length_cons]
    omega

/-- A cell with another payload of the same key. -/
theorem set_data {p : Nat} {b b' : β} (hok : ListOk key h next last count (pre ++ (p, b) :: post))
    (hseg : Seg h' next (pre ++ (p, b') :: post) none) (hkey : key b' = key b) :
    ListOk key h' next last count (pre ++ (p, b') :: post) where
  seg := hseg
  nodup := by simpa using hok.nodup
  keys := by simpa [hkey] using hok.keys
  last := by rw [hok.last, lastPtr_set_data]
  count := by simpa using hok.count

end ListOk

end LinkedList
