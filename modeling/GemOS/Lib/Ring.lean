import Mathlib.Algebra.GroupWithZero.Nat
import Mathlib.Data.List.Basic
import Mathlib.Data.List.TakeDrop
import Mathlib.Logic.Function.Basic

/-!
# Circular arrays and bounded FIFO queues

A circular array of `cap` cells holds a queue as the `n` cells met when going round from a
start index. `contents_push` and `contents_pop` say what a write behind the last cell and a
step of the start index do to that queue. The second half is the abstract queue a ring
implements: a list that never grows beyond `cap`, with partial writes and partial reads.
-/

namespace Ring

variable {α : Type*} {cap : Nat} [NeZero cap]

/-- The `n` cells met when going round from index `start`. -/
def contents (cells : Fin cap → α) (start n : Nat) : List α :=
  (List.range n).map fun i => cells (Fin.ofNat cap (start + i))

@[simp] theorem length_contents (cells : Fin cap → α) (start n : Nat) :
    (contents cells start n).length = n := by
  simp [contents]

@[simp] theorem contents_zero (cells : Fin cap → α) (start : Nat) :
    contents cells start 0 = [] := rfl

/-- One more cell at the far end. -/
theorem contents_succ (cells : Fin cap → α) (start n : Nat) :
    contents cells start (n + 1) =
      contents cells start n ++ [cells (Fin.ofNat cap (start + n))] := by
  simp [contents, List.range_succ]

/-- Indices count modulo the capacity. -/
theorem ofNat_congr {a b : Nat} (h : a % cap = b % cap) : Fin.ofNat cap a = Fin.ofNat cap b := by
  apply Fin.ext
  simpa [Fin.ofNat] using h

/-- Going round `m` cells and then `n` more. -/
theorem contents_add (cells : Fin cap → α) (start m n : Nat) :
    contents cells start (m + n) =
      contents cells start m ++ contents cells ((start + m) % cap) n := by
  simp only [contents, List.range_add, List.map_append, List.map_map]
  congr 1
  apply List.map_congr_left
  intro i _
  show cells (Fin.ofNat cap (start + (m + i))) = cells (Fin.ofNat cap ((start + m) % cap + i))
  congr 1
  apply ofNat_congr
  rw [Nat.mod_add_mod, Nat.add_assoc]

/-- Taking the first cell off moves the start one step round. -/
theorem contents_pop (cells : Fin cap → α) (start n : Nat) :
    contents cells start (n + 1) =
      cells (Fin.ofNat cap start) :: contents cells ((start + 1) % cap) n := by
  rw [Nat.add_comm n 1, contents_add, contents_succ]
  rfl

/-- Two offsets less than a whole turn apart are different cells. -/
theorem ofNat_add_ne {start i n : Nat} (hi : i < n) (hn : n < cap) :
    Fin.ofNat cap (start + i) ≠ Fin.ofNat cap (start + n) := by
  intro h
  have hmod : (start + i) % cap = (start + n) % cap := by simpa [Fin.ofNat] using congrArg Fin.val h
  have hdvd : cap ∣ (start + n) - (start + i) :=
    Nat.dvd_of_mod_eq_zero (Nat.sub_mod_eq_zero_of_mod_eq hmod.symm)
  have hle := Nat.le_of_dvd (by omega) hdvd
  omega

/-- Writing the cell behind the last one appends the value. -/
theorem contents_push (cells : Fin cap → α) (start n : Nat) (value : α) (hn : n < cap) :
    contents (Function.update cells (Fin.ofNat cap (start + n)) value) start (n + 1) =
      contents cells start n ++ [value] := by
  rw [contents_succ, Function.update_self]
  congr 1
  apply List.map_congr_left
  intro i hi
  exact Function.update_of_ne (ofNat_add_ne (List.mem_range.mp hi) hn) _ _

end Ring

/-! ## The abstract queue -/

namespace Fifo

variable {α : Type*}

/-- The part of `values` a queue with room for `cap` elements accepts. -/
def accepted (cap : Nat) (queue values : List α) : List α :=
  values.take (cap - queue.length)

/-- Values that fit are accepted whole. -/
theorem accepted_eq_self {cap : Nat} {queue values : List α}
    (h : queue.length + values.length ≤ cap) : accepted cap queue values = values :=
  List.take_of_length_le (by omega)

/-- Offering values in two parts is offering them at once. -/
theorem accepted_append (cap : Nat) (queue values values' : List α) :
    accepted cap queue (values ++ values') =
      accepted cap queue values ++
        accepted cap (queue ++ accepted cap queue values) values' := by
  simp only [accepted, List.take_append, List.length_append, List.length_take]
  congr 2
  omega

/-- Values are accepted whole or not at all exactly if they fit or no room is left. -/
theorem accepted_whole_iff {cap : Nat} {queue values : List α} (hcap : queue.length ≤ cap)
    (hvalues : values ≠ []) :
    accepted cap queue values = [] ∨ accepted cap queue values = values ↔
      queue.length = cap ∨ queue.length + values.length ≤ cap := by
  rw [accepted, List.take_eq_nil_iff, List.take_eq_self_iff, or_iff_left hvalues]
  omega

/-- An operation on a bounded queue: offer elements, or ask for some number of them. -/
inductive Op (α : Type*) where
  | push (values : List α)
  | pop (count : Nat)

/-- What an operation answers: the elements accepted, or the elements delivered. -/
inductive Answer (α : Type*) where
  | pushed (values : List α)
  | popped (values : List α)
  deriving DecidableEq

/-- One operation on a queue of capacity `cap`. -/
def step (cap : Nat) (queue : List α) : Op α → List α × Answer α
  | .push values => (queue ++ accepted cap queue values, .pushed (accepted cap queue values))
  | .pop count => (queue.drop count, .popped (queue.take count))

/-- A run of operations: the final queue and the answers in order. -/
def run (cap : Nat) : List α → List (Op α) → List α × List (Answer α)
  | queue, [] => (queue, [])
  | queue, op :: ops =>
      let first := step cap queue op
      let rest := run cap first.1 ops
      (rest.1, first.2 :: rest.2)

/-- All elements accepted in a run, in order. -/
def totalPushed : List (Answer α) → List α
  | [] => []
  | .pushed values :: rest => values ++ totalPushed rest
  | .popped _ :: rest => totalPushed rest

/-- All elements delivered in a run, in order. -/
def totalPopped : List (Answer α) → List α
  | [] => []
  | .pushed _ :: rest => totalPopped rest
  | .popped values :: rest => values ++ totalPopped rest

/-- Nothing is lost, duplicated or reordered: what was delivered and what is still queued is
what was queued at the start and accepted since. -/
theorem run_conserves (cap : Nat) (queue : List α) (ops : List (Op α)) :
    totalPopped (run cap queue ops).2 ++ (run cap queue ops).1 =
      queue ++ totalPushed (run cap queue ops).2 := by
  induction ops generalizing queue with
  | nil => simp [run, totalPopped, totalPushed]
  | cons op ops ih =>
      cases op with
      | push values =>
          simp only [run, step, totalPopped, totalPushed]
          rw [ih, List.append_assoc]
      | pop count =>
          simp only [run, step, totalPopped, totalPushed]
          rw [List.append_assoc, ih, ← List.append_assoc, List.take_append_drop]

end Fifo
