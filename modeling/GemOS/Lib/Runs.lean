import Mathlib.Init

/-!
# Runs of a step function

A step function takes a state and an operation and may fail. `run` is a sequence of operations
one after the other, and `AllSteps P` says that every operation of a run meets a condition on
the state it starts from. The rule is `run_invariant`: if every step that meets the condition
succeeds and keeps an invariant, so does every run whose steps all meet it. If steps may fail as
well, `run_keeps` says what holds after a run that has succeeded, `run_simulates` that it is a path
of a more abstract relation, and `run_matched` that another system has a run with the same labels,
which may be longer or shorter. If steps answer something, `answers_refine` compares the answers
with those of an abstract system. With a measure that every step makes smaller, runs are bounded
and some run ends where no step is left.
-/

namespace Runs

variable {State Op : Type*} (step : State → Op → Option State)

/-- Operations one after the other. -/
def run : State → List Op → Option State
  | s, [] => some s
  | s, op :: ops => (step s op).bind fun s' => run s' ops

/-- Every operation of the run meets the condition in the state it starts from. -/
def AllSteps (P : State → Op → Prop) : State → List Op → Prop
  | _, [] => True
  | s, op :: ops => P s op ∧ ∀ s', step s op = some s' → AllSteps P s' ops

variable {step}

instance AllSteps.decidable {P : State → Op → Prop} [∀ s op, Decidable (P s op)] :
    ∀ s ops, Decidable (AllSteps step P s ops)
  | _, [] => isTrue trivial
  | s, op :: ops =>
      match hstep : step s op with
      | none => decidable_of_iff (P s op)
          ⟨fun hop => ⟨hop, fun _ hs' => absurd (hstep.symm.trans hs') nofun⟩, And.left⟩
      | some s₁ =>
          have : Decidable (AllSteps step P s₁ ops) := AllSteps.decidable s₁ ops
          decidable_of_iff (P s op ∧ AllSteps step P s₁ ops)
            ⟨fun h => ⟨h.1, fun _ hs' => Option.some.inj (hstep.symm.trans hs') ▸ h.2⟩,
              fun h => ⟨h.1, h.2 s₁ hstep⟩⟩

/-- A weaker condition is met as well. -/
theorem AllSteps.mono {P Q : State → Op → Prop} {s : State} {ops : List Op}
    (h : AllSteps step P s ops) (himp : ∀ s op, P s op → Q s op) : AllSteps step Q s ops := by
  induction ops generalizing s with
  | nil => trivial
  | cons op ops ih => exact ⟨himp _ _ h.1, fun s' hs' => ih (h.2 s' hs')⟩

/-- A condition on the operations alone. -/
theorem AllSteps.of_forall {P : Op → Prop} {s : State} {ops : List Op} (h : ∀ op ∈ ops, P op) :
    AllSteps step (fun _ => P) s ops := by
  induction ops generalizing s with
  | nil => trivial
  | cons op ops ih =>
      obtain ⟨hop, hops⟩ := List.forall_mem_cons.mp h
      exact ⟨hop, fun _ _ => ih hops⟩

/-- Two conditions are met together. -/
theorem AllSteps.and {P Q : State → Op → Prop} {s : State} {ops : List Op}
    (h : AllSteps step P s ops) (h' : AllSteps step Q s ops) :
    AllSteps step (fun s op => P s op ∧ Q s op) s ops := by
  induction ops generalizing s with
  | nil => trivial
  | cons op ops ih => exact ⟨⟨h.1, h'.1⟩, fun s' hs' => ih (h.2 s' hs') (h'.2 s' hs')⟩

/-- One step known to succeed, and the rest of the run. -/
theorem AllSteps.cons {P : State → Op → Prop} {s s₁ : State} {op : Op} {ops : List Op}
    (hstep : step s op = some s₁) (hop : P s op) (hops : AllSteps step P s₁ ops) :
    AllSteps step P s (op :: ops) :=
  ⟨hop, fun _ hs' => Option.some.inj (hstep.symm.trans hs') ▸ hops⟩

/-- The first part of a run. -/
theorem AllSteps.left {P : State → Op → Prop} {s : State} {ops ops' : List Op}
    (h : AllSteps step P s (ops ++ ops')) : AllSteps step P s ops := by
  induction ops generalizing s with
  | nil => trivial
  | cons op ops ih => exact ⟨h.1, fun s' hs' => ih (h.2 s' hs')⟩

/-- The second part of a run. -/
theorem AllSteps.right {P : State → Op → Prop} {s s₁ : State} {ops ops' : List Op}
    (h : AllSteps step P s (ops ++ ops')) (hrun : run step s ops = some s₁) :
    AllSteps step P s₁ ops' := by
  induction ops generalizing s with
  | nil =>
      obtain rfl := Option.some.inj hrun
      exact h
  | cons op ops ih =>
      obtain ⟨s₂, hs₂, hrest⟩ := Option.bind_eq_some_iff.mp hrun
      exact ih (h.2 s₂ hs₂) hrest

/-- Steps that succeed and keep an invariant make runs that succeed and keep it. -/
theorem run_invariant {P : State → Op → Prop} {Inv : State → Prop}
    (hstep : ∀ s op, Inv s → P s op → ∃ s', step s op = some s' ∧ Inv s') {s : State}
    {ops : List Op} (hs : Inv s) (hops : AllSteps step P s ops) :
    ∃ s', run step s ops = some s' ∧ Inv s' := by
  induction ops generalizing s with
  | nil => exact ⟨s, rfl, hs⟩
  | cons op ops ih =>
      obtain ⟨s₁, hs₁, hinv₁⟩ := hstep s op hs hops.1
      obtain ⟨s', hrun, hinv⟩ := ih hinv₁ (hops.2 s₁ hs₁)
      exact ⟨s', by rw [run, hs₁]; exact hrun, hinv⟩

/-- Steps that keep an invariant make runs that keep it. -/
theorem run_keeps {Inv : State → Prop}
    (hstep : ∀ s op s', Inv s → step s op = some s' → Inv s') {s s' : State} {ops : List Op}
    (hs : Inv s) (hrun : run step s ops = some s') : Inv s' := by
  induction ops generalizing s with
  | nil => exact Option.some.inj hrun ▸ hs
  | cons op ops ih =>
      obtain ⟨s₁, hs₁, hrest⟩ := Option.bind_eq_some_iff.mp hrun
      exact ih (hstep s op s₁ hs hs₁) hrest

/-- Steps of a relation one after the other. -/
inductive Path {Abs : Type*} (Step : Abs → Op → Abs → Prop) : Abs → List Op → Abs → Prop
  | nil (x : Abs) : Path Step x [] x
  | cons {x y z : Abs} {op : Op} {ops : List Op} (hstep : Step x op y)
      (hrest : Path Step y ops z) : Path Step x (op :: ops) z

/-- If every step that meets a condition is a step of a relation between abstract states, and
keeps an invariant, then a run is a path of that relation. -/
theorem run_simulates {Abs : Type*} {Step : Abs → Op → Abs → Prop} {abs : State → Abs}
    {P : State → Op → Prop} {Inv : State → Prop}
    (hstep : ∀ s op s', Inv s → P s op → step s op = some s' →
      Inv s' ∧ Step (abs s) op (abs s')) {s s' : State} {ops : List Op} (hs : Inv s)
    (hops : AllSteps step P s ops) (hrun : run step s ops = some s') :
    Inv s' ∧ Path Step (abs s) ops (abs s') := by
  induction ops generalizing s with
  | nil =>
      obtain rfl := Option.some.inj hrun
      exact ⟨hs, .nil _⟩
  | cons op ops ih =>
      obtain ⟨s₁, hs₁, hrest⟩ := Option.bind_eq_some_iff.mp hrun
      obtain ⟨hinv, hone⟩ := hstep s op s₁ hs hops.1 hs₁
      obtain ⟨hinv', hpath⟩ := ih hinv (hops.2 s₁ hs₁) hrest
      exact ⟨hinv', .cons hone hpath⟩

/-- A run in two parts. -/
theorem run_append {s s₁ s' : State} {ops ops' : List Op} (hrun : run step s ops = some s₁)
    (hrun' : run step s₁ ops' = some s') : run step s (ops ++ ops') = some s' := by
  induction ops generalizing s with
  | nil =>
      obtain rfl := Option.some.inj hrun
      exact hrun'
  | cons op ops ih =>
      obtain ⟨s₂, hs₂, hrest⟩ := Option.bind_eq_some_iff.mp hrun
      rw [List.cons_append, run, hs₂]
      exact ih hrest

/-- If every step that meets a condition is matched by a run of another system, from related
states to related states and with the same labels, then so is every run. -/
theorem run_matched {State' Op' Label : Type*} {step' : State' → Op' → Option State'}
    {R : State → State' → Prop} {P : State → Op → Prop} {labels : Op → List Label}
    {labels' : Op' → List Label}
    (hstep : ∀ s t op s', R s t → P s op → step s op = some s' →
      ∃ ops' t', run step' t ops' = some t' ∧ ops'.flatMap labels' = labels op ∧ R s' t')
    {s s' : State} {t : State'} {ops : List Op} (hs : R s t) (hops : AllSteps step P s ops)
    (hrun : run step s ops = some s') :
    ∃ ops' t', run step' t ops' = some t' ∧ ops'.flatMap labels' = ops.flatMap labels ∧
      R s' t' := by
  induction ops generalizing s t with
  | nil =>
      obtain rfl := Option.some.inj hrun
      exact ⟨[], t, rfl, rfl, hs⟩
  | cons op ops ih =>
      obtain ⟨s₁, hs₁, hrest⟩ := Option.bind_eq_some_iff.mp hrun
      obtain ⟨ops₁, t₁, hrun₁, hlabels₁, h₁⟩ := hstep s t op s₁ hs hops.1 hs₁
      obtain ⟨ops', t', hrun', hlabels', h'⟩ := ih h₁ (hops.2 s₁ hs₁) hrest
      refine ⟨ops₁ ++ ops', t', run_append hrun₁ hrun', ?_, h'⟩
      rw [List.flatMap_append, hlabels₁, hlabels', List.flatMap_cons]

/-! ## Steps that answer -/

section Answers

variable {Abs Out : Type*}

/-- Steps one after the other, and what they answer. -/
def answers (step : State → Op → Option (Out × State)) :
    State → List Op → Option (List Out × State)
  | s, [] => some ([], s)
  | s, op :: ops =>
      (step s op).bind fun answer => (answers step answer.2 ops).map fun rest =>
        (answer.1 :: rest.1, rest.2)

/-- Every operation meets the condition in the state of a total step function it starts from. -/
def AllMeet (step : Abs → Op → Out × Abs) (P : Abs → Op → Prop) : Abs → List Op → Prop
  | _, [] => True
  | a, op :: ops => P a op ∧ AllMeet step P (step a op).2 ops

/-- What a total step function answers. -/
def answersOf (step : Abs → Op → Out × Abs) : Abs → List Op → List Out × Abs
  | a, [] => ([], a)
  | a, op :: ops =>
      let rest := answersOf step (step a op).2 ops
      ((step a op).1 :: rest.1, rest.2)

instance AllMeet.decidable {step : Abs → Op → Out × Abs} {P : Abs → Op → Prop}
    [∀ a op, Decidable (P a op)] : ∀ a ops, Decidable (AllMeet step P a ops)
  | _, [] => isTrue trivial
  | a, op :: ops =>
      have : Decidable (AllMeet step P (step a op).2 ops) := AllMeet.decidable _ ops
      inferInstanceAs (Decidable (P a op ∧ _))

/-- If each step answers as a step of an abstract system does, whenever that meets a condition,
and the states stay related, then so does each run. -/
theorem answers_refine {step : State → Op → Option (Out × State)}
    {absStep : Abs → Op → Out × Abs} {R : State → Abs → Prop} {P : Abs → Op → Prop}
    (hstep : ∀ s a op, R s a → P a op →
      ∃ s', step s op = some ((absStep a op).1, s') ∧ R s' (absStep a op).2)
    {s : State} {a : Abs} {ops : List Op} (hs : R s a) (hops : AllMeet absStep P a ops) :
    ∃ s', answers step s ops = some ((answersOf absStep a ops).1, s') ∧
      R s' (answersOf absStep a ops).2 := by
  induction ops generalizing s a with
  | nil => exact ⟨s, rfl, hs⟩
  | cons op ops ih =>
      obtain ⟨s₁, hs₁, hrel₁⟩ := hstep s a op hs hops.1
      obtain ⟨s', hrun, hrel⟩ := ih hrel₁ hops.2
      refine ⟨s', ?_, hrel⟩
      rw [answers, hs₁, Option.bind_some, hrun]
      rfl

end Answers

/-- Every step makes the measure of a state smaller, as long as an invariant holds. -/
structure Descends (step : State → Op → Option State) (Inv : State → Prop) (size : State → Nat) :
    Prop where
  keeps : ∀ s op s', Inv s → step s op = some s' → Inv s'
  smaller : ∀ s op s', Inv s → step s op = some s' → size s' < size s

variable {Inv : State → Prop} {size : State → Nat}

/-- A run has no more steps than the measure of the state it starts from. -/
theorem Descends.length_le (h : Descends step Inv size) {s s' : State} {ops : List Op}
    (hs : Inv s) (hrun : run step s ops = some s') : ops.length + size s' ≤ size s := by
  induction ops generalizing s with
  | nil =>
      obtain rfl : s = s' := Option.some.inj hrun
      exact Nat.le_of_eq (Nat.zero_add _)
  | cons op ops ih =>
      obtain ⟨s₁, hs₁, hrest⟩ := Option.bind_eq_some_iff.mp hrun
      have hrun := ih (h.keeps s op s₁ hs hs₁) hrest
      have hsmaller := h.smaller s op s₁ hs hs₁
      rw [List.length_cons]
      omega

/-- The runs from a state have no more than some number of steps. -/
def Bounded (step : State → Op → Option State) (s : State) : Prop :=
  ∃ n, ∀ ops s', run step s ops = some s' → ops.length ≤ n

theorem Descends.bounded (h : Descends step Inv size) {s : State} (hs : Inv s) : Bounded step s :=
  ⟨size s, fun _ _ hrun => Nat.le_trans (Nat.le_add_right _ _) (h.length_le hs hrun)⟩

/-- If runs are bounded, some run goes on until no step is left. -/
theorem Bounded.exists_end {s : State} (h : Bounded step s) :
    ∃ ops s', run step s ops = some s' ∧ ∀ op, step s' op = none := by
  obtain ⟨n, hn⟩ := h
  induction n generalizing s with
  | zero =>
      refine ⟨[], s, rfl, fun op => ?_⟩
      cases hop : step s op with
      | none => rfl
      | some s₁ => exact absurd (hn [op] s₁ (by rw [run, hop]; rfl)) (Nat.not_succ_le_zero _)
  | succ n ih =>
      by_cases hend : ∀ op, step s op = none
      · exact ⟨[], s, rfl, hend⟩
      · obtain ⟨op, hop⟩ := Classical.not_forall.mp hend
        obtain ⟨s₁, hs₁⟩ := Option.ne_none_iff_exists'.mp hop
        obtain ⟨ops, s', hrun, hend⟩ := ih fun ops s' hrun =>
          Nat.le_of_succ_le_succ (hn (op :: ops) s' (by rw [run, hs₁]; exact hrun))
        exact ⟨op :: ops, s', by rw [run, hs₁]; exact hrun, hend⟩

end Runs
