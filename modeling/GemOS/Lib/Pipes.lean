import Mathlib.Algebra.BigOperators.Group.List.Basic
import Mathlib.Algebra.GroupWithZero.Nat
import GemOS.Lib.Runs

/-!
# Processes and pipes

Processes that fork and talk through pipes. `act` says what a process in some state does next, and
`step` lets one of the processes do it, so a run is a list of process numbers. A child inherits the
ends that its parent has open. A reader waits while the pipe is empty and some process can still
write to it, and sees the end of the file once none can; a writer waits while the pipe is full, and
is killed once no process can read from it.

The rules: `Kept.step` for what every action of a process keeps, `Weighs.descends` for runs that
end, `InOrder.ended` for systems without deadlock, where nobody waits for a process that waits for
an earlier pipe, and `owed_put`, `owed_pipe`, `owed_fork`, `owed_write` and `owed_read` for what is
still to come through a pipe.
-/

namespace Pipes

/-- The ends of a pipe. -/
inductive End where
  | read
  | write
  deriving DecidableEq

/-- The other end. -/
def End.other : End → End
  | .read => .write
  | .write => .read

/-- What a process does next: a step of its own, the end, a new pipe (`next` gets its number), a
fork, the close of an end, a write (which kills the process if nobody can read), and a read
(`next` gets the value, or nothing at the end of the file). -/
inductive Action (State Val : Type*) where
  | tau (next : State)
  | exit (final : State)
  | pipe (next : Nat → State)
  | fork (child parent : State)
  | close (e : End) (i : Nat) (next : State)
  | write (i : Nat) (v : Val) (next killed : State)
  | read (i : Nat) (next : Option Val → State)

/-- A process, and the ends it has open. -/
structure Process (State : Type*) where
  state : State
  ends : List (End × Nat)

/-- A pipe: the process that made it, and the values in it. -/
structure Pipe (Val : Type*) where
  maker : Nat
  values : List Val

/-- All processes and all pipes, by their numbers. -/
structure System (State Val : Type*) where
  procs : List (Process State)
  pipes : List (Pipe Val)

variable {State Val : Type*}

/-- Some process has this end open. -/
def System.Holds (s : System State Val) (e : End) (i : Nat) : Prop :=
  ∃ p ∈ s.procs, (e, i) ∈ p.ends

instance (s : System State Val) (e : End) (i : Nat) : Decidable (s.Holds e i) :=
  inferInstanceAs (Decidable (∃ p ∈ s.procs, _))

/-- The values in a pipe. -/
def System.values (s : System State Val) (i : Nat) : List Val :=
  (s.pipes[i]?.map Pipe.values).getD []

/-- Replace a process. -/
def System.put (s : System State Val) (pid : Nat) (p : Process State) : System State Val :=
  { s with procs := s.procs.set pid p }

/-- Replace the values in a pipe. -/
def System.putValues (s : System State Val) (i : Nat) (values : List Val) : System State Val :=
  { s with pipes := s.pipes.modify i fun b => { b with values := values } }

/-- Who made the pipes. -/
def System.makers (s : System State Val) : List Nat :=
  s.pipes.map Pipe.maker

/-- Process `pid` does what it does next; there is no step if it waits or has ended. -/
def step (act : State → Option (Action State Val)) (capacity : Nat) (s : System State Val)
    (pid : Nat) : Option (System State Val) :=
  match s.procs[pid]? with
  | none => none
  | some p =>
      match act p.state with
      | none => none
      | some (.tau next) => some (s.put pid { p with state := next })
      | some (.exit final) => some (s.put pid ⟨final, []⟩)
      | some (.pipe next) =>
          let i := s.pipes.length
          let s := s.put pid ⟨next i, (.read, i) :: (.write, i) :: p.ends⟩
          some { s with pipes := s.pipes ++ [⟨pid, []⟩] }
      | some (.fork child parent) =>
          let s := s.put pid { p with state := parent }
          some { s with procs := s.procs ++ [{ p with state := child }] }
      | some (.close e i next) => some (s.put pid ⟨next, p.ends.filter (· ≠ (e, i))⟩)
      | some (.write i v next killed) =>
          if s.Holds .read i then
            if (s.values i).length < capacity then
              some ((s.put pid { p with state := next }).putValues i (s.values i ++ [v]))
            else none
          else some (s.put pid ⟨killed, []⟩)
      | some (.read i next) =>
          match s.values i with
          | v :: rest => some ((s.put pid { p with state := next (some v) }).putValues i rest)
          | [] => if s.Holds .write i then none else some (s.put pid { p with state := next none })

variable {act : State → Option (Action State Val)} {capacity pid i j : Nat}
variable {s s' : System State Val} {p q : Process State} {e e' : End} {makers : List Nat}
variable {P : Nat → List Nat → Process State → Prop} {weight : State → Nat}

/-! ## What a step can be -/

/-- The steps of process `pid`, which is `p`. -/
inductive Moved (act : State → Option (Action State Val)) (capacity : Nat) (s : System State Val)
    (pid : Nat) (p : Process State) : System State Val → Prop
  | tau {next} (hact : act p.state = some (.tau next)) :
      Moved act capacity s pid p (s.put pid { p with state := next })
  | exit {final} (hact : act p.state = some (.exit final)) :
      Moved act capacity s pid p (s.put pid ⟨final, []⟩)
  | pipe {next} (hact : act p.state = some (.pipe next)) :
      Moved act capacity s pid p
        { s.put pid ⟨next s.pipes.length,
            (.read, s.pipes.length) :: (.write, s.pipes.length) :: p.ends⟩ with
          pipes := s.pipes ++ [⟨pid, []⟩] }
  | fork {child parent} (hact : act p.state = some (.fork child parent)) :
      Moved act capacity s pid p
        { s with
          procs := s.procs.set pid { p with state := parent } ++ [{ p with state := child }] }
  | close {e i next} (hact : act p.state = some (.close e i next)) :
      Moved act capacity s pid p (s.put pid ⟨next, p.ends.filter (· ≠ (e, i))⟩)
  | killed {i v next killed} (hact : act p.state = some (.write i v next killed))
      (hnone : ¬ s.Holds .read i) : Moved act capacity s pid p (s.put pid ⟨killed, []⟩)
  | write {i v next killed} (hact : act p.state = some (.write i v next killed))
      (hsome : s.Holds .read i) (hroom : (s.values i).length < capacity) :
      Moved act capacity s pid p
        ((s.put pid { p with state := next }).putValues i (s.values i ++ [v]))
  | read {i v rest next} (hact : act p.state = some (.read i next))
      (hvalues : s.values i = v :: rest) :
      Moved act capacity s pid p
        ((s.put pid { p with state := next (some v) }).putValues i rest)
  | eof {i next} (hact : act p.state = some (.read i next)) (hvalues : s.values i = [])
      (hnone : ¬ s.Holds .write i) :
      Moved act capacity s pid p (s.put pid { p with state := next none })

theorem step_moved (h : step act capacity s pid = some s') :
    ∃ p, s.procs[pid]? = some p ∧ Moved act capacity s pid p s' := by
  unfold step at h
  cases hp : s.procs[pid]? with
  | none => simp [hp] at h
  | some p =>
      refine ⟨p, rfl, ?_⟩
      rw [hp] at h
      simp only at h
      cases hact : act p.state with
      | none => simp [hact] at h
      | some a =>
          rw [hact] at h
          cases a with
          | tau next => exact Option.some.inj h ▸ .tau hact
          | exit final => exact Option.some.inj h ▸ .exit hact
          | pipe next => exact Option.some.inj h ▸ .pipe hact
          | fork child parent => exact Option.some.inj h ▸ .fork hact
          | close e i next => exact Option.some.inj h ▸ .close hact
          | write i v next killed =>
              simp only at h
              split_ifs at h with hsome hroom
              · exact Option.some.inj h ▸ .write hact hsome hroom
              · exact Option.some.inj h ▸ .killed hact hsome
          | read i next =>
              simp only at h
              cases hvalues : s.values i with
              | cons v rest =>
                  rw [hvalues] at h
                  exact Option.some.inj h ▸ .read hact hvalues
              | nil =>
                  rw [hvalues] at h
                  simp only at h
                  split_ifs at h with hnone
                  exact Option.some.inj h ▸ .eof hact hvalues hnone

@[simp] theorem putValues_procs {values : List Val} : (s.putValues i values).procs = s.procs := rfl

@[simp] theorem putValues_makers {values : List Val} :
    (s.putValues i values).makers = s.makers := by
  refine List.ext_getElem? fun j => ?_
  simp only [System.makers, System.putValues, List.getElem?_map, List.getElem?_modify]
  by_cases hj : i = j
  · cases s.pipes[j]? <;> simp [hj]
  · simp [hj]

theorem makers_length : s.makers.length = s.pipes.length :=
  List.length_map _

/-! ## Properties of processes -/

/-- All processes have a property, which may refer to the number of the process and to who has
made the pipes. -/
def System.All (s : System State Val) (P : Nat → List Nat → Process State → Prop) : Prop :=
  ∀ pid p, s.procs[pid]? = some p → P pid s.makers p

/-- Every action keeps the property of a process. The child of a fork is a later process. -/
structure Kept (act : State → Option (Action State Val))
    (P : Nat → List Nat → Process State → Prop) : Prop where
  more : ∀ {pid makers p} maker, P pid makers p → P pid (makers ++ [maker]) p
  tau : ∀ {pid makers p next}, P pid makers p → act p.state = some (.tau next) →
    P pid makers { p with state := next }
  exit : ∀ {pid makers p final}, P pid makers p → act p.state = some (.exit final) →
    P pid makers ⟨final, []⟩
  pipe : ∀ {pid makers p next}, P pid makers p → act p.state = some (.pipe next) →
    P pid (makers ++ [pid]) ⟨next makers.length,
      (.read, makers.length) :: (.write, makers.length) :: p.ends⟩
  parent : ∀ {pid makers p child parent}, P pid makers p →
    act p.state = some (.fork child parent) → P pid makers { p with state := parent }
  child : ∀ {pid makers p child parent}, P pid makers p →
    act p.state = some (.fork child parent) → ∀ pid', pid < pid' →
    P pid' makers { p with state := child }
  close : ∀ {pid makers p e i next}, P pid makers p → act p.state = some (.close e i next) →
    P pid makers ⟨next, p.ends.filter (· ≠ (e, i))⟩
  write : ∀ {pid makers p i v next killed}, P pid makers p →
    act p.state = some (.write i v next killed) →
    P pid makers { p with state := next } ∧ P pid makers ⟨killed, []⟩
  read : ∀ {pid makers p i next}, P pid makers p → act p.state = some (.read i next) →
    ∀ v, P pid makers { p with state := next v }

theorem System.All.put {makers : List Nat} (h : s.All P) (hp : P pid makers p)
    (hmakers : ∀ pid q, P pid s.makers q → P pid makers q) :
    ∀ pid' q, (s.put pid p).procs[pid']? = some q → P pid' makers q := by
  intro pid' q hq
  rw [System.put, List.getElem?_set] at hq
  split_ifs at hq with hpid
  · obtain rfl : p = q := Option.some.inj hq
    exact hpid ▸ hp
  · exact hmakers pid' q (h pid' q hq)

/-- What every action of a process keeps, every step keeps for all processes. -/
theorem Kept.step (h : Kept act P) (hs : s.All P) (hstep : step act capacity s pid = some s') :
    s'.All P := by
  obtain ⟨p, hp, hmoved⟩ := step_moved hstep
  have hold := hs pid p hp
  cases hmoved with
  | tau hact => exact hs.put (h.tau hold hact) fun _ _ => id
  | exit hact => exact hs.put (h.exit hold hact) fun _ _ => id
  | pipe hact =>
      rw [System.All, System.makers, List.map_append, ← System.makers, ← makers_length]
      exact hs.put (h.pipe hold hact) fun _ _ => h.more pid
  | fork hact =>
      intro pid' q hq
      have hlt := (List.getElem?_eq_some_iff.mp hp).1
      rw [List.getElem?_append] at hq
      split_ifs at hq with hpid
      · exact hs.put (h.parent hold hact) (fun _ _ => id) pid' q hq
      · obtain rfl := List.mem_singleton.mp (List.mem_of_getElem? hq)
        rw [List.length_set] at hpid
        exact h.child hold hact pid' (by omega)
  | close hact => exact hs.put (h.close hold hact) fun _ _ => id
  | killed hact _ => exact hs.put (h.write hold hact).2 fun _ _ => id
  | write hact _ _ =>
      rw [System.All, putValues_makers, putValues_procs]
      exact hs.put (h.write hold hact).1 fun _ _ => id
  | read hact _ =>
      rw [System.All, putValues_makers, putValues_procs]
      exact hs.put (h.read hold hact _) fun _ _ => id
  | eof hact _ _ => exact hs.put (h.read hold hact _) fun _ _ => id

/-- No process disappears. -/
theorem procs_length_le (hstep : step act capacity s pid = some s') :
    s.procs.length ≤ s'.procs.length := by
  obtain ⟨p, _, hmoved⟩ := step_moved hstep
  cases hmoved with
  | fork _ =>
      rw [List.length_append, List.length_set]
      exact Nat.le_add_right _ _
  | _ => exact Nat.le_of_eq (List.length_set ..).symm

/-! ## Sums over processes and pipes -/

/-- A sum over a list of which one item is replaced. -/
theorem sum_map_set {A M : Type*} [AddCommMonoid M] (f : A → M) {l : List A} {k : Nat} {a : A}
    (h : l[k]? = some a) (b : A) : f a + ((l.set k b).map f).sum = f b + (l.map f).sum := by
  induction l generalizing k with
  | nil => simp at h
  | cons c l ih =>
      cases k with
      | zero =>
          obtain rfl : c = a := Option.some.inj h
          simp only [List.set_cons_zero, List.map_cons, List.sum_cons]
          exact add_left_comm _ _ _
      | succ k =>
          simp only [List.set_cons_succ, List.map_cons, List.sum_cons]
          rw [add_left_comm, ih h, add_left_comm]

/-- A pipe that has values was made. -/
theorem pipe_of_values {v : Val} {rest : List Val} (h : s.values i = v :: rest) :
    ∃ maker, s.pipes[i]? = some ⟨maker, v :: rest⟩ := by
  unfold System.values at h
  cases hpipe : s.pipes[i]? with
  | none => simp [hpipe] at h
  | some b =>
      rw [hpipe, Option.map_some, Option.getD_some] at h
      exact ⟨b.maker, by rw [← h]⟩

theorem putValues_pipes {b : Pipe Val} {values : List Val} (h : s.pipes[i]? = some b) :
    (s.putValues i values).pipes = s.pipes.set i ⟨b.maker, values⟩ := by
  refine List.ext_getElem? fun j => ?_
  rw [System.putValues, List.getElem?_modify, List.getElem?_set]
  have hlt := (List.getElem?_eq_some_iff.mp h).1
  split_ifs with hj
  · rw [← hj, h]
    rfl
  · simp

/-- Values for a pipe that was not made are lost. -/
theorem putValues_none {values : List Val} (h : s.pipes[i]? = none) : s.putValues i values = s := by
  have hpipes : (s.putValues i values).pipes = s.pipes := by
    refine List.ext_getElem? fun j => ?_
    rw [System.putValues, List.getElem?_modify]
    split_ifs with hj
    · rw [← hj, h]
      rfl
    · simp
  exact congrArg (System.mk s.procs) hpipes

/-! ## Runs that end -/

/-- What the processes have left to do, and the values in the pipes. -/
def System.size (weight : State → Nat) (s : System State Val) : Nat :=
  (s.procs.map fun p => weight p.state).sum + (s.pipes.map fun b => b.values.length).sum

/-- Every action leaves a process with less to do; a value that it writes, and a child, count as
well. Reading a value need not count. -/
structure Weighs (act : State → Option (Action State Val))
    (P : Nat → List Nat → Process State → Prop) (weight : State → Nat) : Prop where
  tau : ∀ {pid makers p next}, P pid makers p → act p.state = some (.tau next) →
    weight next < weight p.state
  exit : ∀ {pid makers p final}, P pid makers p → act p.state = some (.exit final) →
    weight final < weight p.state
  pipe : ∀ {pid makers p next}, P pid makers p → act p.state = some (.pipe next) →
    ∀ i, weight (next i) < weight p.state
  fork : ∀ {pid makers p child parent}, P pid makers p →
    act p.state = some (.fork child parent) → weight child + weight parent < weight p.state
  close : ∀ {pid makers p e i next}, P pid makers p → act p.state = some (.close e i next) →
    weight next < weight p.state
  write : ∀ {pid makers p i v next killed}, P pid makers p →
    act p.state = some (.write i v next killed) →
    weight next + 1 < weight p.state ∧ weight killed < weight p.state
  read : ∀ {pid makers p i next}, P pid makers p → act p.state = some (.read i next) →
    ∀ v, weight (next (some v)) ≤ weight p.state
  eof : ∀ {pid makers p i next}, P pid makers p → act p.state = some (.read i next) →
    weight (next none) < weight p.state

theorem size_put (weight : State → Nat) (hp : s.procs[pid]? = some p) (q : Process State) :
    weight p.state + (s.put pid q).size weight = weight q.state + s.size weight := by
  have := sum_map_set (fun p : Process State => weight p.state) hp q
  simp only [System.size, System.put]
  omega

theorem size_put_lt (hp : s.procs[pid]? = some p) (h : weight q.state < weight p.state) :
    (s.put pid q).size weight < s.size weight := by
  have := size_put weight hp q
  omega

theorem size_putValues (weight : State → Nat) {b : Pipe Val} (values : List Val)
    (h : s.pipes[i]? = some b) :
    b.values.length + (s.putValues i values).size weight = values.length + s.size weight := by
  have := sum_map_set (fun b : Pipe Val => b.values.length) h ⟨b.maker, values⟩
  simp only at this
  rw [System.size, System.size, putValues_pipes h, putValues_procs]
  omega

theorem size_write (weight : State → Nat) (i : Nat) (v : Val) :
    (s.putValues i (s.values i ++ [v])).size weight ≤ 1 + s.size weight := by
  cases hpipe : s.pipes[i]? with
  | none =>
      rw [putValues_none hpipe]
      omega
  | some b =>
      have hvalues : s.values i = b.values := by rw [System.values, hpipe]; rfl
      have := size_putValues weight (b.values ++ [v]) hpipe
      rw [List.length_append, List.length_singleton] at this
      rw [hvalues]
      omega

/-- With less to do after every step, runs end. -/
theorem Weighs.descends (h : Weighs act P weight) (hkept : Kept act P) :
    Runs.Descends (step act capacity) (fun s => s.All P) (System.size weight) where
  keeps s pid s' hs hstep := hkept.step hs hstep
  smaller s pid s' hs hstep := by
    obtain ⟨p, hp, hmoved⟩ := step_moved hstep
    have hold := hs pid p hp
    cases hmoved with
    | tau hact => exact size_put_lt hp (h.tau hold hact)
    | exit hact => exact size_put_lt hp (h.exit hold hact)
    | @pipe next hact =>
        have hless := size_put_lt (q := ⟨next s.pipes.length, (.read, s.pipes.length) ::
          (.write, s.pipes.length) :: p.ends⟩) hp (h.pipe hold hact s.pipes.length)
        refine lt_of_eq_of_lt ?_ hless
        simp [System.size, System.put]
    | @fork child parent hact =>
        have hput := size_put weight hp { p with state := parent }
        have hless := h.fork hold hact
        simp only [System.size, System.put, List.map_append, List.map_cons, List.map_nil,
          List.sum_append, List.sum_cons, List.sum_nil] at hput ⊢
        omega
    | close hact => exact size_put_lt hp (h.close hold hact)
    | killed hact _ => exact size_put_lt hp (h.write hold hact).2
    | @write i v next killed hact _ _ =>
        have hput := size_put weight hp { p with state := next }
        have hless := (h.write hold hact).1
        have hwrite := size_write (s := s.put pid { p with state := next }) weight i v
        have hvalues : (s.put pid { p with state := next }).values i = s.values i := rfl
        rw [hvalues] at hwrite
        simp only at hput
        omega
    | @read i v rest next hact hvalues =>
        have hput := size_put weight hp { p with state := next (some v) }
        have hless := h.read hold hact v
        obtain ⟨maker, hpipe⟩ := pipe_of_values hvalues
        have hread := size_putValues weight
          (s := s.put pid { p with state := next (some v) }) rest hpipe
        simp only [List.length_cons] at hread hput
        omega
    | eof hact _ _ => exact size_put_lt hp (h.eof hold hact)

/-! ## Waiting -/

/-- The end of a pipe that an action has to wait at. -/
def Action.waits : Action State Val → Option (End × Nat)
  | .write i _ _ _ => some (.write, i)
  | .read i _ => some (.read, i)
  | _ => none

/-- A process is at an action that has to wait at an end of a pipe. -/
def Waits (act : State → Option (Action State Val)) (p : Process State) (e : End) (i : Nat) :
    Prop :=
  ∃ a, act p.state = some a ∧ a.waits = some (e, i)

/-- A process that waits at one end of a pipe, and a process that has the other end open and waits
as well: it waits at a later pipe, or at that other end. -/
structure InOrder (act : State → Option (Action State Val)) (s : System State Val) : Prop where
  closed : ∀ p ∈ s.procs, act p.state = none → p.ends = []
  made : ∀ p ∈ s.procs, ∀ e i, Waits act p e i → i < s.pipes.length
  order : ∀ p ∈ s.procs, ∀ q ∈ s.procs, ∀ e i e' j, Waits act p e i → (e.other, i) ∈ q.ends →
    Waits act q e' j → i < j ∨ i = j ∧ e' = e.other

/-- A process without a step has ended, or it waits and some process has the other end of its pipe
open. -/
theorem waits_of_stuck (hp : s.procs[pid]? = some p) (hstuck : step act capacity s pid = none) :
    act p.state = none ∨ ∃ e i, Waits act p e i ∧ s.Holds e.other i ∧
      (e = .read → s.values i = []) ∧ (e = .write → capacity ≤ (s.values i).length) := by
  unfold step at hstuck
  rw [hp] at hstuck
  simp only at hstuck
  cases hact : act p.state with
  | none => exact Or.inl rfl
  | some a =>
      rw [hact] at hstuck
      refine Or.inr ?_
      cases a with
      | tau _ | exit _ | pipe _ | fork _ _ | close _ _ _ => cases hstuck
      | write i v next killed =>
          simp only at hstuck
          split_ifs at hstuck with hsome hroom
          exact ⟨.write, i, ⟨_, hact, rfl⟩, hsome, nofun, fun _ => Nat.not_lt.mp hroom⟩
      | read i next =>
          simp only at hstuck
          cases hvalues : s.values i with
          | cons v rest =>
              rw [hvalues] at hstuck
              cases hstuck
          | nil =>
              rw [hvalues] at hstuck
              simp only at hstuck
              split_ifs at hstuck with hsome
              exact ⟨.read, i, ⟨_, hact, rfl⟩, hsome, fun _ => hvalues, nofun⟩

/-- When all processes have ended, there is no step. -/
theorem stuck_of_ended (h : ∀ p ∈ s.procs, act p.state = none) (pid : Nat) :
    step act capacity s pid = none := by
  unfold step
  cases hp : s.procs[pid]? with
  | none => rfl
  | some p => simp [h p (List.mem_of_getElem? hp)]

theorem Waits.unique (h : Waits act p e i) (h' : Waits act p e' j) : e = e' ∧ i = j := by
  obtain ⟨a, hact, hwaits⟩ := h
  obtain ⟨a', hact', hwaits'⟩ := h'
  obtain rfl : a = a' := Option.some.inj (hact.symm.trans hact')
  exact Prod.mk.inj (Option.some.inj (hwaits.symm.trans hwaits'))

/-- A process that waits for ever waits for one that waits at a later pipe. -/
theorem InOrder.later (h : InOrder act s) (hcapacity : 0 < capacity)
    (hstuck : ∀ pid, step act capacity s pid = none) (hp : p ∈ s.procs)
    (hwaits : Waits act p e i) : ∃ q ∈ s.procs, ∃ e' j, Waits act q e' j ∧ i < j := by
  obtain ⟨pid, hpid⟩ := List.mem_iff_getElem?.mp hp
  obtain hended | ⟨_, _, hwaits', ⟨q, hq, hends⟩, hempty, hfull⟩ := waits_of_stuck hpid (hstuck pid)
  · obtain ⟨a, hact, _⟩ := hwaits
    rw [hended] at hact
    cases hact
  obtain ⟨rfl, rfl⟩ := hwaits.unique hwaits'
  obtain ⟨pid', hpid'⟩ := List.mem_iff_getElem?.mp hq
  obtain hended | ⟨e', j, hq_waits, _, hempty', hfull'⟩ := waits_of_stuck hpid' (hstuck pid')
  · rw [h.closed q hq hended] at hends
    cases hends
  rcases h.order p hp q hq e i e' j hwaits hends hq_waits with hlt | ⟨rfl, rfl⟩
  · exact ⟨q, hq, e', j, hq_waits, hlt⟩
  · -- the two processes wait for each other, at an empty and full pipe
    cases e with
    | read =>
        have := hfull' rfl
        rw [hempty rfl, List.length_nil] at this
        omega
    | write =>
        have := hfull rfl
        rw [hempty' rfl, List.length_nil] at this
        omega

/-- Where processes wait in order, a system without a step has ended: there is no deadlock. -/
theorem InOrder.ended (h : InOrder act s) (hcapacity : 0 < capacity)
    (hstuck : ∀ pid, step act capacity s pid = none) : ∀ p ∈ s.procs, act p.state = none := by
  -- nobody waits, by induction on the number of pipes that are later
  have hnobody : ∀ n, ∀ p ∈ s.procs, ∀ e i, Waits act p e i → s.pipes.length ≤ i + n → False := by
    intro n
    induction n with
    | zero =>
        intro p hp e i hwaits hlast
        have := h.made p hp e i hwaits
        omega
    | succ n ih =>
        intro p hp e i hwaits hlast
        obtain ⟨q, hq, e', j, hwaits', hlt⟩ := h.later hcapacity hstuck hp hwaits
        exact ih q hq e' j hwaits' (by omega)
  intro p hp
  obtain ⟨pid, hpid⟩ := List.mem_iff_getElem?.mp hp
  obtain hended | ⟨e, i, hwaits, _⟩ := waits_of_stuck hpid (hstuck pid)
  · exact hended
  · exact (hnobody s.pipes.length p hp e i hwaits (Nat.le_add_left _ _)).elim

/-! ## What is still to come -/

/-- What will come through a pipe: the values in it, and what the processes have still to write, if
`owes` says so for each state. -/
def System.owed [AddCommMonoid Val] (owes : Nat → State → Val) (s : System State Val) (i : Nat) :
    Val :=
  (s.values i).sum + (s.procs.map fun p => owes i p.state).sum

theorem values_putValues {b : Pipe Val} {values : List Val} (h : s.pipes[i]? = some b) :
    (s.putValues i values).values j = if j = i then values else s.values j := by
  unfold System.values
  rw [putValues_pipes h, List.getElem?_set]
  have hlt := (List.getElem?_eq_some_iff.mp h).1
  by_cases hj : i = j
  · rw [if_pos hj, if_pos (hj ▸ hlt), if_pos hj.symm]
    rfl
  · rw [if_neg hj, if_neg (Ne.symm hj)]

section Owed

variable [AddCancelCommMonoid Val] {owes : Nat → State → Val}

/-- A process goes on and owes what it did. -/
theorem owed_put (hp : s.procs[pid]? = some p) (h : owes i q.state = owes i p.state) :
    (s.put pid q).owed owes i = s.owed owes i := by
  have hsum := sum_map_set (fun p : Process State => owes i p.state) hp q
  rw [h] at hsum
  exact congrArg ((s.values i).sum + ·) (add_left_cancel hsum)

/-- A process makes a pipe, which is empty, and goes on. -/
theorem owed_pipe (hp : s.procs[pid]? = some p) (h : owes i q.state = owes i p.state)
    (hprocs : s'.procs = s.procs.set pid q) {maker : Nat}
    (hpipes : s'.pipes = s.pipes ++ [⟨maker, []⟩]) : s'.owed owes i = s.owed owes i := by
  have hvalues : s'.values i = s.values i := by
    rw [System.values, hpipes, List.getElem?_append, System.values]
    split_ifs with hi
    · rfl
    · rw [List.getElem?_eq_none (Nat.not_lt.mp hi)]
      cases i - s.pipes.length <;> rfl
  rw [← owed_put hp h, System.owed, hvalues, hprocs]
  rfl

/-- A process forks and goes on; the child owes something as well. -/
theorem owed_fork (hp : s.procs[pid]? = some p) (h : owes i q.state = owes i p.state)
    {child : Process State} (hprocs : s'.procs = s.procs.set pid q ++ [child])
    (hpipes : s'.pipes = s.pipes) :
    s'.owed owes i = s.owed owes i + owes i child.state := by
  have hvalues : s'.values i = s.values i := by rw [System.values, hpipes, System.values]
  rw [← owed_put hp h, System.owed, hvalues, hprocs, List.map_append, List.sum_append,
    List.map_singleton, List.sum_singleton, ← add_assoc]
  rfl

/-- A process writes what it owes. -/
theorem owed_write {b : Pipe Val} {v : Val} (hp : s.procs[pid]? = some p)
    (hpipe : s.pipes[i]? = some b)
    (h : ∀ j, owes j p.state = (if j = i then v else 0) + owes j q.state) :
    ((s.put pid q).putValues i (s.values i ++ [v])).owed owes j = s.owed owes j := by
  have hsum := sum_map_set (fun p : Process State => owes j p.state) hp q
  rw [System.owed, putValues_procs, values_putValues (s := s.put pid q) hpipe, System.owed]
  simp only [h j] at hsum
  rw [add_right_comm, add_comm (owes j q.state)] at hsum
  have hrest := add_right_cancel hsum
  by_cases hj : j = i
  · subst hj
    rw [if_pos rfl] at hrest ⊢
    rw [List.sum_append, List.sum_singleton, add_assoc, ← hrest]
    rfl
  · rw [if_neg hj, zero_add] at hrest
    rw [if_neg hj, ← hrest]
    rfl

/-- A value is read and owed no more. -/
theorem owed_read {v : Val} {rest : List Val} (hp : s.procs[pid]? = some p)
    (hvalues : s.values i = v :: rest) (h : owes j q.state = owes j p.state) :
    (if j = i then v else 0) + ((s.put pid q).putValues i rest).owed owes j = s.owed owes j := by
  obtain ⟨maker, hpipe⟩ := pipe_of_values hvalues
  have hput := owed_put hp h
  rw [← hput, System.owed, putValues_procs, values_putValues (s := s.put pid q) hpipe, System.owed]
  by_cases hj : j = i
  · subst hj
    have hvalues' : (s.put pid q).values j = v :: rest := hvalues
    rw [if_pos rfl, if_pos rfl, hvalues', List.sum_cons, add_assoc]
  · rw [if_neg hj, if_neg hj, zero_add]

end Owed

end Pipes
