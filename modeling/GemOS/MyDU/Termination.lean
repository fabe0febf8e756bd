import GemOS.MyDU.Processes

/-!
# Runs of `myDU` end

`getDirSize` is called for the directories and symbolic links of a directory, so the calls form a
tree; if it has a depth, `Shallow`, then every process has only so much left to do (`weight`), and
every run ends with all processes (`endsWith_of_invariant`).
-/

namespace GemOS.MyDU

open Pipes (Action End Process)

/-! ## The tree of calls -/

/-- The paths of the entries of a directory, for the names that `readdir` returns. -/
def entryPaths (dirPath : Path) (names : List Path) : List Path :=
  (names.filter fun name => !isDots name).map (entryPath dirPath)

/-- The entries that `getDirSize` finds in a directory. -/
def listing (fs : FileSystem) (path : Path) : List Path :=
  entryPaths path ((fs.opendir path).getD [])

/-- The path that `getDirSize` is called with for an entry, by the same process or a child. -/
def calledFor (fs : FileSystem) (path : Path) : Option Path :=
  match fs.lstat path with
  | some .link => (fs.readlink path).map (· ++ fs.stale path)
  | some .dir => some path
  | _ => none

/-- The calls of `getDirSize` are less than `n` deep. -/
def Shallow (fs : FileSystem) : Nat → Path → Prop
  | 0, _ => False
  | n + 1, path => ∀ e ∈ listing fs path, ∀ q, calledFor fs e = some q → Shallow fs n q

/-- A sum over all calls, up to a depth, and the entries they find. -/
def sumCalls {M : Type} [AddMonoid M] (fs : FileSystem) (call entry : Path → M) : Nat → Path → M
  | 0, _ => 0
  | n + 1, path => call path + ((listing fs path).map fun e =>
      entry e + (calledFor fs e).elim 0 (sumCalls fs call entry n)).sum

variable {fs : FileSystem} {x : State} {f g : Frame} {callers : List Frame}
variable {path name : Path} {p q : Process State} {pid i capacity n m : Nat} {rest : List Path}
variable {makers : List Nat} {s : Pipes.System State U64}

theorem Shallow.mono (h : Shallow fs n path) (hle : n ≤ m) : Shallow fs m path := by
  induction n generalizing m path with
  | zero => exact h.elim
  | succ n ih =>
      obtain ⟨m, rfl⟩ := Nat.exists_eq_add_of_le' (Nat.lt_of_lt_of_le n.succ_pos hle)
      exact fun e he q hq => ih (h e he q hq) (by omega)

/-- A depth that is large enough changes nothing. -/
theorem sumCalls_stable {M : Type} [AddMonoid M] {call entry : Path → M} (h : Shallow fs n path)
    (hle : n ≤ m) : sumCalls fs call entry m path = sumCalls fs call entry n path := by
  induction n generalizing m path with
  | zero => exact h.elim
  | succ n ih =>
      obtain ⟨m, rfl⟩ := Nat.exists_eq_add_of_le' (Nat.lt_of_lt_of_le n.succ_pos hle)
      rw [sumCalls, sumCalls]
      congr 2
      refine List.map_congr_left fun e he => ?_
      cases hq : calledFor fs e with
      | none => rfl
      | some q => exact congrArg (entry e + ·) (ih (h e he q hq) (by omega))

/-- The sum of a call from the sums of the calls it makes. -/
theorem sumCalls_eq {M : Type} [AddMonoid M] {call entry : Path → M} (h : Shallow fs n path) :
    sumCalls fs call entry n path = call path + ((listing fs path).map fun e =>
      entry e + (calledFor fs e).elim 0 (sumCalls fs call entry n)).sum := by
  cases n with
  | zero => exact h.elim
  | succ n =>
      rw [sumCalls]
      congr 2
      refine List.map_congr_left fun e he => ?_
      cases hq : calledFor fs e with
      | none => rfl
      | some q => exact congrArg (entry e + ·) (sumCalls_stable (h e he q hq) n.le_succ).symm

@[simp] theorem entryPaths_dots (hdots : isDots name = true) :
    entryPaths path (name :: rest) = entryPaths path rest := by
  simp [entryPaths, hdots]

@[simp] theorem entryPaths_cons (hdots : isDots name = false) :
    entryPaths path (name :: rest) = entryPath path name :: entryPaths path rest := by
  simp [entryPaths, hdots]

theorem listing_eq {entries : List Path} (hopendir : fs.opendir path = some entries) :
    listing fs path = entryPaths path entries := by
  rw [listing, hopendir]
  rfl

theorem entryPaths_tail : entryPaths path rest ⊆ entryPaths path (name :: rest) := by
  by_cases hdots : isDots name = true
  · rw [entryPaths_dots hdots]
    exact List.Subset.refl _
  · rw [entryPaths_cons (Bool.not_eq_true _ ▸ hdots)]
    exact List.subset_cons_self _ _

theorem head_mem_entryPaths (hdots : isDots name = false) :
    entryPath path name ∈ entryPaths path (name :: rest) := by
  rw [entryPaths_cons hdots]
  exact List.mem_cons_self

/-! ## What is left to do -/

/-- The calls that a running call of `getDirSize` has still to make are shallow. -/
def Frame.Shallow (fs : FileSystem) (n : Nat) (f : Frame) : Prop :=
  ∀ e ∈ entryPaths f.dirPath f.entries, ∀ q, calledFor fs e = some q → MyDU.Shallow fs n q

/-- All calls that a process has still to make are shallow. -/
def Control.Shallow (fs : FileSystem) (n : Nat) : Control → Prop
  | .start _ path => MyDU.Shallow fs n path
  | .call path callers => MyDU.Shallow fs n path ∧ ∀ g ∈ callers, g.Shallow fs n
  | .loop f callers => f.Shallow fs n ∧ ∀ g ∈ callers, g.Shallow fs n
  | .drain _ callers | .finish _ callers => ∀ g ∈ callers, g.Shallow fs n
  | _ => True

/-- An entry has been visited. -/
theorem Frame.Shallow.tail {d : Path} {size size' : U64}
    (h : Frame.Shallow fs n ⟨d, size, i, name :: rest⟩) :
    Frame.Shallow fs n ⟨d, size', i, rest⟩ :=
  fun e he => h e (entryPaths_tail he)

theorem Frame.Shallow.head {d q : Path} {size : U64}
    (h : Frame.Shallow fs n ⟨d, size, i, name :: rest⟩) (hdots : isDots name = false)
    (hq : calledFor fs (entryPath d name) = some q) : MyDU.Shallow fs n q :=
  h _ (head_mem_entryPaths hdots) q hq

theorem calledFor_link {target : Path} (hlstat : fs.lstat path = some .link)
    (hreadlink : fs.readlink path = some target) :
    calledFor fs path = some (target ++ fs.stale path) := by
  rw [calledFor, hlstat]
  simp only [hreadlink, Option.map_some]

theorem calledFor_dir (hlstat : fs.lstat path = some .dir) : calledFor fs path = some path := by
  rw [calledFor, hlstat]

theorem calledFor_file (hlstat : fs.lstat path = some .file) : calledFor fs path = none := by
  rw [calledFor, hlstat]

/-- A call that is made for an entry. -/
theorem Shallow.called {e q : Path} (h : Shallow fs n path) (he : e ∈ listing fs path)
    (hq : calledFor fs e = some q) : Shallow fs n q := by
  cases n with
  | zero => exact h.elim
  | succ n => exact (h e he q hq).mono n.le_succ

/-- A call finds the entries of its directory. -/
theorem Shallow.frame {size : U64} {entries : List Path} (h : MyDU.Shallow fs n path)
    (hopendir : fs.opendir path = some entries) :
    Frame.Shallow fs n ⟨path, size, i, entries⟩ := by
  intro e he q hq
  exact h.called (listing_eq hopendir ▸ he) hq

theorem shallow_kept : Pipes.Kept (act fs) fun _ _ p => p.state.control.Shallow fs n where
  more _ h := h
  tau {pid makers p next} h hact := by
    obtain ⟨⟨r, c⟩, ends⟩ := p
    cases acts_of hact with
    | dots _ | file _ _ _ | other _ _ => exact ⟨h.1.tail, h.2⟩
    | link hdots hlstat hreadlink =>
        refine ⟨h.1.head hdots (calledFor_link hlstat hreadlink), fun g hg => ?_⟩
        rcases List.mem_cons.mp hg with rfl | hg
        · exact h.1.tail
        · exact h.2 g hg
  exit {pid makers p final} h hact := by
    obtain ⟨⟨r, c⟩, ends⟩ := p
    cases acts_of hact with
    | callFailed _ | entryFailed _ _ | printed | closed => trivial
  pipe {pid makers p next} h hact := by
    obtain ⟨⟨r, c⟩, ends⟩ := p
    cases acts_of hact with
    | called _ hopendir _ => exact ⟨h.1.frame hopendir, h.2⟩
  parent {pid makers p child parent} h hact := by
    obtain ⟨⟨r, c⟩, ends⟩ := p
    cases acts_of hact with
    | dir _ _ _ => exact ⟨h.1.tail, h.2⟩
  child {pid makers p child parent} h hact _ _ := by
    obtain ⟨⟨r, c⟩, ends⟩ := p
    cases acts_of hact with
    | dir hdots hlstat _ => exact h.1.head hdots (calledFor_dir hlstat)
  close {pid makers p e i next} h hact := by
    obtain ⟨⟨r, c⟩, ends⟩ := p
    cases acts_of hact with
    | start => exact ⟨h, fun _ hg => absurd hg List.not_mem_nil⟩
    | looped => exact h.2
    | returned | sent => trivial
    | @resumed _ _ g =>
        exact ⟨h g List.mem_cons_self, fun g hg => h g (List.mem_cons_of_mem _ hg)⟩
  write {pid makers p i v next killed} h hact := by
    obtain ⟨⟨r, c⟩, ends⟩ := p
    cases acts_of hact with
    | reported => exact ⟨trivial, trivial⟩
  read {pid makers p i next} h hact v := by
    obtain ⟨⟨r, c⟩, ends⟩ := p
    cases acts_of hact with
    | drain => cases v <;> exact h

/-- What a call of `getDirSize` has to do, with all calls that it makes. -/
def callWeight (fs : FileSystem) (n : Nat) : Path → Nat :=
  sumCalls fs (fun path => 8 + 2 * ((fs.opendir path).getD []).length) (fun _ => 0) n

/-- What the rest of a loop has to do. -/
def Frame.weight (fs : FileSystem) (n : Nat) (f : Frame) : Nat :=
  7 + 2 * f.entries.length +
    ((entryPaths f.dirPath f.entries).map fun e => (calledFor fs e).elim 0 (callWeight fs n)).sum

/-- What a process has to do. -/
def weight (fs : FileSystem) (n : Nat) (x : State) : Nat :=
  match x.control with
  | .start _ path => 1 + callWeight fs n path
  | .call path callers => callWeight fs n path + (callers.map (Frame.weight fs n)).sum
  | .loop f callers => f.weight fs n + (callers.map (Frame.weight fs n)).sum
  | .drain _ callers => 6 + (callers.map (Frame.weight fs n)).sum
  | .finish _ callers => 5 + (callers.map (Frame.weight fs n)).sum
  | .result _ => 4
  | .sent _ => 2
  | .closed => 1
  | .ended _ => 0

theorem callWeight_eq (i : Nat) (size : U64) {entries : List Path} (h : Shallow fs n path)
    (hopendir : fs.opendir path = some entries) :
    callWeight fs n path = 1 + Frame.weight fs n ⟨path, size, i, entries⟩ := by
  rw [callWeight, sumCalls_eq h, Frame.weight, listing, hopendir]
  simp only [Option.getD_some, Nat.zero_add]
  show _ = 1 + (7 + 2 * entries.length + ((entryPaths path entries).map fun e =>
    (calledFor fs e).elim 0 (callWeight fs n)).sum)
  rw [callWeight]
  omega

theorem callWeight_pos (h : Shallow fs n path) : 0 < callWeight fs n path := by
  rw [callWeight, sumCalls_eq h]
  omega

/-- An entry for which `getDirSize` is not called. -/
theorem weight_tail {d : Path} {size size' : U64} : Frame.weight fs n ⟨d, size', i, rest⟩ <
    Frame.weight fs n ⟨d, size, i, name :: rest⟩ := by
  simp only [Frame.weight, List.length_cons]
  by_cases hdots : isDots name = true
  · rw [entryPaths_dots hdots]
    omega
  · rw [entryPaths_cons (Bool.not_eq_true _ ▸ hdots), List.map_cons, List.sum_cons]
    omega

/-- An entry for which `getDirSize` is called. -/
theorem weight_head {d q : Path} (size size' : U64) (rest : List Path) (hdots : isDots name = false)
    (hq : calledFor fs (entryPath d name) = some q) :
    callWeight fs n q + Frame.weight fs n ⟨d, size', i, rest⟩ + 2 =
      Frame.weight fs n ⟨d, size, i, name :: rest⟩ := by
  simp only [Frame.weight, List.length_cons, entryPaths_cons hdots, List.map_cons, List.sum_cons,
    hq, Option.elim_some]
  omega

theorem weighs : Pipes.Weighs (act fs) (fun _ _ p => p.state.control.Shallow fs n)
    (weight fs n) where
  tau {pid makers p next} h hact := by
    obtain ⟨⟨r, c⟩, ends⟩ := p
    cases acts_of hact with
    | dots _ | file _ _ _ | other _ _ => exact Nat.add_lt_add_right weight_tail _
    | @link _ d size i name rest _ target hdots hlstat hreadlink =>
        have := weight_head (n := n) (i := i) size size rest hdots
          (calledFor_link hlstat hreadlink)
        simp only [weight, List.map_cons, List.sum_cons]
        omega
  exit {pid makers p final} h hact := by
    obtain ⟨⟨r, c⟩, ends⟩ := p
    cases acts_of hact with
    | callFailed _ => exact Nat.lt_of_lt_of_le (callWeight_pos h.1) (Nat.le_add_right _ _)
    | entryFailed _ _ =>
        simp only [weight, unable, Frame.weight]
        omega
    | printed | closed => exact Nat.succ_pos _
  pipe {pid makers p next} h hact i := by
    obtain ⟨⟨r, c⟩, ends⟩ := p
    cases acts_of hact with
    | @called _ _ _ size entries _ hopendir _ =>
        have := callWeight_eq i size h.1 hopendir
        simp only [weight]
        omega
  fork {pid makers p child parent} h hact := by
    obtain ⟨⟨r, c⟩, ends⟩ := p
    cases acts_of hact with
    | @dir _ d size i name rest _ hdots hlstat _ =>
        have := weight_head (n := n) (i := i) size size rest hdots
          (calledFor_dir hlstat)
        simp only [weight]
        omega
  close {pid makers p e i next} h hact := by
    obtain ⟨⟨r, c⟩, ends⟩ := p
    cases acts_of hact with
    | start =>
        simp only [weight, List.map_nil, List.sum_nil]
        omega
    | looped =>
        simp only [weight, Frame.weight]
        omega
    | returned =>
        simp only [weight]
        omega
    | resumed =>
        simp only [weight, Frame.weight, List.map_cons, List.sum_cons]
        omega
    | sent => exact Nat.lt_succ_self _
  write {pid makers p i v next killed} h hact := by
    obtain ⟨⟨r, c⟩, ends⟩ := p
    cases acts_of hact with
    | reported => exact ⟨Nat.lt_succ_self 3, Nat.succ_pos 3⟩
  read {pid makers p i next} h hact v := by
    obtain ⟨⟨r, c⟩, ends⟩ := p
    cases acts_of hact with
    | drain => exact Nat.le_refl _
  eof {pid makers p i next} h hact := by
    obtain ⟨⟨r, c⟩, ends⟩ := p
    cases acts_of hact with
    | drain => exact Nat.add_lt_add_right (Nat.lt_succ_self 5) _

/-! ## Complete runs -/

/-- Every run of the program ends, and the first process ends it in one of these ways. -/
structure EndsWith (fs : FileSystem) (capacity : Nat) (root : Path) (good : Outcome → Prop) :
    Prop where
  bounded : ∃ n, ∀ pids s, Runs.run (step fs capacity) (start root) pids = some s →
    pids.length ≤ n
  outcome : ∀ pids s, Runs.run (step fs capacity) (start root) pids = some s →
    (∀ pid, step fs capacity s pid = none) →
    ∃ p o, s.procs[0]? = some p ∧ p.state.control = .ended o ∧ good o

/-- The tree of calls of `getDirSize` has a depth. -/
def FiniteCalls (fs : FileSystem) (root : Path) : Prop :=
  ∃ n, Shallow fs n root

theorem shallow_start (h : Shallow fs n path) :
    (start path).All fun _ _ p => p.state.control.Shallow fs n :=
  start_all ⟨h, fun _ hg => absurd hg List.not_mem_nil⟩

/-- Every step leaves less to do. -/
theorem descends : Runs.Descends (step fs capacity)
    (fun s => s.All fun _ _ p => p.state.control.Shallow fs n)
    (Pipes.System.size (weight fs n)) :=
  weighs.descends shallow_kept

theorem FiniteCalls.bounded (h : FiniteCalls fs path) (capacity : Nat) :
    Runs.Bounded (step fs capacity) (start path) := by
  obtain ⟨n, hshallow⟩ := h
  exact descends.bounded (shallow_start hshallow)

/-- An invariant of the system tells how the first process ends, if runs are bounded. -/
theorem endsWith_of_invariant {good : Outcome → Prop} {Inv : Pipes.System State U64 → Prop}
    (hbounded : Runs.Bounded (step fs capacity) (start path)) (hcapacity : 0 < capacity)
    (hinv : ∀ s pid s', s.All OpenEnds → Inv s → step fs capacity s pid = some s' → Inv s')
    (hstart : Inv (start path))
    (hgood : ∀ s p o, Inv s → s.procs[0]? = some p → p.state.control = .ended o → good o) :
    EndsWith fs capacity path good where
  bounded := hbounded
  outcome pids s hrun hstuck := by
    have hkeeps : ∀ s pid s', (s.All OpenEnds ∧ Inv s ∧ 0 < s.procs.length) →
        step fs capacity s pid = some s' → s'.All OpenEnds ∧ Inv s' ∧ 0 < s'.procs.length :=
      fun s pid s' hs hstep => ⟨openEnds_kept.step hs.1 hstep, hinv s pid s' hs.1 hs.2.1 hstep,
        Nat.lt_of_lt_of_le hs.2.2 (Pipes.procs_length_le hstep)⟩
    obtain ⟨hends, hinv, hfirst⟩ :=
      Runs.run_keeps hkeeps ⟨openEnds_start path, hstart, Nat.one_pos⟩ hrun
    obtain ⟨o, ho⟩ := ended_of_stuck hends hcapacity hstuck (List.getElem_mem hfirst)
    have hp : s.procs[0]? = some s.procs[0] := List.getElem?_eq_getElem hfirst
    exact ⟨s.procs[0], o, hp, ho, hgood s _ o hinv hp ho⟩

/-- A program does not end in two ways. -/
theorem EndsWith.not_both {good bad : Outcome → Prop} (h : EndsWith fs capacity path good)
    (h' : EndsWith fs capacity path bad) (hne : ∀ o, good o → ¬ bad o) : False := by
  have hbounded : Runs.Bounded (step fs capacity) (start path) := h.bounded
  obtain ⟨pids, s, hrun, hend⟩ := hbounded.exists_end
  obtain ⟨p, o, hp, ho, hgood⟩ := h.outcome pids s hrun hend
  obtain ⟨p', o', hp', ho', hbad⟩ := h'.outcome pids s hrun hend
  obtain rfl := Option.some.inj (hp.symm.trans hp')
  obtain rfl := Control.ended.inj (ho.symm.trans ho')
  exact hne o hgood hbad

end GemOS.MyDU
