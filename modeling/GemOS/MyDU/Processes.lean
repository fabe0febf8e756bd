import GemOS.MyDU.Program

/-!
# The processes of `myDU`

What the processes of `getDirSize` do, call by call (`Acts`), and which ends of pipes they have
open (`OpenEnds`): a process reads from pipes it has made itself, the latest first, and writes to
the pipe of its parent, and it has no end of a later pipe of other processes open. So processes wait
in order, and there is no deadlock (`ended_of_stuck`).
-/

namespace GemOS.MyDU

open Pipes (Action End Process Waits)

/-! ## What a process does -/

/-- A system call of `getDirSize` before its loop fails. -/
def CallFails (fs : FileSystem) (path : Path) : Prop :=
  fs.stat path = none ∨ fs.opendir path = none ∨ fs.pipe path = false

/-- A system call for an entry fails. -/
def EntryFails (fs : FileSystem) (path : Path) : Prop :=
  fs.lstat path = none ∨ (fs.lstat path = some .link ∧ fs.readlink path = none) ∨
    (fs.lstat path = some .dir ∧ fs.fork path = false) ∨
    (fs.lstat path = some .file ∧ fs.stat path = none)

/-- What a process does next, case by case. -/
inductive Acts (fs : FileSystem) : State → Action State U64 → Prop
  | start {r i path} : Acts fs ⟨r, .start i path⟩ (.close .read i ⟨r, .call path []⟩)
  | callFailed {r path callers} (h : CallFails fs path) :
      Acts fs ⟨r, .call path callers⟩ (.exit ⟨r, unable⟩)
  | called {r path callers size entries} (hstat : fs.stat path = some size)
      (hopendir : fs.opendir path = some entries) (hpipe : fs.pipe path = true) :
      Acts fs ⟨r, .call path callers⟩
        (.pipe fun i => ⟨r, .loop ⟨path, size, i, entries⟩ callers⟩)
  | looped {r d n i callers} :
      Acts fs ⟨r, .loop ⟨d, n, i, []⟩ callers⟩ (.close .write i ⟨r, .drain ⟨d, n, i, []⟩ callers⟩)
  | dots {r d n i name rest callers} (hdots : isDots name = true) :
      Acts fs ⟨r, .loop ⟨d, n, i, name :: rest⟩ callers⟩ (.tau ⟨r, .loop ⟨d, n, i, rest⟩ callers⟩)
  | entryFailed {r d n i name rest callers} (hdots : isDots name = false)
      (h : EntryFails fs (entryPath d name)) :
      Acts fs ⟨r, .loop ⟨d, n, i, name :: rest⟩ callers⟩ (.exit ⟨r, unable⟩)
  | link {r d n i name rest callers target} (hdots : isDots name = false)
      (hlstat : fs.lstat (entryPath d name) = some .link)
      (hreadlink : fs.readlink (entryPath d name) = some target) :
      Acts fs ⟨r, .loop ⟨d, n, i, name :: rest⟩ callers⟩
        (.tau ⟨r, .call (target ++ fs.stale (entryPath d name)) (⟨d, n, i, rest⟩ :: callers)⟩)
  | dir {r d n i name rest callers} (hdots : isDots name = false)
      (hlstat : fs.lstat (entryPath d name) = some .dir)
      (hfork : fs.fork (entryPath d name) = true) :
      Acts fs ⟨r, .loop ⟨d, n, i, name :: rest⟩ callers⟩
        (.fork ⟨some i, .start i (entryPath d name)⟩ ⟨r, .loop ⟨d, n, i, rest⟩ callers⟩)
  | file {r d n i name rest callers size} (hdots : isDots name = false)
      (hlstat : fs.lstat (entryPath d name) = some .file)
      (hstat : fs.stat (entryPath d name) = some size) :
      Acts fs ⟨r, .loop ⟨d, n, i, name :: rest⟩ callers⟩
        (.tau ⟨r, .loop ⟨d, n + size, i, rest⟩ callers⟩)
  | other {r d n i name rest callers} (hdots : isDots name = false)
      (hlstat : fs.lstat (entryPath d name) = some .other) :
      Acts fs ⟨r, .loop ⟨d, n, i, name :: rest⟩ callers⟩ (.tau ⟨r, .loop ⟨d, n, i, rest⟩ callers⟩)
  | drain {r f callers} : Acts fs ⟨r, .drain f callers⟩ (.read f.pipe fun
      | some size => ⟨r, .drain { f with dirSize := f.dirSize + size } callers⟩
      | none => ⟨r, .finish f callers⟩)
  | returned {r f} : Acts fs ⟨r, .finish f []⟩ (.close .read f.pipe ⟨r, .result f.dirSize⟩)
  | resumed {r f g callers} : Acts fs ⟨r, .finish f (g :: callers)⟩
      (.close .read f.pipe ⟨r, .loop { g with dirSize := g.dirSize + f.dirSize } callers⟩)
  | printed {size} : Acts fs ⟨none, .result size⟩
      (.exit ⟨none, .ended (.exit 0 (some (.total size)))⟩)
  | reported {i size} : Acts fs ⟨some i, .result size⟩
      (.write i size ⟨some i, .sent i⟩ ⟨some i, .ended .sigpipe⟩)
  | sent {r i} : Acts fs ⟨r, .sent i⟩ (.close .write i ⟨r, .closed⟩)
  | closed {r} : Acts fs ⟨r, .closed⟩ (.exit ⟨r, .ended (.exit 0 none)⟩)

variable {fs : FileSystem} {x : State} {a : Action State U64} {f g : Frame} {callers : List Frame}
variable {path name : Path} {r : Option Nat} {p q : Process State} {pid i capacity : Nat}
variable {makers : List Nat} {s : Pipes.System State U64}

theorem acts_of (h : act fs x = some a) : Acts fs x a := by
  obtain ⟨r, control⟩ := x
  cases control with
  | start i path => exact Option.some.inj h ▸ .start
  | call path callers =>
      simp only [act] at h
      split at h
      · rename_i hstat hopendir hpipe
        exact Option.some.inj h ▸ .called hstat hopendir hpipe
      · rename_i hfails
        refine Option.some.inj h ▸ .callFailed ?_
        by_contra hgood
        simp only [CallFails, not_or, Option.ne_none_iff_exists', Bool.not_eq_false] at hgood
        obtain ⟨⟨size, hstat⟩, ⟨entries, hopendir⟩, hpipe⟩ := hgood
        exact hfails size entries hstat hopendir hpipe
  | loop f callers =>
      obtain ⟨d, n, i, entries⟩ := f
      cases entries with
      | nil => exact Option.some.inj h ▸ .looped
      | cons name rest =>
          simp only [act, visit, Option.some.injEq] at h
          by_cases hdots : isDots name = true
          · rw [if_pos hdots] at h
            exact h ▸ .dots hdots
          rw [if_neg hdots] at h
          rw [Bool.not_eq_true] at hdots
          split at h
          · rename_i hlstat
            exact h ▸ .entryFailed hdots (Or.inl hlstat)
          · rename_i hlstat
            split at h
            · rename_i hreadlink
              exact h ▸ .entryFailed hdots (Or.inr (Or.inl ⟨hlstat, hreadlink⟩))
            · rename_i target hreadlink
              exact h ▸ .link hdots hlstat hreadlink
          · rename_i hlstat
            split_ifs at h with hfork
            · exact h ▸ .dir hdots hlstat hfork
            · rw [Bool.not_eq_true] at hfork
              exact h ▸ .entryFailed hdots (Or.inr (Or.inr (Or.inl ⟨hlstat, hfork⟩)))
          · rename_i hlstat
            split at h
            · rename_i hstat
              exact h ▸ .entryFailed hdots (Or.inr (Or.inr (Or.inr ⟨hlstat, hstat⟩)))
            · rename_i size hstat
              exact h ▸ .file hdots hlstat hstat
          · rename_i hlstat
            exact h ▸ .other hdots hlstat
  | drain f callers => exact Option.some.inj h ▸ .drain
  | finish f callers =>
      cases callers with
      | nil => exact Option.some.inj h ▸ .returned
      | cons g callers => exact Option.some.inj h ▸ .resumed
  | result size =>
      cases r with
      | none => exact Option.some.inj h ▸ .printed
      | some i => exact Option.some.inj h ▸ .reported
  | sent i => exact Option.some.inj h ▸ .sent
  | closed => exact Option.some.inj h ▸ .closed
  | ended outcome => cases h

/-! ## Open ends -/

/-- The pipes of the calls of `getDirSize` that run, the latest first. -/
def Control.pipes : Control → List Nat
  | .call _ callers => callers.map Frame.pipe
  | .loop f callers | .drain f callers | .finish f callers => f.pipe :: callers.map Frame.pipe
  | _ => []

/-- Those of them that the process can still write to. -/
def Control.writable : Control → List Nat
  | .call _ callers | .drain _ callers | .finish _ callers => callers.map Frame.pipe
  | .loop f callers => f.pipe :: callers.map Frame.pipe
  | _ => []

/-- The process has not sent its result yet, if it has to send one. -/
def Control.unsent : Control → Bool
  | .sent _ | .closed | .ended _ => false
  | _ => true

/-- The pipes that a process has open: those it has made itself, which are later than the one it
reports to, and earlier ones. -/
structure OpenEnds (pid : Nat) (makers : List Nat) (p : Process State) : Prop where
  latest : p.state.control.pipes.Pairwise (· > ·)
  mine : ∀ i ∈ p.state.control.pipes, makers[i]? = some pid
  later : ∀ r, p.state.report = some r → r < makers.length ∧ ∀ i ∈ p.state.control.pipes, r < i
  start : ∀ i path, p.state.control = .start i path → p.state.report = some i
  ended : ∀ o, p.state.control = .ended o → p.ends = []
  held : ∀ i ∈ p.state.control.writable, (.write, i) ∈ p.ends
  readable : ∀ i ∈ p.state.control.pipes, (.read, i) ∈ p.ends
  write : ∀ i, (.write, i) ∈ p.ends →
    (∃ r, p.state.report = some r ∧ i ≤ r) ∨ i ∈ p.state.control.writable
  read : ∀ i, (.read, i) ∈ p.ends →
    (∃ r, p.state.report = some r ∧ i < r) ∨ (∃ path, p.state.control = .start i path) ∨
      i ∈ p.state.control.pipes
  reports : p.state.control.unsent = true → ∀ r, p.state.report = some r → (.write, r) ∈ p.ends

/-- A process that goes on with the same pipes, or without the latest one. -/
theorem OpenEnds.goto {c c' : Control} {ends ends' : List (End × Nat)}
    (h : OpenEnds pid makers ⟨⟨r, c⟩, ends⟩) (hpipes : c'.pipes <:+ c.pipes)
    (hstart : ∀ i path, c' ≠ .start i path) (hended : ∀ o, c' ≠ .ended o) (hends : ends' ⊆ ends)
    (hheld : ∀ i ∈ c'.writable, i ∈ c.writable ∧ ((.write, i) ∈ ends → (.write, i) ∈ ends'))
    (hreadable : ∀ i ∈ c'.pipes, (.read, i) ∈ ends → (.read, i) ∈ ends')
    (hwrite : ∀ i, (.write, i) ∈ ends' → i ∈ c.writable → i ∈ c'.writable)
    (hread : ∀ i, (.read, i) ∈ ends' → (∃ path, c = .start i path) ∨ i ∈ c.pipes → i ∈ c'.pipes)
    (hreports : c'.unsent = true → c.unsent = true ∧ ∀ i, r = some i → (.write, i) ∈ ends →
      (.write, i) ∈ ends') : OpenEnds pid makers ⟨⟨r, c'⟩, ends'⟩ where
  latest := h.latest.sublist hpipes.sublist
  mine i hi := h.mine i (hpipes.subset hi)
  later i hi := ⟨(h.later i hi).1, fun j hj => (h.later i hi).2 j (hpipes.subset hj)⟩
  start i path hc := absurd hc (hstart i path)
  ended o hc := absurd hc (hended o)
  held i hi := (hheld i hi).2 (h.held i (hheld i hi).1)
  readable i hi := hreadable i hi (h.readable i (hpipes.subset hi))
  write i hi := (h.write i (hends hi)).imp_right (hwrite i hi)
  read i hi := (h.read i (hends hi)).imp_right fun hc => Or.inr (hread i hi hc)
  reports hc i hi := (hreports hc).2 i hi (h.reports (hreports hc).1 i hi)

theorem openEnds_ended {o : Outcome} (hreport : ∀ i, r = some i → i < makers.length) :
    OpenEnds pid makers ⟨⟨r, .ended o⟩, []⟩ where
  latest := List.Pairwise.nil
  mine _ hi := absurd hi List.not_mem_nil
  later i hi := ⟨hreport i hi, fun _ hj => absurd hj List.not_mem_nil⟩
  start _ _ hc := nomatch hc
  ended _ _ := rfl
  held _ hi := absurd hi List.not_mem_nil
  readable _ hi := absurd hi List.not_mem_nil
  write _ hi := absurd hi List.not_mem_nil
  read _ hi := absurd hi List.not_mem_nil
  reports hc := nomatch hc

theorem mem_filter_ne {e e' : End × Nat} {ends : List (End × Nat)} :
    e ∈ ends.filter (· ≠ e') ↔ e ∈ ends ∧ e ≠ e' := by
  simp [List.mem_filter]

/-- A process that goes on with the same pipes and the same ends. -/
theorem OpenEnds.same {c c' : Control} {ends : List (End × Nat)}
    (h : OpenEnds pid makers ⟨⟨r, c⟩, ends⟩) (hpipes : c'.pipes = c.pipes)
    (hwritable : c'.writable = c.writable) (hold : ∀ i path, c ≠ .start i path)
    (hstart : ∀ i path, c' ≠ .start i path) (hended : ∀ o, c' ≠ .ended o)
    (hunsent : c'.unsent = true → c.unsent = true) : OpenEnds pid makers ⟨⟨r, c'⟩, ends⟩ :=
  h.goto (hpipes ▸ List.suffix_rfl) hstart hended (List.Subset.refl _)
    (fun _ hi => ⟨hwritable ▸ hi, id⟩) (fun _ _ => id) (fun _ _ hi => hwritable ▸ hi)
    (fun i _ hi => hpipes ▸ hi.resolve_left fun hc => hold i hc.choose hc.choose_spec)
    fun hc => ⟨hunsent hc, fun _ _ => id⟩

/-- A call of `getDirSize` makes a pipe. -/
theorem OpenEnds.called {ends : List (End × Nat)} {size : U64} {entries : List Path}
    (h : OpenEnds pid makers ⟨⟨r, .call path callers⟩, ends⟩) :
    OpenEnds pid (makers ++ [pid])
      ⟨⟨r, .loop ⟨path, size, makers.length, entries⟩ callers⟩,
        (.read, makers.length) :: (.write, makers.length) :: ends⟩ := by
  have hlt : ∀ i ∈ callers.map Frame.pipe, i < makers.length := fun i hi =>
    (List.getElem?_eq_some_iff.mp (h.mine i hi)).1
  have hlength : (makers ++ [pid]).length = makers.length + 1 := List.length_append
  constructor
  case latest => exact List.pairwise_cons.mpr ⟨hlt, h.latest⟩
  case mine =>
    intro i hi
    rcases List.mem_cons.mp hi with rfl | hi
    · exact List.getElem?_concat_length
    · rw [List.getElem?_append_left (hlt i hi)]
      exact h.mine i hi
  case later =>
    intro i hi
    obtain ⟨hmade, hlater⟩ := h.later i hi
    refine ⟨by omega, fun j hj => ?_⟩
    rcases List.mem_cons.mp hj with rfl | hj
    · exact hmade
    · exact hlater j hj
  case start => exact nofun
  case ended => exact nofun
  case held =>
    intro i hi
    rcases List.mem_cons.mp hi with rfl | hi
    · exact List.mem_cons_of_mem _ List.mem_cons_self
    · exact List.mem_cons_of_mem _ (List.mem_cons_of_mem _ (h.held i hi))
  case readable =>
    intro i hi
    rcases List.mem_cons.mp hi with rfl | hi
    · exact List.mem_cons_self
    · exact List.mem_cons_of_mem _ (List.mem_cons_of_mem _ (h.readable i hi))
  case write =>
    intro i hi
    simp only [List.mem_cons, Prod.mk.injEq, reduceCtorEq, false_and, true_and, false_or] at hi
    rcases hi with rfl | hi
    · exact Or.inr List.mem_cons_self
    · exact (h.write i hi).imp_right (List.mem_cons_of_mem _)
  case read =>
    intro i hi
    simp only [List.mem_cons, Prod.mk.injEq, reduceCtorEq, false_and, true_and, false_or] at hi
    rcases hi with rfl | hi
    · exact Or.inr (Or.inr List.mem_cons_self)
    · refine (h.read i hi).imp_right fun hc => Or.inr (List.mem_cons_of_mem _ ?_)
      exact hc.resolve_left nofun
  case reports =>
    intro _ i hi
    exact List.mem_cons_of_mem _ (List.mem_cons_of_mem _ (h.reports rfl i hi))

/-- The child of a fork reports to the latest pipe of its parent. -/
theorem OpenEnds.child {ends : List (End × Nat)} {d : Path} {size : U64} {entries : List Path}
    (h : OpenEnds pid makers ⟨⟨r, .loop ⟨d, size, i, entries⟩ callers⟩, ends⟩) (pid' : Nat) :
    OpenEnds pid' makers ⟨⟨some i, .start i path⟩, ends⟩ := by
  have hmade := (List.getElem?_eq_some_iff.mp (h.mine i List.mem_cons_self)).1
  have hlatest : ∀ j ∈ i :: callers.map Frame.pipe, j = i ∨ j < i := by
    intro j hj
    rcases List.mem_cons.mp hj with rfl | hj
    · exact Or.inl rfl
    · exact Or.inr ((List.pairwise_cons.mp h.latest).1 j hj)
  have hreport : ∀ r', r = some r' → r' < i := fun r' hr => (h.later r' hr).2 i List.mem_cons_self
  constructor
  case latest => exact List.Pairwise.nil
  case mine => exact fun _ hj => absurd hj List.not_mem_nil
  case later =>
    intro j hj
    obtain rfl := Option.some.inj hj
    exact ⟨hmade, fun _ hj => absurd hj List.not_mem_nil⟩
  case start =>
    intro j path' hc
    obtain ⟨rfl, _⟩ := Control.start.inj hc
    rfl
  case ended => exact nofun
  case held => exact fun _ hj => absurd hj List.not_mem_nil
  case readable => exact fun _ hj => absurd hj List.not_mem_nil
  case write =>
    intro j hj
    refine Or.inl ⟨i, rfl, ?_⟩
    rcases h.write j hj with ⟨r', hr, hle⟩ | hj
    · have := hreport r' hr
      omega
    · have := hlatest j hj
      omega
  case read =>
    intro j hj
    rcases h.read j hj with ⟨r', hr, hlt⟩ | ⟨_, hc⟩ | hj
    · have := hreport r' hr
      exact Or.inl ⟨i, rfl, by omega⟩
    · cases hc
    · rcases hlatest j hj with rfl | hlt
      · exact Or.inr (Or.inl ⟨path, rfl⟩)
      · exact Or.inl ⟨i, rfl, hlt⟩
  case reports =>
    intro _ j hj
    obtain rfl := Option.some.inj hj
    exact h.held i List.mem_cons_self

/-- The child closes the read end of the pipe it reports to. -/
theorem OpenEnds.started {ends : List (End × Nat)}
    (h : OpenEnds pid makers ⟨⟨r, .start i path⟩, ends⟩) :
    OpenEnds pid makers ⟨⟨r, .call path []⟩, ends.filter (· ≠ (.read, i))⟩ := by
  refine h.goto List.suffix_rfl nofun nofun (List.filter_subset_self _) (fun _ hj => ?_)
    (fun _ hj => ?_) (fun _ _ hj => hj) (fun j hj hc => ?_) (fun _ => ⟨rfl, fun j hj hends => ?_⟩)
  · exact absurd hj List.not_mem_nil
  · exact absurd hj List.not_mem_nil
  · rcases hc with ⟨_, hc⟩ | hc
    · obtain ⟨rfl, _⟩ := Control.start.inj hc
      exact absurd rfl (mem_filter_ne.mp hj).2
    · exact hc
  · exact mem_filter_ne.mpr ⟨hends, nofun⟩

/-- The loop is over, and the process closes the write end of its latest pipe. -/
theorem OpenEnds.looped {ends : List (End × Nat)}
    (h : OpenEnds pid makers ⟨⟨r, .loop f callers⟩, ends⟩) :
    OpenEnds pid makers ⟨⟨r, .drain f callers⟩, ends.filter (· ≠ (.write, f.pipe))⟩ := by
  refine h.goto List.suffix_rfl nofun nofun (List.filter_subset_self _) (fun j hj => ?_)
    (fun _ _ hends => mem_filter_ne.mpr ⟨hends, nofun⟩) (fun j hj hc => ?_)
    (fun j hj hc => hc.resolve_left nofun) (fun _ => ⟨rfl, fun j hj hends => ?_⟩)
  · refine ⟨List.mem_cons_of_mem _ hj, fun hends => mem_filter_ne.mpr ⟨hends, fun heq => ?_⟩⟩
    have := (List.pairwise_cons.mp h.latest).1 j hj
    obtain ⟨_, rfl⟩ := Prod.mk.inj heq
    omega
  · rcases List.mem_cons.mp hc with rfl | hc
    · exact absurd rfl (mem_filter_ne.mp hj).2
    · exact hc
  · refine mem_filter_ne.mpr ⟨hends, fun heq => ?_⟩
    have := (h.later j hj).2 f.pipe List.mem_cons_self
    obtain ⟨_, rfl⟩ := Prod.mk.inj heq
    omega

/-- A call of `getDirSize` is over, and the process closes the read end of its pipe. -/
theorem OpenEnds.finished {c : Control} {ends : List (End × Nat)}
    (h : OpenEnds pid makers ⟨⟨r, .finish f callers⟩, ends⟩)
    (hpipes : c.pipes = callers.map Frame.pipe) (hwritable : c.writable = callers.map Frame.pipe)
    (hstart : ∀ i path, c ≠ .start i path) (hended : ∀ o, c ≠ .ended o) :
    OpenEnds pid makers ⟨⟨r, c⟩, ends.filter (· ≠ (.read, f.pipe))⟩ := by
  refine h.goto (hpipes ▸ List.suffix_cons _ _) hstart hended (List.filter_subset_self _)
    (fun j hj => ?_) (fun j hj hends => ?_) (fun j hj hc => ?_) (fun j hj hc => ?_)
    (fun _ => ⟨rfl, fun j hj hends => ?_⟩)
  · have hj : j ∈ callers.map Frame.pipe := hwritable ▸ hj
    exact ⟨hj, fun hends => mem_filter_ne.mpr ⟨hends, nofun⟩⟩
  · have := (List.pairwise_cons.mp h.latest).1 j (hpipes ▸ hj)
    refine mem_filter_ne.mpr ⟨hends, fun heq => ?_⟩
    obtain ⟨_, rfl⟩ := Prod.mk.inj heq
    omega
  · exact hwritable ▸ hc
  · rcases List.mem_cons.mp (hc.resolve_left nofun) with rfl | hc
    · exact absurd rfl (mem_filter_ne.mp hj).2
    · exact hpipes ▸ hc
  · exact mem_filter_ne.mpr ⟨hends, nofun⟩

theorem openEnds_kept : Pipes.Kept (act fs) OpenEnds where
  more maker h := by
    constructor
    case latest => exact h.latest
    case mine =>
      intro i hi
      have hi := h.mine i hi
      rw [List.getElem?_append_left (List.getElem?_eq_some_iff.mp hi).1, hi]
    case later =>
      intro r hr
      rw [List.length_append]
      exact ⟨Nat.lt_add_right _ (h.later r hr).1, (h.later r hr).2⟩
    case start => exact h.start
    case ended => exact h.ended
    case held => exact h.held
    case readable => exact h.readable
    case write => exact h.write
    case read => exact h.read
    case reports => exact h.reports
  tau {pid makers p next} h hact := by
    obtain ⟨⟨r, c⟩, ends⟩ := p
    cases acts_of hact with
    | dots _ | link _ _ _ | file _ _ _ | other _ _ =>
        exact h.same rfl rfl nofun nofun nofun fun _ => rfl
  exit {pid makers p final} h hact := by
    obtain ⟨⟨r, c⟩, ends⟩ := p
    have hreport := fun i hi => (h.later i hi).1
    cases acts_of hact with
    | callFailed _ | entryFailed _ _ | printed | closed => exact openEnds_ended hreport
  pipe {pid makers p next} h hact := by
    obtain ⟨⟨r, c⟩, ends⟩ := p
    cases acts_of hact with
    | called _ _ _ => exact h.called
  parent {pid makers p child parent} h hact := by
    obtain ⟨⟨r, c⟩, ends⟩ := p
    cases acts_of hact with
    | dir _ _ _ => exact h.same rfl rfl nofun nofun nofun fun _ => rfl
  child {pid makers p child parent} h hact pid' _ := by
    obtain ⟨⟨r, c⟩, ends⟩ := p
    cases acts_of hact with
    | dir _ _ _ => exact h.child pid'
  close {pid makers p e i next} h hact := by
    obtain ⟨⟨r, c⟩, ends⟩ := p
    cases acts_of hact with
    | start => exact h.started
    | looped => exact h.looped
    | returned => exact h.finished rfl rfl nofun nofun
    | resumed => exact h.finished rfl rfl nofun nofun
    | sent =>
        refine h.goto List.suffix_rfl nofun nofun (List.filter_subset_self _) (fun _ hj => ?_)
          (fun _ hj => ?_) (fun _ _ hj => ?_) (fun j _ hj => ?_) nofun
        · exact absurd hj List.not_mem_nil
        · exact absurd hj List.not_mem_nil
        · exact hj
        · exact hj.resolve_left nofun
  write {pid makers p i v next killed} h hact := by
    obtain ⟨⟨r, c⟩, ends⟩ := p
    cases acts_of hact with
    | reported =>
        exact ⟨h.same rfl rfl nofun nofun nofun nofun,
          openEnds_ended fun i hi => (h.later i hi).1⟩
  read {pid makers p i next} h hact v := by
    obtain ⟨⟨r, c⟩, ends⟩ := p
    cases acts_of hact with
    | drain => cases v <;> exact h.same rfl rfl nofun nofun nofun fun _ => rfl

/-! ## No deadlock -/

theorem act_eq_none : act fs x = none ↔ ∃ o, x.control = .ended o := by
  obtain ⟨r, c⟩ := x
  constructor
  · intro h
    cases c with
    | ended o => exact ⟨o, rfl⟩
    | call path callers =>
        simp only [act] at h
        split at h <;> cases h
    | loop f callers =>
        obtain ⟨d, n, i, entries⟩ := f
        cases entries <;> cases h
    | finish f callers => cases callers <;> cases h
    | result size => cases r <;> cases h
    | start _ _ | drain _ _ | sent _ | closed => cases h
  · intro h
    obtain ⟨o, rfl⟩ := h
    rfl

/-- A process waits for results of its children, or for room in the pipe it reports to. -/
theorem waits_cases {e : End} (h : Waits (act fs) p e i) :
    (e = .read ∧ ∃ f callers, p.state.control = .drain f callers ∧ f.pipe = i) ∨
      (e = .write ∧ (∃ size, p.state.control = .result size) ∧ p.state.report = some i) := by
  obtain ⟨a, hact, hwaits⟩ := h
  obtain ⟨⟨r, c⟩, ends⟩ := p
  cases acts_of hact with
  | drain =>
      obtain ⟨rfl, rfl⟩ := Prod.mk.inj (Option.some.inj hwaits)
      exact Or.inl ⟨rfl, _, _, rfl, rfl⟩
  | reported =>
      obtain ⟨rfl, rfl⟩ := Prod.mk.inj (Option.some.inj hwaits)
      exact Or.inr ⟨rfl, ⟨_, rfl⟩, rfl⟩
  | _ => cases hwaits

/-- A process that has an earlier pipe than its own open waits at a later one, or to write to it. -/
theorem OpenEnds.waits_later {e : End} {j : Nat} (h : OpenEnds pid makers q)
    (hreport : ∃ r, q.state.report = some r ∧ i ≤ r) (hwaits : Waits (act fs) q e j) :
    i < j ∨ i = j ∧ e = .write := by
  obtain ⟨r, hr, hle⟩ := hreport
  rcases waits_cases hwaits with ⟨_, f, callers, hc, rfl⟩ | ⟨rfl, _, hr'⟩
  · have hown : f.pipe ∈ q.state.control.pipes := by
      rw [hc]
      exact List.mem_cons_self
    have := (h.later r hr).2 f.pipe hown
    omega
  · obtain rfl : r = j := Option.some.inj (hr.symm.trans hr')
    exact (Nat.lt_or_eq_of_le hle).imp_right fun heq => ⟨heq, rfl⟩

/-- A process that has a pipe of its own open waits at it, to read, or at a later one. -/
theorem OpenEnds.waits_own {e : End} {j : Nat} (h : OpenEnds pid makers q)
    (hown : i ∈ q.state.control.pipes) (hwaits : Waits (act fs) q e j) :
    i < j ∨ i = j ∧ e = .read := by
  have hlatest := h.latest
  rcases waits_cases hwaits with ⟨rfl, f, callers, hc, rfl⟩ | ⟨_, ⟨size, hc⟩, _⟩
  · rw [hc] at hown hlatest
    rcases List.mem_cons.mp hown with rfl | hown
    · exact Or.inr ⟨rfl, rfl⟩
    · exact Or.inl ((List.pairwise_cons.mp hlatest).1 i hown)
  · rw [hc] at hown
    cases hown

theorem writable_subset (c : Control) : c.writable ⊆ c.pipes := by
  cases c with
  | drain f callers | finish f callers => exact List.subset_cons_self _ _
  | _ => exact List.Subset.refl _

theorem inOrder (fs : FileSystem) (h : s.All OpenEnds) : Pipes.InOrder (act fs) s where
  closed p hp hact := by
    obtain ⟨pid, hpid⟩ := List.mem_iff_getElem?.mp hp
    obtain ⟨o, ho⟩ := act_eq_none.mp hact
    exact (h pid p hpid).ended o ho
  made p hp e i hwaits := by
    obtain ⟨pid, hpid⟩ := List.mem_iff_getElem?.mp hp
    rw [← Pipes.makers_length]
    rcases waits_cases hwaits with ⟨_, f, callers, hc, rfl⟩ | ⟨_, _, hr⟩
    · have hown : f.pipe ∈ p.state.control.pipes := by
        rw [hc]
        exact List.mem_cons_self
      exact (List.getElem?_eq_some_iff.mp ((h pid p hpid).mine _ hown)).1
    · exact ((h pid p hpid).later i hr).1
  order p hp q hq e i e' j hwaits hends hq_waits := by
    obtain ⟨pid, hpid⟩ := List.mem_iff_getElem?.mp hp
    obtain ⟨pid', hpid'⟩ := List.mem_iff_getElem?.mp hq
    have hp_ends := h pid p hpid
    have hq_ends := h pid' q hpid'
    rcases waits_cases hwaits with ⟨rfl, f, callers, hc, rfl⟩ | ⟨rfl, _, hr⟩
    · -- `p` reads from its latest pipe, and `q` can write to it
      rcases hq_ends.write f.pipe hends with hreport | hown
      · exact hq_ends.waits_later hreport hq_waits
      · have hmine := hq_ends.mine _ (writable_subset _ hown)
        have hlatest := hp_ends.latest
        rw [hp_ends.mine f.pipe (by rw [hc]; exact List.mem_cons_self)] at hmine
        obtain rfl := Option.some.inj hmine
        obtain rfl := Option.some.inj (hpid.symm.trans hpid')
        rw [hc] at hown hlatest
        exact absurd ((List.pairwise_cons.mp hlatest).1 _ hown) (Nat.lt_irrefl _)
    · -- `p` writes to the pipe of its parent, and `q` can read from it
      rcases hq_ends.read i hends with ⟨r, hr', hlt⟩ | ⟨path, hc⟩ | hown
      · have := hq_ends.waits_later (i := i + 1) ⟨r, hr', hlt⟩ hq_waits
        omega
      · rcases waits_cases hq_waits with ⟨_, _, _, hc', _⟩ | ⟨_, ⟨_, hc'⟩, _⟩
        · rw [hc] at hc'
          cases hc'
        · rw [hc] at hc'
          cases hc'
      · exact hq_ends.waits_own hown hq_waits

/-- What holds of the first process, before it does anything, holds of all. -/
theorem start_all {P : Nat → List Nat → Process State → Prop} {root : Path}
    (h : P 0 [] ⟨⟨none, .call root []⟩, []⟩) : (start root).All P := by
  intro pid p hp
  cases pid with
  | zero => exact Option.some.inj hp ▸ h
  | succ pid => cases hp

theorem openEnds_start (root : Path) : (start root).All OpenEnds :=
  start_all
    { latest := List.Pairwise.nil
      mine := fun _ hi => absurd hi List.not_mem_nil
      later := nofun
      start := nofun
      ended := nofun
      held := fun _ hi => absurd hi List.not_mem_nil
      readable := fun _ hi => absurd hi List.not_mem_nil
      write := fun _ hi => absurd hi List.not_mem_nil
      read := fun _ hi => absurd hi List.not_mem_nil
      reports := nofun }

/-- When no process can go on, all have ended. -/
theorem ended_of_stuck (h : s.All OpenEnds) (hcapacity : 0 < capacity)
    (hstuck : ∀ pid, step fs capacity s pid = none) (hp : p ∈ s.procs) :
    ∃ o, p.state.control = .ended o :=
  act_eq_none.mp ((inOrder fs h).ended hcapacity hstuck p hp)

end GemOS.MyDU
