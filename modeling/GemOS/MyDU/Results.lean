import Mathlib.Data.BitVec
import GemOS.MyDU.Termination

/-!
# The result of `getDirSize`

`callResult` is `getDirSize` without processes: a call that meets a failing system call has no
result, and the caller of a child without a result goes on without it. The processes come to the
same result in every order (`endsWith_callResult`). The invariant, `Accounts`, is an account for
each process: what its calls have added up, what the entries that they have not visited result in,
and what is still to come through their pipes make the result of the call it has started with.
-/

namespace GemOS.MyDU

open Pipes (Action End Process)

/-! ## `getDirSize` as a function -/

/-- What a call adds for an entry, from the results of the calls that it makes. -/
def entryResult (fs : FileSystem) (call : Path → Option U64) (e : Path) : Option U64 :=
  match fs.lstat e with
  | none => none
  | some .link => (fs.readlink e).bind fun target => call (target ++ fs.stale e)
  | some .dir => if fs.fork e then some ((call e).getD 0) else none
  | some .file => fs.stat e
  | some .other => some 0

/-- What a call adds for some entries. -/
def entriesResult (fs : FileSystem) (call : Path → Option U64) : List Path → Option U64
  | [] => some 0
  | e :: rest => (entryResult fs call e).bind fun size =>
      (entriesResult fs call rest).map (size + ·)

/-- What a call results in, from the results of the calls that it makes. -/
def bodyResult (fs : FileSystem) (call : Path → Option U64) (path : Path) : Option U64 :=
  (fs.stat path).bind fun size => (fs.opendir path).bind fun entries =>
    if fs.pipe path then (entriesResult fs call (entryPaths path entries)).map (size + ·) else none

/-- What a call results in, if its calls are less than `n` deep. -/
def callResult (fs : FileSystem) : Nat → Path → Option U64
  | 0, _ => none
  | n + 1, path => bodyResult fs (callResult fs n) path

/-- How the program ends for a result of its first call. -/
def outcomeOf : Option U64 → Outcome
  | some size => .exit 0 (some (.total size))
  | none => .exit (-1) (some .unable)

variable {fs : FileSystem} {x : State} {f g : Frame} {callers : List Frame} {c c' : Control}
variable {path root q name e : Path} {pid pid' i j capacity n m : Nat} {rest entries : List Path}
variable {size : U64} {call call' : Path → Option U64} {owed owed' : Nat → U64}
variable {s s' : Pipes.System State U64} {procs : List (Process State)} {p p' : Process State}
variable {r : Option Nat} {ends ends' : List (End × Nat)}

/-- An entry depends on the call that is made for it. -/
theorem entryResult_congr (h : ∀ q, calledFor fs e = some q → call q = call' q) :
    entryResult fs call e = entryResult fs call' e := by
  unfold entryResult
  cases hlstat : fs.lstat e with
  | none => rfl
  | some kind =>
      cases kind with
      | link =>
          cases hreadlink : fs.readlink e with
          | none => rfl
          | some target => exact h _ (calledFor_link hlstat hreadlink)
      | dir => rw [h e (calledFor_dir hlstat)]
      | file | other => rfl

theorem entriesResult_congr {es : List Path}
    (h : ∀ e ∈ es, entryResult fs call e = entryResult fs call' e) :
    entriesResult fs call es = entriesResult fs call' es := by
  induction es with
  | nil => rfl
  | cons e rest ih =>
      rw [entriesResult, entriesResult, h e List.mem_cons_self,
        ih fun e he => h e (List.mem_cons_of_mem _ he)]

theorem bodyResult_congr
    (h : ∀ e ∈ listing fs path, entryResult fs call e = entryResult fs call' e) :
    bodyResult fs call path = bodyResult fs call' path := by
  refine Option.bind_congr fun size _ => Option.bind_congr fun entries hopendir => ?_
  rw [entriesResult_congr (listing_eq hopendir ▸ h)]

/-- A depth that is large enough changes nothing. -/
theorem callResult_stable (h : Shallow fs n path) (hle : n ≤ m) :
    callResult fs m path = callResult fs n path := by
  induction n generalizing m path with
  | zero => exact h.elim
  | succ n ih =>
      obtain ⟨m, rfl⟩ := Nat.exists_eq_add_of_le' (Nat.lt_of_lt_of_le n.succ_pos hle)
      exact bodyResult_congr fun e he => entryResult_congr fun q hq => ih (h e he q hq) (by omega)

/-- The result of a call from those of the calls it makes. -/
theorem callResult_eq (h : Shallow fs n path) :
    callResult fs n path = bodyResult fs (callResult fs n) path := by
  cases n with
  | zero => exact h.elim
  | succ n =>
      exact bodyResult_congr fun e he => entryResult_congr fun q hq =>
        (callResult_stable (h e he q hq) n.le_succ).symm

theorem bodyResult_eq (hstat : fs.stat path = some size)
    (hopendir : fs.opendir path = some entries) (hpipe : fs.pipe path = true) :
    bodyResult fs call path =
      (entriesResult fs call (entryPaths path entries)).map (size + ·) := by
  rw [bodyResult, hstat, hopendir, Option.bind_some, Option.bind_some, if_pos hpipe]

theorem bodyResult_of_fails (h : CallFails fs path) : bodyResult fs call path = none := by
  rcases h with h | h | h
  · rw [bodyResult, h, Option.bind_none]
  · simp only [bodyResult, h, Option.bind_none, Option.bind_fun_none]
  · simp only [bodyResult, h, Bool.false_eq_true, if_false, Option.bind_fun_none]

theorem callResult_of_fails (h : CallFails fs path) : callResult fs n path = none := by
  cases n with
  | zero => rfl
  | succ n => exact bodyResult_of_fails h

theorem entryResult_of_fails (h : EntryFails fs e) : entryResult fs call e = none := by
  rcases h with h | ⟨hlstat, h⟩ | ⟨hlstat, h⟩ | ⟨hlstat, h⟩
  · rw [entryResult, h]
  · simp only [entryResult, hlstat, h, Option.bind_none]
  · simp only [entryResult, hlstat, h, Bool.false_eq_true, if_false]
  · simp only [entryResult, hlstat, h]

theorem entryResult_link {target : Path} (hlstat : fs.lstat e = some .link)
    (hreadlink : fs.readlink e = some target) :
    entryResult fs call e = call (target ++ fs.stale e) := by
  simp only [entryResult, hlstat, hreadlink, Option.bind_some]

theorem entryResult_dir (hlstat : fs.lstat e = some .dir) (hfork : fs.fork e = true) :
    entryResult fs call e = some ((call e).getD 0) := by
  simp only [entryResult, hlstat, hfork, if_true]

theorem entryResult_file (hlstat : fs.lstat e = some .file) :
    entryResult fs call e = fs.stat e := by
  simp only [entryResult, hlstat]

theorem entryResult_other (hlstat : fs.lstat e = some .other) :
    entryResult fs call e = some 0 := by
  simp only [entryResult, hlstat]

/-! ## Accounts -/

/-- What a call adds for the entries that it has not visited. -/
def Frame.pending (fs : FileSystem) (n : Nat) (f : Frame) : Option U64 :=
  entriesResult fs (callResult fs n) (entryPaths f.dirPath f.entries)

/-- What the callers come to, from the result of the call that they wait for and what is still to
come through the pipes. -/
def resume (fs : FileSystem) (n : Nat) (owed : Nat → U64) : List Frame → U64 → Option U64
  | [], size => some size
  | g :: callers, size => (g.pending fs n).bind fun more =>
      resume fs n owed callers (g.dirSize + size + more + owed g.pipe)

/-- What a process comes to. -/
def Control.comesTo (fs : FileSystem) (n : Nat) (owed : Nat → U64) : Control → Option U64
  | .start _ path => callResult fs n path
  | .call path callers => (callResult fs n path).bind (resume fs n owed callers)
  | .loop f callers => (f.pending fs n).bind fun more =>
      resume fs n owed callers (f.dirSize + more + owed f.pipe)
  | .drain f callers => resume fs n owed callers (f.dirSize + owed f.pipe)
  | .finish f callers => resume fs n owed callers f.dirSize
  | .result size => some size
  | _ => none

/-- The directory of the first of the calls that a process has made. -/
def outermost : Path → List Frame → Path
  | path, [] => path
  | _, g :: callers => outermost g.dirPath callers

/-- The result of the call that a process has started with, as long as it has one to report. -/
def Control.goal (fs : FileSystem) (n : Nat) : Control → Option U64
  | .start _ path => callResult fs n path
  | .call path callers => callResult fs n (outermost path callers)
  | .loop f callers | .drain f callers | .finish f callers =>
      callResult fs n (outermost f.dirPath callers)
  | .result size => some size
  | _ => none

/-- What a process will write to a pipe. -/
def owes (fs : FileSystem) (n : Nat) (i : Nat) (x : State) : U64 :=
  if x.report = some i then (x.control.goal fs n).getD 0 else 0

/-- The pipes that a process reads from, or will read from after its loops. -/
def Control.reading : Control → List Nat
  | .loop f callers | .drain f callers => f.pipe :: callers.map Frame.pipe
  | .call _ callers | .finish _ callers => callers.map Frame.pipe
  | _ => []

/-- The accounts of all processes; the first one is on the way to the result, or has ended. -/
structure Accounts (fs : FileSystem) (n : Nat) (root : Path) (procs : List (Process State))
    (owed : Nat → U64) : Prop where
  balanced : ∀ p ∈ procs, p.state.control.comesTo fs n owed = p.state.control.goal fs n
  first : ∀ p, procs[0]? = some p → p.state.report = none ∧
    (p.state.control.unsent = true → p.state.control.goal fs n = callResult fs n root) ∧
    (p.state.control.unsent = false → p.state.control = .ended (outcomeOf (callResult fs n root)))

/-- The accounts of a system, with what is still to come through its pipes. -/
def Accounted (fs : FileSystem) (n : Nat) (root : Path) (s : Pipes.System State U64) : Prop :=
  Accounts fs n root s.procs (s.owed (owes fs n))

/-- What is to come through other pipes does not matter. -/
theorem resume_congr (size : U64) (howed : ∀ i ∈ callers.map Frame.pipe, owed' i = owed i) :
    resume fs n owed' callers size = resume fs n owed callers size := by
  induction callers generalizing size with
  | nil => rfl
  | cons g callers ih =>
      rw [List.map_cons] at howed
      rw [resume, resume, howed g.pipe List.mem_cons_self]
      exact Option.bind_congr fun more _ => ih _ fun i hi => howed i (List.mem_cons_of_mem _ hi)

theorem comesTo_congr (howed : ∀ i ∈ c.reading, owed' i = owed i) :
    c.comesTo fs n owed' = c.comesTo fs n owed := by
  cases c with
  | call path callers => exact Option.bind_congr fun size _ => resume_congr size howed
  | loop f callers =>
      rw [Control.comesTo, Control.comesTo, howed f.pipe List.mem_cons_self]
      exact Option.bind_congr fun more _ =>
        resume_congr _ fun i hi => howed i (List.mem_cons_of_mem _ hi)
  | drain f callers =>
      rw [Control.comesTo, Control.comesTo, howed f.pipe List.mem_cons_self]
      exact resume_congr _ fun i hi => howed i (List.mem_cons_of_mem _ hi)
  | finish f callers => exact resume_congr _ howed
  | _ => rfl

/-- The next entry of a loop. -/
theorem comesTo_cons {d : Path} (hdots : isDots name = false) :
    (Control.loop ⟨d, size, i, name :: rest⟩ callers).comesTo fs n owed =
      (entryResult fs (callResult fs n) (entryPath d name)).bind fun more =>
        (Control.loop ⟨d, size + more, i, rest⟩ callers).comesTo fs n owed := by
  rw [Control.comesTo, Frame.pending, entryPaths_cons hdots, entriesResult, Option.bind_assoc]
  refine Option.bind_congr fun a _ => ?_
  rw [Option.bind_map, Control.comesTo, Frame.pending]
  refine Option.bind_congr fun more _ => ?_
  rw [Function.comp_apply, add_assoc size a more]

/-! ## Changes of one account -/

/-- Process `pid` goes on as `p'`. -/
theorem Accounts.set (h : Accounts fs n root procs owed) (hp : procs[pid]? = some p)
    (hbalanced : p'.state.control.comesTo fs n owed' = p'.state.control.goal fs n)
    (hothers : ∀ pid' q, procs[pid']? = some q → pid' ≠ pid →
      ∀ i ∈ q.state.control.reading, owed' i = owed i)
    (hreport : p'.state.report = p.state.report)
    (hunsent : p'.state.control.unsent = true →
      p.state.control.unsent = true ∧ p'.state.control.goal fs n = p.state.control.goal fs n)
    (hfirst : pid = 0 → p'.state.control.unsent = false →
      p'.state.control = .ended (outcomeOf (callResult fs n root))) :
    Accounts fs n root (procs.set pid p') owed' := by
  constructor
  case balanced =>
    intro q hq
    obtain ⟨pid', hpid'⟩ := List.mem_iff_getElem?.mp hq
    rw [List.getElem?_set] at hpid'
    split_ifs at hpid' with hpid
    · exact Option.some.inj hpid' ▸ hbalanced
    · rw [comesTo_congr (hothers pid' q hpid' (Ne.symm hpid))]
      exact h.balanced q (List.mem_of_getElem? hpid')
  case first =>
    intro q hq
    rw [List.getElem?_set] at hq
    split_ifs at hq with hpid
    · obtain rfl := Option.some.inj hq
      subst hpid
      obtain ⟨hnone, hgoal, _⟩ := h.first p hp
      refine ⟨hreport.trans hnone, fun hc => ?_, hfirst rfl⟩
      exact (hunsent hc).2.trans (hgoal (hunsent hc).1)
    · exact h.first q hq

/-- A child that is new. -/
theorem Accounts.child (h : Accounts fs n root procs owed)
    (hbalanced : p.state.control.comesTo fs n owed = p.state.control.goal fs n)
    (hne : procs ≠ []) : Accounts fs n root (procs ++ [p]) owed := by
  constructor
  case balanced =>
    intro q hq
    rcases List.mem_append.mp hq with hq | hq
    · exact h.balanced q hq
    · exact List.mem_singleton.mp hq ▸ hbalanced
  case first =>
    intro q hq
    rw [List.getElem?_append_left (List.length_pos_iff.mpr hne)] at hq
    exact h.first q hq

/-! ## Who reads, and what is owed -/

theorem goal_of_sent (h : c.unsent = false) : c.goal fs n = none := by
  cases c with
  | sent _ | closed | ended _ => rfl
  | _ => cases h

theorem owes_none : owes fs n i ⟨none, c⟩ = 0 :=
  if_neg nofun

/-- A process that keeps its result owes as much as before. -/
theorem owes_congr (h : c'.goal fs n = c.goal fs n) (i : Nat) :
    owes fs n i ⟨r, c'⟩ = owes fs n i ⟨r, c⟩ := by
  simp only [owes, h]

theorem reading_subset (c : Control) : c.reading ⊆ c.pipes := by
  cases c with
  | finish f callers => exact List.subset_cons_self _ _
  | _ => exact List.Subset.refl _

/-- Only the process that has made a pipe reads from it. -/
theorem reading_unique (hends : s.All OpenEnds) (hp : s.procs[pid]? = some p)
    (hreading : i ∈ p.state.control.reading) (hp' : s.procs[pid']? = some p')
    (hreading' : i ∈ p'.state.control.reading) : pid' = pid := by
  have hmine := (hends pid p hp).mine i (reading_subset _ hreading)
  have hmine' := (hends pid' p' hp').mine i (reading_subset _ hreading')
  exact Option.some.inj (hmine'.symm.trans hmine)

/-- Nothing is to come through an empty pipe that nobody has to report to. -/
theorem owed_eq_zero (hvalues : s.values i = [])
    (hnobody : ∀ q ∈ s.procs, q.state.control.unsent = true → q.state.report ≠ some i) :
    s.owed (owes fs n) i = 0 := by
  have howes : ∀ q ∈ s.procs, owes fs n i q.state = 0 := by
    intro q hq
    unfold owes
    split_ifs with hreport
    · rw [goal_of_sent]
      · rfl
      · by_contra hunsent
        exact hnobody q hq (Bool.not_eq_false _ ▸ hunsent) hreport
    · rfl
  rw [Pipes.System.owed, hvalues, List.map_congr_left howes]
  simp

/-! ## Every step keeps the accounts -/

/-- A process goes on to the same result, while nothing happens to the pipes. -/
theorem Accounted.goto {a : Action State U64} (h : Accounted fs n root s)
    (hp : s.procs[pid]? = some ⟨⟨r, c⟩, ends⟩) (hact : act fs ⟨r, c⟩ = some a)
    (hcomes : c'.comesTo fs n (s.owed (owes fs n)) = c.comesTo fs n (s.owed (owes fs n)))
    (hgoal : c'.goal fs n = c.goal fs n) (hunsent : c'.unsent = c.unsent) :
    Accounted fs n root (s.put pid ⟨⟨r, c'⟩, ends'⟩) := by
  have howed : (s.put pid ⟨⟨r, c'⟩, ends'⟩).owed (owes fs n) = s.owed (owes fs n) :=
    funext fun i => Pipes.owed_put hp (owes_congr hgoal i)
  have hbalanced := h.balanced _ (List.mem_of_getElem? hp)
  rw [Accounted, howed]
  refine h.set hp (hcomes.trans (hbalanced.trans hgoal.symm)) (fun _ _ _ _ _ _ => rfl) rfl
    (fun hc => ⟨hunsent ▸ hc, hgoal⟩) fun hpid hc => ?_
  -- the first process has not ended yet
  subst hpid
  have hended : act fs ⟨r, c⟩ = none :=
    act_eq_none.mpr ⟨_, (h.first _ hp).2.2 (hunsent ▸ hc)⟩
  rw [hended] at hact
  cases hact

/-- A process fails, and has no result. -/
theorem Accounted.failed (h : Accounted fs n root s) (hp : s.procs[pid]? = some ⟨⟨r, c⟩, ends⟩)
    (hunsent : c.unsent = true) (hnone : c.comesTo fs n (s.owed (owes fs n)) = none) :
    Accounted fs n root (s.put pid ⟨⟨r, unable⟩, []⟩) := by
  have hgoal : unable.goal fs n = c.goal fs n :=
    hnone.symm.trans (h.balanced _ (List.mem_of_getElem? hp))
  have howed : (s.put pid ⟨⟨r, unable⟩, []⟩).owed (owes fs n) = s.owed (owes fs n) :=
    funext fun i => Pipes.owed_put hp (owes_congr hgoal i)
  rw [Accounted, howed]
  refine h.set hp rfl (fun _ _ _ _ _ _ => rfl) rfl (fun hc => absurd hc Bool.false_ne_true)
    fun hpid _ => ?_
  subst hpid
  rw [← (h.first _ hp).2.1 hunsent, ← hgoal]
  rfl

/-- The first process prints the result. -/
theorem Accounted.printed (h : Accounted fs n root s)
    (hp : s.procs[pid]? = some ⟨⟨none, .result size⟩, ends⟩) :
    Accounted fs n root (s.put pid ⟨⟨none, .ended (.exit 0 (some (.total size)))⟩, []⟩) := by
  have howed : (s.put pid ⟨⟨none, .ended (.exit 0 (some (.total size)))⟩, []⟩).owed (owes fs n) =
      s.owed (owes fs n) :=
    funext fun i => Pipes.owed_put hp (owes_none.trans owes_none.symm)
  rw [Accounted, howed]
  refine h.set hp rfl (fun _ _ _ _ _ _ => rfl) rfl (fun hc => absurd hc Bool.false_ne_true)
    fun hpid _ => ?_
  subst hpid
  rw [← (h.first _ hp).2.1 rfl]
  rfl

/-- A call makes a pipe, which is empty and which nobody reports to yet. -/
theorem Accounted.called (hends : s.All OpenEnds) (h : Accounted fs n root s)
    (hp : s.procs[pid]? = some ⟨⟨r, .call path callers⟩, ends⟩) (hshallow : Shallow fs n path)
    (hstat : fs.stat path = some size) (hopendir : fs.opendir path = some entries)
    (hpipe : fs.pipe path = true) (hprocs : s'.procs = s.procs.set pid
      ⟨⟨r, .loop ⟨path, size, s.pipes.length, entries⟩ callers⟩, ends'⟩)
    (hpipes : s'.pipes = s.pipes ++ [⟨pid, []⟩]) : Accounted fs n root s' := by
  have howed : s'.owed (owes fs n) = s.owed (owes fs n) :=
    funext fun i => Pipes.owed_pipe hp (owes_congr rfl i) hprocs hpipes
  have hnone : s.owed (owes fs n) s.pipes.length = 0 := by
    refine owed_eq_zero ?_ fun q hq _ hreport => ?_
    · rw [Pipes.System.values, List.getElem?_eq_none (Nat.le_refl _)]
      rfl
    · obtain ⟨pid', hpid'⟩ := List.mem_iff_getElem?.mp hq
      have hlt := ((hends pid' q hpid').later _ hreport).1
      rw [Pipes.makers_length] at hlt
      exact Nat.lt_irrefl _ hlt
  have hcomes : (Control.loop ⟨path, size, s.pipes.length, entries⟩ callers).comesTo fs n
      (s.owed (owes fs n)) = (Control.call path callers).comesTo fs n (s.owed (owes fs n)) := by
    rw [Control.comesTo, Control.comesTo, callResult_eq hshallow,
      bodyResult_eq hstat hopendir hpipe, Option.bind_map]
    refine Option.bind_congr fun more _ => ?_
    rw [hnone, add_zero]
    rfl
  have hbalanced := h.balanced _ (List.mem_of_getElem? hp)
  rw [Accounted, howed, hprocs]
  exact h.set hp (hcomes.trans hbalanced) (fun _ _ _ _ _ _ => rfl) rfl (fun _ => ⟨rfl, rfl⟩)
    fun _ hc => absurd hc.symm Bool.false_ne_true

/-- A child takes over one entry of its parent. -/
theorem Accounted.forked (hends : s.All OpenEnds) (h : Accounted fs n root s)
    (hp : s.procs[pid]? = some ⟨⟨r, .loop ⟨path, size, i, name :: rest⟩ callers⟩, ends⟩)
    (hdots : isDots name = false) (hlstat : fs.lstat (entryPath path name) = some .dir)
    (hfork : fs.fork (entryPath path name) = true)
    (hprocs : s'.procs = s.procs.set pid ⟨⟨r, .loop ⟨path, size, i, rest⟩ callers⟩, ends⟩ ++
      [⟨⟨some i, .start i (entryPath path name)⟩, ends⟩])
    (hpipes : s'.pipes = s.pipes) : Accounted fs n root s' := by
  have hlt := (List.getElem?_eq_some_iff.mp hp).1
  have howed : ∀ j, s'.owed (owes fs n) j = s.owed (owes fs n) j +
      if i = j then (callResult fs n (entryPath path name)).getD 0 else 0 := by
    intro j
    rw [Pipes.owed_fork hp (owes_congr rfl j) hprocs hpipes]
    simp only [owes, Option.some.injEq]
    rfl
  have hlatest := List.pairwise_cons.mp (hends pid _ hp).latest
  rw [Accounted, hprocs]
  refine Accounts.child (h.set hp ?_ ?_ rfl (fun _ => ⟨rfl, rfl⟩)
    fun _ hc => absurd hc.symm Bool.false_ne_true) rfl ?_
  · -- what the child will send is what the parent does not visit any more
    have hbalanced := h.balanced _ (List.mem_of_getElem? hp)
    rw [comesTo_cons hdots, entryResult_dir hlstat hfork, Option.bind_some] at hbalanced
    refine Eq.trans ?_ hbalanced
    refine Option.bind_congr fun more _ => ?_
    rw [resume_congr _ fun j hj => ?_]
    · congr 1
      show size + more + s'.owed (owes fs n) i =
        size + (callResult fs n (entryPath path name)).getD 0 + more + s.owed (owes fs n) i
      rw [howed, if_pos rfl]
      ac_rfl
    · rw [howed, if_neg (Nat.ne_of_gt (hlatest.1 j hj)), add_zero]
  · intro pid' q hq hne j hj
    have hother : i ≠ j := fun heq =>
      hne (reading_unique hends hp (heq ▸ List.mem_cons_self) hq hj)
    rw [howed, if_neg hother, add_zero]
  · refine List.ne_nil_of_length_pos ?_
    rw [List.length_set]
    exact Nat.zero_lt_of_lt hlt

/-- A child writes its result into the pipe of its parent. -/
theorem Accounted.reported (hends : s.All OpenEnds) (h : Accounted fs n root s)
    (hp : s.procs[pid]? = some ⟨⟨some i, .result size⟩, ends⟩) :
    Accounted fs n root
      ((s.put pid ⟨⟨some i, .sent i⟩, ends⟩).putValues i (s.values i ++ [size])) := by
  have hlt := ((hends pid _ hp).later i rfl).1
  rw [Pipes.makers_length] at hlt
  have howed : ((s.put pid ⟨⟨some i, .sent i⟩, ends⟩).putValues i (s.values i ++ [size])).owed
      (owes fs n) = s.owed (owes fs n) := by
    funext j
    refine Pipes.owed_write hp (List.getElem?_eq_getElem hlt) fun j => ?_
    simp only [owes, Option.some.injEq, Control.goal, Option.getD_none, Option.getD_some, ite_self,
      add_zero, eq_comm]
  rw [Accounted, howed]
  refine h.set hp rfl (fun _ _ _ _ _ _ => rfl) rfl (fun hc => absurd hc Bool.false_ne_true)
    fun hpid _ => ?_
  subst hpid
  exact absurd (h.first _ hp).1 (Option.some_ne_none _)

/-- A result is lost only if nobody reads it. -/
theorem Accounted.killed (hends : s.All OpenEnds) (h : Accounted fs n root s)
    (hp : s.procs[pid]? = some ⟨⟨some i, .result size⟩, ends⟩) (hnone : ¬ s.Holds .read i) :
    Accounted fs n root (s.put pid ⟨⟨some i, .ended .sigpipe⟩, []⟩) := by
  refine h.set hp rfl (fun pid' q hq _ j hj => ?_) rfl (fun hc => absurd hc Bool.false_ne_true)
    fun hpid _ => ?_
  · have hother : i ≠ j := by
      rintro rfl
      have hread := (hends pid' q hq).readable i (reading_subset _ hj)
      exact hnone ⟨q, List.mem_of_getElem? hq, hread⟩
    have howes (c : Control) : owes fs n j ⟨some i, c⟩ = 0 :=
      if_neg fun heq => hother (Option.some.inj heq)
    exact Pipes.owed_put hp ((howes _).trans (howes _).symm)
  · subst hpid
    exact absurd (h.first _ hp).1 (Option.some_ne_none _)

/-- The parent adds a result to its own. -/
theorem Accounted.received (hends : s.All OpenEnds) (h : Accounted fs n root s)
    (hp : s.procs[pid]? = some ⟨⟨r, .drain f callers⟩, ends⟩) {values : List U64}
    (hvalues : s.values f.pipe = size :: values) :
    Accounted fs n root
      ((s.put pid ⟨⟨r, .drain { f with dirSize := f.dirSize + size } callers⟩, ends⟩).putValues
        f.pipe values) := by
  have howed : ∀ i, (if i = f.pipe then size else 0) + ((s.put pid
      ⟨⟨r, .drain { f with dirSize := f.dirSize + size } callers⟩, ends⟩).putValues
        f.pipe values).owed (owes fs n) i = s.owed (owes fs n) i :=
    fun i => Pipes.owed_read hp hvalues (owes_congr rfl i)
  have hlatest := List.pairwise_cons.mp (hends pid _ hp).latest
  refine h.set hp ?_ ?_ rfl (fun _ => ⟨rfl, rfl⟩) fun _ hc => absurd hc.symm Bool.false_ne_true
  · have hbalanced := h.balanced _ (List.mem_of_getElem? hp)
    refine Eq.trans ?_ hbalanced
    rw [Control.comesTo, Control.comesTo, resume_congr _ fun i hi => ?_]
    · congr 1
      show f.dirSize + size + Pipes.System.owed _ _ f.pipe = _
      rw [← howed f.pipe, if_pos rfl, add_assoc]
    · rw [← howed i, if_neg (Nat.ne_of_lt (hlatest.1 i hi)), zero_add]
  · intro pid' q hq hne i hi
    have hother : i ≠ f.pipe := fun heq =>
      hne (reading_unique hends hp (heq ▸ List.mem_cons_self) hq hi)
    rw [← howed i, if_neg hother, zero_add]

/-- The parent sees the end of the file, so nothing is still to come. -/
theorem Accounted.drained (hends : s.All OpenEnds) (h : Accounted fs n root s)
    (hp : s.procs[pid]? = some ⟨⟨r, .drain f callers⟩, ends⟩) (hvalues : s.values f.pipe = [])
    (hnone : ¬ s.Holds .write f.pipe) :
    Accounted fs n root (s.put pid ⟨⟨r, .finish f callers⟩, ends⟩) := by
  have hnobody : ∀ q ∈ s.procs, q.state.control.unsent = true →
      q.state.report ≠ some f.pipe := by
    intro q hq hunsent hreport
    obtain ⟨pid', hpid'⟩ := List.mem_iff_getElem?.mp hq
    exact hnone ⟨q, hq, (hends pid' q hpid').reports hunsent f.pipe hreport⟩
  refine h.goto hp rfl ?_ rfl rfl
  rw [Control.comesTo, Control.comesTo, owed_eq_zero hvalues hnobody, add_zero]

/-- What every step keeps, if the calls have a depth. -/
structure AddsUp (fs : FileSystem) (n : Nat) (root : Path) (s : Pipes.System State U64) :
    Prop where
  shallow : s.All fun _ _ p => p.state.control.Shallow fs n
  accounted : Accounted fs n root s

theorem AddsUp.accounted_step (hs : AddsUp fs n root s) (hends : s.All OpenEnds)
    (hstep : step fs capacity s pid = some s') : Accounted fs n root s' := by
  obtain ⟨hshallow, h⟩ := hs
  obtain ⟨⟨⟨r, c⟩, ends⟩, hp, hmoved⟩ := Pipes.step_moved hstep
  have hcalls := hshallow pid _ hp
  have hbalanced := h.balanced _ (List.mem_of_getElem? hp)
  cases hmoved with
  | tau hact =>
      cases acts_of hact with
      | dots hdots =>
          refine h.goto hp hact ?_ rfl rfl
          rw [Control.comesTo, Control.comesTo, Frame.pending, Frame.pending, entryPaths_dots hdots]
      | link hdots hlstat hreadlink =>
          refine h.goto hp hact ?_ rfl rfl
          rw [comesTo_cons hdots, entryResult_link hlstat hreadlink]
          rfl
      | file hdots hlstat hstat =>
          refine h.goto hp hact ?_ rfl rfl
          rw [comesTo_cons hdots, entryResult_file hlstat, hstat, Option.bind_some]
      | other hdots hlstat =>
          refine h.goto hp hact ?_ rfl rfl
          rw [comesTo_cons hdots, entryResult_other hlstat, Option.bind_some, add_zero]
  | exit hact =>
      cases acts_of hact with
      | callFailed hfails =>
          refine h.failed hp rfl ?_
          rw [Control.comesTo, callResult_of_fails hfails, Option.bind_none]
      | entryFailed hdots hfails =>
          refine h.failed hp rfl ?_
          rw [comesTo_cons hdots, entryResult_of_fails hfails, Option.bind_none]
      | printed => exact h.printed hp
      | closed => exact h.goto hp hact rfl rfl rfl
  | pipe hact =>
      cases acts_of hact with
      | called hstat hopendir hpipe =>
          exact h.called hends hp hcalls.1 hstat hopendir hpipe rfl rfl
  | fork hact =>
      cases acts_of hact with
      | dir hdots hlstat hfork => exact h.forked hends hp hdots hlstat hfork rfl rfl
  | close hact =>
      cases acts_of hact with
      | start =>
          refine h.goto hp hact ?_ rfl rfl
          exact Option.bind_fun_some _
      | looped =>
          refine h.goto hp hact ?_ rfl rfl
          rw [Control.comesTo, Control.comesTo, Frame.pending, entryPaths, List.filter_nil,
            List.map_nil, entriesResult, Option.bind_some, add_zero]
      | returned => exact h.goto hp hact rfl hbalanced rfl
      | resumed => exact h.goto hp hact rfl rfl rfl
      | sent => exact h.goto hp hact rfl rfl rfl
  | killed hact hnone =>
      cases acts_of hact with
      | reported => exact h.killed hends hp hnone
  | write hact _ _ =>
      cases acts_of hact with
      | reported => exact h.reported hends hp
  | read hact hvalues =>
      cases acts_of hact with
      | drain => exact h.received hends hp hvalues
  | eof hact hvalues hnone =>
      cases acts_of hact with
      | drain => exact h.drained hends hp hvalues hnone

theorem AddsUp.step (hs : AddsUp fs n root s) (hends : s.All OpenEnds)
    (hstep : MyDU.step fs capacity s pid = some s') : AddsUp fs n root s' :=
  ⟨shallow_kept.step hs.shallow hstep, hs.accounted_step hends hstep⟩

/-! ## Runs -/

theorem accounted_start (fs : FileSystem) (n : Nat) (root : Path) :
    Accounted fs n root (start root) := by
  constructor
  case balanced =>
    intro p hp
    obtain rfl := List.mem_singleton.mp hp
    exact Option.bind_fun_some _
  case first =>
    intro p hp
    obtain rfl := Option.some.inj hp
    exact ⟨rfl, fun _ => rfl, nofun⟩

/-- In every order of the processes, the program ends as the function does. -/
theorem endsWith_callResult (hshallow : Shallow fs n root) (hcapacity : 0 < capacity) :
    EndsWith fs capacity root (· = outcomeOf (callResult fs n root)) := by
  refine endsWith_of_invariant (FiniteCalls.bounded ⟨n, hshallow⟩ capacity) hcapacity
    (fun s pid s' hends hs hstep => AddsUp.step hs hends hstep)
    ⟨shallow_start hshallow, accounted_start fs n root⟩ ?_
  intro s p o hs hp ho
  have hended : p.state.control.unsent = false := by rw [ho]; rfl
  have hresult := (hs.accounted.first p hp).2.2 hended
  exact Control.ended.inj (ho.symm.trans hresult)

/-- The program prints a total exactly if the function has it as its result. -/
theorem endsWith_total_iff (hshallow : Shallow fs n root) (hcapacity : 0 < capacity) :
    EndsWith fs capacity root (· = .exit 0 (some (.total size))) ↔
      callResult fs n root = some size := by
  have hends := endsWith_callResult hshallow hcapacity
  constructor
  · intro htotal
    by_contra hne
    refine htotal.not_both hends fun o ho hresult => hne ?_
    rw [ho] at hresult
    cases hcall : callResult fs n root with
    | none =>
        rw [hcall] at hresult
        cases hresult
    | some size' =>
        rw [hcall] at hresult
        obtain ⟨_, hline⟩ := Outcome.exit.inj hresult
        exact congrArg some (Line.total.inj (Option.some.inj hline)).symm
  · intro hcall
    rw [hcall] at hends
    exact hends

end GemOS.MyDU
