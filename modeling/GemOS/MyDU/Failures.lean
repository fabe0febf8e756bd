import Mathlib.Logic.Relation
import GemOS.MyDU.Results

/-!
# Failing system calls

A process that fails prints an error and exits, and its parent does not notice: it reads the results
of the other children, sees the end of the file, and prints or sends a total. So `callResult` has no
result, and the program reports a failure, exactly if a call of the first process fails
(`endsWith_topFails`).
-/

namespace GemOS.MyDU

open Relation (ReflTransGen)

/-- A system call of `getDirSize` for a path, or for one of the entries there, fails. -/
def FailsAt (fs : FileSystem) (path : Path) : Prop :=
  CallFails fs path ∨ ∃ e ∈ listing fs path, EntryFails fs e

/-- `getDirSize` calls itself or forks a child for an entry. -/
def Calls (fs : FileSystem) (path q : Path) : Prop :=
  ∃ e ∈ listing fs path, calledFor fs e = some q

/-- `getDirSize` calls itself for an entry, in the same process. -/
def LinksTo (fs : FileSystem) (path q : Path) : Prop :=
  ∃ e ∈ listing fs path, fs.lstat e = some .link ∧ calledFor fs e = some q

/-- A system call fails somewhere in the tree. -/
def Fails (fs : FileSystem) (root : Path) : Prop :=
  ∃ path, ReflTransGen (Calls fs) root path ∧ FailsAt fs path

/-- A system call of the first process fails: for the root, or for a directory that is reached from
there through symbolic links alone. -/
def TopFails (fs : FileSystem) (root : Path) : Prop :=
  ∃ path, ReflTransGen (LinksTo fs) root path ∧ FailsAt fs path

/-- The program prints an error, and no total, and exits with -1. -/
def ReportsFailure (fs : FileSystem) (capacity : Nat) (root : Path) : Prop :=
  EndsWith fs capacity root (· = .exit (-1) (some .unable))

variable {fs : FileSystem} {path q e : Path} {call : Path → Option U64} {capacity n : Nat}

theorem LinksTo.calls (h : LinksTo fs path q) : Calls fs path q := by
  obtain ⟨e, he, _, hq⟩ := h
  exact ⟨e, he, hq⟩

/-- A failure of the first process is a failure. -/
theorem TopFails.fails (h : TopFails fs path) : Fails fs path := by
  obtain ⟨q, hq, hfails⟩ := h
  exact ⟨q, ReflTransGen.mono (fun _ _ => LinksTo.calls) _ _ hq, hfails⟩

/-! ## Failures that a process will meet -/

/-- A system call for an entry fails, in the same process. -/
def EntryTopFails (fs : FileSystem) (e : Path) : Prop :=
  EntryFails fs e ∨ fs.lstat e = some .link ∧ ∃ q, calledFor fs e = some q ∧ TopFails fs q

/-- The failures of a call are those before the loop and those of the entries. -/
theorem topFails_iff : TopFails fs path ↔
    CallFails fs path ∨ ∃ e ∈ listing fs path, EntryTopFails fs e := by
  constructor
  · intro h
    obtain ⟨q, hq, hfails⟩ := h
    rcases hq.cases_head with rfl | ⟨p, ⟨e, he, hlink, hp⟩, hq⟩
    · exact hfails.imp_right fun ⟨e, he, hfails⟩ => ⟨e, he, Or.inl hfails⟩
    · exact Or.inr ⟨e, he, Or.inr ⟨hlink, p, hp, q, hq, hfails⟩⟩
  · intro h
    rcases h with hfails | ⟨e, he, hfails | ⟨hlink, p, hp, q, hq, hfails⟩⟩
    · exact ⟨path, .refl, Or.inl hfails⟩
    · exact ⟨path, .refl, Or.inr ⟨e, he, hfails⟩⟩
    · exact ⟨q, .head ⟨e, he, hlink, hp⟩ hq, hfails⟩

theorem entryResult_eq_none_iff : entryResult fs call e = none ↔ EntryFails fs e ∨
    fs.lstat e = some .link ∧ ∃ q, calledFor fs e = some q ∧ call q = none := by
  unfold entryResult EntryFails calledFor
  cases hlstat : fs.lstat e with
  | none => simp
  | some kind =>
      cases kind with
      | link => cases hreadlink : fs.readlink e <;> simp
      | dir => cases hfork : fs.fork e <;> simp
      | file | other => simp

theorem entriesResult_eq_none_iff {es : List Path} :
    entriesResult fs call es = none ↔ ∃ e ∈ es, entryResult fs call e = none := by
  induction es with
  | nil => simp [entriesResult]
  | cons e rest ih =>
      rw [entriesResult, Option.bind_eq_none_iff, List.exists_mem_cons_iff, ← ih]
      cases hentry : entryResult fs call e with
      | none => simp
      | some size => simp

theorem bodyResult_eq_none_iff : bodyResult fs call path = none ↔
    CallFails fs path ∨ ∃ e ∈ listing fs path, entryResult fs call e = none := by
  by_cases hfails : CallFails fs path
  · simp [bodyResult_of_fails hfails, hfails]
  · rw [or_iff_right hfails]
    simp only [CallFails, not_or, Option.ne_none_iff_exists', Bool.not_eq_false] at hfails
    obtain ⟨⟨size, hstat⟩, ⟨entries, hopendir⟩, hpipe⟩ := hfails
    rw [bodyResult_eq hstat hopendir hpipe, Option.map_eq_none_iff, entriesResult_eq_none_iff,
      listing_eq hopendir]

/-- A call has no result exactly if a system call fails in its process. -/
theorem callResult_eq_none_iff (h : Shallow fs n path) :
    callResult fs n path = none ↔ TopFails fs path := by
  induction n generalizing path with
  | zero => exact h.elim
  | succ n ih =>
      rw [callResult, bodyResult_eq_none_iff, topFails_iff]
      refine or_congr_right (exists_congr fun e => and_congr_right fun he => ?_)
      rw [entryResult_eq_none_iff, EntryTopFails]
      refine or_congr_right (and_congr_right fun _ => exists_congr fun q => ?_)
      exact and_congr_right fun hq => ih (h e he q hq)

/-! ## Which failures are reported -/

theorem EndsWith.imp {good good' : Outcome → Prop} (h : EndsWith fs capacity path good)
    (himp : ∀ o, good o → good' o) : EndsWith fs capacity path good' where
  bounded := h.bounded
  outcome pids s hrun hstuck := by
    obtain ⟨p, o, hp, ho, hgood⟩ := h.outcome pids s hrun hstuck
    exact ⟨p, o, hp, ho, himp o hgood⟩

/-- The first process ends as its own system calls let it. -/
theorem endsWith_topFails (hfinite : FiniteCalls fs path) (hcapacity : 0 < capacity) :
    EndsWith fs capacity path fun o => TopFails fs path ∧ o = .exit (-1) (some .unable) ∨
      ¬ TopFails fs path ∧ ∃ size, o = .exit 0 (some (.total size)) := by
  obtain ⟨n, hshallow⟩ := hfinite
  refine (endsWith_callResult hshallow hcapacity).imp fun o ho => ?_
  have hnone := callResult_eq_none_iff hshallow
  cases hcall : callResult fs n path with
  | none =>
      rw [hcall] at ho
      exact Or.inl ⟨hnone.mp hcall, ho⟩
  | some size =>
      rw [hcall] at ho
      refine Or.inr ⟨fun htop => ?_, size, ho⟩
      rw [hnone.mpr htop] at hcall
      cases hcall

/-- A failure somewhere in the tree is reported, in every order of the processes, exactly if one of
the failing calls is made by the first process. -/
theorem reports_failure_iff (hfinite : FiniteCalls fs path) (hcapacity : 0 < capacity) :
    (Fails fs path → ReportsFailure fs capacity path) ↔ (Fails fs path → TopFails fs path) := by
  have hends := endsWith_topFails hfinite hcapacity
  constructor
  · intro hreports hfails
    by_contra htop
    refine (hreports hfails).not_both hends fun o ho h => ?_
    rcases h with h | ⟨_, size, hsize⟩
    · exact htop h.1
    · rw [ho] at hsize
      cases hsize
  · intro htop hfails
    exact hends.imp fun o ho => (ho.resolve_right fun h => h.1 (htop hfails)).2

/-- The directory "a" has a directory "a/b" that cannot be opened. -/
def locked : FileSystem where
  stat _ := some 10
  lstat _ := some .dir
  opendir path := if path = [97] then some [[46], [98]] else none
  readlink _ := none
  stale _ := []
  pipe _ := true
  fork _ := true

theorem locked_finite : FiniteCalls locked [97] := by
  refine ⟨2, fun e he q hq => ?_⟩
  obtain rfl : e = [97, 47, 98] := List.mem_singleton.mp he
  obtain rfl : [97, 47, 98] = q := Option.some.inj hq
  exact fun e he => absurd he List.not_mem_nil

theorem reports_failure_sample :
    (Fails locked [97] → ReportsFailure locked 8192 [97]) ↔
      (Fails locked [97] → TopFails locked [97]) :=
  reports_failure_iff locked_finite (by decide)

/-- The child for "a/b" fails, and the program prints the size of "a" alone. -/
theorem loses_failure : Fails locked [97] ∧ ¬ ReportsFailure locked 8192 [97] := by
  constructor
  · refine ⟨[97, 47, 98], .single ⟨[97, 47, 98], by decide, rfl⟩, Or.inl (Or.inr (Or.inl ?_))⟩
    decide
  · intro h
    have hrun : Runs.run (step locked 8192) (start [97]) [0, 0, 0, 1, 1, 0, 0, 0, 0] =
        some ⟨[⟨⟨none, .ended (.exit 0 (some (.total 10)))⟩, []⟩, ⟨⟨some 0, unable⟩, []⟩],
          [⟨0, []⟩]⟩ := rfl
    obtain ⟨p, o, hp, ho, hgood⟩ :=
      h.outcome _ _ hrun (Pipes.stuck_of_ended (by simp [act, unable]))
    obtain rfl := Option.some.inj hp
    obtain rfl := Control.ended.inj ho
    cases hgood

end GemOS.MyDU
