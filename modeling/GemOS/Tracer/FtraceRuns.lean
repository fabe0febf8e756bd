import GemOS.Tracer.FtraceCode

/-!
# Registrations over runs of `do_ftrace`

Any run of calls is compared with the log of its answers: the functions on the list are the ones
whose addition the log does not undo (`standing`), in the order of the calls that added them.
`FtraceChange.ret` says which calls are refused, and `Recorded.step` is the step lemma.
-/

namespace GemOS.Tracer

open LinkedList

/-! ## Refusals -/

/-- A call fails exactly when it is refused, and answers 0 otherwise. -/
theorem FtraceChange.ret {call : FtraceCall} {mem mem' : UserMem}
    {regs regs' : List (Nat × FtraceInfo)} {ret : Int}
    (h : FtraceChange call mem regs ret regs' mem') :
    (call.Refused (functionsOf regs) ∧ ret = -EINVAL) ∨
      (¬ call.Refused (functionsOf regs) ∧ ret = 0) := by
  cases h with
  | rejected regs hrefused => exact Or.inl ⟨hrefused, rfl⟩
  | added regs node hargs haction hnew hroom =>
      refine Or.inr ⟨fun hrefused => hrefused.elim hargs ?_, rfl⟩
      rw [if_pos haction, functionsOf, List.length_map]
      exact fun hrefused => hrefused.elim (not_registered.mpr hnew) hroom
  | removed pre post node info hargs haction hfaddr =>
      have hadd : call.action ≠ ADD_FTRACE := by
        rw [haction]
        decide
      refine Or.inr ⟨fun hrefused => hrefused.elim hargs ?_, rfl⟩
      rw [if_neg hadd]
      exact fun habsent => habsent (by simp [functionsOf, hfaddr])
  | updated pre post node info hargs hadd hremove hfaddr =>
      refine Or.inr ⟨fun hrefused => hrefused.elim hargs ?_, rfl⟩
      rw [if_neg hadd]
      exact fun habsent => habsent (by simp [functionsOf, hfaddr])

/-! ## The log of a run -/

/-- The calls of a run and their answers, oldest first. -/
abbrev FtraceLog := List (FtraceCall × Int)

/-- One call, entered in the log. -/
def ftraceLogStep (s : FtraceLog × Kernel) (call : FtraceCall) : Option (FtraceLog × Kernel) :=
  (call.run s.2).map fun answer => (s.1 ++ [(call, answer.1)], answer.2)

/-- A successful `ADD_FTRACE`. -/
def Adds (entry : FtraceCall × Int) : Prop :=
  entry.2 = 0 ∧ entry.1.action = ADD_FTRACE

/-- A successful `REMOVE_FTRACE` of `faddr`. -/
def Removes (entry : FtraceCall × Int) (faddr : U64) : Prop :=
  entry.2 = 0 ∧ entry.1.action = REMOVE_FTRACE ∧ entry.1.faddr = faddr

instance (entry : FtraceCall × Int) : Decidable (Adds entry) :=
  inferInstanceAs (Decidable (_ ∧ _))

instance (entry : FtraceCall × Int) (faddr : U64) : Decidable (Removes entry faddr) :=
  inferInstanceAs (Decidable (_ ∧ _))

/-- The functions that were added and not removed later, in the order of the additions. -/
def standing : FtraceLog → List U64
  | [] => []
  | entry :: later =>
      if Adds entry ∧ ∀ e ∈ later, ¬ Removes e entry.1.faddr then
        entry.1.faddr :: standing later
      else standing later

/-- A later entry takes out what it removes and appends what it adds. -/
theorem standing_concat (log : FtraceLog) (entry : FtraceCall × Int) :
    standing (log ++ [entry]) =
      (standing log).filter (fun f => ¬ Removes entry f) ++
        if Adds entry then [entry.1.faddr] else [] := by
  induction log with
  | nil => simp [standing]
  | cons first log ih =>
      simp only [List.cons_append, standing, ih, List.forall_mem_append, List.forall_mem_singleton]
      by_cases hkept : Adds first ∧ ∀ e ∈ log, ¬ Removes e first.1.faddr
      · by_cases hremoved : Removes entry first.1.faddr
        · rw [if_neg fun h => h.2.2 hremoved, if_pos hkept]
          simp [hremoved]
        · rw [if_pos ⟨hkept.1, hkept.2, hremoved⟩, if_pos hkept]
          simp [hremoved]
      · rw [if_neg fun h => hkept ⟨h.1, h.2.1⟩, if_neg hkept]

/-- A call changes the registered functions as its entry in the log says. -/
theorem FtraceChange.recorded {call : FtraceCall} {mem mem' : UserMem}
    {regs regs' : List (Nat × FtraceInfo)} {ret : Int}
    (h : FtraceChange call mem regs ret regs' mem') (hnodup : (functionsOf regs).Nodup) :
    functionsOf regs' = (functionsOf regs).filter (fun f => ¬ Removes (call, ret) f) ++
      if Adds (call, ret) then [call.faddr] else [] := by
  have hkeep : ∀ fs : List U64, call.action ≠ REMOVE_FTRACE ∨ ret ≠ 0 →
      fs.filter (fun f => ¬ Removes (call, ret) f) = fs := by
    intro fs hno
    refine List.filter_eq_self.mpr fun f _ => decide_eq_true ?_
    intro hremoves
    exact hno.elim (fun h => h hremoves.2.1) (fun h => h hremoves.1)
  cases h with
  | rejected regs =>
      rw [hkeep _ (Or.inr neg_einval_ne_zero), if_neg (fun h => neg_einval_ne_zero h.1),
        List.append_nil]
  | added regs node hargs haction hnew =>
      rw [hkeep _ (Or.inl (by rw [haction]; decide)), if_pos ⟨rfl, haction⟩]
      simp [functionsOf, newFtraceInfo]
  | removed pre post node info hargs haction hfaddr =>
      obtain ⟨hpre, hpost⟩ := ne_of_nodup hnodup
      have hadds : ¬ Adds (call, 0) := by
        intro h
        exact absurd (haction.symm.trans h.2) (by decide)
      have hothers : ∀ xs : List (Nat × FtraceInfo), (∀ x ∈ xs, x.2.faddr ≠ info.faddr) →
          (functionsOf xs).filter (fun f => ¬ Removes (call, 0) f) = functionsOf xs := by
        intro xs hne
        refine List.filter_eq_self.mpr fun f hf => decide_eq_true fun hremoves => ?_
        obtain ⟨x, hx, rfl⟩ := List.mem_map.mp hf
        exact hne x hx (hremoves.2.2.symm.trans hfaddr.symm)
      have hself : Removes (call, 0) info.faddr := ⟨rfl, haction, hfaddr.symm⟩
      have hsplit : functionsOf (pre ++ (node, info) :: post) =
          functionsOf pre ++ info.faddr :: functionsOf post := by
        simp [functionsOf]
      rw [if_neg hadds, List.append_nil, hsplit, List.filter_append, hothers pre hpre,
        List.filter_cons_of_neg (by simpa using hself), hothers post hpost]
      simp [functionsOf]
  | updated pre post node info hargs hadd hremove hfaddr =>
      rw [hkeep _ (Or.inl hremove), if_neg (fun h => hadd h.2), List.append_nil]
      simp [functionsOf]

/-- The list of the process is the one its log describes, and it is not overfull. -/
def Matches (s : FtraceLog × Kernel) (regs : List (Nat × FtraceInfo)) : Prop :=
  Listed s.2 regs ∧ functionsOf regs = standing s.1 ∧ regs.length ≤ 16

/-- A call leaves at most 16 registrations. -/
theorem FtraceChange.length_le {call : FtraceCall} {mem mem' : UserMem}
    {regs regs' : List (Nat × FtraceInfo)} {ret : Int}
    (h : FtraceChange call mem regs ret regs' mem') (hlen : regs.length ≤ 16) :
    regs'.length ≤ 16 := by
  cases h with
  | rejected regs => exact hlen
  | added regs node hargs haction hnew hroom =>
      rw [List.length_append, List.length_singleton]
      omega
  | removed pre post node info hargs haction hfaddr =>
      simp only [List.length_append, List.length_cons] at hlen ⊢
      omega
  | updated pre post node info hargs hadd hremove hfaddr => simpa using hlen

/-- Every call keeps the list and its log in step. -/
theorem Matches.step {s : FtraceLog × Kernel} {regs : List (Nat × FtraceInfo)}
    (h : Matches s regs) (call : FtraceCall) :
    ∃ s' regs', ftraceLogStep s call = some s' ∧ Matches s' regs' := by
  obtain ⟨hlisted, hlog, hlen⟩ := h
  obtain ⟨ret, k', regs', hrun, hlisted', hchange, _⟩ := do_ftrace_cases hlisted call
  refine ⟨(s.1 ++ [(call, ret)], k'), regs', by rw [ftraceLogStep, hrun]; rfl, hlisted', ?_,
    hchange.length_le hlen⟩
  rw [standing_concat, ← hlog]
  exact hchange.recorded hlisted.functions_nodup

/-- Any run of calls ends, keeps the list and its log in step, and enters every call. -/
theorem ftrace_run_matches {s : FtraceLog × Kernel} {regs : List (Nat × FtraceInfo)}
    (h : Matches s regs) (calls : List FtraceCall) :
    ∃ s' regs', Runs.run ftraceLogStep s calls = some s' ∧ Matches s' regs' ∧
      s'.1.map Prod.fst = s.1.map Prod.fst ++ calls := by
  induction calls generalizing s regs with
  | nil => exact ⟨s, regs, rfl, h, by simp⟩
  | cons call calls ih =>
      obtain ⟨s₁, regs₁, hstep, h₁⟩ := h.step call
      obtain ⟨s', regs', hrun, h', hlog⟩ := ih h₁
      obtain ⟨answer, _, rfl⟩ := Option.map_eq_some_iff.mp hstep
      exact ⟨s', regs', by rw [Runs.run, hstep]; exact hrun, h', by simpa using hlog⟩

/-- A call that fails leaves the registrations and user memory alone. -/
theorem FtraceChange.of_failed {call : FtraceCall} {mem mem' : UserMem}
    {regs regs' : List (Nat × FtraceInfo)} {ret : Int}
    (h : FtraceChange call mem regs ret regs' mem') (hret : ret ≠ 0) :
    regs' = regs ∧ mem' = mem := by
  cases h with
  | rejected regs => exact ⟨rfl, rfl⟩
  | added | removed | updated => exact absurd rfl hret

/-- The end of the list as the list head keeps it: its last node. -/
theorem last_ptr_eq_getLast? {β : Type*} (xs : List (Nat × β)) :
    lastPtr none xs = (xs.map Prod.fst).getLast? := by
  rcases List.eq_nil_or_concat' xs with rfl | ⟨ys, x, rfl⟩
  · rfl
  · rw [lastPtr_concat, List.map_append, List.map_singleton, List.getLast?_append,
      List.getLast?_singleton, Option.some_or]

/-- The registrations after any run of calls, and what the next call does to them. The list
holds the functions that were added and not removed since, in the order of their additions; the
head keeps its length, at most 16, and its last node. `ADD_FTRACE` fails for a function on the
list and when 16 are registered, every other action for a function not on the list, and a
failing call changes no registration and no byte of user memory. -/
theorem ftrace_registrations_exact (k : Kernel) (hnone : k.ctx.ftMdBase = none)
    (calls : List FtraceCall) :
    ∃ log k' regs, Runs.run ftraceLogStep ([], k) calls = some (log, k') ∧
      log.map Prod.fst = calls ∧
      ((k'.ctx.ftMdBase = none ∧ regs = []) ∨
        ∃ base head, k'.ctx.ftMdBase = some base ∧ k'.ftraceHeads.cell base = some head ∧
          Seg k'.ftraceNodes head.next regs none ∧ head.count = regs.length ∧
          head.last = (regs.map Prod.fst).getLast? ∧ (head.last = none ↔ regs = [])) ∧
      functionsOf regs = standing log ∧ (functionsOf regs).Nodup ∧ regs.length ≤ 16 ∧
      ∀ call : FtraceCall, ∃ ret k'' regs', call.run k' = some (ret, k'') ∧ Listed k'' regs' ∧
        ((call.Refused (functionsOf regs) ∧ ret = -EINVAL ∧ regs' = regs ∧
            k''.mem = k'.mem) ∨
          (¬ call.Refused (functionsOf regs) ∧ ret = 0)) := by
  have hstart : Matches ([], k) [] := ⟨Or.inl ⟨hnone, rfl⟩, rfl, Nat.zero_le _⟩
  obtain ⟨⟨log, k'⟩, regs, hrun, ⟨hlisted, hlog, hlen⟩, hcalls⟩ :=
    ftrace_run_matches hstart calls
  refine ⟨log, k', regs, hrun, by simpa using hcalls, ?_, hlog, hlisted.functions_nodup, hlen,
    fun call => ?_⟩
  · rcases hlisted with hempty | ⟨base, head, hbase, hhead, hok⟩
    · exact Or.inl hempty
    · have hlast : head.last = (regs.map Prod.fst).getLast? := by
        rw [hok.last, last_ptr_eq_getLast?]
      refine Or.inr ⟨base, head, hbase, hhead, hok.seg, hok.count, hlast, ?_⟩
      rw [hlast, List.getLast?_eq_none_iff, List.map_eq_nil_iff]
  · obtain ⟨ret, k'', regs', hcall, hlisted', hchange, _⟩ := do_ftrace_cases hlisted call
    refine ⟨ret, k'', regs', hcall, hlisted', ?_⟩
    rcases hchange.ret with ⟨hrefused, hret⟩ | hmet
    · obtain ⟨hregs, hmem⟩ := hchange.of_failed (hret ▸ neg_einval_ne_zero)
      exact Or.inl ⟨hrefused, hret, hregs, hmem⟩
    · exact Or.inr hmet

/-- A call with arguments that `do_ftrace` accepts. -/
def plainCall (action faddr : U64) : FtraceCall :=
  { faddr := faddr, action := action, nargs := 1, fdTraceBuffer := 3 }

/-- Two functions are added, a third call names a function that is not there, and the first
function is removed: the second one is left. -/
theorem ftrace_registrations_sample :
    ∃ log k' regs,
      Runs.run ftraceLogStep ([], untracedKernel)
        [plainCall ADD_FTRACE 0x1000, plainCall ADD_FTRACE 0x2000, plainCall ENABLE_FTRACE 0x3000,
          plainCall REMOVE_FTRACE 0x1000] = some (log, k') ∧
      log.map Prod.snd = [0, 0, -EINVAL, 0] ∧ functionsOf regs = [0x2000] := by
  obtain ⟨log, k', regs, hrun, _, _, hregs, _⟩ := ftrace_registrations_exact untracedKernel rfl
    [plainCall ADD_FTRACE 0x1000, plainCall ADD_FTRACE 0x2000, plainCall ENABLE_FTRACE 0x3000,
      plainCall REMOVE_FTRACE 0x1000]
  have hlog : (Runs.run ftraceLogStep ([], untracedKernel)
      [plainCall ADD_FTRACE 0x1000, plainCall ADD_FTRACE 0x2000, plainCall ENABLE_FTRACE 0x3000,
        plainCall REMOVE_FTRACE 0x1000]).map (fun s => (s.1.map Prod.snd, standing s.1)) =
      some ([0, 0, -EINVAL, 0], [0x2000]) := by decide
  rw [hrun, Option.map_some, Option.some.injEq, Prod.mk.injEq] at hlog
  exact ⟨log, k', regs, hrun, hlog.1, hregs.trans hlog.2⟩

end GemOS.Tracer
