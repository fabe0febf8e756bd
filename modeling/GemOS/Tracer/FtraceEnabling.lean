import GemOS.Tracer.FtraceRuns

/-!
# Enabling over runs of `do_ftrace`

`do_ftrace` takes a function for enabled when the first saved byte is not 0. Over a run, that byte
is not 0 exactly if the function has been enabled since it was added (`EnabledBefore`), whether or
not it has been disabled since. `Tracks.step` is the step lemma.
-/

namespace GemOS.Tracer

open LinkedList

/-- The actions that enable a function. -/
def enablingActions : List U64 :=
  [ENABLE_FTRACE, ENABLE_BACKTRACE]

/-- A successful enabling call for `faddr`. -/
def Enables (entry : FtraceCall × Int) (faddr : U64) : Prop :=
  entry.2 = 0 ∧ entry.1.action ∈ enablingActions ∧ entry.1.faddr = faddr

/-- The function has been enabled, and not been removed since. -/
def EnabledBefore (log : FtraceLog) (faddr : U64) : Prop :=
  ∃ before entry later, log = before ++ entry :: later ∧ Enables entry faddr ∧
    ∀ e ∈ later, ¬ Removes e faddr

theorem not_enabledBefore_nil (faddr : U64) : ¬ EnabledBefore [] faddr := by
  intro h
  obtain ⟨before, entry, later, hlog, _⟩ := h
  simp at hlog

/-- A later entry enables, or leaves what was enabled before. -/
theorem enabledBefore_concat (log : FtraceLog) (entry : FtraceCall × Int) (faddr : U64) :
    EnabledBefore (log ++ [entry]) faddr ↔
      Enables entry faddr ∨ EnabledBefore log faddr ∧ ¬ Removes entry faddr := by
  constructor
  · intro h
    obtain ⟨before, first, later, hlog, henables, hkept⟩ := h
    rcases List.eq_nil_or_concat' later with rfl | ⟨later', last, rfl⟩
    · obtain ⟨_, hfirst⟩ := List.append_inj' hlog rfl
      obtain rfl := List.singleton_inj.mp hfirst
      exact Or.inl henables
    · rw [← List.cons_append, ← List.append_assoc] at hlog
      obtain ⟨rfl, hlast⟩ := List.append_inj' hlog rfl
      obtain rfl := List.singleton_inj.mp hlast
      exact Or.inr ⟨⟨before, first, later', rfl, henables,
        fun e he => hkept e (List.mem_append_left _ he)⟩, hkept _ (by simp)⟩
  · intro h
    rcases h with henables | ⟨⟨before, first, later, rfl, henables, hkept⟩, hremoves⟩
    · exact ⟨log, entry, [], rfl, henables, fun e he => absurd he List.not_mem_nil⟩
    · refine ⟨before, first, later ++ [entry], by simp, henables, ?_⟩
      intro e he
      rcases List.mem_append.mp he with he | he
      · exact hkept e he
      · obtain rfl := List.mem_singleton.mp he
        exact hremoves

/-! ## The invariant -/

/-- The first code byte of every function is not 0, and the first saved byte of a registration is
not 0 exactly if its function has been enabled before. -/
structure Tracks (functions : List U64) (log : FtraceLog) (mem : UserMem)
    (regs : List (Nat × FtraceInfo)) : Prop where
  known : ∀ x ∈ regs, x.2.faddr ∈ functions
  code : ∀ f ∈ functions, mem f ≠ 0
  saved : ∀ x ∈ regs, x.2.codeBackup 0 ≠ 0 ↔ EnabledBefore log x.2.faddr
  registered : ∀ f, EnabledBefore log f → f ∈ functionsOf regs

/-- The first code byte. -/
theorem code_bytes_first (mem : UserMem) (faddr : U64) : codeBytes mem faddr 0 = mem faddr := by
  simp [codeBytes]

theorem patch_first (mem : UserMem) (faddr : U64) (bytes : Fin 4 → U8) :
    patch mem faddr bytes faddr = bytes 0 := by
  rw [← code_bytes_first (patch mem faddr bytes), code_bytes_patch]

/-- Restored code does not start with 0. -/
theorem restoreCode_first {mem : UserMem} {info : FtraceInfo} (hcode : mem info.faddr ≠ 0) :
    restoreCode mem info info.faddr ≠ 0 := by
  unfold restoreCode
  split_ifs with hsaved
  · rwa [patch_first]
  · exact hcode

/-- Nor does updated code. -/
theorem updateFtrace_first {mem : UserMem} {info : FtraceInfo} (action : U64)
    (hcode : mem info.faddr ≠ 0) : (updateFtrace action info mem).2 info.faddr ≠ 0 := by
  have hinvalid : invalidate mem info info.faddr ≠ 0 := by
    rw [invalidate, patch_first]
    decide
  unfold updateFtrace
  split_ifs
  · exact hinvalid
  · exact restoreCode_first hcode
  · exact hinvalid
  · exact hcode
  · exact restoreCode_first hcode
  · exact hcode

/-- Enabling saves bytes, and no other action changes the saved ones. -/
theorem updateFtrace_saved {mem : UserMem} {info : FtraceInfo} {action : U64}
    (hcode : mem info.faddr ≠ 0) : (updateFtrace action info mem).1.codeBackup 0 ≠ 0 ↔
      action ∈ enablingActions ∨ info.codeBackup 0 ≠ 0 := by
  have hsave : (info.save mem).codeBackup 0 ≠ 0 := by
    rw [← code_bytes_first mem info.faddr] at hcode
    exact hcode
  simp only [enablingActions, List.mem_cons, List.not_mem_nil, or_false]
  unfold updateFtrace
  split_ifs with henable hdisable hback hzero hunback
  · exact iff_of_true hsave (Or.inl (Or.inl henable))
  · rw [hdisable]
    exact (or_iff_right (by decide)).symm
  · exact iff_of_true hsave (Or.inl (Or.inr hback))
  · exact iff_of_true hzero (Or.inr hzero)
  · rw [hunback]
    exact (or_iff_right (by decide)).symm
  · exact (or_iff_right (not_or.mpr ⟨henable, hback⟩)).symm

variable {functions : List U64} {log : FtraceLog} {mem mem' : UserMem}
variable {regs regs' : List (Nat × FtraceInfo)} {call : FtraceCall} {ret : Int}

/-- The code of the other functions does not change. -/
theorem Tracks.code_after (h : Tracks functions log mem regs)
    (hapart : ∀ f ∈ functions, ∀ g ∈ functions, Apart f g) (hcall : call.faddr ∈ functions)
    (honly : OnlyCode call.faddr mem mem') (hself : mem' call.faddr ≠ 0) :
    ∀ f ∈ functions, mem' f ≠ 0 := by
  intro f hf
  by_cases heq : f = call.faddr
  · exact heq ▸ hself
  · have hsame := congrFun (honly.other (hapart f hf _ hcall) heq) 0
    rw [code_bytes_first, code_bytes_first] at hsame
    rw [hsame]
    exact h.code f hf

/-- A call that does not remove leaves what was enabled before. -/
theorem enabledBefore_kept (log : FtraceLog) (hremove : ¬ (ret = 0 ∧ call.action = REMOVE_FTRACE))
    (faddr : U64) : EnabledBefore (log ++ [(call, ret)]) faddr ↔
      Enables (call, ret) faddr ∨ EnabledBefore log faddr := by
  rw [enabledBefore_concat]
  exact or_congr_right (and_iff_left fun hremoves => hremove ⟨hremoves.1, hremoves.2.1⟩)

/-- Every call keeps the invariant. -/
theorem Tracks.step (h : Tracks functions log mem regs)
    (hapart : ∀ f ∈ functions, ∀ g ∈ functions, Apart f g) (hcall : call.faddr ∈ functions)
    (hnodup : (functionsOf regs).Nodup) (hchange : FtraceChange call mem regs ret regs' mem') :
    Tracks functions (log ++ [(call, ret)]) mem' regs' := by
  cases hchange with
  | rejected regs =>
      have hsame (f : U64) : EnabledBefore (log ++ [(call, -EINVAL)]) f ↔ EnabledBefore log f := by
        rw [enabledBefore_kept log fun hremove => neg_einval_ne_zero hremove.1]
        exact or_iff_right fun henables => neg_einval_ne_zero henables.1
      refine ⟨h.known, h.code, fun x hx => ?_, fun f hf => ?_⟩
      · rw [hsame]
        exact h.saved x hx
      · exact h.registered f ((hsame f).mp hf)
  | added regs node hargs haction hnew =>
      have hsame (f : U64) : EnabledBefore (log ++ [(call, 0)]) f ↔ EnabledBefore log f := by
        rw [enabledBefore_kept log fun hremove => absurd (haction.symm.trans hremove.2) (by decide)]
        refine or_iff_right fun henables => ?_
        have henabling := henables.2.1
        simp only [haction] at henabling
        exact absurd henabling (by decide)
      have hfresh : ¬ EnabledBefore log call.faddr := by
        intro hbefore
        exact not_registered.mpr hnew (h.registered _ hbefore)
      refine ⟨?_, h.code, ?_, fun f hf => ?_⟩
      · intro x hx
        rcases List.mem_append.mp hx with hx | hx
        · exact h.known x hx
        · obtain rfl := List.mem_singleton.mp hx
          exact hcall
      · intro x hx
        rw [hsame]
        rcases List.mem_append.mp hx with hx | hx
        · exact h.saved x hx
        · obtain rfl := List.mem_singleton.mp hx
          exact iff_of_false (not_not.mpr rfl) hfresh
      · rw [functionsOf, List.map_append]
        exact List.mem_append_left _ (h.registered f ((hsame f).mp hf))
  | removed pre post node info hargs haction hfaddr =>
      obtain ⟨hpre, hpost⟩ := ne_of_nodup hnodup
      have hothers : ∀ x ∈ pre ++ post, x ∈ pre ++ (node, info) :: post ∧
          x.2.faddr ≠ call.faddr := by
        intro x hx
        rcases List.mem_append.mp hx with hx | hx
        · exact ⟨List.mem_append_left _ hx, hfaddr ▸ hpre x hx⟩
        · exact ⟨List.mem_append_right _ (List.mem_cons_of_mem _ hx), hfaddr ▸ hpost x hx⟩
      have henables (f : U64) : ¬ Enables (call, 0) f := by
        intro henables
        have henabling := henables.2.1
        simp only [haction] at henabling
        exact absurd henabling (by decide)
      have hkept (f : U64) : EnabledBefore (log ++ [(call, 0)]) f ↔
          EnabledBefore log f ∧ f ≠ call.faddr := by
        rw [enabledBefore_concat, or_iff_right (henables f)]
        refine and_congr_right fun _ => not_congr ⟨fun hremoves => hremoves.2.2.symm, fun hf => ?_⟩
        exact ⟨rfl, haction, hf.symm⟩
      refine ⟨fun x hx => h.known x (hothers x hx).1,
        h.code_after hapart hcall (hfaddr ▸ only_code_restore mem info) ?_, ?_, fun f hf => ?_⟩
      · exact hfaddr ▸ restoreCode_first (h.code _ (hfaddr ▸ hcall))
      · intro x hx
        obtain ⟨hmem, hne⟩ := hothers x hx
        rw [hkept, and_iff_left hne]
        exact h.saved x hmem
      · obtain ⟨hbefore, hne⟩ := (hkept f).mp hf
        have hlisted := h.registered f hbefore
        simp only [functionsOf, List.map_append, List.map_cons, List.mem_append, List.mem_cons]
          at hlisted ⊢
        rcases hlisted with hlisted | rfl | hlisted
        · exact Or.inl hlisted
        · exact absurd hfaddr hne
        · exact Or.inr hlisted
  | updated pre post node info hargs hadd hremove hfaddr =>
      obtain ⟨hpre, hpost⟩ := ne_of_nodup hnodup
      have hkept (f : U64) : EnabledBefore (log ++ [(call, 0)]) f ↔
          Enables (call, 0) f ∨ EnabledBefore log f :=
        enabledBefore_kept log (fun h => hremove h.2) f
      have hcode : mem info.faddr ≠ 0 := h.code _ (hfaddr ▸ hcall)
      have hfunctions : functionsOf (pre ++ (node, (updateFtrace call.action info mem).1) :: post) =
          functionsOf (pre ++ (node, info) :: post) := by
        simp [functionsOf]
      have hothers : ∀ x, x ∈ pre ∨ x ∈ post →
          x ∈ pre ++ (node, info) :: post ∧ ¬ Enables (call, 0) x.2.faddr := by
        intro x hx
        rcases hx with hx | hx
        · exact ⟨by simp [hx], fun h => hpre x hx (h.2.2.symm.trans hfaddr.symm)⟩
        · exact ⟨by simp [hx], fun h => hpost x hx (h.2.2.symm.trans hfaddr.symm)⟩
      refine ⟨?_, h.code_after hapart hcall (hfaddr ▸ only_code_update call.action info mem) ?_,
        ?_, fun f hf => ?_⟩
      · intro x hx
        have hmem : x.2.faddr ∈ functionsOf (pre ++ (node, info) :: post) :=
          hfunctions ▸ List.mem_map_of_mem hx
        obtain ⟨y, hy, heq⟩ := List.mem_map.mp hmem
        exact heq ▸ h.known y hy
      · exact hfaddr ▸ updateFtrace_first call.action hcode
      · intro x hx
        rw [hkept]
        rcases List.mem_append.mp hx with hx | hx
        · obtain ⟨hmem, hne⟩ := hothers x (Or.inl hx)
          rw [or_iff_right hne]
          exact h.saved x hmem
        · rcases List.mem_cons.mp hx with rfl | hx
          · rw [updateFtrace_saved hcode, update_ftrace_faddr,
              h.saved (node, info) (by simp)]
            exact or_congr_left ⟨fun henabling => ⟨rfl, henabling, hfaddr.symm⟩, fun h => h.2.1⟩
          · obtain ⟨hmem, hne⟩ := hothers x (Or.inr hx)
            rw [or_iff_right hne]
            exact h.saved x hmem
      · rw [hfunctions]
        rcases (hkept f).mp hf with henables | hbefore
        · rw [← henables.2.2, ← hfaddr]
          simp [functionsOf]
        · exact h.registered f hbefore

/-! ## Enabling calls -/

/-- An enabling call has taken effect: all code bytes of the function are invalid, it is
registered, so that the fault of its next call is traced, and the call chain is captured if that
was asked for. -/
structure TakesEffect (call : FtraceCall) (k : Kernel) : Prop where
  code : ∀ i, codeBytes k.mem call.faddr i = INV_OPCODE
  registered : ∃ info, registration k call.faddr = some info ∧
    (call.action = ENABLE_BACKTRACE → info.captureBacktrace = 1)

/-- The condition on an enabling call: it is `ENABLE_FTRACE`, or the function has not been enabled
since it was added, or its code is patched at the time. -/
def PatchesCode (log : FtraceLog) (mem : UserMem) (call : FtraceCall) : Prop :=
  call.action = ENABLE_FTRACE ∨ ¬ EnabledBefore log call.faddr ∨
    ∀ i, codeBytes mem call.faddr i = INV_OPCODE

/-- A successful enabling call. -/
theorem Tracks.takesEffect_iff {k k' : Kernel} (hlisted : Listed k regs)
    (h : Tracks functions log k.mem regs) (haction : call.action ∈ enablingActions)
    (hrun : call.run k = some (0, k')) : TakesEffect call k' ↔ PatchesCode log k.mem call := by
  obtain ⟨ret, k'', regs', hrun', hlisted', hchange, _⟩ := do_ftrace_cases hlisted call
  obtain ⟨rfl, rfl⟩ : ret = 0 ∧ k'' = k' := by
    have := Option.some.inj (hrun'.symm.trans hrun)
    exact Prod.mk.inj this
  generalize hzero : (0 : Int) = ret at hchange
  generalize hmem' : k''.mem = mem' at hchange
  have hinvalid (info : FtraceInfo) (i : Fin 4) :
      codeBytes (invalidate k.mem info) info.faddr i = INV_OPCODE := by
    rw [invalidate, code_bytes_patch]
  simp only [enablingActions, List.mem_cons, List.not_mem_nil, or_false] at haction
  cases hchange with
  | rejected => exact absurd hzero (by decide)
  | added _ _ _ hadd => exact absurd hadd (by rcases haction with h | h <;> rw [h] <;> decide)
  | removed _ _ _ _ _ hremove =>
      exact absurd hremove (by rcases haction with h | h <;> rw [h] <;> decide)
  | updated pre post node info hargs hadd hremove hfaddr =>
      have hregistered : registration k'' call.faddr =
          some (updateFtrace call.action info k.mem).1 :=
        (hlisted'.registration_iff _ _).mpr ⟨node, by simp, by rw [update_ftrace_faddr, hfaddr]⟩
      have heffect : TakesEffect call k'' ↔
          ∀ i, codeBytes (updateFtrace call.action info k.mem).2 call.faddr i = INV_OPCODE := by
        refine ⟨fun h => hmem' ▸ h.code, fun hcode => ⟨hmem'.symm ▸ hcode, _, hregistered, ?_⟩⟩
        intro hback
        have hne : call.action ≠ ENABLE_FTRACE ∧ call.action ≠ DISABLE_FTRACE := by
          rw [hback]
          decide
        rw [updateFtrace, if_neg hne.1, if_neg hne.2, if_pos hback]
        split_ifs <;> rfl
      have hsaved := h.saved (node, info) (by simp)
      rw [hfaddr] at hsaved
      rw [heffect, PatchesCode, ← hsaved, not_not]
      by_cases henable : call.action = ENABLE_FTRACE
      · rw [updateFtrace, if_pos henable, ← hfaddr]
        exact iff_of_true (hinvalid info) (Or.inl henable)
      have hback := haction.resolve_left henable
      have hdisable : call.action ≠ DISABLE_FTRACE := by
        rw [hback]
        decide
      rw [or_iff_right henable, updateFtrace, if_neg henable, if_neg hdisable, if_pos hback]
      by_cases hfirst : info.codeBackup 0 = 0
      · rw [if_pos hfirst, ← hfaddr]
        exact iff_of_true (hinvalid info) (Or.inl hfirst)
      · rw [if_neg hfirst, or_iff_right hfirst]

/-- What holds between calls: the list is in order, and its registrations agree with the log. -/
def TracksLog (functions : List U64) (s : FtraceLog × Kernel) : Prop :=
  ∃ regs, Listed s.2 regs ∧ Tracks functions s.1 s.2.mem regs

/-- Every call of a run keeps that. -/
theorem tracksLog_step {s : FtraceLog × Kernel} (h : TracksLog functions s)
    (hapart : ∀ f ∈ functions, ∀ g ∈ functions, Apart f g) (hcall : call.faddr ∈ functions) :
    ∃ s', ftraceLogStep s call = some s' ∧ TracksLog functions s' := by
  obtain ⟨regs, hlisted, htracks⟩ := h
  obtain ⟨ret, k', regs', hrun, hlisted', hchange, _⟩ := do_ftrace_cases hlisted call
  refine ⟨(s.1 ++ [(call, ret)], k'), by rw [ftraceLogStep, hrun]; rfl, regs', hlisted', ?_⟩
  exact htracks.step hapart hcall hlisted.functions_nodup hchange

/-- After any run of `do_ftrace` calls on functions that are apart and whose code does not start
with 0, an enabling call that returns 0 takes effect exactly if it patches the code or finds it
patched. -/
theorem enabling_effective_iff {k : Kernel} (hnone : k.ctx.ftMdBase = none)
    {functions : List U64} (hapart : ∀ f ∈ functions, ∀ g ∈ functions, Apart f g)
    (hcode : ∀ f ∈ functions, codeBytes k.mem f 0 ≠ 0) {calls : List FtraceCall}
    (hcalls : ∀ call ∈ calls, call.faddr ∈ functions) :
    ∃ log k', Runs.run ftraceLogStep ([], k) calls = some (log, k') ∧
      ∀ (call : FtraceCall) (k'' : Kernel), call.action ∈ enablingActions →
        call.run k' = some (0, k'') → (TakesEffect call k'' ↔ PatchesCode log k'.mem call) := by
  have hstart : TracksLog functions ([], k) := by
    refine ⟨[], Or.inl ⟨hnone, rfl⟩, by simp, fun f hf => ?_, by simp, fun f hf => ?_⟩
    · rw [← code_bytes_first k.mem f]
      exact hcode f hf
    · exact absurd hf (not_enabledBefore_nil f)
  obtain ⟨⟨log, k'⟩, hrun, regs, hlisted, htracks⟩ :=
    Runs.run_invariant (P := fun _ (call : FtraceCall) => call.faddr ∈ functions)
      (fun s call hs hcall => tracksLog_step hs hapart hcall) hstart
      (Runs.AllSteps.of_forall hcalls)
  exact ⟨log, k', hrun, fun call k'' haction hcall => htracks.takesEffect_iff hlisted haction hcall⟩

/-- The function is enabled, and enabled again with its call chain. -/
theorem enabling_effective_sample :
    ∃ log k', Runs.run ftraceLogStep ([], untracedKernel)
        ([ADD_FTRACE, ENABLE_FTRACE].map sampleCall) = some (log, k') ∧
      ∀ (call : FtraceCall) (k'' : Kernel), call.action ∈ enablingActions →
        call.run k' = some (0, k'') → (TakesEffect call k'' ↔ PatchesCode log k'.mem call) := by
  have hapart : ∀ f ∈ [(0x100001000 : U64)], ∀ g ∈ [(0x100001000 : U64)], Apart f g := by
    intro f hf g hg
    exact Or.inl ((List.mem_singleton.mp hf).trans (List.mem_singleton.mp hg).symm)
  refine enabling_effective_iff rfl hapart (fun f hf => ?_) fun call hcall => ?_
  · obtain rfl := List.mem_singleton.mp hf
    decide
  · obtain ⟨action, _, rfl⟩ := List.mem_map.mp hcall
    exact List.mem_singleton.mpr rfl

/-- After enabling and disabling, `ENABLE_BACKTRACE` returns 0 and leaves the code as it is. -/
theorem backtrace_not_enabled :
    ∃ log k' k'', Runs.run ftraceLogStep ([], untracedKernel)
        ([ADD_FTRACE, ENABLE_FTRACE, DISABLE_FTRACE].map sampleCall) = some (log, k') ∧
      (sampleCall ENABLE_BACKTRACE).run k' = some (0, k'') ∧
      ¬ TakesEffect (sampleCall ENABLE_BACKTRACE) k'' := by
  refine ⟨_, _, _, rfl, rfl, fun h => ?_⟩
  exact absurd (h.code 0) (by decide)

end GemOS.Tracer
