import GemOS.Tracer.FtraceEnabling
import GemOS.Tracer.Programs

/-!
# Tracing is transparent

The traced program and the observed one go side by side: the same registers, the same memory apart
from overwritten code, and a function is enabled exactly if its code is overwritten. An instruction
is an instruction on both sides, and a fault of a traced function is its first two instructions on
the observed side, with the record of its entry.
-/

namespace GemOS.Tracer

open LinkedList

variable {Rest : Type} {functions : List U64} {mem mem' plain : UserMem} {a f : U64}
variable {regs regs' : List (Nat × FtraceInfo)} {call : FtraceCall} {ret : Int} {info : FtraceInfo}
variable {cpu : Cpu Rest} {answer : Int → Rest → Rest} {fuel : Nat} {s s' : TracedProgram Rest}
variable {o : Observed Rest} {u u' : User Rest}

/-! ## Code -/

theorem mem_codeArea (hf : f ∈ functions) (i : Fin 4) :
    f + BitVec.ofNat 64 i ∈ codeArea functions :=
  ⟨f, hf, i, i.isLt, rfl⟩

theorem codeBytes_congr (h : Set.EqOn mem' mem (codeArea functions)) (hf : f ∈ functions) :
    codeBytes mem' f = codeBytes mem f :=
  funext fun i => h (mem_codeArea hf i)

/-- Only first bytes of a function change. -/
theorem OnlyCode.eqOn (h : OnlyCode f mem mem') (hf : f ∈ functions) :
    Set.EqOn mem' mem (codeArea functions)ᶜ := by
  intro a ha
  by_contra hne
  obtain ⟨i, hi, heq⟩ := h a hne
  exact ha ⟨f, hf, i, hi, heq⟩

/-- The memory of the traced program, and that of the program as it was compiled: functions may be
overwritten, and their saved code is the original one. -/
structure CodeShown (functions : List U64) (mem plain : UserMem)
    (regs : List (Nat × FtraceInfo)) : Prop where
  code : CodeInv plain functions mem regs fun _ => none
  compiled : ∀ f ∈ functions, codeBytes plain f = PROLOGUE
  patched : ∀ f ∈ functions, codeBytes mem f = PROLOGUE ∨ codeBytes mem f = fun _ => INV_OPCODE
  same : Set.EqOn mem plain (codeArea functions)ᶜ

theorem CodeShown.first (h : CodeShown functions mem plain regs) (hf : f ∈ functions) :
    codeBytes mem f = (fun _ => INV_OPCODE) ↔ mem f = INV_OPCODE := by
  rw [← code_bytes_first mem f]
  refine ⟨fun hcode => by rw [hcode], fun hfirst => ?_⟩
  rcases h.patched f hf with hcode | hcode
  · rw [hcode] at hfirst
    exact absurd hfirst (by decide)
  · exact hcode

/-- A function whose code is not overwritten. -/
theorem CodeShown.whole (h : CodeShown functions mem plain regs) (hf : f ∈ functions)
    (hfirst : mem f ≠ INV_OPCODE) : codeBytes mem f = PROLOGUE :=
  (h.patched f hf).resolve_right fun hcode => hfirst ((h.first hf).mp hcode)

/-- The memories agree apart from overwritten code. -/
theorem CodeShown.agree (h : CodeShown functions mem plain regs) :
    Set.EqOn plain mem (patchedArea functions mem)ᶜ := by
  intro a ha
  by_cases hcode : a ∈ codeArea functions
  · obtain ⟨f, hf, i, hi, rfl⟩ := hcode
    have hwhole := h.whole hf fun hfirst => ha ⟨f, hf, hfirst, i, hi, rfl⟩
    exact congrFun ((h.compiled f hf).trans hwhole.symm) ⟨i, hi⟩
  · exact (h.same hcode).symm

/-- The program has changed its memory, but no code. -/
theorem CodeShown.congr {plain' : UserMem} (h : CodeShown functions mem plain regs)
    (hmem : Set.EqOn mem' mem (codeArea functions))
    (hplain : Set.EqOn plain' plain (codeArea functions))
    (hsame : Set.EqOn mem' plain' (codeArea functions)ᶜ) :
    CodeShown functions mem' plain' regs := by
  have hcode : ∀ f ∈ functions, codeBytes mem' f = codeBytes mem f := fun f =>
    codeBytes_congr hmem
  have horig : ∀ f ∈ functions, codeBytes plain' f = codeBytes plain f := fun f =>
    codeBytes_congr hplain
  refine ⟨⟨h.code.known, fun x hx => ?_, fun f hf hnone => ?_, fun f hf hnone => ?_⟩,
    fun f hf => ?_, fun f hf => ?_, hsame⟩
  · have hf := h.code.known x hx
    have hbacked := h.code.backed x hx
    rw [horig _ hf]
    exact ⟨hbacked.saved, fun hzero => (hcode _ hf).trans (hbacked.unsaved hzero)⟩
  · rw [hcode f hf, horig f hf]
    exact h.code.unregistered f hf hnone
  · cases hnone
  · rw [horig f hf]
    exact h.compiled f hf
  · rw [hcode f hf]
    exact h.patched f hf

/-! ## Calls of `do_ftrace` -/

/-- What the observer knows of a registered function: it is enabled if its code is overwritten. -/
def probeOf (mem : UserMem) (info : FtraceInfo) : Probe :=
  ⟨info.faddr, info.numArgs, info.fd, mem info.faddr = INV_OPCODE, info.captureBacktrace = 1⟩

theorem probeOf_congr (h : mem' info.faddr = mem info.faddr) :
    probeOf mem' info = probeOf mem info := by
  rw [probeOf, probeOf, h]

/-- The conditions on a call, with the registrations at hand. -/
structure CallClear (functions : List U64) (mem : UserMem) (regs : List (Nat × FtraceInfo))
    (call : FtraceCall) : Prop where
  known : call.faddr ∈ functions
  enable : call.action = ENABLE_FTRACE → mem call.faddr ≠ INV_OPCODE
  backtrace : call.action = ENABLE_BACKTRACE → ∀ x ∈ regs, x.2.faddr = call.faddr →
    x.2.codeBackup 0 = 0 ∨ mem call.faddr = INV_OPCODE

/-- Restored code is the original one. -/
theorem CodeShown.restore (h : CodeShown functions mem plain regs) {x : Nat × FtraceInfo}
    (hx : x ∈ regs) : codeBytes (restoreCode mem x.2) x.2.faddr = PROLOGUE :=
  (h.code.backed x hx).restore.trans (h.compiled _ (h.code.known x hx))

/-- An update leaves the code overwritten, or as it was compiled. -/
theorem CodeShown.update (h : CodeShown functions mem plain regs) {x : Nat × FtraceInfo}
    (hx : x ∈ regs) (action : U64) :
    codeBytes (updateFtrace action x.2 mem).2 x.2.faddr = PROLOGUE ∨
      codeBytes (updateFtrace action x.2 mem).2 x.2.faddr = fun _ => INV_OPCODE := by
  have hinvalid : codeBytes (invalidate mem x.2) x.2.faddr = fun _ => INV_OPCODE :=
    code_bytes_patch _ _ _
  unfold updateFtrace
  split_ifs
  · exact Or.inr hinvalid
  · exact Or.inl (h.restore hx)
  · exact Or.inr hinvalid
  · exact h.patched _ (h.code.known x hx)
  · exact Or.inl (h.restore hx)
  · exact h.patched _ (h.code.known x hx)

/-- Saving bytes saves the original ones. -/
theorem CodeShown.saves (h : CodeShown functions mem plain regs)
    (hclear : CallClear functions mem regs call) {x : Nat × FtraceInfo} (hx : x ∈ regs)
    (hfaddr : x.2.faddr = call.faddr) : SavesOriginal call.action x.2 mem := by
  have hf := h.code.known x hx
  have hfirst : codeBytes mem x.2.faddr 0 ≠ 0 := by
    rcases h.patched _ hf with hcode | hcode
    · rw [hcode]
      decide
    · rw [hcode]
      decide
  refine ⟨fun henable => ⟨hfirst, ?_⟩, fun _ _ => hfirst⟩
  by_cases hzero : x.2.codeBackup 0 = 0
  · exact Or.inl hzero
  · right
    rw [(h.code.backed x hx).saved hzero, h.compiled _ hf]
    exact h.whole hf (hfaddr ▸ hclear.enable henable)

theorem CodeShown.afterCall (h : CodeShown functions mem plain regs)
    (hapart : ∀ f ∈ functions, ∀ g ∈ functions, Apart f g)
    (hclear : CallClear functions mem regs call) (hnodup : (functionsOf regs).Nodup)
    (hchange : FtraceChange call mem regs ret regs' mem') :
    CodeShown functions mem' plain regs' := by
  have hinv := h.code.step hapart hclear.known hnodup
    (fun _ x hx hfaddr => h.saves hclear hx hfaddr) hchange
  refine ⟨⟨hinv.known, hinv.backed, hinv.unregistered, fun _ _ hnone => nomatch hnone⟩, h.compiled,
    fun f hf => ?_, ?_⟩
  · -- other functions have the code they had
    by_cases hself : f = call.faddr
    · subst hself
      cases hchange with
      | rejected => exact h.patched _ hf
      | added => exact h.patched _ hf
      | removed pre post node info hargs haction hfaddr =>
          exact Or.inl (hfaddr ▸ h.restore (x := (node, info)) (by simp))
      | updated pre post node info hargs hadd hremove hfaddr =>
          exact hfaddr ▸ h.update (x := (node, info)) (by simp) call.action
    · rcases hchange.only_code with hmem | ⟨x, _, _, honly⟩
      · rw [hmem]
        exact h.patched f hf
      · rw [honly.other (hapart f hf _ hclear.known) hself]
        exact h.patched f hf
  · rcases hchange.only_code with hmem | ⟨x, _, _, honly⟩
    · rw [hmem]
      exact h.same
    · exact (honly.eqOn hclear.known).trans h.same

/-- What the observer knows of a function after an update. -/
theorem CodeShown.switch (h : CodeShown functions mem plain regs)
    (hclear : CallClear functions mem regs call) {x : Nat × FtraceInfo} (hx : x ∈ regs)
    (hfaddr : x.2.faddr = call.faddr) :
    probeOf (updateFtrace call.action x.2 mem).2 (updateFtrace call.action x.2 mem).1 =
      (probeOf mem x.2).switch call.action := by
  have hinvalid : invalidate mem x.2 x.2.faddr = INV_OPCODE := patch_first _ _ _
  have hrestored : restoreCode mem x.2 x.2.faddr ≠ INV_OPCODE := by
    rw [← code_bytes_first (restoreCode mem x.2), h.restore hx]
    decide
  have hback := fun hback => hclear.backtrace hback x hx hfaddr
  rw [← hfaddr] at hback
  unfold updateFtrace Probe.switch probeOf FtraceInfo.save
  split_ifs with henable hdisable hbacktrace hzero hunback
  · simp [hinvalid]
  · simp [hrestored]
  · simp [hinvalid]
  · have hpatched := (hback hbacktrace).resolve_left hzero
    simp [hpatched]
  · simp [hrestored]
  · rfl

/-- A call changes what the observer knows as it is asked to. -/
theorem CodeShown.onProbes (h : CodeShown functions mem plain regs)
    (hapart : ∀ f ∈ functions, ∀ g ∈ functions, Apart f g)
    (hclear : CallClear functions mem regs call) (hnodup : (functionsOf regs).Nodup)
    (hchange : FtraceChange call mem regs 0 regs' mem') :
    regs'.map (fun x => probeOf mem' x.2) =
      call.onProbes (regs.map fun x => probeOf mem x.2) := by
  have hother : ∀ {mem' : UserMem}, OnlyCode call.faddr mem mem' → ∀ x ∈ regs,
      x.2.faddr ≠ call.faddr → probeOf mem' x.2 = probeOf mem x.2 := by
    intro mem' honly x hx hne
    have hcode := congrFun (honly.other (hapart _ (h.code.known x hx) _ hclear.known) hne) 0
    rw [code_bytes_first, code_bytes_first] at hcode
    exact probeOf_congr hcode
  generalize hzero : (0 : Int) = ret at hchange
  cases hchange with
  | rejected => exact absurd hzero (by decide)
  | added regs node hargs haction hnew =>
      have hwhole : mem call.faddr ≠ INV_OPCODE := by
        rw [← code_bytes_first mem, h.code.unregistered _ hclear.known hnew,
          h.compiled _ hclear.known]
        decide
      rw [FtraceCall.onProbes, if_pos haction, List.map_append]
      simp [probeOf, newFtraceInfo, hwhole]
  | removed pre post node info hargs haction hfaddr =>
      obtain ⟨hpre, hpost⟩ := ne_of_nodup hnodup
      have honly : OnlyCode call.faddr mem (restoreCode mem info) :=
        hfaddr ▸ only_code_restore mem info
      have hkept : ∀ x ∈ pre ++ post, x ∈ pre ++ (node, info) :: post ∧
          x.2.faddr ≠ call.faddr := by
        intro x hx
        rcases List.mem_append.mp hx with hx | hx
        · exact ⟨List.mem_append_left _ hx, hfaddr ▸ hpre x hx⟩
        · exact ⟨List.mem_append_right _ (List.mem_cons_of_mem _ hx), hfaddr ▸ hpost x hx⟩
      have hadd : call.action ≠ ADD_FTRACE := by
        rw [haction]
        decide
      have hfilter : ∀ xs : List (Nat × FtraceInfo), (∀ x ∈ xs, x.2.faddr ≠ call.faddr) →
          (xs.map fun x => probeOf mem x.2).filter (fun p => p.faddr ≠ call.faddr) =
            xs.map fun x => probeOf mem x.2 := by
        intro xs hne
        refine List.filter_eq_self.mpr fun p hp => decide_eq_true ?_
        obtain ⟨x, hx, rfl⟩ := List.mem_map.mp hp
        exact hne x hx
      have hself : ¬ (probeOf mem info).faddr ≠ call.faddr := not_not.mpr hfaddr
      rw [FtraceCall.onProbes, if_neg hadd, if_pos haction,
        List.map_congr_left fun x hx => hother honly x (hkept x hx).1 (hkept x hx).2,
        List.map_append, List.map_append, List.map_cons, List.filter_append,
        List.filter_cons_of_neg (by simpa using hself),
        hfilter pre fun x hx => (hkept x (List.mem_append_left _ hx)).2,
        hfilter post fun x hx => (hkept x (List.mem_append_right _ hx)).2]
  | updated pre post node info hargs hadd hremove hfaddr =>
      obtain ⟨hpre, hpost⟩ := ne_of_nodup hnodup
      have honly : OnlyCode call.faddr mem (updateFtrace call.action info mem).2 :=
        hfaddr ▸ only_code_update call.action info mem
      have hself := h.switch hclear (x := (node, info)) (by simp) hfaddr
      have hothers : ∀ xs : List (Nat × FtraceInfo),
          (∀ x ∈ xs, x ∈ pre ++ (node, info) :: post) → (∀ x ∈ xs, x.2.faddr ≠ info.faddr) →
          xs.map (fun x => probeOf (updateFtrace call.action info mem).2 x.2) =
            (xs.map fun x => probeOf mem x.2).map fun p =>
              if p.faddr = call.faddr then p.switch call.action else p := by
        intro xs hsub hne
        rw [List.map_map]
        refine List.map_congr_left fun x hx => ?_
        have hx' := hfaddr ▸ hne x hx
        exact (hother honly x (hsub x hx) hx').trans (if_neg hx').symm
      rw [FtraceCall.onProbes, if_neg hadd, if_neg hremove, List.map_append, List.map_cons,
        List.map_append, List.map_cons, List.map_append, List.map_cons,
        hothers pre (fun x hx => List.mem_append_left _ hx) hpre,
        hothers post (fun x hx => List.mem_append_right _ (List.mem_cons_of_mem _ hx)) hpost,
        if_pos (show (probeOf mem info).faddr = call.faddr from hfaddr)]
      exact congrArg (fun p => _ ++ p :: _) hself

/-! ## Records -/

/-- Writing records changes files and nothing else. -/
theorem write_record_files {k k' : Kernel} {fd : CInt} {words : List U64}
    (h : writeRecord k fd words = some k') :
    ∃ files, k' = { k with ctx := { k.ctx with files := files } } := by
  have hfile : ∀ {k k' : Kernel} {src : Nat → U8} {count : U32},
      writeFile k fd src count = some k' →
      ∃ files, k' = { k with ctx := { k.ctx with files := files } } := by
    intro k k' src count h
    obtain ⟨answer, _, hset⟩ := Option.bind_eq_some_iff.mp h
    exact ⟨_, (Option.some.inj hset).symm⟩
  obtain ⟨k₁, hwords, hdelimiter⟩ := Option.bind_eq_some_iff.mp h
  have hall : ∃ files, k₁ = { k with ctx := { k.ctx with files := files } } := by
    clear hdelimiter h
    induction words generalizing k with
    | nil => exact ⟨k.ctx.files, (Option.some.inj hwords).symm⟩
    | cons word words ih =>
        obtain ⟨k₂, hword, hrest⟩ := Option.bind_eq_some_iff.mp hwords
        obtain ⟨files, rfl⟩ := hfile hword
        obtain ⟨files', rfl⟩ := ih hrest
        exact ⟨files', rfl⟩
  obtain ⟨files, rfl⟩ := hall
  obtain ⟨files', rfl⟩ := hfile hdelimiter
  exact ⟨files', rfl⟩

theorem backtraceWords_eq (info : FtraceInfo) (u : User Rest) :
    backtraceWords fuel info ⟨u.mem, u.regs⟩ =
      if info.captureBacktrace = 1 then (callChain fuel u).map (u.regs.entryRip :: ·)
      else some [] := by
  rw [Option.map_eq_bind]
  rfl

/-- The observer makes the record that the fault handler writes. -/
theorem probeOf_record (hchain : callChain fuel u' = callChain fuel u) (hregs : u'.regs = u.regs) :
    (probeOf mem info).record fuel u' =
      (backtraceWords fuel info ⟨u.mem, u.regs⟩).map fun backtrace =>
        (info.fd, u.regs.entryRip :: u.regs.args.take info.numArgs.toNat ++ backtrace) := by
  rw [Probe.record, hchain, hregs, backtraceWords_eq]
  simp only [probeOf, decide_eq_true_eq]

/-- The words after a push, as long as the stack is apart from code. -/
theorem storeWord_eqOn {address word : U64}
    (h : ∀ i < 8, address + BitVec.ofNat 64 i ∉ codeArea functions) :
    Set.EqOn (storeWord mem address word) mem (codeArea functions) := by
  intro a ha
  rw [storeWord]
  refine if_neg fun hin => h _ hin ?_
  rwa [BitVec.ofNat_toNat, BitVec.setWidth_eq, BitVec.add_comm, BitVec.sub_add_cancel]

theorem storeWord_congr {A : Set U64} {address word : U64} (h : Set.EqOn mem' mem A) :
    Set.EqOn (storeWord mem' address word) (storeWord mem address word) A := by
  intro a ha
  rw [storeWord, storeWord, h ha]

/-! ## One event -/

/-- The traced program and the observed one. -/
structure Shown (functions : List U64) (s : TracedProgram Rest) (o : Observed Rest)
    (regs : List (Nat × FtraceInfo)) : Prop where
  listed : Listed s.k regs
  code : CodeShown functions s.k.mem o.user.mem regs
  probes : o.probes = regs.map fun x => probeOf s.k.mem x.2
  rest : o.user.rest = s.rest
  saved : o.user.regs = s.regs

theorem Shown.user_eq (h : Shown functions s o regs) :
    o.user = { s.user with mem := o.user.mem } := by
  obtain ⟨⟨rest, saved, mem⟩, probes, log⟩ := o
  obtain rfl : rest = s.rest := h.rest
  obtain rfl : saved = s.regs := h.saved
  rfl

/-- Nothing is recorded unless the first instruction of a function that is overwritten is
executed. -/
theorem entry_none {u : User Rest} {log : List (CInt × List U64)}
    (hcode : CodeShown functions mem plain regs)
    (hnone : u.regs.entryRip ∈ functions → mem u.regs.entryRip ≠ INV_OPCODE) :
    Observed.entry fuel ⟨u, regs.map fun x => probeOf mem x.2, log⟩ = some [] := by
  have hfind : (regs.map fun x => probeOf mem x.2).find?
      (fun p => p.enabled && p.faddr == u.regs.entryRip) = none := by
    refine List.find?_eq_none.mpr fun p hp => ?_
    obtain ⟨x, hx, rfl⟩ := List.mem_map.mp hp
    rw [Bool.and_eq_true, beq_iff_eq]
    rintro ⟨henabled, hrip⟩
    exact hnone (hrip ▸ hcode.code.known x hx) (hrip ▸ of_decide_eq_true henabled)
  rw [Observed.entry, hfind]

/-- The entry of a function that is overwritten is recorded. -/
theorem entry_some {u : User Rest} {log : List (CInt × List U64)} {x : Nat × FtraceInfo}
    (hnodup : (functionsOf regs).Nodup) (hx : x ∈ regs) (hrip : x.2.faddr = u.regs.entryRip)
    (hfirst : mem u.regs.entryRip = INV_OPCODE) :
    Observed.entry fuel ⟨u, regs.map fun x => probeOf mem x.2, log⟩ =
      ((probeOf mem x.2).record fuel u).map fun record => [record] := by
  have henabled : (probeOf mem x.2).enabled = true := by
    rw [← hrip] at hfirst
    exact decide_eq_true hfirst
  have hsome : ((regs.map fun x => probeOf mem x.2).find?
      fun p => p.enabled && p.faddr == u.regs.entryRip).isSome := by
    refine List.find?_isSome.mpr ⟨_, List.mem_map_of_mem hx, ?_⟩
    rw [henabled, Bool.true_and, beq_iff_eq]
    exact hrip
  obtain ⟨p, hp⟩ := Option.isSome_iff_exists.mp hsome
  obtain ⟨y, hy, rfl⟩ := List.mem_map.mp (List.mem_of_find?_eq_some hp)
  have hfound := List.find?_some hp
  rw [Bool.and_eq_true, beq_iff_eq] at hfound
  obtain rfl : y = x := List.inj_on_of_nodup_map hnodup hy hx (hfound.2.trans hrip.symm)
  rw [Observed.entry, hp]

/-- Functions are enabled as they were before a change that leaves code alone. -/
theorem CodeShown.probes (h : CodeShown functions mem plain regs)
    (hmem : Set.EqOn mem' mem (codeArea functions)) :
    (regs.map fun x => probeOf mem' x.2) = regs.map fun x => probeOf mem x.2 := by
  refine List.map_congr_left fun x hx => probeOf_congr ?_
  have hcode := congrFun (codeBytes_congr hmem (h.code.known x hx)) 0
  rwa [code_bytes_first, code_bytes_first] at hcode

/-- An event makes no record and leaves the files alone, or it writes the record that the observer
makes. -/
def Logs (k : Kernel) (log : List (CInt × List U64)) (k' : Kernel)
    (log' : List (CInt × List U64)) : Prop :=
  log' = log ∧ k'.ctx.files = k.ctx.files ∨
    ∃ mem fd words, log' = log ++ [(fd, words)] ∧
      writeRecord { k with mem := mem } fd words = some k'

/-- An instruction. -/
theorem Shown.instruction (answer : Int → Rest → Rest) (fuel : Nat)
    (h : Shown functions s o regs) (hcpu : Decodes cpu)
    (hu : cpu s.user = some u) (hclear : LeavesCode cpu functions s.user u) :
    ∃ o', observedStep cpu answer fuel o .exec = some o' ∧ o'.log = o.log ∧
      Shown functions ⟨u.rest, u.regs, { s.k with mem := u.mem }⟩ o' regs := by
  obtain ⟨mem', hu', hplain, hsame⟩ := hclear.reads o.user.mem h.code.agree
  have hentry : o.entry fuel = some [] := by
    obtain ⟨user, probes, log⟩ := o
    obtain rfl : probes = _ := h.probes
    refine entry_none h.code fun hrip hfirst => ?_
    rw [show user.regs = s.regs from h.saved] at hrip hfirst
    exact nomatch (hcpu.invalid s.user ((h.code.first hrip).mpr hfirst)).symm.trans hu
  rw [← h.user_eq] at hu'
  have hstep : observedStep cpu answer fuel o .exec =
      some { o with user := { u with mem := mem' }, log := o.log ++ [] } := by
    simp only [observedStep, hentry, hu', Option.bind_eq_bind, Option.bind_some]
  refine ⟨_, hstep, List.append_nil _, h.listed,
    h.code.congr hclear.writes hplain hsame.symm, h.probes.trans (h.code.probes hclear.writes).symm,
    rfl, rfl⟩

/-- The entry of a traced function. -/
theorem Shown.fault (answer : Int → Rest → Rest) (h : Shown functions s o regs) (hcpu : Decodes cpu)
    (hapart : ∀ f ∈ functions, ∀ g ∈ functions, Apart f g) (hnone : cpu s.user = none)
    (hclear : StackClear functions fuel s.user) {k' : Kernel} {regs₁ : UserRegs}
    (hfault : handleFtraceFault fuel s.k s.regs = some (ret, k', regs₁)) :
    ∃ o', Runs.run (observedStep cpu answer fuel) o [.exec, .exec] = some o' ∧
      Logs s.k o.log k' o'.log ∧ Shown functions ⟨s.rest, regs₁, k'⟩ o' regs := by
  -- the fault is the one of a registered function, and writes its record
  have hhandle := (handle_fault_eq (k := s.k) fuel ⟨s.k.mem, s.regs⟩).symm.trans hfault
  obtain ⟨⟨fd, words⟩, hrecord, hhandle⟩ := Option.bind_eq_some_iff.mp hhandle
  obtain ⟨k₁, hwrite, hresult⟩ := Option.map_eq_some_iff.mp hhandle
  obtain ⟨rfl, rfl, rfl⟩ : 0 = ret ∧ k₁ = k' ∧ enterFunction s.regs = regs₁ := by
    simpa using hresult
  rw [fault_record_eq] at hrecord
  obtain ⟨info, hregistered, hrecord⟩ := Option.bind_eq_some_iff.mp hrecord
  obtain ⟨node, hx, hrip⟩ := (h.listed.registration_iff _ _).mp hregistered
  have hrip : info.faddr = s.regs.entryRip := hrip
  have hknown : s.regs.entryRip ∈ functions := hrip ▸ h.code.code.known _ hx
  -- its code is overwritten, because the processor would have executed it otherwise
  have hfirst : s.k.mem s.regs.entryRip = INV_OPCODE := by
    by_contra hne
    have hwhole := congrFun (h.code.whole hknown hne) 0
    rw [code_bytes_first] at hwhole
    exact nomatch hnone.symm.trans (hcpu.push s.user hwhole)
  have hprologue : codeBytes o.user.mem s.regs.entryRip = PROLOGUE := h.code.compiled _ hknown
  have hchain : callChain fuel o.user = callChain fuel s.user := by
    rw [h.user_eq]
    exact hclear.chain _ h.code.same.symm
  have hentry : o.entry fuel = some [(fd, words)] := by
    obtain ⟨user, probes, log⟩ := o
    obtain rfl : probes = _ := h.probes
    have hsaved : user.regs = s.regs := h.saved
    rw [entry_some h.listed.functions_nodup hx (hrip.trans (congrArg _ hsaved.symm))
      (hsaved ▸ hfirst), probeOf_record hchain hsaved]
    exact congrArg (Option.map fun record => [record]) hrecord
  have hkept : Set.EqOn (storeWord s.k.mem (s.regs.entryRsp - 8) s.regs.rbp) s.k.mem
      (codeArea functions) := storeWord_eqOn hclear.push
  -- the two instructions
  have hpush : cpu o.user = some o.user.pushFrame := by
    refine hcpu.push _ ?_
    rw [h.saved, ← code_bytes_first o.user.mem, hprologue]
  have hstack : Set.EqOn o.user.pushFrame.mem o.user.mem (codeArea functions) := by
    refine storeWord_eqOn fun i hi => ?_
    rw [h.saved]
    exact hclear.push i hi
  have hcode : codeBytes o.user.pushFrame.mem s.regs.entryRip = PROLOGUE :=
    (codeBytes_congr hstack hknown).trans hprologue
  have hrip₁ : o.user.pushFrame.regs.entryRip = s.regs.entryRip + 1 := by
    rw [User.pushFrame, h.saved]
  have hmove : cpu o.user.pushFrame = some o.user.pushFrame.moveFrame := by
    have hbyte : ∀ i : Fin 4, o.user.pushFrame.mem (s.regs.entryRip + BitVec.ofNat 64 i) =
      PROLOGUE i := congrFun hcode
    refine hcpu.move _ ?_ ?_ ?_
    · rw [hrip₁]
      exact hbyte 1
    · rw [hrip₁, BitVec.add_assoc]
      exact hbyte 2
    · rw [hrip₁, BitVec.add_assoc]
      exact hbyte 3
  -- no function starts at the second one
  have hnext : Observed.entry fuel ⟨o.user.pushFrame, o.probes, o.log ++ [(fd, words)]⟩ =
      some [] := by
    rw [h.probes]
    refine entry_none h.code fun hknown' _ => ?_
    rw [hrip₁] at hknown'
    rcases hapart _ hknown _ hknown' with heq | ⟨_, hfar⟩
    · bv_omega
    · bv_omega
  obtain ⟨files, rfl⟩ := write_record_files hwrite
  refine ⟨⟨o.user.pushFrame.moveFrame, o.probes, o.log ++ [(fd, words)] ++ []⟩, ?_,
    Or.inr ⟨_, fd, words, List.append_nil _, hwrite⟩, h.listed, ?_, ?_, h.rest, ?_⟩
  · simp only [Runs.run, observedStep, hentry, hpush, hnext, hmove, Option.bind_eq_bind,
      Option.bind_some]
  · refine h.code.congr hkept hstack ?_
    show Set.EqOn (storeWord s.k.mem _ _) (storeWord o.user.mem _ _) _
    rw [h.saved]
    exact storeWord_congr h.code.same
  · exact h.probes.trans (h.code.probes hkept).symm
  · show o.user.pushFrame.moveFrame.regs = enterFunction s.regs
    rw [User.moveFrame, User.pushFrame, h.saved, enterFunction, BitVec.add_assoc]
    rfl

/-- A call of `do_ftrace`. -/
theorem Shown.afterCall (cpu : Cpu Rest) (answer : Int → Rest → Rest) (fuel : Nat)
    (h : Shown functions s o regs)
    (hapart : ∀ f ∈ functions, ∀ g ∈ functions, Apart f g)
    (hclear : CallClear functions s.k.mem regs call) {k' : Kernel}
    (hcall : call.run s.k = some (ret, k')) :
    ∃ o' regs', observedStep cpu answer fuel o (.ftrace call) = some o' ∧ o'.log = o.log ∧
      k'.ctx.files = s.k.ctx.files ∧
      Shown functions ⟨answer ret s.rest, s.regs, k'⟩ o' regs' := by
  have hprobes : o.probes.map Probe.faddr = functionsOf regs := by
    rw [h.probes, List.map_map]
    rfl
  obtain ⟨ret', k'', regs', hrun, hlisted, hchange, hfiles⟩ := do_ftrace_cases h.listed call
  obtain ⟨rfl, rfl⟩ : ret = ret' ∧ k' = k'' := by
    simpa using hcall.symm.trans hrun
  have hcode := h.code.afterCall hapart hclear h.listed.functions_nodup hchange
  rcases hchange.ret with ⟨hrefused, rfl⟩ | ⟨haccepted, rfl⟩
  · obtain ⟨rfl, hmem⟩ := hchange.of_failed (by decide)
    refine ⟨_, regs', if_pos (hprobes.symm ▸ hrefused), rfl, hfiles, hlisted, hcode, ?_,
      congrArg _ h.rest, h.saved⟩
    rw [hmem]
    exact h.probes
  · refine ⟨_, regs', if_neg (hprobes.symm ▸ haccepted), rfl, hfiles, hlisted, hcode, ?_,
      congrArg _ h.rest, h.saved⟩
    rw [h.code.onProbes hapart hclear h.listed.functions_nodup hchange, ← h.probes]

/-- An event of the traced program is one or two events of the observed program. -/
theorem Shown.step (hcpu : Decodes cpu) (hapart : ∀ f ∈ functions, ∀ g ∈ functions, Apart f g)
    {event : ProgramEvent} (h : ∃ regs, Shown functions s o regs)
    (hclear : EventClear cpu functions fuel s event)
    (hstep : tracedStep cpu answer fuel s event = some s') :
    ∃ events o', Runs.run (observedStep cpu answer fuel) o events = some o' ∧
      events.flatMap ProgramEvent.calls = event.calls ∧ Logs s.k o.log s'.k o'.log ∧
      ∃ regs, Shown functions s' o' regs := by
  obtain ⟨regs, h⟩ := h
  cases event with
  | exec =>
      cases hu : cpu s.user with
      | some u =>
          simp only [tracedStep, hu, Option.some.injEq] at hstep
          subst hstep
          obtain ⟨o', hstep, hlog, h'⟩ := h.instruction answer fuel hcpu hu (hclear.1 u hu)
          exact ⟨[.exec], o', by rw [Runs.run, hstep]; rfl, rfl, Or.inl ⟨hlog, rfl⟩, regs, h'⟩
      | none =>
          simp only [tracedStep, hu, Option.map_eq_some_iff] at hstep
          obtain ⟨⟨ret, k', regs₁⟩, hfault, rfl⟩ := hstep
          obtain ⟨o', hrun, hlogs, h'⟩ := h.fault answer hcpu hapart hu (hclear.2 hu) hfault
          exact ⟨[.exec, .exec], o', hrun, rfl, hlogs, regs, h'⟩
  | ftrace call =>
      obtain ⟨⟨ret, k'⟩, hcall, rfl⟩ := Option.map_eq_some_iff.mp hstep
      obtain ⟨hknown, henable, hback⟩ := hclear
      have hback' : call.action = ENABLE_BACKTRACE → ∀ x ∈ regs, x.2.faddr = call.faddr →
          x.2.codeBackup 0 = 0 ∨ s.k.mem call.faddr = INV_OPCODE := fun haction x hx hfaddr =>
        hback haction x.2 ((h.listed.registration_iff _ _).mpr ⟨x.1, hx, hfaddr⟩)
      obtain ⟨o', regs', hstep, hlog, hfiles, h'⟩ :=
        h.afterCall cpu answer fuel hapart ⟨hknown, henable, hback'⟩ hcall
      exact ⟨[.ftrace call], o', by rw [Runs.run, hstep]; rfl, rfl,
        Or.inl ⟨hlog, hfiles⟩, regs', h'⟩

end GemOS.Tracer
