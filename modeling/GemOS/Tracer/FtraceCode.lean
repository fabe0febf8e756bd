import GemOS.Lib.Runs
import GemOS.Tracer.FtraceList

/-!
# Function tracing and code bytes

A registration is `Backed` when its saved bytes are the original ones, or nothing is saved and
the code is the original. Every action keeps that except an enabling action on a function whose
code is patched already, or whose first code byte is 0 (`EnablesOnce` excludes both).
`ftrace_step_inv` is the step lemma for runs.
-/

namespace GemOS.Tracer

open LinkedList

/-! ## Code bytes of functions that are apart -/

/-- Two functions are the same one or have at least four bytes from one address to the other,
whichever way round the address space. -/
def Apart (f g : U64) : Prop :=
  f = g ∨ (4 ≤ (f - g).toNat ∧ 4 ≤ (g - f).toNat)

/-- Memory changes only in the first four bytes of the function at `faddr`. -/
def OnlyCode (faddr : U64) (mem mem' : UserMem) : Prop :=
  ∀ a, mem' a ≠ mem a → ∃ i < 4, a = faddr + BitVec.ofNat 64 i

theorem OnlyCode.refl (faddr : U64) (mem : UserMem) : OnlyCode faddr mem mem :=
  fun _ h => absurd rfl h

/-- Code bytes as a literal sequence of four. -/
theorem code_bytes_ext {mem : UserMem} {faddr : U64} {bytes : Fin 4 → U8}
    (h0 : mem faddr = bytes 0) (h1 : mem (faddr + 1) = bytes 1) (h2 : mem (faddr + 2) = bytes 2)
    (h3 : mem (faddr + 3) = bytes 3) : codeBytes mem faddr = bytes := by
  funext i
  match i with
  | 0 => simpa [codeBytes] using h0
  | 1 => exact h1
  | 2 => exact h2
  | 3 => exact h3

@[simp] theorem code_bytes_patch (mem : UserMem) (faddr : U64) (bytes : Fin 4 → U8) :
    codeBytes (patch mem faddr bytes) faddr = bytes := by
  have h01 : faddr ≠ faddr + 1 := by simp
  have h02 : faddr ≠ faddr + 2 := by simp
  have h03 : faddr ≠ faddr + 3 := by simp
  have h12 : faddr + 1 ≠ faddr + 2 := by bv_omega
  have h13 : faddr + 1 ≠ faddr + 3 := by bv_omega
  have h23 : faddr + 2 ≠ faddr + 3 := by bv_omega
  apply code_bytes_ext <;> simp only [patch, Function.update_self, ne_eq, h01, h02, h03, h12, h13,
    h23, not_false_eq_true, Function.update_of_ne]

theorem only_code_patch (mem : UserMem) (faddr : U64) (bytes : Fin 4 → U8) :
    OnlyCode faddr mem (patch mem faddr bytes) := by
  intro a ha
  by_contra hout
  have hne : ∀ i < 4, a ≠ faddr + BitVec.ofNat 64 i := fun i hi h => hout ⟨i, hi, h⟩
  have h0 : a ≠ faddr := by simpa using hne 0 (by omega)
  have h1 : a ≠ faddr + 1 := hne 1 (by omega)
  have h2 : a ≠ faddr + 2 := hne 2 (by omega)
  have h3 : a ≠ faddr + 3 := hne 3 (by omega)
  exact ha (by simp only [patch, ne_eq, h0, h1, h2, h3, not_false_eq_true, Function.update_of_ne])

theorem only_code_invalidate (mem : UserMem) (info : FtraceInfo) :
    OnlyCode info.faddr mem (invalidate mem info) :=
  only_code_patch _ _ _

theorem only_code_restore (mem : UserMem) (info : FtraceInfo) :
    OnlyCode info.faddr mem (restoreCode mem info) := by
  unfold restoreCode
  split_ifs
  · exact only_code_patch _ _ _
  · exact .refl _ _

theorem only_code_update (action : U64) (info : FtraceInfo) (mem : UserMem) :
    OnlyCode info.faddr mem (updateFtrace action info mem).2 := by
  unfold updateFtrace
  split_ifs
  · exact only_code_invalidate _ _
  · exact only_code_restore _ _
  · exact only_code_invalidate _ _
  · exact .refl _ _
  · exact only_code_restore _ _
  · exact .refl _ _

/-- Functions apart do not share code bytes. -/
theorem OnlyCode.other {faddr g : U64} {mem mem' : UserMem} (h : OnlyCode faddr mem mem')
    (hapart : Apart g faddr) (hne : g ≠ faddr) : codeBytes mem' g = codeBytes mem g := by
  obtain ⟨hgf, hfg⟩ := hapart.resolve_left hne
  funext j
  by_contra hchanged
  obtain ⟨i, hi, heq⟩ := h _ hchanged
  have hj := j.isLt
  replace heq := congrArg BitVec.toNat heq
  simp only [BitVec.toNat_sub, BitVec.toNat_add, BitVec.toNat_ofNat] at hgf hfg heq
  omega

/-! ## Backups -/

/-- The saved bytes of a registration are the original code, or nothing is saved and the code is
the original. -/
structure Backed (orig : Fin 4 → U8) (info : FtraceInfo) (mem : UserMem) : Prop where
  saved : info.codeBackup 0 ≠ 0 → info.codeBackup = orig
  unsaved : info.codeBackup 0 = 0 → codeBytes mem info.faddr = orig

/-- An enabling action that saves bytes finds the original code, with a first byte other than
0. -/
def SavesOriginal (action : U64) (info : FtraceInfo) (mem : UserMem) : Prop :=
  (action = ENABLE_FTRACE → codeBytes mem info.faddr 0 ≠ 0 ∧
    (info.codeBackup 0 = 0 ∨ codeBytes mem info.faddr = info.codeBackup)) ∧
  (action = ENABLE_BACKTRACE → info.codeBackup 0 = 0 → codeBytes mem info.faddr 0 ≠ 0)

section Backups

variable {orig : Fin 4 → U8} {info : FtraceInfo} {mem : UserMem}

/-- Restoring gives the original code back. -/
theorem Backed.restore (h : Backed orig info mem) :
    codeBytes (restoreCode mem info) info.faddr = orig := by
  unfold restoreCode
  split_ifs with hsaved
  · rw [code_bytes_patch]
    exact h.saved hsaved
  · exact h.unsaved (not_not.mp hsaved)

/-- Saving the original code and patching it. -/
theorem Backed.save (h : codeBytes mem info.faddr = orig)
    (hfirst : codeBytes mem info.faddr 0 ≠ 0) :
    Backed orig (info.save mem) (invalidate mem info) :=
  ⟨fun _ => h, fun hzero => absurd hzero hfirst⟩

/-- An update keeps the backup good. -/
theorem Backed.update (h : Backed orig info mem) {action : U64}
    (hsaves : SavesOriginal action info mem) :
    Backed orig (updateFtrace action info mem).1 (updateFtrace action info mem).2 := by
  have hrestored : Backed orig info (restoreCode mem info) := ⟨h.saved, fun _ => h.restore⟩
  unfold updateFtrace
  split_ifs with henable hdisable hback hzero hunback
  · obtain ⟨hfirst, hcase⟩ := hsaves.1 henable
    refine Backed.save ?_ hfirst
    by_cases hzero : info.codeBackup 0 = 0
    · exact h.unsaved hzero
    · exact (hcase.resolve_left hzero).trans (h.saved hzero)
  · exact hrestored
  · have hsave := Backed.save (h.unsaved hzero) (hsaves.2 hback hzero)
    exact ⟨hsave.saved, hsave.unsaved⟩
  · exact ⟨h.saved, h.unsaved⟩
  · exact ⟨hrestored.saved, hrestored.unsaved⟩
  · exact h

/-- A registration of another function does not notice. -/
theorem Backed.other (h : Backed orig info mem) {faddr : U64} {mem' : UserMem}
    (honly : OnlyCode faddr mem mem') (hapart : Apart info.faddr faddr)
    (hne : info.faddr ≠ faddr) : Backed orig info mem' :=
  ⟨h.saved, fun hzero => (honly.other hapart hne).trans (h.unsaved hzero)⟩

end Backups

/-! ## Runs of `do_ftrace` -/

/-- A process and, for each function, its last successful enabling or disabling action. -/
structure FtraceState where
  k : Kernel
  lastSwitch : U64 → Option U64

/-- The enabling and disabling actions. -/
def switchActions : List U64 :=
  [ENABLE_FTRACE, DISABLE_FTRACE, ENABLE_BACKTRACE, DISABLE_BACKTRACE]

/-- The last switch of each function after a call that returned `ret`. -/
def FtraceCall.switched (call : FtraceCall) (ret : Int) (lastSwitch : U64 → Option U64) :
    U64 → Option U64 :=
  if ret = 0 ∧ call.action ∈ switchActions then
    Function.update lastSwitch call.faddr (some call.action)
  else lastSwitch

/-- One call. -/
def ftraceStep (s : FtraceState) (call : FtraceCall) : Option FtraceState := do
  let (ret, k) ← call.run s.k
  some ⟨k, call.switched ret s.lastSwitch⟩

theorem update_ftrace_disable (info : FtraceInfo) (mem : UserMem) :
    updateFtrace DISABLE_FTRACE info mem = (info, restoreCode mem info) := by
  simp [updateFtrace, DISABLE_FTRACE, ENABLE_FTRACE]

/-- Unknown actions succeed and do nothing. -/
theorem update_ftrace_other {action : U64} (h : action ∉ switchActions) (info : FtraceInfo)
    (mem : UserMem) : updateFtrace action info mem = (info, mem) := by
  simp only [switchActions, List.mem_cons, List.not_mem_nil, or_false, not_or] at h
  obtain ⟨henable, hdisable, hback, hunback⟩ := h
  simp only [updateFtrace, henable, hdisable, hback, hunback, if_false]

/-- The condition on a call: if it enables a registered function, then it does so while the
function's code is not patched, and the first byte of that code is not 0. -/
def EnablesOnce (s : FtraceState) (call : FtraceCall) : Prop :=
  ¬ call.Negative → ∀ info, registration s.k call.faddr = some info →
    SavesOriginal call.action info s.k.mem

/-- What holds between calls: every registration is backed, and the other functions and those
last disabled have their original code. -/
structure CodeInv (orig : UserMem) (functions : List U64) (mem : UserMem)
    (regs : List (Nat × FtraceInfo)) (lastSwitch : U64 → Option U64) : Prop where
  known : ∀ x ∈ regs, x.2.faddr ∈ functions
  backed : ∀ x ∈ regs, Backed (codeBytes orig x.2.faddr) x.2 mem
  unregistered : ∀ f ∈ functions, (∀ x ∈ regs, x.2.faddr ≠ f) → codeBytes mem f = codeBytes orig f
  disabled : ∀ f ∈ functions, lastSwitch f = some DISABLE_FTRACE →
    codeBytes mem f = codeBytes orig f

section Step

variable {orig mem : UserMem} {functions : List U64} {lastSwitch : U64 → Option U64}
variable {call : FtraceCall}

/-- A call whose memory effect leaves its function with the original code, and the others
alone. -/
theorem CodeInv.disabled_of {regs : List (Nat × FtraceInfo)}
    (h : CodeInv orig functions mem regs lastSwitch)
    (hapart : ∀ f ∈ functions, ∀ g ∈ functions, Apart f g) (hcall : call.faddr ∈ functions)
    {mem' : UserMem} (honly : OnlyCode call.faddr mem mem') {ret : Int}
    (hself : call.switched ret lastSwitch call.faddr = some DISABLE_FTRACE →
      codeBytes mem' call.faddr = codeBytes orig call.faddr) :
    ∀ f ∈ functions, call.switched ret lastSwitch f = some DISABLE_FTRACE →
      codeBytes mem' f = codeBytes orig f := by
  intro f hf hlast
  by_cases hself_f : f = call.faddr
  · subst hself_f
    exact hself hlast
  · have hkept : call.switched ret lastSwitch f = lastSwitch f := by
      unfold FtraceCall.switched
      split_ifs
      · exact Function.update_of_ne hself_f _ _
      · rfl
    rw [honly.other (hapart f hf _ hcall) hself_f]
    exact h.disabled f hf (hkept ▸ hlast)

/-- Dropping or replacing one registration, with a memory effect on its function only. -/
theorem CodeInv.replace {pre post : List (Nat × FtraceInfo)} (rest : List (Nat × FtraceInfo))
    {x : Nat × FtraceInfo}
    {mem' : UserMem} {lastSwitch' : U64 → Option U64}
    (h : CodeInv orig functions mem (pre ++ x :: post) lastSwitch)
    (hapart : ∀ f ∈ functions, ∀ g ∈ functions, Apart f g)
    (hnodup : ((pre ++ x :: post).map fun x => x.2.faddr).Nodup)
    (honly : OnlyCode x.2.faddr mem mem')
    (hrest : ∀ y ∈ rest, y.2.faddr = x.2.faddr ∧ Backed (codeBytes orig y.2.faddr) y.2 mem')
    (hgone : rest = [] → codeBytes mem' x.2.faddr = codeBytes orig x.2.faddr)
    (hdisabled : ∀ f ∈ functions, lastSwitch' f = some DISABLE_FTRACE →
      codeBytes mem' f = codeBytes orig f) :
    CodeInv orig functions mem' (pre ++ (rest ++ post)) lastSwitch' := by
  have hx : x.2.faddr ∈ functions := h.known x (by simp)
  have hkept : ∀ y, y ∈ pre ∨ y ∈ post →
      y ∈ pre ++ x :: post ∧ y.2.faddr ≠ x.2.faddr := by
    obtain ⟨hpre, hpost⟩ := ne_of_nodup hnodup
    rintro y (hy | hy)
    · exact ⟨by simp [hy], hpre y hy⟩
    · exact ⟨by simp [hy], hpost y hy⟩
  have hcases : ∀ y ∈ pre ++ (rest ++ post), y ∈ rest ∨ y ∈ pre ∨ y ∈ post := by
    intro y hy
    rw [List.mem_append, List.mem_append] at hy
    tauto
  refine ⟨?_, ?_, ?_, hdisabled⟩
  · intro y hy
    rcases hcases y hy with hy | hy
    · exact (hrest y hy).1 ▸ hx
    · exact h.known y (hkept y hy).1
  · intro y hy
    rcases hcases y hy with hy | hy
    · exact (hrest y hy).2
    · obtain ⟨hmem, hne⟩ := hkept y hy
      exact (h.backed y hmem).other honly (hapart _ (h.known y hmem) _ hx) hne
  · intro f hf hnone
    by_cases hself : f = x.2.faddr
    · subst hself
      -- nothing on the new list is registered for this function, so nothing replaced `x`
      refine hgone (List.eq_nil_iff_forall_not_mem.mpr fun y hy => ?_)
      exact hnone y (by simp [hy]) (hrest y hy).1
    · rw [honly.other (hapart f hf _ hx) hself]
      refine h.unregistered f hf fun y hy => ?_
      rw [List.mem_append, List.mem_cons] at hy
      rcases hy with hy | rfl | hy
      · exact hnone y (by simp [hy])
      · exact Ne.symm hself
      · exact hnone y (by simp [hy])

/-- Every call keeps the invariant. -/
theorem CodeInv.step {regs regs' : List (Nat × FtraceInfo)} {ret : Int} {mem' : UserMem}
    (h : CodeInv orig functions mem regs lastSwitch)
    (hapart : ∀ f ∈ functions, ∀ g ∈ functions, Apart f g) (hcall : call.faddr ∈ functions)
    (hnodup : (regs.map fun x => x.2.faddr).Nodup)
    (hsaves : ¬ call.Negative → ∀ x ∈ regs, x.2.faddr = call.faddr →
      SavesOriginal call.action x.2 mem)
    (hchange : FtraceChange call mem regs ret regs' mem') :
    CodeInv orig functions mem' regs' (call.switched ret lastSwitch) := by
  cases hchange with
  | rejected regs =>
      have hkept : call.switched (-EINVAL) lastSwitch = lastSwitch := if_neg (by simp [EINVAL])
      rw [hkept]
      exact h
  | added regs node hargs haction hnew =>
      have hkept : call.switched 0 lastSwitch = lastSwitch :=
        if_neg (by simp [haction, switchActions, ADD_FTRACE, ENABLE_FTRACE, DISABLE_FTRACE,
          ENABLE_BACKTRACE, DISABLE_BACKTRACE])
      rw [hkept]
      refine ⟨?_, ?_, ?_, h.disabled⟩
      · intro x hx
        rcases List.mem_append.mp hx with hx | hx
        · exact h.known x hx
        · obtain rfl := List.mem_singleton.mp hx
          exact hcall
      · intro x hx
        rcases List.mem_append.mp hx with hx | hx
        · exact h.backed x hx
        · obtain rfl := List.mem_singleton.mp hx
          exact ⟨fun hsaved => absurd rfl hsaved, fun _ => h.unregistered _ hcall hnew⟩
      · intro f hf hnone
        exact h.unregistered f hf fun x hx => hnone x (List.mem_append_left _ hx)
  | removed pre post node info hargs haction hfaddr =>
      have hbacked := h.backed (node, info) (by simp)
      have honly : OnlyCode call.faddr mem (restoreCode mem info) :=
        hfaddr ▸ only_code_restore mem info
      exact h.replace [] hapart hnodup (only_code_restore mem info) (by simp)
        (fun _ => hbacked.restore)
        (h.disabled_of hapart hcall honly fun _ => hfaddr ▸ hbacked.restore)
  | updated pre post node info hargs hadd hremove hfaddr =>
      have hbacked := h.backed (node, info) (by simp)
      have honly : OnlyCode call.faddr mem (updateFtrace call.action info mem).2 :=
        hfaddr ▸ only_code_update call.action info mem
      have hupdated := hbacked.update (hsaves hargs (node, info) (by simp) hfaddr)
      refine h.replace [(node, _)] hapart hnodup (only_code_update _ info mem) ?_
        (by simp) (h.disabled_of hapart hcall honly fun hlast => ?_)
      · intro y hy
        obtain rfl := List.mem_singleton.mp hy
        exact ⟨update_ftrace_faddr _ _ _, by rw [update_ftrace_faddr]; exact hupdated⟩
      · by_cases hswitch : call.action ∈ switchActions
        · rw [FtraceCall.switched, if_pos ⟨rfl, hswitch⟩, Function.update_self,
            Option.some.injEq] at hlast
          rw [hlast, update_ftrace_disable]
          exact hfaddr ▸ hbacked.restore
        · rw [FtraceCall.switched, if_neg (fun h => hswitch h.2)] at hlast
          rw [update_ftrace_other hswitch]
          exact h.disabled _ hcall hlast

end Step

/-- One call of a process whose registrations are in order. -/
theorem ftrace_step_inv {s : FtraceState} {regs : List (Nat × FtraceInfo)} {orig : UserMem}
    {functions : List U64} {call : FtraceCall} (hlisted : Listed s.k regs)
    (hinv : CodeInv orig functions s.k.mem regs s.lastSwitch)
    (hapart : ∀ f ∈ functions, ∀ g ∈ functions, Apart f g) (hcall : call.faddr ∈ functions)
    (hsafe : EnablesOnce s call) :
    ∃ s' regs', ftraceStep s call = some s' ∧ Listed s'.k regs' ∧
      CodeInv orig functions s'.k.mem regs' s'.lastSwitch := by
  obtain ⟨ret, k', regs', hrun, hlisted', hchange, _⟩ := do_ftrace_cases hlisted call
  refine ⟨⟨k', call.switched ret s.lastSwitch⟩, regs', by simp [ftraceStep, hrun], hlisted', ?_⟩
  refine hinv.step hapart hcall hlisted.functions_nodup ?_ hchange
  intro hargs x hx hfaddr
  exact hsafe hargs x.2 ((hlisted.registration_iff _ _).mpr ⟨x.1, hx, hfaddr⟩)

/-- A call changes only code bytes of its function, and only if that is registered. -/
theorem FtraceChange.only_code {call : FtraceCall} {mem mem' : UserMem}
    {regs regs' : List (Nat × FtraceInfo)} {ret : Int}
    (h : FtraceChange call mem regs ret regs' mem') :
    mem' = mem ∨ ∃ x ∈ regs, x.2.faddr = call.faddr ∧ OnlyCode call.faddr mem mem' := by
  cases h with
  | rejected regs => exact Or.inl rfl
  | added regs node hargs haction hnew => exact Or.inl rfl
  | removed pre post node info hargs haction hfaddr =>
      exact Or.inr ⟨(node, info), by simp, hfaddr, hfaddr ▸ only_code_restore mem info⟩
  | updated pre post node info hargs hadd hremove hfaddr =>
      exact Or.inr ⟨(node, info), by simp, hfaddr, hfaddr ▸ only_code_update call.action info mem⟩

/-- Whatever the state, a call changes only code bytes of a function registered at the time. -/
theorem ftrace_step_only_code {s s' : FtraceState} {regs : List (Nat × FtraceInfo)}
    {call : FtraceCall} (hlisted : Listed s.k regs) (hstep : ftraceStep s call = some s')
    (a : U64) (ha : s'.k.mem a ≠ s.k.mem a) :
    ∃ info, registration s.k call.faddr = some info ∧
      ∃ i < 4, a = call.faddr + BitVec.ofNat 64 i := by
  obtain ⟨ret, k', regs', hrun, _, hchange, _⟩ := do_ftrace_cases hlisted call
  obtain rfl : ⟨k', call.switched ret s.lastSwitch⟩ = s' := by
    simpa [ftraceStep, hrun] using hstep
  rcases hchange.only_code with hmem | ⟨x, hx, hfaddr, honly⟩
  · exact absurd (congrFun hmem a) ha
  · exact ⟨x.2, (hlisted.registration_iff _ _).mpr ⟨x.1, hx, hfaddr⟩, honly a ha⟩

/-- Ftrace does not corrupt code as long as no call enables a function whose code is patched
already or starts with a 0 byte: in every state reached, a function that is not registered, or
whose last switch was `DISABLE_FTRACE`, has its original first four bytes; and a call changes no
byte outside the first four of a registered function. -/
theorem ftrace_code_intact {k : Kernel} (hnone : k.ctx.ftMdBase = none) {functions : List U64}
    (hapart : ∀ f ∈ functions, ∀ g ∈ functions, Apart f g) {calls : List FtraceCall}
    (hsafe : Runs.AllSteps ftraceStep
      (fun s call => call.faddr ∈ functions ∧ EnablesOnce s call) ⟨k, fun _ => none⟩ calls) :
    ∃ s, Runs.run ftraceStep ⟨k, fun _ => none⟩ calls = some s ∧
      (∀ f ∈ functions, registration s.k f = none ∨ s.lastSwitch f = some DISABLE_FTRACE →
        codeBytes s.k.mem f = codeBytes k.mem f) ∧
      ∀ call s', ftraceStep s call = some s' → ∀ a, s'.k.mem a ≠ s.k.mem a →
        ∃ info, registration s.k call.faddr = some info ∧
          ∃ i < 4, a = call.faddr + BitVec.ofNat 64 i := by
  have hstart : ∃ regs, Listed k regs ∧ CodeInv k.mem functions k.mem regs fun _ => none :=
    ⟨[], Or.inl ⟨hnone, rfl⟩, by simp, by simp, fun _ _ _ => rfl, by simp⟩
  have hstep : ∀ (s : FtraceState) (call : FtraceCall),
      (∃ regs, Listed s.k regs ∧ CodeInv k.mem functions s.k.mem regs s.lastSwitch) →
      call.faddr ∈ functions ∧ EnablesOnce s call →
      ∃ s', ftraceStep s call = some s' ∧
        ∃ regs, Listed s'.k regs ∧ CodeInv k.mem functions s'.k.mem regs s'.lastSwitch := by
    rintro s call ⟨regs, hlisted, hinv⟩ ⟨hcall, honce⟩
    obtain ⟨s', regs', hstep, hlisted', hinv'⟩ := ftrace_step_inv hlisted hinv hapart hcall honce
    exact ⟨s', hstep, regs', hlisted', hinv'⟩
  obtain ⟨s, hrun, regs, hlisted, hinv⟩ := Runs.run_invariant hstep hstart hsafe
  refine ⟨s, hrun, ?_, fun call s' hstep => ftrace_step_only_code hlisted hstep⟩
  rintro f hf (hnone | hdisabled)
  · exact hinv.unregistered f hf ((hlisted.unregistered_iff f).mp hnone)
  · exact hinv.disabled f hf hdisabled

/-- A process with a function at `0x100001000` and nothing registered. -/
def untracedKernel : Kernel :=
  { ctx := { pid := 1, mms := [], vmArea := [], files := fun _ => none
             ftMdBase := none, stMdBase := none }
    straceHeads := Heap.empty
    straceNodes := Heap.empty
    ftraceHeads := Heap.empty
    ftraceNodes := Heap.empty
    mem := fun a => if a = 0x100001000 then 0x55 else 0x48 }

/-- A call on that function. -/
def sampleCall (action : U64) : FtraceCall :=
  { faddr := 0x100001000, action := action, nargs := 2, fdTraceBuffer := 3 }

/-- Adding, enabling and disabling the function. -/
theorem ftrace_code_intact_sample :
    let calls := [ADD_FTRACE, ENABLE_FTRACE, DISABLE_FTRACE].map sampleCall
    ∃ s, Runs.run ftraceStep ⟨untracedKernel, fun _ => none⟩ calls = some s ∧
      (∀ f ∈ [(0x100001000 : U64)],
        registration s.k f = none ∨ s.lastSwitch f = some DISABLE_FTRACE →
          codeBytes s.k.mem f = codeBytes untracedKernel.mem f) ∧
      ∀ call s', ftraceStep s call = some s' → ∀ a, s'.k.mem a ≠ s.k.mem a →
        ∃ info, registration s.k call.faddr = some info ∧
          ∃ i < 4, a = call.faddr + BitVec.ofNat 64 i := by
  intro calls
  refine ftrace_code_intact rfl ?_ ?_
  · intro f hf g hg
    exact Or.inl ((List.mem_singleton.mp hf).trans (List.mem_singleton.mp hg).symm)
  · refine .cons rfl ⟨by decide, fun _ info h => ?_⟩ (.cons rfl ⟨by decide, fun _ info h => ?_⟩
      (.cons rfl ⟨by decide, fun _ info h => ?_⟩ trivial))
    · cases h
    · obtain rfl := Option.some.inj h
      exact ⟨fun _ => ⟨by decide, Or.inl rfl⟩, fun h => absurd h (by decide)⟩
    · obtain rfl := Option.some.inj h
      exact ⟨fun h => absurd h (by decide), fun h => absurd h (by decide)⟩

/-- Enabling twice and disabling leaves the function invalid: the second enabling has saved the
patched code. -/
theorem ftrace_enable_twice_corrupts :
    ∃ s, Runs.run ftraceStep ⟨untracedKernel, fun _ => none⟩
        ([ADD_FTRACE, ENABLE_FTRACE, ENABLE_FTRACE, DISABLE_FTRACE].map sampleCall) = some s ∧
      s.lastSwitch 0x100001000 = some DISABLE_FTRACE ∧
      codeBytes s.k.mem 0x100001000 ≠ codeBytes untracedKernel.mem 0x100001000 := by
  refine ⟨_, rfl, rfl, fun h => ?_⟩
  exact absurd (congrFun h 0) (by decide)

end GemOS.Tracer
