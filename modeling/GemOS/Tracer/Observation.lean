import GemOS.Tracer.Backtrace
import GemOS.Tracer.Transparency

/-!
# What tracing observes

Over whole runs, a program that is traced computes what it would compute without tracing, and the
trace buffers hold the records of the entries of the functions that were enabled at the time, in
order.
-/

namespace GemOS.Tracer

variable {Rest : Type} {functions : List U64} {regs : List (Nat × FtraceInfo)}
variable {cpu : Cpu Rest} {answer : Int → Rest → Rest} {fuel : Nat} {s s' : TracedProgram Rest}
variable {o : Observed Rest} {k k' : Kernel} {fd : CInt} {log log' : List (CInt × List U64)}
variable {events : List ProgramEvent}

/-! ## Buffers -/

/-- The records for one descriptor. -/
def recordsAt (fd : CInt) (log : List (CInt × List U64)) : List (List U64) :=
  (log.filter fun record => record.1 = fd).map Prod.snd

theorem recordsAt_append (record : CInt × List U64) : recordsAt fd (log ++ [record]) =
    recordsAt fd log ++ if record.1 = fd then [record.2] else [] := by
  unfold recordsAt
  split_ifs with heq
  · simp [heq]
  · simp [heq]

/-- The open files are trace buffers, and hold what they held in the kernel `k₀` and the records
of a log after it, as long as there is room for all of them. -/
structure BuffersHold (k₀ k : Kernel) (log : List (CInt × List U64)) : Prop where
  rings : ∀ fd, RingAt k fd
  holds : ∀ fd file queue, k₀.ctx.file fd = some file → Represents file.traceBuffer queue →
    queue.length + encodedSize (recordsAt fd log) ≤ 4096 →
    ∃ file', k.ctx.file fd = some file' ∧
      Represents file'.traceBuffer (queue ++ encode (recordsAt fd log))

theorem BuffersHold.start (hrings : ∀ fd, RingAt k fd) : BuffersHold k k [] := by
  refine ⟨hrings, fun fd file queue hfile hqueue _ => ⟨file, hfile, ?_⟩⟩
  simpa [recordsAt, encode] using hqueue

/-- An event appends its record whole if there is room for it. -/
theorem BuffersHold.step {k₀ : Kernel} (h : BuffersHold k₀ k log) (hlogs : Logs k log k' log') :
    BuffersHold k₀ k' log' := by
  rcases hlogs with ⟨rfl, hfiles⟩ | ⟨mem, target, words, rfl, hwrite⟩
  · have hfile : ∀ fd, k'.ctx.file fd = k.ctx.file fd := fun fd => congrFun hfiles fd.toNat
    refine ⟨fun fd file hopen => h.rings fd file (hfile fd ▸ hopen), fun fd => ?_⟩
    rw [hfile fd]
    exact h.holds fd
  · have hrecord := fun fd => write_record_at (k := { k with mem := mem }) fd words
      (h.rings target)
    refine ⟨fun fd file hopen => ?_, fun fd file queue hfile hqueue hroom => ?_⟩
    · obtain ⟨k₁, hwrite₁, hother, hclosed, happend⟩ := hrecord fd
      obtain rfl := Option.some.inj (hwrite₁.symm.trans hwrite)
      by_cases htarget : fd = target
      · subst htarget
        cases hbefore : k.ctx.file fd with
        | none => exact nomatch (hclosed hbefore).symm.trans hopen
        | some file₀ =>
            obtain ⟨queue, hqueue⟩ := h.rings fd file₀ hbefore
            obtain ⟨file', hfile', hqueue'⟩ := happend file₀ queue hbefore hqueue
            obtain rfl := Option.some.inj (hfile'.symm.trans hopen)
            exact ⟨_, hqueue'⟩
      · exact h.rings fd file ((hother htarget).symm.trans hopen)
    · obtain ⟨k₁, hwrite₁, hother, _, happend⟩ := hrecord fd
      obtain rfl := Option.some.inj (hwrite₁.symm.trans hwrite)
      rw [recordsAt_append] at hroom ⊢
      by_cases htarget : fd = target
      · subst htarget
        rw [if_pos rfl, encoded_size_append] at hroom
        have hroom : queue.length + (encodedSize (recordsAt fd log) + encodedSize [words]) ≤ 4096 :=
          hroom
        rw [if_pos rfl, encode_append, ← List.append_assoc]
        obtain ⟨file₁, hfile₁, hqueue₁⟩ := h.holds fd file queue hfile hqueue (by omega)
        obtain ⟨file', hfile', hqueue'⟩ := happend file₁ _ hfile₁ hqueue₁
        refine ⟨file', hfile', ?_⟩
        rwa [Fifo.accepted_eq_self] at hqueue'
        rw [List.length_append, length_encode, length_encode]
        omega
      · rw [if_neg (Ne.symm htarget), List.append_nil] at hroom ⊢
        rw [hother htarget]
        exact h.holds fd file queue hfile hqueue hroom

/-! ## Code -/

/-- Nothing is registered, and the functions are as they were compiled. -/
theorem shown_start (hnone : s.k.ctx.ftMdBase = none)
    (hcompiled : ∀ f ∈ functions, codeBytes s.k.mem f = PROLOGUE) :
    Shown functions s s.start [] :=
  ⟨Or.inl ⟨hnone, rfl⟩, ⟨⟨nofun, nofun, fun _ _ _ => rfl, nofun⟩, hcompiled,
    fun f hf => Or.inl (hcompiled f hf), fun _ _ => rfl⟩, rfl, rfl, rfl⟩

/-- The code of a function is overwritten exactly while it is enabled. -/
theorem Shown.code_eq (h : Shown functions s o regs) {f : U64} (hf : f ∈ functions) :
    codeBytes s.k.mem f =
      if ∃ p ∈ o.probes, p.faddr = f ∧ p.enabled then fun _ => INV_OPCODE else PROLOGUE := by
  split_ifs with hprobe
  · obtain ⟨p, hp, rfl, henabled⟩ := hprobe
    rw [h.probes] at hp
    obtain ⟨x, hx, rfl⟩ := List.mem_map.mp hp
    exact (h.code.first hf).mpr (of_decide_eq_true henabled)
  · refine h.code.whole hf fun hfirst => ?_
    by_cases hregistered : ∃ x ∈ regs, x.2.faddr = f
    · obtain ⟨x, hx, rfl⟩ := hregistered
      refine hprobe ⟨probeOf s.k.mem x.2, ?_, rfl, decide_eq_true hfirst⟩
      rw [h.probes]
      exact List.mem_map_of_mem hx
    · have hcode := h.code.code.unregistered f hf fun x hx heq => hregistered ⟨x, hx, heq⟩
      rw [h.code.compiled f hf] at hcode
      have hbyte := congrFun hcode 0
      rw [code_bytes_first, hfirst] at hbyte
      exact absurd hbyte (by decide)

/-! ## A sample program -/

/-- A processor that knows the two instructions and `nop`. -/
def sampleCpu : Cpu U64 := fun u =>
  let rip := u.regs.entryRip
  if u.mem rip = 0x55 then some u.pushFrame
  else if u.mem rip = 0x48 ∧ u.mem (rip + 1) = 0x89 ∧ u.mem (rip + 2) = 0xe5 then some u.moveFrame
  else if u.mem rip = 0x90 then some { u with regs := { u.regs with entryRip := rip + 1 } }
  else none

theorem sampleCpu_decodes : Decodes sampleCpu := by
  refine ⟨fun u hcode => ?_, fun u hfirst => if_pos hfirst, fun u h0 h1 h2 => ?_⟩
  · have hfirst : u.mem u.regs.entryRip = 0xFF := by
      rw [← code_bytes_first u.mem, hcode]
      rfl
    simp [sampleCpu, hfirst]
  · have hne : u.mem u.regs.entryRip ≠ 0x55 := by
      rw [h0]
      decide
    exact (if_neg hne).trans (if_pos ⟨h0, h1, h2⟩)

/-- The result of a call, in the register that the processor has beside those of the handler. -/
def sampleAnswer (ret : Int) (_ : U64) : U64 :=
  BitVec.ofInt 64 ret

/-- A function of four bytes and instructions that do nothing, about to be entered from `main`. -/
def sampleProgram : TracedProgram U64 :=
  { rest := 0
    regs := ⟨7, 8, 0, 0, 0, 0x7ff000, 0x100001000, 0x7fe000⟩
    k := { untracedKernel.withFile 3 sampleFile with
      mem := patch (storeWord (fun _ => 0x90) 0x7fe000 END_ADDR) 0x100001000 PROLOGUE } }

/-- The function is traced, entered, and traced no more. -/
def sampleProgramEvents : List ProgramEvent :=
  [.ftrace (sampleCall ADD_FTRACE), .ftrace (sampleCall ENABLE_FTRACE), .exec, .exec,
    .ftrace (sampleCall DISABLE_FTRACE)]

theorem sampleProgram_apart :
    ∀ f ∈ [(0x100001000 : U64)], ∀ g ∈ [(0x100001000 : U64)], Apart f g := by
  intro f hf g hg
  exact Or.inl ((List.mem_singleton.mp hf).trans (List.mem_singleton.mp hg).symm)

theorem sampleProgram_compiled :
    ∀ f ∈ [(0x100001000 : U64)], codeBytes sampleProgram.k.mem f = PROLOGUE := by
  intro f hf
  obtain rfl := List.mem_singleton.mp hf
  exact code_bytes_patch _ _ _

theorem sampleProgram_runs :
    ∃ s', Runs.run (tracedStep sampleCpu sampleAnswer (SCRATCH_WORDS + 1)) sampleProgram
      sampleProgramEvents = some s' :=
  Option.isSome_iff_exists.mp rfl

/-- Only the trace buffer is open. -/
theorem sampleProgram_rings : ∀ fd, RingAt sampleProgram.k fd := by
  intro fd file hfile
  by_cases hfd : fd.toNat = 3
  · obtain rfl : fd = 3 := BitVec.eq_of_toNat_eq hfd
    obtain rfl := Option.some.inj hfile
    exact ⟨[], sample_file_empty⟩
  · have hclosed : sampleProgram.k.ctx.file fd = none := Function.update_of_ne hfd _ _
    cases hclosed.symm.trans hfile

/-- The program and its stack are elsewhere. -/
theorem not_mem_sampleCode {a : U64} (h : 4 ≤ (a - 0x100001000).toNat) :
    a ∉ codeArea [0x100001000] := by
  rintro ⟨f, hf, i, hi, rfl⟩
  obtain rfl := List.mem_singleton.mp hf
  bv_omega

/-- A function is entered from `main`. -/
theorem callChain_main {u : User Rest} (hlow : 8 ≤ u.regs.entryRsp.toNat)
    (hhigh : u.regs.entryRsp.toNat + 8 ≤ 2 ^ 64)
    (hmain : loadWord u.mem u.regs.entryRsp = END_ADDR) : callChain (fuel + 1) u = some [] := by
  have hreturn : u.regs.entryRsp - 8 + 8 = u.regs.entryRsp := BitVec.sub_add_cancel _ _
  have hload : loadWord (storeWord u.mem (u.regs.entryRsp - 8) u.regs.rbp) u.regs.entryRsp =
      END_ADDR := (load_store_other (by bv_omega) hhigh).trans hmain
  simp only [callChain, User.pushFrame, hreturn, hload, walkFrames, if_true]

theorem sampleCpu_eq {u : User U64} (hnop : u.mem u.regs.entryRip = 0x90) :
    sampleCpu u = some { u with regs := { u.regs with entryRip := u.regs.entryRip + 1 } } := by
  simp [sampleCpu, hnop]

/-- `nop` outside the function. -/
theorem sampleCpu_nop {u u' : User U64} (hnop : u.mem u.regs.entryRip = 0x90)
    (hout : u.regs.entryRip ∉ codeArea [0x100001000]) (hu : sampleCpu u = some u') :
    LeavesCode sampleCpu [0x100001000] u u' := by
  obtain rfl := Option.some.inj ((sampleCpu_eq hnop).symm.trans hu)
  refine ⟨fun _ _ => rfl, fun mem hmem =>
    ⟨mem, sampleCpu_eq (u := { u with mem := mem }) ?_, fun _ _ => rfl, fun a ha => ?_⟩⟩
  · show mem u.regs.entryRip = _
    rw [hmem fun hin => hout ?_, hnop]
    obtain ⟨f, hf, _, hi⟩ := hin
    exact ⟨f, hf, hi⟩
  · refine hmem fun hin => ha ?_
    obtain ⟨f, hf, _, hi⟩ := hin
    exact ⟨f, hf, hi⟩

/-- The stack of `main`. -/
theorem sampleStack_clear {u : User U64} (hrsp : u.regs.entryRsp = 0x7fe000)
    (hmain : loadWord u.mem 0x7fe000 = END_ADDR) :
    StackClear [0x100001000] (SCRATCH_WORDS + 1) u := by
  have hchain : ∀ mem : UserMem, loadWord mem 0x7fe000 = END_ADDR →
      callChain (SCRATCH_WORDS + 1) { u with mem := mem } = some [] := fun mem hmem =>
    callChain_main (by rw [hrsp]; decide) (by rw [hrsp]; decide) (by rw [hrsp]; exact hmem)
  refine ⟨fun i hi => not_mem_sampleCode ?_, fun mem hmem => ?_⟩
  · rw [hrsp]
    bv_omega
  · rw [hchain u.mem hmain]
    refine hchain mem ?_
    have hbyte : ∀ a : U64, 4 ≤ (a - 0x100001000).toNat → mem a = u.mem a := fun a ha =>
      hmem (not_mem_sampleCode ha)
    rw [← hmain, loadWord, loadWord, hbyte _ (by decide), hbyte _ (by decide),
      hbyte _ (by decide), hbyte _ (by decide), hbyte _ (by decide), hbyte _ (by decide),
      hbyte _ (by decide), hbyte _ (by decide)]

theorem sampleProgram_clear : Runs.AllSteps (tracedStep sampleCpu sampleAnswer
    (SCRATCH_WORDS + 1)) (EventClear sampleCpu [0x100001000] (SCRATCH_WORDS + 1)) sampleProgram
    sampleProgramEvents := by
  refine .cons rfl ⟨by decide, fun h => absurd h (by decide), fun h => absurd h (by decide)⟩
    (.cons rfl ⟨by decide, fun _ => by decide, fun h => absurd h (by decide)⟩
    (.cons rfl ⟨fun u hu => ?_, fun _ => ?_⟩ (.cons rfl ⟨fun u hu => ?_, fun hnone => ?_⟩
    (.cons rfl ⟨by decide, fun h => absurd h (by decide), fun h => absurd h (by decide)⟩ trivial))))
  · cases (show (none : Option (User U64)) = some u from hu)
  · exact sampleStack_clear rfl (by decide)
  · exact sampleCpu_nop (by decide) (not_mem_sampleCode (by decide)) hu
  · rw [sampleCpu_eq (by decide)] at hnone
    exact absurd hnone (Option.some_ne_none _)

/-! ## Every run -/

/-- A program that is traced computes what it computes without tracing: for every run there is a
run of the same program on the code that was compiled, with the same calls, which ends with the
same registers and the same memory. Only the code of functions differs, and only of those that are
enabled. -/
theorem tracing_transparent (hcpu : Decodes cpu)
    (hapart : ∀ f ∈ functions, ∀ g ∈ functions, Apart f g) (hnone : s.k.ctx.ftMdBase = none)
    (hcompiled : ∀ f ∈ functions, codeBytes s.k.mem f = PROLOGUE)
    (hclear : Runs.AllSteps (tracedStep cpu answer fuel) (EventClear cpu functions fuel) s events)
    (hrun : Runs.run (tracedStep cpu answer fuel) s events = some s') :
    ∃ events' o, Runs.run (observedStep cpu answer fuel) s.start events' = some o ∧
      events'.flatMap ProgramEvent.calls = events.flatMap ProgramEvent.calls ∧
      o.user.rest = s'.rest ∧ o.user.regs = s'.regs ∧
      Set.EqOn s'.k.mem o.user.mem (codeArea functions)ᶜ ∧
      ∀ f ∈ functions, codeBytes o.user.mem f = PROLOGUE ∧ codeBytes s'.k.mem f =
        if ∃ p ∈ o.probes, p.faddr = f ∧ p.enabled then fun _ => INV_OPCODE else PROLOGUE := by
  have hstart : ∃ regs, Shown functions s s.start regs := ⟨[], shown_start hnone hcompiled⟩
  have hstep : ∀ (s : TracedProgram Rest) (o : Observed Rest) (event : ProgramEvent)
      (s' : TracedProgram Rest),
      (∃ regs, Shown functions s o regs) → EventClear cpu functions fuel s event →
      tracedStep cpu answer fuel s event = some s' →
      ∃ events o', Runs.run (observedStep cpu answer fuel) o events = some o' ∧
        events.flatMap ProgramEvent.calls = event.calls ∧ ∃ regs, Shown functions s' o' regs := by
    intro s o event s' h hclear hstep
    obtain ⟨events, o', hrun, hcalls, _, h'⟩ := Shown.step hcpu hapart h hclear hstep
    exact ⟨events, o', hrun, hcalls, h'⟩
  obtain ⟨events', o, hrun', hcalls, regs, h⟩ := Runs.run_matched hstep hstart hclear hrun
  exact ⟨events', o, hrun', hcalls, h.rest, h.saved, h.code.same,
    fun f hf => ⟨h.code.compiled f hf, h.code_eq hf⟩⟩

theorem tracing_transparent_sample :
    ∃ s', Runs.run (tracedStep sampleCpu sampleAnswer (SCRATCH_WORDS + 1)) sampleProgram
        sampleProgramEvents = some s' ∧
      ∃ events' o, Runs.run (observedStep sampleCpu sampleAnswer (SCRATCH_WORDS + 1))
          sampleProgram.start events' = some o ∧
        events'.flatMap ProgramEvent.calls = sampleProgramEvents.flatMap ProgramEvent.calls ∧
        o.user.rest = s'.rest ∧ o.user.regs = s'.regs ∧
        Set.EqOn s'.k.mem o.user.mem (codeArea [0x100001000])ᶜ ∧
        ∀ f ∈ [0x100001000], codeBytes o.user.mem f = PROLOGUE ∧ codeBytes s'.k.mem f =
          if ∃ p ∈ o.probes, p.faddr = f ∧ p.enabled then fun _ => INV_OPCODE else PROLOGUE := by
  obtain ⟨s', hrun⟩ := sampleProgram_runs
  exact ⟨s', hrun, tracing_transparent sampleCpu_decodes sampleProgram_apart rfl
    sampleProgram_compiled sampleProgram_clear hrun⟩

/-- The trace buffers hold the entries: in the run of the program on the code that was compiled,
every entry of a function that is enabled at the time makes a record, and a buffer with room for
its records holds them in order behind what it held before. -/
theorem entries_recorded (hcpu : Decodes cpu)
    (hapart : ∀ f ∈ functions, ∀ g ∈ functions, Apart f g) (hnone : s.k.ctx.ftMdBase = none)
    (hcompiled : ∀ f ∈ functions, codeBytes s.k.mem f = PROLOGUE)
    (hrings : ∀ fd, RingAt s.k fd)
    (hclear : Runs.AllSteps (tracedStep cpu answer fuel) (EventClear cpu functions fuel) s events)
    (hrun : Runs.run (tracedStep cpu answer fuel) s events = some s') :
    ∃ events' o, Runs.run (observedStep cpu answer fuel) s.start events' = some o ∧
      events'.flatMap ProgramEvent.calls = events.flatMap ProgramEvent.calls ∧
      o.user.regs = s'.regs ∧
      ∀ fd file queue, s.k.ctx.file fd = some file → Represents file.traceBuffer queue →
        queue.length + encodedSize (recordsAt fd o.log) ≤ 4096 →
        ∃ file', s'.k.ctx.file fd = some file' ∧
          Represents file'.traceBuffer (queue ++ encode (recordsAt fd o.log)) := by
  have hstart : (∃ regs, Shown functions s s.start regs) ∧ BuffersHold s.k s.k s.start.log :=
    ⟨⟨[], shown_start hnone hcompiled⟩, BuffersHold.start hrings⟩
  have hstep : ∀ (s₁ : TracedProgram Rest) (o : Observed Rest) (event : ProgramEvent)
      (s' : TracedProgram Rest),
      (∃ regs, Shown functions s₁ o regs) ∧ BuffersHold s.k s₁.k o.log →
      EventClear cpu functions fuel s₁ event → tracedStep cpu answer fuel s₁ event = some s' →
      ∃ events o', Runs.run (observedStep cpu answer fuel) o events = some o' ∧
        events.flatMap ProgramEvent.calls = event.calls ∧
        (∃ regs, Shown functions s' o' regs) ∧ BuffersHold s.k s'.k o'.log := by
    intro s₁ o event s' h hclear hstep
    obtain ⟨events, o', hrun, hcalls, hlogs, h'⟩ := Shown.step hcpu hapart h.1 hclear hstep
    exact ⟨events, o', hrun, hcalls, h', h.2.step hlogs⟩
  obtain ⟨events', o, hrun', hcalls, ⟨regs, h⟩, hbuffers⟩ :=
    Runs.run_matched hstep hstart hclear hrun
  exact ⟨events', o, hrun', hcalls, h.saved, hbuffers.holds⟩

theorem entries_recorded_sample :
    ∃ s', Runs.run (tracedStep sampleCpu sampleAnswer (SCRATCH_WORDS + 1)) sampleProgram
        sampleProgramEvents = some s' ∧
      ∃ events' o, Runs.run (observedStep sampleCpu sampleAnswer (SCRATCH_WORDS + 1))
          sampleProgram.start events' = some o ∧
        events'.flatMap ProgramEvent.calls = sampleProgramEvents.flatMap ProgramEvent.calls ∧
        o.user.regs = s'.regs ∧
        ∀ fd file queue, sampleProgram.k.ctx.file fd = some file →
          Represents file.traceBuffer queue →
          queue.length + encodedSize (recordsAt fd o.log) ≤ 4096 →
          ∃ file', s'.k.ctx.file fd = some file' ∧
            Represents file'.traceBuffer (queue ++ encode (recordsAt fd o.log)) := by
  obtain ⟨s', hrun⟩ := sampleProgram_runs
  exact ⟨s', hrun, entries_recorded sampleCpu_decodes sampleProgram_apart rfl
    sampleProgram_compiled sampleProgram_rings sampleProgram_clear hrun⟩

/-- The observer makes one record, of the function and its two arguments. -/
example : (Runs.run (observedStep sampleCpu sampleAnswer 1) sampleProgram.start
    [.ftrace (sampleCall ADD_FTRACE), .ftrace (sampleCall ENABLE_FTRACE), .exec, .exec, .exec,
      .ftrace (sampleCall DISABLE_FTRACE)]).map Observed.log =
    some [(3, [0x100001000, 7, 8])] := by
  decide

end GemOS.Tracer
