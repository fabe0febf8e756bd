import GemOS.Tracer.StraceList

/-!
# The life cycle of strace

Calls of `sys_strace`, `sys_start_strace`, `sys_end_strace` and `perform_tracing` in any order.
As long as `sys_end_strace` is not called the list stays complete and every call returns.
`sys_end_strace` itself always touches what it must not: without a head or without a traced call
it follows a null pointer, and otherwise it reads the link of the node it has just freed.
-/

namespace GemOS.Tracer

open LinkedList

/-- A call of the strace interface, or a system call that passes through `perform_tracing`. -/
inductive StraceCall where
  | strace (syscallNum action : CInt)
  | startStrace (fd tracingMode : CInt)
  | endStrace
  | performTracing (call : Syscall)

/-- The process after a call; `none` when the call follows a null pointer to a strace record or
touches one that was freed. How `perform_tracing` fares with the file behind the descriptor does
not matter here. -/
def StraceCall.step (k : Kernel) : StraceCall → Option Kernel
  | .strace syscallNum action => (sysStrace k syscallNum action).map Prod.snd
  | .startStrace fd tracingMode => (sysStartStrace k fd tracingMode).map Prod.snd
  | .endStrace => (sysEndStrace k).map Prod.snd
  | .performTracing call => do
      let _ ← traceTarget k call.num
      some ((Tracer.performTracing k call).elim k Prod.snd)

/-- Tracing is not configured: the list is empty and no system call is recorded. -/
def NotConfigured (k : Kernel) : Prop :=
  Straced k [] ∧ ∀ num, traceTarget k num = some none

/-- What a sequence of calls should do: every call returns, and after `sys_end_strace` tracing is
not configured. -/
def LifeCycleOk (k : Kernel) (calls : List StraceCall) : Prop :=
  (Runs.run StraceCall.step k calls).isSome ∧
  ∀ before after k', calls = before ++ .endStrace :: after →
    Runs.run StraceCall.step k (before ++ [.endStrace]) = some k' → NotConfigured k'

/-! ## What each call does -/

variable {k : Kernel} {xs : List (Nat × StraceInfo)}

/-- The list depends on the strace records only. -/
theorem Straced.congr {k' : Kernel} (h : Straced k xs) (hbase : k'.ctx.stMdBase = k.ctx.stMdBase)
    (hheads : k'.straceHeads = k.straceHeads) (hnodes : k'.straceNodes = k.straceNodes) :
    Straced k' xs := by
  unfold Straced
  rw [hbase, hheads, hnodes]
  exact h

theorem sys_strace_straced (h : Straced k xs) (syscallNum action : CInt) :
    ∃ ret k' xs', sysStrace k syscallNum action = some (ret, k') ∧ Straced k' xs' := by
  by_cases hadd : action = ADD_STRACE
  · obtain ⟨ret, k', xs', hrun, hxs', _⟩ := sys_strace_cases h (.add syscallNum)
    exact ⟨ret, k', xs', hadd ▸ hrun, hxs'⟩
  by_cases hremove : action = REMOVE_STRACE
  · obtain ⟨ret, k', xs', hrun, hxs', _⟩ := sys_strace_cases h (.remove syscallNum)
    exact ⟨ret, k', xs', hremove ▸ hrun, hxs'⟩
  · obtain ⟨base, head, k', hmd, hbase, hhead, _, _, hok, hlen⟩ := strace_base_straced h
    refine ⟨0, k', xs, ?_, Or.inr ⟨base, head, hbase, hhead, hok, hlen⟩⟩
    simp only [sysStrace, hmd, hhead, if_neg hadd, if_neg hremove, Option.bind_eq_bind,
      Option.bind_some]

theorem sys_start_strace_straced (h : Straced k xs) (fd tracingMode : CInt) :
    ∃ ret k', sysStartStrace k fd tracingMode = some (ret, k') ∧ Straced k' xs := by
  unfold sysStartStrace
  by_cases hfd : fd.slt 0
  · exact ⟨_, k, if_pos hfd, h⟩
  rw [if_neg hfd]
  by_cases hmode : tracingMode ≠ FULL_TRACING ∧ tracingMode ≠ FILTERED_TRACING
  · exact ⟨_, k, if_pos hmode, h⟩
  rw [if_neg hmode]
  obtain ⟨base, head, k', hmd, hbase, hhead, _, _, hok, hlen⟩ := strace_base_straced h
  obtain ⟨heads, hstore, _, hstraced⟩ := store_strace_head
    { head with straceFd := fd, isTraced := k'.ctx.pid, tracingMode := tracingMode }
    hok hlen hbase hhead
  refine ⟨0, _, ?_, hstraced⟩
  simp only [hmd, hhead, hstore, Option.bind_eq_bind, Option.bind_some]

/-- The checks of `perform_tracing` always end. -/
theorem trace_target_straced (h : Straced k xs) (num : U64) :
    ∃ target, traceTarget k num = some target := by
  rcases h with ⟨hbase, _⟩ | ⟨base, head, hbase, hhead, hok, _⟩
  · refine ⟨none, ?_⟩
    simp only [traceTarget, hbase, ite_self]
  · have hto : TracesTo k head.straceFd := ⟨base, head, xs, hbase, hhead, rfl, hok.seg, hok.nodup⟩
    exact (hto.target num).elim (fun h => ⟨_, h⟩) (fun h => ⟨_, h⟩)

/-- Writing to a file changes the descriptor table only. -/
theorem write_file_straced {fd : CInt} {src : Nat → U8} {count : U32} {k' : Kernel}
    (hwrite : writeFile k fd src count = some k') (h : Straced k xs) : Straced k' xs := by
  simp only [writeFile, Option.bind_eq_bind, Option.bind_eq_some_iff, Option.some.injEq] at hwrite
  obtain ⟨_, _, rfl⟩ := hwrite
  exact h.congr rfl rfl rfl

theorem write_words_straced {fd : CInt} {words : List U64} {k' : Kernel}
    (hwrite : writeWords k fd words = some k') (h : Straced k xs) : Straced k' xs := by
  induction words generalizing k with
  | nil => exact Option.some.inj hwrite ▸ h
  | cons word words ih =>
      simp only [writeWords, Option.bind_eq_bind, Option.bind_eq_some_iff] at hwrite
      obtain ⟨k₁, hword, hwords⟩ := hwrite
      exact ih hwords (write_file_straced hword h)

theorem perform_tracing_straced {call : Syscall} {ret : Int} {k' : Kernel}
    (hperform : performTracing k call = some (ret, k')) (h : Straced k xs) : Straced k' xs := by
  simp only [performTracing, Option.bind_eq_bind, Option.bind_eq_some_iff] at hperform
  obtain ⟨target, _, hperform⟩ := hperform
  cases target with
  | none =>
      obtain ⟨_, rfl⟩ := Prod.mk.inj (Option.some.inj hperform)
      exact h
  | some fd =>
      simp only [Option.bind_eq_some_iff, Option.some.injEq, Prod.mk.injEq] at hperform
      obtain ⟨k₁, hwords, k₂, hdelimiter, _, rfl⟩ := hperform
      exact write_file_straced hdelimiter (write_words_straced hwords h)

/-- `sys_end_strace` follows a null pointer or touches a freed node. -/
theorem sys_end_strace_fails (h : Straced k xs) : sysEndStrace k = none := by
  rcases h with ⟨hbase, _⟩ | ⟨base, head, hbase, hhead, hok, _⟩
  · simp only [sysEndStrace, hbase, Option.bind_eq_bind, Option.bind_none]
  rcases List.eq_nil_or_concat' xs with rfl | ⟨ys, ⟨q, c⟩, rfl⟩
  · have hlast : head.last = none := hok.last
    simp only [sysEndStrace, hbase, hhead, hlast, Option.bind_eq_bind, Option.bind_some,
      Option.bind_none, Option.bind_fun_none]
  · have hlast : head.last = some q := by rw [hok.last, lastPtr_concat]
    obtain ⟨_, _, _, next, hq, hnext⟩ := seg_append.mp hok.seg
    obtain rfl : next = none := hnext
    obtain ⟨p, cell, hfirst, hp⟩ :
        ∃ p cell, head.next = some p ∧ k.straceNodes.cell p = some cell := by
      cases ys with
      | nil => exact ⟨q, _, hok.seg.1, hq⟩
      | cons y ys =>
          obtain ⟨hy, next, hcell, _⟩ := hok.seg
          exact ⟨y.1, _, hy, hcell⟩
    obtain ⟨nodes, hfree, _⟩ := Heap.free_eq hp
    -- the first node is free when its link is read
    have hfreed : nodes.cell p = none := by
      rw [Heap.free, if_pos (by rw [hp]; rfl)] at hfree
      obtain rfl := Option.some.inj hfree
      exact Function.update_self _ _ _
    have hloop : freeTraced q (k.straceNodes.top + 1) head.next k.straceNodes = none := by
      simp only [freeTraced, hq, hfirst, hfree, hfreed, reduceCtorEq, if_false,
        Option.bind_eq_bind, Option.bind_some, Option.bind_none]
    simp only [sysEndStrace, hbase, hhead, hlast, hloop, Option.bind_eq_bind, Option.bind_some,
      Option.bind_none, Option.bind_fun_none]

/-! ## Sequences of calls -/

/-- Every call but `sys_end_strace` returns and leaves a complete list. -/
theorem StraceCall.step_straced (h : Straced k xs) {call : StraceCall}
    (hcall : call ≠ .endStrace) : ∃ k', call.step k = some k' ∧ ∃ xs', Straced k' xs' := by
  cases call with
  | strace syscallNum action =>
      obtain ⟨ret, k', xs', hrun, hxs'⟩ := sys_strace_straced h syscallNum action
      exact ⟨k', by rw [StraceCall.step, hrun]; rfl, xs', hxs'⟩
  | startStrace fd tracingMode =>
      obtain ⟨ret, k', hrun, hxs⟩ := sys_start_strace_straced h fd tracingMode
      exact ⟨k', by rw [StraceCall.step, hrun]; rfl, xs, hxs⟩
  | endStrace => exact absurd rfl hcall
  | performTracing call =>
      obtain ⟨target, htarget⟩ := trace_target_straced h call.num
      have hstep : (StraceCall.performTracing call).step k =
          some ((Tracer.performTracing k call).elim k Prod.snd) := by
        simp only [StraceCall.step, htarget, Option.bind_eq_bind, Option.bind_some]
      refine ⟨_, hstep, xs, ?_⟩
      cases hperform : Tracer.performTracing k call with
      | none => exact h
      | some answer => exact perform_tracing_straced hperform h

/-- A sequence of calls gets through when `sys_end_strace` is not among them. -/
theorem strace_calls_return_iff (h : Straced k xs) (calls : List StraceCall) :
    (Runs.run StraceCall.step k calls).isSome ↔ StraceCall.endStrace ∉ calls := by
  induction calls generalizing k xs with
  | nil => simp [Runs.run]
  | cons call calls ih =>
      by_cases hcall : call = .endStrace
      · have hnone : StraceCall.endStrace.step k = none := by
          rw [StraceCall.step, sys_end_strace_fails h, Option.map_none]
        subst hcall
        simp [Runs.run, hnone]
      · obtain ⟨k', hstep, xs', hxs'⟩ := StraceCall.step_straced h hcall
        rw [Runs.run, hstep, Option.bind_some, ih hxs', List.mem_cons, not_or]
        exact ⟨fun hcalls => ⟨Ne.symm hcall, hcalls⟩, And.right⟩

/-- A process without strace state goes through its life cycle properly exactly as long as it
does not call `sys_end_strace`. -/
theorem life_cycle_ok_iff (k : Kernel) (hbase : k.ctx.stMdBase = none)
    (calls : List StraceCall) : LifeCycleOk k calls ↔ StraceCall.endStrace ∉ calls := by
  have hreturn := strace_calls_return_iff (Or.inl ⟨hbase, rfl⟩) calls
  refine ⟨fun h => hreturn.mp h.1, fun h => ⟨hreturn.mpr h, ?_⟩⟩
  rintro before after k' rfl
  exact absurd (by simp) h

/-- Full tracing is started, a call is recorded, number 1 is put on the list. -/
theorem life_cycle_sample :
    LifeCycleOk noStraceKernel
      [.startStrace 3 FULL_TRACING, .performTracing ⟨2, 0, 0, 0, 0⟩, .strace 1 ADD_STRACE] :=
  (life_cycle_ok_iff noStraceKernel rfl _).mpr (by simp)

/-- One traced call and then `sys_end_strace`: the loop reads the node it has just freed. -/
theorem end_strace_reads_freed :
    ¬ LifeCycleOk noStraceKernel [.strace 1 ADD_STRACE, .endStrace] := by
  intro h
  have hnone : (Runs.run StraceCall.step noStraceKernel
    [.strace 1 ADD_STRACE, .endStrace]).isSome = false := by decide
  exact Bool.false_ne_true (hnone.symm.trans h.1)

end GemOS.Tracer
