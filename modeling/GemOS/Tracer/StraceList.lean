import GemOS.Lib.Runs
import GemOS.Tracer.RecordRoundTrip

/-!
# The list of traced system calls

`Straced k xs` relates the linked list of a process to the cells `xs` on it. `sys_strace_cases`
says once what a request can do to them; runs of requests are then compared with the history of
their answers (`tracedNums`, `Traced`), and the history decides what `perform_tracing` records.
-/

namespace GemOS.Tracer

open LinkedList

/-! ## Representation -/

/-- The system call numbers of list cells. -/
def numbers (xs : List (Nat × StraceInfo)) : List CInt :=
  xs.map fun x => x.2.syscallNum

/-- The list of traced calls of the current process: no head yet, or a head that stands for the
cells `xs`. -/
def Straced (k : Kernel) (xs : List (Nat × StraceInfo)) : Prop :=
  (k.ctx.stMdBase = none ∧ xs = []) ∨
  ∃ base head, k.ctx.stMdBase = some base ∧ k.straceHeads.cell base = some head ∧
    ListOk StraceInfo.syscallNum k.straceNodes head.next head.last head.count xs ∧
    xs.length ≤ 16

theorem Straced.numbers_nodup {k : Kernel} {xs : List (Nat × StraceInfo)} (h : Straced k xs) :
    (numbers xs).Nodup := by
  rcases h with ⟨_, rfl⟩ | ⟨_, _, _, _, hok, _⟩
  · exact List.nodup_nil
  · exact hok.keys

theorem Straced.length_le {k : Kernel} {xs : List (Nat × StraceInfo)} (h : Straced k xs) :
    xs.length ≤ 16 := by
  rcases h with ⟨_, rfl⟩ | ⟨_, _, _, _, _, hlen⟩
  · exact Nat.zero_le _
  · exact hlen

/-- The list head of the process is there after `straceBase`. -/
theorem strace_base_straced {k : Kernel} {xs : List (Nat × StraceInfo)} (h : Straced k xs) :
    ∃ base head k', straceBase k = (base, k') ∧ k'.ctx.stMdBase = some base ∧
      k'.straceHeads.cell base = some head ∧ k'.ctx.pid = k.ctx.pid ∧
      k'.ctx.files = k.ctx.files ∧
      ListOk StraceInfo.syscallNum k'.straceNodes head.next head.last head.count xs ∧
      xs.length ≤ 16 := by
  rcases h with ⟨hbase, rfl⟩ | ⟨base, head, hbase, hhead, hok, hlen⟩
  · have hmd : straceBase k = ((k.straceHeads.alloc newStraceHead).1,
        { k with
          straceHeads := (k.straceHeads.alloc newStraceHead).2
          ctx := { k.ctx with stMdBase := some (k.straceHeads.alloc newStraceHead).1 } }) := by
      simp only [straceBase, hbase]
    exact ⟨_, _, _, hmd, rfl, Heap.alloc_cell_self _ _, rfl, rfl, ListOk.nil _ _,
      Nat.zero_le _⟩
  · exact ⟨base, head, k, by simp only [straceBase, hbase], hbase, hhead, rfl, rfl, hok, hlen⟩

/-! ## Settings -/

/-- What the head of the list says about tracing: nothing before it is started, then the
descriptor and the mode. -/
def Started (k : Kernel) : Option (CInt × CInt) → Prop
  | none => k.ctx.stMdBase = none ∨ ∃ base head, k.ctx.stMdBase = some base ∧
      k.straceHeads.cell base = some head ∧ head.isTraced = 0
  | some target => ∃ base head, k.ctx.stMdBase = some base ∧
      k.straceHeads.cell base = some head ∧ head.isTraced = k.ctx.pid ∧
      head.straceFd = target.1 ∧ head.tracingMode = target.2

/-- What a call keeps of the head: the fields that are set by `sys_start_strace`. -/
structure SameSettings (k k' : Kernel) : Prop where
  pid : k'.ctx.pid = k.ctx.pid
  files : k'.ctx.files = k.ctx.files
  started : ∀ target, Started k target → Started k' target

theorem SameSettings.refl (k : Kernel) : SameSettings k k :=
  ⟨rfl, rfl, fun _ h => h⟩

theorem SameSettings.trans {k k' k'' : Kernel} (h : SameSettings k k') (h' : SameSettings k' k'') :
    SameSettings k k'' :=
  ⟨h'.pid.trans h.pid, h'.files.trans h.files,
    fun target hstarted => h'.started target (h.started target hstarted)⟩

/-- The process has one list head. -/
theorem head_unique {k : Kernel} {base base' : Nat} {head head' : StraceHead}
    (hbase : k.ctx.stMdBase = some base) (hhead : k.straceHeads.cell base = some head)
    (hbase' : k.ctx.stMdBase = some base') (hhead' : k.straceHeads.cell base' = some head') :
    base = base' ∧ head = head' := by
  obtain rfl := Option.some.inj (hbase.symm.trans hbase')
  exact ⟨rfl, Option.some.inj (hhead.symm.trans hhead')⟩

/-- The settings of a list head. -/
def settings (head : StraceHead) : CInt × CInt × CInt :=
  (head.isTraced, head.straceFd, head.tracingMode)

/-- The head is written back with the same settings. -/
theorem SameSettings.of_store {k : Kernel} {base : Nat} {head head' : StraceHead}
    {heads : Heap StraceHead}
    (nodes : Heap (Cell StraceInfo)) (hbase : k.ctx.stMdBase = some base)
    (hhead : k.straceHeads.cell base = some head)
    (hstore : k.straceHeads.store base head' = some heads)
    (hsame : settings head' = settings head) :
    SameSettings k { k with straceNodes := nodes, straceHeads := heads } := by
  obtain ⟨heads', hstore', hself, -⟩ := Heap.store_eq head' hhead
  obtain rfl := Option.some.inj (hstore.symm.trans hstore')
  simp only [settings, Prod.mk.injEq] at hsame
  obtain ⟨htraced, hfd, hmode⟩ := hsame
  refine ⟨rfl, rfl, fun target hstarted => ?_⟩
  cases target with
  | none =>
      refine Or.inr ⟨base, _, hbase, hself, ?_⟩
      rcases hstarted with hnone | ⟨base', head₁, hbase', hhead', hnot⟩
      · cases hbase.symm.trans hnone
      · obtain ⟨rfl, rfl⟩ := head_unique hbase hhead hbase' hhead'
        exact htraced.trans hnot
  | some target =>
      obtain ⟨base', head₁, hbase', hhead', hpid, hfd', hmode'⟩ := hstarted
      obtain ⟨rfl, rfl⟩ := head_unique hbase hhead hbase' hhead'
      exact ⟨base, _, hbase, hself, htraced.trans hpid, hfd.trans hfd', hmode.trans hmode'⟩

/-- The head is allocated on first use, with tracing off. -/
theorem strace_base_settings (k : Kernel) : SameSettings k (straceBase k).2 := by
  unfold straceBase
  cases hbase : k.ctx.stMdBase with
  | some base => exact SameSettings.refl k
  | none =>
      refine ⟨rfl, rfl, fun target hstarted => ?_⟩
      cases target with
      | none => exact Or.inr ⟨_, newStraceHead, rfl, Heap.alloc_cell_self _ _, rfl⟩
      | some target =>
          obtain ⟨base, head, hbase', -⟩ := hstarted
          cases hbase.symm.trans hbase'

/-! ## Requests -/

/-- A call of `sys_strace` with one of its two actions. -/
inductive StraceRequest where
  | add (syscallNum : CInt)
  | remove (syscallNum : CInt)
  deriving DecidableEq

def StraceRequest.run (k : Kernel) : StraceRequest → Option (Int × Kernel)
  | .add syscallNum => sysStrace k syscallNum ADD_STRACE
  | .remove syscallNum => sysStrace k syscallNum REMOVE_STRACE

/-- A request that cannot be met on a list of numbers. -/
def StraceRequest.Refused : StraceRequest → List CInt → Prop
  | .add syscallNum, nums => syscallNum ∈ nums ∨ nums.length = 16
  | .remove syscallNum, nums => syscallNum ∉ nums

/-- A list of numbers after a request that is met. -/
def StraceRequest.apply : StraceRequest → List CInt → List CInt
  | .add syscallNum, nums => nums ++ [syscallNum]
  | .remove syscallNum, nums => nums.erase syscallNum

/-- What a request makes of the list, and what it returns. -/
inductive StraceChange : StraceRequest → List (Nat × StraceInfo) → Int →
    List (Nat × StraceInfo) → Prop
  | refused {req : StraceRequest} {xs : List (Nat × StraceInfo)}
      (hrefused : req.Refused (numbers xs)) : StraceChange req xs (-EINVAL) xs
  | added {xs : List (Nat × StraceInfo)} {n : CInt} (node : Nat) (hnew : n ∉ numbers xs)
      (hroom : xs.length < 16) : StraceChange (.add n) xs 0 (xs ++ [(node, ⟨n⟩)])
  | removed {pre post : List (Nat × StraceInfo)} (node : Nat) (n : CInt) :
      StraceChange (.remove n) (pre ++ (node, ⟨n⟩) :: post) 0 (pre ++ post)

section Call

variable {k : Kernel} {base : Nat} {head : StraceHead} {xs : List (Nat × StraceInfo)}

/-- The state after a request: the answer, and the list it leaves. The settings are kept. -/
def StraceAnswers (answer : Option (Int × Kernel)) (k : Kernel) (req : StraceRequest)
    (xs : List (Nat × StraceInfo)) : Prop :=
  ∃ ret k' xs', answer = some (ret, k') ∧ Straced k' xs' ∧ StraceChange req xs ret xs' ∧
    SameSettings k k'

/-- Writing a head back. -/
theorem store_strace_head {nodes : Heap (Cell StraceInfo)} (head' : StraceHead)
    (hok : ListOk StraceInfo.syscallNum nodes head'.next head'.last head'.count xs)
    (hlen : xs.length ≤ 16) (hbase : k.ctx.stMdBase = some base)
    (hhead : k.straceHeads.cell base = some head) :
    ∃ heads, k.straceHeads.store base head' = some heads ∧ heads.cell base = some head' ∧
      Straced { k with straceNodes := nodes, straceHeads := heads } xs := by
  obtain ⟨heads, hstore, hself, _, _⟩ := Heap.store_eq head' hhead
  exact ⟨heads, hstore, hself, Or.inr ⟨base, head', hbase, hself, hok, hlen⟩⟩

/-- The search of `sys_strace`. -/
theorem find_traced
    (hok : ListOk StraceInfo.syscallNum k.straceNodes head.next head.last head.count xs)
    (n : CInt) :
    (findTraced k head (fun info => info.syscallNum = n) = some (lastPtr none xs, none) ∧
      n ∉ numbers xs) ∨
    ∃ pre node post, xs = pre ++ (node, ⟨n⟩) :: post ∧
      findTraced k head (fun info => info.syscallNum = n) =
        some (lastPtr none pre, some node) := by
  rcases hok.find (fun b => decide_eq_true_iff (p := b.syscallNum = n)) with
    hnone | ⟨pre, node, ⟨_⟩, post, hxs, rfl, hfind⟩
  · exact Or.inl hnone
  · exact Or.inr ⟨pre, node, post, hxs, hfind⟩

theorem add_strace_cases (n : CInt) (hbase : k.ctx.stMdBase = some base)
    (hhead : k.straceHeads.cell base = some head)
    (hok : ListOk StraceInfo.syscallNum k.straceNodes head.next head.last head.count xs)
    (hlen : xs.length ≤ 16) :
    StraceAnswers (addStrace k base head n) k (.add n) xs := by
  have hstraced : Straced k xs := Or.inr ⟨base, head, hbase, hhead, hok, hlen⟩
  have hcount := hok.count
  unfold addStrace
  by_cases hfull : head.count = STRACE_MAX
  · refine ⟨_, k, xs, if_pos hfull, hstraced, .refused (Or.inr ?_), SameSettings.refl k⟩
    rw [hcount] at hfull
    simpa [numbers] using Int.ofNat.inj hfull
  rw [if_neg hfull]
  have hroom : xs.length < 16 :=
    Nat.lt_of_le_of_ne hlen fun heq => hfull (by rw [hcount, heq]; rfl)
  rcases find_traced hok n with ⟨hfind, hnew⟩ | ⟨pre, node, post, rfl, hfind⟩
  · have hnode := fun x hx => hok.seg.alloc_ne ⟨⟨n⟩, none⟩ x hx
    have hlen' : (xs ++ [((k.straceNodes.alloc ⟨⟨n⟩, none⟩).1, (⟨n⟩ : StraceInfo))]).length ≤
        16 := by
      simp
      omega
    rcases List.eq_nil_or_concat' xs with rfl | ⟨ys, ⟨q, c⟩, rfl⟩
    · have hzero : head.count = 0 := hcount
      have hseg : Seg (k.straceNodes.alloc ⟨⟨n⟩, none⟩).2
          (some (k.straceNodes.alloc ⟨⟨n⟩, none⟩).1)
          ([] ++ [((k.straceNodes.alloc ⟨⟨n⟩, none⟩).1, (⟨n⟩ : StraceInfo))]) none :=
        ⟨rfl, none, Heap.alloc_cell_self _ _, rfl⟩
      obtain ⟨heads, hstore, _, hstraced'⟩ := store_strace_head
        { head with
          next := some (k.straceNodes.alloc ⟨⟨n⟩, none⟩).1
          last := some (k.straceNodes.alloc ⟨⟨n⟩, none⟩).1
          count := head.count + 1 } (hok.concat hseg hnode hnew) hlen' hbase hhead
      refine ⟨0, _, _, ?_, hstraced', .added _ hnew hroom,
        SameSettings.of_store _ hbase hhead hstore rfl⟩
      simp only [hfind, hzero] at hstore ⊢
      simp only [hstore, Option.bind_eq_bind, Option.bind_some, Option.isSome_none,
        Bool.false_eq_true, if_false, if_true]
    · have hlast : head.last = some q := by rw [hok.last, lastPtr_concat]
      have hzero : head.count ≠ 0 := by
        rw [hcount]
        simp
        omega
      obtain ⟨hcell, nodes, hlink, hseg⟩ := hok.seg.push_back hok.nodup ⟨n⟩
      obtain ⟨heads, hstore, _, hstraced'⟩ := store_strace_head
        { head with
          last := some (k.straceNodes.alloc ⟨⟨n⟩, none⟩).1
          count := head.count + 1 } (hok.concat hseg hnode hnew) hlen' hbase hhead
      refine ⟨0, _, _, ?_, hstraced', .added _ hnew hroom,
        SameSettings.of_store _ hbase hhead hstore rfl⟩
      simp only [hfind, hzero, hlast, hcell, hlink, hstore, Option.bind_eq_bind,
        Option.bind_some, Option.isSome_none, Bool.false_eq_true, if_false]
  · exact ⟨_, k, _, by simp [hfind], hstraced, .refused (Or.inl (by simp [numbers])),
      SameSettings.refl k⟩

theorem remove_strace_cases (n : CInt) (hbase : k.ctx.stMdBase = some base)
    (hhead : k.straceHeads.cell base = some head)
    (hok : ListOk StraceInfo.syscallNum k.straceNodes head.next head.last head.count xs)
    (hlen : xs.length ≤ 16) :
    StraceAnswers (removeStrace k base head n) k (.remove n) xs := by
  have hstraced : Straced k xs := Or.inr ⟨base, head, hbase, hhead, hok, hlen⟩
  unfold removeStrace
  rcases find_traced hok n with ⟨hfind, hnone⟩ | ⟨pre, node, post, rfl, hfind⟩
  · exact ⟨_, k, xs, by simp [hfind], hstraced, .refused hnone, SameSettings.refl k⟩
  have hlen' : (pre ++ post).length ≤ 16 := by
    simp at hlen ⊢
    omega
  rcases List.eq_nil_or_concat' pre with rfl | ⟨before, ⟨q, c⟩, rfl⟩
  · obtain ⟨next, nodes, hnode, hnext, hfree, hseg⟩ := hok.seg.unlink_first hok.nodup
    obtain ⟨heads, hstore, _, hstraced'⟩ := store_strace_head
      { head with
        next := next
        last := if post = [] then none else head.last
        count := head.count - 1 } (hok.erase hseg rfl rfl) hlen' hbase hhead
    refine ⟨0, _, _, ?_, hstraced', .removed node n, SameSettings.of_store _ hbase hhead hstore rfl⟩
    by_cases hpost : post = []
    · obtain rfl := hnext.mpr hpost
      simp only [if_pos hpost] at hstore
      simp only [hfind, hnode, lastPtr, hfree, hstore, Option.bind_eq_bind, Option.bind_some,
        Option.isNone_none, if_true]
    · obtain ⟨p, rfl⟩ := Option.ne_none_iff_exists'.mp (fun h => hpost (hnext.mp h))
      simp only [if_neg hpost] at hstore
      simp only [hfind, hnode, lastPtr, hfree, hstore, Option.bind_eq_bind, Option.bind_some,
        Option.isNone_some, Bool.false_eq_true, if_false]
  · rw [List.append_assoc, List.singleton_append] at hok
    obtain ⟨next, nodes₁, nodes, hnode, hnext, hprev, hlink, hfree, hseg⟩ :=
      hok.seg.unlink_after hok.nodup
    have hok' : ListOk StraceInfo.syscallNum nodes head.next
        (if post = [] then some q else head.last) (head.count - 1)
        ((before ++ [(q, c)]) ++ post) := by
      refine ListOk.erase (x := (node, ⟨n⟩)) (by simpa using hok) (by simpa using hseg) ?_ rfl
      rw [lastPtr_concat]
    obtain ⟨heads, hstore, _, hstraced'⟩ := store_strace_head
      { head with
        last := if post = [] then some q else head.last
        count := head.count - 1 } hok' hlen' hbase hhead
    refine ⟨0, _, _, ?_, hstraced', .removed node n, SameSettings.of_store _ hbase hhead hstore rfl⟩
    by_cases hpost : post = []
    · obtain rfl := hnext.mpr hpost
      simp only [if_pos hpost] at hstore
      simp only [hfind, hnode, lastPtr_concat, hprev, hlink, hfree, hstore,
        Option.bind_eq_bind, Option.bind_some, Option.isNone_none, if_true]
    · obtain ⟨p, rfl⟩ := Option.ne_none_iff_exists'.mp (fun h => hpost (hnext.mp h))
      simp only [if_neg hpost] at hstore
      simp only [hfind, hnode, lastPtr_concat, hprev, hlink, hfree, hstore,
        Option.bind_eq_bind, Option.bind_some, Option.isNone_some, Bool.false_eq_true, if_false]

/-- What a request does. It always returns, and keeps the settings of tracing. -/
theorem sys_strace_cases (h : Straced k xs) (req : StraceRequest) :
    StraceAnswers (req.run k) k req xs := by
  obtain ⟨base, head, k₁, hmd, hbase, hhead, _, _, hok, hlen⟩ := strace_base_straced h
  have hfirst : SameSettings k k₁ := by
    have := strace_base_settings k
    rwa [hmd] at this
  cases req with
  | add n =>
      simp only [StraceRequest.run, sysStrace, hmd, hhead, Option.bind_eq_bind, Option.bind_some,
        if_true]
      obtain ⟨ret, k', xs', hrun, hxs', hchange, hsame⟩ := add_strace_cases n hbase hhead hok hlen
      exact ⟨ret, k', xs', hrun, hxs', hchange, hfirst.trans hsame⟩
  | remove n =>
      have hne : REMOVE_STRACE ≠ ADD_STRACE := by decide
      simp only [StraceRequest.run, sysStrace, hmd, hhead, Option.bind_eq_bind, Option.bind_some,
        if_neg hne, if_true]
      obtain ⟨ret, k', xs', hrun, hxs', hchange, hsame⟩ :=
        remove_strace_cases n hbase hhead hok hlen
      exact ⟨ret, k', xs', hrun, hxs', hchange, hfirst.trans hsame⟩

end Call

/-! ## Histories -/

/-- The requests of a run and their answers, oldest first. -/
abbrev StraceLog := List (StraceRequest × Int)

/-- One request, entered in the history. -/
def straceStep (s : StraceLog × Kernel) (req : StraceRequest) : Option (StraceLog × Kernel) :=
  (req.run s.2).map fun answer => (s.1 ++ [(req, answer.1)], answer.2)

/-- Every `ADD_STRACE` that succeeds appends its number, every `REMOVE_STRACE` that succeeds
takes it out. -/
def tracedNums (log : StraceLog) : List CInt :=
  log.foldl (fun nums entry => if entry.2 = 0 then entry.1.apply nums else nums) []

/-- The last successful `ADD_STRACE` of a number is not followed by a successful
`REMOVE_STRACE` of it. -/
def Traced (log : StraceLog) (n : CInt) : Prop :=
  ∃ before after, log = before ++ (.add n, 0) :: after ∧ (.remove n, 0) ∉ after

theorem traced_nums_concat (log : StraceLog) (req : StraceRequest) (ret : Int) :
    tracedNums (log ++ [(req, ret)]) =
      if ret = 0 then req.apply (tracedNums log) else tracedNums log := by
  simp [tracedNums]

theorem not_traced_nil (n : CInt) : ¬ Traced [] n := by
  intro h
  obtain ⟨before, after, hlog, _⟩ := h
  simp at hlog

/-- One more entry of the history decides about its own number only. -/
theorem traced_concat (log : StraceLog) (entry : StraceRequest × Int) (n : CInt) :
    Traced (log ++ [entry]) n ↔
      entry = (.add n, 0) ∨ (Traced log n ∧ entry ≠ (.remove n, 0)) := by
  constructor
  · intro h'
    obtain ⟨before, after, hlog, hafter⟩ := h'
    rcases List.eq_nil_or_concat' after with rfl | ⟨after', last, rfl⟩
    · exact Or.inl (List.head_eq_of_cons_eq (List.append_inj' hlog rfl).2)
    · rw [← List.cons_append, ← List.append_assoc] at hlog
      obtain ⟨hbefore, hlast⟩ := List.append_inj' hlog rfl
      obtain rfl := List.head_eq_of_cons_eq hlast
      refine Or.inr ⟨⟨before, after', hbefore, fun h => hafter (by simp [h])⟩, ?_⟩
      intro heq
      subst heq
      exact hafter (by simp)
  · rintro (rfl | ⟨⟨before, after, rfl, hafter⟩, hentry⟩)
    · exact ⟨log, [], rfl, by simp⟩
    · exact ⟨before, after ++ [entry], by simp, by simp [hafter, hentry.symm]⟩

/-- A change of the list is the one the history records. -/
theorem StraceChange.recorded {req : StraceRequest} {xs xs' : List (Nat × StraceInfo)} {ret : Int}
    (h : StraceChange req xs ret xs') (hnodup : (numbers xs).Nodup) :
    numbers xs' = if ret = 0 then req.apply (numbers xs) else numbers xs := by
  cases h with
  | refused => rfl
  | added node hnew => simp [numbers, StraceRequest.apply]
  | removed node n =>
      have hpre := (ne_of_nodup hnodup).1
      simp only [if_true, StraceRequest.apply, numbers, List.map_append, List.map_cons]
      rw [List.erase_append_right, List.erase_cons_head]
      intro hmem
      obtain ⟨y, hy, hyn⟩ := List.mem_map.mp hmem
      exact hpre y hy hyn

/-- A request fails exactly when it is refused. -/
theorem StraceChange.ret {req : StraceRequest} {xs xs' : List (Nat × StraceInfo)} {ret : Int}
    (h : StraceChange req xs ret xs') :
    (req.Refused (numbers xs) ∧ ret = -EINVAL ∧ xs' = xs) ∨
      (¬ req.Refused (numbers xs) ∧ ret = 0) := by
  cases h with
  | refused hrefused => exact Or.inl ⟨hrefused, rfl, rfl⟩
  | added node hnew hroom =>
      refine Or.inr ⟨?_, rfl⟩
      intro h'
      rcases h' with hmem | hlen
      · exact hnew hmem
      · simp [numbers] at hlen
        omega
  | removed node n =>
      exact Or.inr ⟨fun hnot => hnot (by simp [numbers]), rfl⟩

/-- The list of the process agrees with a history. -/
def Agrees (s : StraceLog × Kernel) : Prop :=
  (∃ xs, Straced s.2 xs ∧ numbers xs = tracedNums s.1) ∧
    ∀ n, n ∈ tracedNums s.1 ↔ Traced s.1 n

/-- Membership after one more entry. -/
theorem mem_apply {nums : List CInt} (hnodup : nums.Nodup) (req : StraceRequest) (n : CInt) :
    n ∈ req.apply nums ↔ req = .add n ∨ (n ∈ nums ∧ req ≠ .remove n) := by
  cases req with
  | add m => simp [StraceRequest.apply, or_comm, eq_comm]
  | remove m => simp [StraceRequest.apply, hnodup.mem_erase_iff, and_comm, eq_comm]

/-- Every request keeps the list and its history in step. -/
theorem Agrees.step {s : StraceLog × Kernel} (h : Agrees s) (req : StraceRequest) :
    ∃ s', straceStep s req = some s' ∧ Agrees s' := by
  obtain ⟨⟨xs, hxs, hnums⟩, hmem⟩ := h
  obtain ⟨ret, k', xs', hrun, hxs', hchange, _⟩ := sys_strace_cases hxs req
  have hnums' := hchange.recorded hxs.numbers_nodup
  have hnodup : (tracedNums s.1).Nodup := hnums ▸ hxs.numbers_nodup
  refine ⟨_, by rw [straceStep, hrun]; rfl, ⟨xs', hxs', ?_⟩, fun n => ?_⟩
  · rw [traced_nums_concat, hnums', hnums]
  · rw [traced_nums_concat, traced_concat, ← hmem]
    rcases hchange.ret with ⟨_, rfl, _⟩ | ⟨_, rfl⟩
    · have hne := neg_einval_ne_zero
      simp [hne]
    · simp [mem_apply hnodup]

/-- A process without a list has an empty history. -/
theorem agrees_start {k : Kernel} (hbase : k.ctx.stMdBase = none) : Agrees ([], k) :=
  ⟨⟨[], Or.inl ⟨hbase, rfl⟩, rfl⟩, fun n => by simp [tracedNums, not_traced_nil]⟩

/-- Any run of requests ends, keeps the list and its history in step, and enters every
request. -/
theorem strace_run_agrees {s : StraceLog × Kernel} (h : Agrees s) (reqs : List StraceRequest) :
    ∃ s', Runs.run straceStep s reqs = some s' ∧ Agrees s' ∧
      s'.1.map Prod.fst = s.1.map Prod.fst ++ reqs := by
  induction reqs generalizing s with
  | nil => exact ⟨s, rfl, h, by simp⟩
  | cons req reqs ih =>
      obtain ⟨s₁, hstep, h₁⟩ := h.step req
      obtain ⟨s', hrun, h', hlog⟩ := ih h₁
      obtain ⟨answer, _, rfl⟩ := Option.map_eq_some_iff.mp hstep
      exact ⟨s', by rw [Runs.run, hstep]; exact hrun, h', by simpa using hlog⟩

/-! ## Filtered tracing -/

/-- A system call that filtered tracing records: a traced one other than `sys_start_strace` and
`sys_end_strace`. The list holds `int`s, which are compared after sign extension. -/
def Recorded (log : StraceLog) (num : U64) : Prop :=
  num ≠ 37 ∧ num ≠ 38 ∧ ∃ n : CInt, n.signExtend 64 = num ∧ Traced log n

open Classical in
/-- The calls of a run that filtered tracing records. -/
noncomputable def recordedCalls (log : StraceLog) (calls : List Syscall) : List Syscall :=
  calls.filter fun call => Recorded log call.num

theorem recorded_calls_skip {log : StraceLog} {call : Syscall} {calls : List Syscall}
    (h : ¬ Recorded log call.num) :
    recordedCalls log (call :: calls) = recordedCalls log calls :=
  List.filter_cons_of_neg (by simpa using h)

theorem recorded_calls_keep {log : StraceLog} {call : Syscall} {calls : List Syscall}
    (h : Recorded log call.num) :
    recordedCalls log (call :: calls) = call :: recordedCalls log calls :=
  List.filter_cons_of_pos (by simpa using h)

/-- `sys_start_strace` with a descriptor turns filtered tracing on and does not touch the
list. -/
theorem start_filtered {k : Kernel} {xs : List (Nat × StraceInfo)} (h : Straced k xs) {fd : CInt}
    (hfd : ¬ fd.slt 0) :
    ∃ k' base head, sysStartStrace k fd FILTERED_TRACING = some (0, k') ∧
      k'.ctx.files = k.ctx.files ∧ k'.ctx.pid = k.ctx.pid ∧
      k'.ctx.stMdBase = some base ∧ k'.straceHeads.cell base = some head ∧
      head.straceFd = fd ∧ head.isTraced = k.ctx.pid ∧ head.tracingMode = FILTERED_TRACING ∧
      ListOk StraceInfo.syscallNum k'.straceNodes head.next head.last head.count xs := by
  obtain ⟨base, head, k', hmd, hbase, hhead, hpid, hfiles, hok, hlen⟩ := strace_base_straced h
  obtain ⟨heads, hstore, hself, _⟩ := store_strace_head
    { head with straceFd := fd, isTraced := k'.ctx.pid, tracingMode := FILTERED_TRACING }
    hok hlen hbase hhead
  refine ⟨{ k' with straceHeads := heads }, base, _, ?_, hfiles, hpid, hbase, hself, rfl, hpid,
    rfl, hok⟩
  have hmode : ¬ (FILTERED_TRACING ≠ FULL_TRACING ∧ FILTERED_TRACING ≠ FILTERED_TRACING) :=
    fun h => h.2 rfl
  simp only [sysStartStrace, if_neg hfd, if_neg hmode, hmd, hhead, hstore, Option.bind_eq_bind,
    Option.bind_some]

/-- With filtered tracing on, the checks of `perform_tracing` select the numbers on the list. -/
theorem trace_target_filtered {k : Kernel} {base : Nat} {head : StraceHead}
    {xs : List (Nat × StraceInfo)} (hbase : k.ctx.stMdBase = some base)
    (hhead : k.straceHeads.cell base = some head) (htraced : head.isTraced = k.ctx.pid)
    (hpid : k.ctx.pid ≠ 0) (hmode : head.tracingMode = FILTERED_TRACING)
    (hok : ListOk StraceInfo.syscallNum k.straceNodes head.next head.last head.count xs)
    (num : U64) :
    (traceTarget k num).join.isSome ↔
      num ≠ 37 ∧ num ≠ 38 ∧ ∃ n : CInt, n.signExtend 64 = num ∧ n ∈ numbers xs := by
  by_cases hnum : num = 37 ∨ num = 38
  · rw [traceTarget, if_pos hnum]
    refine iff_of_false (by simp) ?_
    intro h
    obtain ⟨h37, h38, _⟩ := h
    exact hnum.elim h37 h38
  have hsearch := search_cases (fun info : StraceInfo => info.syscallNum.signExtend 64 = num)
    none hok.seg (Nat.lt_succ_of_le (hok.seg.length_le hok.nodup))
  simp only [traceTarget, if_neg hnum, hbase, hhead, htraced, hmode, if_neg hpid, ne_eq,
    not_true_eq_false, if_false, if_true, findTraced, Option.bind_eq_bind, Option.bind_some]
  rw [not_or] at hnum
  rcases hsearch with ⟨hfind, hnone⟩ | ⟨pre, node, info, post, rfl, hstop, hfind⟩
  · rw [hfind]
    refine iff_of_false (by simp) ?_
    intro h
    obtain ⟨_, _, n, hn, hmem⟩ := h
    obtain ⟨x, hx, rfl⟩ := List.mem_map.mp hmem
    exact of_decide_eq_false (hnone x hx) hn
  · rw [hfind]
    refine iff_of_true (by simp) ⟨hnum.1, hnum.2, info.syscallNum, of_decide_eq_true hstop, ?_⟩
    simp [numbers]

/-- The list of traced calls against the history of its requests, and what filtered tracing
then records. -/
theorem strace_history_exact (k : Kernel) (hbase : k.ctx.stMdBase = none)
    (reqs : List StraceRequest) :
    ∃ log k' xs, Runs.run straceStep ([], k) reqs = some (log, k') ∧ log.map Prod.fst = reqs ∧
      Straced k' xs ∧ numbers xs = tracedNums log ∧ (numbers xs).Nodup ∧ xs.length ≤ 16 ∧
      (∀ n, n ∈ numbers xs ↔ Traced log n) ∧
      (∀ req : StraceRequest, ∃ ret k'' xs', req.run k' = some (ret, k'') ∧ Straced k'' xs' ∧
        ((req.Refused (numbers xs) ∧ ret = -EINVAL ∧ xs' = xs) ∨
          (¬ req.Refused (numbers xs) ∧ ret = 0 ∧ numbers xs' = req.apply (numbers xs)))) ∧
      ∀ fd file queue calls, ¬ fd.slt 0 → k'.ctx.pid ≠ 0 → k'.ctx.file fd = some file →
        Represents file.traceBuffer queue →
        queue.length + encodedSize ((recordedCalls log calls).map Syscall.words) ≤ 4096 →
        ∃ k₁ file', sysStartStrace k' fd FILTERED_TRACING = some (0, k₁) ∧
          performAll k₁ calls = some (k₁.withFile fd file') ∧
          Represents file'.traceBuffer
            (queue ++ encode ((recordedCalls log calls).map Syscall.words)) := by
  obtain ⟨⟨log, k'⟩, hrun, ⟨⟨xs, hxs, hnums⟩, hmem⟩, hlog⟩ :=
    strace_run_agrees (agrees_start hbase) reqs
  have hmem' : ∀ n, n ∈ numbers xs ↔ Traced log n := fun n => by rw [hnums, hmem n]
  refine ⟨log, k', xs, hrun, by simpa using hlog, hxs, hnums, hxs.numbers_nodup, hxs.length_le,
    hmem', fun req => ?_, ?_⟩
  · obtain ⟨ret, k'', xs', hreq, hxs', hchange, _⟩ := sys_strace_cases hxs req
    refine ⟨ret, k'', xs', hreq, hxs', hchange.ret.imp id fun ⟨hok, hret⟩ => ⟨hok, hret, ?_⟩⟩
    rw [hchange.recorded hxs.numbers_nodup, if_pos hret]
  · intro fd file queue calls hfd hpid hfile hrep hfit
    obtain ⟨k₁, base, head, hstart, hfiles, hpid₁, hbase₁, hhead, hhfd, htraced, hmode, hok⟩ :=
      start_filtered hxs hfd
    have hselected : tracedRecords k₁ calls = (recordedCalls log calls).map Syscall.words := by
      rw [tracedRecords, recordedCalls]
      congr 1
      refine List.filter_congr fun call _ => Bool.eq_iff_iff.mpr ?_
      rw [trace_target_filtered hbase₁ hhead (by rw [htraced, hpid₁]) (hpid₁ ▸ hpid) hmode hok]
      simp only [hmem']
      exact (@decide_eq_true_iff _ (_)).symm
    have hto : TracesTo k₁ fd := ⟨base, head, xs, hbase₁, hhead, hhfd, hok.seg, hok.nodup⟩
    have hfile₁ : k₁.ctx.file fd = some file := by
      rw [← hfile, ExecContext.file, ExecContext.file, hfiles]
    obtain ⟨file', hcalls, hrep'⟩ :=
      perform_all_stores hto calls hrep (by rw [hselected]; exact hfit)
    rw [with_file_self hfile₁] at hcalls
    exact ⟨k₁, file', hstart, hcalls, hselected ▸ hrep'⟩

/-- The sample process before it used `sys_strace`. -/
def noStraceKernel : Kernel :=
  { sampleKernel with ctx := { sampleKernel.ctx with stMdBase := none } }.withFile 3 sampleFile

/-- Number 1 is added and removed, number 2 stays: of two calls, the one with number 2 is
recorded. -/
theorem strace_history_sample :
    ∃ k' k₁ file', Runs.run straceStep ([], noStraceKernel) [.add 1, .add 2, .remove 1] =
        some ([(.add 1, 0), (.add 2, 0), (.remove 1, 0)], k') ∧
      sysStartStrace k' 3 FILTERED_TRACING = some (0, k₁) ∧
      performAll k₁ [⟨1, 0, 0, 0, 0⟩, ⟨2, 0, 0, 0, 0⟩] = some (k₁.withFile 3 file') ∧
      Represents file'.traceBuffer (encode [[2]]) := by
  obtain ⟨log, k', xs, hrun, _, _, hnums, _, _, hmem, _, hfiltered⟩ :=
    strace_history_exact noStraceKernel rfl [.add 1, .add 2, .remove 1]
  obtain rfl : log = [(.add 1, 0), (.add 2, 0), (.remove 1, 0)] := by
    have hlog : (Runs.run straceStep ([], noStraceKernel) [.add 1, .add 2, .remove 1]).map
        Prod.fst = some [(.add 1, 0), (.add 2, 0), (.remove 1, 0)] := by decide
    rw [hrun] at hlog
    exact Option.some.inj hlog
  have hpid : k'.ctx.pid = 1 := by
    have hpid : (Runs.run straceStep ([], noStraceKernel) [.add 1, .add 2, .remove 1]).map
        (fun s => s.2.ctx.pid) = some 1 := by decide
    rw [hrun] at hpid
    exact Option.some.inj hpid
  have hfile : k'.ctx.file 3 = some sampleFile := by
    have hfile : (Runs.run straceStep ([], noStraceKernel) [.add 1, .add 2, .remove 1]).bind
        (fun s => s.2.ctx.file 3) = some sampleFile := rfl
    rw [hrun] at hfile
    exact hfile
  have hcalls : recordedCalls [(.add 1, 0), (.add 2, 0), (.remove 1, 0)]
      [⟨1, 0, 0, 0, 0⟩, ⟨2, 0, 0, 0, 0⟩] = [⟨2, 0, 0, 0, 0⟩] := by
    have hyes : Recorded [(.add 1, 0), (.add 2, 0), (.remove 1, 0)] 2 :=
      ⟨by decide, by decide, 2, by decide, (hmem 2).mp (by rw [hnums]; decide)⟩
    have hno : ¬ Recorded [(.add 1, 0), (.add 2, 0), (.remove 1, 0)] 1 := by
      intro h
      obtain ⟨_, _, n, hn, htraced⟩ := h
      have hn' := (hmem n).mpr htraced
      rw [hnums] at hn'
      obtain rfl : n = 2 := by simpa [tracedNums, StraceRequest.apply] using hn'
      exact absurd hn (by decide)
    rw [recorded_calls_skip hno, recorded_calls_keep hyes]
    rfl
  obtain ⟨k₁, file', hstart, hperform, hrep⟩ := hfiltered 3 sampleFile []
    [⟨1, 0, 0, 0, 0⟩, ⟨2, 0, 0, 0, 0⟩] (by decide) (by rw [hpid]; decide) hfile
    sample_file_empty (by rw [hcalls]; decide)
  rw [hcalls] at hrep
  exact ⟨k', k₁, file', hrun, hstart, hperform, hrep⟩

end GemOS.Tracer
