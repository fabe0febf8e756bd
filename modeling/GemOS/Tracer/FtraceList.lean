import GemOS.Tracer.Ftrace

/-!
# The list of registered functions

`Listed k regs` relates the linked list of a process to the registrations `regs` on it, and
`do_ftrace_cases` says once what a call of `do_ftrace` can do to them and to user memory. Proofs
about runs of `do_ftrace` start from that lemma and do not look at the heap again.
-/

namespace GemOS.Tracer

open LinkedList

/-! ## Representation -/

/-- A list head stands for the registrations `regs`. -/
structure HeadOk (nodes : Heap (Cell FtraceInfo)) (head : FtraceHead)
    (regs : List (Nat × FtraceInfo)) : Prop where
  seg : Seg nodes head.next regs none
  nodup : (regs.map Prod.fst).Nodup
  functions : (regs.map fun x => x.2.faddr).Nodup
  last : head.last = lastPtr none regs
  count : head.count = regs.length

/-- The registrations of the current process. -/
def Listed (k : Kernel) (regs : List (Nat × FtraceInfo)) : Prop :=
  (k.ctx.ftMdBase = none ∧ regs = []) ∨
  ∃ base head, k.ctx.ftMdBase = some base ∧ k.ftraceHeads.cell base = some head ∧
    HeadOk k.ftraceNodes head regs

/-- No function is registered twice. -/
theorem Listed.functions_nodup {k : Kernel} {regs : List (Nat × FtraceInfo)}
    (h : Listed k regs) : (regs.map fun x => x.2.faddr).Nodup := by
  rcases h with ⟨_, rfl⟩ | ⟨_, _, _, _, hok⟩
  · exact List.nodup_nil
  · exact hok.functions

/-- The registration of the function at `faddr`, looked up as the source does. -/
def registration (k : Kernel) (faddr : U64) : Option FtraceInfo := do
  let base ← k.ctx.ftMdBase
  let head ← k.ftraceHeads.cell base
  let (_, found) ← findRegistered k head faddr
  let cell ← k.ftraceNodes.cell (← found)
  some cell.data

/-- The head describes a list with one cell for each function. -/
theorem head_ok_iff {nodes : Heap (Cell FtraceInfo)} {head : FtraceHead}
    {regs : List (Nat × FtraceInfo)} : HeadOk nodes head regs ↔
      ListOk FtraceInfo.faddr nodes head.next head.last head.count regs :=
  ⟨fun h => ⟨h.seg, h.nodup, h.functions, h.last, h.count⟩,
    fun h => ⟨h.seg, h.nodup, h.keys, h.last, h.count⟩⟩

/-- No cell has the key `faddr`. -/
theorem not_registered {regs : List (Nat × FtraceInfo)} {faddr : U64} :
    (faddr ∉ regs.map fun x => x.2.faddr) ↔ ∀ x ∈ regs, x.2.faddr ≠ faddr := by
  simp only [List.mem_map, not_exists, not_and, ne_eq]

/-- A search of the list finds nothing, or splits the registrations at the function. -/
theorem HeadOk.find {k : Kernel} {head : FtraceHead} {regs : List (Nat × FtraceInfo)}
    (h : HeadOk k.ftraceNodes head regs) (faddr : U64) :
    (findRegistered k head faddr = some (lastPtr none regs, none) ∧
      ∀ x ∈ regs, x.2.faddr ≠ faddr) ∨
    ∃ pre node info post, regs = pre ++ (node, info) :: post ∧ info.faddr = faddr ∧
      findRegistered k head faddr = some (lastPtr none pre, some node) := by
  rcases (head_ok_iff.mp h).find fun info => decide_eq_true_iff (p := info.faddr = faddr) with
    ⟨hsearch, hnone⟩ | hfound
  · exact Or.inl ⟨hsearch, not_registered.mp hnone⟩
  · exact Or.inr hfound

/-- Registrations of one function are equal. -/
theorem HeadOk.unique {nodes : Heap (Cell FtraceInfo)} {head : FtraceHead}
    {regs : List (Nat × FtraceInfo)} (h : HeadOk nodes head regs) {x y : Nat × FtraceInfo}
    (hx : x ∈ regs) (hy : y ∈ regs) (heq : x.2.faddr = y.2.faddr) : x = y :=
  List.inj_on_of_nodup_map h.functions hx hy heq

/-- The lookup finds exactly the registrations on the list. -/
theorem Listed.registration_iff {k : Kernel} {regs : List (Nat × FtraceInfo)}
    (h : Listed k regs) (faddr : U64) (info : FtraceInfo) :
    registration k faddr = some info ↔ ∃ node, (node, info) ∈ regs ∧ info.faddr = faddr := by
  rcases h with ⟨hbase, rfl⟩ | ⟨base, head, hbase, hhead, hok⟩
  · simp [registration, hbase]
  · rcases hok.find faddr with ⟨hfind, hnone⟩ | ⟨pre, node, found, post, hregs, hfaddr, hfind⟩
    · simp only [registration, hbase, hhead, hfind, Option.bind_eq_bind, Option.bind_some,
        Option.bind_none, reduceCtorEq, false_iff, not_exists, not_and]
      exact fun node hmem => hnone _ hmem
    · have hmem : (node, found) ∈ regs := by simp [hregs]
      obtain ⟨next, hcell⟩ := hok.seg.cell_of_mem hmem
      simp only [registration, hbase, hhead, hfind, hcell, Option.bind_eq_bind, Option.bind_some,
        Option.some.injEq]
      constructor
      · intro heq
        subst heq
        exact ⟨node, hmem, hfaddr⟩
      · intro h'
        obtain ⟨node', hmem', hfaddr'⟩ := h'
        exact congrArg Prod.snd (hok.unique hmem hmem' (hfaddr.trans hfaddr'.symm))

/-- A function is unregistered when no entry of the list is its own. -/
theorem Listed.unregistered_iff {k : Kernel} {regs : List (Nat × FtraceInfo)}
    (h : Listed k regs) (faddr : U64) :
    registration k faddr = none ↔ ∀ x ∈ regs, x.2.faddr ≠ faddr := by
  rw [Option.eq_none_iff_forall_ne_some]
  constructor
  · intro hnone x hx heq
    exact hnone x.2 ((h.registration_iff faddr x.2).mpr ⟨x.1, hx, heq⟩)
  · intro hnone info hreg
    obtain ⟨node, hmem, heq⟩ := (h.registration_iff faddr info).mp hreg
    exact hnone _ hmem heq

/-! ## What a call does -/

/-- The arguments of `do_ftrace`. -/
structure FtraceCall where
  faddr : U64
  action : U64
  nargs : U64
  fdTraceBuffer : CInt

/-- The registration a call asks for. -/
abbrev FtraceCall.newInfo (call : FtraceCall) : FtraceInfo :=
  newFtraceInfo call.faddr call.nargs call.fdTraceBuffer

/-- The test of the arguments that every call starts with. -/
def FtraceCall.Negative (call : FtraceCall) : Prop :=
  call.nargs.slt 0 ∨ call.fdTraceBuffer.slt 0

/-- The registered functions, in list order. -/
def functionsOf (regs : List (Nat × FtraceInfo)) : List U64 :=
  regs.map fun x => x.2.faddr

/-- A call that cannot be met while the functions `fs` are registered. -/
def FtraceCall.Refused (call : FtraceCall) (fs : List U64) : Prop :=
  call.Negative ∨
    if call.action = ADD_FTRACE then call.faddr ∈ fs ∨ fs.length = 16 else call.faddr ∉ fs

/-- What a call makes of the registrations and of user memory, and what it returns. -/
inductive FtraceChange (call : FtraceCall) (mem : UserMem) :
    List (Nat × FtraceInfo) → Int → List (Nat × FtraceInfo) → UserMem → Prop
  | rejected (regs : List (Nat × FtraceInfo)) (hrefused : call.Refused (functionsOf regs)) :
      FtraceChange call mem regs (-EINVAL) regs mem
  | added (regs : List (Nat × FtraceInfo)) (node : Nat) (hargs : ¬ call.Negative)
      (haction : call.action = ADD_FTRACE) (hnew : ∀ x ∈ regs, x.2.faddr ≠ call.faddr)
      (hroom : regs.length ≠ 16) : FtraceChange call mem regs 0 (regs ++ [(node, call.newInfo)]) mem
  | removed (pre post : List (Nat × FtraceInfo)) (node : Nat) (info : FtraceInfo)
      (hargs : ¬ call.Negative) (haction : call.action = REMOVE_FTRACE)
      (hfaddr : info.faddr = call.faddr) :
      FtraceChange call mem (pre ++ (node, info) :: post) 0 (pre ++ post) (restoreCode mem info)
  | updated (pre post : List (Nat × FtraceInfo)) (node : Nat) (info : FtraceInfo)
      (hargs : ¬ call.Negative) (hadd : call.action ≠ ADD_FTRACE)
      (hremove : call.action ≠ REMOVE_FTRACE) (hfaddr : info.faddr = call.faddr) :
      FtraceChange call mem (pre ++ (node, info) :: post) 0
        (pre ++ (node, (updateFtrace call.action info mem).1) :: post)
        (updateFtrace call.action info mem).2

/-- `do_ftrace` with its arguments in a record. -/
def FtraceCall.run (call : FtraceCall) (k : Kernel) : Option (Int × Kernel) :=
  doFtrace k call.faddr call.action call.nargs call.fdTraceBuffer

/-- No update changes which function is registered. -/
@[simp] theorem update_ftrace_faddr (action : U64) (info : FtraceInfo) (mem : UserMem) :
    (updateFtrace action info mem).1.faddr = info.faddr := by
  unfold updateFtrace FtraceInfo.save
  split_ifs <;> rfl

section Call

variable {k : Kernel} {base : Nat} {head : FtraceHead} {regs : List (Nat × FtraceInfo)}

/-- The state after a call on a list head: the answer, and the registrations it leaves. The files
are kept. -/
def Answers (answer : Option (Int × Kernel)) (call : FtraceCall) (k : Kernel)
    (regs : List (Nat × FtraceInfo)) : Prop :=
  ∃ ret k' regs', answer = some (ret, k') ∧ Listed k' regs' ∧
    FtraceChange call k.mem regs ret regs' k'.mem ∧ k'.ctx.files = k.ctx.files

/-- Writing a head back. -/
theorem HeadOk.store_head {nodes : Heap (Cell FtraceInfo)} {head' : FtraceHead}
    (hok : HeadOk nodes head' regs) (hbase : k.ctx.ftMdBase = some base)
    (hhead : k.ftraceHeads.cell base = some head) :
    ∃ heads, k.ftraceHeads.store base head' = some heads ∧
      ∀ mem, Listed { k with ftraceNodes := nodes, ftraceHeads := heads, mem := mem } regs := by
  obtain ⟨heads, hstore, hself, _, _⟩ := Heap.store_eq head' hhead
  exact ⟨heads, hstore, fun mem => Or.inr ⟨base, head', hbase, hself, hok⟩⟩

/-- The registrations after adding one. -/
theorem HeadOk.add {nodes nodes' : Heap (Cell FtraceInfo)} {head' : FtraceHead} {node : Nat}
    {info : FtraceInfo} (hok : HeadOk nodes head regs)
    (hseg : Seg nodes' head'.next (regs ++ [(node, info)]) none)
    (hnode : ∀ x ∈ regs, x.1 ≠ node) (hnew : ∀ x ∈ regs, x.2.faddr ≠ info.faddr)
    (hlast : head'.last = some node) (hcount : head'.count = head.count + 1) :
    HeadOk nodes' head' (regs ++ [(node, info)]) := by
  have hadded := (head_ok_iff.mp hok).concat hseg hnode (not_registered.mpr hnew)
  rw [← hlast, ← hcount] at hadded
  exact head_ok_iff.mpr hadded

/-- The registrations after removing one. -/
theorem HeadOk.remove {nodes nodes' : Heap (Cell FtraceInfo)} {head' : FtraceHead}
    {pre post : List (Nat × FtraceInfo)} {x : Nat × FtraceInfo}
    (hok : HeadOk nodes head (pre ++ x :: post)) (hseg : Seg nodes' head'.next (pre ++ post) none)
    (hlast : head'.last = if post = [] then lastPtr none pre else head.last)
    (hcount : head'.count = head.count - 1) : HeadOk nodes' head' (pre ++ post) :=
  head_ok_iff.mpr ((head_ok_iff.mp hok).erase hseg hlast hcount)

/-- The registrations after updating one. -/
theorem HeadOk.update {nodes nodes' : Heap (Cell FtraceInfo)}
    {pre post : List (Nat × FtraceInfo)} {node : Nat} {info info' : FtraceInfo}
    (hok : HeadOk nodes head (pre ++ (node, info) :: post))
    (hseg : Seg nodes' head.next (pre ++ (node, info') :: post) none)
    (hfaddr : info'.faddr = info.faddr) :
    HeadOk nodes' head (pre ++ (node, info') :: post) :=
  head_ok_iff.mpr ((head_ok_iff.mp hok).set_data hseg hfaddr)

theorem add_ftrace_cases {call : FtraceCall} (hargs : ¬ call.Negative)
    (haction : call.action = ADD_FTRACE)
    (hbase : k.ctx.ftMdBase = some base) (hhead : k.ftraceHeads.cell base = some head)
    (hok : HeadOk k.ftraceNodes head regs) :
    Answers (addFtrace k base head call.faddr call.nargs call.fdTraceBuffer) call k regs := by
  have hlisted : Listed k regs := Or.inr ⟨base, head, hbase, hhead, hok⟩
  unfold addFtrace
  by_cases hfull : head.count = FTRACE_MAX
  · have hlen : (regs.length : Int) = 16 := hok.count.symm.trans hfull
    refine ⟨_, k, regs, if_pos hfull, hlisted, .rejected regs (Or.inr ?_), rfl⟩
    rw [if_pos haction, functionsOf, List.length_map]
    exact Or.inr (by omega)
  rw [if_neg hfull]
  have hroom : regs.length ≠ 16 := by
    intro hlen
    exact hfull (by rw [hok.count, hlen]; rfl)
  rcases hok.find call.faddr with ⟨hfind, hnone⟩ | ⟨pre, node, info, post, hregs, hfaddr, hfind⟩
  · have hnode := fun x hx => hok.seg.alloc_ne ⟨call.newInfo, none⟩ x hx
    rcases List.eq_nil_or_concat' regs with rfl | ⟨ys, ⟨q, c⟩, rfl⟩
    · have hlast : head.last = none := hok.last
      have hok' : HeadOk (k.ftraceNodes.alloc ⟨call.newInfo, none⟩).2
          { head with
            next := some (k.ftraceNodes.alloc ⟨call.newInfo, none⟩).1
            last := some (k.ftraceNodes.alloc ⟨call.newInfo, none⟩).1
            count := head.count + 1 } ([] ++ [(_, call.newInfo)]) :=
        hok.add ⟨rfl, none, Heap.alloc_cell_self _ _, rfl⟩ hnode hnone rfl rfl
      obtain ⟨heads, hstore, hlisted'⟩ := hok'.store_head hbase hhead
      refine ⟨0, _, _, ?_, hlisted' k.mem, .added [] _ hargs haction hnone hroom, rfl⟩
      simp only [hfind, hlast, hstore, Option.bind_eq_bind, Option.bind_some, Option.isSome_none,
        Bool.false_eq_true, if_false]
    · have hlast : head.last = some q := by rw [hok.last, lastPtr_concat]
      obtain ⟨hcell, nodes, hlink, hseg⟩ := hok.seg.push_back hok.nodup call.newInfo
      have hok' : HeadOk nodes
          { head with
            last := some (k.ftraceNodes.alloc ⟨call.newInfo, none⟩).1
            count := head.count + 1 } (ys ++ [(q, c)] ++ [(_, call.newInfo)]) :=
        hok.add hseg hnode hnone rfl rfl
      obtain ⟨heads, hstore, hlisted'⟩ := hok'.store_head hbase hhead
      refine ⟨0, _, _, ?_, hlisted' k.mem, .added _ _ hargs haction hnone hroom, rfl⟩
      simp only [hfind, hlast, hcell, hlink, hstore, Option.bind_eq_bind, Option.bind_some,
        Option.isSome_none, Bool.false_eq_true, if_false]
  · refine ⟨_, k, regs, by simp [hfind], hlisted, .rejected regs (Or.inr ?_), rfl⟩
    rw [if_pos haction]
    exact Or.inl (by simp [functionsOf, hregs, hfaddr])

theorem remove_ftrace_cases {call : FtraceCall} (hargs : ¬ call.Negative)
    (haction : call.action = REMOVE_FTRACE)
    {pre post : List (Nat × FtraceInfo)} {node : Nat} {info : FtraceInfo} {cell : Cell FtraceInfo}
    (hfaddr : info.faddr = call.faddr) (hbase : k.ctx.ftMdBase = some base)
    (hhead : k.ftraceHeads.cell base = some head) (hcell : k.ftraceNodes.cell node = some cell)
    (hok : HeadOk k.ftraceNodes head (pre ++ (node, info) :: post)) :
    Answers (removeFtrace k base head (lastPtr none pre) node cell) call k
      (pre ++ (node, info) :: post) := by
  unfold removeFtrace
  rcases List.eq_nil_or_concat' pre with rfl | ⟨before, ⟨q, c⟩, rfl⟩
  · obtain ⟨next, nodes, hnode, hnext, hfree, hseg⟩ := hok.seg.unlink_first hok.nodup
    obtain rfl : cell = ⟨info, next⟩ := Option.some.inj (hcell.symm.trans hnode)
    have hok' : HeadOk nodes
        { next := next, last := if post = [] then none else head.last, count := head.count - 1 }
        ([] ++ post) := hok.remove hseg rfl rfl
    obtain ⟨heads, hstore, hlisted⟩ := hok'.store_head hbase hhead
    refine ⟨0, _, _, ?_, hlisted (restoreCode k.mem info),
      .removed [] post node info hargs haction hfaddr, rfl⟩
    by_cases hpost : post = []
    · obtain rfl := hnext.mpr hpost
      simp only [if_pos hpost] at hstore
      simp only [lastPtr, hfree, hstore, Option.bind_eq_bind, Option.bind_some,
        Option.isNone_none, if_true]
    · obtain ⟨p, rfl⟩ := Option.ne_none_iff_exists'.mp (fun h => hpost (hnext.mp h))
      simp only [if_neg hpost] at hstore
      simp only [lastPtr, hfree, hstore, Option.bind_eq_bind, Option.bind_some,
        Option.isNone_some, Bool.false_eq_true, if_false]
  · rw [List.append_assoc, List.singleton_append] at hok
    obtain ⟨next, nodes₁, nodes, hnode, hnext, hprev, hlink, hfree, hseg⟩ :=
      hok.seg.unlink_after hok.nodup
    obtain rfl : cell = ⟨info, next⟩ := Option.some.inj (hcell.symm.trans hnode)
    have hok' : HeadOk nodes
        { next := head.next, last := if post = [] then some q else head.last
          count := head.count - 1 }
        ((before ++ [(q, c)]) ++ post) := by
      refine HeadOk.remove (x := (node, info)) (by simpa using hok) (by simpa using hseg) ?_ rfl
      rw [lastPtr_concat]
    obtain ⟨heads, hstore, hlisted⟩ := hok'.store_head hbase hhead
    refine ⟨0, _, _, ?_, hlisted (restoreCode k.mem info),
      .removed _ post node info hargs haction hfaddr, rfl⟩
    by_cases hpost : post = []
    · obtain rfl := hnext.mpr hpost
      simp only [if_pos hpost] at hstore
      simp only [lastPtr_concat, hprev, hlink, hfree, hstore, Option.bind_eq_bind,
        Option.bind_some, Option.isNone_none, if_true]
    · obtain ⟨p, rfl⟩ := Option.ne_none_iff_exists'.mp (fun h => hpost (hnext.mp h))
      simp only [if_neg hpost] at hstore
      simp only [lastPtr_concat, hprev, hlink, hfree, hstore, Option.bind_eq_bind,
        Option.bind_some, Option.isNone_some, Bool.false_eq_true, if_false]

end Call

/-- The list head of the process is there after `ftraceBase`. -/
theorem ftrace_base_listed {k : Kernel} {regs : List (Nat × FtraceInfo)} (h : Listed k regs) :
    ∃ base head k', ftraceBase k = (base, k') ∧ k'.ctx.ftMdBase = some base ∧
      k'.ftraceHeads.cell base = some head ∧ HeadOk k'.ftraceNodes head regs ∧ k'.mem = k.mem ∧
      k'.ctx.files = k.ctx.files := by
  rcases h with ⟨hbase, rfl⟩ | ⟨base, head, hbase, hhead, hok⟩
  · have hok : HeadOk k.ftraceNodes { count := 0, next := none, last := none } [] :=
      head_ok_iff.mpr (ListOk.nil _ _)
    have hmd : ftraceBase k = ((k.ftraceHeads.alloc ⟨0, none, none⟩).1,
        { k with
          ftraceHeads := (k.ftraceHeads.alloc ⟨0, none, none⟩).2
          ctx := { k.ctx with ftMdBase := some (k.ftraceHeads.alloc ⟨0, none, none⟩).1 } }) := by
      simp only [ftraceBase, hbase]
    exact ⟨_, _, _, hmd, rfl, Heap.alloc_cell_self _ _, hok, rfl, rfl⟩
  · exact ⟨base, head, k, by simp only [ftraceBase, hbase], hbase, hhead, hok, rfl, rfl⟩

/-- What a call of `do_ftrace` does. It always returns, and leaves the files alone. -/
theorem do_ftrace_cases {k : Kernel} {regs : List (Nat × FtraceInfo)} (h : Listed k regs)
    (call : FtraceCall) : Answers (call.run k) call k regs := by
  unfold FtraceCall.run doFtrace
  by_cases hargs : call.nargs.slt 0 ∨ call.fdTraceBuffer.slt 0
  · exact ⟨_, k, regs, if_pos hargs, h, .rejected regs (Or.inl hargs), rfl⟩
  rw [if_neg hargs]
  obtain ⟨base, head, k', hmd, hbase, hhead, hok, hmem, hfiles⟩ := ftrace_base_listed h
  have hlisted : Listed k' regs := Or.inr ⟨base, head, hbase, hhead, hok⟩
  rw [Answers, ← hmem, ← hfiles]
  simp only [hmd, hhead, Option.bind_eq_bind, Option.bind_some]
  by_cases hadd : call.action = ADD_FTRACE
  · rw [if_pos hadd]
    exact add_ftrace_cases hargs hadd hbase hhead hok
  rw [if_neg hadd]
  rcases hok.find call.faddr with ⟨hfind, hnone⟩ | ⟨pre, node, info, post, rfl, hfaddr, hfind⟩
  · refine ⟨_, k', regs, by simp [hfind], hlisted, .rejected regs (Or.inr ?_), rfl⟩
    rw [if_neg hadd]
    exact not_registered.mpr hnone
  obtain ⟨next, nodes, hcell, hstore, hseg⟩ := hok.seg.set_data hok.nodup
    (updateFtrace call.action info k'.mem).1
  simp only [hfind, hcell, Option.bind_some]
  by_cases hremove : call.action = REMOVE_FTRACE
  · rw [if_pos hremove]
    exact remove_ftrace_cases hargs hremove hfaddr hbase hhead hcell hok
  · rw [if_neg hremove]
    refine ⟨0, { k' with
        ftraceNodes := nodes, mem := (updateFtrace call.action info k'.mem).2 }, _,
      by simp only [hstore, Option.bind_some], Or.inr ⟨base, head, hbase, hhead, ?_⟩,
      .updated pre post node info hargs hadd hremove hfaddr, rfl⟩
    exact hok.update hseg (update_ftrace_faddr _ _ _)

end GemOS.Tracer
