import GemOS.Vm.Memories

/-!
# No interference

What follows from private memories. A process reads what it did before whatever the other
processes do, and it reads its own stores. A page that was not there may hold anything when it is
mapped: frames are handed out as they were left.
-/

namespace GemOS.Vm

variable {a : FrameAlloc} {m : Machine} {r i j : Nat} {x : U64} {b : U8}
variable {mems mems' : List Memory} {mem mem' : Memory} {event : MemoryEvent}
variable {events : List MemoryEvent} {s s' : PagedSystem} {p : Process}

/-! ## Private memories -/

/-- An event of another process. -/
theorem PrivateStep.other (h : PrivateStep mems event mems') (hne : event.proc ≠ j)
    (hmem : mems[j]? = some mem) : mems'[j]? = some mem := by
  obtain ⟨own, own', children, _, _, _, rfl⟩ := h
  have hj : j < mems.length := (List.getElem?_eq_some_iff.mp hmem).1
  rw [List.getElem?_append_left (by simpa using hj), List.getElem?_set_ne hne, hmem]

/-- An event of the process itself. -/
theorem PrivateStep.own (h : PrivateStep mems event mems') (hmem : mems[event.proc]? = some mem) :
    ∃ mem', mems'[event.proc]? = some mem' ∧ event.Changes mem mem' := by
  obtain ⟨own, own', children, hown, hchanges, _, rfl⟩ := h
  obtain rfl := Option.some.inj (hown.symm.trans hmem)
  have hj : event.proc < mems.length := (List.getElem?_eq_some_iff.mp hmem).1
  refine ⟨own', ?_, hchanges⟩
  rw [List.getElem?_append_left (by simpa using hj), List.getElem?_set_self hj]

/-- The byte at an address. -/
def Memory.byte (mem : Memory) (x : U64) : Option U8 :=
  (mem.data x).map fun c => c (offsetOf x)

/-- A byte of the memory of a process is what it reads there. -/
theorem memoryOf_byte (hx : UserAddr x) : (memoryOf m r).byte x = readByte m r x := by
  rw [Memory.byte, memoryOf_data hx]
  rfl

/-- What process `j` stores at an address with an event. -/
def MemoryEvent.stored (j : Nat) (x : U64) : MemoryEvent → Option U8
  | .store i y b =>
      if i = j ∧ pageOf y = pageOf x ∧ offsetOf y = offsetOf x then some b else none
  | _ => none

/-- What process `j` has last stored at an address. -/
def lastStore (j : Nat) (x : U64) : List MemoryEvent → Option U8
  | [] => none
  | event :: rest => (lastStore j x rest).or (event.stored j x)

/-- Events that take no page from the process that causes them: it neither unmaps memory nor
changes the access to it. -/
def MemoryEvent.KeepsPages : MemoryEvent → Prop
  | .call (.unmap ..) | .call (.mprotect ..) => False
  | _ => True

/-- A byte has the value that is stored, or else the one that it had. -/
def ByteKept (mem mem' : Memory) (x : U64) (stored : Option U8) : Prop :=
  ∀ b, stored.or (mem.byte x) = some b → mem'.byte x = some b

/-- Nothing is stored. -/
theorem ByteKept.refl : ByteKept mem mem x none :=
  fun _ h => h

/-- Of two parts of a run, the later store counts. -/
theorem ByteKept.trans {mem₁ : Memory} {stored stored' : Option U8}
    (h : ByteKept mem mem₁ x stored) (h' : ByteKept mem₁ mem' x stored') :
    ByteKept mem mem' x (stored'.or stored) := by
  intro b hb
  cases stored' with
  | none => exact h' b (h b hb)
  | some c => exact h' b hb

/-- Setting a page leaves the bytes of other pages alone. -/
theorem Memory.byte_setPage_other (mem : Memory) (c : BitVec 12 → U8) {y : U64}
    (hne : pageOf x ≠ pageOf y) : (mem.setPage y c).byte x = mem.byte x := by
  rw [Memory.byte, Memory.byte, Memory.setPage]
  simp only [if_neg hne]

/-- A byte of the page that was set. -/
theorem Memory.byte_setPage_same {c : BitVec 12 → U8} {y : U64} (hpage : pageOf x = pageOf y) :
    (mem.setPage y c).byte x = some (c (offsetOf x)) := by
  rw [Memory.byte, Memory.setPage]
  simp only [if_pos hpage]
  rfl

/-- An event of a process that takes no page from it. -/
theorem MemoryEvent.Changes.byteKept (h : event.Changes mem mem') (hkeeps : event.KeepsPages) :
    ByteKept mem mem' x (event.stored event.proc x) := by
  cases event with
  | call call =>
      cases call with
      | map i addr length prot flag =>
          obtain rfl : mem' = mem := h
          exact ByteKept.refl
      | unmap i addr length => exact hkeeps.elim
      | mprotect i addr length prot => exact hkeeps.elim
      | pagefault i addr errorCode =>
          rcases h with rfl | ⟨hnone, c, rfl⟩
          · exact ByteKept.refl
          intro b hb
          by_cases hpage : pageOf x = pageOf addr
          · -- the page was not there, so that the byte had no value
            have hbyte : mem.byte x = none := by
              rw [Memory.byte, mem.paged x addr hpage, hnone]
              rfl
            cases hbyte.symm.trans hb
          · exact (mem.byte_setPage_other c hpage).trans hb
      | cowFault i vaddr accessFlags =>
          obtain rfl : mem' = mem := h
          exact ByteKept.refl
      | cfork i addrStart =>
          obtain rfl : mem' = mem := h
          exact ByteKept.refl
  | load i y =>
      obtain ⟨_, rfl⟩ := h
      exact ByteKept.refl
  | store i y b =>
      obtain ⟨c, hc, rfl⟩ := h
      intro b' hb
      rw [MemoryEvent.stored] at hb
      by_cases hpage : pageOf y = pageOf x
      · rw [Memory.byte_setPage_same hpage.symm]
        by_cases hoffset : offsetOf y = offsetOf x
        · rw [if_pos ⟨rfl, hpage, hoffset⟩] at hb
          rw [hoffset, Function.update_self]
          exact hb
        · rw [if_neg fun heq => hoffset heq.2.2, Option.none_or, Memory.byte,
            mem.paged x y hpage.symm, hc] at hb
          rw [Function.update_of_ne (Ne.symm hoffset)]
          exact hb
      · rw [if_neg fun heq => hpage heq.2.1] at hb
        exact (mem.byte_setPage_other _ (Ne.symm hpage)).trans hb

/-! ## Runs -/

/-- Events of other processes. -/
theorem path_other (h : Runs.Path PrivateStep mems events mems')
    (hne : ∀ event ∈ events, event.proc ≠ j) (hmem : mems[j]? = some mem) :
    mems'[j]? = some mem := by
  induction h with
  | nil => exact hmem
  | cons hstep _ ih =>
      obtain ⟨hevent, hrest⟩ := List.forall_mem_cons.mp hne
      exact ih hrest (hstep.other hevent hmem)

/-- Events of all processes, if none of process `j` takes a page from it. -/
theorem path_byteKept (h : Runs.Path PrivateStep mems events mems')
    (hkeeps : ∀ event ∈ events, event.proc = j → event.KeepsPages) (hmem : mems[j]? = some mem) :
    ∃ mem', mems'[j]? = some mem' ∧ ByteKept mem mem' x (lastStore j x events) := by
  induction h generalizing mem with
  | nil => exact ⟨mem, hmem, ByteKept.refl⟩
  | @cons _ _ _ event _ hstep _ ih =>
      obtain ⟨hevent, hrest⟩ := List.forall_mem_cons.mp hkeeps
      by_cases hproc : event.proc = j
      · subst hproc
        obtain ⟨mem₁, hmem₁, hchanges⟩ := hstep.own hmem
        obtain ⟨mem', hmem', hkept⟩ := ih hrest hmem₁
        exact ⟨mem', hmem', (hchanges.byteKept (hevent rfl)).trans hkept⟩
      · -- what another process stores is not counted
        obtain ⟨mem', hmem', hkept⟩ := ih hrest (hstep.other hproc hmem)
        have hnone : event.stored j x = none := by
          cases event with
          | store i y b => exact if_neg fun heq => hproc heq.1
          | call | load => rfl
        rw [lastStore, hnone, Option.or_none]
        exact ⟨mem', hmem', hkept⟩

/-- The record of a process, its areas among it, is changed by no other process. -/
theorem eventStep_procs (hne : event.proc ≠ j) (hp : s.procs[j]? = some p)
    (hstep : eventStep a s event = some s') : s'.procs[j]? = some p := by
  have hj : j < s.procs.length := (List.getElem?_eq_some_iff.mp hp).1
  cases event with
  | call call =>
      obtain ⟨q, _, rfl⟩ := Option.map_eq_some_iff.mp hstep
      cases call with
      | map | unmap | mprotect => exact (List.getElem?_set_ne hne).trans hp
      | pagefault | cowFault => exact hp
      | cfork => exact (List.getElem?_append_left hj).trans hp
  | load | store =>
      obtain ⟨q, _, hstep⟩ := Option.bind_eq_some_iff.mp hstep
      obtain ⟨m, _, rfl⟩ := Option.map_eq_some_iff.mp hstep
      exact hp

/-- A process without an event stays as it is. -/
theorem eventSteps_procs (hne : ∀ event ∈ events, event.proc ≠ j) (hp : s.procs[j]? = some p)
    (hrun : Runs.run (eventStep a) s events = some s') : s'.procs[j]? = some p := by
  induction events generalizing s with
  | nil => exact Option.some.inj hrun ▸ hp
  | cons event events ih =>
      obtain ⟨hevent, hrest⟩ := List.forall_mem_cons.mp hne
      obtain ⟨s₁, hs₁, hrun⟩ := Option.bind_eq_some_iff.mp hrun
      exact ih hrest (eventStep_procs hevent hp hs₁) hrun

/-- A memory of the system is that of one of its processes. -/
theorem getElem?_of_memories (h : s.memories[j]? = some mem) :
    ∃ q, s.procs[j]? = some q ∧ mem = memoryOf s.machine q.pgd := by
  rw [PagedSystem.memories, List.getElem?_map] at h
  obtain ⟨q, hq, rfl⟩ := Option.map_eq_some_iff.mp h
  exact ⟨q, hq, rfl⟩

/-- In every run the processes behave as if each of them had a memory of its own, that only its
own events change. -/
theorem memories_private (ha : a.Ample) (hbytes : a.CountsInBytes) (h : SystemSafe s)
    (hok : Runs.AllSteps (eventStep a) EventOk s events)
    (hrun : Runs.run (eventStep a) s events = some s') :
    Runs.Path PrivateStep s.memories events s'.memories :=
  (eventSteps_private ha hbytes h hok hrun).2

/-- A process with a stack page forks, and both go on. -/
theorem memories_private_sample :
    ∃ s', Runs.run (eventStep byteFrame) stackSystem (forkEvents ++ childEvents) = some s' ∧
      Runs.Path PrivateStep stackSystem.memories (forkEvents ++ childEvents) s'.memories := by
  have hsome :
      (Runs.run (eventStep byteFrame) stackSystem (forkEvents ++ childEvents)).isSome := by
    decide +kernel
  obtain ⟨s', hrun⟩ := Option.isSome_iff_exists.mp hsome
  exact ⟨s', hrun, memories_private byteFrame_ample byteFrame_bytes stackSystem_safe
    sampleEvents_ok hrun⟩

/-- Whatever the other processes do, a process has the same areas and reads the same bytes. -/
theorem others_not_noticed (ha : a.Ample) (hbytes : a.CountsInBytes) (h : SystemSafe s)
    (hp : s.procs[j]? = some p) (hok : Runs.AllSteps (eventStep a) EventOk s events)
    (hothers : ∀ event ∈ events, event.proc ≠ j)
    (hrun : Runs.run (eventStep a) s events = some s') :
    s'.procs[j]? = some p ∧
      ∀ x, UserAddr x → readByte s'.machine p.pgd x = readByte s.machine p.pgd x := by
  have hprocs := eventSteps_procs hothers hp hrun
  refine ⟨hprocs, fun x hx => ?_⟩
  have hmem := path_other (eventSteps_private ha hbytes h hok hrun).2 hothers
    (getElem?_memories hp)
  rw [getElem?_memories hprocs] at hmem
  rw [← memoryOf_byte hx, ← memoryOf_byte hx, Option.some.inj hmem]

/-- The child stores to the page that it had shared with its parent. -/
theorem others_not_noticed_sample :
    ∃ s s', Runs.run (eventStep byteFrame) stackSystem forkEvents = some s ∧
      Runs.run (eventStep byteFrame) s childEvents = some s' ∧
      s'.procs[0]? = some stackProcess ∧
      ∀ x, UserAddr x → readByte s'.machine 1 x = readByte s.machine 1 x := by
  have hsome : ((Runs.run (eventStep byteFrame) stackSystem forkEvents).bind fun s =>
      Runs.run (eventStep byteFrame) s childEvents).isSome := by
    decide +kernel
  obtain ⟨s', hboth⟩ := Option.isSome_iff_exists.mp hsome
  obtain ⟨s, hfork, hchild⟩ := Option.bind_eq_some_iff.mp hboth
  have hsafe : SystemSafe s := (eventSteps_private byteFrame_ample byteFrame_bytes
    stackSystem_safe sampleEvents_ok.left hfork).1
  have hparent : s.procs[0]? = some stackProcess := by
    have hprocs : (Runs.run (eventStep byteFrame) stackSystem forkEvents).map (·.procs[0]?) =
        some (some stackProcess) := rfl
    rw [hfork] at hprocs
    exact Option.some.inj hprocs
  exact ⟨s, s', hfork, hchild, others_not_noticed byteFrame_ample byteFrame_bytes hsafe hparent
    (sampleEvents_ok.right hfork) (by decide) hchild⟩

/-- Through calls and accesses of all processes, a process that unmaps nothing and changes no
access reads at every address what it has last stored there, or else what was there before. -/
theorem stores_read_back (ha : a.Ample) (hbytes : a.CountsInBytes) (h : SystemSafe s)
    (hp : s.procs[j]? = some p) (hok : Runs.AllSteps (eventStep a) EventOk s events)
    (hkeeps : ∀ event ∈ events, event.proc = j → event.KeepsPages)
    (hrun : Runs.run (eventStep a) s events = some s') :
    ∃ q, s'.procs[j]? = some q ∧ ∀ x b, UserAddr x →
      (lastStore j x events).or (readByte s.machine p.pgd x) = some b →
      readByte s'.machine q.pgd x = some b := by
  have hpath := (eventSteps_private ha hbytes h hok hrun).2
  have hall := fun x => path_byteKept (x := x) hpath hkeeps (getElem?_memories hp)
  obtain ⟨mem', hmem', _⟩ := hall 0
  obtain ⟨q, hq, rfl⟩ := getElem?_of_memories hmem'
  refine ⟨q, hq, fun x b hx hb => ?_⟩
  obtain ⟨mem₁, hmem₁, hkept⟩ := hall x
  obtain rfl := Option.some.inj (hmem₁.symm.trans hmem')
  rw [← memoryOf_byte hx] at hb ⊢
  exact hkept b hb

/-- The parent has stored a byte, and a byte of the child at the same address is another one. -/
theorem stores_read_back_sample :
    ∃ s' q, Runs.run (eventStep byteFrame) stackSystem (forkEvents ++ childEvents) = some s' ∧
      s'.procs[0]? = some q ∧ ∀ x b, UserAddr x →
        (lastStore 0 x (forkEvents ++ childEvents)).or (readByte stackSystem.machine 1 x) = some b →
        readByte s'.machine q.pgd x = some b := by
  have hsome :
      (Runs.run (eventStep byteFrame) stackSystem (forkEvents ++ childEvents)).isSome := by
    decide +kernel
  obtain ⟨s', hrun⟩ := Option.isSome_iff_exists.mp hsome
  have hkeeps : ∀ event ∈ forkEvents ++ childEvents, event.proc = 0 → event.KeepsPages := by
    simp [forkEvents, childEvents, MemoryEvent.KeepsPages, MemoryEvent.proc, PageCall.proc]
  obtain ⟨q, hq, hbytes⟩ := stores_read_back byteFrame_ample byteFrame_bytes stackSystem_safe rfl
    sampleEvents_ok hkeeps hrun
  exact ⟨s', q, hrun, hq, hbytes⟩

end GemOS.Vm
