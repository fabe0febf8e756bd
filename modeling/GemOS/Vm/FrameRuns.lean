import GemOS.Lib.Runs
import GemOS.Vm.ForkPages
import GemOS.Vm.Translations

/-!
# Reference counts over runs

All processes together: their areas, their page tables, and the frames they share through
`do_cfork`. Every call keeps the reference counts exact, unless `vm_area_mprotect` cuts off a table
with its pages (`Keeps`) or `handle_cow_fault` is called for a page that is not there.
-/

namespace GemOS.Vm

/-- The processes, the machine they run on, and what their area lists share. -/
structure PagedSystem where
  procs : List Process
  nullArea : VmArea
  numVmArea : U64
  machine : Machine

/-- The first-level tables of all processes. -/
def PagedSystem.pgds (s : PagedSystem) : Finset Nat :=
  (s.procs.map Process.pgd).toFinset

/-- What a call of a process works on. -/
def PagedSystem.spaceOf (s : PagedSystem) (p : Process) : Space :=
  ⟨⟨p.areas, s.nullArea, s.numVmArea⟩, s.machine⟩

/-- The system after a call of process `i` has changed its areas and the machine. -/
def PagedSystem.update (s : PagedSystem) (i : Nat) (p : Process) (space : Space) : PagedSystem :=
  { procs := s.procs.set i { p with areas := space.areas.list }
    nullArea := space.areas.nullArea
    numVmArea := space.areas.numVmArea
    machine := space.machine }

/-- A call or fault of process `i`. `do_cfork` comes with the value of its uninitialised
variable. -/
inductive PageCall where
  | map (i : Nat) (addr : U64) (length prot flag : CInt)
  | unmap (i : Nat) (addr : U64) (length : CInt)
  | mprotect (i : Nat) (addr : U64) (length prot : CInt)
  | pagefault (i : Nat) (addr : U64) (errorCode : CInt)
  | cowFault (i : Nat) (vaddr : U64) (accessFlags : U32)
  | cfork (i : Nat) (addrStart : U64)

/-- The process that makes a call. -/
def PageCall.proc : PageCall → Nat
  | .map i .. | .unmap i .. | .mprotect i .. | .pagefault i .. | .cowFault i .. | .cfork i .. => i

/-- The system after a call of the process `p`. -/
def PageCall.run (a : FrameAlloc) (s : PagedSystem) (p : Process) : PageCall → PagedSystem
  | .map i addr length prot flag =>
      s.update i p ⟨(vmAreaMap (s.spaceOf p).areas addr length prot flag).2, s.machine⟩
  | .unmap i addr length => s.update i p ((s.spaceOf p).unmap p.pgd addr length).2
  | .mprotect i addr length prot =>
      s.update i p ((s.spaceOf p).mprotect a p.pgd addr length prot).2
  | .pagefault _ addr errorCode =>
      { s with machine := (vmAreaPagefault a s.machine p.pgd p.areas addr errorCode).2 }
  | .cowFault _ vaddr accessFlags =>
      { s with machine := (handleCowFault a s.machine p.pgd vaddr accessFlags).2 }
  | .cfork _ addrStart =>
      let (child, machine) := doCfork a addrStart p s.machine
      { s with
        procs := s.procs ++ [child]
        numVmArea := s.numVmArea + BitVec.ofNat 64 child.areas.length
        machine := machine }

/-- One call of a process, in the system. -/
def pagedStep (a : FrameAlloc) (s : PagedSystem) (call : PageCall) : Option PagedSystem :=
  s.procs[call.proc]?.map fun p => call.run a s p

/-- The pages that `vm_area_mprotect` visits. -/
def protectPages (addr : U64) (length : CInt) : List U64 :=
  pagesFrom addr (numPages addr (addr + widen (alignedLength length)))

/-- The calls of the process `p` that keep the counts exact. -/
def PageCallOk (m : Machine) (p : Process) : PageCall → Prop
  | .mprotect _ addr length prot => prot = 1 →
      (∃ v ∈ p.areas, v.vmStart ≤ addr ∧ addr < v.vmEnd) →
      Keeps m.table p.pgd (protectPages addr length)
  | .pagefault _ addr errorCode => FaultOk p.pgd m addr errorCode
  | .cowFault _ vaddr _ => (walk m.table p.pgd vaddr).isSome
  | _ => True

variable {a : FrameAlloc} {m : Machine} {pgd i : Nat} {x addr : U64} {length prot : CInt}
variable {pgds : Finset Nat} {s s' : PagedSystem} {p : Process}

/-! ## The calls -/

/-- Freeing ranges of pages keeps the counts exact. -/
theorem RefsExact.freeRanges {freed : List (U64 × U64)} (h : RefsExact pgds m) (hr : pgd ∈ pgds) :
    RefsExact pgds (freed.foldl (fun m r => freeAllPFNs m pgd r.1 r.2) m) :=
  freeRanges_keep h fun _ _ h => h.freePFN hr

/-- Making pages writable keeps the counts exact. -/
theorem RefsExact.writePages {pages : List U64} (h : RefsExact pgds m) (ha : a.Ample)
    (hr : pgd ∈ pgds) (hprot : prot ≠ 1) :
    RefsExact pgds (pages.foldl (fun m addr => updatePFN a m pgd addr prot) m) :=
  List.foldlRecOn pages _ h fun _ h _ _ => h.writePFN ha hr hprot

/-- The search of `vm_area_mprotect` ends at an area that holds the address. -/
theorem mprotectFrom_holds {len : U64} {f : U32} {prev : VmArea} {list : List VmArea}
    {result : Protected} (h : mprotectFrom addr len f prev list = some result) :
    ∃ v ∈ list, v.vmStart ≤ addr ∧ addr < v.vmEnd := by
  induction list generalizing prev result with
  | nil => cases h
  | cons memptr rest ih =>
      rw [mprotectFrom] at h
      split_ifs at h with hstart hend
      · exact ⟨memptr, List.mem_cons_self, hstart, hend⟩
      · obtain ⟨p, hp, _⟩ := Option.map_eq_some_iff.mp h
        obtain ⟨v, hv, hin⟩ := ih hp
        exact ⟨v, List.mem_cons_of_mem memptr hv, hin⟩

/-- `vm_area_mprotect` keeps the counts exact if it clears no present bit on the way to a page. -/
theorem RefsExact.mprotect {space : Space} (h : RefsExact pgds space.machine) (ha : a.Ample)
    (hr : pgd ∈ pgds)
    (hok : prot = 1 → (∃ v ∈ space.areas.list, v.vmStart ≤ addr ∧ addr < v.vmEnd) →
      Keeps space.machine.table pgd (protectPages addr length)) :
    RefsExact pgds (space.mprotect a pgd addr length prot).2.machine := by
  simp only [Space.mprotect, vmAreaMprotect]
  split_ifs with hbad
  · exact h
  · cases hfrom : mprotectFrom addr (widen (alignedLength length)) prot space.areas.nullArea
        space.areas.list with
    | none => exact h
    | some result =>
        by_cases hread : prot = 1
        · subst hread
          exact h.readPages hr (hok rfl (mprotectFrom_holds hfrom))
        · exact h.writePages ha hr hread

/-- A page fault keeps the counts exact. -/
theorem RefsExact.pagefault {areas : List VmArea} {errorCode : CInt} (h : RefsExact pgds m)
    (ha : a.Ample) (hr : pgd ∈ pgds) (hok : FaultOk pgd m addr errorCode) :
    RefsExact pgds (vmAreaPagefault a m pgd areas addr errorCode).2 := by
  unfold vmAreaPagefault
  cases faultArea addr areas with
  | none => exact h
  | some vma =>
      simp only
      split_ifs with hbad hcow hread
      · exact h
      · exact h
      · exact h.cowFault ha hr (hok hcow)
      · exact h.makePresent ha hr

/-- The page tables of a process are among those of the system. -/
theorem pgd_mem (hp : s.procs[i]? = some p) : p.pgd ∈ s.pgds :=
  List.mem_toFinset.mpr (List.mem_map_of_mem (List.mem_of_getElem? hp))

/-- A call does not change where the first-level tables are. -/
theorem update_pgds (hp : s.procs[i]? = some p) (space : Space) :
    (s.update i p space).pgds = s.pgds := by
  obtain ⟨hi, rfl⟩ := List.getElem?_eq_some_iff.mp hp
  have hsame : (s.procs.set i { s.procs[i] with areas := space.areas.list }).map Process.pgd =
      s.procs.map Process.pgd := by
    have hi' : i < (s.procs.map Process.pgd).length := by simpa using hi
    have hpgd : s.procs[i].pgd = (s.procs.map Process.pgd)[i] := (List.getElem_map Process.pgd).symm
    rw [List.map_set, hpgd, List.set_getElem_self]
  rw [PagedSystem.pgds, PagedSystem.update, hsame]
  rfl

/-- A fork adds the first-level table of the child. -/
theorem cfork_pgds {addrStart : U64} : (PageCall.run a s p (.cfork i addrStart)).pgds =
    insert (doCfork a addrStart p s.machine).1.pgd s.pgds := by
  rw [PagedSystem.pgds, PagedSystem.pgds, PageCall.run, List.map_append, List.toFinset_append,
    Finset.union_comm]
  rfl

/-- Every call that meets its condition keeps the counts exact. -/
theorem PageCall.run_exact (ha : a.Ample) (hcounts : a.CountsExactly)
    (h : RefsExact s.pgds s.machine) {call : PageCall} (hp : s.procs[call.proc]? = some p)
    (hok : PageCallOk s.machine p call) :
    RefsExact (call.run a s p).pgds (call.run a s p).machine := by
  have hr := pgd_mem hp
  cases call with
  | map i addr length prot flag =>
      rw [PageCall.run, update_pgds (i := i) hp]
      exact h
  | unmap i addr length =>
      rw [PageCall.run, update_pgds (i := i) hp]
      exact h.freeRanges hr
  | mprotect i addr length prot =>
      rw [PageCall.run, update_pgds (i := i) hp]
      exact RefsExact.mprotect h ha hr hok
  | pagefault i addr errorCode => exact h.pagefault ha hr hok
  | cowFault i vaddr accessFlags => exact h.cowFault ha hr hok
  | cfork i addrStart =>
      rw [cfork_pgds]
      exact h.doCfork ha hcounts addrStart hr

/-! ## Runs -/

/-- A call of a process that exists, on its condition. -/
def SystemOk (s : PagedSystem) (call : PageCall) : Prop :=
  ∃ p, s.procs[call.proc]? = some p ∧ PageCallOk s.machine p call

/-- Every call keeps the counts exact. -/
theorem pagedStep_exact (ha : a.Ample) (hcounts : a.CountsExactly)
    (h : RefsExact s.pgds s.machine) {call : PageCall} (hok : SystemOk s call) :
    ∃ s', pagedStep a s call = some s' ∧ RefsExact s'.pgds s'.machine := by
  obtain ⟨p, hp, hok⟩ := hok
  exact ⟨call.run a s p, by rw [pagedStep, hp]; rfl, PageCall.run_exact ha hcounts h hp hok⟩

/-- In any run whose calls meet their conditions, the reference count of every frame is the number
of pages that hold it, in all page tables, and the frames with references are those that have been
handed out and not given back. -/
theorem frame_counts_exact (ha : a.Ample) (hcounts : a.CountsExactly)
    (h : RefsExact s.pgds s.machine) {calls : List PageCall}
    (hcalls : Runs.AllSteps (pagedStep a) SystemOk s calls) :
    ∃ s', Runs.run (pagedStep a) s calls = some s' ∧
      (∀ f, s'.machine.refcount f = holders s'.pgds s'.machine.table f) ∧
      ∀ f, f ∈ s'.machine.frames.pagesUsed ↔ holders s'.pgds s'.machine.table f ≠ 0 := by
  have hstep : ∀ (s : PagedSystem) (call : PageCall), RefsExact s.pgds s.machine →
      SystemOk s call → ∃ s', pagedStep a s call = some s' ∧ RefsExact s'.pgds s'.machine :=
    fun s call h hok => pagedStep_exact ha hcounts h hok
  obtain ⟨s', hrun, hexact⟩ := Runs.run_invariant hstep h hcalls
  exact ⟨s', hrun, hexact.frames.refcount, hexact.frames.used⟩

/-- It always has a frame. -/
theorem nextFrame_ample : nextFrame.Ample :=
  ⟨nextFrame_fresh, fun _ => Nat.succ_ne_zero _, fun _ => Nat.succ_ne_zero _⟩

/-- It counts without a bound. -/
theorem nextFrame_counts : nextFrame.CountsExactly :=
  fun _ => rfl

/-- It hands out zeroed pages. -/
theorem nextFrame_zeroed : nextFrame.ZeroedPages :=
  fun _ => rfl

/-- The same frames, with counts in bytes. -/
def byteFrame : FrameAlloc :=
  { nextFrame with increment := fun n => if 0 < n ∧ n < 127 then n + 1 else -128 }

/-- It always has a frame. -/
theorem byteFrame_ample : byteFrame.Ample :=
  ⟨⟨nextFrame_ample.table, nextFrame_ample.page⟩, nextFrame_ample.some_table,
    nextFrame_ample.some_page⟩

/-- It counts in a byte. -/
theorem byteFrame_bytes : byteFrame.CountsInBytes where
  fits _ hpos hroom := if_pos ⟨hpos, hroom⟩
  overrun n hn := by
    show (if 0 < n ∧ n < 127 then n + 1 else -128) ≤ 0
    rw [if_neg (by omega)]
    decide

/-- Nothing is mapped on the empty machine. -/
theorem emptyMachine_exact : RefsExact {1} emptyMachine := by
  have hzero : ∀ f, holders {1} emptyMachine.table f = 0 := by
    intro f
    refine RefCount.held_eq_zero fun q _ => ?_
    rw [frameOf, walk_none (p := tablePath _) emptyMachine_follow (List.prefix_refl _)]
    intro hnone
    cases hnone
  refine ⟨by simpa using emptyMachine_tidy, fun f => ?_, fun f => ?_⟩
  · rw [hzero]
    rfl
  · rw [hzero]
    exact iff_of_false List.not_mem_nil fun h => h rfl

/-- A process with two pages of memory that can be written. -/
def sampleProcess : Process :=
  { areas := [dummyNode, ⟨0x180201000, 0x180203000, 3⟩]
    code := ⟨0, 0, 0, 0⟩, rodata := ⟨0, 0, 0, 0⟩, data := ⟨0, 0, 0, 0⟩
    stack := ⟨0, 0x1000, 0x1000, 0⟩, pgd := 1 }

/-- The system with this process alone. -/
def sampleSystem : PagedSystem :=
  ⟨[sampleProcess], ⟨0, 0, 0⟩, 2, emptyMachine⟩

/-- No frame is in use. -/
theorem sampleSystem_exact : RefsExact sampleSystem.pgds sampleSystem.machine :=
  emptyMachine_exact

/-- A page has been written, and its bytes are all 1. -/
def filledMachine : Machine :=
  { (vmAreaPagefault nextFrame emptyMachine 1 sampleProcess.areas 0x180201000 0x6).2 with
    page := fun _ _ => 1 }

/-- Its pages have one reference each. -/
theorem filledMachine_exact : RefsExact {1} filledMachine := by
  have hexact : RefsExact {1}
      (vmAreaPagefault nextFrame emptyMachine 1 sampleProcess.areas 0x180201000 0x6).2 :=
    emptyMachine_exact.pagefault nextFrame_ample (Finset.mem_singleton_self 1)
      fun h => absurd h (by decide)
  exact ⟨⟨hexact.tidy.trees, hexact.tidy.used⟩, hexact.frames.congr (fun _ => rfl) rfl rfl⟩

/-- Another entry of the table stays writable. -/
theorem keeps_one {t : Tables} {f j : Nat} (hf : tableOf t pgd x = some f) (hj : j < 64)
    (hw : (t f (BitVec.ofNat 64 j)).writable = true) (hne : pteIdx x ≠ BitVec.ofNat 64 j) :
    Keeps t pgd [x] := by
  intro y hy g _ hg
  obtain rfl := List.mem_singleton.mp hy
  obtain rfl : f = g := Option.some.inj (hf.symm.trans hg)
  exact ⟨j, hj, hw, fun z hz _ _ => List.mem_singleton.mp hz ▸ hne⟩

/-- Both pages are written, the first one is made read-only, the process forks, the child gets a
copy of the first page and the parent unmaps it. -/
theorem frame_counts_exact_sample :
    ∃ s', Runs.run (pagedStep nextFrame) sampleSystem
        [.pagefault 0 0x180201000 0x6, .pagefault 0 0x180202000 0x6,
          .mprotect 0 0x180201000 0x1000 1, .cfork 0 0x180201000, .cowFault 1 0x180201000 1,
          .unmap 0 0x180201000 0x1000] = some s' ∧
      (∀ f, s'.machine.refcount f = holders s'.pgds s'.machine.table f) ∧
      ∀ f, f ∈ s'.machine.frames.pagesUsed ↔ holders s'.pgds s'.machine.table f ≠ 0 := by
  refine frame_counts_exact nextFrame_ample nextFrame_counts sampleSystem_exact
    (.cons rfl ?_ (.cons rfl ?_ (.cons rfl ?_ (.cons rfl ?_ (.cons rfl ?_ (.cons rfl ?_
      trivial))))))
  · exact ⟨_, rfl, fun h => absurd h (by decide)⟩
  · exact ⟨_, rfl, fun h => absurd h (by decide)⟩
  · -- the entry of the second page keeps the table
    refine ⟨_, rfl, fun _ _ => ?_⟩
    have hpages : protectPages 0x180201000 0x1000 = [0x180201000] := by decide
    rw [hpages]
    exact keeps_one (f := 4) (j := 2) (by decide +kernel) (by decide) (by decide +kernel)
      (by decide)
  · exact ⟨_, rfl, trivial⟩
  · refine ⟨_, rfl, ?_⟩
    show (walk _ _ _).isSome = true
    decide +kernel
  · exact ⟨_, rfl, trivial⟩

/-- A page is written and made read-only. No entry of its table is writable any more, so the table
is cut off: the frame has a reference and no holder. -/
theorem mprotect_loses_frame :
    ∃ s', Runs.run (pagedStep nextFrame) sampleSystem
        [.pagefault 0 0x180201000 0x6, .mprotect 0 0x180201000 0x1000 1] = some s' ∧
      ¬ ∀ f, s'.machine.refcount f = holders s'.pgds s'.machine.table f := by
  refine ⟨_, rfl, fun hall => ?_⟩
  let m₁ := (vmAreaPagefault nextFrame emptyMachine 1 sampleProcess.areas 0x180201000 0x6).2
  let m₂ := updateAllPFNs nextFrame m₁ 1 0x180201000 0x180202000 1
  have hexact : RefsExact {1} m₁ := emptyMachine_exact.pagefault nextFrame_ample
    (Finset.mem_singleton_self 1) fun h => absurd h (by decide)
  -- before the change the page was the only holder of its frame
  have hone : holders {1} m₁.table 1 = 1 :=
    Int.ofNat.inj ((hexact.frames.refcount 1).symm.trans rfl)
  have hthis : frameOf m₁.table 1 0x180201000 = some 1 := by decide +kernel
  have hheld : holders {1} m₂.table 1 = 1 := Int.ofNat.inj ((hall 1).symm.trans rfl)
  obtain ⟨q, hq, hafter⟩ := RefCount.exists_of_held (hheld.trans_ne Nat.one_ne_zero)
  obtain ⟨e', he', hpfn⟩ := Option.map_eq_some_iff.mp hafter
  obtain ⟨e, he, heq, _⟩ := (readPages_spec (a := nextFrame)).1.walk he'
  have hpage : pageOf (pageAddr (pageOf 0x180201000)) = pageOf 0x180201000 :=
    pageOf_pageAddr (pageOf_lt _)
  obtain rfl : q = (1, pageOf 0x180201000) := RefCount.unique_of_held_le_one hone.le hq
    (mem_allPages.mpr ⟨Finset.mem_singleton_self 1, pageOf_lt _⟩)
    ((frameOf_of_walk he).trans (congrArg some (heq.trans hpfn)))
    ((frameOf_congr hpage).trans hthis)
  -- and now it is not there
  have hgone : walk m₂.table 1 0x180201000 = none := by decide +kernel
  rw [walk_congr hpage, hgone] at he'
  cases he'

end GemOS.Vm
