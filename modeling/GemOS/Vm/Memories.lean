import GemOS.Vm.FrameSafety
import GemOS.Vm.ProtectData

/-!
# Private memories

What a process sees of its memory, page by page, over the calls and accesses of all processes. On
this level there are no frames: every process has a memory of its own, `PrivateStep` says what an
event does to the memory of the process that causes it, and nothing happens to the others. The
page tables, the frames that are shared and the copies refine this, over every run.

The addresses of processes start at 4 GB. The tables of the kernel lie below: `copy_os_pts` lets a
child use those of its parent, and they are not part of the machine here.
-/

namespace GemOS.Vm

open Radix (follow)

variable {a : FrameAlloc} {m m' m₁ : Machine} {t t' : Tables} {r pgd f n i j : Nat}
variable {x y addr : U64} {b : U8} {e : Entry} {pgds : Finset Nat} {pages : List U64}
variable {accessFlags : U32} {prot : CInt} {stuck : Set Nat}

/-- What a page holds; `none` if it is not there. -/
abbrev PageData := Option (BitVec 12 → U8)

/-- What one process changes, page by page, and what it leaves alone. -/
structure Affects (pgds : Finset Nat) (m m' : Machine) (pgd : Nat)
    (P : PageData → PageData → Prop) : Prop where
  other : ∀ r ∈ pgds, r ≠ pgd → ∀ y, contents m' r y = contents m r y
  own : ∀ y, P (contents m pgd y) (contents m' pgd y)

/-- A page is as it was, or gone. -/
def Loses (c c' : PageData) : Prop :=
  c' = c ∨ c' = none

/-- A page is as it was, or shows something else. -/
def Replaces (c c' : PageData) : Prop :=
  c' = c ∨ c.isSome ∧ c'.isSome

/-- What `vm_area_mprotect` may do to a page: one that becomes read-only may be lost, and one that
becomes writable may get a frame with other contents. -/
def ProtectChanges (prot : CInt) (c c' : PageData) : Prop :=
  if prot = 1 then Loses c c' else Replaces c c'

/-- Losing pages twice is losing pages. -/
theorem Loses.trans {c c₁ c' : PageData} (h : Loses c c₁) (h' : Loses c₁ c') : Loses c c' := by
  rcases h' with rfl | rfl
  · exact h
  · exact Or.inr rfl

/-- Replacing pages twice is replacing pages. -/
theorem Replaces.trans {c c₁ c' : PageData} (h : Replaces c c₁) (h' : Replaces c₁ c') :
    Replaces c c' := by
  rcases h' with rfl | ⟨hsome₁, hsome'⟩
  · exact h
  · rcases h with rfl | ⟨hsome, _⟩
    · exact Or.inr ⟨hsome₁, hsome'⟩
    · exact Or.inr ⟨hsome, hsome'⟩

/-- `mprotect` may leave a page as it is. -/
theorem ProtectChanges.refl (prot : CInt) (c : PageData) : ProtectChanges prot c c := by
  unfold ProtectChanges
  split_ifs
  · exact Or.inl rfl
  · exact Or.inl rfl

/-- The steps of a loop over pages. -/
theorem Affects.foldl (P : PageData → PageData → Prop) (Inv : Machine → Prop)
    {visit : Machine → U64 → Machine} (hrefl : ∀ c, P c c)
    (htrans : ∀ {c c₁ c'}, P c c₁ → P c₁ c' → P c c')
    (hstep : ∀ m x, Inv m → Inv (visit m x) ∧ Affects pgds m (visit m x) pgd P) (hm : Inv m) :
    Inv (pages.foldl visit m) ∧ Affects pgds m (pages.foldl visit m) pgd P := by
  induction pages generalizing m with
  | nil => exact ⟨hm, fun _ _ _ _ => rfl, fun _ => hrefl _⟩
  | cons page pages ih =>
      obtain ⟨hinv, hother, hown⟩ := hstep m page hm
      obtain ⟨hinv', hother', hown'⟩ := ih hinv
      exact ⟨hinv', fun r hr hne y => (hother' r hr hne y).trans (hother r hr hne y),
        fun y => htrans (hown y) (hown' y)⟩

/-! ## Pages that are taken away -/

/-- Entries have changed in tables of one process alone. -/
def ChangesTree (pgds : Finset Nat) (t t' : Tables) (pgd : Nat) : Prop :=
  ∀ g j, t' g j ≠ t g j → ∃ q, InScope pgds Set.univ pgd q ∧ follow Entry.ref t pgd q = some g

/-- The other processes do not notice. -/
theorem ChangesTree.walk (h : ChangesTree pgds t t' pgd) (htrees : Trees pgds Set.univ t)
    (hr : r ∈ pgds) (hne : r ≠ pgd) : walk t' r y = walk t r y := by
  have hscope : InScope pgds Set.univ r (tablePath y) := ⟨hr, y, Set.mem_univ y, List.prefix_refl _⟩
  have htable : tableOf t' r y = tableOf t r y :=
    Radix.Separated.follow_other_root htrees inScope_closed
      (fun g j hdiffers => h g j fun heq => hdiffers (by rw [heq])) hscope hne
  rw [Vm.walk, Vm.walk, leaf, leaf, htable]
  cases hg : tableOf t r y with
  | none => rfl
  | some g =>
      have hsame : t' g (pteIdx y) = t g (pteIdx y) := by
        by_contra hdiffers
        obtain ⟨q, hq, hg'⟩ := h g (pteIdx y) hdiffers
        exact hne (htrees _ _ _ _ _ hscope hq hg hg').1
      rw [Option.map_some, Option.map_some, hsame]

/-- A store into a table on the way of `pgd` changes the tree of `pgd` only. -/
theorem ChangesTree.put {s : Slot} {q : List U64} (h : ChangesTree pgds t t' pgd)
    (hq : InScope pgds Set.univ pgd q) (hs : follow Entry.ref t pgd q = some s.table) :
    ChangesTree pgds t (t'.put s e) pgd := by
  intro g j hdiffers
  rw [put_apply] at hdiffers
  split_ifs at hdiffers with heq
  · subst heq
    exact ⟨q, hq, hs⟩
  · exact h g j hdiffers

/-- `updatePFN` with `PROT_READ` changes the tree of its process only. -/
theorem updatePFN_read_tree (hr : pgd ∈ pgds) :
    ChangesTree pgds m.table (updatePFN a m pgd x 1).table pgd := by
  have hrefl : ChangesTree pgds m.table m.table pgd := fun _ _ hdiffers => absurd rfl hdiffers
  rcases presentSlots_spec m pgd x with ⟨hnone, _⟩ | ⟨s, hs, hreached, _⟩
  · simp only [updatePFN, hnone]
    exact hrefl
  have hscope : ∀ q, q <+: tablePath x → InScope pgds Set.univ pgd q := fun q hq =>
    ⟨hr, x, Set.mem_univ x, hq⟩
  -- the four entries are stored in tables of the process
  have hput : ∀ (slot : Slot) (m₁ : Machine) (change : Entry → Entry),
      slot = s.pgd ∨ slot = s.pud ∨ slot = s.pmd ∨ slot = s.pte →
      ChangesTree pgds m.table m₁.table pgd →
      ChangesTree pgds m.table (m₁.modify slot change).table pgd := by
    rintro slot m₁ change (rfl | rfl | rfl | rfl) h
    · refine h.put (hscope [] ⟨_, rfl⟩) ?_
      rw [hreached.pgd_slot]
      rfl
    · exact h.put (hscope _ ⟨_, rfl⟩) hreached.pud_slot.2
    · exact h.put (hscope _ ⟨_, rfl⟩) hreached.pmd_slot.2
    · exact h.put (hscope _ (List.prefix_refl _)) hreached.pte_slot.2
  have hpte := hput s.pte m (·.clear 0x8) (by simp) hrefl
  have hpmd := hput s.pmd _ (·.clear 0x3) (by simp) hpte
  have hpud := hput s.pud _ (·.clear 0x3) (by simp) hpmd
  simp only [updatePFN, hs, if_true, updatePTPermissions]
  split_ifs
  · exact hpte
  · exact hpmd
  · exact hpud
  · exact hput s.pgd _ (·.clear 0x3) (by simp) hpud

/-- `updatePFN` with `PROT_READ` stores no byte. -/
theorem updatePFN_read_page : (updatePFN a m pgd x 1).page = m.page := by
  rw [updatePFN]
  cases presentSlots m pgd x with
  | none => rfl
  | some s =>
      simp only [if_true, updatePTPermissions]
      split_ifs <;> rfl

/-- `freePFN` stores no byte. -/
theorem freePFN_page : (freePFN m pgd x).page = m.page := by
  unfold freePFN
  cases presentSlots m pgd x with
  | none => rfl
  | some s =>
      simp only
      split_ifs
      · rfl
      · exact Machine.release_page _

/-- Rights have been taken from one process: some of its pages may be gone. -/
theorem affects_of_weaker (hweaker : Weaker m.table m'.table) (hpage : m'.page = m.page)
    (hother : ∀ r ∈ pgds, r ≠ pgd → ∀ y, walk m'.table r y = walk m.table r y) :
    Affects pgds m m' pgd Loses := by
  refine ⟨fun r hr hne y => ?_, fun y => ?_⟩
  · rw [contents, contents, hother r hr hne y, hpage]
  · cases hwalk : walk m'.table pgd y with
    | none => exact Or.inr (by rw [contents, hwalk]; rfl)
    | some e' =>
        obtain ⟨e, hold, hpfn, _⟩ := hweaker.walk hwalk
        exact Or.inl (by rw [contents_of_walk hwalk, contents_of_walk hold, hpage, hpfn])

/-- `freePFN` takes a page from its process and leaves all others alone. -/
theorem freePFN_affects (h : Trees pgds Set.univ m.table) (hr : pgd ∈ pgds) :
    Affects pgds m (freePFN m pgd x) pgd Loses := by
  refine affects_of_weaker freePFN_weaker freePFN_page fun r hr' hne y => ?_
  cases hwalk : walk m.table pgd x with
  | none => rw [freePFN_absent hwalk]
  | some e =>
      obtain ⟨t, hfree, hset⟩ := freePFN_present h hr hwalk
      rw [hfree]
      exact hset.walk_other hr' (Set.mem_univ y) fun heq => hne heq.1

/-- Freeing ranges of pages. -/
theorem freeRanges_affects (freed : List (U64 × U64)) (h : Trees pgds Set.univ m.table)
    (hr : pgd ∈ pgds) :
    Affects pgds m (freed.foldl (fun m r => freeAllPFNs m pgd r.1 r.2) m) pgd Loses := by
  rw [freeRanges_eq]
  exact (Affects.foldl Loses (fun m => Trees pgds Set.univ m.table) (fun _ => Or.inl rfl)
    Loses.trans (fun _ _ h => ⟨h.weaker freePFN_weaker, freePFN_affects h hr⟩) h).2

/-- Making pages read-only. -/
theorem readPages_affects (h : Trees pgds Set.univ m.table) (hr : pgd ∈ pgds) :
    Affects pgds m (pages.foldl (fun m addr => updatePFN a m pgd addr 1) m) pgd Loses :=
  (Affects.foldl Loses (fun m => Trees pgds Set.univ m.table) (fun _ => Or.inl rfl) Loses.trans
    (fun _ _ h => ⟨h.weaker updatePFN_read_weaker, affects_of_weaker updatePFN_read_weaker
      updatePFN_read_page fun _ hr' hne _ => (updatePFN_read_tree hr).walk h hr' hne⟩) h).2

/-! ## Pages that change in place -/

/-- Making pages writable, with new frames for the shared ones. -/
theorem writePages_affects (h : FramesSafe ∅ pgds m) (ha : a.Ample) (hr : pgd ∈ pgds)
    (hprot : prot ≠ 1) :
    Affects pgds m (pages.foldl (fun m addr => updatePFN a m pgd addr prot) m) pgd Replaces := by
  refine (Affects.foldl Replaces (FramesSafe ∅ pgds) (fun _ => Or.inl rfl) Replaces.trans
    (fun m x h => ⟨h.writePFN ha hr hprot, ?_⟩) h).2
  have hmade := updatePFN_madeWritable (x := x) h.tidy h.framesUsed ha hr hprot
  refine ⟨fun r hr' hne y => hmade.contents_other r y hr' fun heq => hne heq.1, fun y => ?_⟩
  by_cases hpage : pageOf y = pageOf x
  · rw [contents_page hpage, contents_page hpage]
    by_cases hshared : IsShared m pgd x
    · obtain ⟨_, hnew⟩ := hmade.renewed hshared
      obtain ⟨e, he, _⟩ := hshared
      refine Or.inr ⟨?_, by rw [hnew]; rfl⟩
      rw [contents_of_walk he]
      rfl
    · exact Or.inl (hmade.kept hshared)
  · exact Or.inl (hmade.contents_other pgd y hr fun heq => hpage heq.2)

/-! ## The abstract level -/

/-- The memory of a process, address by address: what the page of the address holds. -/
@[ext] structure Memory where
  data : U64 → PageData
  paged : ∀ x y, pageOf x = pageOf y → data x = data y

/-- The address belongs to processes, not to the kernel. -/
def UserAddr (x : U64) : Prop :=
  2 ^ 20 ≤ pageOf x

instance : Decidable (UserAddr x) :=
  inferInstanceAs (Decidable (_ ≤ _))

/-- A page is a user page as a whole. -/
theorem userAddr_congr (h : pageOf x = pageOf y) : UserAddr x ↔ UserAddr y := by
  rw [UserAddr, UserAddr, h]

/-- What a process sees. -/
def memoryOf (m : Machine) (r : Nat) : Memory where
  data x := if UserAddr x then contents m r x else none
  paged x y h := by rw [contents_page h, if_congr (userAddr_congr h) rfl rfl]

/-- The memory of a process at a user address. -/
theorem memoryOf_data (hx : UserAddr x) : (memoryOf m r).data x = contents m r x :=
  if_pos hx

/-- Processes with the same contents have the same memory. -/
theorem memoryOf_congr (h : ∀ y, contents m' r y = contents m r y) :
    memoryOf m' r = memoryOf m r := by
  ext1
  funext y
  exact if_congr Iff.rfl (h y) rfl

/-- What holds of all pages holds of those that the process sees. -/
theorem memoryOf_pages {P : PageData → PageData → Prop} (hnone : P none none)
    (h : ∀ y, P (contents m r y) (contents m' r y)) (y : U64) :
    P ((memoryOf m r).data y) ((memoryOf m' r).data y) := by
  simp only [memoryOf]
  split_ifs
  · exact h y
  · exact hnone

/-- One page has got other contents. -/
def Memory.setPage (mem : Memory) (x : U64) (c : BitVec 12 → U8) : Memory where
  data y := if pageOf y = pageOf x then some c else mem.data y
  paged y z h := by rw [h, mem.paged y z h]

/-- One page of the memory is set. -/
theorem memoryOf_setPage {c : BitVec 12 → U8} (hx : UserAddr x) (hnew : contents m' r x = some c)
    (hother : ∀ y, pageOf y ≠ pageOf x → contents m' r y = contents m r y) :
    memoryOf m' r = (memoryOf m r).setPage x c := by
  ext1
  funext y
  simp only [memoryOf, Memory.setPage]
  by_cases hpage : pageOf y = pageOf x
  · rw [if_pos hpage, if_pos ((userAddr_congr hpage).mpr hx), contents_page hpage, hnew]
  · rw [if_neg hpage, hother y hpage]

open Classical in
/-- The pages of a set. -/
noncomputable def Memory.restrict (mem : Memory) (visited : Set Nat) : Memory where
  data y := if pageOf y ∈ visited then mem.data y else none
  paged y z h := by rw [h, mem.paged y z h]

/-- A call of a process, or an access of process `i` to its memory that goes through. -/
inductive MemoryEvent where
  | call (call : PageCall)
  | load (i : Nat) (x : U64)
  | store (i : Nat) (x : U64) (b : U8)

/-- The process that causes an event. -/
def MemoryEvent.proc : MemoryEvent → Nat
  | .call pageCall => pageCall.proc
  | .load i _ | .store i _ _ => i

/-- What an event may do to the memory of the process that causes it. -/
def MemoryEvent.Changes : MemoryEvent → Memory → Memory → Prop
  | .call (.map ..), mem, mem' | .call (.cowFault ..), mem, mem' | .call (.cfork ..), mem, mem' =>
      mem' = mem
  | .call (.unmap ..), mem, mem' => ∀ x, Loses (mem.data x) (mem'.data x)
  | .call (.mprotect _ _ _ prot), mem, mem' =>
      ∀ x, ProtectChanges prot (mem.data x) (mem'.data x)
  | .call (.pagefault _ addr _), mem, mem' =>
      mem' = mem ∨ mem.data addr = none ∧ ∃ c, mem' = mem.setPage addr c
  | .load _ x, mem, mem' => (mem.data x).isSome ∧ mem' = mem
  | .store _ x b, mem, mem' =>
      ∃ c, mem.data x = some c ∧ mem' = mem.setPage x (Function.update c (offsetOf x) b)

/-- The memory of a child, if the event is a fork: that of its parent on some pages. -/
def MemoryEvent.Spawns : MemoryEvent → Memory → List Memory → Prop
  | .call (.cfork ..), mem, children => ∃ visited, children = [mem.restrict visited]
  | _, _, children => children = []

/-- An event changes the memory of the process that causes it, may add a child, and nothing
else. -/
structure PrivateStep (mems : List Memory) (event : MemoryEvent) (mems' : List Memory) : Prop where
  step : ∃ mem mem' children, mems[event.proc]? = some mem ∧ event.Changes mem mem' ∧
    event.Spawns mem children ∧ mems' = mems.set event.proc mem' ++ children

/-! ## The concrete level -/

/-- The system after an event. There is none if the process does not exist, if it accesses a page
that is not there, or if a store would fault. -/
def eventStep (a : FrameAlloc) (s : PagedSystem) : MemoryEvent → Option PagedSystem
  | .call pageCall => pagedStep a s pageCall
  | .load i x => s.procs[i]?.bind fun p =>
      (accessStep a s.machine (.read p.pgd x)).map fun m => { s with machine := m }
  | .store i x b => s.procs[i]?.bind fun p =>
      (accessStep a s.machine (.write p.pgd x b)).map fun m => { s with machine := m }

/-- The calls of the process `p` that the runs here consist of: they work on addresses of
processes, do not free the first area, fault on pages that are present if `handle_cow_fault` is
to be called, and share no frame so often that its count runs over. -/
def CallOk (s : PagedSystem) (p : Process) : PageCall → Prop
  | .map .. => True
  | .unmap _ addr length => UserAddr addr ∧ unmapFreesFirst p.areas addr length = false
  | .mprotect _ addr length prot =>
      UserAddr addr ∧ mprotectFreesFirst (s.spaceOf p).areas addr length prot = false
  | .pagefault _ addr errorCode => UserAddr addr ∧ FaultOk p.pgd s.machine addr errorCode
  | .cowFault _ vaddr _ => UserAddr vaddr ∧ (walk s.machine.table p.pgd vaddr).isSome
  | .cfork _ addrStart => (∀ x ∈ forkPages addrStart p, UserAddr x) ∧
      CountsFit s.machine p.pgd (pageSet (forkPages addrStart p))

/-- The condition of an event. -/
def EventOk (s : PagedSystem) : MemoryEvent → Prop
  | .call pageCall => ∀ p ∈ s.procs[pageCall.proc]?, CallOk s p pageCall
  | .load _ x | .store _ x _ => UserAddr x

instance : ∀ (s : PagedSystem) (p : Process) (call : PageCall), Decidable (CallOk s p call)
  | _, _, .map .. => isTrue trivial
  | _, _, .unmap .. | _, _, .mprotect .. | _, _, .cowFault .. =>
      inferInstanceAs (Decidable (_ ∧ _))
  | _, _, .pagefault .. => inferInstanceAs (Decidable (_ ∧ (_ → _)))
  | _, p, .cfork _ addrStart =>
      -- the addresses of the list are looked at, not all of `U64`
      have : Decidable (∀ x ∈ forkPages addrStart p, UserAddr x) := List.decidableBAll _ _
      inferInstanceAs (Decidable (_ ∧ _))

instance : ∀ (s : PagedSystem) (event : MemoryEvent), Decidable (EventOk s event)
  | s, .call pageCall =>
      inferInstanceAs (Decidable (∀ p ∈ s.procs[pageCall.proc]?, CallOk s p pageCall))
  | _, .load _ x | _, .store _ x _ => inferInstanceAs (Decidable (UserAddr x))

/-- What the processes see. -/
def PagedSystem.memories (s : PagedSystem) : List Memory :=
  s.procs.map fun p => memoryOf s.machine p.pgd

/-- Frames are counted and shared safely, and every process has a page table of its own. -/
structure SystemSafe (s : PagedSystem) : Prop where
  frames : FramesSafe ∅ s.pgds s.machine
  nodup : (s.procs.map Process.pgd).Nodup

variable {s s' : PagedSystem} {p q : Process} {space : Space} {event : MemoryEvent}
variable {events : List MemoryEvent}

/-- Two processes with one page table are one process. -/
theorem SystemSafe.proc_unique (h : SystemSafe s) (hp : s.procs[i]? = some p)
    (hq : s.procs[j]? = some q) (hpgd : q.pgd = p.pgd) : j = i := by
  have hj : j < (s.procs.map Process.pgd).length := by
    simpa using (List.getElem?_eq_some_iff.mp hq).1
  refine (List.getElem?_inj hj h.nodup).mp ?_
  rw [List.getElem?_map, List.getElem?_map, hp, hq, Option.map_some, Option.map_some, hpgd]

/-- Where the first-level tables are, after a call of a process. -/
theorem update_map_pgd (hp : s.procs[i]? = some p) (space : Space) :
    (s.update i p space).procs.map Process.pgd = s.procs.map Process.pgd := by
  obtain ⟨hi, rfl⟩ := List.getElem?_eq_some_iff.mp hp
  have hi' : i < (s.procs.map Process.pgd).length := by simpa using hi
  have hpgd : s.procs[i].pgd = (s.procs.map Process.pgd)[i] := (List.getElem_map Process.pgd).symm
  rw [PagedSystem.update, List.map_set, hpgd, List.set_getElem_self]

/-- The memories of a system are those of its page tables. -/
theorem memories_eq (s : PagedSystem) :
    s.memories = (s.procs.map Process.pgd).map (memoryOf s.machine) := by
  rw [PagedSystem.memories, List.map_map]
  rfl

/-- The machine has changed for one process. -/
theorem SystemSafe.memories_set (h : SystemSafe s) (hp : s.procs[i]? = some p)
    (hother : ∀ r ∈ s.pgds, r ≠ p.pgd → ∀ y, contents m' r y = contents s.machine r y) :
    (s.procs.map Process.pgd).map (memoryOf m') = s.memories.set i (memoryOf m' p.pgd) := by
  refine List.ext_getElem? fun k => ?_
  rw [memories_eq, List.getElem?_set, List.getElem?_map, List.getElem?_map]
  by_cases hk : i = k
  · subst hk
    obtain ⟨hi, rfl⟩ := List.getElem?_eq_some_iff.mp hp
    simp [hi]
  · rw [if_neg hk, List.getElem?_map, List.getElem?_map]
    cases hq : s.procs[k]? with
    | none => rfl
    | some q =>
        have hne : q.pgd ≠ p.pgd := fun heq => hk (h.proc_unique hp hq heq).symm
        rw [Option.map_some, Option.map_some, Option.map_some]
        exact congrArg some (memoryOf_congr (hother q.pgd (pgd_mem hq) hne))

/-- The memory of one process. -/
theorem getElem?_memories (hp : s.procs[i]? = some p) :
    s.memories[i]? = some (memoryOf s.machine p.pgd) := by
  rw [PagedSystem.memories, List.getElem?_map, hp]
  rfl

/-- An event of a process that changes its own memory, and adds no process. -/
theorem SystemSafe.privateStep (h : SystemSafe s) (hp : s.procs[event.proc]? = some p)
    (hprocs : s'.procs.map Process.pgd = s.procs.map Process.pgd)
    (hother : ∀ r ∈ s.pgds, r ≠ p.pgd → ∀ y, contents s'.machine r y = contents s.machine r y)
    (hown : event.Changes (memoryOf s.machine p.pgd) (memoryOf s'.machine p.pgd))
    (hspawns : event.Spawns (memoryOf s.machine p.pgd) []) :
    PrivateStep s.memories event s'.memories := by
  refine ⟨_, _, [], getElem?_memories hp, hown, hspawns, ?_⟩
  rw [List.append_nil, memories_eq, hprocs, h.memories_set hp hother]

/-! ## One event -/

/-- A fault on a page that is not there may make it present. -/
theorem FramesSafe.makePresent_contents (h : FramesSafe ∅ pgds m) (ha : a.Ample) (hr : pgd ∈ pgds) :
    (∀ r ∈ pgds, ∀ y, contents (Vm.makePresent a accessFlags m pgd x).2 r y = contents m r y) ∨
      contents m pgd x = none ∧
      (∀ r ∈ pgds, ∀ y, ¬ (r = pgd ∧ pageOf y = pageOf x) →
        contents (Vm.makePresent a accessFlags m pgd x).2 r y = contents m r y) ∧
      ∃ c, contents (Vm.makePresent a accessFlags m pgd x).2 pgd x = some c := by
  obtain ⟨m₁, hext, hresult | ⟨_, f, hf, hresult⟩⟩ :=
    makePresent_cases accessFlags h.tidy ha.toFresh hr (Set.mem_univ x)
  all_goals
    rw [hresult]
    have hsame : ∀ r ∈ pgds, ∀ y, contents m₁ r y = contents m r y := fun r hr' y => by
      rw [contents, contents, hext.walk r y hr' (Set.mem_univ y), hext.page]
  · exact Or.inl hsame
  · have h₁ := h.extended hext
    by_cases hpresent : (m₁.entry ⟨f, pteIdx x⟩).present = true
    · rw [ensurePage, if_pos hpresent]
      exact Or.inl hsame
    · rw [ensurePage_new hpresent (ha.page_ne_zero m₁)]
      have hset := h₁.tidy.trees.newPage a accessFlags hr (Set.mem_univ x) hf
      have hmoved := LeafSet.moved hset h₁.framesUsed ha (newEntry_ref _) (newPage_page ha)
      refine Or.inr ⟨?_, fun r hr' y hne => ?_, _, contents_of_moved hmoved⟩
      · rw [← hsame pgd hr x, contents, walk, leaf_eq_some.mpr ⟨f, hf, rfl⟩,
          Option.filter_some_neg, Option.map_none]
        simpa [Machine.entry] using hpresent
      · exact (contents_of_moved_other hmoved hr' hne).trans (hsame r hr' y)

/-- What a fault shows. -/
theorem FramesSafe.pagefault_contents {errorCode : CInt} (h : FramesSafe ∅ pgds m) (ha : a.Ample)
    (hr : pgd ∈ pgds) (areas : List VmArea) (hok : FaultOk pgd m addr errorCode) :
    FramesSafe ∅ pgds (vmAreaPagefault a m pgd areas addr errorCode).2 ∧
    ((∀ r ∈ pgds, ∀ y, contents (vmAreaPagefault a m pgd areas addr errorCode).2 r y =
        contents m r y) ∨
      contents m pgd addr = none ∧
      (∀ r ∈ pgds, ∀ y, ¬ (r = pgd ∧ pageOf y = pageOf addr) →
        contents (vmAreaPagefault a m pgd areas addr errorCode).2 r y = contents m r y) ∧
      ∃ c, contents (vmAreaPagefault a m pgd areas addr errorCode).2 pgd addr = some c) := by
  unfold vmAreaPagefault
  cases faultArea addr areas with
  | none => exact ⟨h, Or.inl fun _ _ _ => rfl⟩
  | some vma =>
      simp only
      split_ifs with hbad hcow hread
      · exact ⟨h, Or.inl fun _ _ _ => rfl⟩
      · exact ⟨h, Or.inl fun _ _ _ => rfl⟩
      · exact ⟨h.cowFault ha hr (hok hcow),
          Or.inl fun _ hr' _ => h.cowFault_contents ha hr (hok hcow) _ hr'⟩
      · exact ⟨h.makePresent ha hr, h.makePresent_contents ha hr⟩

/-- `vm_area_mprotect` keeps the frames safe and affects its own process. -/
theorem FramesSafe.mprotect {space : Space} (h : FramesSafe ∅ pgds space.machine) (ha : a.Ample)
    (hr : pgd ∈ pgds) (addr : U64) (length prot : CInt) :
    FramesSafe ∅ pgds (space.mprotect a pgd addr length prot).2.machine ∧
      Affects pgds space.machine (space.mprotect a pgd addr length prot).2.machine pgd
        (ProtectChanges prot) := by
  have hrefl : Affects pgds space.machine space.machine pgd (ProtectChanges prot) :=
    ⟨fun _ _ _ _ => rfl, fun _ => ProtectChanges.refl prot _⟩
  simp only [Space.mprotect, vmAreaMprotect]
  split_ifs with hbad
  · exact ⟨h, hrefl⟩
  · cases mprotectFrom addr (widen (alignedLength length)) prot space.areas.nullArea
        space.areas.list with
    | none => exact ⟨h, hrefl⟩
    | some result =>
        by_cases hread : prot = 1
        · subst hread
          exact ⟨FramesSafe.readPages h, readPages_affects h.tidy.trees hr⟩
        · have hchange : ProtectChanges prot = Replaces := by
            funext c c'
            rw [ProtectChanges, if_neg hread]
          rw [hchange]
          exact ⟨FramesSafe.writePages h ha hr hread, writePages_affects h ha hr hread⟩

/-- Freeing ranges of pages keeps the frames safe. -/
theorem FramesSafe.freeRanges {freed : List (U64 × U64)} (h : FramesSafe ∅ pgds m)
    (hr : pgd ∈ pgds) :
    FramesSafe ∅ pgds (freed.foldl (fun m r => freeAllPFNs m pgd r.1 r.2) m) :=
  freeRanges_keep h fun _ _ h => h.freePFN hr

/-- What a fork shows: the child has the pages of its parent that are visited. -/
theorem FramesSafe.doCfork_contents {ctx : Process} (h : FramesSafe stuck pgds m) (ha : a.Ample)
    (addrStart : U64) (hr : ctx.pgd ∈ pgds) :
    (∀ r ∈ pgds, ∀ y, contents (Vm.doCfork a addrStart ctx m).2 r y = contents m r y) ∧
      memoryOf (Vm.doCfork a addrStart ctx m).2 (Vm.doCfork a addrStart ctx m).1.pgd =
        (memoryOf m ctx.pgd).restrict (pagesVisited (forkPages addrStart ctx)) ∧
      (Vm.doCfork a addrStart ctx m).1.pgd ∉ pgds := by
  have hforked := h.tidy.doCfork_forked addrStart ha hr
  have hnew := h.tidy.newRoot ha ⟨0, Set.mem_univ 0⟩
  have htidy : Tidy ↑(insert (a.allocTable m).1 pgds) Set.univ (a.allocTable m).2 := by
    simpa using hnew.tidy
  have hne : ctx.pgd ≠ (a.allocTable m).1 := fun heq => hnew.fresh (heq ▸ hr)
  refine ⟨fun r hr' y => ?_, Memory.ext (funext fun y => ?_), hnew.fresh⟩
  · by_cases hrp : r = ctx.pgd
    · rw [hrp]
      exact contents_congr hforked.page hforked.frame_parent
    · have hwalk : walk (Vm.doCfork a addrStart ctx m).2.table r y = walk m.table r y :=
        (copyPages_other htidy ha (Finset.mem_insert_of_mem hr) (Finset.mem_insert_self _ _) hne
          (Finset.mem_insert_of_mem hr') hrp fun heq => hnew.fresh (heq ▸ hr')).trans
          (hnew.walk r y hr' (Set.mem_univ y))
      rw [contents, contents, hwalk, hforked.page]
  · simp only [Memory.restrict, memoryOf]
    by_cases hin : pageOf y ∈ pagesVisited (forkPages addrStart ctx)
    · rw [if_pos hin, contents_congr hforked.page (hforked.frame_child hin)]
    · rw [if_neg hin, contents, hforked.child_out y hin]
      exact ite_self none

/-- What a call does: the system stays safe, and the memories take a step. -/
theorem pagedStep_private (ha : a.Ample) (hbytes : a.CountsInBytes) (h : SystemSafe s)
    {call : PageCall} (hok : EventOk s (.call call)) (hstep : pagedStep a s call = some s') :
    SystemSafe s' ∧ PrivateStep s.memories (.call call) s'.memories := by
  obtain ⟨p, hp, rfl⟩ := Option.map_eq_some_iff.mp hstep
  have hr := pgd_mem hp
  replace hok : CallOk s p call := hok p hp
  cases call with
  | map i addr length prot flag =>
      have hprocs := update_map_pgd hp
      refine ⟨⟨?_, (hprocs _).symm ▸ h.nodup⟩,
        h.privateStep hp (hprocs _) (fun _ _ _ _ => rfl) rfl rfl⟩
      rw [PageCall.run, update_pgds (i := i) hp]
      exact h.frames
  | unmap i addr length =>
      have hprocs := update_map_pgd hp
      have haffects := freeRanges_affects (vmAreaUnmap (s.spaceOf p).areas addr length).2.2
        h.frames.tidy.trees hr
      refine ⟨⟨?_, (hprocs _).symm ▸ h.nodup⟩,
        h.privateStep hp (hprocs _) haffects.other (memoryOf_pages (Or.inl rfl) haffects.own) rfl⟩
      rw [PageCall.run, update_pgds (i := i) hp]
      exact h.frames.freeRanges hr
  | mprotect i addr length prot =>
      have hprocs := update_map_pgd hp
      have hframes : FramesSafe ∅ s.pgds (s.spaceOf p).machine := h.frames
      obtain ⟨hsafe, haffects⟩ := hframes.mprotect ha hr addr length prot
      refine ⟨⟨?_, (hprocs _).symm ▸ h.nodup⟩,
        h.privateStep hp (hprocs _) haffects.other
          (memoryOf_pages (ProtectChanges.refl prot none) haffects.own) rfl⟩
      rw [PageCall.run, update_pgds (i := i) hp]
      exact hsafe
  | pagefault i addr errorCode =>
      obtain ⟨huser, hfault⟩ := hok
      obtain ⟨hsafe, hcontents⟩ := h.frames.pagefault_contents ha hr p.areas hfault
      refine ⟨⟨hsafe, h.nodup⟩, h.privateStep hp rfl (fun r hr' hne y => ?_) ?_ rfl⟩
      · rcases hcontents with hsame | ⟨_, hother, _⟩
        · exact hsame r hr' y
        · exact hother r hr' y fun heq => hne heq.1
      · rcases hcontents with hsame | ⟨hnone, hother, c, hnew⟩
        · exact Or.inl (memoryOf_congr (hsame p.pgd hr))
        · exact Or.inr ⟨(memoryOf_data huser).trans hnone, c, memoryOf_setPage huser hnew
            fun y hpage => hother p.pgd hr y fun heq => hpage heq.2⟩
  | cowFault i vaddr accessFlags =>
      have hsame : ∀ r ∈ s.pgds, ∀ y, contents _ r y = contents s.machine r y := fun r hr' y =>
        h.frames.cowFault_contents ha hr hok.2 accessFlags hr'
      exact ⟨⟨h.frames.cowFault ha hr hok.2, h.nodup⟩,
        h.privateStep hp rfl (fun r hr' _ => hsame r hr') (memoryOf_congr (hsame p.pgd hr)) rfl⟩
  | cfork i addrStart =>
      obtain ⟨hsame, hchild, hfresh⟩ := h.frames.doCfork_contents ha addrStart hr
      refine ⟨⟨?_, ?_⟩, _, _, [_], getElem?_memories hp, rfl,
        ⟨pagesVisited (forkPages addrStart p), rfl⟩, ?_⟩
      · rw [cfork_pgds]
        exact h.frames.doCfork_fits ha hbytes hr hok.2
      · rw [PageCall.run, List.map_append, List.nodup_append]
        refine ⟨h.nodup, List.nodup_singleton _, fun r hr' r' hchild heq => ?_⟩
        obtain rfl := List.mem_singleton.mp hchild
        exact hfresh (heq ▸ List.mem_toFinset.mpr hr')
      · rw [memories_eq, PageCall.run, List.map_append, List.map_append]
        refine congrArg₂ (· ++ ·) ?_ (congrArg (fun mem => [mem]) hchild)
        rw [h.memories_set hp fun r hr' _ => hsame r hr']
        exact congrArg (s.memories.set i) (memoryOf_congr (hsame p.pgd hr))

/-- Every event keeps the frames safe and is private. -/
theorem eventStep_private (ha : a.Ample) (hbytes : a.CountsInBytes) (h : SystemSafe s)
    (hok : EventOk s event) (hstep : eventStep a s event = some s') :
    SystemSafe s' ∧ PrivateStep s.memories event s'.memories := by
  cases event with
  | call call => exact pagedStep_private ha hbytes h hok hstep
  | load i x =>
      obtain ⟨p, hp, hstep⟩ := Option.bind_eq_some_iff.mp hstep
      obtain ⟨m, hm, rfl⟩ := Option.map_eq_some_iff.mp hstep
      rw [accessStep] at hm
      split_ifs at hm with hpresent
      obtain rfl := Option.some.inj hm
      refine ⟨h, h.privateStep hp rfl (fun _ _ _ _ => rfl) ⟨?_, rfl⟩ rfl⟩
      rw [memoryOf_data hok]
      exact contents_isSome.trans hpresent
  | store i x b =>
      obtain ⟨p, hp, hstep⟩ := Option.bind_eq_some_iff.mp hstep
      obtain ⟨m, hm, rfl⟩ := Option.map_eq_some_iff.mp hstep
      have hr := pgd_mem hp
      rcases presentSlots_spec s.machine p.pgd x with ⟨hnone, _⟩ | ⟨slots, hslots, _, hwalk⟩
      · simp only [accessStep, hnone] at hm
        cases hm
      · simp only [accessStep, hslots] at hm
        split_ifs at hm with hwritable
        obtain rfl := Option.some.inj hm
        rw [Slots.writable, Bool.and_eq_true] at hwritable
        obtain ⟨hsafe, hown, hother⟩ := h.frames.store (b := b) hr hwalk hwritable.2
        exact ⟨⟨hsafe, h.nodup⟩, h.privateStep hp rfl
          (fun r hr' hne y => hother r hr' y fun heq => hne heq.1)
          ⟨_, (memoryOf_data hok).trans (contents_of_walk hwalk), memoryOf_setPage hok hown
            fun y hpage => hother p.pgd hr y fun heq => hpage heq.2⟩ rfl⟩

/-! ## Runs -/

/-- So is every run of events. -/
theorem eventSteps_private (ha : a.Ample) (hbytes : a.CountsInBytes) (h : SystemSafe s)
    (hok : Runs.AllSteps (eventStep a) EventOk s events)
    (hrun : Runs.run (eventStep a) s events = some s') :
    SystemSafe s' ∧ Runs.Path PrivateStep s.memories events s'.memories :=
  Runs.run_simulates (fun _ _ _ hs hop hstep => eventStep_private ha hbytes hs hop hstep) h hok hrun

/-! ## A sample run -/

/-- A process with a page of stack. -/
def stackProcess : Process :=
  { sampleProcess with stack := ⟨0x7FFFFF000, 0x800000000, 0x800000000, 3⟩ }

/-- The system with this process alone. -/
def stackSystem : PagedSystem :=
  { sampleSystem with procs := [stackProcess] }

/-- Nothing is mapped in it. -/
theorem stackSystem_safe : SystemSafe stackSystem := by
  have hframes := emptyMachine_exact.frames
  refine ⟨⟨emptyMachine_exact.tidy, ⟨fun f _ => (hframes.refcount f).ge, fun f hheld => ?_,
    fun _ h => absurd h (Set.notMem_empty _)⟩, ?_⟩, List.nodup_singleton 1⟩
  · exact (hframes.used f).mpr hheld
  · rintro q - - - f - href -
    have hnone : emptyMachine.store.ref q = none := by
      show frameOf emptyMachine.table q.1 (pageAddr q.2) = none
      rw [frameOf, walk_none (p := tablePath _) emptyMachine_follow (List.prefix_refl _)]
      rfl
    cases hnone.symm.trans href

/-- A page is written, the process forks, gets a copy of the page and stores to it. -/
def forkEvents : List MemoryEvent :=
  [.call (.pagefault 0 0x180201000 0x6), .store 0 0x180201008 5, .call (.cfork 0 0x180201000),
    .call (.cowFault 0 0x180201008 3), .store 0 0x180201010 6]

/-- The child gets pages of its own and stores to them. -/
def childEvents : List MemoryEvent :=
  [.call (.mprotect 1 0x180201000 0x1000 3), .store 1 0x180201008 7,
    .call (.pagefault 1 0x180202000 0x6), .load 1 0x180202000]

/-- The events of the sample are allowed. -/
theorem sampleEvents_ok :
    Runs.AllSteps (eventStep byteFrame) EventOk stackSystem (forkEvents ++ childEvents) := by
  decide +kernel

/-! ## Every run -/

/-- The pages at addresses of processes. -/
def userPages (pgds : Finset Nat) : Finset (Nat × Nat) :=
  (allPages pgds).filter fun q => 2 ^ 20 ≤ q.2

/-- At the addresses of processes, no table is shared, a frame has at least as many references as
pages that hold it, and is in use if there are any, and a page that may be written has its frame to
itself. -/
structure UserFramesSafe (pgds : Finset Nat) (m : Machine) : Prop where
  separate : Trees pgds {x | UserAddr x} m.table
  refcount : ∀ f, (RefCount.held (userPages pgds) (fun q => frameOf m.table q.1 (pageAddr q.2)) f
    : Int) ≤ m.refcount f
  used : ∀ r ∈ pgds, ∀ x f, UserAddr x → frameOf m.table r x = some f → f ∈ m.frames.pagesUsed
  exclusive : ∀ r ∈ pgds, ∀ s ∈ pgds, ∀ x y e, UserAddr x → UserAddr y →
    walk m.table r x = some e → e.writable = true → frameOf m.table s y = some e.pfn →
    r = s ∧ pageOf x = pageOf y

/-- Safe frames are safe at user addresses. -/
theorem FramesSafe.user (h : FramesSafe ∅ pgds m) : UserFramesSafe pgds m := by
  have hscope : ∀ r p, InScope pgds {x | UserAddr x} r p → InScope pgds Set.univ r p := by
    rintro r p ⟨hr, x, _, hp⟩
    exact ⟨hr, x, Set.mem_univ x, hp⟩
  refine ⟨fun r p r' p' f hp hp' => h.tidy.trees r p r' p' f (hscope r p hp) (hscope r' p' hp'),
    fun f => ?_, fun r hr x f _ hf => h.framesUsed r x f hr hf,
    fun r hr s hs x y e _ _ he hw hf => page_unique h.exclusive hr hs he hw hf⟩
  have hle : RefCount.held (userPages pgds) (fun q => frameOf m.table q.1 (pageAddr q.2)) f ≤
      holders pgds m.table f :=
    Finset.card_le_card (Finset.filter_subset_filter _ (Finset.filter_subset _ _))
  exact (Int.ofNat_le.mpr hle).trans (h.frames.refcount f (Set.notMem_empty f))

/-- In every run of calls and accesses of any processes, every page is mapped to a frame in use
that has at least as many references as pages, and a page that may be written shares its frame
with no page of any process. -/
theorem frames_safe_always (ha : a.Ample) (hbytes : a.CountsInBytes) (h : SystemSafe s)
    (hok : Runs.AllSteps (eventStep a) EventOk s events)
    (hrun : Runs.run (eventStep a) s events = some s') : UserFramesSafe s'.pgds s'.machine :=
  (eventSteps_private ha hbytes h hok hrun).1.frames.user

/-- A process with a stack page forks, and both go on. -/
theorem frames_safe_always_sample :
    ∃ s', Runs.run (eventStep byteFrame) stackSystem (forkEvents ++ childEvents) = some s' ∧
      UserFramesSafe s'.pgds s'.machine := by
  have hsome :
      (Runs.run (eventStep byteFrame) stackSystem (forkEvents ++ childEvents)).isSome := by
    decide +kernel
  obtain ⟨s', hrun⟩ := Option.isSome_iff_exists.mp hsome
  exact ⟨s', hrun, frames_safe_always byteFrame_ample byteFrame_bytes stackSystem_safe
    sampleEvents_ok hrun⟩

end GemOS.Vm
