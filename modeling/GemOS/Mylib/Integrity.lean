import GemOS.Lib.Runs
import GemOS.Mylib.Calls

/-!
# Integrity of the heap over runs

A program calls `memalloc` and `memfree` and writes into the blocks it holds. Live blocks stay
apart and the free list stays well linked as long as each call meets the condition of
`KeepsList`; memory is conserved as long as each meets `KeepsMemory`. The conditions are needed:
after each theorem there is a run of valid calls that breaks what it says.
-/

namespace GemOS.Mylib

open DoublyLinked

/-! ## Conditions on calls -/

/-- What a call can rely on: new regions are fresh, and the program frees and writes only blocks
it holds. -/
def ValidOp (s : State) : Op → Prop
  | .memalloc requestedSize mmap =>
      ∀ r ∈ newRegion s.heap requestedSize mmap, FreshRegion s.regions r
  | .memfree block => block ∈ s.live
  | .store address _ => ∃ b ∈ s.live, address.toNat % 8 = 0 ∧
      start b + 8 ≤ address.toNat ∧ address.toNat + 8 ≤ start b + s.heap.extent b

instance : ∀ s op, Decidable (ValidOp s op)
  | _, .memalloc _ _ => inferInstanceAs (Decidable (∀ _ ∈ _, _))
  | _, .memfree _ => inferInstanceAs (Decidable (_ ∈ _))
  | s, .store _ _ => List.decidableBEx _ s.live

/-- The call keeps live blocks apart and the free list well linked. -/
def KeepsHeap (s : State) : Op → Prop
  | .memalloc requestedSize mmap =>
      newRegion s.heap requestedSize mmap ≠ [] → LeavesChunk (sizeNeeded requestedSize)
  | .memfree block => KeepsList s.heap block
  | .store _ _ => True

/-- The call loses no memory. -/
def KeepsAll (s : State) : Op → Prop
  | .memalloc requestedSize mmap =>
      newRegion s.heap requestedSize mmap ≠ [] → LeavesChunk (sizeNeeded requestedSize)
  | .memfree block => KeepsMemory s.heap block
  | .store _ _ => True

/-! ## One step -/

/-- The chunks of the free list and the live blocks are laid out in the regions obtained. -/
abbrev LaidOut (s : State) (cs : List U64) : Prop :=
  Layout s.heap cs s.live (mapped s.regions)

/-- They leave out no byte of the regions obtained. -/
abbrev Filled (s : State) (cs : List U64) : Prop :=
  Full s.heap cs s.live (mapped s.regions) (mappedSize s.regions)

variable {s : State} {cs : List U64}

/-- The block that a successful call of `memalloc` has returned is live. -/
theorem live_after {h : Heap} {c : U64} {live : List U64} (hc : Header h c) :
    (if c + ALLOC_MEM_METADATA = NULL then live
      else (c + ALLOC_MEM_METADATA - ALLOC_MEM_METADATA) :: live) = c :: live := by
  rw [if_neg hc.payload_ne, BitVec.add_sub_cancel]

/-- A call of `memalloc`. -/
theorem memalloc_step {requestedSize : U64} {mmap : Option U64} (hL : LaidOut s cs)
    (hvalid : ValidOp s (.memalloc requestedSize mmap))
    (hkeeps : KeepsHeap s (.memalloc requestedSize mmap)) :
    ∃ s' cs', s.step (.memalloc requestedSize mmap) = some s' ∧ LaidOut s' cs' ∧
      (Filled s cs → Filled s' cs') := by
  by_cases hzero : requestedSize = 0
  · refine ⟨s, cs, ?_, hL, id⟩
    simp [State.step, memalloc, newRegion, hzero]
  rcases hL.find_fit (sizeNeeded requestedSize) with
    ⟨hfind, -⟩ | ⟨pre, c, post, rfl, -, hfits, hfind⟩
  · cases mmap with
    | none =>
        refine ⟨s, cs, ?_, hL, id⟩
        simp only [State.step, memalloc, newRegion, if_neg hzero, hfind]
        simp
    | some base =>
        have hnew : newRegion s.heap requestedSize (some base) =
            [⟨base, sizeRequestedFromOS (sizeNeeded requestedSize)⟩] := by
          simp only [newRegion, if_neg hzero, hfind, if_true]
          rfl
        have hfresh := hvalid _ (hnew ▸ List.mem_singleton_self _)
        have hroom := hkeeps (by rw [hnew]; exact List.cons_ne_nil _ _)
        obtain ⟨h', cs', heval, hL', hF', -⟩ := memalloc_mapped hL hzero hfind hfresh hroom
        refine ⟨⟨h', base :: s.live, _ :: s.regions⟩, cs', ?_, hL', hF' _⟩
        simp only [State.step, heval, hnew, Option.bind_eq_bind, Option.bind_some,
          live_after (hL'.header base (by simp)), List.singleton_append]
  · have hc := hL.ne_null (b := c) (by simp)
    have hnew : newRegion s.heap requestedSize mmap = [] := by
      have hne : ¬ find s.heap.next NULL (fits s.heap (sizeNeeded requestedSize)) LOOP_BOUND
          s.heap.freeList = some NULL := fun heq => hc (Option.some.inj (hfind.symm.trans heq))
      simp only [newRegion, if_neg hzero, if_neg hne]
    obtain ⟨h', cs', heval, hL', hF', -⟩ := memalloc_found mmap hL hzero hfind hfits
    refine ⟨⟨h', c :: s.live, s.regions⟩, cs', ?_, hL', hF' _⟩
    simp only [State.step, heval, hnew, Option.bind_eq_bind, Option.bind_some,
      live_after (hL'.header c (by simp)), List.nil_append]

/-- Every valid operation that keeps the heap succeeds and leaves a laid out heap; if it keeps all
memory, none is lost. -/
theorem step_layout {op : Op} (hL : LaidOut s cs) (hvalid : ValidOp s op)
    (hkeeps : KeepsHeap s op) :
    ∃ s' cs', s.step op = some s' ∧ LaidOut s' cs' ∧
      (KeepsAll s op → Filled s cs → Filled s' cs') := by
  cases op with
  | memalloc requestedSize mmap =>
      obtain ⟨s', cs', hstep, hL', hF'⟩ := memalloc_step hL hvalid hkeeps
      exact ⟨s', cs', hstep, hL', fun _ => hF'⟩
  | memfree block =>
      obtain ⟨h', cs', heval, hL', hF'⟩ := memfree_layout hL hvalid hkeeps
      refine ⟨⟨h', s.live.erase block, s.regions⟩, cs', ?_, hL', fun hall => hF' hall _⟩
      simp only [State.step, heval, Option.bind_eq_bind, Option.bind_some]
  | store address word =>
      obtain ⟨b, hb, -, hlow, hhigh⟩ := hvalid
      obtain ⟨hL', hF'⟩ := hL.store word hb hlow hhigh
      exact ⟨_, cs, rfl, hL', fun _ => hF' _⟩

/-- Before the first call there is nothing to lay out. -/
theorem laidOut_start (mem : U64 → U64) :
    LaidOut (State.start mem) [] ∧ Filled (State.start mem) [] := by
  refine ⟨⟨⟨⟨rfl, fun hne => absurd rfl hne, trivial⟩, by simp⟩, by simp [State.start], ?_⟩, ?_⟩
  · exact ⟨by simp [State.start], by simp [State.start], by simp [State.start]⟩
  · exact ⟨by simp [State.start, mapped], rfl⟩

/-! ## Runs -/

/-- The run invariant: the heap is laid out. -/
theorem run_laidOut {mem : U64 → U64} {ops : List Op}
    (hops : Runs.AllSteps State.step (fun s op => ValidOp s op ∧ KeepsHeap s op)
      (State.start mem) ops) :
    ∃ s, Runs.run State.step (State.start mem) ops = some s ∧ ∃ cs, LaidOut s cs := by
  have hstep : ∀ s op, (∃ cs, LaidOut s cs) → ValidOp s op ∧ KeepsHeap s op →
      ∃ s', s.step op = some s' ∧ ∃ cs, LaidOut s' cs := by
    rintro s op ⟨cs, hL⟩ ⟨hvalid, hkeeps⟩
    obtain ⟨s', cs', hrun, hL', -⟩ := step_layout hL hvalid hkeeps
    exact ⟨s', hrun, cs', hL'⟩
  exact Runs.run_invariant hstep ⟨[], (laidOut_start mem).1⟩ hops

/-! ## Sample runs -/

/-- The address of the region in the sample runs. -/
def sampleBase : U64 := 0x100000

/-- Two blocks, a store into the first one, and the second one freed: its right neighbour is the
only chunk of the list. -/
def sampleOps : List Op :=
  [.memalloc 16 (some sampleBase), .memalloc 40 none, .store (sampleBase + 8) 7,
    .memfree (sampleBase + 24)]

/-- A condition on calls that can be tested: new regions leave a chunk, and a block is freed while
the list has one chunk, which does not end where the block starts. -/
def KeepsOneChunk (s : State) : Op → Prop
  | .memalloc requestedSize mmap =>
      newRegion s.heap requestedSize mmap = [] ∨ LeavesChunk (sizeNeeded requestedSize)
  | .memfree block => s.heap.next s.heap.freeList = NULL ∧
      s.heap.freeList + s.heap.size s.heap.freeList ≠ block
  | .store _ _ => True

instance : ∀ s op, Decidable (KeepsOneChunk s op)
  | _, .memalloc _ _ => inferInstanceAs (Decidable (_ ∨ _))
  | _, .memfree _ => inferInstanceAs (Decidable (_ ∧ _))
  | _, .store _ _ => inferInstanceAs (Decidable True)

theorem KeepsOneChunk.keeps {op : Op} (h : KeepsOneChunk s op) :
    KeepsHeap s op ∧ KeepsAll s op := by
  cases op with
  | memalloc requestedSize mmap =>
      exact ⟨fun hne => h.resolve_left hne, fun hne => h.resolve_left hne⟩
  | memfree block =>
      have hno_left : ∀ l, ¬ LeftNeighbour s.heap block l := by
        rintro l ⟨hreach, heq⟩
        obtain rfl := hreach.eq_of_last h.1
        exact h.2 heq
      have hfirst : ∀ r, RightNeighbour s.heap block r → r = s.heap.freeList := fun r hr =>
        hr.1.eq_of_last h.1
      exact ⟨⟨fun r hr => Or.inr (Or.inl (hfirst r hr)), fun l _ hl => absurd hl (hno_left l)⟩,
        ⟨fun r hr => Or.inr (hfirst r hr), fun l hl => absurd hl (hno_left l),
          fun l _ hl => absurd hl (hno_left l)⟩⟩
  | store address word => exact ⟨trivial, trivial⟩

/-- The sample run is valid and keeps the heap and all memory. -/
theorem sampleOps_keep :
    Runs.AllSteps State.step (fun s op => ValidOp s op ∧ KeepsHeap s op ∧ KeepsAll s op)
      (State.start fun _ => 0) sampleOps := by
  have htested : Runs.AllSteps State.step (fun s op => ValidOp s op ∧ KeepsOneChunk s op)
      (State.start fun _ => 0) sampleOps := by
    decide +kernel
  exact htested.mono fun s op h => ⟨h.1, h.2.keeps⟩

/-- Five blocks. The second, the fourth and the first one are freed: the right neighbour of the
first one is the second one, which is neither the first nor the last chunk of the list. -/
def wrongOrderOps : List Op :=
  [.memalloc 16 (some sampleBase), .memalloc 16 none, .memalloc 16 none, .memalloc 16 none,
    .memalloc 16 none, .memfree (sampleBase + 24), .memfree (sampleBase + 72), .memfree sampleBase]

/-! ## Live blocks -/

/-- Live blocks do not overlap, lie in memory obtained from `mmap`, and no chunk on the free list
overlaps one of them. -/
structure BlocksApart (s : State) : Prop where
  live : s.live.Pairwise (Blocks.Apart start s.heap.extent)
  mapped : ∀ b ∈ s.live, ∀ x, Blocks.Holds start s.heap.extent b x → x ∈ mapped s.regions
  free : ∀ c, s.heap.Reachable c → ∀ b ∈ s.live, Blocks.Apart start s.heap.extent c b

/-- No memory is handed out twice, in any run of valid calls that keep the free list well
linked. -/
theorem live_blocks_apart {mem : U64 → U64} {ops : List Op}
    (hops : Runs.AllSteps State.step (fun s op => ValidOp s op ∧ KeepsHeap s op)
      (State.start mem) ops) :
    ∃ s, Runs.run State.step (State.start mem) ops = some s ∧ BlocksApart s := by
  obtain ⟨s, hrun, cs, hL⟩ := run_laidOut hops
  refine ⟨s, hrun, ⟨?_, fun b hb => hL.tiling.inside b (List.mem_append_right cs hb), ?_⟩⟩
  · exact hL.tiling.apart.sublist (List.sublist_append_right cs s.live)
  · intro c hc b hb
    have hc := hL.reachable_iff.mp hc
    refine hL.tiling.forall_apart (List.mem_append_left _ hc) (List.mem_append_right _ hb) ?_
    exact (List.nodup_append.mp hL.nodup).2.2 c hc b hb

/-- Two blocks stay apart. -/
theorem live_blocks_apart_sample :
    ∃ s, Runs.run State.step (State.start fun _ => 0) sampleOps = some s ∧ BlocksApart s :=
  live_blocks_apart (sampleOps_keep.mono fun _ _ h => ⟨h.1, h.2.1⟩)

set_option maxRecDepth 4000 in
/-- After these frees the next large allocation is handed out while the second block still leads
to it, so that it is live and on the free list. -/
theorem live_block_on_free_list :
    Runs.AllSteps State.step ValidOp (State.start fun _ => 0)
      (wrongOrderOps ++ [.memalloc 100 none]) ∧
    ∃ s, Runs.run State.step (State.start fun _ => 0)
        (wrongOrderOps ++ [.memalloc 100 none]) = some s ∧ ¬ BlocksApart s := by
  refine ⟨by decide +kernel, _, rfl, fun h => ?_⟩
  refine absurd (h.free (sampleBase + 120) ?_ (sampleBase + 120) (by decide +kernel))
    (by decide +kernel)
  exact .step (by decide +kernel)
    (.of_next (b := sampleBase + 24) (by decide +kernel) (by decide +kernel)
      (.of_next (by decide +kernel) (by decide +kernel) (.here (by decide))))

/-! ## The free list -/

/-- Following `Next` from `FreeList` ends and meets no chunk twice, `Prev` is the converse of
`Next`, and the chunks do not overlap. -/
structure FreeListConsistent (h : Heap) : Prop where
  finite : ∃ cs : List U64, Walk h.next NULL h.freeList cs ∧ cs.Nodup
  head_prev : h.freeList ≠ NULL → h.prev h.freeList = NULL
  next_prev : ∀ c, h.Reachable c → h.next c ≠ NULL → h.prev (h.next c) = c
  apart : ∀ c d, h.Reachable c → h.Reachable d → c ≠ d → Blocks.Apart start h.extent c d

/-- A heap that is laid out has a consistent free list. -/
theorem Layout.consistent {h : Heap} {live : List U64} {area : Set Nat}
    (hL : Layout h cs live area) : FreeListConsistent h where
  finite := ⟨cs, hL.list.linked.walk (List.nodup_cons.mp hL.list.nodup).1 hL.next_eq,
    hL.chunks_nodup⟩
  head_prev hne := by
    have hhead : h.freeList = headOr NULL cs := hL.list.head_eq
    cases cs with
    | nil => exact absurd hhead hne
    | cons c cs =>
        have hfirst : Layout h ([] ++ c :: cs) live area := hL
        rw [show h.freeList = c from hhead]
        exact hfirst.node.2.1
  next_prev c hc hne := by
    obtain ⟨pre, post, rfl⟩ := List.append_of_mem (hL.reachable_iff.mp hc)
    have hnext := hL.node.2.2
    cases post with
    | nil => exact absurd hnext hne
    | cons d post =>
        have hsplit : Layout h ((pre ++ [c]) ++ d :: post) live area := by
          simpa using hL
        rw [show h.next c = d from hnext, hsplit.node.2.1]
        simp [lastOr]
  apart c d hc hd hne :=
    hL.tiling.forall_apart (List.mem_append_left live (hL.reachable_iff.mp hc))
      (List.mem_append_left live (hL.reachable_iff.mp hd)) hne

/-- The free list is consistent after every run of valid calls that keep it well linked, and the
search loops of the next call end. -/
theorem free_list_consistent {mem : U64 → U64} {ops : List Op}
    (hops : Runs.AllSteps State.step (fun s op => ValidOp s op ∧ KeepsHeap s op)
      (State.start mem) ops) :
    ∃ s, Runs.run State.step (State.start mem) ops = some s ∧ FreeListConsistent s.heap ∧
      (∀ requestedSize mmap, (memalloc s.heap requestedSize mmap).isSome) ∧
      ∀ b ∈ s.live, (memfree s.heap (b + ALLOC_MEM_METADATA)).isSome := by
  obtain ⟨s, hrun, cs, hL⟩ := run_laidOut hops
  exact ⟨s, hrun, hL.consistent, hL.memalloc_ends, fun b hb => hL.memfree_ends hb⟩

/-- Two blocks, and a third chunk on the list. -/
theorem free_list_consistent_sample :
    ∃ s, Runs.run State.step (State.start fun _ => 0) sampleOps = some s ∧
      FreeListConsistent s.heap ∧
      (∀ requestedSize mmap, (memalloc s.heap requestedSize mmap).isSome) ∧
      ∀ b ∈ s.live, (memfree s.heap (b + ALLOC_MEM_METADATA)).isSome :=
  free_list_consistent (sampleOps_keep.mono fun _ _ h => ⟨h.1, h.2.1⟩)

/-- The first block has taken in the second one and the back link to it, but the list still goes
through the second one. -/
theorem free_list_inconsistent :
    Runs.AllSteps State.step ValidOp (State.start fun _ => 0) wrongOrderOps ∧
    ∃ s, Runs.run State.step (State.start fun _ => 0) wrongOrderOps = some s ∧
      ¬ FreeListConsistent s.heap := by
  refine ⟨by decide +kernel, _, rfl, fun h => ?_⟩
  refine absurd (h.next_prev (sampleBase + 24) ?_ (by decide +kernel)) (by decide +kernel)
  exact .of_next (by decide +kernel) (by decide +kernel) (.here (by decide))

/-! ## Conservation of memory -/

/-- Every byte obtained from `mmap` belongs to one live block or to one chunk on the free list,
and the sizes of these add up to the total size obtained. -/
structure MemoryConserved (s : State) : Prop where
  owned : ∀ x ∈ mapped s.regions, ∃! b, (b ∈ s.live ∨ s.heap.Reachable b) ∧
    Blocks.Holds start s.heap.extent b x
  separate : s.live.Nodup ∧ ∀ b ∈ s.live, ¬ s.heap.Reachable b
  total : ∃ cs : List U64, cs.Nodup ∧ (∀ c, c ∈ cs ↔ s.heap.Reachable c) ∧
    (s.live.map s.heap.extent).sum + (cs.map s.heap.extent).sum = mappedSize s.regions

/-- The condition of the conservation theorem is the stronger one. -/
theorem KeepsAll.keepsHeap {op : Op} (hL : LaidOut s cs) (hall : KeepsAll s op) :
    KeepsHeap s op := by
  cases op with
  | memalloc requestedSize mmap => exact hall
  | memfree block => exact KeepsMemory.keepsList hL hall
  | store address word => trivial

/-- No memory is lost in any run of valid calls that coalesce at the ends of the free list. -/
theorem memory_conserved {mem : U64 → U64} {ops : List Op}
    (hops : Runs.AllSteps State.step (fun s op => ValidOp s op ∧ KeepsAll s op)
      (State.start mem) ops) :
    ∃ s, Runs.run State.step (State.start mem) ops = some s ∧ MemoryConserved s := by
  have hstep : ∀ s op, (∃ cs, LaidOut s cs ∧ Filled s cs) → ValidOp s op ∧ KeepsAll s op →
      ∃ s', s.step op = some s' ∧ ∃ cs, LaidOut s' cs ∧ Filled s' cs := by
    rintro s op ⟨cs, hL, hF⟩ ⟨hvalid, hall⟩
    obtain ⟨s', cs', hrun, hL', hF'⟩ := step_layout hL hvalid (hall.keepsHeap hL)
    exact ⟨s', hrun, cs', hL', hF' hall hF⟩
  obtain ⟨s, hrun, cs, hL, hF⟩ := Runs.run_invariant hstep ⟨[], laidOut_start mem⟩ hops
  have hmem : ∀ b, b ∈ s.live ∨ s.heap.Reachable b ↔ b ∈ cs ++ s.live := by
    intro b
    rw [hL.reachable_iff, List.mem_append, or_comm]
  have hnodup := List.nodup_append.mp hL.nodup
  refine ⟨s, hrun, ⟨fun x hx => ?_, ⟨hnodup.2.1, fun b hb hreach => ?_⟩, cs, hL.chunks_nodup,
    fun c => hL.reachable_iff.symm, ?_⟩⟩
  · obtain ⟨b, hb, hholds⟩ := hF.covers x hx
    refine ⟨b, ⟨(hmem b).mpr hb, hholds⟩, fun d ⟨hd, hdholds⟩ => ?_⟩
    by_contra hne
    exact (hL.tiling.forall_apart ((hmem d).mp hd) hb hne).not_holds hdholds hholds
  · exact hnodup.2.2 b (hL.reachable_iff.mp hreach) b hb rfl
  · rw [← hF.total, List.map_append, List.sum_append, Nat.add_comm]

/-- Nothing is lost when the second block is freed and joined with the rest of the region. -/
theorem memory_conserved_sample :
    ∃ s, Runs.run State.step (State.start fun _ => 0) sampleOps = some s ∧ MemoryConserved s :=
  memory_conserved (sampleOps_keep.mono fun _ _ h => ⟨h.1, h.2.2⟩)

/-- Three blocks, of which the first two are freed: the first one takes in the second one and
drops the rest of the list. -/
theorem memory_lost :
    let ops : List Op := [.memalloc 16 (some sampleBase), .memalloc 16 none, .memalloc 16 none,
      .memfree sampleBase, .memfree (sampleBase + 24)]
    Runs.AllSteps State.step ValidOp (State.start fun _ => 0) ops ∧
    ∃ s, Runs.run State.step (State.start fun _ => 0) ops = some s ∧ ¬ MemoryConserved s := by
  refine ⟨by decide +kernel, _, rfl, fun h => ?_⟩
  -- a byte of the chunk that was the end of the list
  obtain ⟨b, ⟨hb, hholds⟩, -⟩ := h.owned (sampleBase + 72).toNat
    ⟨⟨sampleBase, FOUR_MB⟩, by decide +kernel, by decide, by decide⟩
  rcases hb with hb | hb
  · obtain rfl : b = sampleBase + 48 := List.mem_singleton.mp hb
    exact absurd hholds (by decide +kernel)
  · obtain rfl := hb.eq_of_last (by decide +kernel)
    exact absurd hholds (by decide +kernel)

end GemOS.Mylib
