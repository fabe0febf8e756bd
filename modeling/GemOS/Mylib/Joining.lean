import GemOS.Mylib.Integrity

/-!
# Free chunks are joined

As long as every call of `memfree` finds its neighbours where it can join them (`KeepsMemory`), no
two chunks of the free list are next to each other, except where two regions meet: `memalloc` does
not look at the neighbours of a new region. A program that has freed all its blocks therefore has
each region back in one piece, and allocates from it again without another call of `mmap`.
-/

namespace GemOS.Mylib

open DoublyLinked

/-! ## Regions -/

/-- The addresses at which regions start. -/
def regionStarts (regions : List Region) : Set Nat :=
  {x | ∃ r ∈ regions, x = r.base.toNat}

/-- The regions are not empty and do not overlap. -/
structure RegionsApart (regions : List Region) : Prop where
  not_empty : ∀ r ∈ regions, 0 < r.length.toNat
  apart : regions.Pairwise fun r old => r.base.toNat + r.length.toNat ≤ old.base.toNat ∨
    old.base.toNat + old.length.toNat ≤ r.base.toNat

variable {regions : List Region} {r : Region}

theorem RegionsApart.cons (h : RegionsApart regions) (hr : FreshRegion regions r) :
    RegionsApart (r :: regions) :=
  ⟨List.forall_mem_cons.mpr ⟨hr.not_empty, h.not_empty⟩,
    List.pairwise_cons.mpr ⟨hr.apart, h.apart⟩⟩

/-- No region starts inside another one. -/
theorem RegionsApart.no_start_inside (h : RegionsApart regions) (hr : r ∈ regions) {x : Nat}
    (hx : x ∈ regionStarts regions) : ¬ (r.base.toNat < x ∧ x < r.base.toNat + r.length.toNat) := by
  rintro ⟨hlow, hhigh⟩
  obtain ⟨old, hold, rfl⟩ := hx
  have hne : r ≠ old := fun heq => Nat.lt_irrefl _ (heq ▸ hlow)
  have hsymm : Std.Symm fun r old : Region =>
      r.base.toNat + r.length.toNat ≤ old.base.toNat ∨
        old.base.toNat + old.length.toNat ≤ r.base.toNat := ⟨fun _ _ => Or.symm⟩
  have hapart := h.apart.forall hr hold hne
  have hpos := h.not_empty old hold
  omega

theorem regionStarts_mono : regionStarts regions ⊆ regionStarts (r :: regions) := by
  rintro x ⟨old, hold, hx⟩
  exact ⟨old, List.mem_cons_of_mem r hold, hx⟩

/-- The address behind a fresh region is new as well, or an older region starts there. -/
theorem FreshRegion.end_start (hr : FreshRegion regions r)
    (hmapped : r.base.toNat + r.length.toNat ∈ mapped regions) :
    r.base.toNat + r.length.toNat ∈ regionStarts regions := by
  obtain ⟨old, hold, hlow, hhigh⟩ := hmapped
  have hapart := hr.apart old hold
  have hpos := hr.not_empty
  exact ⟨old, hold, by omega⟩

/-! ## One call -/

section Calls

variable {h h' : Heap} {cs cs' live live' : List U64} {area : Set Nat} {B B' : Set Nat} {b : U64}

/-- Cutting a block from free or new memory leaves chunks separated: what is left behind the block
ends where the memory did. -/
theorem Carved.separated {total : U64} {room : Nat} {rest : List U64}
    (hcarved : Carved h h' b total room rest cs') (hlayout : Layout h' cs' (b :: live') area)
    (hsep : Blocks.SeparatedBut B start h.extent cs) (hB : B ⊆ B') (hrest : ∀ c ∈ rest, c ∈ cs)
    (hend : (∃ a ∈ cs, start b + room = start a + h.extent a) ∨
      ∀ d ∈ cs', start b + room = start d → start d ∈ B')
    (hinside : ∀ n, 0 < n → n < room → ∀ a ∈ cs, start a + h.extent a ≠ start b + n) :
    Blocks.SeparatedBut B' start h'.extent cs' := by
  have hkept : ∀ c ∈ rest, h'.extent c = h.extent c := fun c hc =>
    congrArg BitVec.toNat (hcarved.kept c hc)
  have hlist := hcarved.list
  by_cases hroom : total.toNat + 24 ≤ room
  · rw [if_pos hroom] at hlist
    subst hlist
    have hrem := hcarved.remainder hroom
    have hblock := hcarved.block
    rw [if_pos hroom] at hblock
    have hpos : 0 < h'.extent b := hlayout.tiling.pos b (by simp)
    have hheader := hlayout.header (b + total) (by simp)
    have hblock_header := hlayout.header b (by simp)
    have hstart : start (b + total) = start b + total.toNat := by
      have hwrap := hblock_header.no_wrap
      have hne : start (b + total) ≠ 0 := fun h0 =>
        hheader.nonzero (BitVec.eq_of_toNat_eq h0)
      simp only [start] at *
      rw [BitVec.toNat_add] at hne ⊢
      rw [hblock] at hwrap
      omega
    refine hsep.of_ends hB (fun c hc => ?_) fun d hd => ?_
    · rcases List.mem_cons.mp hc with rfl | hc
      · have hsum : start (b + total) + h'.extent (b + total) = start b + room := by
          omega
        rw [hsum]
        exact hend
      · exact Or.inl ⟨c, hrest c hc, by rw [hkept c hc]⟩
    · rcases List.mem_cons.mp hd with rfl | hd
      · refine Or.inr fun a ha => ?_
        rw [hstart]
        exact hinside _ (by omega) (by omega) a ha
      · exact Or.inl (hrest d hd)
  · rw [if_neg hroom] at hlist
    subst hlist
    exact hsep.of_ends hB (fun c hc => Or.inl ⟨c, hrest c hc, by rw [hkept c hc]⟩)
      fun d hd => Or.inl (hrest d hd)

/-- A call of `memfree` that loses no memory leaves chunks separated: the chunk made of the block
and its neighbours ends where the last of these did. -/
theorem Layout.memfree_separated {result : Int} (hL : Layout h cs live area) (hb : b ∈ live)
    (hkeeps : KeepsMemory h b) (hsep : Blocks.SeparatedBut B start h.extent cs)
    (hcall : memfree h (b + ALLOC_MEM_METADATA) = some (result, h')) :
    ∃ cs', (∀ c, h'.Reachable c ↔ c ∈ cs') ∧ Blocks.SeparatedBut B start h'.extent cs' := by
  obtain ⟨h₁, heval, hfreeing⟩ := hL.memfree_freeing hb
  obtain ⟨-, rfl⟩ := Prod.mk.inj (Option.some.inj (hcall.symm.trans heval))
  obtain ⟨hL₁, hprev, hsize, -⟩ := hL.freed hb
  have hb_mem := List.mem_append_right cs hb
  have hcs_mem : ∀ c ∈ cs, c ∈ cs ++ live := fun c hc => List.mem_append_left live hc
  have hpos := hL.tiling.pos b hb_mem
  have hsame : ∀ c ∈ cs ++ live, (h.makeChunk b (h.size b)).extent c = h.extent c := fun c hc =>
    congrArg BitVec.toNat (hsize c hc)
  -- no chunk ends where the block starts, or starts where it ends, but for its neighbours
  have hno_left : (∀ l, ¬ LeftNeighbour h b l) → ∀ a ∈ cs, start a + h.extent a ≠ start b :=
    fun hleft a ha hadj => hleft a ((hL.left_iff hb).mpr ⟨ha, hadj⟩)
  have hno_right : (∀ r, ¬ RightNeighbour h b r) → ∀ d ∈ cs, start b + h.extent b ≠ start d :=
    fun hright d hd hadj => hright d ((hL.right_iff hb).mpr ⟨hd, hadj⟩)
  cases hfreeing with
  | alone hleft hright =>
      obtain ⟨hsize₂, hL₂⟩ := hL₁.linkFront hprev
      have hextent : ∀ c ∈ b :: cs, ((h.makeChunk b (h.size b)).linkFront b).extent c =
          h.extent c := by
        intro c hc
        have hmem : c ∈ cs ++ b :: live.erase b := by
          rcases List.mem_cons.mp hc with rfl | hc
          · simp
          · simp [hc]
        refine (congrArg BitVec.toNat (hsize₂ c hmem)).trans (hsame c ?_)
        exact ((List.perm_cons_erase hb).append_left cs).mem_iff.mpr hmem
      refine ⟨_, fun c => hL₂.reachable_iff, hsep.of_ends (Set.Subset.refl B) ?_ ?_⟩
      · intro c hc
        rw [hextent c hc]
        rcases List.mem_cons.mp hc with rfl | hc
        · refine Or.inr fun d hd hadj => ?_
          rcases List.mem_cons.mp hd with rfl | hd
          · omega
          · exact absurd hadj (hno_right hright d hd)
        · exact Or.inl ⟨c, hc, rfl⟩
      · intro d hd
        rcases List.mem_cons.mp hd with rfl | hd
        · exact Or.inr (hno_left hleft)
        · exact Or.inl hd
  | @right r hleft hright =>
      obtain ⟨hr, hadj⟩ := (hL.right_iff hb).mp hright
      have hfirst := (hkeeps.right r hright).resolve_left (not_exists.mpr hleft)
      obtain ⟨pre, post, rfl⟩ := List.append_of_mem hr
      obtain rfl := hL.first_of_freeList hfirst
      obtain ⟨hL₂, -, hextents⟩ := hL₁.mergeRight hprev (hL.freed_adjacent hb hb_mem hadj)
      refine ⟨_, fun c => hL₂.reachable_iff, hsep.of_ends (Set.Subset.refl B) ?_ ?_⟩
      · intro c hc
        rw [hextents c hc]
        rcases List.mem_cons.mp hc with rfl | hc
        · refine Or.inl ⟨r, hr, ?_⟩
          rw [if_pos rfl, hsame _ hb_mem, hsame r (hcs_mem r hr), ← Nat.add_assoc, hadj]
        · have hc' := List.mem_cons_of_mem r hc
          have hne : c ≠ b := fun heq =>
            (List.nodup_append.mp hL.nodup).2.2 c hc' b hb heq
          refine Or.inl ⟨c, hc', ?_⟩
          rw [if_neg hne, hsame c (hcs_mem c hc')]
      · intro d hd
        rcases List.mem_cons.mp hd with rfl | hd
        · exact Or.inr (hno_left hleft)
        · exact Or.inl (List.mem_cons_of_mem r hd)
  | @left l hleft hright =>
      obtain ⟨hl, hadj⟩ := (hL.left_iff hb).mp hleft
      have hlast := (hkeeps.left l hleft).resolve_left (not_exists.mpr hright)
      obtain ⟨pre, post, rfl⟩ := List.append_of_mem hl
      obtain rfl := hL.last_of_next hlast
      obtain ⟨hL₂, -, hextents⟩ := hL₁.mergeLeft (hL.freed_adjacent hb (hcs_mem l hl) hadj)
      refine ⟨_, fun c => hL₂.reachable_iff, hsep.of_ends (Set.Subset.refl B) ?_
        fun d hd => Or.inl hd⟩
      intro c hc
      rw [hextents c hc]
      by_cases heq : c = l
      · subst heq
        refine Or.inr fun d hd hends => ?_
        rw [if_pos rfl, hsame _ (hcs_mem _ hl), hsame b hb_mem, ← Nat.add_assoc, hadj] at hends
        exact absurd hends (hno_right hright d hd)
      · exact Or.inl ⟨c, hc, by rw [if_neg heq, hsame c (hcs_mem c hc)]⟩
  | @both l r hleft hright =>
      obtain ⟨hl, hadj_l⟩ := (hL.left_iff hb).mp hleft
      obtain ⟨hr, hadj_r⟩ := (hL.right_iff hb).mp hright
      rcases two_in_list hl hr (hL.neighbours_ne hb hadj_l hadj_r) with
        ⟨pre, mid, post, rfl⟩ | ⟨pre, mid, post, rfl⟩
      · obtain rfl := hL.next_adjacent (hkeeps.both l r hleft hright)
        obtain ⟨hL₂, -, hextents⟩ := hL₁.mergeBoth (hL.freed_adjacent hb (hcs_mem l hl) hadj_l)
          (hL.freed_adjacent hb hb_mem hadj_r)
        have hsub : List.Sublist (pre ++ l :: post) (pre ++ l :: ([] ++ r :: post)) :=
          ((List.sublist_cons_self r post).cons_cons l).append_left pre
        refine ⟨_, fun c => hL₂.reachable_iff, hsep.of_ends (Set.Subset.refl B) ?_
          fun d hd => Or.inl (hsub.subset hd)⟩
        intro c hc
        rw [hextents c hc]
        by_cases heq : c = l
        · subst heq
          refine Or.inl ⟨r, hr, ?_⟩
          rw [if_pos rfl, hsame _ (hcs_mem _ hl), hsame b hb_mem, hsame r (hcs_mem r hr),
            ← Nat.add_assoc, ← Nat.add_assoc, hadj_l, hadj_r]
        · exact Or.inl ⟨c, hsub.subset hc, by rw [if_neg heq, hsame c (hcs_mem c (hsub.subset hc))]⟩
      · exact absurd (hL.reach_from_iff.mpr (by simp))
          ((hkeeps.keepsList hL).both l r hleft hright)

end Calls

/-! ## Runs -/

variable {s s' : State} {cs : List U64}

/-- Chunks next to each other are in different regions. -/
abbrev Separated (s : State) (cs : List U64) : Prop :=
  Blocks.SeparatedBut (regionStarts s.regions) start s.heap.extent cs

/-- The memory of the chunks has been obtained from the system. -/
theorem LaidOut.end_mapped (hL : LaidOut s cs) {c : U64} (hc : c ∈ cs) :
    start c + s.heap.extent c - 1 ∈ mapped s.regions := by
  have hpos := hL.tiling.pos c (List.mem_append_left _ hc)
  exact hL.tiling.inside c (List.mem_append_left _ hc) _ ⟨by omega, by omega⟩

/-- A call that finds a chunk obtains no region. -/
theorem newRegion_found {h : Heap} {requestedSize c : U64} (mmap : Option U64)
    (hfind : find h.next NULL (fits h (sizeNeeded requestedSize)) LOOP_BOUND h.freeList = some c)
    (hc : c ≠ NULL) : newRegion h requestedSize mmap = [] := by
  have hne : ¬ find h.next NULL (fits h (sizeNeeded requestedSize)) LOOP_BOUND h.freeList =
      some NULL := fun heq => hc (Option.some.inj (hfind.symm.trans heq))
  dsimp only [newRegion]
  rw [if_neg hne]
  split_ifs <;> rfl

/-- A call of `memalloc` leaves chunks separated. -/
theorem memalloc_step_separated {requestedSize : U64} {mmap : Option U64} (hL : LaidOut s cs)
    (hsep : Separated s cs) (hvalid : ValidOp s (.memalloc requestedSize mmap))
    (hkeeps : KeepsHeap s (.memalloc requestedSize mmap))
    (hstep : s.step (.memalloc requestedSize mmap) = some s') :
    ∃ cs', (∀ c, s'.heap.Reachable c ↔ c ∈ cs') ∧ Separated s' cs' := by
  obtain ⟨⟨ptr, h'⟩, hcall, heq⟩ := Option.bind_eq_some_iff.mp hstep
  obtain rfl := Option.some.inj heq
  by_cases hzero : requestedSize = 0
  · simp only [memalloc, if_pos hzero] at hcall
    obtain ⟨-, rfl⟩ := Prod.mk.inj (Option.some.inj hcall)
    refine ⟨cs, fun c => hL.reachable_iff, ?_⟩
    simpa only [Separated, newRegion, if_pos hzero, List.nil_append] using hsep
  rcases hL.find_fit (sizeNeeded requestedSize) with
    ⟨hfind, -⟩ | ⟨pre, c, post, rfl, -, hfits, hfind⟩
  · cases mmap with
    | none =>
        simp only [memalloc, if_neg hzero, hfind, Option.bind_eq_bind, Option.bind_some, ne_eq,
          not_true_eq_false, if_false] at hcall
        obtain ⟨-, rfl⟩ := Prod.mk.inj (Option.some.inj hcall)
        refine ⟨cs, fun c => hL.reachable_iff, ?_⟩
        simpa only [Separated, newRegion, if_neg hzero, hfind, if_true, Option.map_none,
          Option.toList_none, List.nil_append] using hsep
    | some base =>
        have hnew : newRegion s.heap requestedSize (some base) =
            [⟨base, sizeRequestedFromOS (sizeNeeded requestedSize)⟩] := by
          simp only [newRegion, if_neg hzero, hfind, if_true]
          rfl
        have hfresh := hvalid _ (hnew ▸ List.mem_singleton_self _)
        have hroom := hkeeps (by rw [hnew]; exact List.cons_ne_nil _ _)
        obtain ⟨h₁, cs', heval, hL', -, hcarved⟩ := memalloc_mapped hL hzero hfind hfresh hroom
        obtain ⟨-, rfl⟩ := Prod.mk.inj (Option.some.inj (hcall.symm.trans heval))
        refine ⟨cs', fun c => hL'.reachable_iff, ?_⟩
        rw [Separated, hnew]
        refine hcarved.separated hL' hsep regionStarts_mono (fun _ hd => hd)
          (Or.inr fun d hd hends => ?_) ?_
        · -- a chunk behind the region is in an older one, and starts with it
          have hd' := List.mem_append_left (base :: s.live) hd
          have hin := hL'.tiling.inside d hd' (start d)
            ⟨Nat.le_refl _, Nat.lt_add_of_pos_right (hL'.tiling.pos d hd')⟩
          rw [← hends] at hin ⊢
          rcases mem_mapped_cons.mp hin with hold | ⟨-, hlt⟩
          · exact regionStarts_mono (hfresh.end_start hold)
          · exact absurd hlt (Nat.lt_irrefl _)
        · intro n hpos hlt a ha hends
          refine hfresh.not_mapped _ (hL.end_mapped ha) ?_
          rw [hends]
          show start base ≤ start base + n - 1 ∧ start base + n - 1 <
            start base + (sizeRequestedFromOS (sizeNeeded requestedSize)).toNat
          omega
  · have hnew := newRegion_found mmap hfind (hL.ne_null (b := c) (by simp))
    obtain ⟨h₁, cs', heval, hL', -, hcarved⟩ := memalloc_found mmap hL hzero hfind hfits
    obtain ⟨-, rfl⟩ := Prod.mk.inj (Option.some.inj (hcall.symm.trans heval))
    refine ⟨cs', fun c => hL'.reachable_iff, ?_⟩
    rw [Separated, hnew]
    refine hcarved.separated hL' hsep (Set.Subset.refl _) ?_ (Or.inl ⟨c, by simp, rfl⟩) ?_
    · exact fun d hd => ((List.sublist_cons_self c post).append_left pre).subset hd
    · intro n hpos hlt a ha hends
      -- such a chunk would overlap the one that is cut
      have hne : a ≠ c := by
        intro heq
        subst heq
        omega
      have hapart := hL.tiling.forall_apart (List.mem_append_left _ ha) (by simp) hne
      have hpos := hL.tiling.pos a (List.mem_append_left _ ha)
      unfold Blocks.Apart at hapart
      omega

/-- One step leaves chunks separated. -/
theorem step_separated {op : Op} (hL : LaidOut s cs) (hsep : Separated s cs)
    (hvalid : ValidOp s op) (hall : KeepsAll s op) (hstep : s.step op = some s') :
    ∃ cs', (∀ c, s'.heap.Reachable c ↔ c ∈ cs') ∧ Separated s' cs' := by
  cases op with
  | memalloc requestedSize mmap => exact memalloc_step_separated hL hsep hvalid hall hstep
  | memfree block =>
      obtain ⟨⟨result, h'⟩, hcall, heq⟩ := Option.bind_eq_some_iff.mp hstep
      obtain rfl := Option.some.inj heq
      exact hL.memfree_separated hvalid hall hsep hcall
  | store address word =>
      obtain ⟨b, hb, -, hlow, hhigh⟩ := hvalid
      obtain rfl := Option.some.inj hstep
      obtain ⟨hL', -⟩ := hL.store word hb hlow hhigh
      have hsize : ∀ c ∈ cs,
          Heap.extent { s.heap with mem := Function.update s.heap.mem address word } c =
            s.heap.extent c := fun c hc =>
        congrArg BitVec.toNat (hL.store_size word hb hlow hhigh c (List.mem_append_left _ hc))
      exact ⟨cs, fun c => hL'.reachable_iff, hsep.of_ends (Set.Subset.refl _)
        (fun c hc => Or.inl ⟨c, hc, by rw [hsize c hc]⟩) fun d hd => Or.inl hd⟩

/-- A call obtains one region or none. -/
theorem newRegion_cases (h : Heap) (requestedSize : U64) (mmap : Option U64) :
    newRegion h requestedSize mmap = [] ∨ ∃ r, newRegion h requestedSize mmap = [r] := by
  dsimp only [newRegion]
  split_ifs
  · exact Or.inl rfl
  · cases mmap with
    | none => exact Or.inl rfl
    | some base => exact Or.inr ⟨_, rfl⟩
  · exact Or.inl rfl

/-- The regions stay apart. -/
theorem step_regions {op : Op} (hregions : RegionsApart s.regions) (hvalid : ValidOp s op)
    (hstep : s.step op = some s') : RegionsApart s'.regions := by
  cases op with
  | memalloc requestedSize mmap =>
      obtain ⟨⟨ptr, h'⟩, -, heq⟩ := Option.bind_eq_some_iff.mp hstep
      obtain rfl := Option.some.inj heq
      have hvalid : ∀ r ∈ newRegion s.heap requestedSize mmap, FreshRegion s.regions r := hvalid
      show RegionsApart (newRegion s.heap requestedSize mmap ++ s.regions)
      rcases newRegion_cases s.heap requestedSize mmap with hnew | ⟨r, hnew⟩
      · rw [hnew]
        exact hregions
      · rw [hnew] at hvalid ⊢
        exact hregions.cons (hvalid r (List.mem_singleton_self r))
  | memfree block =>
      obtain ⟨⟨result, h'⟩, -, heq⟩ := Option.bind_eq_some_iff.mp hstep
      obtain rfl := Option.some.inj heq
      exact hregions
  | store address word =>
      obtain rfl := Option.some.inj hstep
      exact hregions

/-- Chunks on the free list are next to each other only where one of them starts a region. -/
def ChunksJoined (s : State) : Prop :=
  ∀ c d, s.heap.Reachable c → s.heap.Reachable d → Blocks.Adjacent start s.heap.extent c d →
    ∃ r ∈ s.regions, r.base = d

/-- A region is free in one piece. -/
def FreeInOnePiece (s : State) (r : Region) : Prop :=
  ∃ c, s.heap.Reachable c ∧ ∀ x, r.base.toNat ≤ x → x < r.base.toNat + r.length.toNat →
    Blocks.Holds start s.heap.extent c x

/-- What the run keeps: the heap is laid out and filled, and its chunks are joined. -/
structure JoinedHeap (s : State) (cs : List U64) : Prop where
  laid_out : LaidOut s cs
  filled : Filled s cs
  separated : Separated s cs
  regions : RegionsApart s.regions

/-- Every step keeps it. -/
theorem JoinedHeap.step {op : Op} (h : JoinedHeap s cs) (hvalid : ValidOp s op)
    (hall : KeepsAll s op) : ∃ s' cs', s.step op = some s' ∧ JoinedHeap s' cs' := by
  obtain ⟨s', cs', hstep, hL, hF⟩ := step_layout h.laid_out hvalid (hall.keepsHeap h.laid_out)
  obtain ⟨cs₁, hreach, hsep⟩ := step_separated h.laid_out h.separated hvalid hall hstep
  have hmem : ∀ c ∈ cs', c ∈ cs₁ := fun c hc => (hreach c).mp (hL.reachable_iff.mpr hc)
  exact ⟨s', cs', hstep, hL, hF hall h.filled,
    fun c hc d hd hadjacent => hsep c (hmem c hc) d (hmem d hd) hadjacent,
    step_regions h.regions hvalid hstep⟩

theorem JoinedHeap.chunks_joined (h : JoinedHeap s cs) : ChunksJoined s := by
  intro c d hc hd hadjacent
  obtain ⟨r, hr, heq⟩ := h.separated c (h.laid_out.reachable_iff.mp hc) d
    (h.laid_out.reachable_iff.mp hd) hadjacent
  exact ⟨r, hr, BitVec.eq_of_toNat_eq heq.symm⟩

/-- When no block is live, a region is one piece of a chunk. -/
theorem JoinedHeap.region_free {r : Region} (h : JoinedHeap s cs) (hlive : s.live = [])
    (hr : r ∈ s.regions) : FreeInOnePiece s r := by
  have htiling := h.laid_out.tiling
  have hfilled := h.filled.covers
  rw [hlive, List.append_nil] at htiling hfilled
  have hlength : r.base.toNat < r.base.toNat + r.length.toNat := by
    have := h.regions.not_empty r hr
    omega
  obtain ⟨c, hc, hholds⟩ := htiling.holds_interval hlength
    (fun x hle hlt => hfilled x ⟨r, hr, hle, hlt⟩)
    fun a ha d hd hadjacent => h.regions.no_start_inside hr (h.separated a ha d hd hadjacent)
  exact ⟨c, h.laid_out.reachable_iff.mpr hc, hholds⟩

/-- A call of `memalloc` returns a pointer to a block that is large enough, and obtains no
region. -/
structure ServedFromList (h : Heap) (requestedSize : U64) (mmap : Option U64) : Prop where
  no_region : newRegion h requestedSize mmap = []
  pointer : ∃ ptr h', memalloc h requestedSize mmap = some (ptr, h') ∧ ptr ≠ NULL ∧
    sizeNeeded requestedSize ≤ h'.size (ptr - ALLOC_MEM_METADATA)

/-- A request that fits into a region that is free in one piece is served from the list. -/
theorem JoinedHeap.served {r : Region} {requestedSize : U64} (h : JoinedHeap s cs)
    (hr : r ∈ s.regions) (hfree : FreeInOnePiece s r) (hsize : requestedSize ≠ 0)
    (hfits : (sizeNeeded requestedSize).toNat ≤ r.length.toNat) (mmap : Option U64) :
    ServedFromList s.heap requestedSize mmap := by
  obtain ⟨c, hc, hholds⟩ := hfree
  have hc := h.laid_out.reachable_iff.mp hc
  have hlength := h.regions.not_empty r hr
  have hfirst := hholds r.base.toNat (Nat.le_refl _) (by omega)
  have hlast := hholds (r.base.toNat + r.length.toNat - 1) (by omega) (by omega)
  unfold Blocks.Holds at hfirst hlast
  rcases h.laid_out.find_fit (sizeNeeded requestedSize) with
    ⟨-, hnone⟩ | ⟨pre, d, post, rfl, -, hroom, hfind⟩
  · have hfit := (h.laid_out.fits_iff hc (sizeNeeded requestedSize)).mpr (by omega)
    exact absurd (hfit.symm.trans (hnone c hc)) (by decide)
  · have hheader := h.laid_out.header d (by simp)
    obtain ⟨h', _, hcall, -, -, hcarved⟩ := memalloc_found mmap h.laid_out hsize hfind hroom
    refine ⟨newRegion_found mmap hfind hheader.nonzero, _, h', hcall, hheader.payload_ne, ?_⟩
    have hpadded := le_padded hheader.size_aligned (s.heap.size d).isLt hroom
    rw [BitVec.add_sub_cancel, BitVec.le_def]
    show (sizeNeeded requestedSize).toNat ≤ h'.extent d
    rw [hcarved.block]
    split_ifs <;> omega

/-- In every run of valid calls that lose no memory, chunks next to each other are joined within a
region; when all blocks are freed, each region is free in one piece, and a request that fits into
it with its header is answered with a block, without another call of `mmap`. -/
theorem free_chunks_joined {mem : U64 → U64} {ops : List Op}
    (hops : Runs.AllSteps State.step (fun s op => ValidOp s op ∧ KeepsAll s op)
      (State.start mem) ops) :
    ∃ s, Runs.run State.step (State.start mem) ops = some s ∧ ChunksJoined s ∧
      (s.live = [] → ∀ r ∈ s.regions, FreeInOnePiece s r ∧
        ∀ requestedSize mmap, requestedSize ≠ 0 →
          (sizeNeeded requestedSize).toNat ≤ r.length.toNat →
          ServedFromList s.heap requestedSize mmap) := by
  have hstep : ∀ s op, (∃ cs, JoinedHeap s cs) → ValidOp s op ∧ KeepsAll s op →
      ∃ s', s.step op = some s' ∧ ∃ cs, JoinedHeap s' cs := by
    rintro s op ⟨cs, h⟩ ⟨hvalid, hall⟩
    obtain ⟨s', cs', hrun, h'⟩ := h.step hvalid hall
    exact ⟨s', hrun, cs', h'⟩
  have hstart : JoinedHeap (State.start mem) [] :=
    ⟨(laidOut_start mem).1, (laidOut_start mem).2, nofun, nofun, List.Pairwise.nil⟩
  obtain ⟨s, hrun, cs, h⟩ := Runs.run_invariant hstep ⟨[], hstart⟩ hops
  refine ⟨s, hrun, h.chunks_joined, fun hlive r hr => ?_⟩
  have hfree := h.region_free hlive hr
  exact ⟨hfree, fun _ mmap hsize hfits => h.served hr hfree hsize hfits mmap⟩

/-- The sample run, after which the first block is freed as well. -/
def freeAllOps : List Op :=
  sampleOps ++ [.memfree sampleBase]

/-- The whole region is one chunk again, and serves one request of almost all of it. -/
theorem free_chunks_joined_sample :
    ∃ s, Runs.run State.step (State.start fun _ => 0) freeAllOps = some s ∧ ChunksJoined s ∧
      s.regions = [⟨sampleBase, FOUR_MB⟩] ∧ FreeInOnePiece s ⟨sampleBase, FOUR_MB⟩ ∧
      ServedFromList s.heap (FOUR_MB - 8) none := by
  have htested : Runs.AllSteps State.step (fun s op => ValidOp s op ∧ KeepsOneChunk s op)
      (State.start fun _ => 0) freeAllOps := by
    decide +kernel
  obtain ⟨s, hrun, hjoined, hfree⟩ :=
    free_chunks_joined (htested.mono fun _ _ h => ⟨h.1, h.2.keeps.2⟩)
  have hlive : (Runs.run State.step (State.start fun _ => 0) freeAllOps).any
      fun s => decide (s.live = [] ∧ s.regions = [⟨sampleBase, FOUR_MB⟩]) := by
    decide +kernel
  rw [hrun, Option.any_some, decide_eq_true_eq] at hlive
  obtain ⟨hlive, hregions⟩ := hlive
  obtain ⟨hpiece, hserved⟩ := hfree hlive _ (hregions ▸ List.mem_singleton_self _)
  exact ⟨s, hrun, hjoined, hregions, hpiece, hserved _ none (by decide) (by decide)⟩

end GemOS.Mylib
