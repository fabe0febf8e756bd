import GemOS.Mylib.Integrity

/-!
# What `memfree` promises

Freeing a block joins it with the free chunks next to it; the other chunks stay on the list as they
are, and no two chunks of the list are next to each other. The code meets this contract for the
positions of the neighbours on the list that `KeepsMemory` names and for no others: elsewhere the
chunk to the right stays on the list, or a chunk that is no neighbour is lost.
-/

namespace GemOS.Mylib

open DoublyLinked

variable {h h' : Heap} {cs cs' live live' : List U64} {area : Set Nat} {b l r m : U64}

/-! ## The contract -/

/-- A chunk of the free list is next to block `b`. -/
def Neighbour (h : Heap) (b c : U64) : Prop :=
  LeftNeighbour h b c ∨ RightNeighbour h b c

/-- Chunk `m` is the union of block `b` and its free neighbours. -/
def Joins (h h' : Heap) (b m : U64) : Prop :=
  ∀ x, Blocks.Holds start h'.extent m x ↔ Blocks.Holds start h.extent b x ∨
    ∃ c, Neighbour h b c ∧ Blocks.Holds start h.extent c x

/-- The contract of `memfree`: the heap is laid out again, with a chunk for the block and its free
neighbours and with all other chunks, and no two chunks are next to each other. -/
structure Coalesced (h h' : Heap) (cs cs' live : List U64) (area : Set Nat) (b : U64) : Prop where
  layout : Layout h' cs' (live.erase b) area
  joined : ∃ m ∈ cs', Joins h h' b m
  others : ∀ c ∈ cs, ¬ Neighbour h b c → c ∈ cs' ∧ h'.size c = h.size c
  separated : Blocks.Separated start h'.extent cs'

/-! ## Neighbours -/

theorem Layout.neighbour_iff {c : U64} (hL : Layout h cs live area) (hb : b ∈ live) :
    Neighbour h b c ↔
      c ∈ cs ∧ (Blocks.Adjacent start h.extent b c ∨ Blocks.Adjacent start h.extent c b) := by
  rw [Neighbour, hL.left_iff hb, hL.right_iff hb, ← and_or_left, or_comm]

theorem RightNeighbour.unique {c : U64} (hr : RightNeighbour h b r) (hc : RightNeighbour h b c) :
    c = r :=
  hc.2.symm.trans hr.2

/-- Only one block ends where `b` starts. -/
theorem Layout.left_unique {c : U64} (hL : Layout h cs live area) (hb : b ∈ live)
    (hl : LeftNeighbour h b l) (hc : LeftNeighbour h b c) : c = l := by
  obtain ⟨hl, hlb⟩ := (hL.left_iff hb).mp hl
  obtain ⟨hc, hcb⟩ := (hL.left_iff hb).mp hc
  by_contra hne
  have hmem : ∀ a ∈ cs, a ∈ cs ++ live := fun a ha => List.mem_append_left live ha
  have hapart := hL.tiling.forall_apart (hmem c hc) (hmem l hl) hne
  have hpos_c := hL.tiling.pos c (hmem c hc)
  have hpos_l := hL.tiling.pos l (hmem l hl)
  unfold Blocks.Apart Blocks.Adjacent at *
  omega

/-- Two lists of one heap have the same chunks. -/
theorem Layout.same_chunks {area' : Set Nat} {c : U64} (hL : Layout h cs live area)
    (hL' : Layout h cs' live' area') : c ∈ cs ↔ c ∈ cs' :=
  hL.reachable_iff.symm.trans hL'.reachable_iff

/-! ## Where the code is right -/

/-- A list of the joined chunk and the chunks that are not next to the block meets the contract. -/
theorem Layout.coalesced (hL : Layout h cs live area) (hb : b ∈ live)
    (hsep : Blocks.Separated start h.extent cs) (hL' : Layout h' cs' (live.erase b) area)
    (hmem : ∀ c, c ∈ cs' ↔ c = m ∨ c ∈ cs ∧ ¬ Neighbour h b c) (hm : m ∈ cs → Neighbour h b m)
    (hjoins : Joins h h' b m) (hkept : ∀ c ∈ cs', c ≠ m → h'.extent c = h.extent c) :
    Coalesced h h' cs cs' live area b := by
  refine ⟨hL', ⟨m, (hmem m).mpr (Or.inl rfl), hjoins⟩, fun c hc hnot => ?_, ?_⟩
  · have hc' := (hmem c).mpr (Or.inr ⟨hc, hnot⟩)
    have hne : c ≠ m := fun heq => hnot (heq ▸ hm (heq ▸ hc))
    exact ⟨hc', BitVec.eq_of_toNat_eq (hkept c hc' hne)⟩
  · have hsub : List.Sublist (cs ++ [b]) (cs ++ live) :=
      (List.singleton_sublist.mpr hb).append_left cs
    have htiling := (hL.tiling.sublist hsub).perm (List.perm_append_singleton b cs)
    refine hsep.join (m := m) (List.nodup_cons.mp htiling.nodup).1 htiling
      (fun c hc => hL'.tiling.pos c (List.mem_append_left _ hc)) ?_ ?_
    · intro c hc hne
      obtain ⟨hc', hnot⟩ := ((hmem c).mp hc).resolve_left hne
      rw [hL.neighbour_iff hb] at hnot
      exact ⟨hc', hkept c hc hne, fun hbc => hnot ⟨hc', Or.inl hbc⟩,
        fun hcb => hnot ⟨hc', Or.inr hcb⟩⟩
    · intro x hx
      refine ((hjoins x).mp hx).imp id fun h' => ?_
      obtain ⟨c, hc, hx⟩ := h'
      obtain ⟨hc, hadjacent⟩ := (hL.neighbour_iff hb).mp hc
      exact ⟨c, hc, hadjacent, hx⟩

section Cases

variable (hL : Layout h cs live area) (hb : b ∈ live) (hsep : Blocks.Separated start h.extent cs)

include hL hb

/-- The sizes in the heap in which the searches have run. -/
theorem Layout.freed_extent {c : U64} (hc : c ∈ cs ++ live) :
    (h.makeChunk b (h.size b)).extent c = h.extent c := by
  obtain ⟨-, -, hsize, -⟩ := hL.freed hb
  exact congrArg BitVec.toNat (hsize c hc)

include hsep

/-- The block becomes the first chunk. -/
theorem coalesced_alone (hleft : ∀ l, ¬ LeftNeighbour h b l)
    (hright : ∀ r, ¬ RightNeighbour h b r) :
    ∃ cs', Coalesced h ((h.makeChunk b (h.size b)).linkFront b) cs cs' live area b := by
  have hno : ∀ c, ¬ Neighbour h b c := fun c hc => hc.elim (hleft c) (hright c)
  have hb_cs : b ∉ cs := fun hmem => (List.nodup_append.mp hL.nodup).2.2 b hmem b hb rfl
  obtain ⟨hL₁, hprev, -, -⟩ := hL.freed hb
  obtain ⟨hsize, hL₂⟩ := hL₁.linkFront hprev
  have hsame : ∀ c ∈ b :: cs, ((h.makeChunk b (h.size b)).linkFront b).extent c =
      h.extent c := by
    intro c hc
    have hmem : c ∈ cs ++ live := by
      rcases List.mem_cons.mp hc with rfl | hc
      · exact List.mem_append_right cs hb
      · exact List.mem_append_left live hc
    have hmem' : c ∈ cs ++ b :: live.erase b :=
      ((List.perm_cons_erase hb).append_left cs).mem_iff.mp hmem
    exact (congrArg BitVec.toNat (hsize c hmem')).trans (hL.freed_extent hb hmem)
  refine ⟨_, hL.coalesced (m := b) hb hsep hL₂ ?_ (fun hmem => absurd hmem hb_cs) ?_
    fun c hc _ => hsame c hc⟩
  · intro c
    rw [List.mem_cons]
    exact or_congr_right (iff_self_and.mpr fun _ => hno c)
  · intro x
    rw [or_iff_left (fun hex => hex.elim fun c hc => hno c hc.1)]
    unfold Blocks.Holds
    rw [hsame b (by simp)]

/-- The block takes in the first chunk. -/
theorem coalesced_right (hleft : ∀ l, ¬ LeftNeighbour h b l) (hright : RightNeighbour h b r)
    (hfirst : r = h.freeList) :
    ∃ cs', Coalesced h (mergeRight (h.makeChunk b (h.size b)) b r) cs cs' live area b := by
  have hb_mem := List.mem_append_right cs hb
  have hcs_mem : ∀ c ∈ cs, c ∈ cs ++ live := fun c hc => List.mem_append_left live hc
  have hb_cs : b ∉ cs := fun hmem => (List.nodup_append.mp hL.nodup).2.2 b hmem b hb rfl
  have hnodup := hL.chunks_nodup
  obtain ⟨hL₁, hprev, -, -⟩ := hL.freed hb
  obtain ⟨hr, hadj⟩ := (hL.right_iff hb).mp hright
  obtain ⟨pre, post, rfl⟩ := List.append_of_mem hr
  obtain rfl := hL.first_of_freeList hfirst
  have hnb : ∀ c, Neighbour h b c ↔ c = r := fun c =>
    ⟨fun hc => hc.elim (fun hl => absurd hl (hleft c)) hright.unique, fun heq =>
      heq ▸ Or.inr hright⟩
  obtain ⟨hL₂, -, hextents⟩ := hL₁.mergeRight hprev (hL.freed_adjacent hb hb_mem hadj)
  rw [hL.freed_extent hb (hcs_mem r hr), hL.freed_extent hb hb_mem] at hextents
  have hr_post : r ∉ post := (List.nodup_cons.mp hnodup).1
  refine ⟨_, hL.coalesced (m := b) hb hsep hL₂ ?_ (fun hmem => absurd hmem hb_cs) ?_ ?_⟩
  · intro c
    rw [hnb]
    by_cases heq : c = r
    · simp [heq, hr_post]
    · simp [heq]
  · intro x
    simp only [hnb, exists_eq_left]
    unfold Blocks.Holds Blocks.Adjacent at *
    rw [hextents b (by simp), if_pos rfl]
    omega
  · intro c hc hne
    rw [hextents c hc, if_neg hne]
    refine hL.freed_extent hb (hcs_mem c ?_)
    exact List.mem_cons_of_mem r (List.mem_of_ne_of_mem hne hc)

/-- The last chunk takes in the block. -/
theorem coalesced_left (hleft : LeftNeighbour h b l) (hright : ∀ r, ¬ RightNeighbour h b r)
    (hlast : h.next l = NULL) :
    ∃ cs', Coalesced h (mergeLeft (h.makeChunk b (h.size b)) b l NULL) cs cs' live area b := by
  have hcs_mem : ∀ c ∈ cs, c ∈ cs ++ live := fun c hc => List.mem_append_left live hc
  obtain ⟨hL₁, -, -, -⟩ := hL.freed hb
  obtain ⟨hl, hadj⟩ := (hL.left_iff hb).mp hleft
  obtain ⟨pre, post, rfl⟩ := List.append_of_mem hl
  obtain rfl := hL.last_of_next hlast
  have hnb : ∀ c, Neighbour h b c ↔ c = l := fun c =>
    ⟨fun hc => hc.elim (hL.left_unique hb hleft) fun hr => absurd hr (hright c), fun heq =>
      heq ▸ Or.inl hleft⟩
  obtain ⟨hL₂, -, hextents⟩ := hL₁.mergeLeft (hL.freed_adjacent hb (hcs_mem l hl) hadj)
  rw [hL.freed_extent hb (hcs_mem l hl), hL.freed_extent hb (List.mem_append_right _ hb)]
    at hextents
  refine ⟨_, hL.coalesced (m := l) hb hsep hL₂ ?_ (fun _ => Or.inl hleft) ?_ ?_⟩
  · intro c
    rw [hnb]
    by_cases heq : c = l
    · simp [heq]
    · simp [heq]
  · intro x
    simp only [hnb, exists_eq_left]
    unfold Blocks.Holds Blocks.Adjacent at *
    rw [hextents l (by simp), if_pos rfl]
    omega
  · intro c hc hne
    rw [hextents c hc, if_neg hne]
    exact hL.freed_extent hb (hcs_mem c hc)

/-- The chunk on the left takes in the block and the chunk on the right, which comes next. -/
theorem coalesced_both (hleft : LeftNeighbour h b l) (hright : RightNeighbour h b r)
    (hnext : h.next l = r) :
    ∃ cs', Coalesced h (mergeBoth (h.makeChunk b (h.size b)) b l r) cs cs' live area b := by
  have hb_mem := List.mem_append_right cs hb
  have hcs_mem : ∀ c ∈ cs, c ∈ cs ++ live := fun c hc => List.mem_append_left live hc
  have hnodup := hL.chunks_nodup
  obtain ⟨hL₁, -, -, -⟩ := hL.freed hb
  obtain ⟨hl, hadj_l⟩ := (hL.left_iff hb).mp hleft
  obtain ⟨hr, hadj_r⟩ := (hL.right_iff hb).mp hright
  obtain ⟨pre, post, rfl⟩ := List.append_of_mem hl
  obtain ⟨post, rfl⟩ : ∃ post', post = [] ++ r :: post' := by
    have hnode : h.next l = headOr NULL post := hL.node.2.2
    cases post with
    | nil => exact absurd (hnext.symm.trans hnode) (hL.ne_null (hcs_mem r hr))
    | cons p post => exact ⟨post, by rw [← hnext, hnode]; rfl⟩
  have hnb : ∀ c, Neighbour h b c ↔ c = l ∨ c = r := by
    intro c
    constructor
    · exact fun hc => hc.imp (hL.left_unique hb hleft) hright.unique
    · intro heq
      rcases heq with rfl | rfl
      · exact Or.inl hleft
      · exact Or.inr hright
  obtain ⟨hL₂, -, hextents⟩ := hL₁.mergeBoth (hL.freed_adjacent hb (hcs_mem l hl) hadj_l)
    (hL.freed_adjacent hb hb_mem hadj_r)
  rw [hL.freed_extent hb (hcs_mem l hl), hL.freed_extent hb hb_mem,
    hL.freed_extent hb (hcs_mem r hr)] at hextents
  have hrl := hL.neighbours_ne hb hadj_l hadj_r
  have hr_rest : r ∉ pre ∧ r ∉ post := by
    simp only [List.nil_append, List.nodup_append, List.nodup_cons] at hnodup
    exact ⟨fun hmem => hnodup.2.2 r hmem r (by simp) rfl, hnodup.2.1.2.1⟩
  refine ⟨_, hL.coalesced (m := l) hb hsep hL₂ ?_ (fun _ => Or.inl hleft) ?_ ?_⟩
  · intro c
    rw [hnb]
    by_cases heq : c = l
    · simp [heq]
    · by_cases heq' : c = r
      · simp [heq', hrl, hr_rest]
      · simp [heq, heq']
  · intro x
    simp only [hnb, or_and_right, exists_or, exists_eq_left]
    unfold Blocks.Holds Blocks.Adjacent at *
    rw [hextents l (by simp), if_pos rfl]
    omega
  · intro c hc hne
    rw [hextents c hc, if_neg hne]
    refine hL.freed_extent hb (hcs_mem c ?_)
    simp only [List.mem_append, List.mem_cons] at hc ⊢
    tauto

end Cases

/-! ## Where the code is wrong -/

/-- The chunk on the right is not on a list that meets the contract: it has been joined. -/
theorem Coalesced.right_gone (hL : Layout h cs live area) (hb : b ∈ live)
    (hfreed : Coalesced h h' cs cs' live area b) (hright : RightNeighbour h b r) : r ∉ cs' := by
  intro hr'
  obtain ⟨hr, hadj⟩ := (hL.right_iff hb).mp hright
  obtain ⟨m, hm, hjoins⟩ := hfreed.joined
  have hpos_b := hL.tiling.pos b (List.mem_append_right cs hb)
  have hpos_r := hL.tiling.pos r (List.mem_append_left live hr)
  have hpos_r' := hfreed.layout.tiling.pos r (List.mem_append_left _ hr')
  unfold Blocks.Adjacent at hadj
  have hm_b : Blocks.Holds start h'.extent m (start b) :=
    (hjoins _).mpr (Or.inl ⟨Nat.le_refl _, by omega⟩)
  have hm_r : Blocks.Holds start h'.extent m (start r) :=
    (hjoins _).mpr (Or.inr ⟨r, Or.inr hright, Nat.le_refl _, by omega⟩)
  have hne : r ≠ m := by
    intro heq
    have hlow := (heq ▸ hm_b).1
    omega
  have hapart := hfreed.layout.tiling.forall_apart (List.mem_append_left _ hr')
    (List.mem_append_left _ hm) hne
  exact hapart.not_holds ⟨Nat.le_refl _, by omega⟩ hm_r

/-- The list of the result still goes through a chunk if the links before it are unchanged. -/
theorem Layout.still_listed {pre post : List U64} {c : U64}
    (hL : Layout h (pre ++ c :: post) live area) (hL' : Layout h' cs' live' area)
    (hlist : h'.freeList = h.freeList) (hnext : ∀ a ∈ pre, h'.next a = h.next a) : c ∈ cs' := by
  refine hL'.reachable_iff.mp ?_
  have hreach : Reach h'.next NULL (h.nextOf NULL) c := by
    refine hL.list.reach_prefix fun a ha => ?_
    rw [hnext a ha, Heap.nextOf_of_ne (hL.ne_null (by simp [ha]))]
  unfold Heap.Reachable
  rw [hlist]
  exact hreach

/-- The search leaves the links of the chunks as they were. -/
theorem Layout.freed_next (hL : Layout h cs live area) (hb : b ∈ live) :
    ∀ c ∈ cs, (h.makeChunk b (h.size b)).next c = h.next c := by
  obtain ⟨-, -, -, hfields⟩ := hL.makeChunk hb
  exact fun c hc => (hfields c (List.mem_append_left live hc)).2 hc

/-- The only neighbour is on the right: it is the first chunk. -/
theorem Coalesced.right_first (hL : Layout h cs live area) (hb : b ∈ live)
    (hright : RightNeighbour h b r)
    (hfreed : Coalesced h (mergeRight (h.makeChunk b (h.size b)) b r) cs cs' live area b) :
    r = h.freeList := by
  by_contra hhead
  refine hfreed.right_gone hL hb hright ?_
  obtain ⟨hL₁, -, -, -⟩ := hL.freed hb
  have hr := ((hL.right_iff hb).mp hright).1
  have hb_cs : ∀ a ∈ cs, a ≠ b := fun a ha => (List.nodup_append.mp hL.nodup).2.2 a ha b hb
  have hmem : ∀ a ∈ cs, a ∈ cs ++ b :: live.erase b := fun a ha => List.mem_append_left _ ha
  have hb_mem : b ∈ cs ++ b :: live.erase b := by simp
  obtain ⟨hlist, hfields⟩ := Heap.mergeRight_fields hL₁.all_clear hb_mem (hmem r hr) (hb_cs r hr)
    fun hne => hmem _ (hL₁.next_mem hr hne)
  have hnext := hL.freed_next hb
  obtain ⟨pre, post, rfl⟩ := List.append_of_mem hr
  refine hL.still_listed hfreed.layout (hlist.trans (if_neg (Ne.symm hhead))) fun a ha => ?_
  have ha_cs : a ∈ pre ++ r :: post := by simp [ha]
  rw [(hfields a (hmem a ha_cs)).2.1, if_neg (hb_cs a ha_cs), hnext a ha_cs]

/-- The only neighbour is on the left: it is the last chunk. -/
theorem Coalesced.left_last (hL : Layout h cs live area) (hb : b ∈ live)
    (hleft : LeftNeighbour h b l) (hright : ∀ r, ¬ RightNeighbour h b r)
    (hfreed : Coalesced h (mergeLeft (h.makeChunk b (h.size b)) b l NULL) cs cs' live area b) :
    h.next l = NULL := by
  obtain ⟨hL₁, -, -, -⟩ := hL.freed hb
  obtain ⟨hl, hadj⟩ := (hL.left_iff hb).mp hleft
  have hadjacent := hL.freed_adjacent hb (List.mem_append_left live hl) hadj
  obtain ⟨pre, post, rfl⟩ := List.append_of_mem hl
  cases post with
  | nil => exact hL.node.2.2
  | cons p post =>
      -- the chunk behind `l` is lost
      obtain ⟨hL₂, -, -⟩ := hL₁.mergeLeft hadjacent
      have hnodup := hL.chunks_nodup
      simp only [List.nodup_append, List.nodup_cons, List.mem_cons, not_or] at hnodup
      have hother : ¬ Neighbour h b p := fun hp =>
        hp.elim (fun hp => hnodup.2.1.1.1 (hL.left_unique hb hleft hp).symm) (hright p)
      have hlisted := hL₂.same_chunks hfreed.layout |>.mpr (hfreed.others p (by simp) hother).1
      rcases List.mem_append.mp hlisted with hp | hp
      · exact absurd rfl (hnodup.2.2 p hp p (by simp))
      · exact absurd (List.mem_singleton.mp hp).symm hnodup.2.1.1.1

/-- Neighbours on both sides: the one on the right comes next. -/
theorem Coalesced.both_next (hL : Layout h cs live area) (hb : b ∈ live)
    (hleft : LeftNeighbour h b l) (hright : RightNeighbour h b r)
    (hfreed : Coalesced h (mergeBoth (h.makeChunk b (h.size b)) b l r) cs cs' live area b) :
    h.next l = r := by
  obtain ⟨hL₁, -, -, -⟩ := hL.freed hb
  obtain ⟨hl, hadj_l⟩ := (hL.left_iff hb).mp hleft
  obtain ⟨hr, hadj_r⟩ := (hL.right_iff hb).mp hright
  have hrl := hL.neighbours_ne hb hadj_l hadj_r
  have hnodup := hL.chunks_nodup
  have hadjacent_l := hL.freed_adjacent hb (List.mem_append_left live hl) hadj_l
  have hadjacent_r := hL.freed_adjacent hb (List.mem_append_right cs hb) hadj_r
  rcases two_in_list hl hr hrl with ⟨pre, mid, post, rfl⟩ | ⟨pre, mid, post, rfl⟩
  · cases mid with
    | nil => exact hL.node.2.2
    | cons p mid =>
        -- the chunk between the two is lost
        obtain ⟨hL₂, -, -⟩ := hL₁.mergeBoth hadjacent_l hadjacent_r
        simp only [List.cons_append, List.nodup_append, List.nodup_cons, List.mem_cons,
          List.mem_append, not_or] at hnodup
        have hother : ¬ Neighbour h b p := by
          intro hp
          rcases hp with hp | hp
          · exact hnodup.2.1.1.1 (hL.left_unique hb hleft hp).symm
          · exact hnodup.2.1.2.1.2.1 (hright.unique hp)
        have hlisted := hL₂.same_chunks hfreed.layout |>.mpr (hfreed.others p (by simp) hother).1
        rcases List.mem_append.mp hlisted with hp | hp
        · exact absurd rfl (hnodup.2.2 p hp p (by simp))
        · rcases List.mem_cons.mp hp with heq | hp
          · exact absurd heq.symm hnodup.2.1.1.1
          · exact absurd hp hnodup.2.1.2.1.2.2
  · -- the chunk on the right comes first, and stays
    have hmem : ∀ a ∈ pre ++ r :: (mid ++ l :: post),
        a ∈ pre ++ r :: (mid ++ l :: post) ++ b :: live.erase b := fun a ha =>
      List.mem_append_left _ ha
    have hlist : (h.makeChunk b (h.size b)).freeList ≠ b := by
      intro heq
      have hmem := hL₁.freeList_mem (heq.trans_ne (hL.ne_null (List.mem_append_right _ hb)))
      exact (List.nodup_append.mp hL₁.nodup).2.2 _ hmem b (by simp) heq
    obtain ⟨hfree, hfields⟩ := Heap.mergeBoth_fields hL₁.all_clear (hmem l hl) (hmem r hr) hrl
      hlist fun hne => hmem _ (hL₁.next_mem hr hne)
    have hnext := hL.freed_next hb
    refine absurd (hL.still_listed hfreed.layout hfree fun a ha => ?_)
      (hfreed.right_gone hL hb hright)
    have ha_cs : a ∈ pre ++ r :: (mid ++ l :: post) := by simp [ha]
    have hne : a ≠ l := (List.nodup_append.mp hnodup).2.2 a ha l (by simp)
    rw [(hfields a (hmem a ha_cs)).2.1, if_neg hne, hnext a ha_cs]

/-! ## The exact condition -/

/-- `memfree` meets its contract exactly if it loses no memory, for every heap whose chunks are not
next to each other, every live block and every order of the chunks on the list. -/
theorem memfree_contract_iff (hL : Layout h cs live area) (hb : b ∈ live)
    (hsep : Blocks.Separated start h.extent cs) :
    (∃ h' cs', memfree h (b + ALLOC_MEM_METADATA) = some (0, h') ∧
      Coalesced h h' cs cs' live area b) ↔ KeepsMemory h b := by
  obtain ⟨h₁, heval, hcase⟩ := hL.memfree_freeing hb
  constructor
  · intro hex
    obtain ⟨h', cs', heval', hfreed⟩ := hex
    obtain rfl := (Prod.mk.inj (Option.some.inj (heval.symm.trans heval'))).2
    cases hcase with
    | alone hno_l hno_r =>
        exact ⟨fun r hr => absurd hr (hno_r r), fun l hl => absurd hl (hno_l l),
          fun l _ hl => absurd hl (hno_l l)⟩
    | left hleft hno_r =>
        refine ⟨fun r hr => absurd hr (hno_r r), fun l hl => Or.inr ?_,
          fun _ r _ hr => absurd hr (hno_r r)⟩
        rw [hL.left_unique hb hleft hl]
        exact hfreed.left_last hL hb hleft hno_r
    | right hno_l hright =>
        refine ⟨fun r hr => Or.inr ?_, fun l hl => absurd hl (hno_l l),
          fun l _ hl => absurd hl (hno_l l)⟩
        rw [hright.unique hr]
        exact hfreed.right_first hL hb hright
    | both hleft hright =>
        refine ⟨fun _ _ => Or.inl ⟨_, hleft⟩, fun _ _ => Or.inl ⟨_, hright⟩, fun l r hl hr => ?_⟩
        rw [hL.left_unique hb hleft hl, hright.unique hr]
        exact hfreed.both_next hL hb hleft hright
  · intro hkeeps
    refine ⟨h₁, ?_⟩
    cases hcase with
    | alone hno_l hno_r =>
        obtain ⟨cs', hfreed⟩ := coalesced_alone hL hb hsep hno_l hno_r
        exact ⟨cs', heval, hfreed⟩
    | left hleft hno_r =>
        have hlast := (hkeeps.left _ hleft).resolve_left (not_exists.mpr hno_r)
        obtain ⟨cs', hfreed⟩ := coalesced_left hL hb hsep hleft hno_r hlast
        exact ⟨cs', heval, hfreed⟩
    | right hno_l hright =>
        have hfirst := (hkeeps.right _ hright).resolve_left (not_exists.mpr hno_l)
        obtain ⟨cs', hfreed⟩ := coalesced_right hL hb hsep hno_l hright hfirst
        exact ⟨cs', heval, hfreed⟩
    | both hleft hright =>
        obtain ⟨cs', hfreed⟩ :=
          coalesced_both hL hb hsep hleft hright (hkeeps.both _ _ hleft hright)
        exact ⟨cs', heval, hfreed⟩

/-- The region of the samples. -/
abbrev sampleRegion : Region := ⟨sampleBase, FOUR_MB⟩

/-- Three blocks of 24 bytes and the rest of a region of 4 MB, as three calls of `memalloc` and one
call of `memfree` leave them. -/
def threeBlocks (free : U64) : Heap where
  mem a :=
    if a = sampleBase ∨ a = sampleBase + 24 ∨ a = sampleBase + 48 then 24
    else if a = sampleBase + 72 then FOUR_MB - 72
    else if a = free + 8 then sampleBase + 72
    else if a = sampleBase + 88 then free
    else 0
  freeList := free

theorem threeBlocks_extent (free : U64) : (threeBlocks free).extent sampleBase = 24 ∧
    (threeBlocks free).extent (sampleBase + 24) = 24 ∧
    (threeBlocks free).extent (sampleBase + 48) = 24 ∧
    (threeBlocks free).extent (sampleBase + 72) = 4194232 :=
  ⟨rfl, rfl, rfl, rfl⟩

/-- A block of known size is well formed. -/
theorem Header.of_extent {n : Nat} (hextent : h.extent b = n) (hb : b ≠ NULL)
    (haligned : start b % 8 = 0 ∧ n % 8 = 0) (hn : 24 ≤ n ∧ start b + n ≤ 2 ^ 64) : Header h b :=
  ⟨hb, haligned.1, hextent ▸ haligned.2, hextent ▸ hn.1, hextent ▸ hn.2⟩

theorem threeBlocks_header (free : U64) :
    ∀ b ∈ [sampleBase, sampleBase + 24, sampleBase + 48, sampleBase + 72],
      Header (threeBlocks free) b := by
  obtain ⟨ha, hb, hc, hd⟩ := threeBlocks_extent free
  simp only [List.forall_mem_cons]
  exact ⟨.of_extent ha (by decide) (by decide) (by decide),
    .of_extent hb (by decide) (by decide) (by decide),
    .of_extent hc (by decide) (by decide) (by decide),
    .of_extent hd (by decide) (by decide) (by decide), by simp⟩

theorem threeBlocks_tiling (free : U64) : Blocks.Tiling start (threeBlocks free).extent
    [sampleBase, sampleBase + 24, sampleBase + 48, sampleBase + 72] (mapped [sampleRegion]) := by
  obtain ⟨ha, hb, hc, hd⟩ := threeBlocks_extent free
  refine ⟨fun b hb => ?_, ?_, ?_⟩
  · exact Nat.lt_of_lt_of_le (by decide) (threeBlocks_header free b hb).min_size
  · simp only [List.pairwise_cons, List.mem_cons, List.not_mem_nil, or_false, forall_eq_or_imp,
      forall_eq, false_implies, implies_true, List.Pairwise.nil, and_true, Blocks.Apart, ha, hb,
      hc, hd]
    decide
  · have hstart : start sampleBase = 1048576 ∧ start (sampleBase + 24) = 1048600 ∧
        start (sampleBase + 48) = 1048624 ∧ start (sampleBase + 72) = 1048648 :=
      ⟨rfl, rfl, rfl, rfl⟩
    have hregion : sampleBase.toNat = 1048576 ∧ FOUR_MB.toNat = 4194304 := ⟨rfl, rfl⟩
    simp only [List.forall_mem_cons, Blocks.Holds, mem_mapped_cons, ha, hb, hc, hd]
    refine ⟨fun x hx => Or.inr ?_, fun x hx => Or.inr ?_, fun x hx => Or.inr ?_,
      fun x hx => Or.inr ?_, nofun⟩ <;> omega

/-- The chunks are `free` and the rest of the region. -/
theorem threeBlocks_layout {free : U64} {live : List U64}
    (hperm : ([free, sampleBase + 72] ++ live).Perm
      [sampleBase, sampleBase + 24, sampleBase + 48, sampleBase + 72])
    (hlinks : (threeBlocks free).prev free = NULL ∧ (threeBlocks free).next free = sampleBase + 72 ∧
      (threeBlocks free).prev (sampleBase + 72) = free ∧
      (threeBlocks free).next (sampleBase + 72) = NULL) :
    Layout (threeBlocks free) [free, sampleBase + 72] live (mapped [sampleRegion]) := by
  have hheader : ∀ b ∈ [free, sampleBase + 72] ++ live, Header (threeBlocks free) b := fun b hb =>
    threeBlocks_header free b (hperm.mem_iff.mp hb)
  have htiling := (threeBlocks_tiling free).perm hperm.symm
  have hfree := (hheader free (by simp)).nonzero
  have hlast := (hheader (sampleBase + 72) (by simp)).nonzero
  refine ⟨⟨⟨rfl, fun _ => hlinks.1, ?_, fun _ => hlinks.2.2.1, ?_, fun h => absurd rfl h, trivial⟩,
    List.nodup_cons.mpr ⟨?_, (List.nodup_append.mp htiling.nodup).1⟩⟩, hheader, htiling⟩
  · exact (Heap.nextOf_of_ne hfree).trans hlinks.2.1
  · exact (Heap.nextOf_of_ne hlast).trans hlinks.2.2.2
  · simp only [List.mem_cons, List.not_mem_nil, or_false]
    exact not_or.mpr ⟨hfree.symm, hlast.symm⟩

/-- The second block is free, the first and the third one are live. -/
theorem threeBlocks_second_free : Layout (threeBlocks (sampleBase + 24))
    [sampleBase + 24, sampleBase + 72] [sampleBase, sampleBase + 48] (mapped [sampleRegion]) := by
  refine threeBlocks_layout (List.perm_iff_count.mpr fun a => ?_) (by decide)
  simp only [List.count_append, List.count_cons, List.count_nil]
  omega

/-- The second block is free and the first one is freed: it takes in the second one. -/
theorem memfree_contract_sample :
    (∃ h' cs', memfree (threeBlocks (sampleBase + 24)) (sampleBase + ALLOC_MEM_METADATA) =
        some (0, h') ∧
      Coalesced (threeBlocks (sampleBase + 24)) h' [sampleBase + 24, sampleBase + 72] cs'
        [sampleBase, sampleBase + 48] Set.univ sampleBase) ↔
    KeepsMemory (threeBlocks (sampleBase + 24)) sampleBase :=
  memfree_contract_iff (threeBlocks_second_free.mono (Set.subset_univ _)) (by decide) (by decide)

/-- The first block is free and the second one is freed: the rest of the region, which comes next
on the list, is lost. -/
theorem memfree_breaks_contract :
    Layout (threeBlocks sampleBase) [sampleBase, sampleBase + 72]
      [sampleBase + 24, sampleBase + 48] Set.univ ∧
    Blocks.Separated start (threeBlocks sampleBase).extent [sampleBase, sampleBase + 72] ∧
    ¬ ∃ h' cs', memfree (threeBlocks sampleBase) (sampleBase + 24 + ALLOC_MEM_METADATA) =
        some (0, h') ∧
      Coalesced (threeBlocks sampleBase) h' [sampleBase, sampleBase + 72] cs'
        [sampleBase + 24, sampleBase + 48] Set.univ (sampleBase + 24) := by
  have hL : Layout (threeBlocks sampleBase) [sampleBase, sampleBase + 72]
      [sampleBase + 24, sampleBase + 48] Set.univ := by
    refine (threeBlocks_layout (List.perm_iff_count.mpr fun a => ?_) (by decide)).mono
      (Set.subset_univ _)
    simp only [List.count_append, List.count_cons, List.count_nil]
    omega
  have hsep : Blocks.Separated start (threeBlocks sampleBase).extent
      [sampleBase, sampleBase + 72] := by
    decide
  refine ⟨hL, hsep, fun hfreed => ?_⟩
  have hkeeps := (memfree_contract_iff hL (by decide) hsep).mp hfreed
  rcases hkeeps.left sampleBase ⟨.here (by decide), rfl⟩ with ⟨r, hr⟩ | hlast
  · obtain ⟨hr, hadjacent⟩ := (hL.right_iff (by decide)).mp hr
    simp only [List.mem_cons, List.not_mem_nil, or_false] at hr
    rcases hr with rfl | rfl
    · exact absurd hadjacent (by decide)
    · exact absurd hadjacent (by decide)
  · exact absurd hlast (by decide)

end GemOS.Mylib
