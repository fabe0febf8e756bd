import GemOS.Mylib.Integrity

/-!
# The payload of live blocks

`memalloc` writes only into chunks of the free list and into new memory, `memfree` only into
these chunks and the freed block: outside of them memory stays the same (`SameOutside`). So a
block that a program holds keeps its size and the words stored in it, whatever other blocks
are allocated, cut, freed and joined meanwhile (`payload_kept`).
-/

namespace GemOS.Mylib

open DoublyLinked

/-! ## Edits outside of which memory stays the same -/

/-- All fields of a block lie in `A`. -/
structure FieldsIn (A : Set Nat) (x : U64) : Prop where
  size : start x ∈ A
  next : (x + 8).toNat ∈ A
  prev : (x + 16).toNat ∈ A

/-- The two heaps hold the same words outside of `A`. -/
def SameOutside (A : Set Nat) (h h' : Heap) : Prop :=
  ∀ a : U64, a.toNat ∉ A → h'.mem a = h.mem a

section Edits

variable {A : Set Nat} {h h' : Heap} {x v : U64}

theorem FieldsIn.mono {A' : Set Nat} (hx : FieldsIn A x) (hsub : A ⊆ A') : FieldsIn A' x :=
  ⟨hsub hx.size, hsub hx.next, hsub hx.prev⟩

/-- The fields of a block with room for them. -/
theorem fields_in (hroom : ∀ n, start x ≤ n → n < start x + 24 → n ∈ A)
    (hwrap : start x + 24 ≤ 2 ^ 64) : FieldsIn A x := by
  have h8 : (x + 8).toNat = start x + 8 := by
    simp only [start] at *
    bv_omega
  have h16 : (x + 16).toNat = start x + 16 := by
    simp only [start] at *
    bv_omega
  exact ⟨hroom _ (by omega) (by omega), hroom _ (by omega) (by omega),
    hroom _ (by omega) (by omega)⟩

namespace SameOutside

theorem refl (A : Set Nat) (h : Heap) : SameOutside A h h := fun _ _ => rfl

/-- One store into `A`. -/
theorem update (hsame : SameOutside A h h') {w : U64} (hw : w.toNat ∈ A) :
    ∀ a : U64, a.toNat ∉ A → Function.update h'.mem w v a = h.mem a := by
  intro a ha
  have hne : a ≠ w := fun heq => ha (heq ▸ hw)
  rw [Function.update_of_ne hne]
  exact hsame a ha

theorem setSize (hsame : SameOutside A h h') (hx : FieldsIn A x) :
    SameOutside A h (h'.setSize x v) :=
  hsame.update hx.size

theorem setNext (hsame : SameOutside A h h') (hx : FieldsIn A x) :
    SameOutside A h (h'.setNext x v) :=
  hsame.update hx.next

theorem setPrev (hsame : SameOutside A h h') (hx : FieldsIn A x) :
    SameOutside A h (h'.setPrev x v) :=
  hsame.update hx.prev

theorem setPrevOf (hsame : SameOutside A h h') (hx : x ≠ NULL → FieldsIn A x) :
    SameOutside A h (h'.setPrevOf x v) := by
  unfold Heap.setPrevOf
  split_ifs with hne
  · exact hsame.setPrev (hx hne)
  · exact hsame

theorem bypass (hsame : SameOutside A h h') (hx : h'.prev x ≠ NULL → FieldsIn A (h'.prev x)) :
    SameOutside A h (h'.bypass x) := by
  unfold Heap.bypass
  split_ifs with hne
  · exact hsame.setNext (hx hne)
  · exact hsame

theorem pushFront (hsame : SameOutside A h h') (hx : FieldsIn A x)
    (hlist : h'.freeList ≠ NULL → FieldsIn A h'.freeList) :
    SameOutside A h (h'.pushFront x v) :=
  (((hsame.setSize hx).setNext hx).setPrev hx).setPrevOf hlist

theorem makeChunk (hsame : SameOutside A h h') (hx : FieldsIn A x) :
    SameOutside A h (h'.makeChunk x v) :=
  ((hsame.setSize hx).setPrev hx).setNext hx

theorem linkFront (hsame : SameOutside A h h') (hx : FieldsIn A x)
    (hlist : h'.freeList ≠ NULL → FieldsIn A h'.freeList) : SameOutside A h (h'.linkFront x) :=
  (hsame.setNext hx).setPrevOf hlist

end SameOutside

end Edits

/-! ## What the calls write -/

section Calls

variable {h h' : Heap} {cs live : List U64} {area : Set Nat} {b : U64}

/-- The fields of a block are addresses of this block. -/
theorem Header.fields_in {bs : List U64} (hheader : Header h b) (hb : b ∈ bs) :
    FieldsIn (Blocks.addresses start h.extent bs) b := by
  have hmin := hheader.min_size
  have hwrap := hheader.no_wrap
  refine Mylib.fields_in (fun n hle hlt => ⟨b, hb, hle, ?_⟩) (by omega)
  omega

/-- Taking a chunk off the list writes into chunks only. -/
theorem Layout.unlink_outside {pre post : List U64} {c : U64}
    (hL : Layout h (pre ++ c :: post) live area) :
    SameOutside (Blocks.addresses start h.extent (pre ++ c :: post)) h (h.unlink c) := by
  have hfields : ∀ d ∈ pre ++ c :: post,
      FieldsIn (Blocks.addresses start h.extent (pre ++ c :: post)) d := fun d hd =>
    (hL.header d (List.mem_append_left live hd)).fields_in hd
  obtain ⟨hc, hprev, hnext⟩ := hL.node
  have hprev_mem : h.prev c ≠ NULL → h.prev c ∈ pre ++ c :: post := by
    intro hne
    have := lastOr_mem (hprev ▸ hne)
    simp [hprev, this]
  have hself : h.prev c ≠ c := by
    rw [hprev]
    exact (lastOr_ne hL.list.nodup (by simp)).symm
  -- the links of the chunk are read again after the list has gone past it
  have hread := (Heap.bypass_fields hL.all_clear fun hne =>
    List.mem_append_left live (hprev_mem hne)).2 c (by simp)
  have hnext_read : (h.bypass c).next c = h.next c :=
    (hread.2.2 hc).trans (if_neg (Ne.symm hself))
  have hbypass := (SameOutside.refl _ h).bypass fun hne => hfields _ (hprev_mem hne)
  refine hbypass.setPrevOf fun hne => ?_
  rw [hnext_read] at hne ⊢
  exact hfields _ (hL.next_mem (by simp) hne)

/-- `memalloc` from a chunk writes into chunks only. -/
theorem Layout.memalloc_found_outside {requestedSize c ptr : U64} {mmap : Option U64}
    {pre post : List U64} (hL : Layout h (pre ++ c :: post) live area)
    (hsize : requestedSize ≠ 0)
    (hfind : find h.next NULL (fits h (sizeNeeded requestedSize)) LOOP_BOUND h.freeList = some c)
    (hfits : (sizeNeeded requestedSize).toNat ≤ h.extent c)
    (hcall : memalloc h requestedSize mmap = some (ptr, h')) :
    SameOutside (Blocks.addresses start h.extent (pre ++ c :: post)) h h' := by
  have hheader := hL.header c (by simp)
  have hwrap := hheader.no_wrap
  obtain ⟨hsizes, hL₁⟩ := hL.unlink
  have hsame := hL.unlink_outside
  have hfields : ∀ d ∈ pre ++ c :: post,
      FieldsIn (Blocks.addresses start h.extent (pre ++ c :: post)) d := fun d hd =>
    (hL.header d (List.mem_append_left live hd)).fields_in hd
  have hlist : (h.unlink c).freeList ≠ NULL →
      FieldsIn (Blocks.addresses start h.extent (pre ++ c :: post)) (h.unlink c).freeList := by
    intro hne
    have hmem := hL₁.freeList_mem hne
    exact hfields _ (((List.sublist_cons_self c post).append_left pre).subset hmem)
  have hpadded := padded_le hheader.size_aligned hheader.min_size hfits
  have hextent : (h.unlink c).size c = h.size c := hsizes c (by simp)
  simp only [memalloc, hfind, Option.bind_eq_bind, Option.bind_some, if_neg hsize,
    if_pos hheader.nonzero, hextent, Heap.size_setSize, if_true] at hcall
  generalize sizeNeeded requestedSize + paddingSize (sizeNeeded requestedSize) = total
    at hpadded hcall
  have hrem : (h.size c - total).toNat = h.extent c - total.toNat :=
    BitVec.toNat_sub_of_le (BitVec.le_def.mpr hpadded)
  have hback : h.size c - (h.size c - total) = total := by
    bv_omega
  rw [hback] at hcall
  split_ifs at hcall with hsmall
  · obtain ⟨-, rfl⟩ := Prod.mk.inj (Option.some.inj hcall)
    exact hsame.setSize (hfields c (by simp))
  · obtain ⟨-, rfl⟩ := Prod.mk.inj (Option.some.inj hcall)
    -- the rest of the chunk has room for the fields
    have hlarge : 24 ≤ h.extent c - total.toNat := by
      rw [BitVec.lt_def, Nat.not_lt, hrem] at hsmall
      exact hsmall
    have hstart : start (c + total) = start c + total.toNat := by
      unfold start at *
      rw [BitVec.toNat_add, Nat.mod_eq_of_lt]
      omega
    have hcut : FieldsIn (Blocks.addresses start h.extent (pre ++ c :: post)) (c + total) := by
      refine Mylib.fields_in (fun n hle hlt => ⟨c, by simp, ?_⟩) (by omega)
      unfold Blocks.Holds
      omega
    exact (hsame.setSize (hfields c (by simp))).pushFront hcut hlist

/-- Laying out a new region writes into the region and into the first chunk. -/
theorem Layout.region_outside {base request total : U64} (hL : Layout h cs live area)
    (hwrap : base.toNat + request.toNat ≤ 2 ^ 64) (hmin : 24 ≤ total.toNat)
    (hroom : total.toNat + 24 ≤ request.toNat) :
    SameOutside (Blocks.addresses start h.extent cs ∪ mapped [⟨base, request⟩]) h
      (((h.mapRegion base request).setSize base total).pushFront (base + total)
        (request - total)) := by
  have hregion : ∀ n, base.toNat ≤ n → n < base.toNat + request.toNat →
      n ∈ Blocks.addresses start h.extent cs ∪ mapped [⟨base, request⟩] := fun n hle hlt =>
    Or.inr ⟨_, List.mem_singleton_self _, hle, hlt⟩
  have hmap : SameOutside (Blocks.addresses start h.extent cs ∪ mapped [⟨base, request⟩]) h
      (h.mapRegion base request) := by
    intro a ha
    refine if_neg fun hlt => ha (hregion _ ?_ ?_) <;> bv_omega
  have hbase : FieldsIn (Blocks.addresses start h.extent cs ∪ mapped [⟨base, request⟩]) base :=
    fields_in (fun n hle hlt => hregion n hle (by simp only [start] at hlt; omega))
      (by simp only [start]; omega)
  have hstart : start (base + total) = base.toNat + total.toNat := by
    simp only [start]
    rw [BitVec.toNat_add, Nat.mod_eq_of_lt]
    omega
  have hcut : FieldsIn (Blocks.addresses start h.extent cs ∪ mapped [⟨base, request⟩])
      (base + total) :=
    fields_in (fun n hle hlt => hregion n (by omega) (by omega)) (by omega)
  have hlist : ((h.mapRegion base request).setSize base total).freeList = h.freeList := rfl
  refine (hmap.setSize hbase).pushFront hcut fun hne => ?_
  rw [hlist] at hne ⊢
  have hmem := hL.freeList_mem hne
  exact ((hL.header _ (List.mem_append_left live hmem)).fields_in hmem).mono
    Set.subset_union_left

/-- `memalloc` from a new region writes into chunks and into the region. -/
theorem Layout.memalloc_mapped_outside {requestedSize base ptr : U64}
    (hL : Layout h cs live area) (hsize : requestedSize ≠ 0)
    (hfind : find h.next NULL (fits h (sizeNeeded requestedSize)) LOOP_BOUND h.freeList =
      some NULL)
    (hwrap : base.toNat + (sizeRequestedFromOS (sizeNeeded requestedSize)).toNat ≤ 2 ^ 64)
    (hroom : LeavesChunk (sizeNeeded requestedSize))
    (hcall : memalloc h requestedSize (some base) = some (ptr, h')) :
    SameOutside (Blocks.addresses start h.extent cs ∪
      mapped [⟨base, sizeRequestedFromOS (sizeNeeded requestedSize)⟩]) h h' := by
  rw [memalloc_new base hsize hfind] at hcall
  obtain ⟨-, rfl⟩ := Prod.mk.inj (Option.some.inj hcall)
  exact hL.region_outside hwrap (padded_min _) hroom

/-- `memfree` writes into chunks and into the freed block. -/
theorem Layout.memfree_outside {result : Int} (hL : Layout h cs live area) (hb : b ∈ live)
    (hcall : memfree h (b + ALLOC_MEM_METADATA) = some (result, h')) :
    SameOutside (Blocks.addresses start h.extent (b :: cs)) h h' := by
  obtain ⟨h₁, heval, hfreeing⟩ := hL.memfree_freeing hb
  obtain ⟨-, rfl⟩ := Prod.mk.inj (Option.some.inj (hcall.symm.trans heval))
  obtain ⟨hL₁, -, -, -⟩ := hL.freed hb
  have hfields : ∀ d ∈ b :: cs, FieldsIn (Blocks.addresses start h.extent (b :: cs)) d := by
    intro d hd
    refine (hL.header d ?_).fields_in hd
    rcases List.mem_cons.mp hd with rfl | hd
    · exact List.mem_append_right cs hb
    · exact List.mem_append_left live hd
  have hchunk : ∀ d ∈ cs, FieldsIn (Blocks.addresses start h.extent (b :: cs)) d := fun d hd =>
    hfields d (List.mem_cons_of_mem b hd)
  have hmake := (SameOutside.refl _ h).makeChunk (v := h.size b) (hfields b (by simp))
  have hclear := hL₁.all_clear
  -- after the size and the link of `d` are set, the links of a chunk `r` are as before
  have hread : ∀ d r v w, d ∈ b :: cs → r ∈ cs → r ≠ d →
      (((h.makeChunk b (h.size b)).setSize d v).setNext d w).next r =
        (h.makeChunk b (h.size b)).next r := by
    intro d r v w hd hr hne
    have hd' : d ∈ cs ++ b :: live.erase b := by
      rcases List.mem_cons.mp hd with rfl | hd
      · simp
      · simp [hd]
    rw [Heap.next_setNext, if_neg hne, Heap.next_setSize (hclear d hd' r (by simp [hr]))]
  have hother : ∀ r ∈ cs, r ≠ b := fun r hr heq =>
    (List.nodup_append.mp hL.nodup).2.2 r hr b hb heq
  -- a block takes in a chunk `r`, with the link that is read after the first two stores
  have habsorb : ∀ d r v w, d ∈ b :: cs → r ∈ cs → r ≠ d →
      SameOutside (Blocks.addresses start h.extent (b :: cs)) h
        ((((h.makeChunk b (h.size b)).setSize d v).setNext d w).setPrevOf
          ((((h.makeChunk b (h.size b)).setSize d v).setNext d w).next r) d) := by
    intro d r v w hd hr hne
    refine ((hmake.setSize (hfields d hd)).setNext (hfields d hd)).setPrevOf ?_
    rw [hread d r v w hd hr hne]
    exact fun hnext => hchunk _ (hL₁.next_mem hr hnext)
  cases hfreeing with
  | alone hleft hright =>
      exact hmake.linkFront (hfields b (by simp)) fun hne => hchunk _ (hL.freeList_mem hne)
  | @right r hleft hright =>
      obtain ⟨hr, -⟩ := (hL.right_iff hb).mp hright
      unfold Mylib.mergeRight
      dsimp only
      split_ifs <;> exact habsorb b r _ _ (by simp) hr (hother r hr)
  | @left l hleft hright =>
      obtain ⟨hl, -⟩ := (hL.left_iff hb).mp hleft
      have hset := fun v => (hmake.setSize (v := v) (hchunk l hl)).setNext (v := NULL) (hchunk l hl)
      unfold Mylib.mergeLeft
      dsimp only
      split_ifs <;> exact (hset _).setPrevOf (v := l) fun hne => absurd rfl hne
  | @both l r hleft hright =>
      obtain ⟨hl, hadj_l⟩ := (hL.left_iff hb).mp hleft
      obtain ⟨hr, hadj_r⟩ := (hL.right_iff hb).mp hright
      have hne := hL.neighbours_ne hb hadj_l hadj_r
      unfold Mylib.mergeBoth
      dsimp only
      split_ifs <;> exact habsorb l r _ _ (by simp [hl]) hr hne

end Calls

/-! ## Live blocks over runs -/

/-- The word at `a` after an operation of the program, if only its own stores change it. -/
def wordAfter (a : U64) (word : U64) : Op → U64
  | .store address stored => if address = a then stored else word
  | _ => word

/-- The word at `a` after a run, if only the program's own stores change it: the last one stored
there, or `word`. -/
def lastWord (a : U64) (word : U64) (ops : List Op) : U64 :=
  ops.foldl (wordAfter a) word

/-- The word at `a` belongs to the payload of block `b`. Words start at multiples of 8. -/
def InPayload (h : Heap) (b a : U64) : Prop :=
  a.toNat % 8 = 0 ∧ start b + 8 ≤ a.toNat ∧ a.toNat < start b + h.extent b

/-- A block that is held has kept its size, and its payload holds what the program has stored
there. -/
structure BlockKept (s s' : State) (b : U64) (ops : List Op) : Prop where
  live : b ∈ s'.live
  size : s'.heap.size b = s.heap.size b
  payload : ∀ a, InPayload s.heap b a →
    s'.heap.mem a = lastWord a (s.heap.mem a) ops

variable {s s' : State} {cs : List U64} {b : U64}

/-- A call of `memalloc` writes outside of the live blocks. -/
theorem memalloc_step_outside {requestedSize : U64} {mmap : Option U64} (hL : LaidOut s cs)
    (hvalid : ValidOp s (.memalloc requestedSize mmap))
    (hkeeps : KeepsHeap s (.memalloc requestedSize mmap))
    (hstep : s.step (.memalloc requestedSize mmap) = some s') :
    (∀ d ∈ s.live, d ∈ s'.live) ∧
    SameOutside (Blocks.addresses start s.heap.extent cs ∪
      mapped (newRegion s.heap requestedSize mmap)) s.heap s'.heap := by
  obtain ⟨⟨ptr, h'⟩, hcall, heq⟩ := Option.bind_eq_some_iff.mp hstep
  obtain rfl := Option.some.inj heq
  refine ⟨fun d hd => ?_, ?_⟩
  · show d ∈ if ptr = NULL then s.live else _
    split_ifs
    · exact hd
    · exact List.mem_cons_of_mem _ hd
  show SameOutside _ s.heap h'
  by_cases hzero : requestedSize = 0
  · simp only [memalloc, if_pos hzero] at hcall
    obtain ⟨-, rfl⟩ := Prod.mk.inj (Option.some.inj hcall)
    exact SameOutside.refl _ _
  rcases hL.find_fit (sizeNeeded requestedSize) with
    ⟨hfind, -⟩ | ⟨pre, c, post, rfl, -, hfits, hfind⟩
  · cases mmap with
    | none =>
        simp only [memalloc, if_neg hzero, hfind, Option.bind_eq_bind, Option.bind_some, ne_eq,
          not_true_eq_false, if_false] at hcall
        obtain ⟨-, rfl⟩ := Prod.mk.inj (Option.some.inj hcall)
        exact SameOutside.refl _ _
    | some base =>
        have hnew : newRegion s.heap requestedSize (some base) =
            [⟨base, sizeRequestedFromOS (sizeNeeded requestedSize)⟩] := by
          simp only [newRegion, if_neg hzero, hfind, if_true]
          rfl
        have hfresh := hvalid _ (hnew ▸ List.mem_singleton_self _)
        have hroom := hkeeps (by rw [hnew]; exact List.cons_ne_nil _ _)
        rw [hnew]
        exact hL.memalloc_mapped_outside hzero hfind hfresh.no_wrap hroom hcall
  · have hsame := hL.memalloc_found_outside hzero hfind hfits hcall
    exact fun a ha => hsame a fun hmem => ha (Or.inl hmem)

/-- What a live block holds is in no chunk and in no new region. -/
theorem LaidOut.not_written {regions : List Region} (hL : LaidOut s cs) (hb : b ∈ s.live)
    (hfresh : ∀ r ∈ regions, FreshRegion s.regions r) {x : Nat}
    (hx : Blocks.Holds start s.heap.extent b x) :
    x ∉ Blocks.addresses start s.heap.extent cs ∪ mapped regions := by
  have hb' := List.mem_append_right cs hb
  rintro (hchunk | ⟨r, hr, hin⟩)
  · refine hL.tiling.not_addresses (fun d hd => ⟨List.mem_append_left _ hd, ?_⟩) hb' hx hchunk
    exact fun heq => (List.nodup_append.mp hL.nodup).2.2 d hd b hb heq
  · exact (hfresh r hr).not_mapped x (hL.tiling.inside b hb' x hx) hin

/-- One step keeps a block that it does not free. -/
theorem step_block_kept {op : Op} (hL : LaidOut s cs) (hvalid : ValidOp s op)
    (hkeeps : KeepsHeap s op) (hstep : s.step op = some s') (hb : b ∈ s.live)
    (hop : op ≠ .memfree b) : BlockKept s s' b [op] := by
  have hmin := (hL.header b (List.mem_append_right cs hb)).min_size
  -- a call that leaves memory of the block alone
  have hcalls : ∀ A, SameOutside A s.heap s'.heap →
      (∀ x, Blocks.Holds start s.heap.extent b x → x ∉ A) →
      s'.heap.size b = s.heap.size b ∧
        ∀ a, InPayload s.heap b a → s'.heap.mem a = s.heap.mem a := by
    intro A hsame hA
    have hsize : Blocks.Holds start s.heap.extent b (start b) :=
      ⟨Nat.le_refl _, Nat.lt_add_of_pos_right (by omega)⟩
    refine ⟨hsame b (hA _ hsize), fun a ⟨_, hlow, hhigh⟩ => hsame a (hA _ ⟨?_, hhigh⟩)⟩
    exact Nat.le_trans (Nat.le_add_right _ 8) hlow
  cases op with
  | memalloc requestedSize mmap =>
      obtain ⟨hlive, hsame⟩ := memalloc_step_outside hL hvalid hkeeps hstep
      obtain ⟨hsize, hpayload⟩ := hcalls _ hsame fun x hx => hL.not_written hb hvalid hx
      exact ⟨hlive b hb, hsize, hpayload⟩
  | memfree block =>
      have hne : b ≠ block := fun heq => hop (heq ▸ rfl)
      obtain ⟨⟨result, h'⟩, hcall, heq⟩ := Option.bind_eq_some_iff.mp hstep
      obtain rfl := Option.some.inj heq
      have hb' := List.mem_append_right cs hb
      have hA : ∀ x, Blocks.Holds start s.heap.extent b x →
          x ∉ Blocks.addresses start s.heap.extent (block :: cs) := by
        intro x hx
        refine hL.tiling.not_addresses (fun d hd => ?_) hb' hx
        rcases List.mem_cons.mp hd with rfl | hd
        · exact ⟨List.mem_append_right cs hvalid, Ne.symm hne⟩
        · exact ⟨List.mem_append_left _ hd,
            fun heq => (List.nodup_append.mp hL.nodup).2.2 d hd b hb heq⟩
      obtain ⟨hsize, hpayload⟩ := hcalls _ (hL.memfree_outside hvalid hcall) hA
      exact ⟨(List.mem_erase_of_ne hne).mpr hb, hsize, hpayload⟩
  | store address word =>
      obtain ⟨d, hd, -, hlow, hhigh⟩ := hvalid
      obtain rfl := Option.some.inj hstep
      refine ⟨hb, hL.store_size word hd hlow hhigh b (List.mem_append_right cs hb), fun a _ => ?_⟩
      show Function.update s.heap.mem address word a = if address = a then word else s.heap.mem a
      rw [Function.update_apply]
      simp only [eq_comm]

/-- A run keeps a block that it does not free. -/
theorem run_block_kept {ops : List Op} (hL : LaidOut s cs)
    (hops : Runs.AllSteps State.step (fun s op => ValidOp s op ∧ KeepsHeap s op) s ops)
    (hrun : Runs.run State.step s ops = some s') (hb : b ∈ s.live) (hfree : Op.memfree b ∉ ops) :
    BlockKept s s' b ops := by
  induction ops generalizing s cs with
  | nil =>
      obtain rfl := Option.some.inj hrun
      exact ⟨hb, rfl, fun a _ => rfl⟩
  | cons op ops ih =>
      obtain ⟨⟨hvalid, hkeeps⟩, hrest⟩ := hops
      obtain ⟨s₁, hstep, hrun⟩ := Option.bind_eq_some_iff.mp hrun
      obtain ⟨hop, hfree⟩ := not_or.mp (mt List.mem_cons.mpr hfree)
      obtain ⟨s₂, cs₁, hstep', hL₁, -⟩ := step_layout hL hvalid hkeeps
      obtain rfl := Option.some.inj (hstep.symm.trans hstep')
      have hone := step_block_kept hL hvalid hkeeps hstep hb (Ne.symm hop)
      have hmore := ih hL₁ (hrest s₁ hstep) hrun hone.live hfree
      refine ⟨hmore.live, hmore.size.trans hone.size, fun a ha => ?_⟩
      have ha₁ : InPayload s₁.heap b a := by
        unfold InPayload Heap.extent at *
        rwa [hone.size]
      rw [hmore.payload a ha₁, hone.payload a ha]
      rfl

/-- The payload of a live block is what the program has stored there, in every run of valid calls
that keep the free list well linked: calls for other blocks do not change it. -/
theorem payload_kept {mem : U64 → U64} (ops ops' : List Op)
    (hops : Runs.AllSteps State.step (fun s op => ValidOp s op ∧ KeepsHeap s op)
      (State.start mem) (ops ++ ops')) :
    ∃ s s', Runs.run State.step (State.start mem) ops = some s ∧
      Runs.run State.step s ops' = some s' ∧
      ∀ b ∈ s.live, Op.memfree b ∉ ops' → BlockKept s s' b ops' := by
  obtain ⟨s, hrun, cs, hL⟩ := run_laidOut hops.left
  have hright := hops.right hrun
  have hstep : ∀ s op, (∃ cs, LaidOut s cs) → ValidOp s op ∧ KeepsHeap s op →
      ∃ s', s.step op = some s' ∧ ∃ cs, LaidOut s' cs := by
    rintro s op ⟨cs, hL⟩ ⟨hvalid, hkeeps⟩
    obtain ⟨s', cs', hrun, hL', -⟩ := step_layout hL hvalid hkeeps
    exact ⟨s', hrun, cs', hL'⟩
  obtain ⟨s', hrun', -⟩ := Runs.run_invariant hstep ⟨cs, hL⟩ hright
  exact ⟨s, s', hrun, hrun', fun b hb hfree => run_block_kept hL hright hrun' hb hfree⟩

/-- The first block still holds the word stored there when the second one has been freed. -/
theorem payload_kept_sample :
    ∃ s s', Runs.run State.step (State.start fun _ => 0) (sampleOps.take 2) = some s ∧
      Runs.run State.step s (sampleOps.drop 2) = some s' ∧
      BlockKept s s' sampleBase (sampleOps.drop 2) ∧ s'.heap.mem (sampleBase + 8) = 7 := by
  obtain ⟨s, s', hrun, hrun', hkept⟩ := payload_kept (sampleOps.take 2) (sampleOps.drop 2)
    (sampleOps_keep.mono fun _ _ h => ⟨h.1, h.2.1⟩)
  have hheld : (Runs.run State.step (State.start fun _ => 0) (sampleOps.take 2)).any fun s =>
      decide (sampleBase ∈ s.live ∧ (sampleBase + 8).toNat % 8 = 0 ∧
        start sampleBase + 8 ≤ (sampleBase + 8).toNat ∧
        (sampleBase + 8).toNat < start sampleBase + s.heap.extent sampleBase) := by
    decide +kernel
  rw [hrun, Option.any_some, decide_eq_true_eq] at hheld
  have hblock := hkept sampleBase hheld.1 (by simp [sampleOps])
  exact ⟨s, s', hrun, hrun', hblock, hblock.payload _ hheld.2⟩

end GemOS.Mylib
