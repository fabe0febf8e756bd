import GemOS.Mylib.Layout

/-!
# Coalescing

The three ways in which `memfree` joins the freed block with free neighbours. A chunk is found by
its address, wherever it stands on the list, and the code takes over the links of what it finds
there: each lemma says for which positions on the list the result is a layout again, and when no
memory is lost.
-/

namespace GemOS.Mylib

open DoublyLinked

variable {h h' : Heap} {cs cs' live live' : List U64} {area : Set Nat}

/-- Sizes that end below the end of memory add up without wrapping. -/
theorem size_add {b : U64} (hb : Header h b) {v w : U64}
    (hwrap : start b + v.toNat + w.toNat ≤ 2 ^ 64) : (v + w).toNat = v.toNat + w.toNat := by
  have hpos : start b ≠ 0 := fun heq => hb.nonzero (BitVec.eq_of_toNat_eq heq)
  exact BitVec.toNat_add_of_lt (by omega)

/-- A block grown by `n` bytes is well formed. -/
theorem Header.grow {b : U64} {n : Nat} (hb : Header h b) (hn : n % 8 = 0)
    (hend : start b + h.extent b + n ≤ 2 ^ 64) (hextent : h'.extent b = h.extent b + n) :
    Header h' b := by
  have hb8 := hb.size_aligned
  have hmin := hb.min_size
  exact ⟨hb.nonzero, hb.aligned, by omega, by omega, by omega⟩

/-- A block has taken in its right neighbour. Other blocks may be on no list any more. -/
theorem Layout.merged {b c : U64} {rest : List U64} (hL : Layout h cs live area)
    (hold : (b :: c :: rest).Subperm (cs ++ live)) (hnew : (b :: rest).Perm (cs' ++ live'))
    (hadjacent : start b + h.extent b = start c) (hgrown : h'.size b = h.size b + h.size c)
    (hkept : ∀ a ∈ rest, h'.size a = h.size a) (hlist : IsList h'.nextOf h'.prev NULL cs') :
    Layout h' cs' live' area ∧
    ((cs ++ live).Perm (b :: c :: rest) →
      ∀ sum, Full h cs live area sum → Full h' cs' live' area sum) ∧
    ∀ a ∈ cs' ++ live', h'.extent a = if a = b then h.extent b + h.extent c else h.extent a := by
  have hheader : ∀ a ∈ b :: c :: rest, Header h a := fun a ha => hL.header a (hold.subset ha)
  have hb := hheader b (by simp)
  have hc := hheader c (by simp)
  have hend : start b + h.extent b + h.extent c ≤ 2 ^ 64 := hadjacent ▸ hc.no_wrap
  have hsum : h'.extent b = h.extent b + h.extent c :=
    (congrArg BitVec.toNat hgrown).trans (size_add hb hend)
  have hextent : ∀ a ∈ rest, h'.extent a = h.extent a := fun a ha =>
    congrArg BitVec.toNat (hkept a ha)
  obtain ⟨kept, hkept_perm, hsub⟩ := hold
  have htiling := ((hL.tiling.sublist hsub).perm hkept_perm).merge hadjacent hsum hextent
  refine ⟨⟨hlist, fun a ha => ?_, htiling.perm hnew⟩,
    fun hall sum hF => ((Blocks.Exact.perm hF hall).merge hadjacent hsum hextent).perm hnew,
    fun a ha => ?_⟩
  · rcases List.mem_cons.mp (hnew.mem_iff.mpr ha) with rfl | ha
    · exact hb.grow hc.size_aligned hend hsum
    · exact (hheader a (by simp [ha])).congr (hkept a ha)
  · split_ifs with heq
    · rw [heq, hsum]
    · exact hextent a (List.mem_of_ne_of_mem heq (hnew.mem_iff.mpr ha))

/-- The freed block takes in the first chunk, its right neighbour, and its place on the list. -/
theorem Layout.mergeRight {f r : U64} (hL : Layout h (r :: cs) (f :: live) area)
    (hprev : h.prev f = NULL) (hadjacent : start f + h.extent f = start r) :
    Layout (Mylib.mergeRight h f r) (f :: cs) live area ∧
    (∀ sum, Full h (r :: cs) (f :: live) area sum →
      Full (Mylib.mergeRight h f r) (f :: cs) live area sum) ∧
    ∀ b ∈ f :: cs, (Mylib.mergeRight h f r).extent b =
      if b = f then h.extent f + h.extent r else h.extent b := by
  have hperm : (r :: cs ++ f :: live).Perm (f :: r :: (cs ++ live)) := List.perm_middle
  have hmem := fun a => (hperm.mem_iff (a := a)).mpr
  have hf := hmem f (by simp)
  have hr := hmem r (by simp)
  have hnodup := hperm.nodup_iff.mp hL.nodup
  simp only [List.nodup_cons, List.mem_cons, not_or] at hnodup
  obtain ⟨⟨hfr, hf_rest⟩, -⟩ := hnodup
  have hlist : h.freeList = r := hL.list.head_eq
  have hnext : h.next r ≠ NULL → h.next r ∈ r :: cs ++ f :: live := fun hne =>
    List.mem_append_left _ (hL.next_mem (by simp) hne)
  obtain ⟨hfree, hfields⟩ := Heap.mergeRight_fields hL.all_clear hf hr (Ne.symm hfr) hnext
  rw [if_pos hlist] at hfree
  have hkept : ∀ b ∈ cs ++ live, (Mylib.mergeRight h f r).size b = h.size b := by
    intro b hb
    have hbf : b ≠ f := fun heq => hf_rest (heq ▸ hb)
    have hb' := hmem b (List.mem_cons_of_mem f (List.mem_cons_of_mem r hb))
    exact (hfields b hb').1.trans (if_neg hbf)
  have hcs : ∀ a ∈ f :: cs, a ∈ r :: cs ++ f :: live := by
    intro a ha
    rcases List.mem_cons.mp ha with rfl | ha
    · exact hf
    · simp [ha]
  have hlist' : IsList (Mylib.mergeRight h f r).nextOf (Mylib.mergeRight h f r).prev NULL
      (f :: cs) := by
    refine hL.list.replaceHead (hL.ne_null hf) (fun hmem => hf_rest (by simp [hmem])) hfree ?_ ?_
    · intro a ha
      rw [Heap.nextOf_of_ne (hL.ne_null (hcs a ha)), Heap.nextOf_of_ne (hL.ne_null (hcs a ha)),
        Heap.nextOf_of_ne (hL.ne_null hr)]
      exact (hfields a (hcs a ha)).2.1
    · intro a ha
      rw [Heap.nextOf_of_ne (hL.ne_null hr)]
      refine ((hfields a (hcs a ha)).2.2 (hL.ne_null (hcs a ha))).trans ?_
      by_cases heq : a = f
      · simp only [heq, hprev, if_true]
      · simp only [if_neg heq]
  obtain ⟨hlayout, hfull, hextents⟩ := hL.merged hperm.symm.subperm (List.Perm.refl _) hadjacent
    ((hfields f hf).1.trans (if_pos rfl)) hkept hlist'
  exact ⟨hlayout, hfull hperm, fun a ha => hextents a (List.mem_append_left live ha)⟩

/-- A block off the list takes in its right neighbour, which stays on the list as its last
chunk: the list does not change, and the block is on no list any more. -/
theorem Layout.mergeRight_last {f r : U64} {pre : List U64}
    (hL : Layout h (pre ++ [r]) (f :: live) area) (hpre : pre ≠ []) :
    Layout (Mylib.mergeRight h f r) (pre ++ [r]) live area := by
  have hf : f ∈ pre ++ [r] ++ f :: live := by simp
  have hr : r ∈ pre ++ [r] ++ f :: live := by simp
  have hnodup := hL.nodup
  rw [List.nodup_append] at hnodup
  have hother : ∀ b ∈ pre ++ [r] ++ live, b ≠ f := by
    intro b hb heq
    rcases List.mem_append.mp hb with hb | hb
    · exact hnodup.2.2 b hb f (by simp) heq
    · exact (List.nodup_cons.mp hnodup.2.1).1 (heq ▸ hb)
  have hmem : ∀ b ∈ pre ++ [r] ++ live, b ∈ pre ++ [r] ++ f :: live := by
    intro b hb
    simp only [List.mem_append, List.mem_cons] at hb ⊢
    tauto
  have hnext : h.next r = NULL := hL.node.2.2
  have hlist : h.freeList ≠ r := by
    rw [show h.freeList = headOr NULL (pre ++ [r]) from hL.list.head_eq]
    obtain ⟨p, rest, rfl⟩ := List.exists_cons_of_ne_nil hpre
    have hp := (List.nodup_cons.mp hnodup.1).1
    exact fun heq => hp (by simp [show p = r from heq])
  obtain ⟨hfree, hfields⟩ := Heap.mergeRight_fields hL.all_clear hf hr (hother r (by simp))
    fun hne => absurd hnext hne
  rw [if_neg hlist] at hfree
  have hsize : ∀ b ∈ pre ++ [r] ++ live,
      (Mylib.mergeRight h f r).size b = h.size b := fun b hb =>
    (hfields b (hmem b hb)).1.trans (if_neg (hother b hb))
  have hchunk : ∀ a ∈ pre ++ [r], a ∈ pre ++ [r] ++ live := fun a ha => List.mem_append_left _ ha
  refine ⟨hL.list.congr ?_ ?_, fun b hb => (hL.header b (hmem b hb)).congr (hsize b hb),
    (hL.tiling.sublist ?_).congr fun b hb => congrArg BitVec.toNat (hsize b hb)⟩
  · intro a ha
    rcases List.mem_cons.mp ha with rfl | ha
    · exact hfree
    · have hnull := hL.ne_null (hmem a (hchunk a ha))
      rw [Heap.nextOf_of_ne hnull, Heap.nextOf_of_ne hnull, (hfields a (hmem a (hchunk a ha))).2.1,
        if_neg (hother a (hchunk a ha))]
  · intro a ha
    have hnull := hL.ne_null (hmem a (hchunk a ha))
    rw [(hfields a (hmem a (hchunk a ha))).2.2 hnull, hnext, if_neg hnull]
  · exact (List.sublist_cons_self f live).append_left _

/-- The left neighbour takes in the freed block; what came behind it is on no list any more. -/
theorem Layout.mergeLeft {f l : U64} {pre post : List U64}
    (hL : Layout h (pre ++ l :: post) (f :: live) area)
    (hadjacent : start l + h.extent l = start f) :
    Layout (Mylib.mergeLeft h f l NULL) (pre ++ [l]) live area ∧
    (post = [] → ∀ sum, Full h (pre ++ l :: post) (f :: live) area sum →
      Full (Mylib.mergeLeft h f l NULL) (pre ++ [l]) live area sum) ∧
    ∀ a ∈ pre ++ [l], (Mylib.mergeLeft h f l NULL).extent a =
      if a = l then h.extent l + h.extent f else h.extent a := by
  have hf : f ∈ pre ++ l :: post ++ f :: live := by simp
  have hl : l ∈ pre ++ l :: post ++ f :: live := by simp
  have hf_cs : ∀ a ∈ pre ++ l :: post, a ≠ f := fun a ha =>
    (List.nodup_append.mp hL.nodup).2.2 a ha f (by simp)
  have hlist : h.freeList ≠ f := fun heq =>
    hf_cs _ (hL.freeList_mem (heq ▸ hL.ne_null hf)) heq
  obtain ⟨hfree, hfields⟩ := Heap.mergeLeft_fields hL.all_clear hl hlist
  have hsub : List.Sublist (pre ++ [l] ++ f :: live) (pre ++ l :: post ++ f :: live) := by
    simp only [List.append_assoc, List.cons_append, List.nil_append]
    exact ((List.sublist_append_right post (f :: live)).cons_cons l).append_left pre
  have hcut : IsList (Mylib.mergeLeft h f l NULL).nextOf (Mylib.mergeLeft h f l NULL).prev NULL
      (pre ++ [l]) := by
    have hold : IsList h.nextOf h.prev NULL (pre ++ l :: (post ++ [])) := by
      rw [List.append_nil]
      exact hL.list
    refine hold.cut ?_ ?_
    · intro a ha
      rcases List.mem_cons.mp ha with rfl | ha
      · rw [if_neg (hL.ne_null hl).symm]
        exact hfree
      · have hmem := hsub.subset (List.mem_append_left (f :: live) ha)
        have hnull := hL.ne_null hmem
        rw [Heap.nextOf_of_ne hnull, Heap.nextOf_of_ne hnull]
        exact (hfields a hmem).2.1
    · intro a ha
      have hmem := hsub.subset (List.mem_append_left (f :: live) ha)
      exact (hfields a hmem).2.2 (hL.ne_null hmem)
  -- the blocks that are left when the tail of the list is dropped
  have hold : (pre ++ [l] ++ f :: live).Perm (l :: f :: (pre ++ live)) := by
    rw [List.append_assoc]
    exact List.perm_middle.trans (List.perm_middle.cons l)
  have hnew : (l :: (pre ++ live)).Perm (pre ++ [l] ++ live) := by
    rw [List.append_assoc]
    exact List.perm_middle.symm
  have hother : ∀ a ∈ pre ++ live, a ≠ l := by
    intro a ha heq
    have hnodup := hold.nodup_iff.mp (hL.nodup.sublist hsub)
    exact (List.nodup_cons.mp hnodup).1 (heq ▸ List.mem_cons_of_mem f ha)
  have hmem : ∀ a ∈ pre ++ live, a ∈ pre ++ l :: post ++ f :: live := fun a ha =>
    hsub.subset (hold.mem_iff.mpr (List.mem_cons_of_mem l (List.mem_cons_of_mem f ha)))
  have hkept : ∀ a ∈ pre ++ live, (Mylib.mergeLeft h f l NULL).size a = h.size a := fun a ha =>
    (hfields a (hmem a ha)).1.trans (if_neg (hother a ha))
  obtain ⟨hlayout, hfull, hextents⟩ := hL.merged ⟨_, hold, hsub⟩ hnew hadjacent
    ((hfields l hl).1.trans (if_pos rfl)) hkept hcut
  refine ⟨hlayout, ?_, fun a ha => hextents a (List.mem_append_left live ha)⟩
  intro heq'
  subst heq'
  exact hfull hold

/-- The left neighbour takes in the freed block and the right neighbour, which comes later on the
list; what came between them is on no list any more. -/
theorem Layout.mergeBoth {f l r : U64} {pre mid post : List U64}
    (hL : Layout h (pre ++ l :: (mid ++ r :: post)) (f :: live) area)
    (hleft : start l + h.extent l = start f) (hright : start f + h.extent f = start r) :
    Layout (Mylib.mergeBoth h f l r) (pre ++ l :: post) live area ∧
    (mid = [] → ∀ sum, Full h (pre ++ l :: (mid ++ r :: post)) (f :: live) area sum →
      Full (Mylib.mergeBoth h f l r) (pre ++ l :: post) live area sum) ∧
    ∀ a ∈ pre ++ l :: post, (Mylib.mergeBoth h f l r).extent a =
      if a = l then h.extent l + (h.extent f + h.extent r) else h.extent a := by
  have hf : f ∈ pre ++ l :: (mid ++ r :: post) ++ f :: live := by simp
  have hl : l ∈ pre ++ l :: (mid ++ r :: post) ++ f :: live := by simp
  have hr : r ∈ pre ++ l :: (mid ++ r :: post) ++ f :: live := by simp
  have hf_cs : ∀ a ∈ pre ++ l :: (mid ++ r :: post), a ≠ f := fun a ha =>
    (List.nodup_append.mp hL.nodup).2.2 a ha f (by simp)
  have hlist : h.freeList ≠ f := fun heq =>
    hf_cs _ (hL.freeList_mem (heq ▸ hL.ne_null hf)) heq
  have hnext : h.next r = headOr NULL post := by
    have hsplit : Layout h ((pre ++ l :: mid) ++ r :: post) (f :: live) area := by
      simpa using hL
    exact hsplit.node.2.2
  have hnext_mem : h.next r ≠ NULL →
      h.next r ∈ pre ++ l :: (mid ++ r :: post) ++ f :: live := fun hne =>
    List.mem_append_left _ (hL.next_mem (by simp) hne)
  have hrl : r ≠ l := by
    intro heq
    have hnodup := hL.list.nodup
    simp [heq, List.nodup_append] at hnodup
  obtain ⟨hfree, hfields⟩ := Heap.mergeBoth_fields hL.all_clear hl hr hrl hlist hnext_mem
  have hsub : List.Sublist (pre ++ l :: r :: post ++ f :: live)
      (pre ++ l :: (mid ++ r :: post) ++ f :: live) :=
    ((((List.sublist_append_right mid (r :: post)).cons_cons l).append_left pre).append_right _)
  have hmem_list : ∀ a ∈ pre ++ l :: post,
      a ∈ pre ++ l :: (mid ++ r :: post) ++ f :: live := by
    have hsub_list : List.Sublist (pre ++ l :: post) (pre ++ l :: (mid ++ r :: post)) :=
      (((List.sublist_cons_self r post).trans
        (List.sublist_append_right mid (r :: post))).cons_cons l).append_left pre
    exact fun a ha => List.mem_append_left _ (hsub_list.subset ha)
  have hcut : IsList (Mylib.mergeBoth h f l r).nextOf (Mylib.mergeBoth h f l r).prev NULL
      (pre ++ l :: post) := by
    have hold : IsList h.nextOf h.prev NULL (pre ++ l :: ((mid ++ [r]) ++ post)) := by
      rw [List.append_assoc]
      exact hL.list
    refine hold.cut ?_ ?_
    · intro a ha
      rcases List.mem_cons.mp ha with rfl | ha
      · rw [if_neg (hL.ne_null hl).symm]
        exact hfree
      · have hnull := hL.ne_null (hmem_list a ha)
        rw [Heap.nextOf_of_ne hnull, Heap.nextOf_of_ne hnull, ← hnext]
        exact (hfields a (hmem_list a ha)).2.1
    · intro a ha
      rw [← hnext]
      exact (hfields a (hmem_list a ha)).2.2 (hL.ne_null (hmem_list a ha))
  have hold : (pre ++ l :: r :: post ++ f :: live).Perm (f :: r :: l :: (pre ++ post ++ live)) :=
    List.perm_iff_count.mpr fun a => by simp only [List.count_append, List.count_cons]; omega
  have hnew : (l :: (pre ++ post ++ live)).Perm (pre ++ l :: post ++ live) := by
    rw [List.append_assoc, List.append_assoc]
    exact List.perm_middle.symm
  have hend₁ : start f + h.extent f + h.extent r ≤ 2 ^ 64 := hright ▸ (hL.header r hr).no_wrap
  have hend₂ : start l + h.extent l + (h.extent f + h.extent r) ≤ 2 ^ 64 := by omega
  have hsum : (h.size f + h.size r).toNat = h.extent f + h.extent r :=
    size_add (hL.header f hf) hend₁
  have hgrown : (Mylib.mergeBoth h f l r).extent l =
      h.extent l + (h.extent f + h.extent r) := by
    have hadd := size_add (hL.header l hl) (v := h.size l) (w := h.size f + h.size r)
      (by rw [hsum]; exact hend₂)
    exact (congrArg BitVec.toNat ((hfields l hl).1.trans (if_pos rfl))).trans
      (hadd.trans (congrArg _ hsum))
  have hnodup := hold.nodup_iff.mp (hL.nodup.sublist hsub)
  simp only [List.nodup_cons, List.mem_cons, not_or] at hnodup
  obtain ⟨⟨hfr, hfl, hf_rest⟩, ⟨-, hr_rest⟩, hl_rest, -⟩ := hnodup
  have hmem : ∀ a ∈ l :: (pre ++ post ++ live),
      a ∈ pre ++ l :: (mid ++ r :: post) ++ f :: live := fun a ha =>
    hsub.subset (hold.mem_iff.mpr (List.mem_cons_of_mem f (List.mem_cons_of_mem r ha)))
  have hkept : ∀ a ∈ pre ++ post ++ live, (Mylib.mergeBoth h f l r).size a = h.size a := by
    intro a ha
    have hne : a ≠ l := fun heq => hl_rest (heq ▸ ha)
    exact (hfields a (hmem a (List.mem_cons_of_mem l ha))).1.trans (if_neg hne)
  have hextent : ∀ a ∈ pre ++ post ++ live, (Mylib.mergeBoth h f l r).extent a = h.extent a :=
    fun a ha => congrArg BitVec.toNat (hkept a ha)
  -- first `f` takes in `r`, then `l` takes in `f`
  let size₁ : U64 → Nat := fun a => if a = f then h.extent f + h.extent r else h.extent a
  have hsize₁ : ∀ a ∈ l :: (pre ++ post ++ live), size₁ a = h.extent a := by
    intro a ha
    have hne : a ≠ f := by
      intro heq'
      subst heq'
      rcases List.mem_cons.mp ha with heq | ha
      · exact hfl heq
      · exact hf_rest ha
    exact if_neg hne
  have hsize₁_f : size₁ f = h.extent f + h.extent r := if_pos rfl
  have hsize₁_l : size₁ l = h.extent l := hsize₁ l (by simp)
  have hadjacent : start l + size₁ l = start f := by rw [hsize₁_l, hleft]
  have hgrown₁ : (Mylib.mergeBoth h f l r).extent l = size₁ l + size₁ f := by
    rw [hgrown, hsize₁_l, hsize₁_f]
  have hrest₁ : ∀ a ∈ pre ++ post ++ live, (Mylib.mergeBoth h f l r).extent a = size₁ a :=
    fun a ha => (hextent a ha).trans (hsize₁ a (List.mem_cons_of_mem l ha)).symm
  refine ⟨⟨hcut, fun a ha => ?_, ?_⟩, ?_, fun a ha => ?_⟩
  · rcases List.mem_cons.mp (hnew.mem_iff.mpr ha) with rfl | ha
    · have hf8 := (hL.header f hf).size_aligned
      have hr8 := (hL.header r hr).size_aligned
      exact (hL.header a hl).grow (by omega) hend₂ hgrown
    · exact (hL.header a (hmem a (List.mem_cons_of_mem l ha))).congr (hkept a ha)
  · have htiling := ((hL.tiling.sublist hsub).perm hold).merge hright hsize₁_f hsize₁
    exact ((htiling.perm (List.Perm.swap l f _)).merge hadjacent hgrown₁ hrest₁).perm hnew
  · rintro rfl sum hF
    have hexact := (Blocks.Exact.perm hF hold).merge hright hsize₁_f hsize₁
    exact ((hexact.perm (List.Perm.swap l f _)).merge hadjacent hgrown₁ hrest₁).perm hnew
  · have hmem := hnew.mem_iff.mpr (List.mem_append_left live ha)
    split_ifs with heq
    · rw [heq, hgrown]
    · exact hextent a (List.mem_of_ne_of_mem heq hmem)

end GemOS.Mylib
