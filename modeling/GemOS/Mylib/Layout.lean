import GemOS.Mylib.Fields

/-!
# Layout of the heap

`Layout h cs live area` says that `cs` are the chunks on the free list of `h`, linked both ways,
and that these chunks and the blocks `live` are well-formed blocks that do not overlap and lie in
`area`; `Full` says that they leave nothing of `area` out. There is one lemma for each edit of
the allocator: it moves blocks between the two lists, splits or merges them.
-/

namespace GemOS.Mylib

open DoublyLinked

/-! ## Layout -/

/-- The chunks `cs` are linked in the free list; they and the blocks `live` are well formed and
do not overlap in `area`. -/
structure Layout (h : Heap) (cs live : List U64) (area : Set Nat) : Prop where
  list : IsList h.nextOf h.prev NULL cs
  header : ∀ b ∈ cs ++ live, Header h b
  tiling : Blocks.Tiling start h.extent (cs ++ live) area

/-- Chunks and live blocks fill `area`, which has `sum` bytes. -/
abbrev Full (h : Heap) (cs live : List U64) (area : Set Nat) (sum : Nat) : Prop :=
  Blocks.Exact start h.extent (cs ++ live) area sum

section Edits

variable {h h' : Heap} {cs cs' live live' : List U64} {area : Set Nat} {sum : Nat}

theorem Layout.all_clear (hL : Layout h cs live area) : AllClear (cs ++ live) :=
  all_clear_of_tiling hL.tiling fun b hb => ⟨(hL.header b hb).min_size, (hL.header b hb).no_wrap⟩

theorem Layout.nodup (hL : Layout h cs live area) : (cs ++ live).Nodup :=
  hL.tiling.nodup

theorem Layout.mono {area' : Set Nat} (hL : Layout h cs live area) (harea : area ⊆ area') :
    Layout h cs live area' :=
  ⟨hL.list, hL.header, hL.tiling.mono harea⟩

theorem Header.congr {b : U64} (hb : Header h b) (hsize : h'.size b = h.size b) : Header h' b := by
  have hextent : h'.extent b = h.extent b := congrArg BitVec.toNat hsize
  exact ⟨hb.nonzero, hb.aligned, hextent ▸ hb.size_aligned, hextent ▸ hb.min_size,
    hextent ▸ hb.no_wrap⟩

/-- The addresses of the link words of a block. -/
theorem Header.words {b : U64} (hb : Header h b) :
    (b + 8).toNat = start b + 8 ∧ (b + 16).toNat = start b + 16 := by
  have hmin := hb.min_size
  have hwrap := hb.no_wrap
  simp only [start, Heap.extent] at *
  constructor <;> bv_omega

/-- The pointer to the payload of a block is not null. -/
theorem Header.payload_ne {b : U64} (hb : Header h b) : b + ALLOC_MEM_METADATA ≠ NULL := by
  intro heq
  have hzero : (b + 8).toNat = 0 := congrArg BitVec.toNat heq
  have := hb.words.1
  omega

/-- An edit of the list that moves chunks from one side to the other and keeps all sizes. -/
theorem Layout.relist (hL : Layout h cs live area) (hperm : (cs ++ live).Perm (cs' ++ live'))
    (hsize : ∀ b ∈ cs ++ live, h'.size b = h.size b) (hlist : IsList h'.nextOf h'.prev NULL cs') :
    Layout h' cs' live' area where
  list := hlist
  header b hb := (hL.header b (hperm.mem_iff.mpr hb)).congr (hsize b (hperm.mem_iff.mpr hb))
  tiling := (hL.tiling.congr fun b hb => congrArg BitVec.toNat (hsize b hb)).perm hperm

theorem Full.relist (hF : Full h cs live area sum) (hperm : (cs ++ live).Perm (cs' ++ live'))
    (hsize : ∀ b ∈ cs ++ live, h'.size b = h.size b) : Full h' cs' live' area sum :=
  (Blocks.Exact.congr hF fun b hb => congrArg BitVec.toNat (hsize b hb)).perm hperm

/-- The neighbours of a chunk on the list. -/
theorem Layout.node {pre post : List U64} {c : U64} (hL : Layout h (pre ++ c :: post) live area) :
    c ≠ NULL ∧ h.prev c = lastOr NULL pre ∧ h.next c = headOr NULL post := by
  obtain ⟨hc, hprev, hnext⟩ := hL.list.node
  exact ⟨hc, hprev, Heap.nextOf_of_ne hc ▸ hnext⟩

/-- A chunk is taken off a list whose chunks have separate fields: the others stay linked, and no
size changes. -/
theorem Heap.unlink_of_list {pre post S : List U64} {c : U64} (hS : AllClear S)
    (hlist : IsList h.nextOf h.prev NULL (pre ++ c :: post))
    (hsub : ∀ b ∈ pre ++ c :: post, b ∈ S) :
    (∀ b ∈ S, (h.unlink c).size b = h.size b) ∧
    IsList (h.unlink c).nextOf (h.unlink c).prev NULL (pre ++ post) := by
  obtain ⟨hc, hprev, hnext⟩ := hlist.node
  rw [Heap.nextOf_of_ne hc] at hnext
  have hprev_mem : h.prev c ≠ NULL → h.prev c ∈ S := by
    intro hne
    have := lastOr_mem (hprev ▸ hne)
    exact hsub _ (by simp [hprev, this])
  have hnext_mem : h.next c ≠ NULL → h.next c ∈ S := by
    intro hne
    have := headOr_mem (hnext ▸ hne)
    exact hsub _ (by simp [hnext, this])
  have hself : h.prev c ≠ c := by
    rw [hprev]
    exact (lastOr_ne hlist.nodup (by simp)).symm
  obtain ⟨hfree, hfields⟩ :=
    Heap.unlink_fields hS (hsub c (by simp)) hc hprev_mem hself hnext_mem
  have hne : ∀ a ∈ pre ++ post, a ≠ NULL ∧ a ∈ S := by
    intro a ha
    have hmem : a ∈ pre ++ c :: post := by
      simp only [List.mem_append, List.mem_cons] at ha ⊢
      tauto
    exact ⟨fun heq => (List.nodup_cons.mp hlist.nodup).1 (heq ▸ hmem), hsub a hmem⟩
  refine ⟨fun b hb => (hfields b hb).1, hlist.remove ?_ ?_⟩
  · intro a ha
    rw [← hprev, ← hnext]
    by_cases hnull : a = NULL
    · subst hnull
      simp only [Heap.nextOf, if_true, hfree, eq_comm]
    · obtain ⟨_, hmem⟩ := hne a (List.mem_of_ne_of_mem hnull ha)
      rw [Heap.nextOf_of_ne hnull, Heap.nextOf_of_ne hnull, (hfields a hmem).2.1 hnull]
  · intro a ha
    obtain ⟨hnull, hmem⟩ := hne a ha
    rw [← hprev, ← hnext, (hfields a hmem).2.2 hnull]

/-- Taking a chunk off the list. -/
theorem Layout.unlink {pre post : List U64} {c : U64}
    (hL : Layout h (pre ++ c :: post) live area) :
    (∀ b ∈ pre ++ c :: post ++ live, (h.unlink c).size b = h.size b) ∧
    Layout (h.unlink c) (pre ++ post) (c :: live) area := by
  obtain ⟨hsize, hlist⟩ := Heap.unlink_of_list hL.all_clear hL.list fun b hb =>
    List.mem_append_left live hb
  refine ⟨hsize, hL.relist ?_ hsize hlist⟩
  exact List.perm_iff_count.mpr fun a => by simp [List.count_cons]; omega

/-- The free list is empty or starts with a chunk. -/
theorem Heap.freeList_of_list (hlist : IsList h.nextOf h.prev NULL cs) :
    h.freeList ≠ NULL → h.freeList ∈ cs := by
  have hhead : h.freeList = headOr NULL cs := hlist.head_eq
  intro hne
  rw [hhead] at hne ⊢
  exact headOr_mem hne

theorem Layout.freeList_mem (hL : Layout h cs live area) : h.freeList ≠ NULL → h.freeList ∈ cs :=
  Heap.freeList_of_list hL.list

/-- A chunk is the last one or is followed by a chunk. -/
theorem Layout.next_mem {c : U64} (hL : Layout h cs live area) (hc : c ∈ cs) :
    h.next c ≠ NULL → h.next c ∈ cs := by
  obtain ⟨pre, post, rfl⟩ := List.append_of_mem hc
  intro hne
  rw [hL.node.2.2] at hne ⊢
  have := headOr_mem hne
  simp [this]

/-- No block of the layout is at `NULL`. -/
theorem Layout.ne_null (hL : Layout h cs live area) {b : U64} (hb : b ∈ cs ++ live) : b ≠ NULL :=
  (hL.header b hb).nonzero

/-- A live block becomes a chunk on no list; its link fields are set, and nothing else changes. -/
theorem Layout.makeChunk {f : U64} (hL : Layout h cs live area) (hf : f ∈ live) :
    Layout (h.makeChunk f (h.size f)) cs live area ∧
    (h.makeChunk f (h.size f)).freeList = h.freeList ∧
    (h.makeChunk f (h.size f)).prev f = NULL ∧
    ∀ b ∈ cs ++ live, (h.makeChunk f (h.size f)).size b = h.size b ∧
      (b ∈ cs → (h.makeChunk f (h.size f)).next b = h.next b) := by
  have hfields := Heap.makeChunk_fields (h := h) hL.all_clear (h.size f)
    (List.mem_append_right cs hf)
  have hother : ∀ b ∈ cs, b ≠ f := fun b hb heq =>
    (List.nodup_append.mp hL.nodup).2.2 b hb f hf heq
  have hsize : ∀ b ∈ cs ++ live, (h.makeChunk f (h.size f)).size b = h.size b := by
    intro b hb
    rw [(hfields b hb).1]
    split_ifs with heq
    · rw [heq]
    · rfl
  have hnext : ∀ b ∈ cs, (h.makeChunk f (h.size f)).next b = h.next b := by
    intro b hb
    rw [(hfields b (List.mem_append_left live hb)).2.1, if_neg (hother b hb)]
  refine ⟨hL.relist (List.Perm.refl _) hsize (hL.list.congr ?_ ?_), rfl, ?_,
    fun b hb => ⟨hsize b hb, hnext b⟩⟩
  · intro a ha
    obtain rfl | ha := List.mem_cons.mp ha
    · rfl
    · have hnull := hL.ne_null (List.mem_append_left live ha)
      rw [Heap.nextOf_of_ne hnull, Heap.nextOf_of_ne hnull, hnext a ha]
  · intro a ha
    rw [(hfields a (List.mem_append_left live ha)).2.2, if_neg (hother a ha)]
  · rw [(hfields f (List.mem_append_right cs hf)).2.2, if_pos rfl]

/-- A block off the list becomes the first chunk. -/
theorem Layout.linkFront {f : U64} (hL : Layout h cs (f :: live) area) (hprev : h.prev f = NULL) :
    (∀ b ∈ cs ++ f :: live, (h.linkFront f).size b = h.size b) ∧
    Layout (h.linkFront f) (f :: cs) live area := by
  have hf : f ∈ cs ++ f :: live := by simp
  have hf_null := hL.ne_null hf
  have hf_cs : f ∉ cs := fun hmem =>
    (List.nodup_append.mp hL.nodup).2.2 f hmem f (by simp) rfl
  obtain ⟨hlist, hfields⟩ := Heap.linkFront_fields hL.all_clear hf fun hne =>
    List.mem_append_left _ (hL.freeList_mem hne)
  have hmem : ∀ a ∈ f :: cs, a ∈ cs ++ f :: live ∧ a ≠ NULL := by
    intro a ha
    have hmem : a ∈ cs ++ f :: live := by
      simp only [List.mem_cons, List.mem_append] at ha ⊢
      tauto
    exact ⟨hmem, hL.ne_null hmem⟩
  have hsize := fun b hb => (hfields b hb).1
  refine ⟨hsize, hL.relist List.perm_middle hsize (hL.list.pushFront hf_null hf_cs hlist ?_ ?_)⟩
  · intro a ha
    obtain ⟨hmem, hnull⟩ := hmem a ha
    rw [Heap.nextOf_of_ne hnull, Heap.nextOf_of_ne hnull, (hfields a hmem).2.1]
    rfl
  · intro a ha
    obtain ⟨hmem, hnull⟩ := hmem a ha
    rw [(hfields a hmem).2.2 hnull]
    by_cases heq : a = f
    · subst heq
      rw [if_pos rfl, hprev]
      rfl
    · rw [if_neg heq]
      rfl

/-- A block off the list is cut, and its second part becomes the first chunk. -/
theorem Layout.split {c m n : U64} (hL : Layout h cs (c :: live) area)
    (hsum : h.extent c = m.toNat + n.toNat) (hm : 24 ≤ m.toNat) (hn : 24 ≤ n.toNat)
    (hm8 : m.toNat % 8 = 0) :
    Layout ((h.setSize c m).pushFront (c + m) n) ((c + m) :: cs) (c :: live) area ∧
    (∀ sum, Full h cs (c :: live) area sum →
      Full ((h.setSize c m).pushFront (c + m) n) ((c + m) :: cs) (c :: live) area sum) ∧
    ∀ b ∈ (c + m) :: cs ++ c :: live, ((h.setSize c m).pushFront (c + m) n).extent b =
      if b = c + m then n.toNat else if b = c then m.toNat else h.extent b := by
  have hold : (cs ++ c :: live).Perm (c :: (cs ++ live)) := List.perm_middle
  have hnew : (c :: (c + m) :: (cs ++ live)).Perm ((c + m) :: cs ++ c :: live) :=
    (List.Perm.swap _ _ _).trans (hold.symm.cons _)
  have hheader := hL.header c (by simp)
  have hwrap := hheader.no_wrap
  have hstart : start (c + m) = start c + m.toNat := by
    unfold start at *
    rw [BitVec.toNat_add, Nat.mod_eq_of_lt]
    omega
  have hcut : c + m ≠ c := by
    intro heq
    have : start (c + m) = start c := congrArg BitVec.toNat heq
    omega
  have hrest : ∀ b ∈ cs ++ live, b ≠ c ∧ b ≠ c + m := by
    intro b hb
    have htiling := hL.tiling.perm hold
    have hne : b ≠ c := fun heq => (List.nodup_cons.mp htiling.nodup).1 (heq ▸ hb)
    refine ⟨hne, fun heq => ?_⟩
    have hpos := htiling.pos b (List.mem_cons_of_mem c hb)
    have hapart := htiling.forall_apart (List.mem_cons_of_mem c hb) (by simp) hne
    rw [heq] at hpos hapart
    unfold Blocks.Apart at hapart
    omega
  -- the sizes afterwards, before it is known that the heap has them
  let size' : U64 → Nat := fun b =>
    if b = c + m then n.toNat else if b = c then m.toNat else h.extent b
  have hsize_cut : size' (c + m) = n.toNat := if_pos rfl
  have hsize_c : size' c = m.toNat := by simp only [size', if_neg hcut.symm, if_true]
  have hsize_rest : ∀ b ∈ cs ++ live, size' b = h.extent b := by
    intro b hb
    simp only [size', if_neg (hrest b hb).1, if_neg (hrest b hb).2]
  have htiling : Blocks.Tiling start size' (c :: (c + m) :: (cs ++ live)) area :=
    (hL.tiling.perm hold).split (by rw [hsize_c, hstart]) (by rw [hsize_c, hsize_cut, hsum])
      (by omega) (by omega) hsize_rest
  have hclear : AllClear ((c + m) :: cs ++ c :: live) := by
    refine all_clear_of_tiling (htiling.perm hnew) fun b hb => ?_
    rcases List.mem_cons.mp (hnew.mem_iff.mpr hb) with rfl | hb
    · rw [hsize_c]
      exact ⟨hm, by omega⟩
    · rcases List.mem_cons.mp hb with rfl | hb
      · rw [hsize_cut]
        exact ⟨hn, by omega⟩
      · have hb' := hL.header b (hold.mem_iff.mpr (List.mem_cons_of_mem c hb))
        rw [hsize_rest b hb]
        exact ⟨hb'.min_size, hb'.no_wrap⟩
  have hmem_cut : c + m ∈ (c + m) :: cs ++ c :: live := by simp
  have hmem_c : c ∈ (c + m) :: cs ++ c :: live := by simp
  obtain ⟨hlist, hpush⟩ := Heap.pushFront_fields (h := h.setSize c m) hclear n
    hmem_cut fun hne => List.mem_append_left _ (List.mem_cons_of_mem _ (hL.freeList_mem hne))
  have hextent : ∀ b ∈ (c + m) :: cs ++ c :: live,
      ((h.setSize c m).pushFront (c + m) n).extent b = size' b := by
    intro b hb
    show (Heap.size _ b).toNat = _
    rw [(hpush b hb).1, Heap.size_setSize]
    simp only [size']
    split_ifs <;> rfl
  have hheaders : ∀ b ∈ (c + m) :: cs ++ c :: live,
      Header ((h.setSize c m).pushFront (c + m) n) b := by
    intro b hb
    rcases List.mem_cons.mp (hnew.mem_iff.mpr hb) with rfl | hb'
    · refine ⟨hheader.nonzero, hheader.aligned, ?_, ?_, ?_⟩ <;>
        rw [hextent _ hmem_c, hsize_c] <;> omega
    · rcases List.mem_cons.mp hb' with rfl | hb'
      · have haligned := hheader.aligned
        have hsize8 := hheader.size_aligned
        have hnonzero : c + m ≠ NULL := by
          intro heq
          have : start (c + m) = 0 := congrArg BitVec.toNat heq
          omega
        refine ⟨hnonzero, by omega, ?_, ?_, ?_⟩ <;>
          rw [hextent _ hmem_cut, hsize_cut] <;> omega
      · have hold_header := hL.header b (hold.mem_iff.mpr (List.mem_cons_of_mem c hb'))
        refine hold_header.congr (BitVec.eq_of_toNat_eq ?_)
        exact (hextent b hb).trans (hsize_rest b hb')
  refine ⟨⟨hL.list.pushFront (hheaders _ hmem_cut).nonzero ?_ hlist ?_ ?_, hheaders,
    (htiling.perm hnew).congr hextent⟩, fun sum hF => ?_, hextent⟩
  · exact fun hmem => (hrest _ (List.mem_append_left live hmem)).2 rfl
  · intro a ha
    have ha' := List.mem_append_left (c :: live) ha
    have hnull := (hheaders a ha').nonzero
    rw [Heap.nextOf_of_ne hnull, Heap.nextOf_of_ne hnull, (hpush a ha').2.1,
      Heap.next_setSize (hclear c hmem_c a ha')]
    rfl
  · intro a ha
    have ha' := List.mem_append_left (c :: live) ha
    rw [(hpush a ha').2.2 (hheaders a ha').nonzero, Heap.prev_setSize (hclear c hmem_c a ha')]
    rfl
  · have hexact := (Blocks.Exact.perm hF hold).split (c := c + m) (by rw [hsize_c, hstart])
      (by rw [hsize_c, hsize_cut, hsum]) hsize_rest
    exact (hexact.perm hnew).congr hextent

/-- A new region is a new live block of its own. -/
theorem Layout.addRegion {base length : U64} (hL : Layout h cs live area)
    (hbase : base ≠ NULL) (haligned : start base % 8 = 0) (hlength : length.toNat % 8 = 0)
    (hmin : 24 ≤ length.toNat) (hwrap : start base + length.toNat ≤ 2 ^ 64)
    (hfresh : ∀ x ∈ area, ¬ (start base ≤ x ∧ x < start base + length.toNat))
    {area' : Set Nat}
    (harea : ∀ x, x ∈ area' ↔ x ∈ area ∨ start base ≤ x ∧ x < start base + length.toNat) :
    Layout ((h.mapRegion base length).setSize base length) cs (base :: live) area' ∧
    (∀ sum, Full h cs live area sum →
      Full ((h.mapRegion base length).setSize base length) cs (base :: live) area'
        (length.toNat + sum)) ∧
    ∀ b ∈ cs ++ live, ((h.mapRegion base length).setSize base length).size b = h.size b := by
  -- no word of an old block is overwritten
  have hword : ∀ b ∈ cs ++ live, ∀ a : U64, start b ≤ a.toNat → a.toNat < start b + 24 →
      ((h.mapRegion base length).setSize base length).mem a = h.mem a := by
    intro b hb a hle hlt
    have hmin_b := (hL.header b hb).min_size
    have hin := hfresh a.toNat (hL.tiling.inside b hb _ ⟨hle, by omega⟩)
    have hne : a ≠ base := by
      intro heq
      subst heq
      exact hin ⟨Nat.le_refl _, Nat.lt_add_of_pos_right (by omega)⟩
    have hout : ¬ a - base < length := by
      intro hlt
      simp only [start] at hin hwrap
      bv_omega
    refine (Function.update_of_ne hne _ _).trans ?_
    exact if_neg hout
  have hfields : ∀ b ∈ cs ++ live,
      ((h.mapRegion base length).setSize base length).size b = h.size b ∧
      ((h.mapRegion base length).setSize base length).next b = h.next b ∧
      ((h.mapRegion base length).setSize base length).prev b = h.prev b := by
    intro b hb
    obtain ⟨h8, h16⟩ := (hL.header b hb).words
    exact ⟨hword b hb b (Nat.le_refl _) (by simp only [start]; omega),
      hword b hb (b + 8) (by omega) (by omega), hword b hb (b + 16) (by omega) (by omega)⟩
  have hsize : ((h.mapRegion base length).setSize base length).size base = length := by
    rw [Heap.size_setSize, if_pos rfl]
  have hextent : ((h.mapRegion base length).setSize base length).extent base = length.toNat :=
    congrArg BitVec.toNat hsize
  have hkept : ∀ b ∈ cs ++ live,
      ((h.mapRegion base length).setSize base length).extent b = h.extent b := fun b hb =>
    congrArg BitVec.toNat (hfields b hb).1
  have hholds : ∀ x, Blocks.Holds start
      ((h.mapRegion base length).setSize base length).extent base x ↔
      start base ≤ x ∧ x < start base + length.toNat := by
    intro x
    unfold Blocks.Holds
    rw [hextent]
  have hperm : (base :: (cs ++ live)).Perm (cs ++ base :: live) := List.perm_middle.symm
  have harea' : ∀ x, x ∈ area' ↔ x ∈ area ∨ Blocks.Holds start
      ((h.mapRegion base length).setSize base length).extent base x := by
    intro x
    rw [hholds, harea]
  refine ⟨⟨hL.list.congr ?_ ?_, fun b hb => ?_, ?_⟩, fun sum hF => ?_,
    fun b hb => (hfields b hb).1⟩
  · intro a ha
    rcases List.mem_cons.mp ha with rfl | ha
    · rfl
    · have hnull := hL.ne_null (List.mem_append_left live ha)
      rw [Heap.nextOf_of_ne hnull, Heap.nextOf_of_ne hnull]
      exact (hfields a (List.mem_append_left live ha)).2.1
  · exact fun a ha => (hfields a (List.mem_append_left live ha)).2.2
  · rcases List.mem_cons.mp (hperm.mem_iff.mpr hb) with rfl | hb
    · exact ⟨hbase, haligned, by rw [hextent]; exact hlength, by rw [hextent]; exact hmin,
        by rw [hextent]; exact hwrap⟩
    · exact (hL.header b hb).congr (hfields b hb).1
  · refine (hL.tiling.add (by omega) (fun x hx => ?_) harea' hkept).perm hperm
    rw [hholds]
    exact hfresh x hx
  · have hexact := (Blocks.Exact.add hF harea' hkept).perm hperm
    rwa [hextent] at hexact

/-- A write into the payload of a live block changes no size. -/
theorem Layout.store_size {b a : U64} (word : U64) (hL : Layout h cs live area) (hb : b ∈ live)
    (hlow : start b + 8 ≤ a.toNat) (hhigh : a.toNat + 8 ≤ start b + h.extent b) :
    ∀ c ∈ cs ++ live,
      Heap.size { h with mem := Function.update h.mem a word } c = h.size c := by
  intro c hc
  refine Function.update_of_ne (fun heq => ?_) _ _
  have hmin := (hL.header c hc).min_size
  have hne : c ≠ b := by
    intro heq'
    subst heq'
    rw [← heq] at hlow
    simp only [start] at hlow
    omega
  have hapart := hL.tiling.forall_apart hc (List.mem_append_right cs hb) hne
  unfold Blocks.Apart at hapart
  rw [← heq] at hlow hhigh
  simp only [start] at hapart hlow hhigh
  omega

/-- The program may write into the payload of a live block. -/
theorem Layout.store {b a : U64} (word : U64) (hL : Layout h cs live area) (hb : b ∈ live)
    (hlow : start b + 8 ≤ a.toNat) (hhigh : a.toNat + 8 ≤ start b + h.extent b) :
    Layout { h with mem := Function.update h.mem a word } cs live area ∧
    ∀ sum, Full h cs live area sum →
      Full { h with mem := Function.update h.mem a word } cs live area sum := by
  have hsize := hL.store_size word hb hlow hhigh
  have hlink : ∀ c ∈ cs,
      Heap.next { h with mem := Function.update h.mem a word } c = h.next c ∧
      Heap.prev { h with mem := Function.update h.mem a word } c = h.prev c := by
    intro c hc
    have hc' := List.mem_append_left live hc
    have hheader := hL.header c hc'
    have hne : c ≠ b := fun heq => (List.nodup_append.mp hL.nodup).2.2 c hc b hb heq
    have hapart := hL.tiling.forall_apart hc' (List.mem_append_right cs hb) hne
    have hmin := hheader.min_size
    obtain ⟨h8, h16⟩ := hheader.words
    unfold Blocks.Apart at hapart
    constructor <;> refine Function.update_of_ne (fun heq => ?_) _ _ <;>
      rw [← heq] at hlow hhigh <;> omega
  refine ⟨hL.relist (List.Perm.refl _) hsize (hL.list.congr ?_ fun c hc => (hlink c hc).2),
    fun sum hF => Full.relist hF (List.Perm.refl _) hsize⟩
  intro c hc
  rcases List.mem_cons.mp hc with rfl | hc
  · rfl
  · have hnull := hL.ne_null (List.mem_append_left live hc)
    rw [Heap.nextOf_of_ne hnull, Heap.nextOf_of_ne hnull]
    exact (hlink c hc).1

end Edits

end GemOS.Mylib
