import GemOS.Lib.Blocks
import GemOS.Mylib.Memalloc

/-!
# Fields of chunks

What the stores of the allocator do to the fields of blocks. Blocks with room for the three
fields that do not overlap have different fields (`all_clear_of_tiling`), so each edit has one
lemma that gives all fields of all blocks afterwards.
-/

namespace GemOS.Mylib

open DoublyLinked

/-! ## Fields of separate blocks -/

/-- The link words of `x` are no fields of `b` and the other way round, unless they are the same
field. -/
structure Clear (x b : U64) : Prop where
  next_size : x + 8 ≠ b
  prev_size : x + 16 ≠ b
  size_next : x ≠ b + 8
  prev_next : x + 16 ≠ b + 8
  size_prev : x ≠ b + 16
  next_prev : x + 8 ≠ b + 16

/-- The start of a block. -/
abbrev start (b : U64) : Nat := b.toNat

/-- The size of a block. -/
abbrev Heap.extent (h : Heap) (b : U64) : Nat := (h.size b).toNat

/-- A well-formed block: not at `NULL`, aligned, with room for the three fields, and not
wrapping. -/
structure Header (h : Heap) (b : U64) : Prop where
  nonzero : b ≠ NULL
  aligned : start b % 8 = 0
  size_aligned : h.extent b % 8 = 0
  min_size : 24 ≤ h.extent b
  no_wrap : start b + h.extent b ≤ 2 ^ 64

/-- The fields of two blocks that do not overlap are different words. -/
theorem clear_of_apart {x b : U64} (hx : start x + 24 ≤ 2 ^ 64) (hb : start b + 24 ≤ 2 ^ 64)
    (hsep : x = b ∨ start x + 24 ≤ start b ∨ start b + 24 ≤ start x) : Clear x b := by
  simp only [start] at hx hb hsep
  constructor <;> bv_omega

/-- The fields of the blocks of a list are different words. -/
def AllClear (bs : List U64) : Prop :=
  ∀ x ∈ bs, ∀ b ∈ bs, Clear x b

/-- Blocks of a tiling that have room for the fields. -/
theorem all_clear_of_tiling {size : U64 → Nat} {bs : List U64} {area : Set Nat}
    (htiling : Blocks.Tiling start size bs area)
    (hroom : ∀ b ∈ bs, 24 ≤ size b ∧ start b + size b ≤ 2 ^ 64) : AllClear bs := by
  intro x hx b hb
  have hxr := hroom x hx
  have hbr := hroom b hb
  refine clear_of_apart (by omega) (by omega) ?_
  by_cases heq : x = b
  · exact Or.inl heq
  · have := htiling.forall_apart hx hb heq
    unfold Blocks.Apart at this
    omega

namespace Heap

variable {h : Heap} {x b v : U64}

@[simp] theorem size_setSize : (h.setSize x v).size b = if b = x then v else h.size b := by
  simp [setSize, size, Function.update_apply]

@[simp] theorem next_setNext : (h.setNext x v).next b = if b = x then v else h.next b := by
  simp [setNext, next, Function.update_apply]

@[simp] theorem prev_setPrev : (h.setPrev x v).prev b = if b = x then v else h.prev b := by
  simp [setPrev, prev, Function.update_apply]

/-- Only the last of two stores to the same word counts. -/
theorem setSize_setSize (v w : U64) : (h.setSize x v).setSize x w = h.setSize x w := by
  have hmem : Function.update (Function.update h.mem x v) x w = Function.update h.mem x w := by
    rw [Function.update_idem]
  exact congrArg (fun mem => ({ h with mem := mem } : Heap)) hmem

/-- Storing the size that is there changes nothing. -/
theorem setSize_size : h.setSize x (h.size x) = h :=
  congrArg (fun mem => ({ h with mem := mem } : Heap)) (Function.update_eq_self x h.mem)

@[simp] theorem freeList_setSize : (h.setSize x v).freeList = h.freeList := rfl

@[simp] theorem freeList_setNext : (h.setNext x v).freeList = h.freeList := rfl

theorem size_setNext (hc : Clear x b) : (h.setNext x v).size b = h.size b :=
  Function.update_of_ne (Ne.symm hc.next_size) _ _

theorem size_setPrev (hc : Clear x b) : (h.setPrev x v).size b = h.size b :=
  Function.update_of_ne (Ne.symm hc.prev_size) _ _

theorem next_setSize (hc : Clear x b) : (h.setSize x v).next b = h.next b :=
  Function.update_of_ne (Ne.symm hc.size_next) _ _

theorem next_setPrev (hc : Clear x b) : (h.setPrev x v).next b = h.next b :=
  Function.update_of_ne (Ne.symm hc.prev_next) _ _

theorem prev_setSize (hc : Clear x b) : (h.setSize x v).prev b = h.prev b :=
  Function.update_of_ne (Ne.symm hc.size_prev) _ _

theorem prev_setNext (hc : Clear x b) : (h.setNext x v).prev b = h.prev b :=
  Function.update_of_ne (Ne.symm hc.next_prev) _ _

/-- The successor of a chunk, with the list pointer as the successor of `NULL`. -/
def nextOf (h : Heap) (c : U64) : U64 :=
  if c = NULL then h.freeList else h.next c

theorem nextOf_of_ne (hb : b ≠ NULL) : h.nextOf b = h.next b :=
  if_neg hb

/-! ## The edits of the allocator, field by field -/

section Edits

variable {S : List U64} (hS : AllClear S)

include hS

/-- Setting a back link. -/
theorem setPrevOf_fields {chunk : U64} (value : U64) (hchunk : chunk ≠ NULL → chunk ∈ S) :
    ∀ b ∈ S, (h.setPrevOf chunk value).size b = h.size b ∧
      (h.setPrevOf chunk value).next b = h.next b ∧
      (b ≠ NULL → (h.setPrevOf chunk value).prev b = if b = chunk then value else h.prev b) := by
  intro b hb
  unfold setPrevOf
  by_cases hnull : chunk = NULL
  · have hkept : b ≠ NULL → b ≠ chunk := fun hne => hnull ▸ hne
    rw [if_neg (not_not.mpr hnull)]
    exact ⟨rfl, rfl, fun hne => (if_neg (hkept hne)).symm⟩
  · have hc := hS chunk (hchunk hnull) b hb
    rw [if_pos hnull]
    exact ⟨size_setPrev hc, next_setPrev hc, fun _ => prev_setPrev⟩

omit hS in
@[simp] theorem freeList_setPrevOf {chunk value : U64} :
    (h.setPrevOf chunk value).freeList = h.freeList := by
  unfold setPrevOf
  split_ifs <;> rfl

/-- Going past a chunk. -/
theorem bypass_fields {current : U64} (hprev : h.prev current ≠ NULL → h.prev current ∈ S) :
    (h.bypass current).freeList = (if h.prev current = NULL then h.next current else h.freeList) ∧
    ∀ b ∈ S, (h.bypass current).size b = h.size b ∧ (h.bypass current).prev b = h.prev b ∧
      (b ≠ NULL → (h.bypass current).next b =
        if b = h.prev current then h.next current else h.next b) := by
  unfold bypass
  by_cases hnull : h.prev current = NULL
  · rw [if_neg (not_not.mpr hnull), if_pos hnull]
    refine ⟨rfl, fun b _ => ⟨rfl, rfl, fun hne => ?_⟩⟩
    rw [if_neg (fun heq => hne (heq.trans hnull))]
    rfl
  · rw [if_pos hnull, if_neg hnull]
    refine ⟨rfl, fun b hb => ?_⟩
    have hc := hS _ (hprev hnull) b hb
    exact ⟨size_setNext hc, prev_setNext hc, fun _ => next_setNext⟩

/-- Taking a chunk off the list changes the link of the chunk before it, or the list pointer,
and the back link of the chunk after it. -/
theorem unlink_fields {current : U64} (hcurrent : current ∈ S) (hne : current ≠ NULL)
    (hprev : h.prev current ≠ NULL → h.prev current ∈ S) (hself : h.prev current ≠ current)
    (hnext : h.next current ≠ NULL → h.next current ∈ S) :
    (h.unlink current).freeList = (if h.prev current = NULL then h.next current else h.freeList) ∧
    ∀ b ∈ S, (h.unlink current).size b = h.size b ∧
      (b ≠ NULL → (h.unlink current).next b =
        if b = h.prev current then h.next current else h.next b) ∧
      (b ≠ NULL → (h.unlink current).prev b =
        if b = h.next current then h.prev current else h.prev b) := by
  obtain ⟨hlist, hbypass⟩ := bypass_fields hS hprev
  obtain ⟨_, hprev_cur, hnext_cur⟩ := hbypass current hcurrent
  rw [if_neg (Ne.symm hself)] at hnext_cur
  have hunlink : h.unlink current =
      (h.bypass current).setPrevOf (h.next current) (h.prev current) := by
    show (h.bypass current).setPrevOf _ _ = _
    rw [hnext_cur hne, hprev_cur]
  have hset := setPrevOf_fields (h := h.bypass current) hS (h.prev current) hnext
  rw [hunlink]
  refine ⟨freeList_setPrevOf.trans hlist, fun b hb => ?_⟩
  obtain ⟨hsize, hnext_b, hprev_b⟩ := hset b hb
  obtain ⟨hsize', hprev_b', hnext_b'⟩ := hbypass b hb
  exact ⟨hsize.trans hsize', fun hb0 => hnext_b.trans (hnext_b' hb0),
    fun hb0 => by rw [hprev_b hb0, hprev_b']⟩

/-- A new head of the list. -/
theorem pushFront_fields {chunk : U64} (chunkSize : U64) (hchunk : chunk ∈ S)
    (hlist : h.freeList ≠ NULL → h.freeList ∈ S) :
    (h.pushFront chunk chunkSize).freeList = chunk ∧
    ∀ b ∈ S, (h.pushFront chunk chunkSize).size b = (if b = chunk then chunkSize else h.size b) ∧
      (h.pushFront chunk chunkSize).next b = (if b = chunk then h.freeList else h.next b) ∧
      (b ≠ NULL → (h.pushFront chunk chunkSize).prev b =
        if b = h.freeList then chunk else if b = chunk then NULL else h.prev b) := by
  have hset := setPrevOf_fields
    (h := ((h.setSize chunk chunkSize).setNext chunk h.freeList).setPrev chunk NULL) hS chunk hlist
  refine ⟨rfl, fun b hb => ?_⟩
  obtain ⟨hsize, hnext, hprev⟩ := hset b hb
  have hc := hS chunk hchunk b hb
  refine ⟨hsize.trans ?_, hnext.trans ?_, fun hb0 => (hprev hb0).trans ?_⟩
  · rw [size_setPrev hc, size_setNext hc, size_setSize]
  · rw [next_setPrev hc, next_setNext, next_setSize hc]
  · rw [prev_setPrev, prev_setNext hc, prev_setSize hc]

/-- A block becomes a chunk on no list. -/
theorem makeChunk_fields {chunk : U64} (chunkSize : U64) (hchunk : chunk ∈ S) :
    ∀ b ∈ S, (h.makeChunk chunk chunkSize).size b = (if b = chunk then chunkSize else h.size b) ∧
      (h.makeChunk chunk chunkSize).next b = (if b = chunk then NULL else h.next b) ∧
      (h.makeChunk chunk chunkSize).prev b = (if b = chunk then NULL else h.prev b) := by
  intro b hb
  have hc := hS chunk hchunk b hb
  unfold makeChunk
  refine ⟨?_, ?_, ?_⟩
  · rw [size_setNext hc, size_setPrev hc, size_setSize]
  · rw [next_setNext, next_setPrev hc, next_setSize hc]
  · rw [prev_setNext hc, prev_setPrev, prev_setSize hc]

/-- A chunk becomes the head of the list. -/
theorem linkFront_fields {chunk : U64} (hchunk : chunk ∈ S)
    (hlist : h.freeList ≠ NULL → h.freeList ∈ S) :
    (h.linkFront chunk).freeList = chunk ∧
    ∀ b ∈ S, (h.linkFront chunk).size b = h.size b ∧
      (h.linkFront chunk).next b = (if b = chunk then h.freeList else h.next b) ∧
      (b ≠ NULL → (h.linkFront chunk).prev b = if b = h.freeList then chunk else h.prev b) := by
  have hset := setPrevOf_fields (h := h.setNext chunk h.freeList) hS chunk hlist
  refine ⟨rfl, fun b hb => ?_⟩
  obtain ⟨hsize, hnext, hprev⟩ := hset b hb
  have hc := hS chunk hchunk b hb
  refine ⟨hsize.trans (size_setNext hc), hnext.trans next_setNext, fun hb0 => ?_⟩
  exact (hprev hb0).trans (by rw [prev_setNext hc])

/-- A chunk takes in a neighbour: a new size and a new link, and the back link of the chunk it
now points to. -/
def absorb (h : Heap) (chunk newSize newNext : U64) : Heap :=
  ((h.setSize chunk newSize).setNext chunk newNext).setPrevOf newNext chunk

theorem absorb_fields {chunk newNext : U64} (newSize : U64) (hchunk : chunk ∈ S)
    (hnew : newNext ≠ NULL → newNext ∈ S) :
    (h.absorb chunk newSize newNext).freeList = h.freeList ∧
    ∀ b ∈ S, (h.absorb chunk newSize newNext).size b = (if b = chunk then newSize else h.size b) ∧
      (h.absorb chunk newSize newNext).next b = (if b = chunk then newNext else h.next b) ∧
      (b ≠ NULL → (h.absorb chunk newSize newNext).prev b =
        if b = newNext then chunk else h.prev b) := by
  have hset := setPrevOf_fields (h := (h.setSize chunk newSize).setNext chunk newNext) hS chunk hnew
  refine ⟨freeList_setPrevOf, fun b hb => ?_⟩
  obtain ⟨hsize, hnext, hprev⟩ := hset b hb
  have hc := hS chunk hchunk b hb
  refine ⟨hsize.trans ?_, hnext.trans ?_, fun hb0 => (hprev hb0).trans ?_⟩
  · rw [size_setNext hc, size_setSize]
  · rw [next_setNext, next_setSize hc]
  · rw [prev_setNext hc, prev_setSize hc]

/-- The freed block takes in its right neighbour `r` and its place on the list. -/
theorem mergeRight_fields {freed r : U64} (hfreed : freed ∈ S) (hr : r ∈ S) (hne : r ≠ freed)
    (hnext : h.next r ≠ NULL → h.next r ∈ S) :
    (mergeRight h freed r).freeList = (if h.freeList = r then freed else h.freeList) ∧
    ∀ b ∈ S, (mergeRight h freed r).size b =
        (if b = freed then h.size freed + h.size r else h.size b) ∧
      (mergeRight h freed r).next b = (if b = freed then h.next r else h.next b) ∧
      (b ≠ NULL → (mergeRight h freed r).prev b = if b = h.next r then freed else h.prev b) := by
  have hc := hS freed hfreed r hr
  have hnext₁ : ∀ v, (h.setSize freed v).next r = h.next r := fun v => next_setSize hc
  have hnext₂ : ∀ v w, ((h.setSize freed v).setNext freed w).next r = h.next r := by
    intro v w
    rw [next_setNext, if_neg hne, hnext₁]
  obtain ⟨hfree, hfields⟩ := absorb_fields (h := h) hS (h.size freed + h.size r) hfreed hnext
  by_cases hhead : h.freeList = r
  · have hmerge : mergeRight h freed r =
        { h.absorb freed (h.size freed + h.size r) (h.next r) with freeList := freed } := by
      simp only [mergeRight, absorb, hnext₁, hnext₂, freeList_setPrevOf, freeList_setNext,
        freeList_setSize, if_pos hhead]
    rw [hmerge, if_pos hhead]
    exact ⟨rfl, hfields⟩
  · have hmerge : mergeRight h freed r =
        h.absorb freed (h.size freed + h.size r) (h.next r) := by
      simp only [mergeRight, absorb, hnext₁, hnext₂, freeList_setPrevOf, freeList_setNext,
        freeList_setSize, if_neg hhead]
    rw [hmerge, if_neg hhead]
    exact ⟨hfree, hfields⟩

/-- The left neighbour `l` takes in the freed block and its right neighbour `r`. -/
theorem mergeBoth_fields {freed l r : U64} (hl : l ∈ S) (hr : r ∈ S) (hne : r ≠ l)
    (hlist : h.freeList ≠ freed) (hnext : h.next r ≠ NULL → h.next r ∈ S) :
    (mergeBoth h freed l r).freeList = h.freeList ∧
    ∀ b ∈ S, (mergeBoth h freed l r).size b =
        (if b = l then h.size l + (h.size freed + h.size r) else h.size b) ∧
      (mergeBoth h freed l r).next b = (if b = l then h.next r else h.next b) ∧
      (b ≠ NULL → (mergeBoth h freed l r).prev b = if b = h.next r then l else h.prev b) := by
  have hc := hS l hl r hr
  have hnext₁ : ∀ v, (h.setSize l v).next r = h.next r := fun v => next_setSize hc
  have hnext₂ : ∀ v w, ((h.setSize l v).setNext l w).next r = h.next r := by
    intro v w
    rw [next_setNext, if_neg hne, hnext₁]
  have hmerge : mergeBoth h freed l r =
      h.absorb l (h.size l + (h.size freed + h.size r)) (h.next r) := by
    simp only [mergeBoth, absorb, hnext₁, hnext₂, freeList_setPrevOf, freeList_setNext,
      freeList_setSize, if_neg hlist]
  rw [hmerge]
  exact absorb_fields hS _ hl hnext

/-- The left neighbour `l` takes in the freed block, and the list ends with it. -/
theorem mergeLeft_fields {freed l : U64} (hl : l ∈ S) (hlist : h.freeList ≠ freed) :
    (mergeLeft h freed l NULL).freeList = h.freeList ∧
    ∀ b ∈ S, (mergeLeft h freed l NULL).size b =
        (if b = l then h.size l + h.size freed else h.size b) ∧
      (mergeLeft h freed l NULL).next b = (if b = l then NULL else h.next b) ∧
      (b ≠ NULL → (mergeLeft h freed l NULL).prev b = if b = NULL then l else h.prev b) := by
  have hmerge : mergeLeft h freed l NULL = h.absorb l (h.size l + h.size freed) NULL := by
    simp only [mergeLeft, absorb, freeList_setPrevOf, freeList_setNext, freeList_setSize,
      if_neg hlist]
  rw [hmerge]
  exact absorb_fields hS _ hl fun hne => absurd rfl hne

end Edits

end Heap

end GemOS.Mylib
