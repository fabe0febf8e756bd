import Mathlib.Tactic.SplitIfs
import GemOS.Vm.Areas

/-!
# Ordered areas

The invariant of the area list: behind the first area come page-aligned areas in increasing order
that do not overlap. It has a parameter, `AreaKind`: the least size of an area, where areas end and
which access they have. The list stands for a map from addresses to access rights, `HasAccess`.
-/

namespace GemOS.Vm

/-! ## Lengths -/

theorem mask_bit : ∀ i : Fin 32, (~~~(0xFFF : CInt)).getLsbD i = decide (12 ≤ i.val) := by
  decide

/-- Masking out the low bits clears them. -/
theorem and_mask (n : CInt) : n &&& ~~~(0xFFF : CInt) = (n >>> 12) <<< 12 := by
  refine BitVec.eq_of_getLsbD_eq fun i hi => ?_
  have hbit := mask_bit ⟨i, hi⟩
  simp only at hbit
  rw [BitVec.getLsbD_and, hbit, BitVec.getLsbD_shiftLeft, BitVec.getLsbD_ushiftRight]
  by_cases h : 12 ≤ i
  · have hi' : 12 + (i - 12) = i := by omega
    simp [h, hi, hi', Nat.not_lt.mpr h]
  · simp [h, Nat.not_le.mp h]

/-- The largest `int` whose rounding does not overflow. -/
def MAX_LENGTH : Nat := 2 ^ 31 - 4096

theorem mmapAreaEnd_toNat : MMAP_AREA_END.toNat = 34326183936 := by decide

/-- A walk does not look at the bits above the mmap area. -/
theorem mmapAreaEnd_lt : MMAP_AREA_END.toNat < 2 ^ 48 := by decide

/-- A number of bytes rounded up to whole pages. -/
def pageCeil (n : Nat) : Nat :=
  (n + 4095) / 4096 * 4096

theorem widen_toNat {n : CInt} (hn : n.toNat < 2 ^ 31) : (widen n).toNat = n.toNat := by
  have hmsb : n.msb = false := BitVec.msb_eq_false_iff_two_mul_lt.mpr (by omega)
  rw [widen, BitVec.signExtend_eq_setWidth_of_msb_false hmsb, BitVec.toNat_setWidth]
  exact Nat.mod_eq_of_lt (by omega)

/-- Rounding, in `int` arithmetic. -/
theorem alignedLength_shift (length : CInt) :
    (alignedLength length).toNat = (length + 0xFFF).toNat / 4096 * 4096 := by
  rw [alignedLength, and_mask, BitVec.toNat_shiftLeft, BitVec.toNat_ushiftRight,
    Nat.shiftRight_eq_div_pow, Nat.shiftLeft_eq]
  have := (length + 0xFFF).isLt
  omega

/-- The rounded length of an `int` that leaves room for it. -/
theorem alignedLength_pageCeil {length : CInt} (hle : length.toNat ≤ MAX_LENGTH) :
    (alignedLength length).toNat = pageCeil length.toNat := by
  unfold MAX_LENGTH at hle
  rw [alignedLength_shift, BitVec.toNat_add_of_lt (by simp; omega)]
  rfl

/-- The rounded length, as an operand of `u64` arithmetic. -/
theorem alignedLength_toNat {length : CInt} (hle : length.toNat ≤ MAX_LENGTH) :
    (widen (alignedLength length)).toNat = pageCeil length.toNat := by
  have haligned := alignedLength_pageCeil hle
  unfold MAX_LENGTH at hle
  rw [widen_toNat, haligned]
  rw [haligned, pageCeil]
  omega

/-- An `int` that is not negative. -/
theorem toNat_lt_of_nonneg {n : CInt} (hn : ¬ n.toInt < 0) : n.toNat < 2 ^ 31 := by
  rw [BitVec.toInt_eq_toNat_cond] at hn
  split_ifs at hn <;> omega

/-- The rounded length of a larger `int` overflows. -/
theorem alignedLength_min {length : CInt} (hlen : ¬ length.toInt < 0)
    (hmax : MAX_LENGTH < length.toNat) : alignedLength length = 0x80000000 := by
  have hlt := toNat_lt_of_nonneg hlen
  unfold MAX_LENGTH at hmax
  have hvalue : (0x80000000 : CInt).toNat = 2 ^ 31 := rfl
  rw [← BitVec.toNat_inj, alignedLength_shift, BitVec.toNat_add_of_lt (by simp; omega), hvalue]
  show (length.toNat + 4095) / 4096 * 4096 = 2 ^ 31
  omega

/-- Whole pages, in a range whose size is an `int`. -/
structure PageRange (addrStart addrEnd : U64) : Prop where
  start_aligned : addrStart.toNat % 4096 = 0
  end_aligned : addrEnd.toNat % 4096 = 0
  le : addrStart.toNat ≤ addrEnd.toNat
  size : addrEnd.toNat < addrStart.toNat + 2 ^ 31

/-! ## The invariant -/

/-- What is asked of the areas of a list: their least size, where they end at most, and their
access. -/
structure AreaKind where
  least : Nat
  top : Nat
  flags : U32 → Prop

/-- The kinds of areas that `vm_area_map` and `vm_area_mprotect` keep to. -/
structure AreaKind.ForMmap (k : AreaKind) : Prop where
  least_le : k.least ≤ 4096
  top_eq : k.top = MMAP_AREA_END.toNat
  flags_good : ∀ prot : U32, prot = 1 ∨ prot = 3 → k.flags prot

/-- Areas of one kind, page by page in increasing order from `lo` on. -/
def Ordered (k : AreaKind) : Nat → List VmArea → Prop
  | lo, [] => lo % 4096 = 0 ∧ lo ≤ k.top
  | lo, a :: rest => lo % 4096 = 0 ∧ lo ≤ a.vmStart.toNat ∧ a.vmStart.toNat % 4096 = 0 ∧
      a.vmStart.toNat + k.least ≤ a.vmEnd.toNat ∧ k.flags a.accessFlags ∧
      Ordered k a.vmEnd.toNat rest

variable {k : AreaKind} {lo : Nat} {areas rest : List VmArea} {memptr next prev : VmArea}
variable {addr len : U64} {prot : U32} {a e x : Nat}

/-- Where the areas of a list start. -/
theorem Ordered.low (h : Ordered k lo areas) : lo % 4096 = 0 ∧ lo ≤ k.top := by
  induction areas generalizing lo with
  | nil => exact h
  | cons a rest ih =>
      obtain ⟨hlo, hle, _, hsize, _, hrest⟩ := h
      have := (ih hrest).2
      exact ⟨hlo, by omega⟩

/-- The areas leave room for a lower bound. -/
theorem Ordered.mono {lo' : Nat} (h : Ordered k lo areas) (hle : lo' ≤ lo)
    (haligned : lo' % 4096 = 0) : Ordered k lo' areas := by
  cases areas with
  | nil => exact ⟨haligned, Nat.le_trans hle h.2⟩
  | cons a rest =>
      obtain ⟨_, hstart, hrest⟩ := h
      exact ⟨haligned, Nat.le_trans hle hstart, hrest⟩

/-- The bounds of one of the areas. -/
theorem Ordered.bounds (h : Ordered k lo areas) {v : VmArea} (hv : v ∈ areas) :
    lo ≤ v.vmStart.toNat ∧ v.vmStart.toNat % 4096 = 0 ∧ v.vmStart.toNat + k.least ≤ v.vmEnd.toNat ∧
      v.vmEnd.toNat % 4096 = 0 ∧ v.vmEnd.toNat ≤ k.top := by
  induction areas generalizing lo with
  | nil => cases hv
  | cons a rest ih =>
      obtain ⟨_, hle, hstart, hsize, _, hrest⟩ := h
      have hlow := hrest.low
      rcases List.mem_cons.mp hv with rfl | hv
      · exact ⟨hle, hstart, hsize, hlow⟩
      · have := ih hrest hv
        exact ⟨by omega, this.2⟩

/-- Address `x` lies in an area with access `prot`. -/
def HasAccess (areas : List VmArea) (x : Nat) (prot : U32) : Prop :=
  ∃ a ∈ areas, a.vmStart.toNat ≤ x ∧ x < a.vmEnd.toNat ∧ a.accessFlags = prot

@[simp] theorem hasAccess_nil : HasAccess [] x prot ↔ False := by
  simp [HasAccess]

@[simp] theorem hasAccess_cons {a : VmArea} : HasAccess (a :: rest) x prot ↔
    (a.vmStart.toNat ≤ x ∧ x < a.vmEnd.toNat ∧ a.accessFlags = prot) ∨ HasAccess rest x prot := by
  simp [HasAccess]

theorem hasAccess_append : HasAccess (areas ++ rest) x prot ↔
    HasAccess areas x prot ∨ HasAccess rest x prot := by
  simp only [HasAccess, List.mem_append, or_and_right, exists_or]

/-- Addresses with access lie at or above the first area. -/
theorem Ordered.le_of_access (h : Ordered k lo areas) (hx : HasAccess areas x prot) : lo ≤ x := by
  induction areas generalizing lo with
  | nil => exact (hasAccess_nil.mp hx).elim
  | cons a rest ih =>
      obtain ⟨_, hstart, _, hsize, _, hrest⟩ := h
      rcases hasAccess_cons.mp hx with hx | hx
      · omega
      · have := ih hrest hx
        omega

/-- A list that starts with `memptr`, which may have grown at its end if it has access `prot`. -/
def Extends (k : AreaKind) (prot : U32) (memptr : VmArea) (areas : List VmArea) : Prop :=
  ∃ first rest, areas = first :: rest ∧ first.vmStart = memptr.vmStart ∧
    first.accessFlags = memptr.accessFlags ∧ memptr.vmEnd.toNat ≤ first.vmEnd.toNat ∧
    (memptr.accessFlags ≠ prot → first = memptr) ∧ Ordered k first.vmEnd.toNat rest

/-- An edit of the areas behind the first one leaves the list ordered. -/
theorem Extends.ordered (h : Extends k prot memptr areas)
    (hold : Ordered k lo (memptr :: rest)) : Ordered k lo areas := by
  obtain ⟨first, rest', rfl, hstart, hflags, hend, _, hrest⟩ := h
  obtain ⟨hlo, hle, haligned, hsize, hprot, _⟩ := hold
  rw [← hstart] at hle haligned hsize
  exact ⟨hlo, hle, haligned, by omega, hflags ▸ hprot, hrest⟩

/-- An area with other access stays in front of an edited list. -/
theorem Extends.cons_of (h : Ordered k memptr.vmEnd.toNat areas) :
    Extends k prot memptr (memptr :: areas) :=
  ⟨memptr, areas, rfl, rfl, rfl, Nat.le_refl _, fun _ => rfl, h⟩

/-! ## Joined areas -/

/-- Two areas with access `prot`, one right behind the other, become one. -/
inductive Join (prot : U32) : List VmArea → List VmArea → Prop
  | head {v next : VmArea} {rest : List VmArea} (htouch : v.vmEnd = next.vmStart)
      (hv : v.accessFlags = prot) (hnext : next.accessFlags = prot) :
      Join prot (v :: next :: rest) ({ v with vmEnd := next.vmEnd } :: rest)
  | tail {v : VmArea} {areas areas' : List VmArea} (h : Join prot areas areas') :
      Join prot (v :: areas) (v :: areas')

variable {areas' : List VmArea}

theorem Join.ordered (h : Join prot areas areas') (hold : Ordered k lo areas) :
    Ordered k lo areas' := by
  induction h generalizing lo with
  | head htouch _ _ =>
      obtain ⟨hlo, hle, hstart, hsize, hflags, _, hle', _, hsize', _, hrest⟩ := hold
      have htouch' := congrArg BitVec.toNat htouch
      exact ⟨hlo, hle, hstart, by simp only; omega, hflags, hrest⟩
  | tail _ ih =>
      obtain ⟨hlo, hle, hstart, hsize, hflags, hrest⟩ := hold
      exact ⟨hlo, hle, hstart, hsize, hflags, ih hrest⟩

/-- The access rights stay. -/
theorem Join.access {f : U32} (h : Join prot areas areas')
    (hold : ∀ v ∈ areas, v.vmStart.toNat ≤ v.vmEnd.toNat) :
    HasAccess areas' x f ↔ HasAccess areas x f := by
  induction h with
  | @head v next rest htouch hv hnext =>
      have hsize := hold v (by simp)
      have hsize' := hold next (by simp)
      rw [← htouch] at hsize'
      rw [hasAccess_cons, hasAccess_cons, hasAccess_cons, ← or_assoc, hnext, hv, ← htouch]
      refine or_congr_left ⟨fun ⟨hlow, hhigh, hf⟩ => ?_, fun hx => ?_⟩
      · rcases Nat.lt_or_ge x v.vmEnd.toNat with hlt | hge
        · exact Or.inl ⟨hlow, hlt, hf⟩
        · exact Or.inr ⟨hge, hhigh, hf⟩
      · rcases hx with ⟨hlow, hhigh, hf⟩ | ⟨hlow, hhigh, hf⟩
        · exact ⟨hlow, Nat.lt_of_lt_of_le hhigh hsize', hf⟩
        · exact ⟨Nat.le_trans hsize hlow, hhigh, hf⟩
  | tail _ ih =>
      rw [hasAccess_cons, hasAccess_cons, ih fun v hv => hold v (List.mem_cons_of_mem _ hv)]

theorem Extends.start_le (h : Extends k prot memptr areas)
    (hsize : memptr.vmStart.toNat ≤ memptr.vmEnd.toNat) :
    ∀ v ∈ areas, v.vmStart.toNat ≤ v.vmEnd.toNat := by
  obtain ⟨first, rest, rfl, hstart, _, hend, _, hrest⟩ := h
  intro v hv
  rcases List.mem_cons.mp hv with rfl | hv
  · rw [hstart]
    exact Nat.le_trans hsize hend
  · have := (hrest.bounds hv).2.2.1
    omega

/-- The first area may grow over the next one. -/
theorem Extends.join (h : Extends k prot memptr areas) (hjoin : Join prot areas areas') :
    Extends k prot memptr areas' := by
  obtain ⟨first, rest, rfl, hstart, hflags, hend, hsame, hrest⟩ := h
  cases hjoin with
  | head htouch hfirst _ =>
      obtain ⟨_, hle, _, hsize, _, hrest⟩ := hrest
      have hgrows : first.vmEnd.toNat ≤ _ := Nat.le_trans hle (Nat.le_of_add_right_le hsize)
      exact ⟨_, _, rfl, hstart, hflags, Nat.le_trans hend hgrows,
        fun hne => absurd (hflags.symm.trans hfirst) hne, hrest⟩
  | tail htail => exact ⟨first, _, rfl, hstart, hflags, hend, hsame, htail.ordered hrest⟩

end GemOS.Vm
