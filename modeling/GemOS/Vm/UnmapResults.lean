import GemOS.Vm.MapEffects

/-!
# The result of `vm_area_unmap`

The loop answers `-EINVAL` when the length it keeps has become 0. That happens exactly if the
range ends where an area starts and no memory reaches up to there (`EndsAtArea`): the loop has
then trimmed all areas that the range reaches into (`unmapFrom_endsAtArea`). Any other range is
answered with 0 (`unmapFrom_result_zero`).
-/

namespace GemOS.Vm

variable {s : Space} {memptr : VmArea} {tail areas rest : List VmArea}
variable {addr : U64} {length : CInt} {a e lo pgd : Nat}

/-- Areas in increasing order from `lo` on that do not overlap. -/
def InOrder : Nat → List VmArea → Prop
  | _, [] => True
  | lo, v :: rest => lo ≤ v.vmStart.toNat ∧ v.vmStart.toNat ≤ v.vmEnd.toNat ∧
      InOrder v.vmEnd.toNat rest

/-- Where the areas of a list start. -/
theorem InOrder.le_start (h : InOrder lo areas) : ∀ v ∈ areas, lo ≤ v.vmStart.toNat := by
  induction areas generalizing lo with
  | nil => exact fun v hv => absurd hv List.not_mem_nil
  | cons w rest ih =>
      obtain ⟨hlo, hsize, hrest⟩ := h
      intro v hv
      rcases List.mem_cons.mp hv with rfl | hv
      · exact hlo
      · have := ih hrest v hv
        omega

/-- An address lies in one area at most. -/
theorem InOrder.area_unique {v w : VmArea} (h : InOrder lo areas) (hv : v ∈ areas)
    (hw : w ∈ areas) (hxv : v.vmStart.toNat ≤ a ∧ a < v.vmEnd.toNat)
    (hxw : w.vmStart.toNat ≤ a ∧ a < w.vmEnd.toNat) : v = w := by
  induction areas generalizing lo with
  | nil => cases hv
  | cons u rest ih =>
      obtain ⟨_, _, hrest⟩ := h
      rcases List.mem_cons.mp hv with rfl | hv' <;> rcases List.mem_cons.mp hw with rfl | hw'
      · rfl
      · have := hrest.le_start w hw'
        omega
      · have := hrest.le_start v hv'
        omega
      · exact ih hrest hv' hw'

/-- Areas of one kind are in order. -/
theorem Ordered.inOrder {k : AreaKind} (h : Ordered k lo areas) : InOrder lo areas := by
  induction areas generalizing lo with
  | nil => trivial
  | cons v rest ih =>
      obtain ⟨_, hlo, _, hsize, _, hrest⟩ := h
      exact ⟨hlo, by omega, ih hrest⟩

/-- The first area starts first. -/
theorem InOrder.first_le (h : InOrder lo (memptr :: rest)) :
    ∀ v ∈ memptr :: rest, memptr.vmStart.toNat ≤ v.vmStart.toNat :=
  have hfrom : InOrder memptr.vmStart.toNat (memptr :: rest) := ⟨Nat.le_refl _, h.2⟩
  hfrom.le_start

/-- An area starts at `e`, and none reaches up to `e` from below. -/
def EndsAtArea (e : Nat) (areas : List VmArea) : Prop :=
  (∃ v ∈ areas, v.vmStart.toNat = e) ∧ ∀ v ∈ areas, v.vmStart.toNat < e → v.vmEnd.toNat < e

instance : Decidable (EndsAtArea e areas) :=
  inferInstanceAs (Decidable (_ ∧ _))

/-- An area that starts below `e` and ends before it does not matter. -/
theorem endsAtArea_cons (hstart : memptr.vmStart.toNat < e) (hend : memptr.vmEnd.toNat < e) :
    EndsAtArea e (memptr :: rest) ↔ EndsAtArea e rest := by
  unfold EndsAtArea
  simp only [List.exists_mem_cons_iff, List.forall_mem_cons]
  constructor
  · intro h
    obtain ⟨hsome, _, hnone⟩ := h
    exact ⟨hsome.resolve_left (by omega), hnone⟩
  · intro h
    exact ⟨Or.inr h.1, fun _ => hend, h.2⟩

/-- A loop that has nothing left to unmap. -/
theorem unmapFrom_zero {isHead : Bool} (areas : List VmArea) (hzero : length.toInt ≤ 0) :
    unmapFrom isHead areas addr length = ⟨-EINVAL, areas, 0, []⟩ := by
  cases areas with
  | nil => rfl
  | cons v rest =>
      rw [unmapFrom]
      simp only [hzero, true_or, if_true]

/-- An `int` that is small has its sign bit clear. -/
theorem toInt_nonpos_iff {n : CInt} (hn : n.toNat < 2 ^ 31) : n.toInt ≤ 0 ↔ n.toNat = 0 := by
  rw [BitVec.toInt_eq_toNat_of_lt (by omega)]
  omega

/-- The loop for a range that ends where an area starts behind a gap. -/
theorem unmapFrom_endsAtArea {isHead : Bool} (hold : InOrder lo areas)
    (he : addr.toNat + length.toNat = e) (hlen : length.toNat < 2 ^ 31) (hwrap : e < 2 ^ 64)
    (hends : EndsAtArea e areas) :
    unmapFrom isHead areas addr length =
      ⟨-EINVAL, areas.flatMap (cut addr.toNat e), 0, areas.flatMap (cutRange addr.toNat e)⟩ := by
  induction areas generalizing lo addr length isHead with
  | nil =>
      obtain ⟨⟨v, hv, _⟩, _⟩ := hends
      cases hv
  | cons memptr rest ih =>
      obtain ⟨addr', length', haddr', hlength', he', hlen', hclip⟩ :=
        clip_spec memptr he hlen hwrap
      have hsum : (addr' + widen length').toNat = e := by
        rw [BitVec.toNat_add_of_lt (by rw [widen_toNat hlen']; omega), widen_toNat hlen', he']
      obtain ⟨hlo, hsize, hrest⟩ := id hold
      -- the area at `e` is this one or a later one
      have hlow : memptr.vmStart.toNat ≤ e := by
        obtain ⟨⟨v, hv, rfl⟩, _⟩ := hends
        rcases List.mem_cons.mp hv with rfl | hv
        · exact Nat.le_refl _
        · have := hrest.le_start v hv
          omega
      -- moving the start of the range up to the area does not matter
      have hsame : (memptr :: rest).flatMap (cut addr'.toNat e) =
            (memptr :: rest).flatMap (cut addr.toNat e) ∧
          (memptr :: rest).flatMap (cutRange addr'.toNat e) =
            (memptr :: rest).flatMap (cutRange addr.toNat e) := by
        rcases hclip with ⟨hbelow, _, rfl⟩ | ⟨_, rfl⟩
        · exact flatMap_cut_start (Nat.le_of_lt hbelow) hold.first_le
        · exact ⟨rfl, rfl⟩
      have hin : length'.toNat ≠ 0 → memptr.vmStart.toNat ≤ addr'.toNat := by
        rcases hclip with ⟨_, _, rfl⟩ | ⟨hout, rfl⟩
        · exact fun _ => Nat.le_refl _
        · exact fun _ => hout.resolve_right (by omega)
      rw [← hsame.1, ← hsame.2, unmapFrom]
      simp only [haddr', hlength']
      simp only [toInt_nonpos_iff hlen, toInt_nonpos_iff hlen', BitVec.le_def, ge_iff_le,
        gt_iff_lt, BitVec.lt_def, hsum]
      by_cases hzero : length.toNat = 0 ∨ length'.toNat = 0
      · -- the length is used up: no area reaches into what is left of the range
        have hout : ∀ v ∈ memptr :: rest, ¬ Overlaps addr'.toNat e v := by
          intro v hv
          have : addr'.toNat = e := by
            rcases hclip with ⟨hbelow, _, rfl⟩ | ⟨_, rfl⟩ <;> omega
          unfold Overlaps
          omega
        obtain ⟨hcut, hranges⟩ := flatMap_cut_of_not hout
        rw [if_pos hzero, hcut, hranges]
      · rw [if_neg hzero]
        rw [not_or] at hzero
        have hstart := hin hzero.2
        have hbefore : memptr.vmStart.toNat < e := by omega
        have hend : memptr.vmEnd.toNat < e := hends.2 memptr List.mem_cons_self hbefore
        have hlater := (endsAtArea_cons hbefore hend).mp hends
        obtain ⟨next, rest', rfl⟩ : ∃ next rest', rest = next :: rest' := by
          obtain ⟨⟨v, hv, _⟩, _⟩ := hlater
          exact List.exists_cons_of_ne_nil (List.ne_nil_of_mem hv)
        rw [if_neg (by omega)]
        by_cases hover : addr'.toNat < memptr.vmEnd.toNat
        · -- the range takes the end of this area and goes on behind it
          have hnext : next.vmStart.toNat ≤ e := by
            obtain ⟨⟨v, hv, rfl⟩, _⟩ := hlater
            exact hrest.first_le v hv
          have hbehind : addr'.toNat ≤ next.vmStart.toNat := by
            have := hrest.1
            omega
          have hleft := left_toNat hsum hnext (by omega)
          obtain ⟨hcut, hrange⟩ := cut_from hstart hover hend
          obtain ⟨hcut', hranges'⟩ := flatMap_cut_start (e := e) hbehind hrest.first_le
          have hlist : (memptr :: next :: rest').flatMap (cut addr'.toNat e) =
              { memptr with vmEnd := addr' } :: (next :: rest').flatMap (cut addr'.toNat e) := by
            rw [List.flatMap_cons, hcut, List.singleton_append]
          have hfreed : (memptr :: next :: rest').flatMap (cutRange addr'.toNat e) =
              (addr', memptr.vmEnd) :: (next :: rest').flatMap (cutRange addr'.toNat e) := by
            rw [List.flatMap_cons, hrange, List.singleton_append]
          rw [if_pos ⟨hstart, hover, hend⟩]
          simp only
          rw [if_neg (by omega), ih hrest (by rw [hleft]; omega) (by rw [hleft]; omega) hlater,
            hlist, hfreed, hcut', hranges']
        · -- the range starts behind this area
          obtain ⟨hcut, hranges⟩ := flatMap_cut_skip (next :: rest')
            (not_overlaps_before (a := addr'.toNat) (e := e) (Nat.not_lt.mp hover))
          rw [if_neg (by omega), if_neg (by simp; omega), ih hrest he' hlen' hlater, hcut, hranges]

/-- The range ends where the first area starts. -/
theorem InOrder.endsAtArea (h : InOrder lo (memptr :: rest)) :
    EndsAtArea memptr.vmStart.toNat (memptr :: rest) := by
  refine ⟨⟨memptr, List.mem_cons_self, rfl⟩, fun v hv hlt => ?_⟩
  have := h.first_le v hv
  omega

/-- Any other range that is not empty is answered with 0. -/
theorem unmapFrom_result_zero {isHead : Bool} (hold : InOrder lo areas) (hne : areas ≠ [])
    (he : addr.toNat + length.toNat = e) (hlen : length.toNat < 2 ^ 31) (hwrap : e < 2 ^ 64)
    (hpos : 0 < length.toNat) (hends : ¬ EndsAtArea e areas) :
    (unmapFrom isHead areas addr length).result = 0 := by
  induction areas generalizing lo addr length isHead with
  | nil => exact absurd rfl hne
  | cons memptr rest ih =>
      obtain ⟨addr', length', haddr', hlength', he', hlen', hclip⟩ :=
        clip_spec memptr he hlen hwrap
      have hsum : (addr' + widen length').toNat = e := by
        rw [BitVec.toNat_add_of_lt (by rw [widen_toNat hlen']; omega), widen_toNat hlen', he']
      have hfirst : memptr.vmStart.toNat ≠ e := by
        intro hstart
        exact hends (hstart ▸ hold.endsAtArea)
      obtain ⟨hlo, hsize, hrest⟩ := id hold
      have hzero : ¬ (length.toNat = 0 ∨ length'.toNat = 0) := by
        rcases hclip with ⟨hbelow, _, rfl⟩ | ⟨_, rfl⟩ <;> omega
      rw [unmapFrom]
      simp only [haddr', hlength']
      simp only [toInt_nonpos_iff hlen, toInt_nonpos_iff hlen', BitVec.le_def, ge_iff_le,
        gt_iff_lt, BitVec.lt_def, hsum, if_neg hzero]
      rw [not_or] at hzero
      split_ifs with hinside hover hstop
      · rfl
      · -- the range takes the end of this area and goes on behind it
        cases rest with
        | nil => rfl
        | cons next rest' =>
            simp only
            split_ifs with hgap
            · rfl
            · have hbehind := hrest.1
              have hleft := left_toNat hsum (Nat.not_lt.mp hgap) (by omega)
              have hlater : ¬ EndsAtArea e (next :: rest') := fun h =>
                hends ((endsAtArea_cons (by omega) hover.2.2).mpr h)
              have hnext : next.vmStart.toNat ≠ e := by
                intro hstart
                exact hlater (hstart ▸ hrest.endsAtArea)
              exact ih hrest (List.cons_ne_nil _ _) (by rw [hleft]; omega) (by rw [hleft]; omega)
                (by rw [hleft]; omega) hlater
      · rfl
      · -- the range starts behind this area
        rw [not_or] at hstop
        have hstart : memptr.vmStart.toNat ≤ addr'.toNat := by
          rcases hclip with ⟨_, _, rfl⟩ | ⟨hout, rfl⟩
          · exact Nat.le_refl _
          · exact hout.resolve_right hstop.1
        have hlater : ¬ EndsAtArea e rest := fun h =>
          hends ((endsAtArea_cons (by omega) (by omega)).mpr h)
        exact ih hrest hstop.2 he' hlen' (by omega) hlater

/-! ## The call -/

/-- A range that wraps around is taken to lie in the first area. -/
theorem vmAreaUnmap_wrap {s : Areas} (hlist : s.list = dummyNode :: tail)
    (hpos : 0 < length.toInt) (hwrap : 2 ^ 64 ≤ addr.toNat + length.toNat) :
    (vmAreaUnmap s addr length).1 = 0 := by
  have hlen : length.toNat < 2 ^ 31 := toNat_lt_of_nonneg (by omega)
  have haddr := addr.isLt
  have hsum : (addr + widen length).toNat = addr.toNat + length.toNat - 2 ^ 64 := by
    rw [BitVec.toNat_add, widen_toNat hlen, Nat.mod_eq_sub_mod hwrap, Nat.mod_eq_of_lt (by omega)]
  have hstart : dummyNode.vmStart.toNat = 0x180200000 := rfl
  have hend : dummyNode.vmEnd.toNat = 0x180201000 := rfl
  have hbefore : ¬ (addr < dummyNode.vmStart ∧ addr + widen length ≥ dummyNode.vmStart) := by
    intro h
    have := BitVec.lt_def.mp h.1
    omega
  have hinside : dummyNode.vmStart ≤ addr ∧ dummyNode.vmEnd ≥ addr + widen length :=
    ⟨BitVec.le_def.mpr (by omega), BitVec.le_def.mpr (by omega)⟩
  have hnonneg : ¬ length.toInt < 0 := by omega
  have hnonpos : ¬ (length.toInt ≤ 0 ∨ length.toInt ≤ 0) := by omega
  rw [vmAreaUnmap, if_neg hnonneg, hlist, unmapFrom]
  simp only [if_neg hbefore, if_neg hnonpos, if_pos hinside]

/-- The range ends where an area starts behind a gap. -/
def EndsBehindGap (areas : List VmArea) (addr : U64) (length : CInt) : Prop :=
  0 < length.toInt ∧ addr.toNat + length.toNat < 2 ^ 64 ∧
    EndsAtArea (addr.toNat + length.toNat) areas

/-- What is asked of a call: 0 for a range of the mmap area, and no change if it fails. -/
def UnmapAnswers (pgd : Nat) (s : Space) (addr : U64) (length : CInt) : Prop :=
  (MmapRange addr length → (s.unmap pgd addr length).1 = 0) ∧
  ((s.unmap pgd addr length).1 < 0 →
    (s.unmap pgd addr length).2.areas.list = s.areas.list ∧
    (s.unmap pgd addr length).2.areas.numVmArea = s.areas.numVmArea ∧
    ∀ root x, walk (s.unmap pgd addr length).2.machine.table root x = walk s.machine.table root x)

/-- A call that changes nothing and is not asked to succeed. -/
theorem UnmapAnswers.of_same {result : Int} (h : s.unmap pgd addr length = (result, s))
    (hrange : MmapRange addr length → result = 0) : UnmapAnswers pgd s addr length := by
  rw [UnmapAnswers, h]
  exact ⟨hrange, fun _ => ⟨rfl, rfl, fun _ _ => rfl⟩⟩

/-- A call that answers 0. -/
theorem UnmapAnswers.of_zero (h : (s.unmap pgd addr length).1 = 0) :
    UnmapAnswers pgd s addr length :=
  ⟨fun _ => h, fun hneg => absurd hneg (by omega)⟩

theorem unmap_result : (s.unmap pgd addr length).1 = (vmAreaUnmap s.areas addr length).1 := rfl

/-- A call whose range ends behind a gap. -/
theorem unmap_endsBehindGap (hlist : s.areas.list = dummyNode :: tail)
    (hold : InOrder HEAD_END tail) (hends : EndsBehindGap s.areas.list addr length) :
    vmAreaUnmap s.areas addr length = (-EINVAL,
      s.areas.apply ⟨s.areas.list.flatMap (cut addr.toNat (addr.toNat + length.toNat)), 0⟩,
      s.areas.list.flatMap (cutRange addr.toNat (addr.toNat + length.toNat))) := by
  obtain ⟨hpos, hwrap, harea⟩ := hends
  have hnonneg : ¬ length.toInt < 0 := by omega
  have hall : InOrder MMAP_AREA_START.toNat (dummyNode :: tail) :=
    ⟨Nat.le_refl _, Nat.le_of_lt mmapAreaStart_lt_head, hold⟩
  rw [hlist] at harea
  rw [vmAreaUnmap, if_neg hnonneg, hlist,
    unmapFrom_endsAtArea hall rfl (toNat_lt_of_nonneg hnonneg) hwrap harea]

/-- A length that is not positive. -/
theorem vmAreaUnmap_nonpos {s : Areas} (hzero : length.toInt ≤ 0) :
    vmAreaUnmap s addr length = (-EINVAL, s, []) := by
  unfold vmAreaUnmap
  split_ifs
  · rfl
  · simp only [unmapFrom_zero _ hzero, s.apply_same]

/-- A call whose range does not end behind a gap. -/
theorem unmap_not_endsBehindGap (hlist : s.areas.list = dummyNode :: tail)
    (hold : InOrder HEAD_END tail) (hends : ¬ EndsBehindGap s.areas.list addr length) :
    UnmapAnswers pgd s addr length := by
  by_cases hzero : length.toInt ≤ 0
  · have hsame : s.unmap pgd addr length = (-EINVAL, s) := by
      rw [Space.unmap, vmAreaUnmap_nonpos hzero]
      rfl
    refine .of_same hsame fun hrange => ?_
    have hpos := hrange.pos
    have hsmall := hrange.small
    unfold MAX_LENGTH at hsmall
    rw [BitVec.toInt_eq_toNat_of_lt (by omega)] at hzero
    omega
  refine .of_zero ?_
  rw [unmap_result]
  by_cases hwrap : 2 ^ 64 ≤ addr.toNat + length.toNat
  · exact vmAreaUnmap_wrap hlist (by omega) hwrap
  · have hnonneg : ¬ length.toInt < 0 := by omega
    have hlen := toNat_lt_of_nonneg hnonneg
    have hpos : 0 < length.toNat := by
      rw [toInt_nonpos_iff hlen] at hzero
      omega
    have hall : InOrder MMAP_AREA_START.toNat (dummyNode :: tail) :=
      ⟨Nat.le_refl _, Nat.le_of_lt mmapAreaStart_lt_head, hold⟩
    have harea : ¬ EndsAtArea (addr.toNat + length.toNat) (dummyNode :: tail) := by
      intro harea
      exact hends ⟨by omega, by omega, hlist ▸ harea⟩
    rw [vmAreaUnmap, if_neg hnonneg, hlist]
    exact unmapFrom_result_zero hall (List.cons_ne_nil _ _) rfl hlen (by omega) hpos harea

/-- Cutting out a range that an area reaches into changes the list. -/
theorem flatMap_cut_ne {v : VmArea} (hv : v ∈ areas) (hover : Overlaps a e v) :
    areas.flatMap (cut a e) ≠ areas := by
  intro hsame
  obtain ⟨hlow, hhigh⟩ := Nat.lt_min.mp hover
  have hmem : HasAccess areas (max a v.vmStart.toNat) v.accessFlags :=
    ⟨v, hv, Nat.le_max_right .., hhigh, rfl⟩
  have hgone := (hsame ▸ hasAccess_flatMap_cut).mp hmem
  exact hgone.2 ⟨Nat.le_max_left .., hlow⟩

/-- `vm_area_unmap` answers as it should exactly if it is not asked to unmap up to the start of an
area behind a gap, or at least need not succeed and finds no memory in the range. -/
theorem unmap_answers_iff (hlist : s.areas.list = dummyNode :: tail)
    (hold : InOrder HEAD_END tail) :
    UnmapAnswers pgd s addr length ↔
      (EndsBehindGap s.areas.list addr length → ¬ MmapRange addr length ∧
        ∀ v ∈ s.areas.list, ¬ Overlaps addr.toNat (addr.toNat + length.toNat) v) := by
  by_cases hends : EndsBehindGap s.areas.list addr length
  · have heq := unmap_endsBehindGap hlist hold hends
    have hfail : (s.unmap pgd addr length).1 = -EINVAL := by
      rw [unmap_result, heq]
    constructor
    · intro hanswers _
      refine ⟨fun hrange => ?_, fun v hv hover => ?_⟩
      · exact absurd (hfail.symm.trans (hanswers.1 hrange)) (by decide)
      · have hsame := (hanswers.2 (by rw [hfail]; decide)).1
        rw [Space.unmap, heq] at hsame
        exact flatMap_cut_ne hv hover hsame
    · intro hgood
      obtain ⟨hrange, hout⟩ := hgood hends
      obtain ⟨hcut, hranges⟩ := flatMap_cut_of_not hout
      have hsame : s.unmap pgd addr length = (-EINVAL, s) := by
        rw [Space.unmap, heq, hcut, hranges, s.areas.apply_same]
        rfl
      exact .of_same hsame fun h => absurd h hrange
  · exact iff_of_true (unmap_not_endsBehindGap hlist hold hends) fun h => absurd h hends

/-- A range that covers the page and the gap before it. -/
theorem unmap_answers_sample : UnmapAnswers 1 onePageSpace 0x180201000 0x2000 := by
  refine (unmap_answers_iff (s := onePageSpace) rfl ⟨by decide, by decide, trivial⟩).mpr ?_
  intro hends
  exact absurd hends.2.2 (by decide)

/-- The gap before the page is unmapped on its own, and with two areas the first one is unmapped
together with the gap behind it: both calls fail, and the second one has emptied the first area. -/
theorem unmap_fails_at_area :
    let two : Space :=
      ⟨⟨[dummyNode, ⟨0x180201000, 0x180202000, 1⟩, ⟨0x180203000, 0x180204000, 1⟩],
        ⟨0, 0, 0⟩, 3⟩, emptyMachine⟩
    MmapRange 0x180201000 0x1000 ∧ (onePageSpace.unmap 1 0x180201000 0x1000).1 = -EINVAL ∧
    (two.unmap 1 0x180201000 0x2000).1 = -EINVAL ∧
    (two.unmap 1 0x180201000 0x2000).2.areas.list =
      [dummyNode, ⟨0x180201000, 0x180201000, 1⟩, ⟨0x180203000, 0x180204000, 1⟩] ∧
    ¬ UnmapAnswers 1 onePageSpace 0x180201000 0x1000 ∧
    ¬ UnmapAnswers 1 two 0x180201000 0x2000 := by
  intro two
  have hrange : MmapRange 0x180201000 0x1000 :=
    ⟨by decide, by decide, by decide, by decide, by decide⟩
  have hgap : (onePageSpace.unmap 1 0x180201000 0x1000).1 = -EINVAL := by
    rw [unmap_result]
    decide
  have hfail : (two.unmap 1 0x180201000 0x2000).1 = -EINVAL := by
    rw [unmap_result]
    decide
  have hlist : (two.unmap 1 0x180201000 0x2000).2.areas.list =
      [dummyNode, ⟨0x180201000, 0x180201000, 1⟩, ⟨0x180203000, 0x180204000, 1⟩] := by
    show (vmAreaUnmap two.areas 0x180201000 0x2000).2.1.list = _
    decide
  refine ⟨hrange, hgap, hfail, hlist, fun h => ?_, fun h => ?_⟩
  · exact absurd (hgap.symm.trans (h.1 hrange)) (by decide)
  · have hsame := (h.2 (by rw [hfail]; decide)).1
    exact absurd (hlist.symm.trans hsame) (by decide)

end GemOS.Vm
