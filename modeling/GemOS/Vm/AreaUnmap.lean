import Mathlib.Data.List.Basic
import GemOS.Vm.AreaOrder

/-!
# Unmapped memory

The loop of `vm_area_unmap` takes a range out of the areas, up to the next page, and hands all that
was there to `freeAllPFNs` (`unmapFrom_spec`). The induction is on the areas; what stays the same
from one area to the next is the end `e` of the range.
-/

namespace GemOS.Vm

variable {k : AreaKind} {m lo : Nat} {areas rest : List VmArea} {memptr : VmArea} {addr len : U64}
variable {a e x : Nat}

/-! ## The number of areas and the result -/

/-- The count of an edit is the change of the length of the list. -/
theorem unmapInside_count :
    (unmapInside false addr len memptr rest).count =
      (unmapInside false addr len memptr rest).list.length - (memptr :: rest).length := by
  unfold unmapInside
  simp only [Bool.false_eq_true, if_false]
  split_ifs <;> simp only [List.length_cons] <;> omega

theorem unmapFrom_count {length : CInt} :
    (unmapFrom false areas addr length).count =
      (unmapFrom false areas addr length).list.length - areas.length := by
  induction areas generalizing addr length with
  | nil => rfl
  | cons memptr rest ih =>
      rw [unmapFrom]
      simp only
      -- where the range starts, seen from this area on, does not matter
      generalize (if addr < memptr.vmStart ∧ addr + widen length ≥ memptr.vmStart then
        memptr.vmStart else addr) = addr'
      generalize (if addr < memptr.vmStart ∧ addr + widen length ≥ memptr.vmStart then
        (addr + widen length - memptr.vmStart).setWidth 32 else length) = length'
      split_ifs with hzero hinside hover hstop
      · simp
      · exact unmapInside_count
      · cases rest with
        | nil => rfl
        | cons next tail =>
            simp only
            split_ifs with hgap
            · simp
            · rw [ih]
              simp only [List.length_cons]
              omega
      · simp
      · rw [ih]
        simp only [List.length_cons]
        omega

/-- The range lies in one of the areas. -/
theorem unmapFrom_result (hold : Ordered k lo areas) {length : CInt} (hpos : 0 < length.toNat)
    (hlen : length.toNat < 2 ^ 31) {v : VmArea} (hv : v ∈ areas)
    (hstart : v.vmStart.toNat ≤ addr.toNat) (hend : addr.toNat + length.toNat ≤ v.vmEnd.toNat) :
    (unmapFrom false areas addr length).result = 0 := by
  have hsum : (addr + widen length).toNat = addr.toNat + length.toNat := by
    have := v.vmEnd.isLt
    rw [BitVec.toNat_add_of_lt (by rw [widen_toNat hlen]; omega), widen_toNat hlen]
  have hnonpos : ¬ length.toInt ≤ 0 := by
    rw [BitVec.toInt_eq_toNat_of_lt (by omega)]
    omega
  induction areas generalizing lo with
  | nil => cases hv
  | cons memptr rest ih =>
      obtain ⟨_, _, _, hsize, _, hrest⟩ := hold
      -- the areas before `v` end before the range
      have hbefore : v ∈ rest → memptr.vmEnd.toNat ≤ addr.toNat := by
        intro hv
        have := (hrest.bounds hv).1
        omega
      have hle : memptr.vmStart.toNat ≤ addr.toNat := by
        rcases List.mem_cons.mp hv with rfl | hv
        · exact hstart
        · have := hbefore hv
          omega
      have hclip : ¬ (addr < memptr.vmStart ∧ addr + widen length ≥ memptr.vmStart) := fun h =>
        absurd (BitVec.lt_def.mp h.1) (by omega)
      rw [unmapFrom]
      simp only [if_neg hclip, hnonpos, or_self, if_false]
      simp only [BitVec.le_def, ge_iff_le, gt_iff_lt, BitVec.lt_def, hsum]
      rcases List.mem_cons.mp hv with rfl | hv
      · rw [if_pos ⟨hstart, hend⟩]
      · have := hbefore hv
        rw [if_neg (by omega), if_neg (by omega), if_neg]
        · exact ih hrest hv
        · intro h'
          rcases h' with hstop | rfl
          · omega
          · cases hv

/-! ## Memory that is left -/

/-- The areas without the memory in `[a, e)`. -/
structure Cleared (k : AreaKind) (lo : Nat) (old : List VmArea) (a e : Nat) (areas : List VmArea) :
    Prop where
  ordered : Ordered k lo areas
  access : ∀ x f, HasAccess areas x f ↔ HasAccess old x f ∧ ¬ (a ≤ x ∧ x < e)

/-! ## What is left of an area -/

/-- The area has memory in `[a, e)`. -/
def Overlaps (a e : Nat) (v : VmArea) : Prop :=
  max a v.vmStart.toNat < min e v.vmEnd.toNat

instance {v : VmArea} : Decidable (Overlaps a e v) :=
  inferInstanceAs (Decidable (_ < _))

/-- What is left of an area without `[a, e)`. An area that the range covers is gone if the range
ends there, but it becomes empty if the range goes on. -/
def cut (a e : Nat) (v : VmArea) : List VmArea :=
  if Overlaps a e v then
    (if v.vmStart.toNat < a ∨ v.vmEnd.toNat < e then
      [{ v with vmEnd := BitVec.ofNat 64 (max a v.vmStart.toNat) }] else []) ++
    if e < v.vmEnd.toNat then [{ v with vmStart := BitVec.ofNat 64 e }] else []
  else [v]

/-- The range of an area that `[a, e)` takes away. -/
def cutRange (a e : Nat) (v : VmArea) : List (U64 × U64) :=
  if Overlaps a e v then
    [(BitVec.ofNat 64 (max a v.vmStart.toNat), BitVec.ofNat 64 (min e v.vmEnd.toNat))]
  else []

theorem cut_of_not (h : ¬ Overlaps a e memptr) : cut a e memptr = [memptr] :=
  if_neg h

theorem cutRange_of_not (h : ¬ Overlaps a e memptr) : cutRange a e memptr = [] :=
  if_neg h

/-- Areas without memory in the range stay. -/
theorem flatMap_cut_of_not (h : ∀ v ∈ areas, ¬ Overlaps a e v) :
    areas.flatMap (cut a e) = areas ∧ areas.flatMap (cutRange a e) = [] := by
  induction areas with
  | nil => exact ⟨rfl, rfl⟩
  | cons v rest ih =>
      obtain ⟨hcut, hrange⟩ := ih fun w hw => h w (List.mem_cons_of_mem v hw)
      have hv := h v List.mem_cons_self
      rw [List.flatMap_cons, List.flatMap_cons, cut_of_not hv, cutRange_of_not hv, hcut, hrange]
      exact ⟨rfl, rfl⟩

/-- Where the range starts does not matter to areas behind its start. -/
theorem flatMap_cut_start {a' : Nat} (hle : a ≤ a') (h : ∀ v ∈ areas, a' ≤ v.vmStart.toNat) :
    areas.flatMap (cut a' e) = areas.flatMap (cut a e) ∧
      areas.flatMap (cutRange a' e) = areas.flatMap (cutRange a e) := by
  have hsame : ∀ v ∈ areas, cut a' e v = cut a e v ∧ cutRange a' e v = cutRange a e v := by
    intro v hv
    have hstart := h v hv
    have hoverlaps : Overlaps a' e v ↔ Overlaps a e v := by
      unfold Overlaps
      omega
    have hmax : max a' v.vmStart.toNat = max a v.vmStart.toNat := by omega
    have hleft : v.vmStart.toNat < a' ↔ v.vmStart.toNat < a := by omega
    simp only [cut, cutRange, hoverlaps, hmax, hleft, and_self]
  exact ⟨List.flatMap_congr fun v hv => (hsame v hv).1,
    List.flatMap_congr fun v hv => (hsame v hv).2⟩

theorem ofNat_toNat {n : Nat} (h : n < 2 ^ 64) : (BitVec.ofNat 64 n).toNat = n := by
  rw [BitVec.toNat_ofNat, Nat.mod_eq_of_lt h]

/-- The access rights that are left. -/
theorem hasAccess_cut {v : VmArea} {f : U32} : HasAccess (cut a e v) x f ↔
    (v.vmStart.toNat ≤ x ∧ x < v.vmEnd.toNat ∧ v.accessFlags = f) ∧ ¬ (a ≤ x ∧ x < e) := by
  unfold cut
  split_ifs with hover hleft hright hright
  all_goals
    have hbound := v.vmEnd.isLt
    unfold Overlaps at hover
  · have h₁ : (BitVec.ofNat 64 (max a v.vmStart.toNat)).toNat = max a v.vmStart.toNat :=
      ofNat_toNat (by omega)
    have h₂ : (BitVec.ofNat 64 e).toNat = e := ofNat_toNat (by omega)
    simp only [List.cons_append, List.nil_append, hasAccess_cons, hasAccess_nil, h₁, h₂]
    grind
  · have h₁ : (BitVec.ofNat 64 (max a v.vmStart.toNat)).toNat = max a v.vmStart.toNat :=
      ofNat_toNat (by omega)
    simp only [List.append_nil, hasAccess_cons, hasAccess_nil, h₁]
    grind
  · have h₂ : (BitVec.ofNat 64 e).toNat = e := ofNat_toNat (by omega)
    simp only [List.nil_append, hasAccess_cons, hasAccess_nil, h₂]
    grind
  · simp only [List.nil_append, hasAccess_nil]
    grind
  · simp only [hasAccess_cons, hasAccess_nil]
    grind

theorem hasAccess_flatMap_cut {f : U32} : HasAccess (areas.flatMap (cut a e)) x f ↔
    HasAccess areas x f ∧ ¬ (a ≤ x ∧ x < e) := by
  induction areas with
  | nil => simp
  | cons v rest ih =>
      rw [List.flatMap_cons, hasAccess_append, ih, hasAccess_cut, hasAccess_cons, or_and_right]

/-! ## Areas in and out of the range -/

/-- A page starts before the rounded end of a range exactly if it starts before the end. -/
theorem lt_pageCeil_iff {n : Nat} (hn : n % 4096 = 0) : n < pageCeil e ↔ n < e := by
  unfold pageCeil
  omega

theorem pageCeil_le_iff {n : Nat} (hn : n % 4096 = 0) : pageCeil e ≤ n ↔ e ≤ n := by
  unfold pageCeil
  omega

theorem le_pageCeil (n : Nat) : n ≤ pageCeil n := by
  unfold pageCeil
  omega

theorem pageCeil_add (haligned : a % 4096 = 0) (n : Nat) : pageCeil (a + n) = a + pageCeil n := by
  unfold pageCeil
  omega

/-- The areas from the first one on. -/
theorem Ordered.from_start (hold : Ordered k lo (memptr :: rest)) :
    Ordered k memptr.vmStart.toNat (memptr :: rest) := by
  obtain ⟨_, _, hstart, hrest⟩ := hold
  exact ⟨hstart, Nat.le_refl _, hstart, hrest⟩

/-- An area before the range. -/
theorem not_overlaps_before (h : memptr.vmEnd.toNat ≤ a) : ¬ Overlaps a e memptr := by
  unfold Overlaps
  omega

/-- An area behind the range. -/
theorem not_overlaps_behind (h : e ≤ memptr.vmStart.toNat) : ¬ Overlaps a e memptr := by
  unfold Overlaps
  omega

/-- The areas from `lo` on have no memory below it. -/
theorem Ordered.not_overlaps (hold : Ordered k lo areas) (he : e ≤ lo) :
    ∀ v ∈ areas, ¬ Overlaps a e v := fun _ hv =>
  not_overlaps_behind (Nat.le_trans he (hold.bounds hv).1)

/-- An empty range. -/
theorem not_overlaps_empty (hstart : memptr.vmStart.toNat % 4096 = 0)
    (haligned : memptr.vmStart.toNat ≤ a → a < memptr.vmEnd.toNat → a % 4096 = 0) :
    ¬ Overlaps a (pageCeil a) memptr := by
  intro hover
  obtain ⟨hlow, hhigh⟩ := Nat.lt_min.mp hover
  have hstart_lt := (lt_pageCeil_iff hstart).mp (Nat.lt_of_le_of_lt (Nat.le_max_right ..) hlow)
  have hend := Nat.lt_of_le_of_lt (Nat.le_max_left ..) hhigh
  have hceil := (lt_pageCeil_iff (haligned (Nat.le_of_lt hstart_lt) hend)).mp
    (Nat.lt_of_le_of_lt (Nat.le_max_left ..) hlow)
  exact Nat.lt_irrefl a hceil

/-- The range takes the end of the area `memptr`. -/
theorem cut_from (hin : memptr.vmStart.toNat ≤ addr.toNat) (hlt : addr.toNat < memptr.vmEnd.toNat)
    (hafter : memptr.vmEnd.toNat < e) :
    cut addr.toNat e memptr = [{ memptr with vmEnd := addr }] ∧
      cutRange addr.toNat e memptr = [(addr, memptr.vmEnd)] := by
  have hoverlaps : Overlaps addr.toNat e memptr := by
    unfold Overlaps
    omega
  constructor
  · rw [cut, if_pos hoverlaps, if_pos (Or.inr hafter), if_neg (Nat.lt_asymm hafter),
      Nat.max_eq_left hin, BitVec.ofNat_toNat, BitVec.setWidth_eq, List.append_nil]
  · rw [cutRange, if_pos hoverlaps, Nat.max_eq_left hin, Nat.min_eq_right (Nat.le_of_lt hafter),
      BitVec.ofNat_toNat, BitVec.ofNat_toNat, BitVec.setWidth_eq, BitVec.setWidth_eq]

/-- The range lies in the area `memptr`. -/
theorem unmapInside_eq (rest : List VmArea) (hpos : 0 < len.toNat)
    (hin : memptr.vmStart.toNat ≤ addr.toNat)
    (hfits : addr.toNat + len.toNat ≤ memptr.vmEnd.toNat) :
    (unmapInside false addr len memptr rest).list =
        cut addr.toNat (addr.toNat + len.toNat) memptr ++ rest ∧
      cutRange addr.toNat (addr.toNat + len.toNat) memptr = [(addr, addr + len)] := by
  have hend : (addr + len).toNat = addr.toNat + len.toNat :=
    BitVec.toNat_add_of_lt (by have := memptr.vmEnd.isLt; omega)
  have hover : Overlaps addr.toNat (addr.toNat + len.toNat) memptr := by
    unfold Overlaps
    omega
  have heq_iff : ∀ u v : U64, u = v ↔ u.toNat = v.toNat := fun u v =>
    ⟨congrArg BitVec.toNat, BitVec.eq_of_toNat_eq⟩
  have hmax : max addr.toNat memptr.vmStart.toNat = addr.toNat := by omega
  have hmin : min (addr.toNat + len.toNat) memptr.vmEnd.toNat = (addr + len).toNat := by omega
  rw [cut, cutRange, if_pos hover, if_pos hover, hmax, hmin, ← hend]
  simp only [BitVec.ofNat_toNat, BitVec.setWidth_eq, and_true]
  unfold unmapInside
  simp only [heq_iff memptr.vmEnd, heq_iff memptr.vmStart, hend, Bool.false_eq_true, if_false]
  split_ifs <;> first | omega | rfl

/-! ## The loop -/

/-- What `vm_area_unmap` can be asked for, from some area of the list on: a range up to `e` that
starts at a page or outside the areas, whose last part can be rounded up, and that does not cover
an area and go on behind it, unless areas may become empty (`m = 0`). -/
structure GoodUnmap (m : Nat) (areas : List VmArea) (a e : Nat) : Prop where
  aligned : ∀ v ∈ areas, v.vmStart.toNat ≤ a → a < v.vmEnd.toNat → a % 4096 = 0
  rounds : ∀ v ∈ areas, v.vmStart.toNat < e → e ≤ v.vmEnd.toNat →
    e - max a v.vmStart.toNat ≤ MAX_LENGTH
  reaches : 0 < m → ∀ v ∈ areas, a ≤ v.vmStart.toNat → e ≤ v.vmEnd.toNat

/-- What is asked for the areas behind the first one. -/
theorem GoodUnmap.tail (h : GoodUnmap m (memptr :: rest) a e) : GoodUnmap m rest a e :=
  ⟨fun v hv => h.aligned v (List.mem_cons_of_mem _ hv),
    fun v hv => h.rounds v (List.mem_cons_of_mem _ hv),
    fun hm v hv => h.reaches hm v (List.mem_cons_of_mem _ hv)⟩

/-- The range from a later page on. -/
theorem GoodUnmap.start {a' : Nat} (h : GoodUnmap m areas a e) (hle : a ≤ a')
    (haligned : a' % 4096 = 0) : GoodUnmap m areas a' e := by
  refine ⟨fun _ _ _ _ => haligned, fun v hv hstart hend => ?_, fun hm v hv hstart => ?_⟩
  · have := h.rounds v hv hstart hend
    omega
  · exact h.reaches hm v hv (Nat.le_trans hle hstart)

/-- Nothing else is asked if areas may become empty. -/
theorem GoodUnmap.any (h : GoodUnmap m areas a e) : GoodUnmap 0 areas a e :=
  ⟨h.aligned, h.rounds, nofun⟩

/-- The length of what is left of a range behind the start of an area. -/
theorem left_toNat {start : U64} {length : CInt} (hsum : (addr + widen length).toNat = e)
    (hle : start.toNat ≤ e) (hsmall : e - start.toNat < 2 ^ 31) :
    ((addr + widen length - start).setWidth 32).toNat = e - start.toNat := by
  have hle' : start ≤ addr + widen length := by
    rw [BitVec.le_def, hsum]
    exact hle
  rw [BitVec.toNat_setWidth, BitVec.toNat_sub_of_le hle', hsum]
  exact Nat.mod_eq_of_lt (by omega)

/-- The third case of the loop: the range from the start of the area on. -/
theorem clip_spec (memptr : VmArea) {length : CInt} (he : addr.toNat + length.toNat = e)
    (hlen : length.toNat < 2 ^ 31) (hwrap : e < 2 ^ 64) :
    ∃ addr' length',
      (if addr < memptr.vmStart ∧ addr + widen length ≥ memptr.vmStart then memptr.vmStart
        else addr) = addr' ∧
      (if addr < memptr.vmStart ∧ addr + widen length ≥ memptr.vmStart then
        (addr + widen length - memptr.vmStart).setWidth 32 else length) = length' ∧
      addr'.toNat + length'.toNat = e ∧ length'.toNat < 2 ^ 31 ∧
      (addr.toNat < memptr.vmStart.toNat ∧ memptr.vmStart.toNat ≤ e ∧ addr' = memptr.vmStart ∨
        (memptr.vmStart.toNat ≤ addr.toNat ∨ e < memptr.vmStart.toNat) ∧ addr' = addr) := by
  have hsum : (addr + widen length).toNat = e := by
    rw [BitVec.toNat_add_of_lt (by rw [widen_toNat hlen]; omega), widen_toNat hlen, he]
  refine ⟨_, _, rfl, rfl, ?_⟩
  simp only [BitVec.lt_def, ge_iff_le, BitVec.le_def, hsum]
  split_ifs with hbefore
  · rw [left_toNat hsum hbefore.2 (by omega)]
    exact ⟨by omega, by omega, Or.inl ⟨hbefore.1, hbefore.2, rfl⟩⟩
  · exact ⟨he, hlen, Or.inr ⟨by omega, rfl⟩⟩

/-- The range `addr'`, `length'` up to `e`, seen from the first of the areas on, stands for the
range from `addr` on. -/
structure Clipped (memptr : VmArea) (rest : List VmArea) (addr addr' : U64) (length length' : CInt)
    (e : Nat) : Prop where
  sum : addr'.toNat + length'.toNat = e
  short : length'.toNat < 2 ^ 31
  good : GoodUnmap 0 (memptr :: rest) addr'.toNat e
  list : (memptr :: rest).flatMap (cut addr'.toNat (pageCeil e)) =
    (memptr :: rest).flatMap (cut addr.toNat (pageCeil e))
  freed : (memptr :: rest).flatMap (cutRange addr'.toNat (pageCeil e)) =
    (memptr :: rest).flatMap (cutRange addr.toNat (pageCeil e))
  before : addr'.toNat < memptr.vmStart.toNat → e < memptr.vmStart.toNat
  empty : length.toNat = 0 ∨ length'.toNat = 0 → addr'.toNat = e

theorem clip_clipped (hold : Ordered k lo (memptr :: rest)) {length : CInt}
    (he : addr.toNat + length.toNat = e) (hlen : length.toNat < 2 ^ 31) (hwrap : e < 2 ^ 64)
    (hgood : GoodUnmap 0 (memptr :: rest) addr.toNat e) :
    ∃ addr' length',
      (if addr < memptr.vmStart ∧ addr + widen length ≥ memptr.vmStart then memptr.vmStart
        else addr) = addr' ∧
      (if addr < memptr.vmStart ∧ addr + widen length ≥ memptr.vmStart then
        (addr + widen length - memptr.vmStart).setWidth 32 else length) = length' ∧
      Clipped memptr rest addr addr' length length' e := by
  obtain ⟨addr', length', haddr', hlength', he', hlen', hclip⟩ := clip_spec memptr he hlen hwrap
  have hfirst := hold.from_start
  refine ⟨addr', length', haddr', hlength', ?_⟩
  rcases hclip with ⟨hbelow, hreach, rfl⟩ | ⟨hout, rfl⟩
  · have hle := Nat.le_of_lt hbelow
    obtain ⟨hlist, hfreed⟩ := flatMap_cut_start (e := pageCeil e) hle fun v hv =>
      (hfirst.bounds hv).1
    exact ⟨he', hlen', hgood.start hle hfirst.1, hlist, hfreed,
      fun hlt => absurd hlt (Nat.lt_irrefl _), fun hzero => by omega⟩
  · exact ⟨he', hlen', hgood, rfl, rfl, fun hlt => by omega, fun hzero => by omega⟩

/-- A range given to `freeAllPFNs`: whole pages of `[a, e)`. -/
structure FreedRange (k : AreaKind) (a e : Nat) (r : U64 × U64) : Prop where
  pages : PageRange r.1 r.2
  inside : r.2.toNat ≤ k.top
  low : a ≤ r.1.toNat
  high : r.2.toNat ≤ e

/-- The loop of `vm_area_unmap` clears the range up to the next page, and all that was there is
given to `freeAllPFNs`. -/
structure UnmapSpec (k : AreaKind) (lo : Nat) (old : List VmArea) (a e : Nat) (u : Unmapped) :
    Prop where
  cleared : Cleared k lo old a e u.list
  freed_good : ∀ r ∈ u.freed, FreedRange k a e r
  freed_all : ∀ x f, HasAccess old x f → a ≤ x → x < e →
    ∃ r ∈ u.freed, r.1.toNat ≤ x ∧ x < r.2.toNat

/-- Seen from an area that the range does not reach into, only the rest of the areas is left. -/
theorem flatMap_cut_skip (rest : List VmArea) (h : ¬ Overlaps a e memptr) :
    (memptr :: rest).flatMap (cut a e) = memptr :: rest.flatMap (cut a e) ∧
      (memptr :: rest).flatMap (cutRange a e) = rest.flatMap (cutRange a e) := by
  rw [List.flatMap_cons, List.flatMap_cons, cut_of_not h, cutRange_of_not h]
  exact ⟨rfl, rfl⟩

/-- The loop of `vm_area_unmap` cuts the range, up to the next page, out of all areas, and gives
what it cuts out to `freeAllPFNs`. -/
theorem unmapFrom_eq (hold : Ordered k lo areas) {length : CInt}
    (he : addr.toNat + length.toNat = e) (hlen : length.toNat < 2 ^ 31) (hwrap : e < 2 ^ 64)
    (hgood : GoodUnmap 0 areas addr.toNat e) :
    (unmapFrom false areas addr length).list = areas.flatMap (cut addr.toNat (pageCeil e)) ∧
      (unmapFrom false areas addr length).freed =
        areas.flatMap (cutRange addr.toNat (pageCeil e)) := by
  induction areas generalizing lo addr length with
  | nil => exact ⟨rfl, rfl⟩
  | cons memptr rest ih =>
      obtain ⟨addr', length', haddr', hlength', hclip⟩ := clip_clipped hold he hlen hwrap hgood
      have he' := hclip.sum
      have hlen' := hclip.short
      have hgood' := hclip.good
      have hbefore := hclip.before
      have hfirst := hold.from_start
      obtain ⟨_, _, hstart, _, _, hrest⟩ := id hold
      have hsum : (addr' + widen length').toNat = e := by
        rw [BitVec.toNat_add_of_lt (by rw [widen_toNat hlen']; omega), widen_toNat hlen', he']
      have hnonpos : ∀ n : CInt, n.toNat < 2 ^ 31 → (n.toInt ≤ 0 ↔ n.toNat = 0) := by
        intro n hn
        rw [BitVec.toInt_eq_toNat_of_lt (by omega)]
        omega
      rw [← hclip.list, ← hclip.freed, unmapFrom]
      simp only [haddr', hlength']
      simp only [hnonpos length hlen, hnonpos length' hlen', BitVec.le_def, ge_iff_le, gt_iff_lt,
        BitVec.lt_def, hsum]
      split_ifs with hzero hinside hover hstop
      · -- nothing is left to unmap
        have hout : ∀ v ∈ memptr :: rest, ¬ Overlaps addr'.toNat (pageCeil e) v := by
          intro v hv
          rw [← hclip.empty hzero]
          exact not_overlaps_empty (hold.bounds hv).2.1 (hgood'.aligned v hv)
        obtain ⟨hcut, hranges⟩ := flatMap_cut_of_not hout
        exact ⟨hcut.symm, hranges.symm⟩
      · -- the rest of the range lies in the area
        obtain ⟨hin, hfits⟩ := hinside
        have hpos : 0 < length'.toNat := Nat.pos_of_ne_zero fun h => hzero (Or.inr h)
        have haligned := hgood'.aligned memptr List.mem_cons_self hin (by omega)
        have hmax : length'.toNat ≤ MAX_LENGTH := by
          have := hgood'.rounds memptr List.mem_cons_self (by omega) hfits
          rw [Nat.max_eq_left hin] at this
          omega
        have hlen_eq := alignedLength_toNat hmax
        have hend : addr'.toNat + (widen (alignedLength length')).toNat = pageCeil e := by
          rw [hlen_eq, ← he', pageCeil_add haligned]
        have hfits' : pageCeil e ≤ memptr.vmEnd.toNat := (pageCeil_le_iff hrest.low.1).mpr hfits
        have hceil := le_pageCeil length'.toNat
        obtain ⟨hlist, hrange⟩ := unmapInside_eq rest
          (by rw [hlen_eq]; omega) hin (by rw [hend]; exact hfits')
        obtain ⟨hcut, hranges⟩ := flatMap_cut_of_not
          (hrest.not_overlaps (a := addr'.toNat) hfits')
        rw [hend] at hlist hrange
        rw [List.flatMap_cons, List.flatMap_cons, hcut, hranges, hrange]
        exact ⟨hlist, rfl⟩
      · -- the range takes the end of the area
        obtain ⟨hcut, hrange⟩ := cut_from hover.1 hover.2.1
          ((lt_pageCeil_iff hrest.low.1).mpr hover.2.2)
        rw [List.flatMap_cons, List.flatMap_cons, hcut, hrange]
        cases rest with
        | nil => exact ⟨rfl, rfl⟩
        | cons next tail =>
            have hnext := hrest.from_start
            have hall : ∀ v ∈ next :: tail, next.vmStart.toNat ≤ v.vmStart.toNat := fun v hv =>
              (hnext.bounds hv).1
            have hbehind : addr'.toNat ≤ next.vmStart.toNat := by
              have := hrest.2.1
              omega
            simp only
            split_ifs with hstop
            · -- the range ends in the gap before the next area
              have hgap : pageCeil e ≤ next.vmStart.toNat :=
                (pageCeil_le_iff hnext.1).mpr (Nat.le_of_lt hstop)
              obtain ⟨hcut, hranges⟩ := flatMap_cut_of_not
                (hnext.not_overlaps (a := addr'.toNat) hgap)
              rw [hcut, hranges]
              exact ⟨rfl, rfl⟩
            · have hleft := left_toNat hsum (Nat.not_lt.mp hstop) (by omega)
              have hsum_left : next.vmStart.toNat +
                  ((addr' + widen length' - next.vmStart).setWidth 32).toNat = e := by
                rw [hleft]
                omega
              obtain ⟨hlist, hfreed⟩ := ih hrest hsum_left (by rw [hleft]; omega)
                (hgood'.tail.start hbehind hnext.1)
              obtain ⟨hcut', hranges'⟩ := flatMap_cut_start (e := pageCeil e) hbehind hall
              rw [hlist, hfreed, hcut', hranges']
              exact ⟨rfl, rfl⟩
      · -- the range ends before the area, or this is the last one
        have hout : ∀ v ∈ memptr :: rest, ¬ Overlaps addr'.toNat (pageCeil e) v := by
          by_cases hlow : e < memptr.vmStart.toNat
          · exact hfirst.not_overlaps ((pageCeil_le_iff hstart).mpr (Nat.le_of_lt hlow))
          · obtain rfl := hstop.resolve_left hlow
            intro v hv
            rw [List.mem_singleton.mp hv]
            exact not_overlaps_before (by omega)
        obtain ⟨hcut, hranges⟩ := flatMap_cut_of_not hout
        exact ⟨hcut.symm, hranges.symm⟩
      · -- the range starts behind the area
        have hpassed : memptr.vmEnd.toNat ≤ addr'.toNat := by
          have := not_or.mp hstop
          omega
        obtain ⟨hlist, hfreed⟩ := ih hrest he' hlen' hgood'.tail
        obtain ⟨hcut, hranges⟩ := flatMap_cut_skip rest
          (not_overlaps_before (e := pageCeil e) hpassed)
        rw [hcut, hranges, hlist, hfreed]
        exact ⟨rfl, rfl⟩

/-- Where the part of an area that is cut out starts. -/
theorem Overlaps.exists_start (h : Overlaps a e memptr)
    (hstart : memptr.vmStart.toNat % 4096 = 0)
    (haligned : memptr.vmStart.toNat ≤ a → a < memptr.vmEnd.toNat → a % 4096 = 0) :
    ∃ b, max a memptr.vmStart.toNat = b ∧ (BitVec.ofNat 64 b).toNat = b ∧ a ≤ b ∧
      memptr.vmStart.toNat ≤ b ∧ b % 4096 = 0 ∧ b < e ∧ b < memptr.vmEnd.toNat := by
  obtain ⟨hlow, hhigh⟩ := Nat.lt_min.mp h
  refine ⟨_, rfl, ofNat_toNat (Nat.lt_trans hhigh memptr.vmEnd.isLt), Nat.le_max_left ..,
    Nat.le_max_right .., ?_, hlow, hhigh⟩
  rcases Nat.le_total memptr.vmStart.toNat a with hle | hle
  · rw [Nat.max_eq_left hle] at hhigh ⊢
    exact haligned hle hhigh
  · rw [Nat.max_eq_right hle]
    exact hstart

/-- Where it ends. -/
theorem Overlaps.exists_end (h : Overlaps a e memptr) (he : e % 4096 = 0)
    (hend : memptr.vmEnd.toNat % 4096 = 0) :
    ∃ c, min e memptr.vmEnd.toNat = c ∧ (BitVec.ofNat 64 c).toNat = c ∧ c ≤ e ∧
      c ≤ memptr.vmEnd.toNat ∧ c % 4096 = 0 ∧ max a memptr.vmStart.toNat < c := by
  refine ⟨_, rfl, ofNat_toNat (Nat.lt_of_le_of_lt (Nat.min_le_right ..) memptr.vmEnd.isLt),
    Nat.min_le_left .., Nat.min_le_right .., ?_, h⟩
  rcases Nat.le_total e memptr.vmEnd.toNat with hle | hle
  · rw [Nat.min_eq_left hle]
    exact he
  · rw [Nat.min_eq_right hle]
    exact hend

/-- What is left of ordered areas is ordered. -/
theorem Ordered.flatMap_cut (hold : Ordered k lo areas) (hm : k.least ≤ 4096)
    (hgood : GoodUnmap k.least areas a e) : Ordered k lo (areas.flatMap (cut a (pageCeil e))) := by
  induction areas generalizing lo with
  | nil => exact hold
  | cons v rest ih =>
      obtain ⟨hlo, hle, hstart, hsize, hflags, hrest⟩ := hold
      have hend := hrest.low
      have htail := ih hrest hgood.tail
      rw [List.flatMap_cons]
      by_cases hover : Overlaps a (pageCeil e) v
      · obtain ⟨b, hb, hb_toNat, hab, hsb, hb_aligned, hbe, hbv⟩ :=
          hover.exists_start hstart (hgood.aligned v List.mem_cons_self)
        have hceil : pageCeil e % 4096 = 0 := Nat.mul_mod_left ..
        -- a part that is left before the range is not empty, unless areas may become empty
        have hleft : v.vmStart.toNat < a ∨ v.vmEnd.toNat < pageCeil e →
            v.vmStart.toNat + k.least ≤ b := by
          intro hleft
          by_cases hlt : v.vmStart.toNat < a
          · omega
          · have hend_lt := (lt_pageCeil_iff hend.1).mp (hleft.resolve_left hlt)
            have hleast : k.least = 0 := Nat.eq_zero_of_not_pos fun hpos =>
              Nat.not_lt.mpr (hgood.reaches hpos v List.mem_cons_self (Nat.not_lt.mp hlt)) hend_lt
            omega
        -- a part that is left behind it is at least one page
        have hright : pageCeil e < v.vmEnd.toNat →
            Ordered k b ({ v with vmStart := BitVec.ofNat 64 (pageCeil e) } ::
              rest.flatMap (cut a (pageCeil e))) := by
          intro hlt
          have htoNat := ofNat_toNat (Nat.lt_trans hlt v.vmEnd.isLt)
          simp only [Ordered, htoNat]
          exact ⟨hb_aligned, Nat.le_of_lt hbe, hceil, by omega, hflags, htail⟩
        have hbefore := htail.mono (Nat.le_of_lt hbv) hb_aligned
        have hlo_b := Nat.le_trans hle hsb
        rw [cut, if_pos hover, hb]
        split_ifs with hl hr hr
        · simp only [List.cons_append, List.nil_append]
          rw [Ordered]
          exact ⟨hlo, hle, hstart, by rw [hb_toNat]; exact hleft hl, hflags,
            by rw [hb_toNat]; exact hright hr⟩
        · simp only [List.append_nil, List.cons_append, List.nil_append]
          rw [Ordered]
          exact ⟨hlo, hle, hstart, by rw [hb_toNat]; exact hleft hl, hflags,
            by rw [hb_toNat]; exact hbefore⟩
        · simp only [List.cons_append, List.nil_append]
          exact (hright hr).mono hlo_b hlo
        · exact hbefore.mono hlo_b hlo
      · rw [cut_of_not hover]
        exact ⟨hlo, hle, hstart, hsize, hflags, htail⟩

/-- What is cut out of ordered areas. -/
theorem Ordered.mem_cutRange (hold : Ordered k lo areas) (hgood : GoodUnmap m areas a e)
    (hlen : e < a + 2 ^ 31) {r : U64 × U64}
    (hr : r ∈ areas.flatMap (cutRange a (pageCeil e))) : FreedRange k a (pageCeil e) r := by
  obtain ⟨v, hv, hr⟩ := List.mem_flatMap.mp hr
  obtain ⟨_, hstart, _, hend, htop⟩ := hold.bounds hv
  have hrounds := hgood.rounds v hv
  unfold cutRange at hr
  split_ifs at hr with hover
  · obtain rfl := List.mem_singleton.mp hr
    obtain ⟨b, hb, hb_toNat, hab, hsb, hb_aligned, hbe, hbv⟩ :=
      hover.exists_start hstart (hgood.aligned v hv)
    obtain ⟨c, hc, hc_toNat, hce, hcv, hc_aligned, hbc⟩ :=
      hover.exists_end (Nat.mul_mod_left ..) hend
    rw [hb] at hrounds hbc
    have hsize : c < b + 2 ^ 31 := by
      rcases Nat.lt_or_ge v.vmEnd.toNat e with hlt | hge
      · omega
      · -- the range ends inside the area, which the loop can round up
        have hlow := (lt_pageCeil_iff hb_aligned).mp hbe
        have hlength := hrounds (Nat.lt_of_le_of_lt hsb hlow) hge
        unfold pageCeil at hce
        unfold MAX_LENGTH at hlength
        omega
    rw [hb, hc]
    refine ⟨⟨?_, ?_, ?_, ?_⟩, ?_, ?_, ?_⟩
    · rw [hb_toNat]
      exact hb_aligned
    · rw [hc_toNat]
      exact hc_aligned
    · rw [hb_toNat, hc_toNat]
      exact Nat.le_of_lt hbc
    · rw [hb_toNat, hc_toNat]
      exact hsize
    · rw [hc_toNat]
      exact Nat.le_trans hcv htop
    · rw [hb_toNat]
      exact hab
    · rw [hc_toNat]
      exact hce
  · cases hr

/-- All memory of the range is cut out. -/
theorem HasAccess.mem_cutRange {f : U32} (hx : HasAccess areas x f) (ha : a ≤ x) (he : x < e) :
    ∃ r ∈ areas.flatMap (cutRange a e), r.1.toNat ≤ x ∧ x < r.2.toNat := by
  obtain ⟨v, hv, hstart, hend, _⟩ := hx
  have hbound := v.vmEnd.isLt
  have hover : Overlaps a e v := by
    unfold Overlaps
    omega
  refine ⟨_, List.mem_flatMap.mpr ⟨v, hv, by rw [cutRange, if_pos hover, List.mem_singleton]⟩, ?_⟩
  simp only
  rw [ofNat_toNat (by omega), ofNat_toNat (by omega)]
  omega

theorem unmapFrom_spec (hold : Ordered k lo areas) (hm : k.least ≤ 4096) {length : CInt}
    (he : addr.toNat + length.toNat = e) (hlen : length.toNat < 2 ^ 31) (hwrap : e < 2 ^ 64)
    (hgood : GoodUnmap k.least areas addr.toNat e) :
    UnmapSpec k lo areas addr.toNat (pageCeil e) (unmapFrom false areas addr length) := by
  obtain ⟨hlist, hfreed⟩ := unmapFrom_eq hold he hlen hwrap hgood.any
  refine ⟨⟨hlist ▸ hold.flatMap_cut hm hgood, fun x f => hlist ▸ hasAccess_flatMap_cut⟩,
    fun r hr => ?_, fun x f hx ha hxe => hfreed ▸ hx.mem_cutRange ha hxe⟩
  rw [hfreed] at hr
  exact hold.mem_cutRange hgood (by omega) hr

end GemOS.Vm
