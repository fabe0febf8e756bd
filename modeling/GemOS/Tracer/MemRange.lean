import Mathlib.Data.List.Pairwise
import GemOS.Tracer.BufferQueue

/-!
# The check of user buffers

`is_valid_mem_range` should accept exactly the buffers that lie in one segment or area with the
right to access them. It does so as long as the buffer ends within the address space. The end
test adds the size to the address without a test for wrap-around, so that a buffer over the end
of the address space is compared with its last byte at the start of it.
-/

namespace GemOS.Tracer

/-! ## What is allowed -/

/-- A range of addresses with its access flags. -/
structure Span where
  start : U64
  endAddr : U64
  accessFlags : U32

def segmentSpan (segment : MmSegment) : Span :=
  ⟨segment.start, segment.endAddr, segment.accessFlags⟩

def areaSpan (area : VmArea) : Span :=
  ⟨area.vmStart, area.vmEnd, area.accessFlags⟩

/-- The segments and the areas of a process. -/
def ExecContext.spans (ctx : ExecContext) : List Span :=
  ctx.mms.map segmentSpan ++ ctx.vmArea.map areaSpan

/-- The address lies in the span. -/
def Span.Contains (s : Span) (x : Nat) : Prop :=
  s.start.toNat ≤ x ∧ x < s.endAddr.toNat

/-- The span contains every byte of the buffer. -/
def Span.Covers (s : Span) (buff : U64) (count : U32) : Prop :=
  ∀ i < count.toNat, s.Contains (buff.toNat + i)

/-- No address lies in two segments or areas. -/
def SpansDisjoint (ctx : ExecContext) : Prop :=
  ctx.spans.Pairwise fun s s' => ∀ x, ¬ (s.Contains x ∧ s'.Contains x)

/-- The buffer does not wrap around and lies in one segment or area that gives the right. -/
def RangeAllowed (ctx : ExecContext) (buff : U64) (count accessBit : U32) : Prop :=
  buff.toNat + count.toNat ≤ 2 ^ 64 ∧
    ∃ s ∈ ctx.spans, s.Covers buff count ∧ s.accessFlags &&& accessBit ≠ 0

/-! ## Searching -/

variable {ctx : ExecContext} {buff : U64} {count accessBit flags : U32} {spans : List Span}
variable {p : Span → Bool} {last : Nat}

/-- Flags of the first span that satisfies the test, 0 if none does. -/
def firstFlags (spans : List Span) (p : Span → Bool) : U32 :=
  ((spans.find? p).map Span.accessFlags).getD 0

/-- The test of one span. -/
def Span.holds (buff : U64) (count : U32) (s : Span) : Bool :=
  rangeHolds s.start s.endAddr buff count

/-- The two searches as searches of spans. -/
theorem segment_flags_eq (mms : List MmSegment) (buff : U64) (count : U32) :
    segmentFlags mms buff count = firstFlags (mms.map segmentSpan) (Span.holds buff count) := by
  unfold segmentFlags firstFlags
  rw [List.find?_map]
  show _ = Option.getD (Option.map _ (Option.map _ (mms.find? fun segment =>
    rangeHolds segment.start segment.endAddr buff count))) 0
  cases mms.find? fun segment => rangeHolds segment.start segment.endAddr buff count with
  | none => rfl
  | some segment => rfl

theorem area_flags_eq (areas : List VmArea) (buff : U64) (count : U32) :
    areaFlags areas buff count = firstFlags (areas.map areaSpan) (Span.holds buff count) := by
  unfold areaFlags firstFlags
  rw [List.find?_map]
  show _ = Option.getD (Option.map _ (Option.map _ (areas.find? fun area =>
    rangeHolds area.vmStart area.vmEnd buff count))) 0
  cases areas.find? fun area => rangeHolds area.vmStart area.vmEnd buff count with
  | none => rfl
  | some area => rfl

/-- The check, by the results of its two searches. -/
theorem is_valid_mem_range_eq :
    isValidMemRange ctx buff count accessBit = true ↔
      (firstFlags (ctx.mms.map segmentSpan) (Span.holds buff count) &&& accessBit ≠ 0 ∨
        firstFlags (ctx.mms.map segmentSpan) (Span.holds buff count) = 0 ∧
          firstFlags (ctx.vmArea.map areaSpan) (Span.holds buff count) &&& accessBit ≠ 0) := by
  simp only [isValidMemRange, segment_flags_eq, area_flags_eq, decide_eq_true_eq]
  generalize firstFlags (ctx.mms.map segmentSpan) (Span.holds buff count) = flags
  by_cases hzero : flags = 0
  · simp [hzero]
  · rw [if_neg hzero, or_iff_left fun h => hzero h.1]

/-- Flags that give a right are those of a span. -/
theorem exists_of_first_flags (h : firstFlags spans p &&& accessBit ≠ 0) :
    ∃ s ∈ spans, p s = true ∧ s.accessFlags &&& accessBit ≠ 0 := by
  unfold firstFlags at h
  cases hfind : spans.find? p with
  | none => simp [hfind] at h
  | some s =>
      exact ⟨s, List.mem_of_find?_eq_some hfind, List.find?_some hfind, by simpa [hfind] using h⟩

/-- The only span that satisfies the test is found. -/
theorem first_flags_of_unique {s : Span} (hs : s ∈ spans) (hp : p s = true)
    (hunique : ∀ s' ∈ spans, p s' = true → s' = s) : firstFlags spans p = s.accessFlags := by
  unfold firstFlags
  cases hfind : spans.find? p with
  | none => exact absurd hp (by simpa using List.find?_eq_none.mp hfind s hs)
  | some s' =>
      rw [hunique s' (List.mem_of_find?_eq_some hfind) (List.find?_some hfind)]
      rfl

/-- No flags are found where no span satisfies the test. -/
theorem first_flags_of_none (h : ∀ s ∈ spans, p s = false) : firstFlags spans p = 0 := by
  have hfind : spans.find? p = none := List.find?_eq_none.mpr fun s hs => by simp [h s hs]
  simp [firstFlags, hfind]

/-! ## Buffers that end within the address space -/

/-- The test of a span is right if the buffer does not wrap around. -/
theorem Span.holds_iff_covers (s : Span) (hcount : 0 < count)
    (hwrap : buff.toNat + count.toNat ≤ 2 ^ 64) :
    s.holds buff count = true ↔ s.Covers buff count := by
  have hpos : 0 < count.toNat := BitVec.lt_def.mp hcount
  have hlast : (buff + count.zeroExtend 64 - 1).toNat = buff.toNat + count.toNat - 1 := by
    simp only [BitVec.zeroExtend]
    bv_omega
  simp only [Span.holds, rangeHolds, decide_eq_true_eq, BitVec.le_def, gt_iff_lt, BitVec.lt_def,
    hlast]
  constructor
  · intro h i hi
    exact ⟨by omega, by omega⟩
  · intro h
    have hfirst := h 0 hpos
    have hend := h (count.toNat - 1) (by omega)
    unfold Span.Contains at *
    omega

/-- The first byte of a buffer lies in a span that covers it. -/
theorem Span.Covers.first {s : Span} (h : s.Covers buff count) (hcount : 0 < count) :
    s.Contains buff.toNat :=
  h 0 (BitVec.lt_def.mp hcount)

/-- The check of a buffer that does not wrap around. -/
theorem is_valid_iff_allowed (hdisjoint : SpansDisjoint ctx) (hcount : 0 < count)
    (hwrap : buff.toNat + count.toNat ≤ 2 ^ 64) :
    isValidMemRange ctx buff count accessBit = true ↔ RangeAllowed ctx buff count accessBit := by
  have hcovers := fun s : Span => s.holds_iff_covers hcount hwrap
  rw [is_valid_mem_range_eq]
  constructor
  · intro h
    have hspan : ∃ s ∈ ctx.spans, s.holds buff count = true ∧ s.accessFlags &&& accessBit ≠ 0 := by
      rcases h with h | ⟨_, h⟩
      · obtain ⟨s, hs, hrest⟩ := exists_of_first_flags h
        exact ⟨s, List.mem_append_left _ hs, hrest⟩
      · obtain ⟨s, hs, hrest⟩ := exists_of_first_flags h
        exact ⟨s, List.mem_append_right _ hs, hrest⟩
    obtain ⟨s, hs, hholds, hflags⟩ := hspan
    exact ⟨hwrap, s, hs, (hcovers s).mp hholds, hflags⟩
  · intro h
    obtain ⟨_, s, hs, hs_covers, hflags⟩ := h
    obtain ⟨hsegments, hareas, hapart⟩ := List.pairwise_append.mp hdisjoint
    have hfirst := hs_covers.first hcount
    -- two spans of one list that cover the buffer are the same
    have hsame : ∀ spans : List Span, spans.Pairwise (fun s s' => ∀ x,
        ¬ (s.Contains x ∧ s'.Contains x)) → s ∈ spans → ∀ s' ∈ spans,
        s'.holds buff count = true → s' = s := by
      intro spans hspans hs s' hs' hholds
      by_contra hne
      have : Std.Symm fun s s' : Span => ∀ x, ¬ (s.Contains x ∧ s'.Contains x) :=
        ⟨fun _ _ h x hx => h x hx.symm⟩
      exact hspans.forall hs' hs hne buff.toNat
        ⟨((hcovers s').mp hholds).first hcount, hfirst⟩
    rcases List.mem_append.mp hs with hs | hs
    · left
      rwa [first_flags_of_unique hs ((hcovers s).mpr hs_covers) (hsame _ hsegments hs)]
    · right
      refine ⟨first_flags_of_none fun s' hs' => ?_, ?_⟩
      · by_contra hholds
        have hcovers' := (hcovers s').mp (by simpa using hholds)
        exact hapart s' hs' s hs buff.toNat ⟨hcovers'.first hcount, hfirst⟩
      · rwa [first_flags_of_unique hs ((hcovers s).mpr hs_covers) (hsame _ hareas hs)]

/-! ## Buffers over the end of the address space -/

/-- The span starts at or before the buffer and ends behind the address `last`. -/
def Span.Reaches (s : Span) (buff : U64) (last : Nat) : Prop :=
  s.start ≤ buff ∧ last < s.endAddr.toNat

/-- The first span that starts at or before the buffer and ends behind `last` has these flags. -/
def FirstReaching (spans : List Span) (buff : U64) (last : Nat) (flags : U32) : Prop :=
  ∃ pre s post, spans = pre ++ s :: post ∧ (∀ s' ∈ pre, ¬ s'.Reaches buff last) ∧
    s.Reaches buff last ∧ s.accessFlags = flags

/-- With `last` the address of the last byte after wrapping around, the first segment that starts
before the buffer and ends behind `last` gives the right, or else, if no flag is set there, the
first area. -/
def WrapAllowed (ctx : ExecContext) (buff : U64) (count accessBit : U32) : Prop :=
  let last := buff.toNat + count.toNat - 1 - 2 ^ 64
  ∃ flags, flags &&& accessBit ≠ 0 ∧
    (FirstReaching (ctx.mms.map segmentSpan) buff last flags ∨
      (∀ flags', FirstReaching (ctx.mms.map segmentSpan) buff last flags' → flags' = 0) ∧
        FirstReaching (ctx.vmArea.map areaSpan) buff last flags)

/-- The test of a span when the buffer wraps around. -/
theorem Span.holds_iff_reaches (s : Span) (hwrap : 2 ^ 64 < buff.toNat + count.toNat) :
    s.holds buff count = true ↔ s.Reaches buff (buff.toNat + count.toNat - 1 - 2 ^ 64) := by
  have hlast : (buff + count.zeroExtend 64 - 1).toNat = buff.toNat + count.toNat - 1 - 2 ^ 64 := by
    simp only [BitVec.zeroExtend]
    bv_omega
  simp only [Span.holds, rangeHolds, decide_eq_true_eq, Span.Reaches, gt_iff_lt, BitVec.lt_def,
    hlast]

/-- What a search finds is the first span that reaches. -/
theorem first_reaching_iff (hp : ∀ s, p s = true ↔ s.Reaches buff last) :
    FirstReaching spans buff last flags ↔ (spans.find? p).map Span.accessFlags = some flags := by
  rw [Option.map_eq_some_iff]
  constructor
  · intro h
    obtain ⟨pre, s, post, rfl, hbefore, hreaches, hflags⟩ := h
    refine ⟨s, List.find?_eq_some_iff_append.mpr ⟨(hp s).mpr hreaches, pre, post, rfl, ?_⟩, hflags⟩
    intro s' hs'
    have hnot := mt (hp s').mp (hbefore s' hs')
    simpa using hnot
  · intro h
    obtain ⟨s, hfind, hflags⟩ := h
    obtain ⟨hholds, pre, post, rfl, hbefore⟩ := List.find?_eq_some_iff_append.mp hfind
    refine ⟨pre, s, post, rfl, fun s' hs' hreaches => ?_, (hp s).mp hholds, hflags⟩
    have hnot := hbefore s' hs'
    rw [(hp s').mpr hreaches] at hnot
    cases hnot

/-- Flags found that give a right are those of the first span that reaches. -/
theorem first_flags_iff_reaching (hp : ∀ s, p s = true ↔ s.Reaches buff last) :
    firstFlags spans p &&& accessBit ≠ 0 ↔
      ∃ flags, FirstReaching spans buff last flags ∧ flags &&& accessBit ≠ 0 := by
  simp only [first_reaching_iff hp, firstFlags]
  cases (spans.find? p).map Span.accessFlags with
  | none => simp
  | some flags => simp

/-- No flag is found if the first span that reaches has none. -/
theorem first_flags_zero_iff (hp : ∀ s, p s = true ↔ s.Reaches buff last) :
    firstFlags spans p = 0 ↔ ∀ flags, FirstReaching spans buff last flags → flags = 0 := by
  simp only [first_reaching_iff hp, firstFlags]
  cases (spans.find? p).map Span.accessFlags with
  | none => simp
  | some flags => simp

/-- The check of a buffer that wraps around. -/
theorem is_valid_iff_wrap_allowed (hwrap : 2 ^ 64 < buff.toNat + count.toNat) :
    isValidMemRange ctx buff count accessBit = true ↔ WrapAllowed ctx buff count accessBit := by
  have hp := fun s : Span => s.holds_iff_reaches hwrap
  rw [is_valid_mem_range_eq, first_flags_iff_reaching hp, first_flags_zero_iff hp,
    first_flags_iff_reaching hp]
  constructor
  · intro h
    rcases h with ⟨flags, hfirst, hflags⟩ | ⟨hzero, flags, hfirst, hflags⟩
    · exact ⟨flags, hflags, Or.inl hfirst⟩
    · exact ⟨flags, hflags, Or.inr ⟨hzero, hfirst⟩⟩
  · intro h
    obtain ⟨flags, hflags, hfirst | ⟨hzero, hfirst⟩⟩ := h
    · exact Or.inl ⟨flags, hfirst, hflags⟩
    · exact Or.inr ⟨hzero, flags, hfirst, hflags⟩

/-! ## The exact condition -/

/-- The check is right exactly if the buffer ends within the address space, or the first span that
passes the wrapped end test does not give the right. -/
theorem mem_range_check_iff (hdisjoint : SpansDisjoint ctx) (buff : U64) (hcount : 0 < count)
    (accessBit : U32) :
    (isValidMemRange ctx buff count accessBit = true ↔ RangeAllowed ctx buff count accessBit) ↔
      buff.toNat + count.toNat ≤ 2 ^ 64 ∨ ¬ WrapAllowed ctx buff count accessBit := by
  by_cases hwrap : buff.toNat + count.toNat ≤ 2 ^ 64
  · exact iff_of_true (is_valid_iff_allowed hdisjoint hcount hwrap) (Or.inl hwrap)
  · rw [is_valid_iff_wrap_allowed (by omega), or_iff_right hwrap]
    exact iff_false_right fun hallowed => hwrap hallowed.1

theorem sample_spans_disjoint : SpansDisjoint sampleContext :=
  List.pairwise_singleton _ _

/-- Two bytes of the segment of the sample process. -/
theorem mem_range_check_sample :
    (isValidMemRange sampleContext 0x2000 2 1 = true ↔ RangeAllowed sampleContext 0x2000 2 1) ↔
      (0x2000 : U64).toNat + (2 : U32).toNat ≤ 2 ^ 64 ∨ ¬ WrapAllowed sampleContext 0x2000 2 1 :=
  mem_range_check_iff sample_spans_disjoint 0x2000 (by decide) 1

/-- The last byte of the address space and the first one: the second one lies before the end of
the segment, and the first one behind its start. -/
theorem mem_range_wraps :
    SpansDisjoint sampleContext ∧
    isValidMemRange sampleContext 0xffffffffffffffff 2 1 = true ∧
    ¬ RangeAllowed sampleContext 0xffffffffffffffff 2 1 :=
  ⟨sample_spans_disjoint, by decide, fun hallowed => absurd hallowed.1 (by decide)⟩

end GemOS.Tracer
