import Mathlib.Order.Interval.Finset.Nat
import GemOS.Vm.ForkCounts
import GemOS.Vm.FrameRuns

/-!
# `copy_MM_Segment`

The pages of one range, for a child that may have other pages already. Each page of the range that
the parent has is shared, read-only on both sides, and its frame gets one more reference. What is
stored for the pages outside stays as it is.
-/

namespace GemOS.Vm

variable {a : FrameAlloc} {m m' : Machine} {par child : Nat} {addrStart addrEnd : U64}
variable {visited : Finset Nat}

/-! ## The pages of a segment -/

/-- The pages from one address up to another. -/
def segment (addrStart addrEnd : U64) : Finset Nat :=
  Finset.Ico (addrStart.toNat / 4096) (addrEnd.toNat / 4096)

/-- `copy_MM_Segment` rounds a length that is a multiple of the page size. -/
theorem segmentPages_eq (h : PageRange addrStart addrEnd) :
    segmentPages addrStart addrEnd = pagesFrom addrStart (numPages addrStart addrEnd) := by
  have hpages := h.numPages_toNat
  obtain ⟨hstart, hend, hle, hsize⟩ := h
  have hlength : ((addrEnd - addrStart).setWidth 32).toNat = addrEnd.toNat - addrStart.toNat := by
    rw [BitVec.toNat_setWidth, BitVec.toNat_sub_of_le (BitVec.le_def.mpr hle)]
    omega
  have haligned : (alignedLength ((addrEnd - addrStart).setWidth 32)).toNat =
      addrEnd.toNat - addrStart.toNat := by
    rw [alignedLength_pageCeil (by unfold MAX_LENGTH; omega), hlength, pageCeil]
    omega
  have hcount : ((alignedLength ((addrEnd - addrStart).setWidth 32)).sdiv 0x1000).toInt.toNat =
      (addrEnd.toNat - addrStart.toNat) / 4096 := by
    have hmsb : (alignedLength ((addrEnd - addrStart).setWidth 32)).msb = false :=
      BitVec.msb_eq_false_iff_two_mul_lt.mpr (by omega)
    have hpage : (0x1000 : CInt).msb = false := by decide
    have hdiv : ((alignedLength ((addrEnd - addrStart).setWidth 32)).sdiv 0x1000).toNat =
        (addrEnd.toNat - addrStart.toNat) / 4096 := by
      simp only [BitVec.sdiv_eq, hmsb, hpage, BitVec.udiv_eq, BitVec.toNat_udiv, haligned]
      rfl
    rw [BitVec.toInt_eq_toNat_of_lt (by omega), hdiv]
    omega
  rw [segmentPages, pagesFrom, pagesFrom, hcount, hpages]

/-- The pages of the segment are visited in order, each once. -/
theorem segmentPages_pages (h : PageRange addrStart addrEnd) (hend : addrEnd.toNat ≤ 2 ^ 48) :
    (segmentPages addrStart addrEnd).map pageOf =
      List.range' (addrStart.toNat / 4096) ((addrEnd.toNat - addrStart.toNat) / 4096) := by
  rw [segmentPages_eq h, pagesFrom, h.numPages_toNat, List.map_map, List.range'_eq_map_range]
  refine List.map_congr_left fun i hi => ?_
  have hi' := List.mem_range.mp hi
  have hle := h.le
  rw [Function.comp_apply, pageOf, h.page_toNat hi']
  omega

theorem pageSet_segmentPages (h : PageRange addrStart addrEnd) (hend : addrEnd.toNat ≤ 2 ^ 48) :
    pageSet (segmentPages addrStart addrEnd) = segment addrStart addrEnd := by
  have hstart := h.start_aligned
  have haligned := h.end_aligned
  have hle := h.le
  ext p
  rw [pageSet, segmentPages_pages h hend, List.mem_toFinset, List.mem_range'_1, segment,
    Finset.mem_Ico]
  omega

/-! ## The whole segment -/

/-- `os_pfn_alloc(OS_PT_REG)` finds frames, and chooses some that are not in use. -/
def FreshTables (a : FrameAlloc) : Prop :=
  ∀ frames, a.table frames ≠ 0 ∧ a.table frames ∉ frames.tablesUsed

/-- The allocation of user pages, which plays no part here, may be any. -/
theorem FreshTables.ample (ha : FreshTables a) :
    FrameAlloc.Ample { a with page := nextFrame.page } :=
  ⟨⟨fun frames _ => (ha frames).2, nextFrame_ample.page⟩, fun frames => (ha frames).1,
    nextFrame_ample.some_page⟩

/-- The child shares the pages of a segment that the parent has, and no table. Neither may write
these pages, their frames have one more reference for each of them, and nothing else has
changed. -/
structure SharesSegment (m m' : Machine) (par child : Nat) (pages : Finset Nat) : Prop where
  frame : ∀ x, pageOf x ∈ pages → frameOf m'.table child x = frameOf m.table par x
  read_only : ∀ x, pageOf x ∈ pages → ∀ r, r = par ∨ r = child → ∀ e,
    walk m'.table r x = some e → e.writable = false
  refcount : ∀ f, m'.refcount f = m.refcount f + mappedPages m.table par pages f
  outside : ∀ x, pageOf x ∉ pages → ∀ r, r = par ∨ r = child →
    walk m'.table r x = walk m.table r x ∧ leafEntry m'.table r x = leafEntry m.table r x
  parent_frame : ∀ x, frameOf m'.table par x = frameOf m.table par x
  separate : Trees {par, child} Set.univ m'.table

theorem Copied.sharesSegment (h : Copied m m' par child visited) :
    SharesSegment m m' par child visited := by
  refine ⟨fun x hx => ?_, fun x hx r hr e he => ?_, h.refcount, fun x hx r hr => ?_, fun x => ?_,
    h.tidy.trees⟩
  · rw [frameOf, frameOf, h.child_in x hx, Option.map_map]
    rfl
  · rcases hr with rfl | rfl
    · rw [h.parent_in x hx] at he
      obtain ⟨e₀, _, rfl⟩ := Option.map_eq_some_iff.mp he
      exact Entry.clear_write_writable
    · rw [h.child_in x hx] at he
      obtain ⟨e₀, _, rfl⟩ := Option.map_eq_some_iff.mp he
      exact (by decide : (0x11 : BitVec 12).getLsbD 3 = false)
  · have hleaf := h.outside r x hr hx
    exact ⟨walk_of_leafEntry hleaf, hleaf⟩
  · by_cases hx : pageOf x ∈ visited
    · rw [frameOf, frameOf, h.parent_in x hx, Option.map_map]
      rfl
    · rw [frameOf, frameOf, walk_of_leafEntry (h.outside par x (Or.inl rfl) hx)]

/-- What `copy_MM_Segment` does to the page tables of parent and child, if the references of the
frames still fit in a byte when the child has the pages. -/
theorem segment_shared (ha : FreshTables a) (hbytes : a.CountsInBytes)
    (h : Tidy {par, child} Set.univ m) (hne : par ≠ child)
    (hrange : PageRange addrStart addrEnd) (hend : addrEnd.toNat ≤ 2 ^ 48)
    (habsent : ∀ x, pageOf x ∈ segment addrStart addrEnd → walk m.table child x = none)
    (hfit : CountsFit m par (segment addrStart addrEnd)) :
    SharesSegment m (copyMMSegment a addrStart addrEnd par child m) par child
      (segment addrStart addrEnd) := by
  have hpages := pageSet_segmentPages hrange hend
  have hnone : ∀ x ∈ segmentPages addrStart addrEnd, walk m.table child x = none :=
    fun x hx => habsent x (hpages ▸ mem_pageSet hx)
  let b : FrameAlloc := { a with page := nextFrame.page }
  have hexact : copyMMSegment a addrStart addrEnd par child m =
      copyPages b.exact par child m (segmentPages addrStart addrEnd) :=
    CountsFit.copyPages (a := b) (hpages ▸ hfit) h ha.ample ⟨hbytes.fits, hbytes.overrun⟩ hne hnone
  have hrun := (Copied.start h).run ha.ample.exact b.exact_counts hne hnone
  rw [Finset.union_empty, hpages, ← hexact] at hrun
  exact hrun.sharesSegment

/-- A process with one page present, and a child with an empty first-level table. -/
theorem segment_shared_sample :
    SharesSegment (byteFrame.allocTable filledMachine).2
      (copyMMSegment byteFrame 0x180201000 0x180203000 1 (byteFrame.allocTable filledMachine).1
        (byteFrame.allocTable filledMachine).2)
      1 (byteFrame.allocTable filledMachine).1 (segment 0x180201000 0x180203000) := by
  have hparent : Tidy {1} Set.univ filledMachine := by simpa using filledMachine_exact.tidy
  have hnew := hparent.newRoot byteFrame_ample ⟨0, Set.mem_univ 0⟩
  have hfresh : FreshTables byteFrame := fun frames =>
    ⟨byteFrame_ample.some_table frames,
      byteFrame_ample.table frames (byteFrame_ample.some_table frames)⟩
  have hfit : CountsFit filledMachine 1 (segment 0x180201000 0x180203000) := by decide +kernel
  exact segment_shared hfresh byteFrame_bytes (Set.pair_comm _ 1 ▸ hnew.tidy)
    (fun heq => hnew.fresh heq.symm) ⟨by decide, by decide, by decide, by decide⟩ (by decide)
    (fun x _ => hnew.empty x) (hfit.newRoot hparent byteFrame_ample (Set.mem_singleton 1))

end GemOS.Vm
