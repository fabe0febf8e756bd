import GemOS.Vm.AreaOrder
import GemOS.Vm.Faults

/-!
# The pages of a range

`freeAllPFNs` and `updateAllPFNs` visit the pages of a range one after the other. Over the whole
range, pages that are freed are no longer present, pages that are made read-only are not writable,
and nothing gains a right outside a range that is made writable.
-/

namespace GemOS.Vm

variable {addrStart addrEnd x y : U64} {m m' : Machine} {pgd r : Nat} {e e' : Entry}
variable {roots : Set Nat} {area : Set U64} {a : FrameAlloc} {pages : List U64}

/-- The number of pages of a range, without overflow. -/
theorem PageRange.numPages_toNat (h : PageRange addrStart addrEnd) :
    (numPages addrStart addrEnd).toInt.toNat = (addrEnd.toNat - addrStart.toNat) / 4096 := by
  obtain ⟨_, _, hle, hsize⟩ := h
  have hsub : (addrEnd - addrStart).toNat = addrEnd.toNat - addrStart.toNat :=
    BitVec.toNat_sub_of_le (BitVec.le_def.mpr hle)
  have hmsb : (addrEnd - addrStart).msb = false :=
    BitVec.msb_eq_false_iff_two_mul_lt.mpr (by rw [hsub]; omega)
  have hpage : FOUR_KB.msb = false := by decide
  have hcount : (numPages addrStart addrEnd).toNat = (addrEnd.toNat - addrStart.toNat) / 4096 := by
    have hfour : FOUR_KB.toNat = 4096 := rfl
    rw [numPages, BitVec.sdiv_eq, hmsb, hpage, BitVec.toNat_setWidth]
    simp only [BitVec.udiv_eq, BitVec.toNat_udiv, hsub, hfour]
    exact Nat.mod_eq_of_lt (by omega)
  rw [BitVec.toInt_eq_toNat_of_lt (by omega), hcount]
  omega

/-- The address of one page of the range. -/
theorem PageRange.page_toNat (h : PageRange addrStart addrEnd) {i : Nat}
    (hi : i < (addrEnd.toNat - addrStart.toNat) / 4096) :
    (addrStart + widen (BitVec.ofNat 32 i * 0x1000)).toNat = addrStart.toNat + i * 4096 := by
  obtain ⟨_, _, _, hsize⟩ := h
  have hoffset : (BitVec.ofNat 32 i * 0x1000 : CInt).toNat = i * 4096 := by
    rw [BitVec.toNat_mul, BitVec.toNat_ofNat, Nat.mod_eq_of_lt (show i < 2 ^ 32 by omega)]
    exact Nat.mod_eq_of_lt (show i * 4096 < 2 ^ 32 by omega)
  have := addrEnd.isLt
  rw [BitVec.toNat_add_of_lt] <;> rw [widen_toNat (by omega), hoffset]
  omega

/-- The visited addresses are the pages of the range. -/
theorem PageRange.mem_pages (h : PageRange addrStart addrEnd) :
    x ∈ pagesFrom addrStart (numPages addrStart addrEnd) ↔
      addrStart.toNat ≤ x.toNat ∧ x.toNat < addrEnd.toNat ∧ x.toNat % 4096 = 0 := by
  have hcount := h.numPages_toNat
  have hstart := h.start_aligned
  have hend := h.end_aligned
  rw [pagesFrom, hcount, List.mem_map]
  constructor
  · intro h'
    obtain ⟨i, hi, rfl⟩ := h'
    rw [List.mem_range] at hi
    rw [h.page_toNat hi]
    omega
  · intro h'
    obtain ⟨hge, hlt, haligned⟩ := h'
    refine ⟨(x.toNat - addrStart.toNat) / 4096, List.mem_range.mpr (by omega), ?_⟩
    rw [← BitVec.toNat_inj, h.page_toNat (by omega)]
    omega

/-- Every address of the range lies on a visited page. -/
theorem PageRange.exists_page (h : PageRange addrStart addrEnd)
    (hge : addrStart.toNat ≤ y.toNat) (hlt : y.toNat < addrEnd.toNat) :
    ∃ x ∈ pagesFrom addrStart (numPages addrStart addrEnd), pageOf x = pageOf y := by
  have hpage : (BitVec.ofNat 64 (y.toNat / 4096 * 4096)).toNat = y.toNat / 4096 * 4096 := by
    have := y.isLt
    rw [BitVec.toNat_ofNat]
    exact Nat.mod_eq_of_lt (by omega)
  refine ⟨BitVec.ofNat 64 (y.toNat / 4096 * 4096), h.mem_pages.mpr ?_, ?_⟩
  · obtain ⟨hstart, hend, _, _⟩ := h
    rw [hpage]
    omega
  · rw [pageOf, pageOf, hpage]
    omega

/-- Addresses on a visited page lie in the range. -/
theorem PageRange.of_page (h : PageRange addrStart addrEnd) (hend : addrEnd.toNat ≤ 2 ^ 48)
    (hx : x ∈ pagesFrom addrStart (numPages addrStart addrEnd)) (hy : y.toNat < 2 ^ 48)
    (hpage : pageOf x = pageOf y) : addrStart.toNat ≤ y.toNat ∧ y.toNat < addrEnd.toNat := by
  obtain ⟨hge, hlt, haligned⟩ := h.mem_pages.mp hx
  have := h.end_aligned
  rw [pageOf, pageOf] at hpage
  omega

/-! ## The loops -/

/-- Giving a frame back uses no table. -/
theorem Machine.release_tablesUsed (pfn : Nat) :
    (m.release pfn).frames.tablesUsed = m.frames.tablesUsed := by
  unfold Machine.release
  simp only
  split_ifs <;> rfl

/-- Entries that only lose bits leave the tables tidy. -/
theorem Tidy.weaker (h : Tidy roots area m) (hweaker : Weaker m.table m'.table)
    (hframes : m'.frames.tablesUsed = m.frames.tablesUsed) : Tidy roots area m' :=
  ⟨h.trees.weaker hweaker, fun r p f hp hf => hframes ▸ h.used r p f hp (hweaker.follow hf)⟩

/-- `freePFN` uses no table. -/
theorem freePFN_tablesUsed : (freePFN m pgd x).frames.tablesUsed = m.frames.tablesUsed := by
  unfold freePFN
  cases presentSlots m pgd x with
  | none => rfl
  | some s =>
      simp only
      split_ifs
      · rfl
      · exact Machine.release_tablesUsed _

/-- `updatePFN` with `PROT_READ` hands out no frame. -/
theorem updatePFN_read_frames : (updatePFN a m pgd x 1).frames = m.frames := by
  unfold updatePFN
  cases presentSlots m pgd x with
  | none => rfl
  | some s =>
      simp only [if_true, updatePTPermissions]
      split_ifs <;> rfl

/-- Freeing ranges is freeing their pages one after the other. -/
theorem freeRanges_eq (m : Machine) (pgd : Nat) (freed : List (U64 × U64)) :
    freed.foldl (fun m r => freeAllPFNs m pgd r.1 r.2) m =
      (freed.flatMap fun r => pagesFrom r.1 (numPages r.1 r.2)).foldl
        (fun m addr => freePFN m pgd addr) m := by
  rw [List.foldl_flatMap]
  rfl

/-- What `freePFN` keeps is kept when ranges are freed. -/
theorem freeRanges_keep {P : Machine → Prop} {freed : List (U64 × U64)} (h : P m)
    (hstep : ∀ m x, P m → P (freePFN m pgd x)) :
    P (freed.foldl (fun m r => freeAllPFNs m pgd r.1 r.2) m) := by
  rw [freeRanges_eq]
  exact List.foldlRecOn _ _ h fun m hm x _ => hstep m x hm

/-- After pages are freed they are not present, and no entry has a new bit. -/
theorem freePages_spec :
    Weaker m.table (pages.foldl (fun m addr => freePFN m pgd addr) m).table ∧
    ∀ x ∈ pages, walk (pages.foldl (fun m addr => freePFN m pgd addr) m).table pgd x = none := by
  induction pages generalizing m with
  | nil => exact ⟨Weaker.refl _, by simp⟩
  | cons page pages ih =>
      obtain ⟨hweaker, hnone⟩ := @ih (freePFN m pgd page)
      refine ⟨freePFN_weaker.trans hweaker, fun x hx => ?_⟩
      rcases List.mem_cons.mp hx with rfl | hx
      · cases hwalk :
            walk ((x :: pages).foldl (fun m addr => freePFN m pgd addr) m).table pgd x with
        | none => rfl
        | some e =>
            obtain ⟨e, hold, _⟩ := hweaker.walk hwalk
            rw [freePFN_walk] at hold
            cases hold
      · exact hnone x hx

/-- Freeing pages that are not present does nothing. -/
theorem freePages_absent (h : ∀ x ∈ pages, walk m.table pgd x = none) :
    pages.foldl (fun m addr => freePFN m pgd addr) m = m := by
  induction pages with
  | nil => rfl
  | cons page pages ih =>
      rw [List.foldl_cons, freePFN_absent (h page List.mem_cons_self)]
      exact ih fun x hx => h x (List.mem_cons_of_mem page hx)

/-- Freeing pages leaves the other pages alone. -/
theorem freePages_other (h : Trees roots area m.table) (hr : pgd ∈ roots)
    (hpages : ∀ x ∈ pages, x ∈ area) (hy : y ∈ area) (hne : ∀ x ∈ pages, pageOf y ≠ pageOf x) :
    walk (pages.foldl (fun m addr => freePFN m pgd addr) m).table pgd y = walk m.table pgd y := by
  induction pages generalizing m with
  | nil => rfl
  | cons page pages ih =>
      rw [List.foldl_cons, ih (h.weaker freePFN_weaker)
        (fun x hx => hpages x (List.mem_cons_of_mem page hx))
        fun x hx => hne x (List.mem_cons_of_mem page hx)]
      exact freePFN_other h hr (hpages page List.mem_cons_self) hy (hne page List.mem_cons_self)

/-- After pages are made read-only they are not writable, and no entry has a new bit. -/
theorem readPages_spec :
    Weaker m.table (pages.foldl (fun m addr => updatePFN a m pgd addr 1) m).table ∧
    (pages.foldl (fun m addr => updatePFN a m pgd addr 1) m).frames = m.frames ∧
    ∀ x ∈ pages, ∀ e, walk (pages.foldl (fun m addr => updatePFN a m pgd addr 1) m).table pgd x =
      some e → e.writable = false := by
  induction pages generalizing m with
  | nil => exact ⟨Weaker.refl _, rfl, by simp⟩
  | cons page pages ih =>
      obtain ⟨hweaker, hframes, hread⟩ := @ih (updatePFN a m pgd page 1)
      refine ⟨updatePFN_read_weaker.trans hweaker, hframes.trans updatePFN_read_frames,
        fun x hx e hwalk => ?_⟩
      rcases List.mem_cons.mp hx with rfl | hx
      · obtain ⟨e', hold, _, hle⟩ := hweaker.walk hwalk
        have hread' := updatePFN_read_walk hold
        cases hw : e.writable with
        | false => rfl
        | true => exact absurd (hle hw) (by simp [hread'])
      · exact hread x hx e hwalk

/-- Making one page writable gives rights to this page only. -/
theorem updatePFN_write_rights (h : Tidy roots area m) (hr : pgd ∈ roots) (hx : x ∈ area)
    {prot : CInt} (hprot : prot ≠ 1) :
    Tidy roots area (updatePFN a m pgd x prot) ∧
    ∀ y ∈ area, ∀ e', walk (updatePFN a m pgd x prot).table pgd y = some e' →
      ∃ e, walk m.table pgd y = some e ∧
        (e'.writable = true → e.writable = true ∨ pageOf y = pageOf x) := by
  cases hwalk : walk m.table pgd x with
  | none =>
      rw [updatePFN_absent hwalk]
      exact ⟨h, fun y _ e' he' => ⟨e', he', Or.inl⟩⟩
  | some e =>
      obtain ⟨t, hupdate, hset⟩ := updatePFN_write (a := a) h.trees hr hx hprot hwalk
      rw [hupdate]
      refine ⟨h.leafSet hset ?_, fun y hy e' he' => ?_⟩
      · simp only
        split_ifs
        · exact (Machine.release_tablesUsed _).trans FrameAlloc.allocPage_tablesUsed
        · rfl
      · by_cases hpage : pageOf y = pageOf x
        · exact ⟨e, (walk_congr hpage).trans hwalk, fun _ => Or.inr hpage⟩
        · exact ⟨e', (hset.walk_other hr hy fun heq => hpage heq.2).symm.trans he', Or.inl⟩

/-- Making pages writable adds no page, and makes no other page writable. -/
theorem writePages_spec (h : Tidy roots area m) (hr : pgd ∈ roots)
    (hpages : ∀ x ∈ pages, x ∈ area) {prot : CInt} (hprot : prot ≠ 1) :
    Tidy roots area (pages.foldl (fun m addr => updatePFN a m pgd addr prot) m) ∧
    ∀ y ∈ area, ∀ e',
      walk (pages.foldl (fun m addr => updatePFN a m pgd addr prot) m).table pgd y = some e' →
      ∃ e, walk m.table pgd y = some e ∧
        (e'.writable = true → e.writable = true ∨ ∃ x ∈ pages, pageOf y = pageOf x) := by
  induction pages generalizing m with
  | nil => exact ⟨h, fun y _ e' he' => ⟨e', he', Or.inl⟩⟩
  | cons page pages ih =>
      obtain ⟨htidy, hone⟩ :=
        updatePFN_write_rights (a := a) h hr (hpages page (by simp)) hprot
      obtain ⟨htidy', hrest⟩ := ih htidy fun x hx => hpages x (by simp [hx])
      refine ⟨htidy', fun y hy e' he' => ?_⟩
      obtain ⟨e₁, he₁, hwrite₁⟩ := hrest y hy e' he'
      obtain ⟨e, he, hwrite⟩ := hone y hy e₁ he₁
      refine ⟨e, he, fun hw => ?_⟩
      rcases hwrite₁ hw with hw | ⟨x, hx, hpage⟩
      · exact (hwrite hw).imp id fun hpage => ⟨page, by simp, hpage⟩
      · exact Or.inr ⟨x, by simp [hx], hpage⟩

end GemOS.Vm
