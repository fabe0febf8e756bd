import GemOS.Vm.AreaNeighbours
import GemOS.Vm.Translations

/-!
# The effect of one call

What `vm_area_map` and `vm_area_unmap` do to the areas and the page table of a process, for any
areas of the right form: the addresses that gain or lose access, the form and the number of the
areas, and the pages. A call of `vm_area_unmap` takes back what `vm_area_map` has done.
-/

namespace GemOS.Vm

variable {k : AreaKind} {s : Areas} {memptr v : VmArea} {tail areas rest : List VmArea}
variable {addr len : U64} {prot : U32} {edit : Edit} {length flag : CInt} {a e lo : Nat}
variable {m m' : Machine} {pgd : Nat} {x y : U64} {roots : Set Nat} {area : Set U64}

/-! ## New memory is cut out again -/

section

variable {u v b c : U64} {f : U32}

theorem cut_end (hu : u.toNat < b.toNat) (hb : b.toNat < c.toNat) :
    cut b.toNat c.toNat ⟨u, c, f⟩ = [⟨u, b, f⟩] := by
  have hover : Overlaps b.toNat c.toNat ⟨u, c, f⟩ := by
    simp only [Overlaps]
    omega
  have hmax : max b.toNat u.toNat = b.toNat := by omega
  simp [cut, hover, hu, hmax]

theorem cut_start (hb : b.toNat < c.toNat) (hv : c.toNat < v.toNat) :
    cut b.toNat c.toNat ⟨b, v, f⟩ = [⟨c, v, f⟩] := by
  have hover : Overlaps b.toNat c.toNat ⟨b, v, f⟩ := by
    simp only [Overlaps]
    omega
  simp [cut, hover, hv, Nat.not_lt.mpr (Nat.le_of_lt hv)]

theorem cut_middle (hu : u.toNat < b.toNat) (hb : b.toNat < c.toNat) (hv : c.toNat < v.toNat) :
    cut b.toNat c.toNat ⟨u, v, f⟩ = [⟨u, b, f⟩, ⟨c, v, f⟩] := by
  have hover : Overlaps b.toNat c.toNat ⟨u, v, f⟩ := by
    simp only [Overlaps]
    omega
  have hmax : max b.toNat u.toNat = b.toNat := by omega
  simp [cut, hover, hu, hv, hmax]

theorem cut_whole (hb : b.toNat < c.toNat) : cut b.toNat c.toNat ⟨b, c, f⟩ = [] := by
  have hover : Overlaps b.toNat c.toNat ⟨b, c, f⟩ := by
    simp only [Overlaps]
    omega
  simp [cut, hover]

end

theorem placeBetween_cut_back {next : VmArea} (hold : Ordered k memptr.vmEnd.toNat (next :: rest))
    (hleast : 0 < k.least) (hsize : memptr.vmStart.toNat < memptr.vmEnd.toNat)
    (hbehind : memptr.vmEnd.toNat ≤ addr.toNat) (hpos : addr.toNat < (addr + len).toNat)
    (hfits : (addr + len).toNat ≤ next.vmStart.toNat) :
    (placeBetween addr len prot memptr next rest).list.flatMap
      (cut addr.toNat (addr + len).toNat) = memptr :: next :: rest := by
  obtain ⟨_, _, _, hnext, _, hrest⟩ := hold
  have hkept : rest.flatMap (cut addr.toNat (addr + len).toNat) = rest :=
    (flatMap_cut_of_not (hrest.not_overlaps (by omega))).1
  have hmemptr : cut addr.toNat (addr + len).toNat memptr = [memptr] :=
    cut_of_not (not_overlaps_before hbehind)
  have hnext' : cut addr.toNat (addr + len).toNat next = [next] :=
    cut_of_not (not_overlaps_behind hfits)
  unfold placeBetween
  simp only
  split_ifs with hprev hjoins hboth
  · obtain ⟨⟨rfl, rfl⟩, _⟩ := hprev
    rw [List.flatMap_cons, List.flatMap_cons, cut_end hsize hpos, hnext', hkept]
    rfl
  · obtain ⟨_, hjoin, _⟩ := hjoins
    rw [List.flatMap_cons, List.flatMap_cons, cut_start hpos (by rw [hjoin]; omega), hmemptr,
      hkept, hjoin]
    rfl
  · obtain ⟨⟨rfl, rfl⟩, hjoin, hflags⟩ := hboth
    have hback : VmArea.mk (memptr.vmEnd + len) next.vmEnd memptr.accessFlags = next := by
      rw [hjoin, hflags]
    rw [List.flatMap_cons, cut_middle hsize hpos (by rw [hjoin]; omega), hkept, hback]
    rfl
  · rw [List.flatMap_cons, List.flatMap_cons, List.flatMap_cons, cut_whole hpos, hmemptr, hnext',
      hkept]
    rfl

/-- New memory that is cut out again leaves the areas as they were. -/
theorem Splice.cut_back (h : Splice addr len prot memptr rest edit)
    (hold : Ordered k memptr.vmEnd.toNat rest) (hleast : 0 < k.least)
    (hsize : memptr.vmStart.toNat < memptr.vmEnd.toNat) (hpos : addr.toNat < (addr + len).toNat) :
    edit.list.flatMap (cut addr.toNat (addr + len).toNat) = memptr :: rest ∧
      memptr.vmEnd.toNat ≤ addr.toNat := by
  induction h with
  | between hbehind hfits =>
      rw [BitVec.le_def] at hbehind hfits
      exact ⟨placeBetween_cut_back hold hleast hsize hbehind hpos hfits, hbehind⟩
  | @last memptr hbehind hfits =>
      rw [BitVec.le_def] at hbehind
      refine ⟨?_, hbehind⟩
      unfold placeLast
      split_ifs with hprev
      · obtain ⟨rfl, rfl⟩ := hprev
        rw [List.flatMap_singleton, cut_end hsize hpos]
      · have hmemptr : cut addr.toNat (addr + len).toNat memptr = [memptr] :=
          cut_of_not (not_overlaps_before hbehind)
        rw [List.flatMap_cons, List.flatMap_singleton, hmemptr, cut_whole hpos]
        rfl
  | @later memptr next rest edit h ih =>
      obtain ⟨_, hle, _, hnext, _, hrest⟩ := id hold
      obtain ⟨hcut, habove⟩ := ih hrest (by omega)
      have hmemptr : cut addr.toNat (addr + len).toNat memptr = [memptr] :=
        cut_of_not (not_overlaps_before (by omega))
      refine ⟨?_, by omega⟩
      rw [Edit.cons, List.flatMap_cons, hcut, hmemptr]
      rfl

/-! ## `vm_area_map` -/

/-- Areas of any access in the mmap area, none of them empty. -/
def mmapAreas : AreaKind :=
  ⟨1, MMAP_AREA_END.toNat, fun _ => True⟩

theorem mmapAreas_forMmap : mmapAreas.ForMmap :=
  ⟨by decide, rfl, fun _ _ => trivial⟩

/-- The first area, and behind it ordered areas of one kind. -/
def AreaList (k : AreaKind) (list : List VmArea) : Prop :=
  ∃ tail, list = dummyNode :: tail ∧ Ordered k HEAD_END tail

/-- New memory in `[a, e)` with access `prot`. -/
structure MapEffect (prot : U32) (s s' : Areas) (a e : Nat) : Prop where
  aligned : a % 4096 = 0
  inside : MMAP_AREA_START.toNat ≤ a ∧ e ≤ MMAP_AREA_END.toNat
  free : ∀ x f, HasAccess s.list x f → ¬ (a ≤ x ∧ x < e)
  access : ∀ x f, HasAccess s'.list x f ↔ HasAccess s.list x f ∨ a ≤ x ∧ x < e ∧ f = prot
  form : AreaList mmapAreas s'.list
  count : s'.numVmArea = s.numVmArea + BitVec.ofInt 64 (s'.list.length - s.list.length)
  merged : Merged s.list → Merged s'.list

/-- An address from 0 or a page of the mmap area on. -/
def HintOk (addr : U64) : Prop :=
  addr = 0 ∨ addr.toNat % 4096 = 0 ∧ MMAP_AREA_START ≤ addr ∧ addr < MMAP_AREA_END

theorem HintOk.mapOk (h : HintOk addr) (hpos : 1 ≤ length.toNat)
    (hmax : length.toNat ≤ MAX_LENGTH) : MapOk s addr length prot flag := by
  have hbound := mmapAreaEnd_toNat
  have haddr : addr.toNat % 4096 = 0 ∧ addr.toNat ≤ MMAP_AREA_END.toNat := by
    rcases h with rfl | ⟨haligned, _, hlt⟩
    · exact ⟨rfl, Nat.zero_le _⟩
    · exact ⟨haligned, Nat.le_of_lt (BitVec.lt_def.mp hlt)⟩
  refine Or.inr (Or.inr ⟨hpos, hmax, fun _ => ⟨haddr.1, ?_⟩⟩)
  unfold pageCeil
  unfold MAX_LENGTH at hmax
  omega

/-- What a placed range looks like to its caller. -/
theorem Splice.mapEffect {start : U64} (hsplice : Splice start len prot dummyNode tail edit)
    (hlist : s.list = dummyNode :: tail) (hordered : Ordered mmapAreas HEAD_END tail)
    (hprot : prot = 1 ∨ prot = 3)
    (hrange : GoodRange mmapAreas start len prot) (hpos : 0 < len.toNat) :
    MapEffect prot s (s.apply edit) start.toNat (start.toNat + len.toNat) := by
  have hbehind : Ordered mmapAreas dummyNode.vmEnd.toNat tail := hordered
  have hplaced := hsplice.placed hbehind (by decide) hrange rfl
  have hform : AreaList mmapAreas edit.list :=
    (AreasInv.of_extends hplaced.extends_first hprot).resolve_left fun hnil => by
      obtain ⟨first, rest, hcons, _⟩ := hplaced.extends_first
      rw [hnil] at hcons
      cases hcons
  -- the last address of the range lies in an area
  have hlast : HasAccess edit.list (start.toNat + len.toNat - 1) prot :=
    (hplaced.access _ _).mpr (Or.inr ⟨by omega, by omega, rfl⟩)
  have hinside : start.toNat + len.toNat ≤ MMAP_AREA_END.toNat := by
    obtain ⟨tail', htail', hordered'⟩ := hform
    obtain ⟨v, hv, _, hend, _⟩ := hlast
    rw [htail'] at hv
    rcases List.mem_cons.mp hv with rfl | hv
    · have : dummyNode.vmEnd.toNat ≤ MMAP_AREA_END.toNat := by decide
      omega
    · have : v.vmEnd.toNat ≤ MMAP_AREA_END.toNat := (hordered'.bounds hv).2.2.2.2
      omega
  refine ⟨hrange.addr_aligned, ⟨Nat.le_trans (by decide) hplaced.above, hinside⟩, fun x f hx => ?_,
    fun x f => ?_, hform, ?_, fun hmerged => ?_⟩
  · rw [hlist] at hx
    rcases hasAccess_cons.mp hx with hx | hx
    · have := hplaced.above
      omega
    · exact hplaced.free x f hx
  · rw [hlist]
    exact hplaced.access x f
  · rw [Areas.apply, hsplice.count, hlist]
  · exact (hsplice.merged (hlist ▸ hmerged)).1

/-- A call of `vm_area_map` with a good hint and a good length is rejected, or it adds memory where
there was none. -/
theorem vmAreaMap_effect (hlist : AreaList mmapAreas s.list) (hhint : HintOk addr)
    (hpos : 1 ≤ length.toNat) (hmax : length.toNat ≤ MAX_LENGTH)
    {prot : CInt} (hprot : prot = 1 ∨ prot = 3) (hflag : flag = 0 ∨ flag = 1) :
    vmAreaMap s addr length prot flag = (-EINVAL, s) ∨
    ∃ (r : Nat) (s' : Areas), vmAreaMap s addr length prot flag = ((r : Int), s') ∧
      MapEffect prot s s' r (r + pageCeil length.toNat) := by
  obtain ⟨tail, hcons, hordered⟩ := hlist
  have hlen := alignedLength_toNat hmax
  have hnonneg : ¬ length.toInt < 0 := by
    unfold MAX_LENGTH at hmax
    rw [BitVec.toInt_eq_toNat_of_lt (by omega)]
    omega
  have hgood : ¬ badMapArgs length prot flag = true := by
    rw [badMapArgs, decide_eq_true_eq]
    rcases hprot with rfl | rfl <;> rcases hflag with rfl | rfl <;> simp [hnonneg]
  refine (vmAreaMap_placed hcons hordered mmapAreas_forMmap hgood hprot
    (hhint.mapOk hpos hmax)).imp id ?_
  intro h
  obtain ⟨start, edit, hplaced, hsplice, hrange⟩ := h
  have heffect := hsplice.mapEffect hcons hordered hprot hrange (by
    rw [hlen, pageCeil]
    omega)
  have hsmall : start.toInt = start.toNat := BitVec.toInt_eq_toNat_of_lt (by
    have := heffect.inside.2
    have hbound := mmapAreaEnd_toNat
    omega)
  refine ⟨start.toNat, _, hplaced.trans (by rw [hsmall]), ?_⟩
  rw [← hlen]
  exact heffect

/-- The first area and one page that can be written. -/
def onePage : Areas :=
  ⟨[dummyNode, ⟨0x180202000, 0x180203000, 3⟩], ⟨0, 0, 0⟩, 2⟩

theorem onePage_list : AreaList mmapAreas onePage.list :=
  ⟨_, rfl, by decide, by decide, by decide, by decide, trivial, by decide, by decide⟩

/-- The gap before the page is filled, and the two pages become one area. -/
theorem vmAreaMap_effect_sample :
    vmAreaMap onePage 0x180201000 0x1000 3 1 = (-EINVAL, onePage) ∨
    ∃ (r : Nat) (s' : Areas), vmAreaMap onePage 0x180201000 0x1000 3 1 = ((r : Int), s') ∧
      MapEffect 3 onePage s' r (r + pageCeil (0x1000 : CInt).toNat) :=
  vmAreaMap_effect onePage_list (Or.inr ⟨by decide, by decide, by decide⟩) (by decide) (by decide)
    (Or.inr rfl) (Or.inr rfl)

/-! ## `vm_area_unmap` -/

/-- Ranges without present pages are given to `freeAllPFNs`. -/
theorem freeRanges_absent {freed : List (U64 × U64)}
    (h : ∀ r ∈ freed, ∀ x ∈ pagesFrom r.1 (numPages r.1 r.2), walk m.table pgd x = none) :
    freed.foldl (fun m r => freeAllPFNs m pgd r.1 r.2) m = m := by
  rw [freeRanges_eq]
  refine freePages_absent fun x hx => ?_
  obtain ⟨r, hr, hpage⟩ := List.mem_flatMap.mp hx
  exact h r hr x hpage

/-- Pages outside the ranges given to `freeAllPFNs` keep their walks. -/
theorem freeRanges_other {freed : List (U64 × U64)} (h : Trees {pgd} Set.univ m.table)
    (hne : ∀ r ∈ freed, ∀ x ∈ pagesFrom r.1 (numPages r.1 r.2), pageOf y ≠ pageOf x) :
    walk (freed.foldl (fun m r => freeAllPFNs m pgd r.1 r.2) m).table pgd y =
      walk m.table pgd y := by
  rw [freeRanges_eq]
  refine freePages_other h rfl (fun _ _ => trivial) trivial fun x hx => ?_
  obtain ⟨r, hr, hpage⟩ := List.mem_flatMap.mp hx
  exact hne r hr x hpage

/-- What is asked of the pages of a process: only memory is present. -/
def OnlyCovered (list : List VmArea) (t : Tables) (pgd : Nat) : Prop :=
  ∀ x ∈ mmapArea, ∀ e, walk t pgd x = some e → ∃ f, HasAccess list x.toNat f

/-- No memory is left in `[a, e)`, and all else is as it was. -/
structure UnmapEffect (k : AreaKind) (pgd : Nat) (s s' : Space) (a e : Nat) : Prop where
  access : ∀ x f, HasAccess s'.areas.list x f ↔ HasAccess s.areas.list x f ∧ ¬ (a ≤ x ∧ x < e)
  inside : ∀ x : U64, a ≤ x.toNat → x.toNat < e → walk s'.machine.table pgd x = none
  outside : ∀ x : U64, x.toNat < 2 ^ 48 → ¬ (a ≤ x.toNat ∧ x.toNat < e) →
    walk s'.machine.table pgd x = walk s.machine.table pgd x
  form : AreaList k s'.areas.list

/-- Areas of any access, which may be empty and end anywhere. -/
def anyAreas : AreaKind :=
  ⟨0, 2 ^ 64, fun _ => True⟩

/-- A page-aligned range of the mmap area behind the first area. -/
structure MmapRange (addr : U64) (length : CInt) : Prop where
  aligned : addr.toNat % 4096 = 0
  low : HEAD_END ≤ addr.toNat
  pos : 1 ≤ length.toNat
  small : length.toNat ≤ MAX_LENGTH
  high : addr.toNat + length.toNat ≤ MMAP_AREA_END.toNat

theorem MmapRange.end_le (h : MmapRange addr length) :
    addr.toNat + pageCeil length.toNat ≤ MMAP_AREA_END.toNat := by
  have hbound : MMAP_AREA_END.toNat % 4096 = 0 := by decide
  have haligned := h.aligned
  have hhigh := h.high
  unfold pageCeil
  omega

theorem MmapRange.rangeOk (h : MmapRange addr length) : RangeOk addr length :=
  ⟨h.aligned, h.pos, h.small, Nat.lt_of_le_of_lt h.end_le (by decide), Or.inl h.low⟩

theorem MmapRange.mem_mmapArea (h : MmapRange addr length) (hlo : addr.toNat ≤ x.toNat)
    (hhi : x.toNat < addr.toNat + pageCeil length.toNat) : x ∈ mmapArea := by
  have hhead := Nat.le_of_lt mmapAreaStart_lt_head
  have hlow := h.low
  have hend := h.end_le
  exact ⟨BitVec.le_def.mpr (by omega), BitVec.lt_def.mpr (by omega)⟩

theorem MmapRange.unmapEnd_eq (h : MmapRange addr length) :
    unmapEnd addr length = addr.toNat + pageCeil length.toNat := by
  have hpos := h.pos
  have hsmall := h.small
  unfold MAX_LENGTH at hsmall
  rw [unmapEnd, if_neg, pageCeil_add h.aligned]
  rw [BitVec.toInt_eq_toNat_of_lt (by omega)]
  omega

/-- A call of `vm_area_unmap` removes the memory and the pages of its range. -/
theorem unmap_effect {s : Space} (hlist : AreaList anyAreas s.areas.list)
    (htrees : Trees {pgd} Set.univ s.machine.table)
    (hcovered : OnlyCovered s.areas.list s.machine.table pgd) (hrange : MmapRange addr length) :
    UnmapEffect anyAreas pgd s (s.unmap pgd addr length).2 addr.toNat
      (addr.toNat + pageCeil length.toNat) := by
  have hinv : AreasInv anyAreas s.areas.list := Or.inr hlist
  have hspec := vmAreaUnmap_spec hinv (Nat.zero_le _) hrange.rangeOk.unmapOk
  rw [hrange.unmapEnd_eq] at hspec
  obtain ⟨hweaker, hgone⟩ := freeRanges_spec pgd s.machine fun r hr => (hspec.freed_good r hr).pages
  refine ⟨hspec.access, fun x hlo hhi => ?_, fun x hx hout => ?_,
    hspec.inv.resolve_left fun hnil => ?_⟩
  · by_cases hmem : ∃ f, HasAccess s.areas.list x.toNat f
    · obtain ⟨f, hf⟩ := hmem
      obtain ⟨r, hr, hin⟩ := hspec.freed_all _ f hf hlo hhi
      exact hgone r hr x hin.1 hin.2
    · -- without memory there was no page
      cases hwalk : walk (s.unmap pgd addr length).2.machine.table pgd x with
      | none => rfl
      | some e' =>
          obtain ⟨e, hold, _⟩ := hweaker.walk hwalk
          exact absurd (hcovered x (hrange.mem_mmapArea hlo hhi) e hold) hmem
  · refine freeRanges_other htrees fun r hr page hpage hsame => hout ?_
    have hfreed := hspec.freed_good r hr
    have hhigh := hfreed.high
    have hlow := hfreed.low
    have hend := hrange.end_le
    have hbound := Nat.le_of_lt mmapAreaEnd_lt
    have := hfreed.pages.of_page (by omega) hpage hx hsame.symm
    omega
  · -- the first area is still there
    obtain ⟨tail, hcons, _⟩ := hlist
    have hhead : HasAccess s.areas.list MMAP_AREA_START.toNat 0 := by
      rw [hcons, hasAccess_cons]
      exact Or.inl (by decide)
    have hlow := hrange.low
    have hbefore := mmapAreaStart_lt_head
    have hafter := (hspec.access _ _).mpr ⟨hhead, by omega⟩
    rw [hnil] at hafter
    exact hasAccess_nil.mp hafter

/-- The page has been written. -/
def onePageSpace : Space :=
  ⟨onePage, (makePresent nextFrame 3 emptyMachine 1 0x180202000).2⟩

theorem onePageSpace_spec :
    MadePresent {1} Set.univ 3 emptyMachine onePageSpace.machine 1 0x180202000 :=
  makePresent_spec 3 emptyMachine_tidy nextFrame_fresh (Set.mem_singleton 1) trivial

theorem onePageSpace_covered :
    OnlyCovered onePageSpace.areas.list onePageSpace.machine.table 1 := by
  intro x hx e he
  have hlist : onePageSpace.areas.list = [dummyNode, ⟨0x180202000, 0x180203000, 3⟩] := rfl
  by_cases hpage : pageOf x = pageOf 0x180202000
  · have hbound := mmapAreaEnd_lt
    have hlt := (mmapArea_toNat hx).2
    have hpage' : x.toNat / 4096 % 2 ^ 36 = 0x180202 := hpage
    refine ⟨3, ⟨0x180202000, 0x180203000, 3⟩, by simp [hlist], ?_, ?_, rfl⟩
    · show 0x180202000 ≤ x.toNat
      omega
    · show x.toNat < 0x180203000
      omega
  · rw [onePageSpace_spec.other 1 x rfl trivial fun heq => hpage heq.2,
      emptyMachine_walk x hx] at he
    cases he

/-- The page is unmapped together with the gap before it. -/
theorem unmap_effect_sample :
    UnmapEffect anyAreas 1 onePageSpace (onePageSpace.unmap 1 0x180201000 0x1001).2
      (0x180201000 : U64).toNat ((0x180201000 : U64).toNat + pageCeil (0x1001 : CInt).toNat) :=
  unmap_effect ⟨_, rfl, by decide, by decide, by decide, by decide, trivial, by decide, by decide⟩
    onePageSpace_spec.tidy.trees onePageSpace_covered
    ⟨by decide, by decide, by decide, by decide, by decide⟩

/-! ## `vm_area_unmap` after `vm_area_map` -/

/-- New memory lies in one area. -/
theorem Splice.one_area (h : Splice addr len prot memptr rest edit)
    (hold : Ordered k memptr.vmEnd.toNat rest) (hsize : memptr.vmStart.toNat ≤ memptr.vmEnd.toNat)
    (hpos : addr.toNat < (addr + len).toNat) :
    ∃ v ∈ edit.list, v.vmStart.toNat ≤ addr.toNat ∧ (addr + len).toNat ≤ v.vmEnd.toNat := by
  induction h with
  | @between memptr next rest hbehind hfits =>
      rw [BitVec.le_def] at hbehind hfits
      obtain ⟨_, _, _, hnext, _, _⟩ := hold
      unfold placeBetween
      simp only
      split_ifs with hprev hjoins hboth
      · obtain ⟨⟨rfl, _⟩, _⟩ := hprev
        exact ⟨_, List.mem_cons_self, hsize, Nat.le_refl _⟩
      · refine ⟨_, List.mem_cons_of_mem _ List.mem_cons_self, Nat.le_refl _, ?_⟩
        simp only
        omega
      · refine ⟨_, List.mem_cons_self, ?_, ?_⟩ <;> simp only <;> omega
      · exact ⟨_, List.mem_cons_of_mem _ List.mem_cons_self, Nat.le_refl _, Nat.le_refl _⟩
  | last hbehind hfits =>
      unfold placeLast
      split_ifs with hprev
      · obtain ⟨rfl, _⟩ := hprev
        exact ⟨_, List.mem_cons_self, hsize, Nat.le_refl _⟩
      · exact ⟨_, List.mem_cons_of_mem _ List.mem_cons_self, Nat.le_refl _, Nat.le_refl _⟩
  | later h ih =>
      obtain ⟨_, _, _, hnext, _, hrest⟩ := id hold
      obtain ⟨v, hv, hin⟩ := ih hrest (by omega)
      exact ⟨v, List.mem_cons_of_mem _ hv, hin⟩

/-- Two edits whose counts are the changes of the length of the list. -/
theorem Areas.apply_apply {list : List VmArea} {count : Int}
    (hedit : edit.count = edit.list.length - s.list.length)
    (hcount : count = s.list.length - edit.list.length) (hlist : list = s.list) :
    (s.apply edit).apply ⟨list, count⟩ = s := by
  have hsum : edit.count + count = 0 := by omega
  subst hlist
  have hzero : s.numVmArea + BitVec.ofInt 64 0 = s.numVmArea := by simp
  simp only [Areas.apply, BitVec.add_assoc, ← BitVec.ofInt_add, hsum, hzero]

/-- The areas, when memory that has been placed is unmapped again. -/
theorem vmAreaUnmap_placed {start : U64} (hlist : s.list = dummyNode :: tail)
    (hordered : Ordered mmapAreas HEAD_END tail) (hprot : prot = 1 ∨ prot = 3)
    (hsplice : Splice start (widen (alignedLength length)) prot dummyNode tail edit)
    (hrange : GoodRange mmapAreas start (widen (alignedLength length)) prot)
    (hpos : 1 ≤ length.toNat) (hmax : length.toNat ≤ MAX_LENGTH) :
    ∃ freed, vmAreaUnmap (s.apply edit) start length = (0, s, freed) ∧
      ∀ r ∈ freed, FreedRange mmapAreas start.toNat (start.toNat + pageCeil length.toNat) r := by
  have hlen := alignedLength_toNat hmax
  have hceil := le_pageCeil length.toNat
  have heffect := hsplice.mapEffect hlist hordered hprot hrange (by omega)
  have hsum : (start + widen (alignedLength length)).toNat =
      start.toNat + pageCeil length.toNat := by
    rw [BitVec.toNat_add_of_lt hrange.no_wrap, hlen]
  have hgrows : start.toNat < (start + widen (alignedLength length)).toNat := by omega
  obtain ⟨tail', htail', hordered'⟩ := heffect.form
  have hbehind : Ordered mmapAreas dummyNode.vmEnd.toNat tail := hordered
  obtain ⟨hback, hafter⟩ := hsplice.cut_back hbehind (by decide) (by decide) hgrows
  obtain ⟨v, hv, hv_start, hv_end⟩ := hsplice.one_area hbehind (by decide) hgrows
  rw [hsum] at hv_end hback
  -- the new memory lies behind the first area
  have hedit : edit.list = dummyNode :: tail' := htail'
  have hv_tail : v ∈ tail' := by
    rw [hedit] at hv
    refine List.mem_of_ne_of_mem (fun heq => ?_) hv
    rw [heq] at hv_end
    omega
  have hmmap : MmapRange start length :=
    ⟨hrange.addr_aligned, hafter, hpos, hmax, by have := heffect.inside.2; omega⟩
  have hhead : cut start.toNat (start.toNat + pageCeil length.toNat) dummyNode = [dummyNode] :=
    cut_of_not (by
      unfold Overlaps
      omega)
  rw [hedit, List.flatMap_cons, hhead] at hback
  rcases vmAreaUnmap_cases htail' (Or.inr hmmap.rangeOk.misses_head) with
    ⟨_, _, hnone⟩ | ⟨hzero, _, hwrap, heq⟩
  · have hbound := mmapAreaStart_lt_head
    have hlow := hmmap.low
    unfold MAX_LENGTH at hmax
    rw [BitVec.toInt_eq_toNat_of_lt (by omega)] at hnone
    rcases hnone with hzero | rfl | hbefore
    · omega
    · cases hv_tail
    · omega
  · have hsmall := toNat_lt_of_nonneg (show ¬ length.toInt < 0 by omega)
    obtain ⟨hcut, hfreed⟩ :=
      unmapFrom_eq hordered' rfl hsmall hwrap (hmmap.rangeOk.goodUnmap tail')
    rw [pageCeil_add hrange.addr_aligned] at hcut hfreed
    have hrestored : dummyNode :: (unmapFrom false tail' start length).list = s.list := by
      rw [hcut, hlist]
      exact hback
    refine ⟨(unmapFrom false tail' start length).freed, heq.trans ?_, fun r hr => ?_⟩
    · rw [unmapFrom_result hordered' (by omega) hsmall hv_tail hv_start (by omega),
        Areas.apply_apply ?_ ?_ hrestored]
      · rw [hsplice.count, hlist]
      · rw [unmapFrom_count, ← hrestored, hedit]
        simp only [List.length_cons]
        omega
    · rw [hfreed, ← pageCeil_add hrange.addr_aligned] at hr
      rw [← pageCeil_add hrange.addr_aligned]
      exact hordered'.mem_cutRange (hmmap.rangeOk.goodUnmap tail') (by omega) hr

/-- Memory that has just been mapped is unmapped again: areas, count and pages are as before. -/
theorem unmap_undoes_map (hlist : AreaList mmapAreas s.list)
    (hcovered : OnlyCovered s.list m.table pgd) (hhint : HintOk addr) (hpos : 1 ≤ length.toNat)
    (hmax : length.toNat ≤ MAX_LENGTH) {prot : CInt}
    (hmapped : (vmAreaMap s addr length prot flag).1 ≠ -EINVAL) :
    Space.unmap pgd ⟨(vmAreaMap s addr length prot flag).2, m⟩
      (BitVec.ofInt 64 (vmAreaMap s addr length prot flag).1) length = (0, ⟨s, m⟩) := by
  obtain ⟨tail, hcons, hordered⟩ := hlist
  have hgood : ¬ badMapArgs length prot flag = true := fun hbad =>
    hmapped (by rw [vmAreaMap, if_pos hbad])
  have hprot : prot = 1 ∨ prot = 3 := by
    simp only [badMapArgs, decide_eq_true_eq] at hgood
    grind only
  rcases vmAreaMap_placed hcons hordered mmapAreas_forMmap hgood hprot
    (hhint.mapOk hpos hmax) with hsame | ⟨start, edit, hplaced, hsplice, hrange⟩
  · exact absurd (congrArg Prod.fst hsame) hmapped
  have hlen := alignedLength_toNat hmax
  have hceil := le_pageCeil length.toNat
  have heffect := hsplice.mapEffect hcons hordered hprot hrange (by omega)
  obtain ⟨freed, hunmap, hfreed⟩ :=
    vmAreaUnmap_placed hcons hordered hprot hsplice hrange hpos hmax
  rw [hplaced, BitVec.ofInt_toInt, Space.unmap, hunmap]
  -- there was no memory in the range, so no page either
  have habsent : ∀ r ∈ freed, ∀ x ∈ pagesFrom r.1 (numPages r.1 r.2),
      walk m.table pgd x = none := by
    intro r hr x hx
    obtain ⟨hlo, hhi, _⟩ := (hfreed r hr).pages.mem_pages.mp hx
    have hlow := (hfreed r hr).low
    have hhigh := (hfreed r hr).high
    have hinside := heffect.inside
    cases hwalk : walk m.table pgd x with
    | none => rfl
    | some e =>
        have hmem : x ∈ mmapArea := ⟨BitVec.le_def.mpr (by omega), BitVec.lt_def.mpr (by omega)⟩
        obtain ⟨f, hf⟩ := hcovered x hmem e hwalk
        exact absurd ⟨by omega, by omega⟩ (heffect.free _ f hf)
  simp only [freeRanges_absent habsent]

/-- The gap before the page is filled and opened again. -/
theorem unmap_undoes_map_sample :
    Space.unmap 1 ⟨(vmAreaMap onePage 0x180201000 0xFFF 3 1).2, onePageSpace.machine⟩
      (BitVec.ofInt 64 (vmAreaMap onePage 0x180201000 0xFFF 3 1).1) 0xFFF =
      (0, ⟨onePage, onePageSpace.machine⟩) :=
  unmap_undoes_map onePage_list onePageSpace_covered (Or.inr ⟨by decide, by decide, by decide⟩)
    (by decide) (by decide) (by decide)

end GemOS.Vm
