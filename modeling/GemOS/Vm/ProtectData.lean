import GemOS.Vm.Contents
import GemOS.Vm.FrameRuns

/-!
# What `vm_area_mprotect` does to the data

A page that becomes writable and shares its frame gets a new frame, and its contents are not copied:
it shows what the new frame holds, zeros if frames are handed out so. A page that becomes read-only
may disappear with its table. `ProtectSafe` says when neither happens. Then every page of every
process shows what it did before.
-/

namespace GemOS.Vm

open CopyOnWrite (Moved)

variable {a : FrameAlloc} {m m' : Machine} {r pgd f : Nat} {x y addr : U64} {e : Entry}
variable {roots : Set Nat} {pages : List U64} {length prot : CInt} {s : Space}

/-! ## Pages that become writable -/

/-- The frame of a page has other references. -/
def IsShared (m : Machine) (pgd : Nat) (x : U64) : Prop :=
  ∃ e, walk m.table pgd x = some e ∧ m.refcount e.pfn > 1

/-- If the page of an address has to get a new frame, it shows zeros already. -/
def Zeroable (m : Machine) (pgd : Nat) (x : U64) : Prop :=
  IsShared m pgd x → contents m pgd x = some fun _ => 0

/-- What `updatePFN` does when a page becomes writable. -/
structure MadeWritable (a : FrameAlloc) (roots : Set Nat) (m m' : Machine) (pgd : Nat) (x : U64) :
    Prop where
  tidy : Tidy roots Set.univ m'
  used : FramesUsed roots m'
  other : ∀ r y, r ∈ roots → ¬ (r = pgd ∧ pageOf y = pageOf x) →
    walk m'.table r y = walk m.table r y
  contents_other : ∀ r y, r ∈ roots → ¬ (r = pgd ∧ pageOf y = pageOf x) →
    contents m' r y = contents m r y
  kept : ¬ IsShared m pgd x → contents m' pgd x = contents m pgd x
  renewed : IsShared m pgd x → ∃ old, contents m' pgd x = some (a.fill old)
  zeroable : a.ZeroedPages → Zeroable m pgd x → ∀ y, Zeroable m' pgd y ↔ Zeroable m pgd y

theorem MadeWritable.zeroed (h : MadeWritable a roots m m' pgd x) (hzeros : a.ZeroedPages)
    (hshared : IsShared m pgd x) : contents m' pgd x = some fun _ => 0 := by
  obtain ⟨old, hnew⟩ := h.renewed hshared
  rw [hnew, hzeros old]

theorem zeroable_congr (h : pageOf y = pageOf x) : Zeroable m pgd y ↔ Zeroable m pgd x := by
  rw [Zeroable, Zeroable, IsShared, IsShared, contents, contents, walk_congr h]

/-- All pages have the frames that they had, with their counts. -/
theorem MadeWritable.of_same_frames (htidy : Tidy roots Set.univ m') (hused : FramesUsed roots m)
    (hr : pgd ∈ roots) (hother : ∀ r y, r ∈ roots → ¬ (r = pgd ∧ pageOf y = pageOf x) →
      walk m'.table r y = walk m.table r y)
    (hframe : frameOf m'.table pgd x = frameOf m.table pgd x) (hpage : m'.page = m.page)
    (hrefcount : m'.refcount = m.refcount) (hframes : m'.frames = m.frames)
    (hnot : ¬ IsShared m pgd x) : MadeWritable a roots m m' pgd x := by
  have hsame : ∀ r y, r ∈ roots → frameOf m'.table r y = frameOf m.table r y := by
    intro r y hr'
    by_cases heq : r = pgd ∧ pageOf y = pageOf x
    · rw [heq.1, frameOf_congr heq.2, frameOf_congr heq.2, hframe]
    · rw [frameOf, frameOf, hother r y hr' heq]
  have hshared : ∀ m y, IsShared m pgd y ↔
      ∃ f, frameOf m.table pgd y = some f ∧ m.refcount f > 1 := by
    intro m y
    rw [IsShared, frameOf]
    cases walk m.table pgd y <;> simp
  refine ⟨htidy, fun r y f hr' hf => ?_, hother, fun r y hr' _ => ?_, fun _ => ?_,
    fun h => absurd h hnot, fun _ _ y => ?_⟩
  · rw [hframes]
    exact hused r y f hr' (hsame r y hr' ▸ hf)
  · exact contents_congr hpage (hsame r y hr')
  · exact contents_congr hpage (hsame pgd x hr)
  · rw [Zeroable, Zeroable, hshared, hshared, contents_congr hpage (hsame pgd y hr),
      hsame pgd y hr, hrefcount]

/-- The machine after a page has got a new frame. -/
theorem unshared_frames (ha : a.Ample) (hshared : m.refcount f > 1)
    (hne : f ≠ (a.allocPage m).1) :
    (∀ g, g ≠ (a.allocPage m).1 → g ≠ f →
      ((a.allocPage m).2.release f).refcount g = m.refcount g) ∧
    ((a.allocPage m).2.release f).frames.pagesUsed = (a.allocPage m).1 :: m.frames.pagesUsed := by
  rw [ha.allocPage_eq] at hne ⊢
  have hput : ¬ m.refcount f - 1 = 0 := by omega
  simp only [Machine.release, Machine.putPfn, Function.update_self, Function.update_of_ne hne,
    if_neg hput]
  exact ⟨fun g hg hold => by rw [Function.update_of_ne hold, Function.update_of_ne hg], trivial⟩

/-- A shared page has got a new frame. -/
theorem MadeWritable.of_moved {t : Tables} (htidy : Tidy roots Set.univ m')
    (hused : FramesUsed roots m) (ha : a.Ample) (hr : pgd ∈ roots)
    (hwalk : walk m.table pgd x = some e) (hshared : m.refcount e.pfn > 1)
    (hset : LeafSet roots Set.univ m.table t pgd x ⟨(a.allocPage m).1, 0x19⟩)
    (hm' : m' = { (a.allocPage m).2.release e.pfn with table := t }) :
    MadeWritable a roots m m' pgd x := by
  have hfresh : ∀ r y, r ∈ roots → frameOf m.table r y ≠ some (a.allocPage m).1 :=
    fun r y hr' => hused.fresh ha hr'
  have hne : e.pfn ≠ (a.allocPage m).1 := fun heq =>
    hfresh pgd x hr (heq ▸ frameOf_of_walk hwalk)
  obtain ⟨hcounts, hpagesUsed⟩ := unshared_frames ha hshared hne
  subst hm'
  have hpage : ((a.allocPage m).2.release e.pfn).page =
      Function.update m.page (a.allocPage m).1 (a.fill (m.page (a.allocPage m).1)) := by
    rw [Machine.release_page, ha.allocPage_eq]
  have hmoved : Moved (pagesOf roots) m.store
      { (a.allocPage m).2.release e.pfn with table := t }.store (pgd, pageOf x)
      (a.allocPage m).1 (a.fill (m.page (a.allocPage m).1)) :=
    LeafSet.moved hset hused ha (Entry.ref_writable _) hpage
  have hother : ∀ r y, r ∈ roots → ¬ (r = pgd ∧ pageOf y = pageOf x) →
      walk t r y = walk m.table r y := fun r y hr' hneq =>
    hset.walk_other hr' (Set.mem_univ y) hneq
  have hnew := contents_of_moved hmoved
  refine ⟨htidy, fun r y f hr' hf => ?_, hother, fun r y hr' hneq => ?_, fun hnot => ?_,
    fun _ => ⟨_, hnew⟩, fun hzeros hzeroable y => ?_⟩
  · show f ∈ ((a.allocPage m).2.release e.pfn).frames.pagesUsed
    rw [hpagesUsed]
    by_cases heq : r = pgd ∧ pageOf y = pageOf x
    · have hframe : frameOf t r y = some (a.allocPage m).1 := by
        rw [heq.1, frameOf_congr heq.2, hset.frameOf, Entry.ref_writable]
      exact Option.some.inj (hframe.symm.trans hf) ▸ List.mem_cons_self
    · rw [frameOf, hother r y hr' heq] at hf
      exact List.mem_cons_of_mem _ (hused r y f hr' hf)
  · exact contents_of_moved_other hmoved hr' hneq
  · exact absurd ⟨e, hwalk, hshared⟩ hnot
  · by_cases hpageOf : pageOf y = pageOf x
    · rw [zeroable_congr hpageOf, zeroable_congr hpageOf]
      exact iff_of_true (fun _ => hnew.trans (congrArg some (hzeros _))) hzeroable
    · have hneq : ¬ (pgd = pgd ∧ pageOf y = pageOf x) := fun heq => hpageOf heq.2
      have hsame := contents_of_moved_other hmoved hr hneq
      by_cases hold : frameOf m.table pgd y = some e.pfn
      · -- the page has the frame that the other one had, and that is full of zeros
        have hzeros : contents m pgd y = some fun _ => 0 := by
          rw [← hzeroable ⟨e, hwalk, hshared⟩]
          exact contents_congr rfl (hold.trans (frameOf_of_walk hwalk).symm)
        exact iff_of_true (fun _ => hsame.trans hzeros) fun _ => hzeros
      · have hcount : ∀ e', walk m.table pgd y = some e' →
            ((a.allocPage m).2.release e.pfn).refcount e'.pfn = m.refcount e'.pfn := by
          intro e' he'
          refine hcounts _ (fun heq => ?_) fun heq => ?_
          · exact hfresh pgd y hr (heq ▸ frameOf_of_walk he')
          · exact hold (heq ▸ frameOf_of_walk he')
        rw [Zeroable, Zeroable, hsame]
        refine imp_congr_left (exists_congr fun e' => ?_)
        rw [hother pgd y hr hneq]
        exact and_congr_right fun he' => by rw [hcount e' he']

theorem updatePFN_madeWritable (h : Tidy roots Set.univ m) (hused : FramesUsed roots m)
    (ha : a.Ample) (hr : pgd ∈ roots) (hprot : prot ≠ 1) :
    MadeWritable a roots m (updatePFN a m pgd x prot) pgd x := by
  have htidy := (updatePFN_write_rights (x := x) (a := a) h hr (Set.mem_univ x) hprot).1
  cases hwalk : walk m.table pgd x with
  | none =>
      have hnot : ¬ IsShared m pgd x := fun ⟨e, he, _⟩ => by
        rw [hwalk] at he
        cases he
      rw [updatePFN_absent hwalk]
      exact .of_same_frames h hused hr (fun _ _ _ _ => rfl) rfl rfl rfl rfl hnot
  | some e =>
      obtain ⟨t, hupdate, hset⟩ :=
        updatePFN_write (a := a) h.trees hr (Set.mem_univ x) hprot hwalk
      rw [hupdate] at htidy ⊢
      by_cases hshared : m.refcount e.pfn > 1
      · simp only [if_pos hshared] at htidy hset ⊢
        exact .of_moved htidy hused ha hr hwalk hshared hset rfl
      · simp only [if_neg hshared] at htidy hset ⊢
        refine .of_same_frames htidy hused hr (fun r y hr' hneq => ?_) ?_ rfl rfl rfl ?_
        · exact hset.walk_other hr' (Set.mem_univ y) hneq
        · rw [hset.frameOf, Entry.set_write_ref, frameOf_of_walk hwalk]
          exact Entry.ref_eq_some.mpr ⟨(walk_eq_some.mp hwalk).2, rfl⟩
        · intro h'
          obtain ⟨e', he', hshared'⟩ := h'
          obtain rfl := Option.some.inj (hwalk.symm.trans he')
          exact hshared hshared'

theorem MadeWritable.contents (h : MadeWritable a roots m m' pgd x) (hzeros : a.ZeroedPages)
    (hzeroable : Zeroable m pgd x) (hr : r ∈ roots) : contents m' r y = contents m r y := by
  by_cases heq : r = pgd ∧ pageOf y = pageOf x
  · obtain ⟨rfl, hpage⟩ := heq
    rw [contents_page hpage, contents_page hpage]
    by_cases hshared : IsShared m r x
    · exact (h.zeroed hzeros hshared).trans (hzeroable hshared).symm
    · exact h.kept hshared
  · exact h.contents_other r y hr heq

/-! ## The pages of a range -/

/-- Pages that are made writable, one after the other: the other pages. -/
theorem writePages_other (h : Tidy roots Set.univ m) (hused : FramesUsed roots m) (ha : a.Ample)
    (hr : pgd ∈ roots) (hprot : prot ≠ 1) (hr' : r ∈ roots)
    (hne : ¬ (r = pgd ∧ ∃ x ∈ pages, pageOf y = pageOf x)) :
    walk (pages.foldl (fun m addr => updatePFN a m pgd addr prot) m).table r y =
      walk m.table r y := by
  induction pages generalizing m with
  | nil => rfl
  | cons page pages ih =>
      have hmade := updatePFN_madeWritable (x := page) h hused ha hr hprot
      rw [List.foldl_cons, ih hmade.tidy hmade.used fun ⟨heq, x, hx, hpage⟩ =>
        hne ⟨heq, x, List.mem_cons_of_mem page hx, hpage⟩]
      exact hmade.other r y hr' fun heq => hne ⟨heq.1, page, List.mem_cons_self, heq.2⟩

variable (pages) in
/-- A page of zeros stays one. -/
theorem writePages_zero (h : Tidy roots Set.univ m) (hused : FramesUsed roots m) (ha : a.Ample)
    (hzeros : a.ZeroedPages) (hr : pgd ∈ roots) (hprot : prot ≠ 1)
    (hzero : contents m pgd x = some fun _ => 0) :
    contents (pages.foldl (fun m addr => updatePFN a m pgd addr prot) m) pgd x =
      some fun _ => 0 := by
  induction pages generalizing m with
  | nil => exact hzero
  | cons page pages ih =>
      have hmade := updatePFN_madeWritable (x := page) h hused ha hr hprot
      refine ih hmade.tidy hmade.used ?_
      by_cases hpage : pageOf x = pageOf page
      · rw [contents_page hpage] at hzero ⊢
        by_cases hshared : IsShared m pgd page
        · exact hmade.zeroed hzeros hshared
        · exact (hmade.kept hshared).trans hzero
      · exact (hmade.contents_other pgd x hr fun heq => hpage heq.2).trans hzero

/-- If every page that is shared shows zeros, all pages show what they did. -/
theorem writePages_kept (h : Tidy roots Set.univ m) (hused : FramesUsed roots m) (ha : a.Ample)
    (hzeros : a.ZeroedPages) (hr : pgd ∈ roots) (hprot : prot ≠ 1)
    (hzeroable : ∀ x ∈ pages, Zeroable m pgd x)
    (hr' : r ∈ roots) :
    contents (pages.foldl (fun m addr => updatePFN a m pgd addr prot) m) r y =
      contents m r y := by
  induction pages generalizing m with
  | nil => rfl
  | cons page pages ih =>
      have hmade := updatePFN_madeWritable (x := page) h hused ha hr hprot
      have hpage := hzeroable page List.mem_cons_self
      rw [List.foldl_cons, ih hmade.tidy hmade.used fun x hx =>
        (hmade.zeroable hzeros hpage x).mpr (hzeroable x (List.mem_cons_of_mem page hx))]
      exact hmade.contents hzeros hpage hr'

/-- Otherwise some page shows zeros now and did not before. -/
theorem writePages_lost (h : Tidy roots Set.univ m) (hused : FramesUsed roots m) (ha : a.Ample)
    (hzeros : a.ZeroedPages) (hr : pgd ∈ roots) (hprot : prot ≠ 1) (hx : x ∈ pages)
    (hnot : ¬ Zeroable m pgd x) :
    ∃ y, (contents m pgd y).isSome ∧
      contents (pages.foldl (fun m addr => updatePFN a m pgd addr prot) m) pgd y ≠
        contents m pgd y := by
  induction pages generalizing m with
  | nil => cases hx
  | cons page pages ih =>
      have hmade := updatePFN_madeWritable (x := page) h hused ha hr hprot
      rw [List.foldl_cons]
      by_cases hpage : Zeroable m pgd page
      · rcases List.mem_cons.mp hx with rfl | hx
        · exact absurd hpage hnot
        obtain ⟨y, hy, hne⟩ := ih hmade.tidy hmade.used hx
          fun hx' => hnot ((hmade.zeroable hzeros hpage x).mp hx')
        rw [hmade.contents hzeros hpage hr] at hy hne
        exact ⟨y, hy, hne⟩
      · -- the first page that loses its contents
        obtain ⟨hshared, hdata⟩ := Classical.not_imp.mp hpage
        have hzero := writePages_zero pages hmade.tidy hmade.used ha hzeros hr hprot
          (hmade.zeroed hzeros hshared)
        obtain ⟨e, he, _⟩ := hshared
        refine ⟨page, ?_, fun heq => hdata (heq ▸ hzero)⟩
        rw [contents_isSome, he]
        rfl

/-- The loop over pages that become read-only, if they are all still there. -/
theorem readPages_kept_iff (h : Tidy roots Set.univ m) (hr : pgd ∈ roots) :
    (∀ r y, r ∈ roots → (contents m r y).isSome →
      contents (pages.foldl (fun m addr => updatePFN a m pgd addr 1) m) r y = contents m r y) ↔
    Keeps m.table pgd pages := by
  have hall : ∀ x ∈ pages, x ∈ Set.univ := fun x _ => Set.mem_univ x
  refine ⟨fun hkept => ?_, fun hkeeps r y hr' _ => ?_⟩
  · refine keeps_of_stay (a := a) h.trees hr hall fun x _ hx => ?_
    rw [← contents_isSome] at hx ⊢
    rw [hkept pgd x hr hx]
    exact hx
  · obtain ⟨t, hfold, _, honly⟩ := readPages_kept (a := a) h.trees hr hall hkeeps
    rw [hfold]
    refine contents_congr rfl ?_
    by_cases hin : r = pgd ∧ ∃ x ∈ pages, pageOf y = pageOf x
    · obtain ⟨rfl, hin⟩ := hin
      rw [frameOf, frameOf, honly.pages y (Set.mem_univ y) hin, Option.map_map]
      rfl
    · rw [frameOf, frameOf, walk, walk, honly.other r y hr' (Set.mem_univ y) hin]

/-! ## The call -/

/-- All areas end within the mmap area. -/
def InMmapArea (list : List VmArea) : Prop :=
  ∀ v ∈ list, v.vmEnd ≤ MMAP_AREA_END

/-- The rounded range lies in one area. -/
def InOneArea (list : List VmArea) (addr : U64) (length : CInt) : Prop :=
  ∃ v ∈ list, v.vmStart.toNat ≤ addr.toNat ∧
    addr.toNat + (widen (alignedLength length)).toNat ≤ v.vmEnd.toNat

/-- An overflow of the rounded length is negative. -/
theorem alignedLength_overflow (hlen : ¬ length.toInt < 0) (hmax : MAX_LENGTH < length.toNat) :
    2 ^ 63 ≤ (widen (alignedLength length)).toNat := by
  rw [alignedLength_min hlen hmax]
  decide

/-- The range of a call within one area consists of whole pages. -/
theorem InOneArea.range {list : List VmArea} (h : InOneArea list addr length)
    (hareas : InMmapArea list) (hlen : ¬ length.toInt < 0) (haddr : addr.toNat % 4096 = 0) :
    PageRange addr (addr + widen (alignedLength length)) ∧
      (addr + widen (alignedLength length)).toNat =
        addr.toNat + (widen (alignedLength length)).toNat ∧
      (addr + widen (alignedLength length)).toNat ≤ 2 ^ 48 := by
  obtain ⟨v, hv, _, hend⟩ := h
  have hbound := mmapAreaEnd_lt
  have hvend := BitVec.le_def.mp (hareas v hv)
  have hmax : length.toNat ≤ MAX_LENGTH := by
    by_contra hlarge
    have := alignedLength_overflow hlen (Nat.lt_of_not_le hlarge)
    omega
  have hsum : (addr + widen (alignedLength length)).toNat =
      addr.toNat + (widen (alignedLength length)).toNat := BitVec.toNat_add_of_lt (by omega)
  have hsize := alignedLength_toNat hmax
  unfold MAX_LENGTH at hmax
  rw [pageCeil] at hsize
  refine ⟨⟨haddr, ?_, ?_, ?_⟩, hsum, ?_⟩ <;> rw [hsum] <;> omega

/-- Pages that are present show what they did, in all processes, and outside of the range they also
have the entry that they had. -/
structure DataKept (roots : Set Nat) (m m' : Machine) (pgd : Nat) (addr : U64) (length : CInt) :
    Prop where
  present : ∀ r x, r ∈ roots → (contents m r x).isSome → contents m' r x = contents m r x
  outside : ∀ r x, r ∈ roots → x.toNat < 2 ^ 48 →
    ¬ (r = pgd ∧ addr.toNat ≤ x.toNat ∧
      x.toNat < addr.toNat + (widen (alignedLength length)).toNat) →
    walk m'.table r x = walk m.table r x

/-- If pages become read-only, their tables stay; if they become writable, those that are shared
show zeros. -/
def ProtectSafe (m : Machine) (pgd : Nat) (addr : U64) (length prot : CInt) : Prop :=
  (prot = 1 → Keeps m.table pgd (protectPages addr length)) ∧
    (prot = 3 → ∀ x ∈ protectPages addr length, Zeroable m pgd x)

/-- A call that returns 0 has visited the pages of its range. -/
theorem mprotect_visits (hok : (s.mprotect a pgd addr length prot).1 = 0) :
    ¬ length.toInt < 0 ∧ (prot = 1 ∨ prot = 3) ∧ (s.mprotect a pgd addr length prot).2.machine =
      (protectPages addr length).foldl (fun m addr => updatePFN a m pgd addr prot) s.machine := by
  simp only [Space.mprotect, vmAreaMprotect] at hok ⊢
  split_ifs at hok ⊢ with hbad
  · exact absurd hok neg_einval_ne_zero
  · cases hfrom : mprotectFrom addr (widen (alignedLength length)) prot s.areas.nullArea
        s.areas.list with
    | none =>
        simp only [hfrom] at hok
        exact absurd hok neg_einval_ne_zero
    | some result =>
        simp only [badProtectArgs, decide_eq_true_eq, not_or, not_and_or, not_not] at hbad
        exact ⟨hbad.1, hbad.2, rfl⟩

/-- A call of `vm_area_mprotect` for whole pages of one area that returns 0 keeps the data of all
processes exactly if it is safe. -/
theorem mprotect_data_kept_iff (ha : a.Ample) (hzeros : a.ZeroedPages)
    (h : Tidy roots Set.univ s.machine) (hused : FramesUsed roots s.machine) (hr : pgd ∈ roots)
    (hareas : InMmapArea s.areas.list) (haddr : addr.toNat % 4096 = 0)
    (hone : InOneArea s.areas.list addr length)
    (hok : (s.mprotect a pgd addr length prot).1 = 0) :
    DataKept roots s.machine (s.mprotect a pgd addr length prot).2.machine pgd addr length ↔
      ProtectSafe s.machine pgd addr length prot := by
  obtain ⟨hlen, hprot, hfold⟩ := mprotect_visits hok
  obtain ⟨hrange, hend, hbound⟩ := hone.range hareas hlen haddr
  -- visited pages lie in the range
  have hvisited : ∀ r x, x.toNat < 2 ^ 48 → ¬ (r = pgd ∧ addr.toNat ≤ x.toNat ∧
      x.toNat < addr.toNat + (widen (alignedLength length)).toNat) →
      ¬ (r = pgd ∧ ∃ page ∈ protectPages addr length, pageOf x = pageOf page) := by
    rintro r x hx hout ⟨hroot, page, hpage, hsame⟩
    have hin := hrange.of_page hbound hpage hx hsame.symm
    rw [hend] at hin
    exact hout ⟨hroot, hin⟩
  have hread_write : (1 : CInt) = 3 → ∀ x ∈ protectPages addr length,
      Zeroable s.machine pgd x := fun heq => absurd heq (by decide)
  rw [hfold]
  rcases hprot with rfl | rfl
  · refine ⟨fun hkept => ⟨fun _ => (readPages_kept_iff h hr).mp hkept.present, hread_write⟩,
      fun hsafe => ⟨(readPages_kept_iff h hr).mpr (hsafe.1 rfl), fun r x hr' hx hout => ?_⟩⟩
    obtain ⟨t, hread, _, honly⟩ :=
      readPages_kept (a := a) h.trees hr (fun x _ => Set.mem_univ x) (hsafe.1 rfl)
    rw [hread, walk, walk, honly.other r x hr' (Set.mem_univ x) (hvisited r x hx hout)]
  · have hne : (3 : CInt) ≠ 1 := by decide
    refine ⟨fun hkept => ⟨fun heq => absurd heq hne, fun _ x hx => ?_⟩,
      fun hsafe => ⟨fun r x hr' _ => ?_, fun r x hr' hx hout => ?_⟩⟩
    · by_contra hnot
      obtain ⟨y, hy, hlost⟩ := writePages_lost h hused ha hzeros hr hne hx hnot
      exact hlost (hkept.present pgd y hr hy)
    · exact writePages_kept h hused ha hzeros hr hne (hsafe.2 rfl) hr'
    · exact writePages_other h hused ha hr hne hr' (hvisited r x hx hout)

/-- The process with its page on a machine. -/
def sampleSpace (m : Machine) : Space :=
  ⟨⟨sampleProcess.areas, ⟨0, 0, 0⟩, 2⟩, m⟩

theorem sampleSpace_areas (m : Machine) : InMmapArea (sampleSpace m).areas.list ∧
    InOneArea (sampleSpace m).areas.list 0x180201000 0x1000 := by
  refine ⟨fun v hv => ?_, ⟨0x180201000, 0x180203000, 3⟩, by simp [sampleSpace, sampleProcess],
    by decide, by decide⟩
  have hends : ∀ v ∈ sampleProcess.areas, v.vmEnd ≤ MMAP_AREA_END := by decide
  exact hends v hv

/-- The page is not shared, and stays as it is when its process makes it writable once more. -/
theorem mprotect_data_kept_sample :
    DataKept {1} filledMachine
      ((sampleSpace filledMachine).mprotect nextFrame 1 0x180201000 0x1000 3).2.machine
      1 0x180201000 0x1000 := by
  have htidy : Tidy {1} Set.univ filledMachine := by simpa using filledMachine_exact.tidy
  have hused : FramesUsed {1} filledMachine := by simpa using filledMachine_exact.framesUsed
  refine (mprotect_data_kept_iff (s := sampleSpace filledMachine) nextFrame_ample nextFrame_zeroed
    htidy hused (Set.mem_singleton 1) (sampleSpace_areas _).1 (by decide) (sampleSpace_areas _).2
    rfl).mpr
    ⟨fun h => absurd h (by decide), fun _ x hx => ?_⟩
  intro h'
  obtain ⟨e, he, hshared⟩ := h'
  have hpages : protectPages 0x180201000 0x1000 = [0x180201000] := by decide
  rw [hpages] at hx
  obtain rfl := List.mem_singleton.mp hx
  change walk filledMachine.table 1 0x180201000 = some e at he
  have hcount : (walk filledMachine.table 1 0x180201000).map
      (fun e => filledMachine.refcount e.pfn) = some 1 := by decide +kernel
  rw [he] at hcount
  exact absurd hshared ((Option.some.inj hcount).le.not_gt)

/-- The process has forked, and shares its page with its child. -/
def forkedMachine : Machine :=
  (doCfork nextFrame 0x180201000 sampleProcess filledMachine).2

/-- The page that the process makes writable once more shows zeros. -/
theorem mprotect_zeroes_shared_page :
    Tidy {1, 5} Set.univ forkedMachine ∧ FramesUsed {1, 5} forkedMachine ∧
      InMmapArea (sampleSpace forkedMachine).areas.list ∧
      InOneArea (sampleSpace forkedMachine).areas.list 0x180201000 0x1000 ∧
      ((sampleSpace forkedMachine).mprotect nextFrame 1 0x180201000 0x1000 3).1 = 0 ∧
      ¬ DataKept {1, 5} forkedMachine
        ((sampleSpace forkedMachine).mprotect nextFrame 1 0x180201000 0x1000 3).2.machine
        1 0x180201000 0x1000 := by
  have hexact : RefsExact {5, 1} forkedMachine :=
    filledMachine_exact.doCfork nextFrame_ample nextFrame_counts 0x180201000
      (Finset.mem_singleton_self 1)
  have hroots : ((({5, 1} : Finset Nat) : Set Nat)) = {1, 5} := by
    rw [Finset.coe_pair, Set.pair_comm]
  refine ⟨hroots ▸ hexact.tidy, hroots ▸ hexact.framesUsed, (sampleSpace_areas _).1,
    (sampleSpace_areas _).2, rfl, fun hkept => ?_⟩
  have hbefore : (contents forkedMachine 1 0x180201000).map (· 0) = some 1 := by decide +kernel
  have hafter : (contents ((sampleSpace forkedMachine).mprotect nextFrame 1 0x180201000 0x1000
      3).2.machine 1 0x180201000).map (· 0) = some 0 := by decide +kernel
  rw [hkept.present 1 0x180201000 (by simp), hbefore] at hafter
  · cases hafter
  · rw [← Option.isSome_map, hbefore]
    rfl

end GemOS.Vm
