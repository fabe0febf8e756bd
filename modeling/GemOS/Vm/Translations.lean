import Mathlib.Data.Set.Insert
import GemOS.Vm.AreaRuns
import GemOS.Vm.PageRanges

/-!
# Translations within the areas

The areas and the page table of one process together. Every page of the mmap area that is present
lies in an area, and it is writable only where the areas allow it. One lemma for each call says
when it keeps this; the last one is about runs.
-/

namespace GemOS.Vm

variable {a : FrameAlloc} {pgd : Nat} {s : Space} {m m' : Machine} {x addr : U64} {e e' : Entry}
variable {length prot flag errorCode : CInt} {list areas : List VmArea} {f : U32}

/-- The addresses that `mmap` hands out. -/
def mmapArea : Set U64 :=
  {x | MMAP_AREA_START ≤ x ∧ x < MMAP_AREA_END}

/-- The entry of a page grants no more than the areas that hold the address. -/
def Granted (list : List VmArea) (x : U64) (e : Entry) : Prop :=
  (∃ f, HasAccess list x.toNat f) ∧
    (e.writable = true → ∀ f, HasAccess list x.toNat f → f = 3)

/-- What holds of the areas and the page table of a process. -/
structure SpaceInv (pgd : Nat) (s : Space) : Prop where
  areas : AreasInv (mmapKind 0) s.areas.list
  tidy : Tidy {pgd} mmapArea s.machine
  granted : ∀ x ∈ mmapArea, ∀ e, walk s.machine.table pgd x = some e → Granted s.areas.list x e

theorem Ordered.access_unique {k : AreaKind} {lo x : Nat} {f' : U32} (h : Ordered k lo areas)
    (hf : HasAccess areas x f) (hf' : HasAccess areas x f') : f = f' := by
  induction areas generalizing lo with
  | nil => exact (hasAccess_nil.mp hf).elim
  | cons v rest ih =>
      obtain ⟨_, _, _, _, _, hrest⟩ := h
      rcases hasAccess_cons.mp hf with hf | hf <;> rcases hasAccess_cons.mp hf' with hf' | hf'
      · exact hf.2.2.symm.trans hf'.2.2
      · have := hrest.le_of_access hf'
        omega
      · have := hrest.le_of_access hf
        omega
      · exact ih hrest hf hf'

/-- No address lies in two areas. -/
theorem AreasInv.access_unique {k : AreaKind} {x : Nat} {f' : U32} (h : AreasInv k areas)
    (hf : HasAccess areas x f) (hf' : HasAccess areas x f') : f = f' := by
  rcases h with rfl | ⟨tail, rfl, hordered⟩
  · exact (hasAccess_nil.mp hf).elim
  · have hhead : dummyNode.vmEnd.toNat = HEAD_END := rfl
    rcases hasAccess_cons.mp hf with hf | hf <;> rcases hasAccess_cons.mp hf' with hf' | hf'
    · exact hf.2.2.symm.trans hf'.2.2
    · have := hordered.le_of_access hf'
      omega
    · have := hordered.le_of_access hf
      omega
    · exact hordered.access_unique hf hf'

/-- If there is memory, the list has been created. -/
theorem Areas.create_eq {s : Areas} {x : Nat} (h : HasAccess s.list x f) : s.create = s := by
  unfold Areas.create
  split_ifs with hnil
  · rw [hnil] at h
    exact (hasAccess_nil.mp h).elim
  · rfl

/-! ## The calls -/

/-- `vm_area_map` does not look at the page table. -/
theorem SpaceInv.map (h : SpaceInv pgd s) (hok : MapOk s.areas addr length prot flag) :
    SpaceInv pgd ⟨(vmAreaMap s.areas addr length prot flag).2, s.machine⟩ := by
  rcases vmAreaMap_spec h.areas (mmapKind_forMmap (by decide)) hok with hsame | ⟨_, hmapped⟩
  · rw [hsame]
    exact h
  · refine ⟨hmapped.inv, h.tidy, fun x hx e he => ?_⟩
    obtain ⟨⟨f, hf⟩, hwrite⟩ := h.granted x hx e he
    obtain ⟨lo, hi, hfree, haccess⟩ := hmapped.access
    rw [Areas.create_eq hf] at hfree haccess
    refine ⟨⟨f, (haccess _ _).mpr (Or.inl hf)⟩, fun hw f' hf' => ?_⟩
    rcases (haccess _ _).mp hf' with hold | ⟨hlo, hhi, _⟩
    · exact hwrite hw f' hold
    · exact absurd ⟨hlo, hhi⟩ (hfree _ _ hf)

variable (m pgd) in
/-- The page table part of `vm_area_unmap`. -/
theorem freeRanges_spec {freed : List (U64 × U64)} (hfreed : ∀ r ∈ freed, PageRange r.1 r.2) :
    Weaker m.table (freed.foldl (fun m r => freeAllPFNs m pgd r.1 r.2) m).table ∧
    ∀ r ∈ freed, ∀ x : U64, r.1.toNat ≤ x.toNat → x.toNat < r.2.toNat →
      walk (freed.foldl (fun m r => freeAllPFNs m pgd r.1 r.2) m).table pgd x = none := by
  rw [freeRanges_eq]
  obtain ⟨hweaker, hgone⟩ := @freePages_spec m pgd
    (freed.flatMap fun r => pagesFrom r.1 (numPages r.1 r.2))
  refine ⟨hweaker, fun r hr x hlo hhi => ?_⟩
  obtain ⟨page, hpage, hsame⟩ := (hfreed r hr).exists_page hlo hhi
  rw [← walk_congr hsame]
  exact hgone page (List.mem_flatMap.mpr ⟨r, hr, hpage⟩)

/-- The page table part of `vm_area_unmap` keeps the tables tidy. -/
theorem freeRanges_tidy {roots : Set Nat} {area : Set U64} {freed : List (U64 × U64)}
    (h : Tidy roots area m) :
    Tidy roots area (freed.foldl (fun m r => freeAllPFNs m pgd r.1 r.2) m) :=
  freeRanges_keep h fun _ _ h => h.weaker freePFN_weaker freePFN_tablesUsed

theorem SpaceInv.unmap (h : SpaceInv pgd s) (hok : UnmapOk 0 s.areas addr length) :
    SpaceInv pgd (s.unmap pgd addr length).2 := by
  have hunmap := vmAreaUnmap_spec h.areas (Nat.zero_le _) hok
  obtain ⟨hweaker, hgone⟩ := freeRanges_spec pgd s.machine fun r hr =>
    (hunmap.freed_good r hr).pages
  refine ⟨hunmap.inv, freeRanges_tidy h.tidy, fun x hx e' he' => ?_⟩
  obtain ⟨e, he, _, hle⟩ := hweaker.walk he'
  obtain ⟨⟨f, hf⟩, hwrite⟩ := h.granted x hx e he
  refine ⟨⟨f, (hunmap.access _ _).mpr ⟨hf, fun hin => ?_⟩⟩, fun hw f' hf' => ?_⟩
  · -- memory of the range has been freed
    obtain ⟨r, hr, hlo, hhi⟩ := hunmap.freed_all _ _ hf hin.1 hin.2
    have hnone := hgone r hr x hlo hhi
    rw [Space.unmap] at he'
    rw [hnone] at he'
    cases he'
  · exact hwrite (hle hw) f' ((hunmap.access _ _).mp hf').1

theorem mmapArea_toNat (hx : x ∈ mmapArea) :
    MMAP_AREA_START.toNat ≤ x.toNat ∧ x.toNat < MMAP_AREA_END.toNat :=
  ⟨BitVec.le_def.mp hx.1, BitVec.lt_def.mp hx.2⟩

/-- `vm_area_mprotect` with its page table part. -/
theorem SpaceInv.mprotect (h : SpaceInv pgd s)
    (hok : ProtectOk s.areas addr length prot) :
    SpaceInv pgd (s.mprotect a pgd addr length prot).2 := by
  rcases vmAreaMprotect_spec h.areas (Nat.zero_le _) (fun _ => id) hok with
    heq | ⟨areas', r, heq, hchanged⟩
  · rw [Space.mprotect, heq]
    exact h
  rw [Space.mprotect, heq]
  have hrange := hchanged.range_good
  have hinside : r.2.toNat ≤ MMAP_AREA_END.toNat := hchanged.range_inside
  have hvisited : ∀ x ∈ mmapArea, ∀ page ∈ pagesFrom r.1 (numPages r.1 r.2),
      pageOf page = pageOf x → r.1.toNat ≤ x.toNat ∧ x.toNat < r.2.toNat := fun x hx page hpage =>
    hrange.of_page (Nat.le_trans hinside (by decide)) hpage
      (Nat.lt_of_lt_of_le (mmapArea_toNat hx).2 (by decide))
  -- a page keeps its entry up to rights, which only the new access can add
  have hrights : ∀ (m' : Machine), Tidy {pgd} mmapArea m' →
      (∀ x ∈ mmapArea, ∀ e', walk m'.table pgd x = some e' →
        ∃ e, walk s.machine.table pgd x = some e ∧ (e'.writable = true →
          (r.1.toNat ≤ x.toNat ∧ x.toNat < r.2.toNat) ∧ prot = 3 ∨
          ¬ (r.1.toNat ≤ x.toNat ∧ x.toNat < r.2.toNat) ∧ e.writable = true)) →
      SpaceInv pgd ⟨areas', m'⟩ := by
    intro m' htidy hm'
    refine ⟨hchanged.inv, htidy, fun x hx e' he' => ?_⟩
    obtain ⟨e, he, hw⟩ := hm' x hx e' he'
    obtain ⟨⟨f, hf⟩, hwrite⟩ := h.granted x hx e he
    refine ⟨?_, fun hwritable f' hf' => ?_⟩
    · by_cases hin : r.1.toNat ≤ x.toNat ∧ x.toNat < r.2.toNat
      · exact ⟨prot, (hchanged.access _ _).mpr (Or.inl ⟨hin, rfl⟩)⟩
      · exact ⟨f, (hchanged.access _ _).mpr (Or.inr ⟨hin, hf⟩)⟩
    · rcases hw hwritable with ⟨hin, rfl⟩ | ⟨hout, hold⟩ <;>
        rcases (hchanged.access _ _).mp hf' with ⟨hin', hprot⟩ | ⟨hout', hf'⟩
      · exact hprot
      · exact absurd hin hout'
      · exact absurd hin' hout
      · exact hwrite hold f' hf'
  by_cases hread : prot = 1
  · subst hread
    obtain ⟨hweaker, hframes, hnot⟩ := @readPages_spec s.machine pgd a
      (pagesFrom r.1 (numPages r.1 r.2))
    refine hrights _ (h.tidy.weaker hweaker (congrArg _ hframes)) fun x hx e' he' => ?_
    obtain ⟨e, he, _, hle⟩ := hweaker.walk he'
    refine ⟨e, he, fun hw => Or.inr ⟨fun hin => ?_, hle hw⟩⟩
    obtain ⟨page, hpage, hsame⟩ := hrange.exists_page hin.1 hin.2
    rw [← walk_congr hsame] at he'
    exact absurd hw (by simp [hnot page hpage e' he'])
  · have hprot : prot = 3 := hchanged.prot_good.resolve_left hread
    have hpages : ∀ page ∈ pagesFrom r.1 (numPages r.1 r.2), page ∈ mmapArea := by
      intro page hpage
      obtain ⟨hlo, hhi, _⟩ := hrange.mem_pages.mp hpage
      have hhead := Nat.le_of_lt mmapAreaStart_lt_head
      have := hchanged.range_above
      exact ⟨BitVec.le_def.mpr (by omega), BitVec.lt_def.mpr (by omega)⟩
    obtain ⟨htidy, hwalk⟩ := writePages_spec (a := a) h.tidy (Set.mem_singleton pgd) hpages hread
    refine hrights _ htidy fun x hx e' he' => ?_
    obtain ⟨e, he, hw⟩ := hwalk x hx e' he'
    refine ⟨e, he, fun hwritable => ?_⟩
    by_cases hin : r.1.toNat ≤ x.toNat ∧ x.toNat < r.2.toNat
    · exact Or.inl ⟨hin, hprot⟩
    · refine Or.inr ⟨hin, (hw hwritable).resolve_right ?_⟩
      intro h'
      obtain ⟨page, hpage, hsame⟩ := h'
      exact hin (hvisited x hx page hpage hsame.symm)

theorem faultArea_some {vma : VmArea} (h : faultArea addr list = some vma) :
    vma ∈ list ∧ vma.vmStart.toNat ≤ addr.toNat ∧ addr.toNat < vma.vmEnd.toNat := by
  induction list with
  | nil => cases h
  | cons v rest ih =>
      rw [faultArea] at h
      split_ifs at h with hin
      · obtain rfl := Option.some.inj h
        exact ⟨by simp, BitVec.le_def.mp hin.1, BitVec.lt_def.mp hin.2⟩
      · obtain ⟨hmem, hbounds⟩ := ih h
        exact ⟨List.mem_cons_of_mem _ hmem, hbounds⟩

/-- A fault with the write and the present bit set is only raised for a page that is present. -/
def FaultOk (pgd : Nat) (m : Machine) (addr : U64) (errorCode : CInt) : Prop :=
  errorCode = 0x7 → (walk m.table pgd addr).isSome

/-- The areas of a process start and end at pages of the mmap area. -/
theorem AreasInv.area_bounds {m : Nat} (h : AreasInv (mmapKind m) list) {v : VmArea}
    (hv : v ∈ list) :
    v.vmStart.toNat % 4096 = 0 ∧ v.vmEnd.toNat % 4096 = 0 ∧
      MMAP_AREA_START.toNat ≤ v.vmStart.toNat ∧ v.vmEnd.toNat ≤ MMAP_AREA_END.toNat ∧
      (v.accessFlags = 0 ∨ v.accessFlags = 1 ∨ v.accessFlags = 3) := by
  rcases h with rfl | ⟨tail, rfl, hordered⟩
  · cases hv
  · rcases List.mem_cons.mp hv with rfl | hv
    · decide
    · obtain ⟨hlo, hstart, _, hend, hle⟩ := hordered.bounds hv
      exact ⟨hstart, hend, Nat.le_trans (by decide) hlo, hle,
        Or.inr (hordered.access_good v hv)⟩

/-- A fault gives the page of one address the access of its area. -/
theorem SpaceInv.fault (ha : a.Fresh) (h : SpaceInv pgd s)
    (hok : FaultOk pgd s.machine addr errorCode) :
    SpaceInv pgd ⟨s.areas,
      (vmAreaPagefault a s.machine pgd s.areas.list addr errorCode).2⟩ := by
  have hself : SpaceInv pgd ⟨s.areas, s.machine⟩ := h
  unfold vmAreaPagefault
  cases harea : faultArea addr s.areas.list with
  | none => exact hself
  | some vma =>
      obtain ⟨hmem, hlo, hhi⟩ := faultArea_some harea
      obtain ⟨hstart, hend, hlow, hhigh, hflags⟩ := h.areas.area_bounds hmem
      have hx : addr ∈ mmapArea :=
        ⟨BitVec.le_def.mpr (by omega), BitVec.lt_def.mpr (by omega)⟩
      -- the whole page lies in the area
      have hpage : ∀ y ∈ mmapArea, pageOf y = pageOf addr →
          HasAccess s.areas.list y.toNat vma.accessFlags := by
        intro y hy hsame
        have hbound := mmapAreaEnd_lt
        have := mmapArea_toNat hy
        rw [pageOf, pageOf] at hsame
        exact ⟨vma, hmem, by omega, by omega, rfl⟩
      -- what other pages have is as it was, and the page has the access of the area
      have hrights : ∀ m', Tidy {pgd} mmapArea m' →
          (∀ y ∈ mmapArea, pageOf y ≠ pageOf addr →
            walk m'.table pgd y = walk s.machine.table pgd y) →
          (∀ e', walk m'.table pgd addr = some e' → e'.writable = true →
            vma.accessFlags = 3 ∨ walk s.machine.table pgd addr = some e') →
          SpaceInv pgd ⟨s.areas, m'⟩ := by
        intro m' htidy hother hthis
        refine ⟨h.areas, htidy, fun y hy e' he' => ?_⟩
        by_cases hsame : pageOf y = pageOf addr
        · have hf := hpage y hy hsame
          refine ⟨⟨_, hf⟩, fun hw f' hf' => ?_⟩
          rw [walk_congr hsame] at he'
          rcases hthis e' he' hw with h3 | hold
          · rw [← h3]
            exact h.areas.access_unique hf' hf
          · rw [← walk_congr hsame] at hold
            exact (h.granted y hy e' hold).2 hw f' hf'
        · rw [hother y hy hsame] at he'
          exact h.granted y hy e' he'
      simp only
      split_ifs with hbad hcow hread
      · exact hself
      · exact hself
      · -- a copy of a page that is present
        by_cases hwrite : vma.accessFlags = 3
        · obtain ⟨e, he⟩ := Option.isSome_iff_exists.mp (hok hcow)
          rw [hwrite]
          obtain ⟨t, hcopied, hset⟩ :=
            handleCowFault_spec (a := a) h.tidy.trees (Set.mem_singleton pgd) hx (Or.inr rfl) he
          rw [hcopied]
          refine hrights _ (h.tidy.leafSet hset ?_) (fun y hy hne => ?_) fun _ _ _ => Or.inl hwrite
          · exact (Machine.release_tablesUsed _).trans FrameAlloc.allocPage_tablesUsed
          · exact hset.walk_other (Set.mem_singleton pgd) hy fun heq => hne heq.2
        · have hzero : vma.accessFlags = 0 :=
            hflags.resolve_right fun h => h.elim hread hwrite
          rw [handleCowFault, if_pos (by rw [hzero]; decide)]
          exact hself
      · have hmade := makePresent_spec vma.accessFlags h.tidy ha
          (Set.mem_singleton pgd) hx
        refine hrights _ hmade.tidy (fun y hy hne => ?_) fun e' he' hw => ?_
        · exact hmade.other pgd y (Set.mem_singleton pgd) hy fun heq => hne heq.2
        · rcases hmade.this with hsame | ⟨_, n, hnew⟩
          · exact Or.inr (hsame ▸ he')
          · rw [hnew] at he'
            obtain rfl := Option.some.inj he'
            by_cases h3 : vma.accessFlags = 3
            · exact Or.inl h3
            · rw [if_neg h3] at hw
              exact absurd hw (by decide : ¬ (0x11 : BitVec 12).getLsbD 3 = true)

/-! ## Runs -/

/-- A call of one of the three functions, or a page fault. -/
inductive SpaceCall where
  | map (addr : U64) (length prot flag : CInt)
  | unmap (addr : U64) (length : CInt)
  | mprotect (addr : U64) (length prot : CInt)
  | fault (addr : U64) (errorCode : CInt)

/-- The process after a call or a fault. -/
def spaceStep (a : FrameAlloc) (pgd : Nat) (s : Space) : SpaceCall → Option Space
  | .map addr length prot flag =>
      some ⟨(vmAreaMap s.areas addr length prot flag).2, s.machine⟩
  | .unmap addr length => some (s.unmap pgd addr length).2
  | .mprotect addr length prot => some (s.mprotect a pgd addr length prot).2
  | .fault addr errorCode =>
      some ⟨s.areas, (vmAreaPagefault a s.machine pgd s.areas.list addr errorCode).2⟩

/-- The calls that keep the translations within the areas. -/
def SpaceCallOk (pgd : Nat) (s : Space) : SpaceCall → Prop
  | .map addr length prot flag => MapOk s.areas addr length prot flag
  | .unmap addr length => UnmapOk 0 s.areas addr length
  | .mprotect addr length prot => ProtectOk s.areas addr length prot
  | .fault addr errorCode => FaultOk pgd s.machine addr errorCode

theorem spaceStep_inv (ha : a.Fresh) {call : SpaceCall} (h : SpaceInv pgd s)
    (hok : SpaceCallOk pgd s call) : ∃ s', spaceStep a pgd s call = some s' ∧ SpaceInv pgd s' := by
  cases call with
  | map addr length prot flag => exact ⟨_, rfl, h.map hok⟩
  | unmap addr length => exact ⟨_, rfl, h.unmap hok⟩
  | mprotect addr length prot => exact ⟨_, rfl, h.mprotect hok⟩
  | fault addr errorCode => exact ⟨_, rfl, h.fault ha hok⟩

/-- Every page of the mmap area that is present lies in an area, and it is writable only if all
areas that hold it are. -/
structure WithinAreas (list : List VmArea) (t : Tables) (pgd : Nat) : Prop where
  present : ∀ x ∈ mmapArea, ∀ e, walk t pgd x = some e →
    ∃ v ∈ list, v.vmStart ≤ x ∧ x < v.vmEnd
  writable : ∀ x ∈ mmapArea, ∀ e, walk t pgd x = some e → e.writable = true →
    ∀ v ∈ list, v.vmStart ≤ x → x < v.vmEnd → v.accessFlags = 3

theorem SpaceInv.withinAreas (h : SpaceInv pgd s) :
    WithinAreas s.areas.list s.machine.table pgd := by
  refine ⟨fun x hx e he => ?_, fun x hx e he hw v hv hlo hhi => ?_⟩
  · obtain ⟨f, v, hv, hlo, hhi, _⟩ := (h.granted x hx e he).1
    exact ⟨v, hv, BitVec.le_def.mpr hlo, BitVec.lt_def.mpr hhi⟩
  · exact (h.granted x hx e he).2 hw _ ⟨v, hv, BitVec.le_def.mp hlo, BitVec.lt_def.mp hhi, rfl⟩

/-- After any calls and faults that meet the conditions, the page table grants no more than the
areas do. -/
theorem translations_within_areas {nullArea : VmArea} {numVmArea : U64} (ha : a.Fresh)
    (htidy : Tidy {pgd} mmapArea m) (hnone : ∀ x ∈ mmapArea, walk m.table pgd x = none)
    {calls : List SpaceCall}
    (hcalls : Runs.AllSteps (spaceStep a pgd) (SpaceCallOk pgd) ⟨⟨[], nullArea, numVmArea⟩, m⟩
      calls) :
    ∃ s, Runs.run (spaceStep a pgd) ⟨⟨[], nullArea, numVmArea⟩, m⟩ calls = some s ∧
      WithinAreas s.areas.list s.machine.table pgd := by
  have hstep : ∀ (s : Space) (call : SpaceCall), SpaceInv pgd s → SpaceCallOk pgd s call →
      ∃ s', spaceStep a pgd s call = some s' ∧ SpaceInv pgd s' :=
    fun s call hinv hok => spaceStep_inv ha hinv hok
  have hstart : SpaceInv pgd ⟨⟨[], nullArea, numVmArea⟩, m⟩ := by
    refine ⟨Or.inl rfl, htidy, fun x hx e he => ?_⟩
    rw [hnone x hx] at he
    cases he
  obtain ⟨s, hrun, hinv⟩ := Runs.run_invariant hstep hstart hcalls
  exact ⟨s, hrun, hinv.withinAreas⟩

/-- The least frame numbers that are larger than all those in use; pages are handed out empty. -/
def nextFrame : FrameAlloc where
  table frames := frames.tablesUsed.foldr max 0 + 1
  page frames := frames.pagesUsed.foldr max 0 + 1
  fill _ _ := 0
  increment n := n + 1

/-- A machine whose only table is empty, in frame 1. -/
def emptyMachine : Machine :=
  ⟨fun _ _ => .zero, fun _ _ => 0, fun _ => 0, ⟨[1], [], 0, 0⟩⟩

theorem le_foldr_max {n : Nat} {l : List Nat} (h : n ∈ l) : n ≤ l.foldr max 0 := by
  induction l with
  | nil => cases h
  | cons k l ih =>
      rw [List.foldr_cons]
      rcases List.mem_cons.mp h with rfl | h
      · exact Nat.le_max_left _ _
      · exact Nat.le_trans (ih h) (Nat.le_max_right _ _)

theorem nextFrame_fresh : nextFrame.Fresh :=
  ⟨fun _ _ h => Nat.lt_irrefl _ (le_foldr_max h), fun _ _ h => Nat.lt_irrefl _ (le_foldr_max h)⟩

/-- The empty table leads nowhere. -/
theorem emptyMachine_follow {r : Nat} {i : U64} {p : List U64} :
    Radix.follow Entry.ref emptyMachine.table r (i :: p) = none := by
  have hzero : (emptyMachine.table r i).ref = none := Entry.ref_of_not_present Entry.zero_present
  rw [Radix.follow, hzero, Option.bind_none]

theorem emptyMachine_walk : ∀ x ∈ mmapArea, walk emptyMachine.table 1 x = none :=
  fun _ _ => walk_none (p := tablePath _) emptyMachine_follow (List.prefix_refl _)

theorem emptyMachine_tidy {area : Set U64} : Tidy {1} area emptyMachine := by
  have honly : ∀ r p f, Radix.follow Entry.ref emptyMachine.table r p = some f →
      p = [] ∧ f = r := by
    intro r p f h
    cases p with
    | nil => exact ⟨rfl, (Option.some.inj h).symm⟩
    | cons i p =>
        rw [emptyMachine_follow] at h
        cases h
  refine ⟨fun r p r' p' f hp hp' hf hf' => ?_, fun r p f hp hf => ?_⟩
  · obtain ⟨rfl, rfl⟩ := honly r p f hf
    obtain ⟨rfl, rfl⟩ := honly r' p' f hf'
    exact ⟨rfl, rfl⟩
  · obtain ⟨_, rfl⟩ := honly r p f hf
    exact List.mem_singleton.mpr hp.1

/-- Two pages are mapped, the first one is written, made read-only and unmapped again. -/
theorem translations_within_areas_sample :
    ∃ s, Runs.run (spaceStep nextFrame 1) ⟨noAreas, emptyMachine⟩
        [.map 0 0x2000 3 0, .fault 0x180201000 0x6, .mprotect 0x180201000 0x1000 1,
          .unmap 0x180201000 0x1000] = some s ∧
      WithinAreas s.areas.list s.machine.table 1 := by
  refine translations_within_areas nextFrame_fresh emptyMachine_tidy emptyMachine_walk
    (.cons rfl ?_ (.cons rfl ?_ (.cons rfl ?_ (.cons rfl ?_ trivial))))
  · exact Or.inr (Or.inr ⟨by decide, by decide, fun _ => ⟨by decide, by decide⟩⟩)
  · exact fun h => absurd h (by decide)
  · exact Or.inr (by decide)
  · exact Or.inr (Or.inr ⟨by decide, by decide, by decide, by decide, by decide⟩)

/-- A change of access that runs past the end of its area makes the page of the next area, which
is read-only, writable. -/
theorem mprotect_past_area_end :
    ∃ s, Runs.run (spaceStep nextFrame 1) ⟨noAreas, emptyMachine⟩
        [.map 0 0x1000 3 0, .map 0 0x1000 1 0, .fault 0x180202000 0x4,
          .mprotect 0x180201000 0x2000 3] = some s ∧
      ¬ WithinAreas s.areas.list s.machine.table 1 := by
  refine ⟨_, rfl, fun hwithin => ?_⟩
  have hflags := hwithin.writable 0x180202000 ⟨by decide, by decide⟩ ⟨1, 0x19⟩ (by decide +kernel)
    (by decide) ⟨0x180202000, 0x180203000, 1⟩ (by decide +kernel) (by decide) (by decide)
  exact absurd hflags (by decide)

end GemOS.Vm
