import Mathlib.Data.List.Chain
import GemOS.Vm.AreaRuns

/-!
# Areas that touch

Areas that touch have different access, so that memory of one access is one area. `vm_area_map`
and `vm_area_mprotect` decide this by looking at the areas around the new one, and an edit keeps
the start and the access of the first area it was given. For `vm_area_unmap` it is enough that
what is left of an area is not larger than the area.
-/

namespace GemOS.Vm

/-- Two areas do not touch, or their access is different. -/
def Apart (v w : VmArea) : Prop :=
  v.vmEnd = w.vmStart → v.accessFlags ≠ w.accessFlags

instance : DecidableRel Apart :=
  fun v w => inferInstanceAs (Decidable (v.vmEnd = w.vmStart → v.accessFlags ≠ w.accessFlags))

/-- No two areas next to each other could be one. -/
abbrev Merged (areas : List VmArea) : Prop :=
  areas.IsChain Apart

/-- A list that starts where the area `v` starts, with the same access. -/
def StartsAs (v : VmArea) (areas : List VmArea) : Prop :=
  ∃ first rest, areas = first :: rest ∧ first.vmStart = v.vmStart ∧
    first.accessFlags = v.accessFlags

variable {k : AreaKind} {s : Areas} {memptr next prev v v' : VmArea} {areas rest : List VmArea}
variable {addr len : U64} {prot : U32} {edit : Edit} {length flag : CInt} {a e lo : Nat}

/-- Only the end and the access of the first area matter. -/
theorem Merged.of_first (h : Merged (v :: rest)) (hend : v'.vmEnd = v.vmEnd)
    (hflags : v'.accessFlags = v.accessFlags) : Merged (v' :: rest) := by
  rw [Merged, List.isChain_cons] at h ⊢
  exact ⟨fun w hw htouch => hflags ▸ h.1 w hw (hend ▸ htouch), h.2⟩

/-- An area in front of an edited list. -/
theorem StartsAs.merged_cons (h : StartsAs next areas) (hmerged : Merged areas)
    (hold : Merged (memptr :: next :: rest)) : Merged (memptr :: areas) := by
  obtain ⟨first, tail, rfl, hstart, hflags⟩ := h
  have hapart := (List.isChain_cons_cons.mp hold).1
  rw [Apart, ← hstart, ← hflags] at hapart
  exact List.isChain_cons_cons.mpr ⟨hapart, hmerged⟩

/-! ## `vm_area_map` -/

theorem placeBetween_merged (hold : Merged (memptr :: next :: rest)) :
    Merged (placeBetween addr len prot memptr next rest).list ∧
      StartsAs memptr (placeBetween addr len prot memptr next rest).list := by
  obtain ⟨hapart, hrest : Merged (next :: rest)⟩ := List.isChain_cons_cons.mp hold
  unfold placeBetween
  simp only
  split_ifs with hprev hnext hboth
  · obtain ⟨⟨rfl, rfl⟩, hnext⟩ := hprev
    refine ⟨List.isChain_cons_cons.mpr ⟨fun htouch hflags => hnext ⟨htouch, hflags⟩, hrest⟩,
      _, _, rfl, rfl, rfl⟩
  · obtain ⟨hprev, _, rfl⟩ := hnext
    refine ⟨List.isChain_cons_cons.mpr ⟨fun htouch hflags => hprev ⟨htouch.symm, hflags.symm⟩, ?_⟩,
      _, _, rfl, rfl, rfl⟩
    exact hrest.of_first rfl rfl
  · obtain ⟨⟨_, rfl⟩, _, hflags⟩ := hboth
    exact ⟨hrest.of_first rfl hflags, _, _, rfl, rfl, rfl⟩
  · refine ⟨List.isChain_cons_cons.mpr ⟨fun htouch hflags => ?_, List.isChain_cons_cons.mpr
      ⟨fun htouch hflags => ?_, hrest⟩⟩, _, _, rfl, rfl, rfl⟩
    · simp only at htouch hflags
      grind only
    · simp only at htouch hflags
      grind only

theorem placeLast_merged : Merged (placeLast addr len prot memptr).list ∧
    StartsAs memptr (placeLast addr len prot memptr).list := by
  unfold placeLast
  split_ifs with hprev
  · exact ⟨List.isChain_singleton _, _, _, rfl, rfl, rfl⟩
  · refine ⟨List.isChain_cons_cons.mpr ⟨fun htouch hflags => ?_, List.isChain_singleton _⟩,
      _, _, rfl, rfl, rfl⟩
    exact hprev ⟨htouch.symm, hflags.symm⟩

theorem Splice.merged (h : Splice addr len prot memptr rest edit) (hold : Merged (memptr :: rest)) :
    Merged edit.list ∧ StartsAs memptr edit.list := by
  induction h with
  | between _ _ => exact placeBetween_merged hold
  | last _ _ => exact placeLast_merged
  | later h ih =>
      obtain ⟨hmerged, hstarts⟩ := ih (List.isChain_cons_cons.mp hold).2
      exact ⟨hstarts.merged_cons hmerged hold, _, _, rfl, rfl, rfl⟩

/-! ## `vm_area_mprotect` -/

theorem joiningNext_none {addrEnd : U64} (h : joiningNext addrEnd prot rest = none)
    (hend : v.vmEnd = addrEnd) (hflags : v.accessFlags = prot) (hrest : Merged rest) :
    Merged (v :: rest) := by
  cases rest with
  | nil => exact List.isChain_singleton v
  | cons next tail =>
      refine List.isChain_cons_cons.mpr ⟨fun htouch hsame => ?_, hrest⟩
      have hjoins : addrEnd = next.vmStart ∧ next.accessFlags = prot :=
        ⟨hend ▸ htouch, hsame ▸ hflags⟩
      rw [joiningNext, if_pos hjoins] at h
      cases h

/-- The new access is different, or the range is the whole area. -/
theorem protectArea_merged (hold : Merged (prev :: memptr :: rest))
    (hnew : prot ≠ memptr.accessFlags ∨ addr = memptr.vmStart ∧ addr + len = memptr.vmEnd) :
    Merged ((protectArea addr (addr + len) prot prev memptr rest).prev ::
        (protectArea addr (addr + len) prot prev memptr rest).fromPrev) ∧
      StartsAs prev ((protectArea addr (addr + len) prot prev memptr rest).prev ::
        (protectArea addr (addr + len) prot prev memptr rest).fromPrev) := by
  obtain ⟨hapart, hmemptr : Merged (memptr :: rest)⟩ := List.isChain_cons_cons.mp hold
  have hrest : Merged rest := hmemptr.tail
  have hne : ¬ (addr = memptr.vmStart ∧ addr + len = memptr.vmEnd) → prot ≠ memptr.accessFlags :=
    fun hpart => hnew.resolve_right hpart
  unfold protectArea
  simp only
  split_ifs with hmiddle hback hfront hjoins hjoins
  · -- three areas
    have hflags := hne fun h => hmiddle.1 h.1
    refine ⟨List.isChain_cons_cons.mpr ⟨hapart, List.isChain_cons_cons.mpr ⟨fun _ => hflags.symm,
      List.isChain_cons_cons.mpr ⟨fun _ => hflags, ?_⟩⟩⟩, _, _, rfl, rfl, rfl⟩
    exact hmemptr.of_first rfl rfl
  · -- the end of the area
    have hflags := hne fun h => hback.1 h.1
    cases hjoin : joiningNext (addr + len) prot rest with
    | none =>
        refine ⟨List.isChain_cons_cons.mpr ⟨hapart, List.isChain_cons_cons.mpr
          ⟨fun _ => hflags.symm, ?_⟩⟩, _, _, rfl, rfl, rfl⟩
        exact joiningNext_none hjoin rfl rfl hrest
    | some p =>
        obtain ⟨next, rest'⟩ := p
        obtain ⟨rfl, _, rfl⟩ := joiningNext_some hjoin
        refine ⟨List.isChain_cons_cons.mpr ⟨hapart, List.isChain_cons_cons.mpr
          ⟨fun _ => hflags.symm, ?_⟩⟩, _, _, rfl, rfl, rfl⟩
        exact hrest.of_first rfl rfl
  · -- the start of the area, which joins the area before
    obtain ⟨_, rfl⟩ := hjoins
    have hflags := hne fun h => hfront.2 h.2
    refine ⟨List.isChain_cons_cons.mpr ⟨fun _ => hflags, ?_⟩, _, _, rfl, rfl, rfl⟩
    exact hmemptr.of_first rfl rfl
  · -- the start of the area becomes an area of its own
    have hflags := hne fun h => hfront.2 h.2
    refine ⟨List.isChain_cons_cons.mpr ⟨fun htouch hsame => hjoins ⟨htouch.symm, hsame⟩,
      List.isChain_cons_cons.mpr ⟨fun _ => hflags, ?_⟩⟩, _, _, rfl, rfl, rfl⟩
    exact hmemptr.of_first rfl rfl
  · -- the whole area, which joins the area before
    cases hnext : joiningNext (addr + len) prot rest with
    | none =>
        have hlast : memptr.vmEnd = addr + len := by grind only
        exact ⟨joiningNext_none hnext hlast hjoins.1 hrest, _, _, rfl, rfl, rfl⟩
    | some p =>
        obtain ⟨next, rest'⟩ := p
        obtain ⟨rfl, _, hflags⟩ := joiningNext_some hnext
        exact ⟨hrest.of_first rfl (hjoins.1.trans hflags.symm), _, _, rfl, rfl, rfl⟩
  · -- the whole area
    have hfirst : addr = memptr.vmStart := by grind only
    have hprev : Apart prev { memptr with accessFlags := prot } := fun htouch hsame =>
      hjoins ⟨hsame, htouch.trans hfirst.symm⟩
    cases hnext : joiningNext (addr + len) prot rest with
    | none =>
        have hlast : memptr.vmEnd = addr + len := by grind only
        refine ⟨List.isChain_cons_cons.mpr ⟨hprev, ?_⟩, _, _, rfl, rfl, rfl⟩
        exact joiningNext_none hnext hlast rfl hrest
    | some p =>
        obtain ⟨next, rest'⟩ := p
        obtain ⟨rfl, _, hflags⟩ := joiningNext_some hnext
        refine ⟨List.isChain_cons_cons.mpr ⟨hprev, ?_⟩, _, _, rfl, rfl, rfl⟩
        exact hrest.of_first rfl hflags.symm

theorem mprotectFrom_merged {p : Protected} (h : mprotectFrom addr len prot prev rest = some p)
    (hold : Merged (prev :: rest))
    (hnew : ∀ v ∈ rest, v.vmStart ≤ addr → addr < v.vmEnd →
      prot ≠ v.accessFlags ∨ addr = v.vmStart ∧ addr + len = v.vmEnd) :
    Merged (p.prev :: p.fromPrev) ∧ StartsAs prev (p.prev :: p.fromPrev) := by
  induction rest generalizing prev p with
  | nil => cases h
  | cons memptr rest ih =>
      rw [mprotectFrom] at h
      split_ifs at h with hstart hend
      · obtain rfl := Option.some.inj h
        exact protectArea_merged hold (hnew memptr List.mem_cons_self hstart hend)
      · obtain ⟨q, hq, rfl⟩ := Option.map_eq_some_iff.mp h
        obtain ⟨hmerged, hstarts⟩ := ih hq (List.isChain_cons_cons.mp hold).2
          fun v hv => hnew v (List.mem_cons_of_mem memptr hv)
        exact ⟨hstarts.merged_cons hmerged hold, _, _, rfl, rfl, rfl⟩

/-! ## `vm_area_unmap` -/

/-- What is left of an area starts with it or behind its start. -/
theorem head_cut {w : VmArea} (hw : w ∈ (cut a e v).head?) :
    v.vmStart.toNat < w.vmStart.toNat ∨ w.vmStart = v.vmStart ∧ w.accessFlags = v.accessFlags := by
  have hbound := v.vmEnd.isLt
  unfold cut at hw
  split_ifs at hw with hover hleft hright hright
  · obtain rfl := Option.some.inj hw
    exact Or.inr ⟨rfl, rfl⟩
  · obtain rfl := Option.some.inj hw
    exact Or.inr ⟨rfl, rfl⟩
  · obtain rfl := Option.some.inj hw
    refine Or.inl ?_
    unfold Overlaps at hover
    rw [ofNat_toNat (by omega)]
    omega
  · cases hw
  · obtain rfl := Option.some.inj hw
    exact Or.inr ⟨rfl, rfl⟩

/-- An area of which nothing is left was not empty. -/
theorem start_lt_of_cut_nil (h : cut a e v = []) : v.vmStart.toNat < v.vmEnd.toNat := by
  by_contra hempty
  have hkept : ¬ Overlaps a e v := by
    unfold Overlaps
    omega
  rw [cut_of_not hkept] at h
  cases h

/-- The first of the areas that are left starts with the first area or behind its start. -/
theorem Ordered.cut_first (hold : Ordered k lo (v :: rest)) {w : VmArea}
    (hw : w ∈ ((v :: rest).flatMap (cut a e)).head?) :
    v.vmStart.toNat < w.vmStart.toNat ∨ w.vmStart = v.vmStart ∧ w.accessFlags = v.accessFlags := by
  induction rest generalizing v lo with
  | nil =>
      rw [List.flatMap_singleton] at hw
      exact head_cut hw
  | cons u rest ih =>
      obtain ⟨_, _, _, _, _, hrest⟩ := hold
      have hu := (hrest.bounds (v := u) List.mem_cons_self).1
      rw [List.flatMap_cons, List.head?_append, Option.mem_def, Option.or_eq_some_iff] at hw
      rcases hw with hw | ⟨hgone, hw⟩
      · exact head_cut hw
      · have hv := start_lt_of_cut_nil (List.head?_eq_none_iff.mp hgone)
        rcases ih hrest hw with hlt | ⟨heq, _⟩
        · exact Or.inl (by omega)
        · exact Or.inl (by rw [heq]; omega)

/-- An area in front of what is left, which ends where the first area starts at most. -/
theorem Ordered.merged_cut_cons (hrest : Ordered k v.vmEnd.toNat rest) (hold : Merged (v :: rest))
    (hleft : Merged (rest.flatMap (cut a e))) (hend : v'.vmEnd.toNat ≤ v.vmEnd.toNat)
    (hflags : v'.accessFlags = v.accessFlags) : Merged (v' :: rest.flatMap (cut a e)) := by
  refine List.isChain_cons.mpr ⟨fun w hw htouch => ?_, hleft⟩
  cases rest with
  | nil => cases hw
  | cons u rest =>
      have hu := (hrest.bounds (v := u) List.mem_cons_self).1
      have htouch' := congrArg BitVec.toNat htouch
      rcases hrest.cut_first hw with hlt | ⟨hstart, hsame⟩
      · omega
      · rw [hflags, hsame]
        rw [hstart] at htouch htouch'
        have hends : v'.vmEnd = v.vmEnd := BitVec.eq_of_toNat_eq (by omega)
        exact (List.isChain_cons_cons.mp hold).1 (hends ▸ htouch)

/-- What is left of areas of which no two could be one. -/
theorem Ordered.merged_cut (hold : Ordered k lo areas) (hmerged : Merged areas) :
    Merged (areas.flatMap (cut a e)) := by
  induction areas generalizing lo with
  | nil => exact List.isChain_nil
  | cons v rest ih =>
      have hbound := v.vmEnd.isLt
      obtain ⟨_, _, _, _, _, hrest⟩ := hold
      have hleft := ih hrest hmerged.tail
      have hlast : ∀ v' : VmArea, v'.vmEnd.toNat ≤ v.vmEnd.toNat →
          v'.accessFlags = v.accessFlags → Merged (v' :: rest.flatMap (cut a e)) := fun _ =>
        hrest.merged_cut_cons hmerged hleft
      rw [List.flatMap_cons, cut]
      split_ifs with hover hkeeps hends hends
      · refine List.isChain_cons_cons.mpr ⟨fun htouch => ?_, hlast _ (Nat.le_refl _) rfl⟩
        have := congrArg BitVec.toNat htouch
        unfold Overlaps at hover
        rw [ofNat_toNat (by omega), ofNat_toNat (by omega)] at this
        omega
      · refine hlast _ ?_ rfl
        unfold Overlaps at hover
        rw [ofNat_toNat (by omega)]
        omega
      · exact hlast _ (Nat.le_refl _) rfl
      · exact hleft
      · exact hlast _ (Nat.le_refl _) rfl

/-! ## Runs -/

/-- The condition for `vm_area_mprotect`: the area that holds the address, if there is one, holds
the whole range, and it has other access or is the range. -/
def NewAccess (list : List VmArea) (addr : U64) (length prot : CInt) : Prop :=
  ∀ v ∈ list, v.vmStart.toNat ≤ addr.toNat → addr.toNat < v.vmEnd.toNat →
    addr.toNat + pageCeil length.toNat ≤ v.vmEnd.toNat ∧
      (prot ≠ v.accessFlags ∨
        addr.toNat = v.vmStart.toNat ∧ addr.toNat + pageCeil length.toNat = v.vmEnd.toNat)

/-- The calls that keep the areas merged: page-aligned ranges outside the first area, and new
access for `vm_area_mprotect`. -/
def MergedCallOk (s : Areas) : AreaCall → Prop
  | .map addr length _ _ => RangeOk addr length
  | .unmap addr length => RangeOk addr length
  | .mprotect addr length prot => RangeOk addr length ∧ NewAccess s.list addr length prot

theorem Areas.create_merged (h : Merged s.list) : Merged s.create.list := by
  unfold Areas.create
  split_ifs
  · exact List.isChain_singleton _
  · exact h

/-- No condition is needed for `vm_area_map`. -/
theorem vmAreaMap_merged (h : Merged s.list) :
    Merged (vmAreaMap s addr length prot flag).2.list := by
  by_cases hbad : badMapArgs length prot flag = true
  · rw [vmAreaMap, if_pos hbad]
    exact h
  obtain ⟨memptr, rest, hlist⟩ := s.create_ne_nil
  have hcreated := s.create_merged h
  rw [vmAreaMap_create hbad]
  rcases vmAreaMap_cases hlist hbad with hsame | ⟨start, edit, hplaced, hsplice, _⟩
  · rw [hsame]
    exact hcreated
  · rw [hplaced]
    exact (hsplice.merged (hlist ▸ hcreated)).1

/-- A range outside the first area does not start in it. -/
theorem RangeOk.not_head (h : RangeOk addr length) (hstart : dummyNode.vmStart ≤ addr) :
    ¬ addr < dummyNode.vmEnd := by
  intro hend
  have hbefore : dummyNode.vmStart.toNat = MMAP_AREA_START.toNat := rfl
  have hafter : dummyNode.vmEnd.toNat = HEAD_END := rfl
  have hceil := le_pageCeil length.toNat
  have := h.pos
  rw [BitVec.le_def] at hstart
  rw [BitVec.lt_def] at hend
  rcases h.outside with h | h <;> omega

theorem vmAreaMprotect_merged (hinv : AreasInv k s.list) (h : Merged s.list)
    (hrange : RangeOk addr length) (hnew : NewAccess s.list addr length prot) :
    Merged (vmAreaMprotect s addr length prot).2.1.list := by
  rcases hinv with hnil | ⟨tail, hlist, hordered⟩
  · unfold vmAreaMprotect
    split_ifs
    · exact h
    · simp only [hnil, mprotectFrom]
      exact List.isChain_nil
  rcases vmAreaMprotect_cases hlist hrange.not_head with heq | ⟨_, p, hfrom, heq⟩ <;> rw [heq]
  · exact h
  · refine (mprotectFrom_merged hfrom (hlist ▸ h) fun v hv hstart hend => ?_).1
    refine (hnew v (by simp [hlist, hv]) (BitVec.le_def.mp hstart) (BitVec.lt_def.mp hend)).2.imp
      id fun hwhole => ?_
    have hlen := alignedLength_toNat hrange.small
    have hwrap := hrange.no_wrap
    refine ⟨BitVec.eq_of_toNat_eq hwhole.1, BitVec.eq_of_toNat_eq ?_⟩
    rw [BitVec.toNat_add_of_lt (by rwa [hlen]), hlen]
    exact hwhole.2

theorem vmAreaUnmap_merged (hinv : AreasInv k s.list) (h : Merged s.list)
    (hrange : RangeOk addr length) : Merged (vmAreaUnmap s addr length).2.1.list := by
  rcases hinv with hnil | ⟨tail, hlist, hordered⟩
  · unfold vmAreaUnmap
    split_ifs
    · exact h
    · simp only [hnil, unmapFrom]
      exact List.isChain_nil
  rcases vmAreaUnmap_cases hlist (Or.inr hrange.misses_head) with
    ⟨result, heq, _⟩ | ⟨hzero, _, hwrap, heq⟩ <;> rw [heq]
  · exact h
  · have hlen := toNat_lt_of_nonneg (show ¬ length.toInt < 0 by omega)
    rw [hlist] at h
    have hbehind : Ordered k dummyNode.vmEnd.toNat tail := hordered
    have hcut := (unmapFrom_eq hordered rfl hlen hwrap (hrange.goodUnmap tail)).1
    show Merged (dummyNode :: (unmapFrom false tail addr length).list)
    rw [hcut]
    exact hbehind.merged_cut_cons h (hordered.merged_cut h.tail) (Nat.le_refl _) rfl

/-- The invariant of the runs below. -/
structure MergedInv (s : Areas) : Prop where
  areas : AreasInv (mmapKind 0) s.list
  merged : Merged s.list

/-- A call whose range lies in one area. -/
theorem NewAccess.protectOk (hinv : AreasInv k s.list) (hrange : RangeOk addr length)
    (hnew : NewAccess s.list addr length prot) : ProtectOk s addr length prot := by
  refine Or.inr fun v hv hstart hend => ⟨?_, hrange.aligned, hrange.pos, hrange.small,
    (hnew v hv hstart hend).1⟩
  -- no area starts before the first one
  have hlow : MMAP_AREA_START.toNat ≤ v.vmStart.toNat := by
    rcases hinv with hnil | ⟨tail, hlist, hordered⟩
    · rw [hnil] at hv
      cases hv
    · rw [hlist] at hv
      rcases List.mem_cons.mp hv with rfl | hv
      · exact Nat.le_refl _
      · exact Nat.le_trans (by decide) (hordered.bounds hv).1
  have hpos := hrange.pos
  have hceil := le_pageCeil length.toNat
  have houtside := hrange.outside
  omega

/-- One call keeps the areas merged. -/
theorem areaStep_merged {call : AreaCall} (h : MergedInv s) (hok : MergedCallOk s call) :
    ∃ s', areaStep s call = some s' ∧ MergedInv s' := by
  cases call with
  | map addr length prot flag =>
      refine ⟨_, rfl, ?_, vmAreaMap_merged h.merged⟩
      rcases vmAreaMap_spec h.areas (mmapKind_forMmap (by decide)) hok.mapOk with
        hsame | ⟨_, hmapped⟩
      · exact hsame.symm ▸ h.areas
      · exact hmapped.inv
  | unmap addr length =>
      exact ⟨_, rfl, (vmAreaUnmap_spec h.areas (by decide) hok.unmapOk).inv,
        vmAreaUnmap_merged h.areas h.merged hok⟩
  | mprotect addr length prot =>
      refine ⟨_, rfl, ?_, vmAreaMprotect_merged h.areas h.merged hok.1 hok.2⟩
      have hprotect := hok.2.protectOk h.areas hok.1
      rcases vmAreaMprotect_spec h.areas (by decide) (fun _ => id) hprotect with
        hsame | ⟨s', r, heq, hchanged⟩
      · rw [hsame]
        exact h.areas
      · rw [heq]
        exact hchanged.inv

/-- After any calls with page-aligned ranges outside the first area, where `vm_area_mprotect` only
sets new access, areas that touch have different access. -/
theorem areas_merged {nullArea : VmArea} {numVmArea : U64} {calls : List AreaCall}
    (hcalls : Runs.AllSteps areaStep MergedCallOk ⟨[], nullArea, numVmArea⟩ calls) :
    ∃ s, Runs.run areaStep ⟨[], nullArea, numVmArea⟩ calls = some s ∧ Merged s.list := by
  have hstep : ∀ (s : Areas) (call : AreaCall), MergedInv s → MergedCallOk s call →
      ∃ s', areaStep s call = some s' ∧ MergedInv s' := fun _ _ h hok => areaStep_merged h hok
  have hstart : MergedInv (⟨[], nullArea, numVmArea⟩ : Areas) := ⟨Or.inl rfl, List.isChain_nil⟩
  obtain ⟨s, hrun, hinv⟩ := Runs.run_invariant hstep hstart hcalls
  exact ⟨s, hrun, hinv.merged⟩

/-- Three pages are mapped, the second one is made writable and the first one unmapped. -/
theorem areas_merged_sample :
    ∃ s, Runs.run areaStep noAreas [.map 0 0x3000 1 0, .mprotect 0x180202000 0x1000 3,
        .unmap 0x180201000 0x1000] = some s ∧ Merged s.list := by
  refine areas_merged (.cons rfl ?_ (.cons rfl ?_ (.cons rfl ?_ trivial)))
  · exact ⟨by decide, by decide, by decide, by decide, by decide⟩
  · exact ⟨⟨by decide, by decide, by decide, by decide, by decide⟩, by unfold NewAccess; decide⟩
  · exact ⟨by decide, by decide, by decide, by decide, by decide⟩

/-- The second of two read-only pages is made read-only again. -/
theorem mprotect_splits_area :
    ∃ s, Runs.run areaStep noAreas [.map 0 0x2000 1 0, .mprotect 0x180202000 0x1000 1] = some s ∧
      ¬ Merged s.list :=
  ⟨_, rfl, by decide⟩

end GemOS.Vm
