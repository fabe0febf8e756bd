import GemOS.Vm.MapEffects

/-!
# Memory at a fixed address

A call of `vm_area_map` with `MAP_FIXED` succeeds if the range is free, except where an empty area
lies inside the range: `placeAt` only looks at the bounds of areas. Empty areas are left by calls
of `vm_area_unmap` whose range covers an area and goes on behind it.
-/

namespace GemOS.Vm

variable {k : AreaKind} {s : Areas} {memptr v : VmArea} {tail areas rest : List VmArea}
variable {addr len : U64} {length prot : CInt} {lo : Nat}

/-- No area reaches into `[a, e)`, not even an empty one. -/
def Clear (a e : Nat) (areas : List VmArea) : Prop :=
  ∀ v ∈ areas, v.vmEnd.toNat ≤ a ∨ e ≤ v.vmStart.toNat

theorem placeAt_notFree (hstart : memptr.vmStart ≤ addr) (hend : addr < memptr.vmEnd) :
    placeAt addr len prot memptr rest = .notFree := by
  cases rest with
  | nil => rw [placeAt, if_pos ⟨hstart, hend⟩]
  | cons next rest => rw [placeAt, if_pos ⟨hstart, hend⟩]

/-- The search finds a place at `addr` exactly if no area behind the first one is in the way. -/
theorem placeAt_iff (hold : Ordered k memptr.vmEnd.toNat rest) (htop : k.top = MMAP_AREA_END.toNat)
    (hbehind : memptr.vmEnd.toNat ≤ addr.toNat) (hpos : addr.toNat < (addr + len).toNat) :
    (∃ edit, placeAt addr len prot memptr rest = .placed edit) ↔
      (addr + len).toNat ≤ MMAP_AREA_END.toNat ∧ Clear addr.toNat (addr + len).toNat rest := by
  induction rest generalizing memptr with
  | nil =>
      have hin : ¬ (memptr.vmStart ≤ addr ∧ memptr.vmEnd > addr) := fun h =>
        absurd (BitVec.lt_def.mp h.2) (by omega)
      rw [placeAt, if_neg hin, if_pos (BitVec.le_def.mpr hbehind)]
      constructor
      · intro h'
        obtain ⟨edit, hedit⟩ := h'
        split_ifs at hedit with hfits
        exact ⟨BitVec.le_def.mp hfits, fun v hv => absurd hv List.not_mem_nil⟩
      · intro h'
        obtain ⟨hfits, _⟩ := h'
        exact ⟨_, if_pos (BitVec.le_def.mpr hfits)⟩
  | cons next rest ih =>
      obtain ⟨_, _, _, hsize, _, hrest⟩ := id hold
      have hnext_top := (hold.bounds (v := next) List.mem_cons_self).2.2.2.2
      have hin : ¬ (memptr.vmStart ≤ addr ∧ memptr.vmEnd > addr) := fun h =>
        absurd (BitVec.lt_def.mp h.2) (by omega)
      rw [placeAt, if_neg hin]
      by_cases hgap : addr.toNat < next.vmStart.toNat
      · -- the place is in the gap before `next`, or nowhere
        rw [if_pos ⟨BitVec.le_def.mpr hbehind, BitVec.lt_def.mpr hgap⟩]
        constructor
        · intro h'
          obtain ⟨edit, hedit⟩ := h'
          split_ifs at hedit with hfits
          rw [BitVec.le_def] at hfits
          refine ⟨by omega, fun v hv => Or.inr ?_⟩
          rcases List.mem_cons.mp hv with rfl | hv
          · exact hfits
          · have := (hrest.bounds hv).1
            omega
        · intro h'
          obtain ⟨_, hclear⟩ := h'
          have hfits := (hclear next List.mem_cons_self).resolve_left (by omega)
          exact ⟨_, if_pos (BitVec.le_def.mpr hfits)⟩
      · rw [if_neg fun h => hgap (BitVec.lt_def.mp h.2)]
        have hstart : next.vmStart ≤ addr := BitVec.le_def.mpr (by omega)
        by_cases hpast : next.vmEnd.toNat ≤ addr.toNat
        · have hrec := ih hrest hpast
          have hclear : Clear addr.toNat (addr + len).toNat (next :: rest) ↔
              Clear addr.toNat (addr + len).toNat rest :=
            ⟨fun h v hv => h v (List.mem_cons_of_mem next hv), fun h v hv => by
              rcases List.mem_cons.mp hv with rfl | hv
              · exact Or.inl hpast
              · exact h v hv⟩
          rw [hclear, ← hrec]
          cases hplace : placeAt addr len prot next rest with
          | placed edit => exact ⟨fun _ => ⟨_, rfl⟩, fun _ => ⟨_, rfl⟩⟩
          | notFree => rfl
          | notFound => rfl
        · -- `next` holds the address
          have hend : addr < next.vmEnd := BitVec.lt_def.mpr (by omega)
          rw [placeAt_notFree hstart hend]
          constructor
          · intro h'
            obtain ⟨edit, hedit⟩ := h'
            cases hedit
          · intro h'
            obtain ⟨_, hclear⟩ := h'
            have := hclear next List.mem_cons_self
            omega

/-- There is no memory in `[a, e)`. -/
def FreeRange (a e : Nat) (areas : List VmArea) : Prop :=
  ∀ x f, HasAccess areas x f → ¬ (a ≤ x ∧ x < e)

/-- No empty area lies strictly inside `[a, e)`. -/
def NoEmptyInside (a e : Nat) (areas : List VmArea) : Prop :=
  ∀ v ∈ areas, v.vmStart = v.vmEnd → ¬ (a < v.vmStart.toNat ∧ v.vmStart.toNat < e)

/-- Areas that reach into a range have memory there, or are empty. -/
theorem clear_iff {a e : Nat} (hae : a < e)
    (hareas : ∀ v ∈ areas, v.vmStart.toNat ≤ v.vmEnd.toNat) :
    Clear a e areas ↔ FreeRange a e areas ∧ NoEmptyInside a e areas := by
  constructor
  · refine fun hclear => ⟨?_, fun v hv hempty hin => ?_⟩
    · rintro x f ⟨v, hv, hstart, hend, _⟩ hin
      have := hclear v hv
      omega
    · have := hclear v hv
      have := congrArg BitVec.toNat hempty
      omega
  · rintro ⟨hfree, hempty⟩ v hv
    have hle := hareas v hv
    by_cases hsame : v.vmStart.toNat = v.vmEnd.toNat
    · have := hempty v hv (BitVec.eq_of_toNat_eq hsame)
      omega
    · -- an address of the area that would lie in the range
      have := hfree (max a v.vmStart.toNat) v.accessFlags
      by_contra hreach
      exact this ⟨v, hv, by omega, by omega, rfl⟩ (by omega)

/-- A hint at a page behind the first area, up to the end of the mmap area. -/
structure FixedHint (addr : U64) (length prot : CInt) : Prop where
  aligned : addr.toNat % 4096 = 0
  low : HEAD_END ≤ addr.toNat
  high : addr.toNat ≤ MMAP_AREA_END.toNat
  pos : 1 ≤ length.toNat
  small : length.toNat ≤ MAX_LENGTH
  access : prot = 1 ∨ prot = 3

/-- When `vm_area_map` keeps a hint. -/
theorem vmAreaMap_fixed_iff (hinv : AreasInv (mmapKind 0) s.list)
    (hhint : FixedHint addr length prot) :
    (vmAreaMap s addr length prot MAP_FIXED).1 = addr.toInt ↔
      addr.toNat + pageCeil length.toNat ≤ MMAP_AREA_END.toNat ∧
        Clear addr.toNat (addr.toNat + pageCeil length.toNat) s.list := by
  obtain ⟨haligned, hlow, hhigh, hpos, hmax, hprot⟩ := hhint
  have hbound := mmapAreaEnd_toNat
  have hlen := alignedLength_toNat hmax
  have hceil := le_pageCeil length.toNat
  have hsmall : pageCeil length.toNat < 2 ^ 31 := by
    unfold pageCeil
    unfold MAX_LENGTH at hmax
    omega
  have hsum : (addr + widen (alignedLength length)).toNat =
      addr.toNat + pageCeil length.toNat := by
    rw [BitVec.toNat_add_of_lt (by omega), hlen]
  have hgood : ¬ badMapArgs length prot MAP_FIXED = true := by
    have hnonneg : ¬ length.toInt < 0 := by
      rw [BitVec.toInt_eq_toNat_of_lt (by omega)]
      omega
    rw [badMapArgs, decide_eq_true_eq]
    rcases hprot with rfl | rfl <;> simp [hnonneg, MAP_FIXED]
  obtain ⟨tail, hlist, hordered⟩ := Areas.create_list (mmapKind_forMmap (by decide)) hinv
  -- the first area is never in the way
  have hclear : Clear addr.toNat (addr.toNat + pageCeil length.toNat) s.list ↔
      Clear addr.toNat (addr.toNat + pageCeil length.toNat) tail := by
    have hhead : dummyNode.vmEnd.toNat ≤ addr.toNat := hlow
    rcases hinv with hnil | ⟨tail', hcons, _⟩
    · rw [Areas.create, if_pos hnil] at hlist
      obtain ⟨_, rfl⟩ := List.cons.inj hlist
      rw [hnil]
    · rw [Areas.create_of_cons hcons] at hlist
      rw [hlist]
      exact ⟨fun h v hv => h v (List.mem_cons_of_mem dummyNode hv), fun h v hv => by
        rcases List.mem_cons.mp hv with rfl | hv
        · exact Or.inl hhead
        · exact h v hv⟩
  have hbehind : Ordered (mmapKind 0) dummyNode.vmEnd.toNat tail := hordered
  have hgrows : addr.toNat < (addr + widen (alignedLength length)).toNat := by omega
  have hplace : (∃ edit, placeAt addr (widen (alignedLength length)) prot dummyNode tail =
      .placed edit) ↔ _ := placeAt_iff hbehind rfl hlow hgrows
  rw [hsum] at hplace
  rw [hclear, ← hplace, vmAreaMap_create hgood, vmAreaMap, if_neg hgood,
    Areas.create_of_cons hlist]
  have hne : addr ≠ 0 := by
    intro hzero
    have hpositive : 0 < HEAD_END := by decide
    rw [hzero] at hlow
    exact absurd hlow (Nat.not_le.mpr hpositive)
  have hresult : -EINVAL ≠ addr.toInt := by
    have hinval : 0 < EINVAL := by decide
    rw [BitVec.toInt_eq_toNat_of_lt (by omega)]
    omega
  simp only [if_neg hne, hlist]
  cases placeAt addr (widen (alignedLength length)) prot dummyNode tail with
  | placed edit => exact ⟨fun _ => ⟨edit, rfl⟩, fun _ => rfl⟩
  | notFree =>
      simp only [if_true]
      refine ⟨fun h => absurd h hresult, ?_⟩
      intro h'
      obtain ⟨edit, hedit⟩ := h'
      cases hedit
  | notFound =>
      refine ⟨fun h => absurd h hresult, ?_⟩
      intro h'
      obtain ⟨edit, hedit⟩ := h'
      cases hedit

/-! ## Runs -/

/-- Calls of `vm_area_map` and `vm_area_unmap` with page-aligned ranges of the mmap area behind the
first area; `vm_area_map` may be left without a hint. -/
def ReuseCallOk : AreaCall → Prop
  | .map addr length _ _ =>
      addr = 0 ∧ 1 ≤ length.toNat ∧ length.toNat ≤ MAX_LENGTH ∨ MmapRange addr length
  | .unmap addr length => MmapRange addr length
  | .mprotect _ _ _ => False

/-- A range that `vm_area_unmap` removes does not cover an area and go on behind it. -/
def LeavesNoEmpty (s : Areas) : AreaCall → Prop
  | .unmap addr length => ∀ v ∈ s.list.tail, addr.toNat ≤ v.vmStart.toNat →
      addr.toNat + length.toNat ≤ v.vmEnd.toNat
  | _ => True

theorem areaStep_reuse {call : AreaCall} (least : Nat) (hleast : least ≤ 4096)
    (hinv : AreasInv (mmapKind least) s.list) (hok : ReuseCallOk call)
    (hempty : 0 < least → LeavesNoEmpty s call) :
    ∃ s', areaStep s call = some s' ∧ AreasInv (mmapKind least) s'.list := by
  cases call with
  | map addr length prot flag =>
      have hmap : MapOk s addr length prot flag := by
        rcases hok with ⟨rfl, hpos, hmax⟩ | hrange
        · exact HintOk.mapOk (Or.inl rfl) hpos hmax
        · exact hrange.rangeOk.mapOk
      refine ⟨_, rfl, ?_⟩
      rcases vmAreaMap_spec hinv (mmapKind_forMmap hleast) hmap with hsame | ⟨_, hmapped⟩
      · exact hsame.symm ▸ hinv
      · exact hmapped.inv
  | unmap addr length =>
      have hrange := hok.rangeOk
      have hgood := hrange.goodUnmap s.list.tail
      refine ⟨_, rfl, (vmAreaUnmap_spec hinv hleast (Or.inr (Or.inr
        ⟨hrange.misses_head.1, hrange.misses_head.2, hgood.aligned, hgood.rounds, ?_⟩))).inv⟩
      exact fun hpos => hempty hpos
  | mprotect addr length prot => exact hok.elim

/-- A call at a fixed address succeeds exactly if its range lies in the mmap area and is free. -/
def ReusesFree (s : Areas) (addr : U64) (length prot : CInt) : Prop :=
  (vmAreaMap s addr length prot MAP_FIXED).1 = addr.toInt ↔
    addr.toNat + pageCeil length.toNat ≤ MMAP_AREA_END.toNat ∧
      FreeRange addr.toNat (addr.toNat + pageCeil length.toNat) s.list

/-- If the range is free, no empty area is in the way. -/
def NoEmptyInTheWay (s : Areas) (addr : U64) (length : CInt) : Prop :=
  addr.toNat + pageCeil length.toNat ≤ MMAP_AREA_END.toNat →
    FreeRange addr.toNat (addr.toNat + pageCeil length.toNat) s.list →
    NoEmptyInside addr.toNat (addr.toNat + pageCeil length.toNat) s.list

theorem AreasInv.start_le (h : AreasInv k areas) (hv : v ∈ areas) :
    v.vmStart.toNat + min k.least 1 ≤ v.vmEnd.toNat := by
  rcases h with rfl | ⟨tail, rfl, hordered⟩
  · cases hv
  · rcases List.mem_cons.mp hv with rfl | hv
    · have : dummyNode.vmStart.toNat + 1 ≤ dummyNode.vmEnd.toNat := by decide
      omega
    · have := (hordered.bounds hv).2.2.1
      omega

theorem reusesFree_iff (hinv : AreasInv (mmapKind 0) s.list)
    (hhint : FixedHint addr length prot) :
    ReusesFree s addr length prot ↔ NoEmptyInTheWay s addr length := by
  have hgrows : addr.toNat < addr.toNat + pageCeil length.toNat := by
    have := le_pageCeil length.toNat
    have := hhint.pos
    omega
  rw [ReusesFree, NoEmptyInTheWay, vmAreaMap_fixed_iff hinv hhint,
    clear_iff hgrows fun v hv => Nat.le_trans (Nat.le_add_right _ _) (hinv.start_le hv)]
  constructor
  · exact fun h hfits hfree => (h.mpr ⟨hfits, hfree⟩).2.2
  · exact fun h => ⟨fun hclear => ⟨hclear.1, hclear.2.1⟩,
      fun hfree => ⟨hfree.1, hfree.2, h hfree.1 hfree.2⟩⟩

/-- In every state that is reached, a call at a fixed address does what it should if and only if
no empty area lies in the free range that it asks for. If no call of `vm_area_unmap` leaves an
empty area, it always does. -/
theorem freed_memory_reusable {nullArea : VmArea} {numVmArea : U64} {calls : List AreaCall}
    (hcalls : Runs.AllSteps areaStep (fun _ => ReuseCallOk) ⟨[], nullArea, numVmArea⟩ calls) :
    ∃ s, Runs.run areaStep ⟨[], nullArea, numVmArea⟩ calls = some s ∧
      (∀ addr length prot, FixedHint addr length prot →
        (ReusesFree s addr length prot ↔ NoEmptyInTheWay s addr length)) ∧
      (Runs.AllSteps areaStep LeavesNoEmpty ⟨[], nullArea, numVmArea⟩ calls →
        ∀ addr length prot, FixedHint addr length prot → ReusesFree s addr length prot) := by
  have hstart : ∀ least, AreasInv (mmapKind least) (⟨[], nullArea, numVmArea⟩ : Areas).list :=
    fun _ => Or.inl rfl
  obtain ⟨s, hrun, hinv⟩ := Runs.run_invariant (P := fun _ => ReuseCallOk)
    (fun s call hinv hok => areaStep_reuse 0 (by decide) hinv hok nofun) (hstart 0) hcalls
  refine ⟨s, hrun, fun addr length prot => reusesFree_iff hinv,
    fun hnone addr length prot hhint => ?_⟩
  obtain ⟨s', hrun', hinv'⟩ := Runs.run_invariant
    (fun s call hinv hok => areaStep_reuse 1 (by decide) hinv hok.1 fun _ => hok.2)
    (hstart 1) (hcalls.and hnone)
  obtain rfl := Option.some.inj (hrun'.symm.trans hrun)
  refine (reusesFree_iff hinv hhint).mpr fun _ _ v hv hempty _ => ?_
  have := hinv'.start_le hv
  rw [hempty] at this
  exact absurd this (by simp [mmapKind])

/-- Two pages are mapped, and one of them is unmapped. -/
theorem freed_memory_reusable_sample :
    ∃ s, Runs.run areaStep noAreas [.map 0 0x2000 1 0, .unmap 0x180202000 0x1000] = some s ∧
      (∀ addr length prot, FixedHint addr length prot →
        (ReusesFree s addr length prot ↔ NoEmptyInTheWay s addr length)) ∧
      (Runs.AllSteps areaStep LeavesNoEmpty noAreas
          [.map 0 0x2000 1 0, .unmap 0x180202000 0x1000] →
        ∀ addr length prot, FixedHint addr length prot → ReusesFree s addr length prot) := by
  refine freed_memory_reusable (.cons rfl ?_ (.cons rfl ?_ trivial))
  · exact Or.inl ⟨rfl, by decide, by decide⟩
  · exact ⟨by decide, by decide, by decide, by decide, by decide⟩

/-- A page behind a gap is unmapped together with the page behind it. What is left of its area is
in the way of a range that covers the gap and the page. -/
theorem empty_area_blocks_hint :
    Runs.AllSteps areaStep (fun _ => ReuseCallOk) noAreas
        [.map 0x180203000 0x1000 1 0, .unmap 0x180203000 0x2000] ∧
      ∃ s, Runs.run areaStep noAreas [.map 0x180203000 0x1000 1 0, .unmap 0x180203000 0x2000] =
          some s ∧
        FixedHint 0x180202000 0x2000 1 ∧ ¬ ReusesFree s 0x180202000 0x2000 1 := by
  refine ⟨.cons rfl (Or.inr ?_) (.cons rfl ?_ trivial),
    ⟨[dummyNode, ⟨0x180203000, 0x180203000, 1⟩], ⟨0, 0, 0⟩, 2⟩, rfl, ?_, fun h => ?_⟩
  · exact ⟨by decide, by decide, by decide, by decide, by decide⟩
  · exact ⟨by decide, by decide, by decide, by decide, by decide⟩
  · exact ⟨by decide, by decide, by decide, by decide, by decide, Or.inl rfl⟩
  · have hreturned := h.mpr ⟨by decide, ?_⟩
    · exact absurd hreturned (by decide)
    · have hbounds : ∀ v ∈ [dummyNode, ⟨0x180203000, 0x180203000, 1⟩],
          v.vmEnd.toNat ≤ (0x180202000 : U64).toNat ∨ v.vmEnd.toNat ≤ v.vmStart.toNat := by decide
      rintro x f ⟨v, hv, hstart, hend, _⟩ hin
      have := hbounds v hv
      omega

end GemOS.Vm
