import GemOS.Vm.AreaOrder
import GemOS.Vm.AreaSplices

/-!
# New memory and changed access

What `vm_area_map` and `vm_area_mprotect` do to the areas. Each edit leaves the list ordered and
changes the access rights of one range of addresses: new memory has its access there (`Placed`),
and a call of `vm_area_mprotect` overwrites it (`Changed`).
-/

namespace GemOS.Vm

variable {k : AreaKind} {lo : Nat} {areas areas' rest : List VmArea} {memptr next prev : VmArea}
variable {addr len : U64} {prot : U32} {a e : Nat}

/-! ## New memory -/

/-- The areas with new memory in `[a, e)`, where there was none. -/
structure Placed (k : AreaKind) (prot : U32) (memptr : VmArea) (rest : List VmArea) (a e : Nat)
    (areas : List VmArea) : Prop where
  extends_first : Extends k prot memptr areas
  above : memptr.vmEnd.toNat ≤ a
  free : ∀ x f, HasAccess rest x f → ¬ (a ≤ x ∧ x < e)
  access : ∀ x f, HasAccess areas x f ↔
    HasAccess (memptr :: rest) x f ∨ a ≤ x ∧ x < e ∧ f = prot

/-- New memory behind a later area. -/
theorem Placed.cons (h : Placed k prot next rest a e areas)
    (hold : Ordered k memptr.vmEnd.toNat (next :: rest)) :
    Placed k prot memptr (next :: rest) a e (memptr :: areas) where
  extends_first := Extends.cons_of (h.extends_first.ordered hold)
  above := by
    obtain ⟨_, hle, _, hsize, _⟩ := hold
    have := h.above
    omega
  free x f hx := by
    rcases hasAccess_cons.mp hx with hx | hx
    · have := h.above
      omega
    · exact h.free x f hx
  access x f := by
    rw [hasAccess_cons, h.access, hasAccess_cons (a := memptr), or_assoc]

/-- What is asked of new memory: whole pages at a page, enough bytes. -/
structure GoodRange (k : AreaKind) (addr len : U64) (prot : U32) : Prop where
  addr_aligned : addr.toNat % 4096 = 0
  len_aligned : len.toNat % 4096 = 0
  size : k.least ≤ len.toNat
  no_wrap : addr.toNat + len.toNat < 2 ^ 64
  access : k.flags prot

/-- New memory may be joined with an area beside it. -/
theorem Placed.join (h : Placed k prot memptr rest a e areas) (hjoin : Join prot areas areas')
    (hsize : memptr.vmStart.toNat ≤ memptr.vmEnd.toNat) :
    Placed k prot memptr rest a e areas' where
  extends_first := h.extends_first.join hjoin
  above := h.above
  free := h.free
  access x f := by rw [hjoin.access (h.extends_first.start_le hsize), h.access]

/-- New memory that is an area of its own. -/
theorem Placed.of_ordered (hend : (addr + len).toNat = addr.toNat + len.toNat)
    (hge : memptr.vmEnd.toNat ≤ addr.toNat)
    (hfree : ∀ x f, HasAccess rest x f → ¬ (addr.toNat ≤ x ∧ x < addr.toNat + len.toNat))
    (hnew : Ordered k memptr.vmEnd.toNat (⟨addr, addr + len, prot⟩ :: rest)) :
    Placed k prot memptr rest addr.toNat (addr.toNat + len.toNat)
      (memptr :: ⟨addr, addr + len, prot⟩ :: rest) := by
  refine ⟨Extends.cons_of hnew, hge, hfree, fun x f => ?_⟩
  simp only [hasAccess_cons, hend]
  grind

theorem placeBetween_placed (hold : Ordered k memptr.vmEnd.toNat (next :: rest))
    (hsize : memptr.vmStart.toNat ≤ memptr.vmEnd.toNat) (hrange : GoodRange k addr len prot)
    (hge : memptr.vmEnd.toNat ≤ addr.toNat)
    (hfits : addr.toNat + len.toNat ≤ next.vmStart.toNat) :
    Placed k prot memptr (next :: rest) addr.toNat (addr.toNat + len.toNat)
      (placeBetween addr len prot memptr next rest).list := by
  obtain ⟨haddr, hlen, hm, hwrap, hprot⟩ := hrange
  obtain ⟨hlo, hle, hstart, hnext, hflags, hrest⟩ := hold
  have hend : (addr + len).toNat = addr.toNat + len.toNat := BitVec.toNat_add_of_lt hwrap
  have hfree : ∀ x f, HasAccess (next :: rest) x f →
      ¬ (addr.toNat ≤ x ∧ x < addr.toNat + len.toNat) := by
    intro x f hx
    have : Ordered k next.vmStart.toNat (next :: rest) :=
      ⟨hstart, Nat.le_refl _, hstart, hnext, hflags, hrest⟩
    have := this.le_of_access hx
    omega
  have hnew : Ordered k memptr.vmEnd.toNat (⟨addr, addr + len, prot⟩ :: next :: rest) := by
    simp only [Ordered, hend]
    refine ⟨?_, ?_, ?_, ?_, hprot, ?_, ?_, ?_, ?_, hflags, hrest⟩ <;> omega
  have hplaced := Placed.of_ordered hend hge hfree hnew
  unfold placeBetween
  simp only
  split_ifs with hprev hnext' hboth
  · -- only the area before is extended
    obtain ⟨⟨rfl, rfl⟩, _⟩ := hprev
    exact hplaced.join (.head rfl rfl rfl) hsize
  · -- only the area behind is extended
    obtain ⟨_, htouch, rfl⟩ := hnext'
    exact hplaced.join (.tail (.head htouch rfl rfl)) hsize
  · -- the gap is closed
    obtain ⟨⟨rfl, rfl⟩, htouch, hsame⟩ := hboth
    exact (hplaced.join (.head rfl rfl rfl) hsize).join (.head htouch rfl hsame.symm) hsize
  · -- a new area
    exact hplaced

theorem placeLast_placed (hsize : memptr.vmStart.toNat ≤ memptr.vmEnd.toNat)
    (hlo : memptr.vmEnd.toNat % 4096 = 0) (hrange : GoodRange k addr len prot)
    (hge : memptr.vmEnd.toNat ≤ addr.toNat)
    (hfits : addr.toNat + len.toNat ≤ k.top) :
    Placed k prot memptr [] addr.toNat (addr.toNat + len.toNat)
      (placeLast addr len prot memptr).list := by
  obtain ⟨haddr, hlen, hm, hwrap, hprot⟩ := hrange
  have hend : (addr + len).toNat = addr.toNat + len.toNat := BitVec.toNat_add_of_lt hwrap
  have hnew : Ordered k memptr.vmEnd.toNat [⟨addr, addr + len, prot⟩] := by
    simp only [Ordered, hend]
    refine ⟨?_, ?_, ?_, ?_, hprot, ?_, ?_⟩ <;> omega
  have hplaced := Placed.of_ordered hend hge (by simp) hnew
  unfold placeLast
  split_ifs with hprev
  · obtain ⟨rfl, rfl⟩ := hprev
    exact hplaced.join (.head rfl rfl rfl) hsize
  · exact hplaced

/-- `vm_area_map` places new memory where there was none. -/
theorem Splice.placed {edit : Edit} (h : Splice addr len prot memptr rest edit)
    (hold : Ordered k memptr.vmEnd.toNat rest) (hsize : memptr.vmStart.toNat ≤ memptr.vmEnd.toNat)
    (hrange : GoodRange k addr len prot) (htop : k.top = MMAP_AREA_END.toNat) :
    Placed k prot memptr rest addr.toNat (addr.toNat + len.toNat) edit.list := by
  have hend : (addr + len).toNat = addr.toNat + len.toNat := BitVec.toNat_add_of_lt hrange.no_wrap
  induction h with
  | between hbehind hfits =>
      rw [BitVec.le_def, hend] at hfits
      exact placeBetween_placed hold hsize hrange (BitVec.le_def.mp hbehind) hfits
  | last hbehind hfits =>
      rw [BitVec.le_def, hend, ← htop] at hfits
      exact placeLast_placed hsize hold.low.1 hrange (BitVec.le_def.mp hbehind) hfits
  | later h ih =>
      obtain ⟨_, _, _, hnext, _, hrest⟩ := id hold
      exact (ih hrest (by omega)).cons hold

/-! ## Changed access -/

theorem joiningNext_some {addrEnd : U64} {rest' : List VmArea}
    (h : joiningNext addrEnd prot rest = some (next, rest')) :
    rest = next :: rest' ∧ addrEnd = next.vmStart ∧ next.accessFlags = prot := by
  cases rest with
  | nil => cases h
  | cons b tail =>
      rw [joiningNext] at h
      split_ifs at h with hjoin
      obtain ⟨rfl, rfl⟩ := Prod.mk.inj (Option.some.inj h)
      exact ⟨rfl, hjoin⟩

/-- The areas with access `prot` in `[a, e)`. -/
structure Changed (k : AreaKind) (prot : U32) (prev : VmArea) (rest : List VmArea) (a e : Nat)
    (areas : List VmArea) : Prop where
  extends_first : Extends k prot prev areas
  above : prev.vmEnd.toNat ≤ a
  access : ∀ x f, HasAccess areas x f ↔
    (a ≤ x ∧ x < e) ∧ f = prot ∨ ¬ (a ≤ x ∧ x < e) ∧ HasAccess (prev :: rest) x f

/-- Changed access behind a later area. -/
theorem Changed.cons (h : Changed k prot memptr rest a e areas)
    (hold : Ordered k prev.vmEnd.toNat (memptr :: rest)) :
    Changed k prot prev (memptr :: rest) a e (prev :: areas) := by
  obtain ⟨_, hle, _, hsize, _⟩ := id hold
  have habove := h.above
  refine ⟨Extends.cons_of (h.extends_first.ordered hold), by omega, fun x f => ?_⟩
  rw [hasAccess_cons, h.access, hasAccess_cons (a := prev)]
  grind

/-- The changed area may be joined with an area beside it. -/
theorem Changed.join (h : Changed k prot prev rest a e areas) (hjoin : Join prot areas areas')
    (hsize : prev.vmStart.toNat ≤ prev.vmEnd.toNat) : Changed k prot prev rest a e areas' where
  extends_first := h.extends_first.join hjoin
  above := h.above
  access x f := by rw [hjoin.access (h.extends_first.start_le hsize), h.access]

/-- The range lies in the area `memptr`. -/
theorem protectArea_changed (hold : Ordered k prev.vmEnd.toNat (memptr :: rest))
    (hm : k.least ≤ 4096) (hprev : prev.vmStart.toNat ≤ prev.vmEnd.toNat)
    (hrange : GoodRange k addr len prot) (hpos : 0 < len.toNat)
    (hin : memptr.vmStart.toNat ≤ addr.toNat)
    (hfits : addr.toNat + len.toNat ≤ memptr.vmEnd.toNat) :
    Changed k prot prev (memptr :: rest) addr.toNat (addr.toNat + len.toNat)
      ((protectArea addr (addr + len) prot prev memptr rest).prev ::
        (protectArea addr (addr + len) prot prev memptr rest).fromPrev) := by
  obtain ⟨haddr, hlen, hsize, hwrap, hprot⟩ := hrange
  obtain ⟨hlo, hle, hstart, hmemptr, hflags, hrest⟩ := hold
  have hend : (addr + len).toNat = addr.toNat + len.toNat := BitVec.toNat_add_of_lt hwrap
  have hlow := hrest.low
  have hbehind : ∀ x f, HasAccess rest x f → memptr.vmEnd.toNat ≤ x := fun x f hx =>
    hrest.le_of_access hx
  have hne_start : addr ≠ memptr.vmStart → memptr.vmStart.toNat < addr.toNat := by
    intro hne
    have : addr.toNat ≠ memptr.vmStart.toNat := fun heq => hne (BitVec.eq_of_toNat_eq heq)
    omega
  have hne_end : addr + len ≠ memptr.vmEnd → addr.toNat + len.toNat < memptr.vmEnd.toNat := by
    intro hne
    have : (addr + len).toNat ≠ memptr.vmEnd.toNat := fun heq => hne (BitVec.eq_of_toNat_eq heq)
    omega
  have heq_end : addr + len = memptr.vmEnd → addr.toNat + len.toNat = memptr.vmEnd.toNat :=
    fun heq => by rw [← heq, hend]
  have habove : prev.vmEnd.toNat ≤ addr.toNat := Nat.le_trans hle hin
  -- the areas before any of them is joined with one beside it
  have hmiddle_changed : addr ≠ memptr.vmStart → addr + len ≠ memptr.vmEnd →
      Changed k prot prev (memptr :: rest) addr.toNat (addr.toNat + len.toNat)
        (prev :: { memptr with vmEnd := addr } :: ⟨addr, addr + len, prot⟩ ::
          { memptr with vmStart := addr + len } :: rest) := by
    intro hstart_ne hend_ne
    have h1 := hne_start hstart_ne
    have h2 := hne_end hend_ne
    refine ⟨Extends.cons_of ?_, habove, fun x f => ?_⟩
    · simp only [Ordered, hend]
      refine ⟨?_, ?_, ?_, ?_, hflags, ?_, ?_, ?_, ?_, hprot, ?_, ?_, ?_, ?_, hflags, hrest⟩ <;>
        omega
    · simp only [hasAccess_cons, hend]
      grind
  have hback_changed : addr ≠ memptr.vmStart → addr + len = memptr.vmEnd →
      Changed k prot prev (memptr :: rest) addr.toNat (addr.toNat + len.toNat)
        (prev :: { memptr with vmEnd := addr } :: ⟨addr, addr + len, prot⟩ :: rest) := by
    intro hstart_ne hend_eq
    have h1 := hne_start hstart_ne
    have h2 := heq_end hend_eq
    refine ⟨Extends.cons_of ?_, habove, fun x f => ?_⟩
    · simp only [Ordered, hend, h2]
      refine ⟨?_, ?_, ?_, ?_, hflags, ?_, ?_, ?_, ?_, hprot, hrest⟩ <;> omega
    · simp only [hasAccess_cons, hend]
      grind
  have hfront_changed : addr = memptr.vmStart → addr + len ≠ memptr.vmEnd →
      Changed k prot prev (memptr :: rest) addr.toNat (addr.toNat + len.toNat)
        (prev :: ⟨addr, addr + len, prot⟩ :: { memptr with vmStart := addr + len } :: rest) := by
    intro hstart_eq hend_ne
    have h1 : addr.toNat = memptr.vmStart.toNat := congrArg BitVec.toNat hstart_eq
    have h2 := hne_end hend_ne
    refine ⟨Extends.cons_of ?_, habove, fun x f => ?_⟩
    · simp only [Ordered, hend]
      refine ⟨?_, ?_, ?_, ?_, hprot, ?_, ?_, ?_, ?_, hflags, hrest⟩ <;> omega
    · simp only [hasAccess_cons, hend]
      grind
  have hwhole_changed : addr = memptr.vmStart → addr + len = memptr.vmEnd →
      Changed k prot prev (memptr :: rest) addr.toNat (addr.toNat + len.toNat)
        (prev :: { memptr with accessFlags := prot } :: rest) := by
    intro hstart_eq hend_eq
    have h1 : addr.toNat = memptr.vmStart.toNat := congrArg BitVec.toNat hstart_eq
    have h2 := heq_end hend_eq
    refine ⟨Extends.cons_of ⟨hlo, hle, hstart, hmemptr, hprot, hrest⟩, habove, fun x f => ?_⟩
    simp only [hasAccess_cons]
    grind
  unfold protectArea
  simp only
  split_ifs with hmiddle hback hfront hjoins hjoins
  · exact hmiddle_changed hmiddle.1 hmiddle.2
  · have hchanged := hback_changed hback.1 hback.2
    cases hjoin : joiningNext (addr + len) prot rest with
    | none => exact hchanged
    | some p =>
        obtain ⟨rfl, htouch, rfl⟩ := joiningNext_some hjoin
        exact hchanged.join (.tail (.tail (.head htouch rfl rfl))) hprev
  · obtain ⟨htouch, hsame⟩ := hjoins
    exact (hfront_changed hfront.1 hfront.2).join (.head htouch.symm hsame rfl) hprev
  · exact hfront_changed hfront.1 hfront.2
  · -- the whole area, which joins the area before
    have hfirst : addr = memptr.vmStart := by grind only
    have hlast : addr + len = memptr.vmEnd := by grind only
    obtain ⟨hsame, htouch⟩ := hjoins
    have hchanged := (hwhole_changed hfirst hlast).join
      (.head (htouch.trans hfirst) hsame rfl) hprev
    cases hjoin : joiningNext (addr + len) prot rest with
    | none => exact hchanged
    | some p =>
        obtain ⟨rfl, hnext, hnext_same⟩ := joiningNext_some hjoin
        exact hchanged.join (.head (hlast.symm.trans hnext) hsame hnext_same) hprev
  · -- the whole area
    have hfirst : addr = memptr.vmStart := by grind only
    have hlast : addr + len = memptr.vmEnd := by grind only
    have hchanged := hwhole_changed hfirst hlast
    cases hjoin : joiningNext (addr + len) prot rest with
    | none => exact hchanged
    | some p =>
        obtain ⟨rfl, hnext, hnext_same⟩ := joiningNext_some hjoin
        exact hchanged.join (.tail (.head (hlast.symm.trans hnext) rfl hnext_same)) hprev

/-- The area found by `mprotectFrom` holds the address. -/
theorem mprotectFrom_some {p : Protected} (h : mprotectFrom addr len prot prev rest = some p) :
    ∃ area ∈ rest, area.vmStart.toNat ≤ addr.toNat ∧ addr.toNat < area.vmEnd.toNat := by
  induction rest generalizing prev p with
  | nil => cases h
  | cons memptr rest ih =>
      rw [mprotectFrom] at h
      split_ifs at h with hstart hend
      · exact ⟨memptr, by simp, BitVec.le_def.mp hstart, BitVec.lt_def.mp hend⟩
      · obtain ⟨q, hq, -⟩ := Option.map_eq_some_iff.mp h
        obtain ⟨area, harea, hin⟩ := ih hq
        exact ⟨area, List.mem_cons_of_mem memptr harea, hin⟩

/-- The access changes in the area that holds the range. -/
theorem mprotectFrom_changed (hold : Ordered k prev.vmEnd.toNat rest) (hm : k.least ≤ 4096)
    (hprev : prev.vmStart.toNat ≤ prev.vmEnd.toNat) (hrange : GoodRange k addr len prot)
    (hpos : 0 < len.toNat)
    (hfits : ∀ area ∈ rest, area.vmStart.toNat ≤ addr.toNat → addr.toNat < area.vmEnd.toNat →
      addr.toNat + len.toNat ≤ area.vmEnd.toNat) {p : Protected}
    (h : mprotectFrom addr len prot prev rest = some p) :
    Changed k prot prev rest addr.toNat (addr.toNat + len.toNat) (p.prev :: p.fromPrev) := by
  induction rest generalizing prev p with
  | nil => cases h
  | cons memptr rest ih =>
      rw [mprotectFrom] at h
      split_ifs at h with hstart hend
      · obtain rfl := Option.some.inj h
        rw [BitVec.le_def] at hstart
        rw [BitVec.lt_def] at hend
        exact protectArea_changed hold hm hprev hrange hpos hstart
          (hfits memptr (by simp) hstart hend)
      · obtain ⟨q, hq, rfl⟩ := Option.map_eq_some_iff.mp h
        obtain ⟨_, _, _, hsize, _, hrest⟩ := id hold
        refine (ih hrest (by omega) ?_ hq).cons hold
        exact fun area harea => hfits area (List.mem_cons_of_mem memptr harea)

end GemOS.Vm
