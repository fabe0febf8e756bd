import GemOS.Vm.AreaEdits

/-!
# Rounded lengths and stored ends

A trace of a call follows the three functions through their branches. It collects the lengths that
are rounded up to whole pages, each with the address it counts from, and the stores to `vm_end`.
`stored_ends` ties it to the list after the call: every end there was an end before or was stored.
-/

namespace GemOS.Vm

/-- A store to `vm_end`: the `vm_start` of the node at that time, and the new end. -/
structure EndStore where
  start : U64
  vmEnd : U64

/-- The lengths that a call rounds, with the addresses they count from, and its stores to
`vm_end`. -/
structure Trace where
  rounded : List (U64 × CInt)
  ends : List EndStore

/-! ## `vm_area_map` -/

/-- The stores of `placeBetween`. -/
def betweenEnds (addr len : U64) (prot : U32) (memptr next : VmArea) : List EndStore :=
  let joinsPrev := addr = memptr.vmEnd ∧ prot = memptr.accessFlags
  let joinsNext := addr + len = next.vmStart ∧ prot = next.accessFlags
  if joinsPrev ∧ ¬ joinsNext then [⟨memptr.vmStart, memptr.vmEnd + len⟩]
  else if ¬ joinsPrev ∧ joinsNext then []
  else if joinsPrev ∧ joinsNext then [⟨memptr.vmStart, next.vmEnd⟩]
  else [⟨addr, addr + len⟩]

/-- The stores of `placeLast`. -/
def lastEnds (addr len : U64) (prot : U32) (memptr : VmArea) : List EndStore :=
  if addr = memptr.vmEnd ∧ prot = memptr.accessFlags then
    [⟨memptr.vmStart, memptr.vmEnd + len⟩]
  else [⟨addr, addr + len⟩]

/-- The stores of `allocVMArea`. -/
def allocEnds (len : U64) (prot : U32) : VmArea → List VmArea → List EndStore
  | memptr, [] =>
      if memptr.vmEnd + len ≤ MMAP_AREA_END then lastEnds memptr.vmEnd len prot memptr else []
  | memptr, next :: rest =>
      if memptr.vmEnd + len ≤ next.vmStart then betweenEnds memptr.vmEnd len prot memptr next
      else allocEnds len prot next rest

/-- The stores of a call that places memory at the hint. -/
def hintEnds (addr len : U64) (prot : U32) : VmArea → List VmArea → List EndStore
  | memptr, [] => lastEnds addr len prot memptr
  | memptr, next :: rest =>
      if memptr.vmEnd ≤ addr ∧ next.vmStart > addr then betweenEnds addr len prot memptr next
      else hintEnds addr len prot next rest

/-- The stores of the search for a place, on a list that has its first area. -/
def placeEnds (addr len : U64) (prot : U32) (flag : CInt) : List VmArea → List EndStore
  | [] => []
  | memptr :: rest =>
      if addr = 0 then if flag = MAP_FIXED then [] else allocEnds len prot memptr rest
      else
        match placeAt addr len prot memptr rest with
        | .placed _ => hintEnds addr len prot memptr rest
        | .notFree => if flag = MAP_FIXED then [] else allocEnds len prot memptr rest
        | .notFound => []

/-- The stores of `vm_area_map`: the first area may be created. -/
def mapEnds (s : Areas) (addr : U64) (length prot flag : CInt) : List EndStore :=
  (if s.list = [] then [⟨dummyNode.vmStart, dummyNode.vmEnd⟩] else []) ++
    placeEnds addr (widen (alignedLength length)) prot flag s.create.list

/-! ## `vm_area_mprotect` -/

/-- The stores of `protectArea`. If `prev` is `NULL`, what is stored through it is no end of a
node. -/
def protectEnds (isHead : Bool) (addrStart addrEnd : U64) (prot : U32) (prev memptr : VmArea)
    (rest : List VmArea) : List EndStore :=
  let prevEnd (vmEnd : U64) : List EndStore := if isHead then [] else [⟨prev.vmStart, vmEnd⟩]
  if addrStart ≠ memptr.vmStart ∧ addrEnd ≠ memptr.vmEnd then
    [⟨memptr.vmStart, addrStart⟩, ⟨addrStart, addrEnd⟩, ⟨addrEnd, memptr.vmEnd⟩]
  else if addrStart ≠ memptr.vmStart ∧ addrEnd = memptr.vmEnd then
    ⟨memptr.vmStart, addrStart⟩ ::
      match joiningNext addrEnd prot rest with
      | some _ => []
      | none => [⟨addrStart, addrEnd⟩]
  else if addrStart = memptr.vmStart ∧ addrEnd ≠ memptr.vmEnd then
    if addrStart = prev.vmEnd ∧ prev.accessFlags = prot then prevEnd addrEnd
    else [⟨addrStart, addrEnd⟩]
  else if prev.accessFlags = prot ∧ prev.vmEnd = addrStart then
    match joiningNext addrEnd prot rest with
    | some (next, _) => prevEnd next.vmEnd
    | none => prevEnd memptr.vmEnd
  else
    match joiningNext addrEnd prot rest with
    | some (next, _) => [⟨memptr.vmStart, next.vmEnd⟩]
    | none => []

/-- The stores of the search of `vm_area_mprotect`. -/
def mprotectEnds (addr len : U64) (prot : U32) : Bool → VmArea → List VmArea → List EndStore
  | _, _, [] => []
  | isHead, prev, memptr :: rest =>
      if memptr.vmStart ≤ addr then
        if addr < memptr.vmEnd then protectEnds isHead addr (addr + len) prot prev memptr rest
        else mprotectEnds addr len prot false memptr rest
      else []

/-! ## `vm_area_unmap` -/

/-- The stores of `unmapInside`. -/
def insideEnds (addr len : U64) (memptr : VmArea) : List EndStore :=
  if memptr.vmEnd = addr + len ∧ memptr.vmStart = addr then []
  else if memptr.vmStart = addr then []
  else if memptr.vmEnd = addr + len then [⟨memptr.vmStart, addr⟩]
  else [⟨memptr.vmStart, addr⟩, ⟨addr + len, memptr.vmEnd⟩]

/-- The loop of `vm_area_unmap`. It rounds what is left of the length, and that only in an area that
holds all of it. -/
def unmapTrace : List VmArea → U64 → CInt → Trace
  | [], _, _ => ⟨[], []⟩
  | memptr :: rest, addr₀, length₀ =>
      let before := addr₀ < memptr.vmStart ∧ addr₀ + widen length₀ ≥ memptr.vmStart
      let addr := if before then memptr.vmStart else addr₀
      let length := if before then (addr₀ + widen length₀ - memptr.vmStart).setWidth 32 else length₀
      if length₀.toInt ≤ 0 ∨ length.toInt ≤ 0 then ⟨[], []⟩
      else if memptr.vmStart ≤ addr ∧ memptr.vmEnd ≥ addr + widen length then
        ⟨[(addr, length)], insideEnds addr (widen (alignedLength length)) memptr⟩
      else if memptr.vmStart ≤ addr ∧ memptr.vmEnd > addr ∧
          addr + widen length > memptr.vmEnd then
        let shrunk : EndStore := ⟨memptr.vmStart, addr⟩
        match rest with
        | [] => ⟨[], [shrunk]⟩
        | next :: _ =>
            if addr + widen length < next.vmStart then ⟨[], [shrunk]⟩
            else
              let t := unmapTrace rest next.vmStart
                ((addr + widen length - next.vmStart).setWidth 32)
              { t with ends := shrunk :: t.ends }
      else if memptr.vmStart > addr + widen length ∨ rest = [] then ⟨[], []⟩
      else unmapTrace rest addr length

/-! ## The calls -/

/-- The trace of a call. -/
def AreaCall.trace (s : Areas) : AreaCall → Trace
  | .map addr length prot flag =>
      if badMapArgs length prot flag then ⟨[], []⟩
      else ⟨[(addr, length)], mapEnds s addr length prot flag⟩
  | .unmap addr length => if length.toInt < 0 then ⟨[], []⟩ else unmapTrace s.list addr length
  | .mprotect addr length prot =>
      if badProtectArgs length prot then ⟨[], []⟩
      else ⟨[(addr, length)],
        mprotectEnds addr (widen (alignedLength length)) prot true s.nullArea s.list⟩

/-- What a call returns. -/
def AreaCall.result (s : Areas) : AreaCall → Int
  | .map addr length prot flag => (vmAreaMap s addr length prot flag).1
  | .unmap addr length => (vmAreaUnmap s addr length).1
  | .mprotect addr length prot => (vmAreaMprotect s addr length prot).1

/-- Every end in the new list is one of the old list or has been stored. -/
def EndsFrom (old : List VmArea) (ends : List EndStore) (new : List VmArea) : Prop :=
  ∀ v ∈ new, (∃ w ∈ old, w.vmEnd = v.vmEnd) ∨ ∃ e ∈ ends, e.vmEnd = v.vmEnd

variable {old new rest : List VmArea} {ends : List EndStore} {memptr next prev : VmArea}
variable {addr len : U64} {prot : U32} {length : CInt}

theorem EndsFrom.same (areas : List VmArea) (ends : List EndStore) : EndsFrom areas ends areas :=
  fun v hv => Or.inl ⟨v, hv, rfl⟩

/-- An area before the edit stays. -/
theorem EndsFrom.cons (memptr : VmArea) (h : EndsFrom old ends new) :
    EndsFrom (memptr :: old) ends (memptr :: new) := by
  intro v hv
  rcases List.mem_cons.mp hv with rfl | hv
  · exact Or.inl ⟨v, List.mem_cons_self, rfl⟩
  · rcases h v hv with ⟨w, hw, heq⟩ | hstored
    · exact Or.inl ⟨w, List.mem_cons_of_mem _ hw, heq⟩
    · exact Or.inr hstored

/-- The first area has its end stored. -/
theorem EndsFrom.store (memptr : VmArea) (h : EndsFrom old ends new) {start vmEnd : U64}
    {v : VmArea} (hv : v.vmEnd = vmEnd) :
    EndsFrom (memptr :: old) (⟨start, vmEnd⟩ :: ends) (v :: new) := by
  intro w hw
  rcases List.mem_cons.mp hw with rfl | hw
  · exact Or.inr ⟨_, List.mem_cons_self, hv.symm⟩
  · rcases h w hw with ⟨u, hu, heq⟩ | ⟨e, he, heq⟩
    · exact Or.inl ⟨u, List.mem_cons_of_mem _ hu, heq⟩
    · exact Or.inr ⟨e, List.mem_cons_of_mem _ he, heq⟩

theorem betweenEnds_from :
    EndsFrom (memptr :: next :: rest) (betweenEnds addr len prot memptr next)
      (placeBetween addr len prot memptr next rest).list := by
  unfold betweenEnds placeBetween
  simp only
  split_ifs <;> simp [EndsFrom] <;> grind

theorem lastEnds_from :
    EndsFrom [memptr] (lastEnds addr len prot memptr) (placeLast addr len prot memptr).list := by
  unfold lastEnds placeLast
  split_ifs <;> simp [EndsFrom]

theorem allocEnds_from :
    EndsFrom (memptr :: rest) (allocEnds len prot memptr rest)
      (allocVMArea len prot memptr rest).2.list := by
  induction rest generalizing memptr with
  | nil =>
      rw [allocEnds, allocVMArea]
      split_ifs
      · exact lastEnds_from
      · exact .same _ _
  | cons next rest ih =>
      rw [allocEnds, allocVMArea]
      split_ifs
      · exact betweenEnds_from
      · exact ih.cons memptr

theorem hintEnds_from {edit : Edit} (h : placeAt addr len prot memptr rest = .placed edit) :
    EndsFrom (memptr :: rest) (hintEnds addr len prot memptr rest) edit.list := by
  induction rest generalizing memptr edit with
  | nil =>
      rw [placeAt] at h
      split_ifs at h
      obtain rfl := Hint.placed.inj h
      exact lastEnds_from
  | cons next rest ih =>
      rw [placeAt] at h
      rw [hintEnds]
      split_ifs at h ⊢ with hin hbetween hfits
      · obtain rfl := Hint.placed.inj h
        exact betweenEnds_from
      · cases hrec : placeAt addr len prot next rest with
        | placed later =>
            simp only [hrec, Hint.placed.injEq] at h
            obtain rfl := h
            exact (ih hrec).cons memptr
        | notFree => simp [hrec] at h
        | notFound => simp [hrec] at h

/-- What `protectArea` leaves from `memptr` on, where the list may start. -/
theorem protectEnds_fromArea {addrStart addrEnd : U64} :
    EndsFrom (memptr :: rest) (protectEnds true addrStart addrEnd prot prev memptr rest)
      (protectArea addrStart addrEnd prot prev memptr rest).fromArea := by
  unfold protectEnds protectArea
  cases hjoin : joiningNext addrEnd prot rest with
  | none => simp only; split_ifs <;> simp [EndsFrom] <;> grind
  | some found =>
      obtain ⟨next, rest'⟩ := found
      obtain ⟨rfl, _, _⟩ := joiningNext_some hjoin
      simp only; split_ifs <;> simp [EndsFrom] <;> grind

/-- What `protectArea` leaves from the area before `memptr` on. -/
theorem protectEnds_fromPrev {addrStart addrEnd : U64} :
    EndsFrom (prev :: memptr :: rest)
      (protectEnds false addrStart addrEnd prot prev memptr rest)
      ((protectArea addrStart addrEnd prot prev memptr rest).prev ::
        (protectArea addrStart addrEnd prot prev memptr rest).fromPrev) := by
  unfold protectEnds protectArea
  cases hjoin : joiningNext addrEnd prot rest with
  | none => simp only; split_ifs <;> simp [EndsFrom] <;> grind
  | some found =>
      obtain ⟨next, rest'⟩ := found
      obtain ⟨rfl, _, _⟩ := joiningNext_some hjoin
      simp only; split_ifs <;> simp [EndsFrom] <;> grind

theorem mprotectEnds_from {areas : List VmArea} {p : Protected}
    (h : mprotectFrom addr len prot prev areas = some p) :
    EndsFrom areas (mprotectEnds addr len prot true prev areas) p.fromArea ∧
      EndsFrom (prev :: areas) (mprotectEnds addr len prot false prev areas)
        (p.prev :: p.fromPrev) := by
  induction areas generalizing prev p with
  | nil => cases h
  | cons memptr rest ih =>
      rw [mprotectFrom] at h
      rw [mprotectEnds, mprotectEnds]
      split_ifs at h ⊢
      · obtain rfl := Option.some.inj h
        exact ⟨protectEnds_fromArea, protectEnds_fromPrev⟩
      · obtain ⟨q, hq, rfl⟩ := Option.map_eq_some_iff.mp h
        exact ⟨(ih hq).2, (ih hq).2.cons prev⟩

theorem insideEnds_from {isHead : Bool} :
    EndsFrom (memptr :: rest) (insideEnds addr len memptr)
      (unmapInside isHead addr len memptr rest).list := by
  unfold insideEnds unmapInside
  cases isHead <;> split_ifs <;> simp [EndsFrom] <;> grind

theorem unmapTrace_from {isHead : Bool} {areas : List VmArea} :
    EndsFrom areas (unmapTrace areas addr length).ends
      (unmapFrom isHead areas addr length).list := by
  induction areas generalizing isHead addr length with
  | nil => exact .same _ _
  | cons memptr rest ih =>
      rw [unmapTrace, unmapFrom]
      simp only
      generalize (if addr < memptr.vmStart ∧ addr + widen length ≥ memptr.vmStart then
        memptr.vmStart else addr) = addr'
      generalize (if addr < memptr.vmStart ∧ addr + widen length ≥ memptr.vmStart then
        (addr + widen length - memptr.vmStart).setWidth 32 else length) = length'
      split_ifs with hzero hinside hover hstop
      · exact .same _ _
      · exact insideEnds_from
      · -- the area loses its end
        cases rest with
        | nil => exact (EndsFrom.same [] []).store memptr rfl
        | cons next rest' =>
            simp only
            split_ifs
            · exact (EndsFrom.same (next :: rest') []).store memptr rfl
            · exact ih.store memptr rfl
      · exact .same _ _
      · exact ih.cons memptr

/-- The search for a place, on a list that has its first area. -/
theorem placeEnds_from {s : Areas} {flag : CInt} (addr : U64) (hlist : s.list = memptr :: rest)
    (hgood : ¬ badMapArgs length prot flag = true) :
    EndsFrom s.list (placeEnds addr (widen (alignedLength length)) prot flag s.list)
      (vmAreaMap s addr length prot flag).2.list := by
  have halloc : EndsFrom s.list (allocEnds (widen (alignedLength length)) prot memptr rest)
      (s.alloc (widen (alignedLength length)) prot).2.list := by
    simp only [Areas.alloc, hlist]
    exact allocEnds_from
  have hsame (ends : List EndStore) : EndsFrom (memptr :: rest) ends s.list :=
    hlist ▸ .same _ _
  rw [vmAreaMap, if_neg hgood, Areas.create_of_cons hlist]
  simp only [hlist, placeEnds] at halloc ⊢
  by_cases hzero : addr = 0
  · rw [if_pos hzero, if_pos hzero]
    split_ifs
    · exact hsame _
    · exact halloc
  · rw [if_neg hzero, if_neg hzero]
    cases hplace : placeAt addr (widen (alignedLength length)) prot memptr rest with
    | placed edit => exact hintEnds_from hplace
    | notFree =>
        simp only
        split_ifs
        · exact hsame _
        · exact halloc
    | notFound => exact hsame _

/-- The ends in the list after a call are ends of the list before it, or have been stored. -/
theorem stored_ends (s s' : Areas) (call : AreaCall) (h : areaStep s call = some s') :
    EndsFrom s.list (call.trace s).ends s'.list := by
  cases call with
  | map addr length prot flag =>
      obtain rfl := Option.some.inj h
      by_cases hbad : badMapArgs length prot flag = true
      · simp only [AreaCall.trace, vmAreaMap, if_pos hbad]
        exact .same _ _
      obtain ⟨memptr, rest, hlist⟩ := s.create_ne_nil
      have hplaced := placeEnds_from addr hlist hbad
      rw [← vmAreaMap_create hbad] at hplaced
      simp only [AreaCall.trace, if_neg hbad, mapEnds]
      by_cases hempty : s.list = []
      · -- the first area has just been created
        rw [if_pos hempty]
        intro v hv
        rcases hplaced v hv with ⟨w, hw, heq⟩ | ⟨e, he, heq⟩
        · rw [Areas.create, if_pos hempty] at hw
          obtain rfl := List.mem_singleton.mp hw
          exact Or.inr ⟨_, List.mem_cons_self, heq⟩
        · exact Or.inr ⟨e, List.mem_append_right _ he, heq⟩
      · have hcreate : s.create = s := by
          rw [Areas.create, if_neg hempty]
        rw [hcreate] at hplaced ⊢
        rw [if_neg hempty, List.nil_append]
        exact hplaced
  | unmap addr length =>
      obtain rfl := Option.some.inj h
      simp only [AreaCall.trace, vmAreaUnmap]
      split_ifs
      · exact .same _ _
      · exact unmapTrace_from
  | mprotect addr length prot =>
      obtain rfl := Option.some.inj h
      simp only [AreaCall.trace, vmAreaMprotect]
      split_ifs
      · exact .same _ _
      · cases hfrom : mprotectFrom addr (widen (alignedLength length)) prot s.nullArea s.list with
        | none => exact .same _ _
        | some p => exact (mprotectEnds_from hfrom).1

end GemOS.Vm
