import GemOS.Base

/-!
# Virtual memory areas

`vm_area_map`, `vm_area_mprotect` and `vm_area_unmap` on the list of areas of a process. The page
table is left to the callers of these definitions: `vmAreaMprotect` and `vmAreaUnmap` also return
the address ranges that the code hands to `updateAllPFNs` and `freeAllPFNs`.

`os_alloc` is taken to succeed. The pointer `prev` of the code is `NULL` at the first area; what
is stored through it then does not reach the list, and what is read comes from `nullArea`. If the
first area is freed, `current->vm_area` still points to it, and it is taken to keep its contents,
although `os_alloc` may hand it out again: `unmapFreesFirst` and `mprotectFreesFirst` say which
calls free it, so that runs without them can be told apart.
-/

namespace GemOS.Vm

def MMAP_AREA_START : U64 := 0x180200000

def MMAP_AREA_END : U64 := 0x7FE000000

def FOUR_KB : U64 := 0x1000

def MAP_FIXED : CInt := 1

/-- The list `current->vm_area`, the bytes at address 0 read as an area, and
`stats->num_vm_area`. -/
structure Areas where
  list : List VmArea
  nullArea : VmArea
  numVmArea : U64

/-- An `int` as an operand of `u64` arithmetic. -/
def widen (n : CInt) : U64 :=
  n.signExtend 64

/-- `(length + 0xFFF) & ~(0xFFF)`, in `int` arithmetic. -/
def alignedLength (length : CInt) : CInt :=
  (length + 0xFFF) &&& ~~~(0xFFF : CInt)

/-- A list after an edit, and the change of the number of areas. -/
structure Edit where
  list : List VmArea
  count : Int

/-- Put back an area that an edit of the rest of the list has not touched. -/
def Edit.cons (area : VmArea) (e : Edit) : Edit :=
  { e with list := area :: e.list }

/-- The list and the count after an edit. -/
def Areas.apply (s : Areas) (e : Edit) : Areas :=
  { s with list := e.list, numVmArea := s.numVmArea + BitVec.ofInt 64 e.count }

/-! ## `vm_area_map` -/

/-- New memory `[addr, addr + len)` between two areas, combined with those of the same access
that it touches. -/
def placeBetween (addr len : U64) (prot : U32) (memptr next : VmArea) (rest : List VmArea) : Edit :=
  let joinsPrev := addr = memptr.vmEnd ∧ prot = memptr.accessFlags
  let joinsNext := addr + len = next.vmStart ∧ prot = next.accessFlags
  if joinsPrev ∧ ¬ joinsNext then ⟨{ memptr with vmEnd := memptr.vmEnd + len } :: next :: rest, 0⟩
  else if ¬ joinsPrev ∧ joinsNext then ⟨memptr :: { next with vmStart := addr } :: rest, 0⟩
  else if joinsPrev ∧ joinsNext then ⟨{ memptr with vmEnd := next.vmEnd } :: rest, -1⟩
  else ⟨memptr :: ⟨addr, addr + len, prot⟩ :: next :: rest, 1⟩

/-- New memory behind the last area. -/
def placeLast (addr len : U64) (prot : U32) (memptr : VmArea) : Edit :=
  if addr = memptr.vmEnd ∧ prot = memptr.accessFlags then
    ⟨[{ memptr with vmEnd := memptr.vmEnd + len }], 0⟩
  else ⟨[memptr, ⟨addr, addr + len, prot⟩], 1⟩

/-- `allocVMArea`: the first gap that is large enough, searched from `memptr` on. The result is
the address, or `-EINVAL`. -/
def allocVMArea (len : U64) (prot : U32) : VmArea → List VmArea → Int × Edit
  | memptr, [] =>
      if memptr.vmEnd + len ≤ MMAP_AREA_END then
        (memptr.vmEnd.toInt, placeLast memptr.vmEnd len prot memptr)
      else (-EINVAL, ⟨[memptr], 0⟩)
  | memptr, next :: rest =>
      if memptr.vmEnd + len ≤ next.vmStart then
        (memptr.vmEnd.toInt, placeBetween memptr.vmEnd len prot memptr next rest)
      else
        let (result, e) := allocVMArea len prot next rest
        (result, e.cons memptr)

/-- What the search for a place at a given address comes to. -/
inductive Hint where
  | placed (e : Edit)
  | notFree
  | notFound

/-- The search of `vm_area_map` for the place at `addr`, from `memptr` on. -/
def placeAt (addr len : U64) (prot : U32) : VmArea → List VmArea → Hint
  | memptr, [] =>
      if memptr.vmStart ≤ addr ∧ memptr.vmEnd > addr then .notFree
      else if memptr.vmEnd ≤ addr then
        if addr + len ≤ MMAP_AREA_END then .placed (placeLast addr len prot memptr) else .notFree
      else .notFound
  | memptr, next :: rest =>
      if memptr.vmStart ≤ addr ∧ memptr.vmEnd > addr then .notFree
      else if memptr.vmEnd ≤ addr ∧ next.vmStart > addr then
        if addr + len ≤ next.vmStart then .placed (placeBetween addr len prot memptr next rest)
        else .notFree
      else
        match placeAt addr len prot next rest with
        | .placed e => .placed (e.cons memptr)
        | hint => hint

/-- The first area, which is created with the list. -/
def dummyNode : VmArea :=
  ⟨MMAP_AREA_START, MMAP_AREA_START + FOUR_KB, 0⟩

/-- The list has its first area. -/
def Areas.create (s : Areas) : Areas :=
  if s.list = [] then { s with list := [dummyNode], numVmArea := 1 } else s

/-- `allocVMArea` on the whole list. -/
def Areas.alloc (s : Areas) (len : U64) (prot : U32) : Int × Areas :=
  match s.list with
  | [] => (-EINVAL, s)
  | memptr :: rest =>
      let (result, e) := allocVMArea len prot memptr rest
      (result, s.apply e)

/-- The arguments that `vm_area_map` rejects. -/
def badMapArgs (length prot flag : CInt) : Bool :=
  length.toInt < 0 ∨ (prot ≠ 1 ∧ prot ≠ 3) ∨ flag.toInt > 1 ∨ flag.toInt < 0

/-- `vm_area_map`. -/
def vmAreaMap (s : Areas) (addr : U64) (length prot flag : CInt) : Int × Areas :=
  if badMapArgs length prot flag then (-EINVAL, s)
  else
    let s := s.create
    let len := widen (alignedLength length)
    if addr = 0 then
      if flag = MAP_FIXED then (-EINVAL, s) else s.alloc len prot
    else
      match s.list with
      | [] => (-EINVAL, s)
      | memptr :: rest =>
          match placeAt addr len prot memptr rest with
          | .placed e => (addr.toInt, s.apply e)
          | .notFree => if flag = MAP_FIXED then (-EINVAL, s) else s.alloc len prot
          | .notFound => (-EINVAL, s)

/-! ## `vm_area_mprotect` -/

/-- The area after `memptr`, if it starts where the new range ends and has the new access. -/
def joiningNext (addrEnd : U64) (prot : U32) : List VmArea → Option (VmArea × List VmArea)
  | [] => none
  | next :: rest =>
      if addrEnd = next.vmStart ∧ next.accessFlags = prot then some (next, rest) else none

/-- The areas around `memptr` after an edit: the area before it, the areas reached from there, and
those reached from `memptr` itself, where the list starts if `prev` is `NULL`. -/
structure Protected where
  prev : VmArea
  fromPrev : List VmArea
  fromArea : List VmArea
  count : Int

/-- Change the access of `[addrStart, addrEnd)` in the area `memptr`. -/
def protectArea (addrStart addrEnd : U64) (prot : U32) (prev memptr : VmArea)
    (rest : List VmArea) : Protected :=
  let changed : VmArea := ⟨addrStart, addrEnd, prot⟩
  if addrStart ≠ memptr.vmStart ∧ addrEnd ≠ memptr.vmEnd then
    -- three new areas; `memptr` is freed
    { prev := prev
      fromPrev := { memptr with vmEnd := addrStart } :: changed ::
        { memptr with vmStart := addrEnd } :: rest
      fromArea := memptr :: rest
      count := 2 }
  else if addrStart ≠ memptr.vmStart ∧ addrEnd = memptr.vmEnd then
    let shrunk := { memptr with vmEnd := addrStart }
    match joiningNext addrEnd prot rest with
    | some (next, rest) =>
        let areas := shrunk :: { next with vmStart := addrStart } :: rest
        { prev := prev, fromPrev := areas, fromArea := areas, count := 0 }
    | none =>
        let areas := shrunk :: changed :: rest
        { prev := prev, fromPrev := areas, fromArea := areas, count := 1 }
  else if addrStart = memptr.vmStart ∧ addrEnd ≠ memptr.vmEnd then
    let areas := { memptr with vmStart := addrEnd } :: rest
    if addrStart = prev.vmEnd ∧ prev.accessFlags = prot then
      { prev := { prev with vmEnd := addrEnd }, fromPrev := areas, fromArea := areas, count := 0 }
    else { prev := prev, fromPrev := changed :: areas, fromArea := areas, count := 1 }
  else
    let area := { memptr with accessFlags := prot }
    if prev.accessFlags = prot ∧ prev.vmEnd = addrStart then
      match joiningNext addrEnd prot rest with
      | some (next, rest') =>
          { prev := { prev with vmEnd := next.vmEnd }, fromPrev := rest'
            fromArea := area :: rest, count := -2 }
      | none =>
          { prev := { prev with vmEnd := memptr.vmEnd }, fromPrev := rest
            fromArea := area :: rest, count := -1 }
    else
      match joiningNext addrEnd prot rest with
      | some (next, rest') =>
          let areas := { area with vmEnd := next.vmEnd } :: rest'
          { prev := prev, fromPrev := areas, fromArea := areas, count := -1 }
      | none =>
          { prev := prev, fromPrev := area :: rest, fromArea := area :: rest, count := 0 }

/-- The search of `vm_area_mprotect` for the area that holds `addr`. -/
def mprotectFrom (addr len : U64) (prot : U32) : VmArea → List VmArea → Option Protected
  | _, [] => none
  | prev, memptr :: rest =>
      if memptr.vmStart ≤ addr then
        if addr < memptr.vmEnd then some (protectArea addr (addr + len) prot prev memptr rest)
        else
          (mprotectFrom addr len prot memptr rest).map fun p =>
            { p with prev := prev, fromPrev := p.prev :: p.fromPrev
                     fromArea := p.prev :: p.fromPrev }
      else none

/-- The arguments that `vm_area_mprotect` rejects. -/
def badProtectArgs (length prot : CInt) : Bool :=
  length.toInt < 0 ∨ (prot ≠ 1 ∧ prot ≠ 3)

/-- `vm_area_mprotect`. The last result is the range given to `updateAllPFNs`. -/
def vmAreaMprotect (s : Areas) (addr : U64) (length prot : CInt) :
    Int × Areas × Option (U64 × U64) :=
  if badProtectArgs length prot then (-EINVAL, s, none)
  else
    let len := widen (alignedLength length)
    match mprotectFrom addr len prot s.nullArea s.list with
    | some p =>
        (0, { s.apply ⟨p.fromArea, p.count⟩ with nullArea := p.prev }, some (addr, addr + len))
    | none => (-EINVAL, s, none)

/-! ## `vm_area_unmap` -/

/-- What the loop of `vm_area_unmap` leaves from some area on, with the ranges given to
`freeAllPFNs`. -/
structure Unmapped where
  result : Int
  list : List VmArea
  count : Int
  freed : List (U64 × U64)

/-- Unmap `[addr, addr + len)` inside the area `memptr`; `isHead` tells that `prev` is `NULL`. -/
def unmapInside (isHead : Bool) (addr len : U64) (memptr : VmArea) (rest : List VmArea) : Edit :=
  if memptr.vmEnd = addr + len ∧ memptr.vmStart = addr then
    ⟨if isHead then memptr :: rest else rest, -1⟩
  else if memptr.vmStart = addr then ⟨{ memptr with vmStart := addr + len } :: rest, 0⟩
  else if memptr.vmEnd = addr + len then ⟨{ memptr with vmEnd := addr } :: rest, 0⟩
  else
    ⟨if isHead then memptr :: rest
      else { memptr with vmEnd := addr } :: { memptr with vmStart := addr + len } :: rest, 1⟩

/-- The loop of `vm_area_unmap`. An iteration that only moves `addr` up to the start of the area
is taken together with the next one, which looks at the same area. -/
def unmapFrom (isHead : Bool) : List VmArea → U64 → CInt → Unmapped
  | [], _, _ => ⟨-EINVAL, [], 0, []⟩
  | memptr :: rest, addr₀, length₀ =>
      let before := addr₀ < memptr.vmStart ∧ addr₀ + widen length₀ ≥ memptr.vmStart
      let addr := if before then memptr.vmStart else addr₀
      let length := if before then (addr₀ + widen length₀ - memptr.vmStart).setWidth 32 else length₀
      if length₀.toInt ≤ 0 ∨ length.toInt ≤ 0 then ⟨-EINVAL, memptr :: rest, 0, []⟩
      else if memptr.vmStart ≤ addr ∧ memptr.vmEnd ≥ addr + widen length then
        let len := widen (alignedLength length)
        let e := unmapInside isHead addr len memptr rest
        ⟨0, e.list, e.count, [(addr, addr + len)]⟩
      else if memptr.vmStart ≤ addr ∧ memptr.vmEnd > addr ∧
          addr + widen length > memptr.vmEnd then
        let shrunk := { memptr with vmEnd := addr }
        match rest with
        | [] => ⟨0, [shrunk], 0, [(addr, memptr.vmEnd)]⟩
        | next :: _ =>
            if addr + widen length < next.vmStart then
              ⟨0, shrunk :: rest, 0, [(addr, memptr.vmEnd)]⟩
            else
              let u := unmapFrom false rest next.vmStart
                ((addr + widen length - next.vmStart).setWidth 32)
              { u with list := shrunk :: u.list, freed := (addr, memptr.vmEnd) :: u.freed }
      else if memptr.vmStart > addr + widen length ∨ rest = [] then ⟨0, memptr :: rest, 0, []⟩
      else
        let u := unmapFrom false rest addr length
        { u with list := memptr :: u.list }

/-- `vm_area_unmap`. The last result is the ranges given to `freeAllPFNs`. -/
def vmAreaUnmap (s : Areas) (addr : U64) (length : CInt) : Int × Areas × List (U64 × U64) :=
  if length.toInt < 0 then (-EINVAL, s, [])
  else
    let u := unmapFrom true s.list addr length
    (u.result, s.apply ⟨u.list, u.count⟩, u.freed)

/-! ## Calls that free the first area -/

/-- `vm_area_unmap` frees the first area if the range lies in it, and either covers it or reaches
neither of its ends. -/
def unmapFreesFirst (list : List VmArea) (addr₀ : U64) (length₀ : CInt) : Bool :=
  match list with
  | [] => false
  | memptr :: _ =>
      let before := addr₀ < memptr.vmStart ∧ addr₀ + widen length₀ ≥ memptr.vmStart
      let addr := if before then memptr.vmStart else addr₀
      let length := if before then (addr₀ + widen length₀ - memptr.vmStart).setWidth 32 else length₀
      ¬ (length₀.toInt ≤ 0 ∨ length.toInt ≤ 0) ∧
        (memptr.vmStart ≤ addr ∧ memptr.vmEnd ≥ addr + widen length) ∧
        (memptr.vmEnd = addr + widen (alignedLength length) ↔ memptr.vmStart = addr)

/-- `vm_area_mprotect` frees the first area if it has to be split in three, or if all of it is
changed and the area at `NULL` takes it over. -/
def mprotectFreesFirst (s : Areas) (addr : U64) (length prot : CInt) : Bool :=
  match s.list with
  | [] => false
  | memptr :: _ =>
      let addrEnd := addr + widen (alignedLength length)
      ¬ badProtectArgs length prot ∧ (memptr.vmStart ≤ addr ∧ addr < memptr.vmEnd) ∧
        (addr ≠ memptr.vmStart ∧ addrEnd ≠ memptr.vmEnd ∨
          (addr = memptr.vmStart ∧ addrEnd = memptr.vmEnd) ∧
            s.nullArea.accessFlags = prot ∧ s.nullArea.vmEnd = addr)

/-! ## Runs -/

/-- A call of one of the three functions. -/
inductive AreaCall where
  | map (addr : U64) (length prot flag : CInt)
  | unmap (addr : U64) (length : CInt)
  | mprotect (addr : U64) (length prot : CInt)

/-- The areas after a call. -/
def areaStep (s : Areas) : AreaCall → Option Areas
  | .map addr length prot flag => some (vmAreaMap s addr length prot flag).2
  | .unmap addr length => some (vmAreaUnmap s addr length).2.1
  | .mprotect addr length prot => some (vmAreaMprotect s addr length prot).2.1

end GemOS.Vm
