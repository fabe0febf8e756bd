import GemOS.Vm.PageTable

/-!
# `do_cfork`

The parts of `do_cfork` that copy the areas of the parent and build the page table of the child.
`get_new_ctx` is taken to return a context without areas. The variable `addr_start` of the loop
over the areas is not initialised, so its value is an argument. `copy_os_pts` is left out: it is
prebuilt, and lets the child use the tables of its parent for the addresses of the kernel, below
4 GB.
-/

namespace GemOS.Vm

/-! ## Areas -/

/-- The areas of the child: a new first area, and copies of the areas behind the first one. -/
def copyVmAreas : List VmArea → List VmArea
  | [] => []
  | _ :: par => dummyNode :: par

/-! ## Page tables -/

/-- Take the write access from an entry of the parent and the one of the child. -/
def restrict (m : Machine) (par child : Slot) : Machine :=
  let m := m.modify par (·.clear 0x8)
  m.modify child (·.clear 0x8)

/-- One of the upper levels of `copyPageToChildProcess`: an entry of the child that is not present
gets a table. That there may be no frame for it is not checked. -/
def copyTable (a : FrameAlloc) (m : Machine) (par child : Slot) : Machine :=
  if (m.entry child).present then m
  else
    let (pfn, m) := a.allocTable m
    restrict (m.setEntry child ⟨pfn, 0x11⟩) par child

/-- The last level of `copyPageToChildProcess`: the child gets the page of the parent. -/
def copyPage (a : FrameAlloc) (m : Machine) (par child : Slot) : Machine :=
  if (m.entry child).present then m
  else
    let physicalPfn := (m.entry par).pfn
    let m := m.getPfn a physicalPfn
    restrict (m.setEntry child ⟨physicalPfn, 0x11⟩) par child

/-- `copyPageToChildProcess`, where `par` and `child` are the frames of the two first-level
tables. -/
def copyPageToChildProcess (a : FrameAlloc) (par child : Nat) (m : Machine) (addr : U64) :
    Int × Machine :=
  let pgdPar : Slot := ⟨par, pgdIdx addr⟩
  let pgdChild : Slot := ⟨child, pgdIdx addr⟩
  if (m.entry pgdPar).present = false then (0, m)
  else
    let m := copyTable a m pgdPar pgdChild
    let pudPar : Slot := ⟨(m.entry pgdPar).pfn, pudIdx addr⟩
    let pudChild : Slot := ⟨(m.entry pgdChild).pfn, pudIdx addr⟩
    if (m.entry pudPar).present = false then (0, m)
    else
      let m := copyTable a m pudPar pudChild
      let pmdPar : Slot := ⟨(m.entry pudPar).pfn, pmdIdx addr⟩
      let pmdChild : Slot := ⟨(m.entry pudChild).pfn, pmdIdx addr⟩
      if (m.entry pmdPar).present = false then (0, m)
      else
        let m := copyTable a m pmdPar pmdChild
        let ptePar : Slot := ⟨(m.entry pmdPar).pfn, pteIdx addr⟩
        let pteChild : Slot := ⟨(m.entry pmdChild).pfn, pteIdx addr⟩
        if (m.entry ptePar).present = false then (0, m)
        else (1, copyPage a m ptePar pteChild)

/-- The loops that copy page after page. -/
def copyPages (a : FrameAlloc) (par child : Nat) (m : Machine) (pages : List U64) : Machine :=
  pages.foldl (fun m addr => (copyPageToChildProcess a par child m addr).2) m

/-- The addresses that `copy_MM_Segment` visits. -/
def segmentPages (addrStart addrEnd : U64) : List U64 :=
  pagesFrom addrStart ((alignedLength ((addrEnd - addrStart).setWidth 32)).sdiv 0x1000)

/-- `copy_MM_Segment`. -/
def copyMMSegment (a : FrameAlloc) (addrStart addrEnd : U64) (par child : Nat) (m : Machine) :
    Machine :=
  copyPages a par child m (segmentPages addrStart addrEnd)

/-- The addresses that the loop over the areas visits for one area. -/
def areaPages (addrStart : U64) (parVMA : VmArea) : List U64 :=
  pagesFrom addrStart (((parVMA.vmEnd - parVMA.vmStart) / FOUR_KB).setWidth 32)

/-- The memory of a process: its areas, segments and first-level table. -/
structure Process where
  areas : List VmArea
  code : MmSegment
  rodata : MmSegment
  data : MmSegment
  stack : MmSegment
  pgd : Nat

/-- All addresses that `do_cfork` visits, in order; `addrStart` is the variable that is not
initialised. -/
def forkPages (addrStart : U64) (ctx : Process) : List U64 :=
  ctx.areas.flatMap (areaPages addrStart) ++
    segmentPages ctx.code.start ctx.code.nextFree ++
    segmentPages ctx.rodata.start ctx.rodata.nextFree ++
    segmentPages ctx.data.start ctx.data.nextFree ++
    segmentPages (ctx.stack.nextFree - FOUR_KB) ctx.stack.endAddr

/-- `do_cfork`: the child and the machine. -/
def doCfork (a : FrameAlloc) (addrStart : U64) (ctx : Process) (m : Machine) : Process × Machine :=
  let (pfn, m) := a.allocTable m
  ({ ctx with areas := copyVmAreas ctx.areas, pgd := pfn },
    copyPages a ctx.pgd pfn m (forkPages addrStart ctx))

end GemOS.Vm
