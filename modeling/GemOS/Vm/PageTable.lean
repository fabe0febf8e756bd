import GemOS.Lib.Radix
import GemOS.Vm.Areas

/-!
# Page tables

The functions of `v2p.c` that edit the four-level page table of a process for one address or for
the pages of a range. `os_pfn_alloc` takes the frames of page tables (`OS_PT_REG`) and of user
pages (`USER_REG`) from different parts of memory, so a machine keeps their contents apart.
`os_pfn_alloc` and `get_pfn` are prebuilt: what they do is a parameter, `FrameAlloc`, with a
hypothesis for each thing that is asked of them. The machine records what has been handed out.
-/

namespace GemOS.Vm

def PGD_MASK : U64 := 0xFF8000000000

def PUD_MASK : U64 := 0x7FC0000000

def PMD_MASK : U64 := 0x3FE00000

def PTE_MASK : U64 := 0x1FF000

def PGD_SHIFT : Nat := 0x27

def PUD_SHIFT : Nat := 0x1E

def PMD_SHIFT : Nat := 0x15

def PTE_SHIFT : Nat := 0xC

def PTE_SIZE : Nat := 0x8

/-- The size of a table as `updatePTPermissions` has it. -/
def PT_SIZE : Nat := 0x200

def PROT_READ : U32 := 0x1

/-- An entry of a page table: the frame number above the 12 low bits, and the low bits. -/
structure Entry where
  pfn : Nat
  flags : BitVec 12
  deriving DecidableEq, Repr

/-- `entry & 1`. -/
def Entry.present (e : Entry) : Bool :=
  e.flags.getLsbD 0

/-- `(entry >> 0x3) & 0x1`. -/
def Entry.writable (e : Entry) : Bool :=
  e.flags.getLsbD 3

/-- `entry |= bits`. -/
def Entry.set (e : Entry) (bits : BitVec 12) : Entry :=
  { e with flags := e.flags ||| bits }

/-- `entry &= ~bits`. -/
def Entry.clear (e : Entry) (bits : BitVec 12) : Entry :=
  { e with flags := e.flags &&& ~~~bits }

/-- The entry `0x0`. -/
def Entry.zero : Entry :=
  ⟨0, 0⟩

/-- Where an entry is stored: the frame of its table, and its index there. -/
structure Slot where
  table : Nat
  index : U64
  deriving DecidableEq, Repr

/-- The frames of page tables, index by index. -/
abbrev Tables := Nat → U64 → Entry

/-- Store an entry. -/
def Tables.put (t : Tables) (s : Slot) (e : Entry) : Tables :=
  Radix.setEntry t s.table s.index e

/-- What the frame allocator has done: the frames in use, how many have been handed out, and how
often there was none. -/
structure Allocation where
  tablesUsed : List Nat
  pagesUsed : List Nat
  count : Nat
  failed : Nat

/-- The tables and the user pages in memory, the reference counts of the user pages, and the
state of the frame allocator. -/
structure Machine where
  table : Tables
  page : Nat → BitVec 12 → U8
  refcount : Nat → Int
  frames : Allocation

/-- The entry at a slot. -/
def Machine.entry (m : Machine) (s : Slot) : Entry :=
  m.table s.table s.index

/-- `entry = e`. -/
def Machine.setEntry (m : Machine) (s : Slot) (e : Entry) : Machine :=
  { m with table := m.table.put s e }

/-- Change the entry at a slot. -/
def Machine.modify (m : Machine) (s : Slot) (change : Entry → Entry) : Machine :=
  m.setEntry s (change (m.entry s))

/-- `put_pfn`. Only a count above 0 is ever lowered: the code stops the kernel at any other. -/
def Machine.putPfn (m : Machine) (pfn : Nat) : Machine :=
  { m with refcount := Function.update m.refcount pfn (m.refcount pfn - 1) }

/-- `os_pfn_free(USER_REG, pfn)`. -/
def Machine.freePage (m : Machine) (pfn : Nat) : Machine :=
  { m with frames := { m.frames with pagesUsed := m.frames.pagesUsed.filter (· ≠ pfn) } }

/-- Drop one reference to a user page, and free the page with its last one. -/
def Machine.release (m : Machine) (pfn : Nat) : Machine :=
  let m := m.putPfn pfn
  if m.refcount pfn = 0 then m.freePage pfn else m

/-- What `os_pfn_alloc` and `get_pfn` do: the frames chosen in the two regions, 0 if there is none;
what a frame of user memory holds when it is handed out, after what it held before; and the count
that `get_pfn` makes of a count. -/
structure FrameAlloc where
  table : Allocation → Nat
  page : Allocation → Nat
  fill : (BitVec 12 → U8) → BitVec 12 → U8
  increment : Int → Int

/-- User pages are handed out as pages of zeros. -/
def FrameAlloc.ZeroedPages (a : FrameAlloc) : Prop :=
  ∀ old, a.fill old = fun _ => 0

/-- `get_pfn` adds 1 to every count. -/
def FrameAlloc.CountsExactly (a : FrameAlloc) : Prop :=
  ∀ n, a.increment n = n + 1

/-- `get_pfn` counts in the `s8` of `struct pfn_info`: it adds 1 up to 127, and a count that runs
over is negative. If it finds a count that is not above 0, it stops the kernel. -/
structure FrameAlloc.CountsInBytes (a : FrameAlloc) : Prop where
  fits : ∀ n, 0 < n → n < 127 → a.increment n = n + 1
  overrun : ∀ n, n ≤ 0 ∨ 127 ≤ n → a.increment n ≤ 0

/-- `get_pfn`. -/
def Machine.getPfn (a : FrameAlloc) (m : Machine) (pfn : Nat) : Machine :=
  { m with refcount := Function.update m.refcount pfn (a.increment (m.refcount pfn)) }

/-- There was no frame. -/
def Machine.allocFailed (m : Machine) : Machine :=
  { m with frames := { m.frames with failed := m.frames.failed + 1 } }

/-- `os_pfn_alloc(OS_PT_REG)`: an empty table. -/
def FrameAlloc.allocTable (a : FrameAlloc) (m : Machine) : Nat × Machine :=
  let pfn := a.table m.frames
  if pfn = 0 then (0, m.allocFailed)
  else (pfn, { m with
    table := fun f i => if f = pfn then .zero else m.table f i
    frames := { m.frames with
      tablesUsed := pfn :: m.frames.tablesUsed, count := m.frames.count + 1 } })

/-- `os_pfn_alloc(USER_REG)`: a page with one reference. -/
def FrameAlloc.allocPage (a : FrameAlloc) (m : Machine) : Nat × Machine :=
  let pfn := a.page m.frames
  if pfn = 0 then (0, m.allocFailed)
  else (pfn, { m with
    page := Function.update m.page pfn (a.fill (m.page pfn))
    refcount := Function.update m.refcount pfn 1
    frames := { m.frames with
      pagesUsed := pfn :: m.frames.pagesUsed, count := m.frames.count + 1 } })

/-! ## One address -/

def pgdIdx (addr : U64) : U64 :=
  (addr &&& PGD_MASK) >>> PGD_SHIFT

def pudIdx (addr : U64) : U64 :=
  (addr &&& PUD_MASK) >>> PUD_SHIFT

def pmdIdx (addr : U64) : U64 :=
  (addr &&& PMD_MASK) >>> PMD_SHIFT

def pteIdx (addr : U64) : U64 :=
  (addr &&& PTE_MASK) >>> PTE_SHIFT

/-- Where the entries for an address are stored at the four levels. -/
structure Slots where
  pgd : Slot
  pud : Slot
  pmd : Slot
  pte : Slot

/-- The start of `freePFN` and `updatePFN`, which return at the first entry that is not
present. -/
def presentSlots (m : Machine) (pgd : Nat) (addr : U64) : Option Slots :=
  let pgdEntry : Slot := ⟨pgd, pgdIdx addr⟩
  if (m.entry pgdEntry).present = false then none
  else
    let pudEntry : Slot := ⟨(m.entry pgdEntry).pfn, pudIdx addr⟩
    if (m.entry pudEntry).present = false then none
    else
      let pmdEntry : Slot := ⟨(m.entry pudEntry).pfn, pmdIdx addr⟩
      if (m.entry pmdEntry).present = false then none
      else
        let pteEntry : Slot := ⟨(m.entry pmdEntry).pfn, pteIdx addr⟩
        if (m.entry pteEntry).present = false then none
        else some ⟨pgdEntry, pudEntry, pmdEntry, pteEntry⟩

/-- `freePFN`. -/
def freePFN (m : Machine) (pgd : Nat) (addr : U64) : Machine :=
  match presentSlots m pgd addr with
  | none => m
  | some s =>
      let pfn := (m.entry s.pte).pfn
      let m := m.setEntry s.pte .zero
      if m.refcount pfn = 0 then m else m.release pfn

/-- One of the loops of `updatePTPermissions`: is an entry of the table writable? -/
def anyWritable (m : Machine) (table : Nat) : Bool :=
  (List.range (PT_SIZE / PTE_SIZE)).any fun i => (m.table table (BitVec.ofNat 64 i)).writable

/-- `updatePTPermissions`. -/
def updatePTPermissions (m : Machine) (s : Slots) : Machine :=
  if anyWritable m (m.entry s.pmd).pfn then m
  else
    let m := m.modify s.pmd (·.clear 0x3)
    if anyWritable m (m.entry s.pud).pfn then m
    else
      let m := m.modify s.pud (·.clear 0x3)
      if anyWritable m (m.entry s.pgd).pfn then m
      else m.modify s.pgd (·.clear 0x3)

/-- The frame change of `updatePFN` for a page that is shared. -/
def unshare (a : FrameAlloc) (m : Machine) (pteEntry : Slot) : Machine :=
  let pfn := (m.entry pteEntry).pfn
  if m.refcount pfn > 1 then
    let (newPfn, m) := a.allocPage m
    let m := m.setEntry pteEntry ⟨newPfn, 0x11⟩
    let m := m.modify pteEntry (·.set 0x8)
    m.release pfn
  else m

/-- `updatePFN`. -/
def updatePFN (a : FrameAlloc) (m : Machine) (pgd : Nat) (addr : U64) (prot : CInt) : Machine :=
  match presentSlots m pgd addr with
  | none => m
  | some s =>
      if prot = 1 then
        let m := m.modify s.pte (·.clear 0x8)
        updatePTPermissions m s
      else
        let m := unshare a m s.pte
        let m := m.modify s.pte (·.set 0x8)
        let m := m.modify s.pmd (·.set 0x8)
        let m := m.modify s.pud (·.set 0x8)
        m.modify s.pgd (·.set 0x8)

/-! ## The pages of a range -/

/-- The addresses `addr_start + i*(FOUR_KB)`, where `i` is an `int`. -/
def pagesFrom (addrStart : U64) (numPages : CInt) : List U64 :=
  (List.range numPages.toInt.toNat).map fun i =>
    addrStart + widen (BitVec.ofNat 32 i * 0x1000)

/-- `(addr_end - addr_start) / (FOUR_KB)` as an `int`, for `long` addresses. -/
def numPages (addrStart addrEnd : U64) : CInt :=
  ((addrEnd - addrStart).sdiv FOUR_KB).setWidth 32

/-- `freeAllPFNs`. -/
def freeAllPFNs (m : Machine) (pgd : Nat) (addrStart addrEnd : U64) : Machine :=
  (pagesFrom addrStart (numPages addrStart addrEnd)).foldl (fun m addr => freePFN m pgd addr) m

/-- `updateAllPFNs`. -/
def updateAllPFNs (a : FrameAlloc) (m : Machine) (pgd : Nat) (addrStart addrEnd : U64)
    (prot : CInt) : Machine :=
  (pagesFrom addrStart (numPages addrStart addrEnd)).foldl
    (fun m addr => updatePFN a m pgd addr prot) m

/-! ## Faults -/

/-- Make an entry writable if the access says so. -/
def grant (accessFlags : U32) (m : Machine) (s : Slot) : Machine :=
  if accessFlags = 0x3 then m.modify s (·.set 0x8) else m

/-- The upper levels of `handle_cow_fault`, which go down whether or not an entry is present. The
result is where the last-level entry is stored. -/
def grantUpper (accessFlags : U32) (m : Machine) (pgd : Nat) (vaddr : U64) : Slot × Machine :=
  let pgdEntry : Slot := ⟨pgd, pgdIdx vaddr⟩
  let m := grant accessFlags m pgdEntry
  let pudEntry : Slot := ⟨(m.entry pgdEntry).pfn, pudIdx vaddr⟩
  let m := grant accessFlags m pudEntry
  let pmdEntry : Slot := ⟨(m.entry pudEntry).pfn, pmdIdx vaddr⟩
  let m := grant accessFlags m pmdEntry
  (⟨(m.entry pmdEntry).pfn, pteIdx vaddr⟩, m)

/-- The last level of `handle_cow_fault`: the entry gets a copy of its page. -/
def copyOnWrite (a : FrameAlloc) (accessFlags : U32) (m : Machine) (pteEntry : Slot) : Machine :=
  let (newPfn, m) := a.allocPage m
  let oldPfn := (m.entry pteEntry).pfn
  let m := { m with page := Function.update m.page newPfn (m.page oldPfn) }
  let m := m.setEntry pteEntry ⟨newPfn, 0x11⟩
  let m := m.modify pteEntry fun e => if accessFlags = 0x3 then e.set 0x8 else e.clear 0x8
  m.release oldPfn

/-- `handle_cow_fault`. -/
def handleCowFault (a : FrameAlloc) (m : Machine) (pgd : Nat) (vaddr : U64) (accessFlags : U32) :
    Int × Machine :=
  if accessFlags ≠ 0x1 ∧ accessFlags ≠ 0x3 then (-EINVAL, m)
  else
    let (pteEntry, m) := grantUpper accessFlags m pgd vaddr
    (1, copyOnWrite a accessFlags m pteEntry)

/-- The search of `vm_area_pagefault` for the area of an address. -/
def faultArea (addr : U64) : List VmArea → Option VmArea
  | [] => none
  | vma :: rest =>
      if vma.vmStart ≤ addr ∧ vma.vmEnd > addr then some vma
      else if addr < vma.vmStart then none
      else faultArea addr rest

/-- What `vm_area_pagefault` stores in an entry that was not present. -/
def newEntry (pfn : Nat) (accessFlags : U32) : Entry :=
  let e := (Entry.mk pfn 0x1).set 0x10
  if accessFlags = 0x3 then e.set 0x8 else e

/-- One of the upper levels of `vm_area_pagefault`: an entry that is not present gets a table, if
there is a frame for it. -/
def ensureTable (a : FrameAlloc) (accessFlags : U32) (m : Machine) (s : Slot) : Bool × Machine :=
  if (m.entry s).present then (true, m)
  else
    let (pfn, m) := a.allocTable m
    if pfn = 0 then (false, m) else (true, m.setEntry s (newEntry pfn accessFlags))

/-- The last level of `vm_area_pagefault`. -/
def ensurePage (a : FrameAlloc) (accessFlags : U32) (m : Machine) (s : Slot) : Int × Machine :=
  if (m.entry s).present then (1, m)
  else
    let (pfn, m) := a.allocPage m
    if pfn = 0 then (-EINVAL, m)
    else
      let m := m.setEntry s (newEntry pfn accessFlags)
      (1, if accessFlags = 0x3 then m else m.modify s (·.clear 0x8))

/-- The part of `vm_area_pagefault` that makes the page of an address present. -/
def makePresent (a : FrameAlloc) (accessFlags : U32) (m : Machine) (pgd : Nat) (addr : U64) :
    Int × Machine :=
  let pgdEntry : Slot := ⟨pgd, pgdIdx addr⟩
  match ensureTable a accessFlags m pgdEntry with
  | (false, m) => (-EINVAL, m)
  | (true, m) =>
      let pudEntry : Slot := ⟨(m.entry pgdEntry).pfn, pudIdx addr⟩
      match ensureTable a accessFlags m pudEntry with
      | (false, m) => (-EINVAL, m)
      | (true, m) =>
          let pmdEntry : Slot := ⟨(m.entry pudEntry).pfn, pmdIdx addr⟩
          match ensureTable a accessFlags m pmdEntry with
          | (false, m) => (-EINVAL, m)
          | (true, m) => ensurePage a accessFlags m ⟨(m.entry pmdEntry).pfn, pteIdx addr⟩

/-- `vm_area_pagefault`. -/
def vmAreaPagefault (a : FrameAlloc) (m : Machine) (pgd : Nat) (areas : List VmArea) (addr : U64)
    (errorCode : CInt) : Int × Machine :=
  match faultArea addr areas with
  | none => (-EINVAL, m)
  | some vma =>
      if errorCode = 0x6 ∧ vma.accessFlags = PROT_READ then (-EINVAL, m)
      else if errorCode = 0x7 then
        if vma.accessFlags = PROT_READ then (-EINVAL, m)
        else handleCowFault a m pgd addr vma.accessFlags
      else makePresent a vma.accessFlags m pgd addr

/-! ## The calls of a process -/

/-- The areas of a process and the machine it runs on. -/
structure Space where
  areas : Areas
  machine : Machine

/-- `vm_area_mprotect` with its page table part. -/
def Space.mprotect (a : FrameAlloc) (pgd : Nat) (s : Space) (addr : U64) (length prot : CInt) :
    Int × Space :=
  match vmAreaMprotect s.areas addr length prot with
  | (result, areas, none) => (result, ⟨areas, s.machine⟩)
  | (result, areas, some (addrStart, addrEnd)) =>
      (result, ⟨areas, updateAllPFNs a s.machine pgd addrStart addrEnd prot⟩)

/-- `vm_area_unmap` with its page table part. -/
def Space.unmap (pgd : Nat) (s : Space) (addr : U64) (length : CInt) : Int × Space :=
  let (result, areas, freed) := vmAreaUnmap s.areas addr length
  (result, ⟨areas, freed.foldl (fun m r => freeAllPFNs m pgd r.1 r.2) s.machine⟩)

end GemOS.Vm
