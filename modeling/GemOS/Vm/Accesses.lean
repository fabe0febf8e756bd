import GemOS.Vm.Contents

/-!
# Reads and writes of processes

Processes that share frames read and write their pages. A store goes through if the entries of all
four levels are writable; otherwise it faults, and is tried again after `handle_cow_fault`.
-/

namespace GemOS.Vm

open CopyOnWrite (Written)

/-! ## Bytes -/

/-- The place of an address on its page. -/
def offsetOf (x : U64) : BitVec 12 :=
  x.setWidth 12

/-- The byte that a process sees at an address. -/
def readByte (m : Machine) (r : Nat) (x : U64) : Option U8 :=
  (contents m r x).map fun c => c (offsetOf x)

/-- A byte of a frame is overwritten. -/
def Machine.storeByte (m : Machine) (pfn : Nat) (offset : BitVec 12) (b : U8) : Machine :=
  { m with page := Function.update m.page pfn (Function.update (m.page pfn) offset b) }

/-- What one of the processes does: it reads, its store goes through, or it faults on a page that
is present and `handle_cow_fault` is called with the access flags of the page. -/
inductive Access where
  | read (pgd : Nat) (x : U64)
  | write (pgd : Nat) (x : U64) (b : U8)
  | cowFault (pgd : Nat) (x : U64) (accessFlags : U32)

/-- The process of an access. -/
def Access.pgd : Access → Nat
  | .read pgd _ | .write pgd _ _ | .cowFault pgd _ _ => pgd

/-- The entries of all four levels are writable. -/
def Slots.writable (m : Machine) (s : Slots) : Bool :=
  (m.entry s.pgd).writable && (m.entry s.pud).writable && (m.entry s.pmd).writable &&
    (m.entry s.pte).writable

/-- The machine after an access; there is none if a page is absent or a store would fault. -/
def accessStep (a : FrameAlloc) (m : Machine) : Access → Option Machine
  | .read pgd x => if (walk m.table pgd x).isSome then some m else none
  | .write pgd x b =>
      match presentSlots m pgd x with
      | none => none
      | some s =>
          if s.writable m then some (m.storeByte (m.entry s.pte).pfn (offsetOf x) b) else none
  | .cowFault pgd x accessFlags =>
      if (walk m.table pgd x).isSome then some (handleCowFault a m pgd x accessFlags).2 else none

/-- What a process has stored at an address with an access. -/
def ownWrite (r : Nat) (x : U64) : Access → Option U8
  | .write pgd y b =>
      if pgd = r ∧ pageOf y = pageOf x ∧ offsetOf y = offsetOf x then some b else none
  | _ => none

variable {a : FrameAlloc} {m m' : Machine} {r q pgd n : Nat} {x y : U64} {b : U8} {e : Entry}
variable {procs : Set Nat}

/-! ## Stores and copies -/

/-- A store that goes through. -/
theorem write_written (hwalk : walk m.table pgd x = some e) (hw : e.writable = true) :
    Written (pagesOf procs) m.store (m.storeByte e.pfn (offsetOf x) b).store (pgd, pageOf x) e.pfn
      (Function.update (m.page e.pfn) (offsetOf x) b) :=
  { may := store_writable.mpr ⟨e, hwalk, hw⟩
    old := store_ref.trans (frameOf_of_walk hwalk)
    ref := fun _ _ => rfl
    mem := Function.update_self _ _ _
    mem_other := fun _ hne => Function.update_of_ne hne _ _
    writable := fun _ _ => id }

theorem readByte_congr (h : contents m' q y = contents m r y) :
    readByte m' q y = readByte m r y := by
  rw [readByte, readByte, h]

/-- What `Machine.copied` leaves in the frames. -/
theorem copied_page (hsome : a.page m.frames ≠ 0) (hne : n ≠ (a.allocPage m).1) :
    (m.copied a n).page = Function.update m.page (a.allocPage m).1 (m.page n) := by
  rw [FrameAlloc.allocPage_some hsome] at hne
  rw [Machine.copied, Machine.release_page, FrameAlloc.allocPage_some hsome]
  show Function.update (Function.update m.page _ _) _ (Function.update m.page _ _ n) = _
  rw [Function.update_of_ne hne, Function.update_idem]

end GemOS.Vm
