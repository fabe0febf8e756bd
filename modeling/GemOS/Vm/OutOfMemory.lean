import GemOS.Vm.Fork
import GemOS.Vm.Translations

/-!
# Running out of memory

The calls that take frames from `os_pfn_alloc`, when it has none. `vm_area_pagefault` checks the
result at every level; it stops with an error, and the tables it has already installed are empty,
so no walk sees them. `handle_cow_fault`, `vm_area_mprotect` and `do_cfork` do not check it.
-/

namespace GemOS.Vm

variable {a : FrameAlloc} {m m' : Machine} {pgd : Nat} {x addr : U64} {accessFlags : U32}
variable {roots : Set Nat} {area : Set U64}

/-- A call that takes frames. `vm_area_mprotect` does so for read and write access only, and
`do_cfork` comes with the value of its uninitialised variable and the number of the child. -/
inductive FrameCall where
  | pagefault (areas : List VmArea) (addr : U64) (errorCode : CInt)
  | cowFault (vaddr : U64) (accessFlags : U32)
  | mprotect (areas : Areas) (addr : U64) (length : CInt)
  | cfork (addrStart : U64) (ctx : Process) (pid : U32)

/-- The result of a call and the machine after it. -/
def FrameCall.run (a : FrameAlloc) (pgd : Nat) (m : Machine) : FrameCall → Int × Machine
  | .pagefault areas addr errorCode => vmAreaPagefault a m pgd areas addr errorCode
  | .cowFault vaddr accessFlags => handleCowFault a m pgd vaddr accessFlags
  | .mprotect areas addr length =>
      let (result, space) := Space.mprotect a pgd ⟨areas, m⟩ addr length 3
      (result, space.machine)
  | .cfork addrStart ctx pid => (pid.toNat, (doCfork a addrStart { ctx with pgd := pgd } m).2)

/-- Page faults are raised for addresses of user memory. -/
def FrameCall.InArea (area : Set U64) : FrameCall → Prop
  | .pagefault _ addr _ => addr ∈ area
  | _ => True

/-- The call makes a page present, rather than copying one that is. -/
def FrameCall.MakesPresent : FrameCall → Prop
  | .pagefault _ _ errorCode => errorCode ≠ 0x7
  | _ => False

/-- The walks of all processes, the contents of all pages and their reference counts are as they
were. -/
structure Untouched (roots : Set Nat) (area : Set U64) (m m' : Machine) : Prop where
  walk : ∀ r x, r ∈ roots → x ∈ area → walk m'.table r x = walk m.table r x
  page : m'.page = m.page
  refcount : m'.refcount = m.refcount

theorem Extended.untouched (h : Extended roots area m m') : Untouched roots area m m' :=
  ⟨h.walk, h.page, h.refcount⟩

theorem FrameAlloc.allocPage_failed (h : (a.allocPage m).1 ≠ 0) :
    (a.allocPage m).2.frames.failed = m.frames.failed := by
  unfold FrameAlloc.allocPage at h ⊢
  simp only at h ⊢
  split_ifs at h ⊢ with hzero
  · exact absurd rfl h
  · rfl

variable (a accessFlags m) in
/-- The last level of `vm_area_pagefault` fails without a trace, or had a frame. -/
theorem ensurePage_result (s : Slot) :
    ensurePage a accessFlags m s = (-EINVAL, m.allocFailed) ∨
      (ensurePage a accessFlags m s).2.frames.failed = m.frames.failed := by
  by_cases hpresent : (m.entry s).present = true
  · rw [ensurePage, if_pos hpresent]
    exact Or.inr rfl
  by_cases hzero : (a.allocPage m).1 = 0
  · exact Or.inl (ensurePage_none hpresent hzero)
  · rw [ensurePage_new hpresent hzero]
    exact Or.inr (FrameAlloc.allocPage_failed hzero)

/-- `vm_area_pagefault` on a page that need not be present: if it runs out of frames, it fails and
leaves everything as it was. -/
theorem makePresent_atomic (h : Tidy roots area m) (ha : a.Fresh) (hr : pgd ∈ roots)
    (hx : x ∈ area)
    (hfailed : (makePresent a accessFlags m pgd x).2.frames.failed ≠ m.frames.failed) :
    (makePresent a accessFlags m pgd x).1 = -EINVAL ∧
      Untouched roots area m (makePresent a accessFlags m pgd x).2 := by
  obtain ⟨m₁, hext, hresult | ⟨hsame, f, _, hresult⟩⟩ :=
    makePresent_cases accessFlags h ha hr hx
  all_goals rw [hresult] at hfailed ⊢
  · exact ⟨rfl, hext.untouched⟩
  · rcases ensurePage_result a m₁ accessFlags ⟨f, pteIdx x⟩ with
      hpage | hpage
    · rw [hpage]
      exact ⟨rfl, (hext.trans hext.tidy.allocFailed).untouched⟩
    · exact absurd (hpage.trans hsame) hfailed

/-- A call other than a fault for an absent page that has taken a frame reports success. -/
theorem FrameCall.result_nonneg {call : FrameCall} (hcall : ¬ call.MakesPresent)
    (hfailed : (call.run a pgd m).2.frames.failed ≠ m.frames.failed) :
    0 ≤ (call.run a pgd m).1 := by
  have hcow : ∀ vaddr accessFlags,
      (handleCowFault a m pgd vaddr accessFlags).2.frames.failed ≠ m.frames.failed →
      0 ≤ (handleCowFault a m pgd vaddr accessFlags).1 := by
    intro vaddr accessFlags hfailed
    unfold handleCowFault at hfailed ⊢
    split_ifs at hfailed ⊢ with hflags
    · exact absurd rfl hfailed
    · exact Int.one_nonneg
  cases call with
  | pagefault areas addr errorCode =>
      obtain rfl : errorCode = 0x7 := not_not.mp hcall
      simp only [FrameCall.run, vmAreaPagefault] at hfailed ⊢
      cases harea : faultArea addr areas with
      | none =>
          rw [harea] at hfailed
          exact absurd rfl hfailed
      | some vma =>
          simp only [harea] at hfailed ⊢
          split_ifs at hfailed ⊢ with hbad hread
          · exact absurd rfl hfailed
          · exact absurd rfl hfailed
          · exact hcow _ _ hfailed
  | cowFault vaddr accessFlags => exact hcow _ _ hfailed
  | mprotect areas addr length =>
      simp only [FrameCall.run, Space.mprotect, vmAreaMprotect] at hfailed ⊢
      split_ifs at hfailed ⊢ with hbad
      · exact absurd rfl hfailed
      · cases hfrom : mprotectFrom addr (widen (alignedLength length)) 3 areas.nullArea areas.list
        with
        | none =>
            rw [hfrom] at hfailed
            exact absurd rfl hfailed
        | some p => exact Int.le_refl 0
  | cfork addrStart ctx pid => exact Int.natCast_nonneg _

/-- When `os_pfn_alloc` fails during a call, the call reports an error and has changed nothing
exactly if it is a page fault that makes a page present. -/
theorem out_of_memory_atomic_iff (ha : a.Fresh) (h : Tidy roots area m) (hr : pgd ∈ roots)
    (call : FrameCall) (hcall : call.InArea area)
    (hfailed : (call.run a pgd m).2.frames.failed ≠ m.frames.failed) :
    ((call.run a pgd m).1 < 0 ∧ Untouched roots area m (call.run a pgd m).2) ↔
      call.MakesPresent := by
  constructor
  · intro h'
    obtain ⟨hneg, _⟩ := h'
    by_contra hnot
    exact absurd hneg (Int.not_lt.mpr (FrameCall.result_nonneg hnot hfailed))
  · intro hmakes
    cases call with
    | pagefault areas addr errorCode =>
        have herror : errorCode ≠ 0x7 := hmakes
        simp only [FrameCall.run, vmAreaPagefault] at hfailed ⊢
        cases harea : faultArea addr areas with
        | none =>
            rw [harea] at hfailed
            exact absurd rfl hfailed
        | some vma =>
            simp only [harea, if_neg herror] at hfailed ⊢
            split_ifs at hfailed ⊢ with hbad
            · exact absurd rfl hfailed
            · obtain ⟨hresult, huntouched⟩ := makePresent_atomic h ha hr hcall hfailed
              exact ⟨by rw [hresult]; decide, huntouched⟩
    | cowFault vaddr accessFlags => exact hmakes.elim
    | mprotect areas addr length => exact hmakes.elim
    | cfork addrStart ctx pid => exact hmakes.elim

/-- An allocator that has table frames for a while and no page frame. -/
def noPages : FrameAlloc :=
  { nextFrame with page := fun _ => 0 }

theorem noPages_fresh : noPages.Fresh :=
  ⟨nextFrame_fresh.table, fun _ h => absurd rfl h⟩

/-- The first write to a new page, when there is no frame for it. -/
theorem out_of_memory_fault_sample :
    let call : FrameCall := .pagefault [dummyNode, ⟨0x180201000, 0x180202000, 3⟩] 0x180201000 0x6
    (call.run noPages 1 emptyMachine).1 < 0 ∧
      Untouched {1} Set.univ emptyMachine (call.run noPages 1 emptyMachine).2 :=
  (out_of_memory_atomic_iff noPages_fresh emptyMachine_tidy (Set.mem_singleton 1) _
    (Set.mem_univ _) (by decide)).mpr (by decide : (0x6 : CInt) ≠ 0x7)

/-- A write to a page that is present, when there is no frame for its copy: `handle_cow_fault`
reports success, and the page is mapped to frame 0. -/
theorem cow_fault_out_of_memory :
    let answer := (FrameCall.cowFault 0x180201000 3).run noPages 1
      (makePresent nextFrame 1 emptyMachine 1 0x180201000).2
    answer.2.frames.failed = 1 ∧ ¬ answer.1 < 0 ∧
      walk answer.2.table 1 0x180201000 = some ⟨0, 0x19⟩ := by
  decide +kernel

end GemOS.Vm
