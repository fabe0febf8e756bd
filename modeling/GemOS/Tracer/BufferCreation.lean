import Mathlib.Order.Bounds.Basic
import GemOS.Tracer.BufferQueue

/-!
# Creating a trace buffer

A call of `sys_create_trace_buffer` allocates four objects, one after the other. If one of the
allocations fails, the objects allocated before it are never released (`create_allocates`).
-/

namespace GemOS.Tracer

variable {allocates : Object → Bool} {page : Fin 4096 → U8} {ctx : ExecContext} {mode : CInt}
variable {fd : Nat}

/-- The lowest free descriptor. -/
def LowestFree (ctx : ExecContext) (fd : Nat) : Prop :=
  IsLeast {i | i < MAX_OPEN_FILES ∧ ctx.files i = none} fd

/-- A call that is refused before it allocates anything: no descriptor is free, or there is no
such mode. -/
def CreateRefused (ctx : ExecContext) (mode : CInt) : Prop :=
  (∀ i < MAX_OPEN_FILES, ctx.files i ≠ none) ∨ mode ≠ O_READ ∧ mode ≠ O_WRITE ∧ mode ≠ O_RDWR

/-- The descriptor `fd` gets a file with an empty trace buffer, and no other descriptor
changes. -/
structure InstallsBuffer (ctx ctx' : ExecContext) (fd : Nat) : Prop where
  lowest : LowestFree ctx fd
  buffer : ∃ file, ctx'.files fd = some file ∧ file.type = TRACE_BUFFER ∧
    Represents file.traceBuffer []
  others : ∀ i, i ≠ fd → ctx'.files i = ctx.files i

/-- An error leaves the process as it was and none of the new objects allocated; any other answer
is the descriptor of a new trace buffer. -/
def CreatesOrRollsBack (ctx : ExecContext) (answer : Int × Option ExecContext × List Object) :
    Prop :=
  answer.1 < 0 ∧ answer.2.1 = some ctx ∧ answer.2.2 = [] ∨
  ∃ fd ctx', answer.1 = (fd : Nat) ∧ answer.2.1 = some ctx' ∧ InstallsBuffer ctx ctx' fd

/-- The search for a descriptor finds the lowest free one. -/
theorem find_lowestFree
    (h : ((List.range MAX_OPEN_FILES).find? fun i => (ctx.files i).isNone) = some fd) :
    LowestFree ctx fd := by
  obtain ⟨hfree, hmem, hbelow⟩ := List.find?_range_eq_some.mp h
  refine ⟨⟨List.mem_range.mp hmem, Option.isNone_iff_eq_none.mp hfree⟩, fun i hi => ?_⟩
  by_contra hlt
  have hused := hbelow i (Nat.lt_of_not_le hlt)
  rw [hi.2] at hused
  exact absurd hused (by decide)

/-- A refused call. -/
theorem create_refused (allocates : Object → Bool) (page : Fin 4096 → U8)
    (h : CreateRefused ctx mode) :
    sysCreateTraceBuffer allocates page (some ctx) mode = (-EINVAL, some ctx, []) := by
  unfold sysCreateTraceBuffer
  cases hfind : (List.range MAX_OPEN_FILES).find? fun i => (ctx.files i).isNone with
  | none => simp only [hfind]
  | some fd =>
      have hlowest := find_lowestFree hfind
      have hmode := h.resolve_left fun hfull => hfull fd hlowest.1.1 hlowest.1.2
      simp only [hfind, if_pos hmode]

/-- The allocations of a call, in order. -/
def allocations : List Object :=
  [.file, .traceBufferInfo, .page, .fileops]

/-- A call that is not refused: if an allocation fails, the objects before it stay allocated. -/
theorem create_allocates (allocates : Object → Bool) (page : Fin 4096 → U8)
    (h : ¬ CreateRefused ctx mode) :
    (∃ o, allocates o = false) ∧ sysCreateTraceBuffer allocates page (some ctx) mode =
        (-ENOMEM, some ctx, allocations.takeWhile allocates) ∨
    (∀ o, allocates o = true) ∧ ∃ fd ctx', sysCreateTraceBuffer allocates page (some ctx) mode =
        (((fd : Nat) : Int), some ctx', allocations) ∧ InstallsBuffer ctx ctx' fd := by
  obtain ⟨hfree, hmode⟩ := not_or.mp h
  unfold sysCreateTraceBuffer
  cases hfind : (List.range MAX_OPEN_FILES).find? fun i => (ctx.files i).isNone with
  | none =>
      refine absurd (fun i hi hnone => ?_) hfree
      have hused := List.find?_range_eq_none.mp hfind i hi
      simp [hnone] at hused
  | some fd =>
      simp only [hfind, if_neg hmode, allocations, List.takeWhile]
      split_ifs with hfile hinfo hpage hfileops
      · exact Or.inl ⟨⟨_, hfile⟩, by simp [hfile]⟩
      · exact Or.inl ⟨⟨_, hinfo⟩, by simp [hfile, hinfo]⟩
      · exact Or.inl ⟨⟨_, hpage⟩, by simp [hfile, hinfo, hpage]⟩
      · exact Or.inl ⟨⟨_, hfileops⟩, by simp [hfile, hinfo, hpage, hfileops]⟩
      · simp only [Bool.not_eq_false] at hfile hinfo hpage hfileops
        refine Or.inr ⟨fun o => ?_, fd, _, rfl, find_lowestFree hfind,
          ⟨_, Function.update_self .., rfl, represents_new page⟩,
          fun i hi => Function.update_of_ne hi _ _⟩
        cases o with
        | file => exact hfile
        | traceBufferInfo => exact hinfo
        | page => exact hpage
        | fileops => exact hfileops

/-- A call installs a trace buffer or leaves everything as it was exactly if it is refused, or its
first allocation fails, or none does. -/
theorem create_rolls_back_iff (allocates : Object → Bool) (page : Fin 4096 → U8)
    (ctx : ExecContext) (mode : CInt) :
    CreatesOrRollsBack ctx (sysCreateTraceBuffer allocates page (some ctx) mode) ↔
      CreateRefused ctx mode ∨ allocates .file = false ∨ ∀ o, allocates o = true := by
  by_cases hrefused : CreateRefused ctx mode
  · rw [create_refused allocates page hrefused]
    have hfailed : -EINVAL < 0 := by decide
    exact iff_of_true (Or.inl ⟨hfailed, rfl, rfl⟩) (Or.inl hrefused)
  rw [or_iff_right hrefused]
  rcases create_allocates allocates page hrefused with
    ⟨⟨o, hfails⟩, hcall⟩ | ⟨hall, fd, ctx', hcall, hinstalls⟩
  · rw [hcall]
    have hnot : ¬ ∀ o, allocates o = true := fun hall => absurd (hall o) (by rw [hfails]; decide)
    rw [or_iff_left hnot]
    constructor
    · intro hrolls
      rcases hrolls with ⟨_, _, hreleased⟩ | ⟨fd, _, hfd, _⟩
      · by_contra hfile
        simp [allocations, hfile] at hreleased
      · exact absurd hfd (by simp only [ENOMEM]; omega)
    · intro hfile
      have hfailed : -ENOMEM < 0 := by decide
      exact Or.inl ⟨hfailed, rfl, by simp [allocations, hfile]⟩
  · rw [hcall]
    exact iff_of_true (Or.inr ⟨fd, ctx', rfl, rfl, hinstalls⟩) (Or.inr hall)

/-- There is no memory for the last object: the file, the trace buffer and its page are lost. -/
theorem create_loses_objects :
    sysCreateTraceBuffer (fun o => o ≠ .fileops) (fun _ => 0) (some sampleContext) O_RDWR =
        (-ENOMEM, some sampleContext, [.file, .traceBufferInfo, .page]) ∧
      ¬ CreatesOrRollsBack sampleContext
        (sysCreateTraceBuffer (fun o => o ≠ .fileops) (fun _ => 0) (some sampleContext)
          O_RDWR) := by
  have hcall : sysCreateTraceBuffer (fun o => o ≠ .fileops) (fun _ => 0) (some sampleContext)
      O_RDWR = (-ENOMEM, some sampleContext, [.file, .traceBufferInfo, .page]) := rfl
  refine ⟨hcall, fun h => ?_⟩
  rw [hcall] at h
  rcases h with ⟨_, _, hreleased⟩ | ⟨fd, _, hfd, _⟩
  · exact absurd hreleased (by decide)
  · exact absurd hfd (by simp only [ENOMEM]; omega)

end GemOS.Tracer
