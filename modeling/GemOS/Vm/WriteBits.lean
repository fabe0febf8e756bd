import GemOS.Vm.ReadOnlyPages

/-!
# The write bits of the upper levels

When a last-level entry has lost its write bit, `updatePTPermissions` is to take the write bit from
the entries above it, as long as nothing is writable below them. It does so only when it has nothing
to do. It looks at 64 of the 512 entries of a table, and it clears the present bit of the entries
above, not their write bit.
-/

namespace GemOS.Vm

variable {m : Machine} {t : Tables} {pgd f : Nat} {x i : U64} {s : Slots} {slot : Slot}
variable {slots : List Slot}

/-- No entry of a table is writable. -/
def NoneWritable (t : Tables) (f : Nat) : Prop :=
  ∀ i ∈ List.range 512, (t f (BitVec.ofNat 64 i)).writable = false

instance : Decidable (NoneWritable t f) :=
  inferInstanceAs (Decidable (∀ i ∈ List.range 512, _))

/-- The tables when entries lose their write bits, from the lowest level up: an entry loses it if
nothing is writable in the table it points to, and then the one above it is looked at. -/
def narrowed (t : Tables) : List Slot → Tables
  | [] => t
  | slot :: upper =>
      if NoneWritable t (t slot.table slot.index).pfn then
        narrowed (t.put slot ((t slot.table slot.index).clear 0x8)) upper
      else t

/-- The three upper entries of a path, as they are to be after a change below them. -/
structure NarrowsPath (m m' : Machine) (s : Slots) : Prop where
  table : m'.table = narrowed m.table [s.pmd, s.pud, s.pgd]
  rest : m' = { m with table := m'.table }

/-- Nothing but write bits changes. -/
theorem narrowed_clear : (narrowed t slots f i).clear 0x8 = (t f i).clear 0x8 := by
  induction slots generalizing t with
  | nil => rfl
  | cons slot upper ih =>
      rw [narrowed]
      split_ifs with hnone
      · rw [ih, put_apply]
        split_ifs with heq
        · rw [← heq, Entry.clear_clear]
        · rfl
      · rfl

theorem narrowed_present : (narrowed t slots f i).present = (t f i).present := by
  rw [← Entry.clear_write_present, narrowed_clear, Entry.clear_write_present]

/-- A writable entry among the first 64 is seen, and nothing is to be done. -/
theorem narrowed_kept (hany : ∃ j < 64, (t (t slot.table slot.index).pfn
    (BitVec.ofNat 64 j)).writable = true) : narrowed t (slot :: slots) = t := by
  obtain ⟨j, hj, hwrite⟩ := hany
  rw [narrowed, if_neg]
  intro hnone
  rw [hnone j (List.mem_range.mpr (by omega))] at hwrite
  cases hwrite

theorem presentSlots_reached (hs : presentSlots m pgd x = some s) : s.Reached m.table pgd x := by
  rcases presentSlots_spec m pgd x with ⟨hnone, _⟩ | ⟨s', hs', hreached, _⟩
  · rw [hnone] at hs
    cases hs
  · rw [hs'] at hs
    cases hs
    exact hreached

/-- `updatePTPermissions` treats the upper entries of a path right if and only if one of the first
64 entries of the last-level table is writable. -/
theorem updatePTPermissions_narrows_iff (hs : presentSlots m pgd x = some s) :
    NarrowsPath m (updatePTPermissions m s) s ↔
      ∃ j < 64, (m.table (m.entry s.pmd).pfn (BitVec.ofNat 64 j)).writable = true := by
  rw [← anyWritable_iff]
  constructor
  · intro hnarrows
    cases hany : anyWritable m (m.entry s.pmd).pfn with
    | true => rfl
    | false =>
        -- the entry above the last-level table was present, and is so if only write bits change
        have hcut := updatePTPermissions_cut hany
        rw [Machine.entry, hnarrows.table, narrowed_present] at hcut
        have href := (presentSlots_reached hs).refs.2.2
        rw [Entry.ref_of_not_present hcut] at href
        cases href
  · intro hany
    rw [updatePTPermissions, if_pos hany]
    exact ⟨(narrowed_kept (anyWritable_iff.mp hany)).symm, rfl⟩

/-- The tables on the path of address 0. The last-level table holds a read-only entry for it, and a
writable one at index `j`. -/
def pathTables (j : U64) : Tables := fun f i =>
  if f = 4 ∧ i = j then ⟨6, 0x19⟩
  else if i = 0 then if f = 1 ∨ f = 2 ∨ f = 3 ∨ f = 4 then ⟨f + 1, 0x11⟩ else .zero
  else .zero

/-- A machine with these tables. -/
def pathMachine (j : U64) : Machine :=
  ⟨pathTables j, fun _ _ => 0, fun _ => 1, ⟨[4, 3, 2, 1], [6, 5], 6, 0⟩⟩

/-- The slots of address 0. -/
def pathSlots : Slots :=
  ⟨⟨1, 0⟩, ⟨2, 0⟩, ⟨3, 0⟩, ⟨4, 0⟩⟩

/-- With a writable entry at index 1, nothing happens. -/
theorem updatePTPermissions_narrows_sample :
    NarrowsPath (pathMachine 1) (updatePTPermissions (pathMachine 1) pathSlots) pathSlots :=
  have hslots : presentSlots (pathMachine 1) 1 0 = some pathSlots := rfl
  (updatePTPermissions_narrows_iff hslots).mpr ⟨1, by decide, by decide⟩

/-- With a writable entry at index 64, the last-level table is cut off. -/
theorem updatePTPermissions_cuts :
    presentSlots (pathMachine 64) 1 0 = some pathSlots ∧
      ¬ NarrowsPath (pathMachine 64) (updatePTPermissions (pathMachine 64) pathSlots)
        pathSlots := by
  refine ⟨rfl, fun hnarrows => ?_⟩
  have hcut : ((updatePTPermissions (pathMachine 64) pathSlots).entry pathSlots.pmd).present =
      false := updatePTPermissions_cut (by decide)
  rw [Machine.entry, hnarrows.table, narrowed_present] at hcut
  exact absurd hcut (by decide)

end GemOS.Vm
