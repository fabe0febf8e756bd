import Mathlib.Data.Set.Basic
import GemOS.Vm.PageTable

/-!
# Walks through a page table

Tables map the pages of a process through four levels of entries: `tableOf` is the last table for
an address, `leaf` its entry there and `walk` the entry if it is present as well. The lemmas below
say what one edited entry changes, for all processes and pages at once.
-/

namespace GemOS.Vm

open Radix (follow Separated PrefixClosed follow_snoc follow_of_shrinks)

/-! ## Indices -/

/-- The page of an address, within the 48 bits that a walk uses. -/
def pageOf (x : U64) : Nat :=
  x.toNat / 4096 % 2 ^ 36

/-- The indices of an address at the three upper levels. -/
def tablePath (x : U64) : List U64 :=
  [pgdIdx x, pudIdx x, pmdIdx x]

/-- Nine bits of an address. -/
theorem field_toNat (x mask : U64) (shift : Nat) (hmask : mask >>> shift = 0x1FF) :
    ((x &&& mask) >>> shift).toNat = x.toNat / 2 ^ shift % 512 := by
  rw [BitVec.ushiftRight_and_distrib, hmask, BitVec.toNat_and, BitVec.toNat_ushiftRight,
    Nat.shiftRight_eq_div_pow]
  exact Nat.and_two_pow_sub_one_eq_mod _ 9

/-- The index into the first level, as a number. -/
theorem pgdIdx_toNat (x : U64) : (pgdIdx x).toNat = x.toNat / 2 ^ 39 % 512 :=
  field_toNat x _ _ (by decide)

/-- The index into the second level, as a number. -/
theorem pudIdx_toNat (x : U64) : (pudIdx x).toNat = x.toNat / 2 ^ 30 % 512 :=
  field_toNat x _ _ (by decide)

/-- The index into the third level, as a number. -/
theorem pmdIdx_toNat (x : U64) : (pmdIdx x).toNat = x.toNat / 2 ^ 21 % 512 :=
  field_toNat x _ _ (by decide)

/-- The index into the last level, as a number. -/
theorem pteIdx_toNat (x : U64) : (pteIdx x).toNat = x.toNat / 2 ^ 12 % 512 :=
  field_toNat x _ _ (by decide)

/-- Two numbers agree in their lower digits if they agree in the last one and in the others. -/
theorem mod_mul_eq_iff {b c n n' : Nat} :
    n % (b * c) = n' % (b * c) ↔ n % b = n' % b ∧ n / b % c = n' / b % c := by
  constructor
  · intro h
    constructor
    · rw [← Nat.mod_mul_right_mod n b c, h, Nat.mod_mul_right_mod]
    · rw [← Nat.mod_mul_right_div_self n b c, h, Nat.mod_mul_right_div_self]
  · intro h'
    obtain ⟨hlow, hhigh⟩ := h'
    rw [Nat.mod_mul, Nat.mod_mul, hlow, hhigh]

/-- The four indices together are the page. -/
theorem pageOf_eq_iff {x y : U64} :
    pageOf x = pageOf y ↔ tablePath x = tablePath y ∧ pteIdx x = pteIdx y := by
  have hpage : ∀ z, pageOf z = z.toNat / 2 ^ 12 % (512 * (512 * (512 * 512))) := fun _ => rfl
  rw [hpage, hpage, mod_mul_eq_iff, mod_mul_eq_iff, mod_mul_eq_iff]
  simp only [Nat.div_div_eq_div_mul, tablePath, List.cons.injEq, and_true, ← BitVec.toNat_inj,
    pgdIdx_toNat, pudIdx_toNat, pmdIdx_toNat, pteIdx_toNat]
  constructor
  · intro h
    obtain ⟨hpte, hpmd, hpud, hpgd⟩ := h
    exact ⟨⟨hpgd, hpud, hpmd⟩, hpte⟩
  · intro h
    obtain ⟨⟨hpgd, hpud, hpmd⟩, hpte⟩ := h
    exact ⟨hpte, hpmd, hpud, hpgd⟩

/-! ## Entries and walks -/

/-- The table or page an entry refers to. -/
def Entry.ref (e : Entry) : Option Nat :=
  if e.present then some e.pfn else none

variable {t t' t₁ t₂ : Tables} {m m' : Machine} {r r' pgd f g : Nat} {x y : U64}
variable {s : Slot} {e e' e₁ e₂ : Entry} {roots : Set Nat} {area : Set U64} {p q : List U64}

/-- A cleared entry is not present. -/
@[simp] theorem Entry.zero_present : Entry.zero.present = false := rfl

/-- A present entry refers to its frame. -/
theorem Entry.ref_of_present (h : ¬ e.present = false) : e.ref = some e.pfn := by
  simp [Entry.ref, h]

/-- An entry that is not present refers to nothing. -/
theorem Entry.ref_of_not_present (h : e.present = false) : e.ref = none := by
  simp [Entry.ref, h]

/-- What it takes for an entry to refer to a frame. -/
theorem Entry.ref_eq_some : e.ref = some f ↔ e.present = true ∧ e.pfn = f := by
  simp [Entry.ref]

/-- The last-level table for an address. -/
def tableOf (t : Tables) (pgd : Nat) (x : U64) : Option Nat :=
  follow Entry.ref t pgd (tablePath x)

/-- The last-level entry for an address. -/
def leaf (t : Tables) (pgd : Nat) (x : U64) : Option Entry :=
  (tableOf t pgd x).map fun f => t f (pteIdx x)

/-- The last-level entry for an address, if it is present. -/
def walk (t : Tables) (pgd : Nat) (x : U64) : Option Entry :=
  (leaf t pgd x).filter Entry.present

/-- The last-level entry of an address is the one in the table that its indices lead to. -/
theorem leaf_eq_some : leaf t pgd x = some e ↔
    ∃ f, tableOf t pgd x = some f ∧ t f (pteIdx x) = e :=
  Option.map_eq_some_iff

/-- A walk finds the last-level entry if it is present. -/
theorem walk_eq_some : walk t pgd x = some e ↔ leaf t pgd x = some e ∧ e.present = true := by
  rw [walk, Option.filter_eq_some_iff]

/-- The last-level entry only depends on the page. -/
theorem leaf_congr (h : pageOf x = pageOf y) : leaf t pgd x = leaf t pgd y := by
  obtain ⟨hpath, hpte⟩ := pageOf_eq_iff.mp h
  rw [leaf, leaf, tableOf, tableOf, hpath, hpte]

/-- All addresses of a page have the same walk. -/
theorem walk_congr (h : pageOf x = pageOf y) : walk t pgd x = walk t pgd y := by
  rw [walk, walk, leaf_congr h]

/-- What is stored for an address at the last level; the empty entry if there is no table. -/
def leafEntry (t : Tables) (pgd : Nat) (x : U64) : Entry :=
  (leaf t pgd x).getD .zero

/-- A walk finds this entry or nothing. -/
theorem walk_of_leafEntry (h : leafEntry t' r y = leafEntry t pgd x) :
    walk t' r y = walk t pgd x := by
  have hwalk : ∀ t r y, walk t r y =
      if (leafEntry t r y).present then some (leafEntry t r y) else none := by
    intro t r y
    rw [walk, leafEntry]
    cases hleaf : leaf t r y with
    | none => rfl
    | some e => simp [Option.filter]
  rw [hwalk, hwalk, h]

/-- One step of a walk. -/
theorem follow_entry {i : U64} (hf : follow Entry.ref t r p = some f) :
    follow Entry.ref t r (p ++ [i]) = (t f i).ref := by
  rw [follow_snoc, hf]
  rfl

/-- A path through an entry that is not present leads nowhere. -/
theorem walk_none (h : follow Entry.ref t pgd p = none) (hp : p <+: tablePath x) :
    walk t pgd x = none := by
  obtain ⟨rest, hrest⟩ := hp
  have htable : tableOf t pgd x = none := by
    rw [tableOf, ← hrest, Radix.follow_append, h]
    rfl
  rw [walk, leaf, htable]
  rfl

/-! ## Slots -/

/-- The slot holds what was stored. -/
@[simp] theorem put_same : t.put s e s.table s.index = e :=
  Radix.setEntry_same

/-- A store changes one slot. -/
theorem put_apply {i : U64} : t.put s e f i = if (⟨f, i⟩ : Slot) = s then e else t f i := by
  split_ifs with h
  · subst h
    exact put_same
  · exact Radix.setEntry_other fun heq => h (by rw [heq.1, heq.2])

/-- The tables after storing an entry. -/
@[simp] theorem Machine.setEntry_table : (m.setEntry s e).table = m.table.put s e := rfl

/-- The tables after changing an entry. -/
@[simp] theorem Machine.modify_table {change : Entry → Entry} :
    (m.modify s change).table = m.table.put s (change (m.entry s)) := rfl

/-- The entry that was stored is read back. -/
@[simp] theorem Machine.entry_setEntry : (m.setEntry s e).entry s = e := by
  simp [Machine.entry]

/-- The entries for an address are stored at these slots. -/
structure Slots.Reached (s : Slots) (t : Tables) (pgd : Nat) (x : U64) : Prop where
  pgd_slot : s.pgd = ⟨pgd, pgdIdx x⟩
  pud_slot : s.pud.index = pudIdx x ∧ follow Entry.ref t pgd [pgdIdx x] = some s.pud.table
  pmd_slot : s.pmd.index = pmdIdx x ∧
    follow Entry.ref t pgd [pgdIdx x, pudIdx x] = some s.pmd.table
  pte_slot : s.pte.index = pteIdx x ∧ tableOf t pgd x = some s.pte.table

/-- The last-level slot on the way to an address holds its leaf. -/
theorem Slots.Reached.leaf {s : Slots} (h : s.Reached t pgd x) :
    leaf t pgd x = some (t s.pte.table s.pte.index) := by
  rw [Vm.leaf, h.pte_slot.2, h.pte_slot.1]
  rfl

/-- `presentSlots` finds the entries exactly if the walk is present. -/
theorem presentSlots_spec (m : Machine) (pgd : Nat) (x : U64) :
    presentSlots m pgd x = none ∧ walk m.table pgd x = none ∨
    ∃ s, presentSlots m pgd x = some s ∧ s.Reached m.table pgd x ∧
      walk m.table pgd x = some (m.entry s.pte) := by
  have hroot : follow Entry.ref m.table pgd [] = some pgd := rfl
  unfold presentSlots
  simp only
  split_ifs with hpgd hpud hpmd hpte
  · refine Or.inl ⟨rfl, walk_none (p := [pgdIdx x]) ?_ ⟨_, rfl⟩⟩
    exact (follow_entry hroot).trans (Entry.ref_of_not_present hpgd)
  · have h₁ := (follow_entry hroot).trans (Entry.ref_of_present hpgd)
    refine Or.inl ⟨rfl, walk_none (p := [pgdIdx x, pudIdx x]) ?_ ⟨_, rfl⟩⟩
    exact (follow_entry h₁).trans (Entry.ref_of_not_present hpud)
  · have h₁ := (follow_entry hroot).trans (Entry.ref_of_present hpgd)
    have h₂ := (follow_entry h₁).trans (Entry.ref_of_present hpud)
    refine Or.inl ⟨rfl, walk_none (p := [pgdIdx x, pudIdx x, pmdIdx x]) ?_ ⟨_, rfl⟩⟩
    exact (follow_entry h₂).trans (Entry.ref_of_not_present hpmd)
  all_goals
    have h₁ := (follow_entry hroot).trans (Entry.ref_of_present hpgd)
    have h₂ := (follow_entry h₁).trans (Entry.ref_of_present hpud)
    have h₃ : tableOf m.table pgd x = some _ :=
      (follow_entry h₂).trans (Entry.ref_of_present hpmd)
  · refine Or.inl ⟨rfl, ?_⟩
    rw [walk, Vm.leaf, h₃]
    exact Option.filter_some_neg (by simpa [Machine.entry] using hpte)
  · refine Or.inr ⟨_, rfl, ⟨rfl, ⟨rfl, h₁⟩, ⟨rfl, h₂⟩, ⟨rfl, h₃⟩⟩, ?_⟩
    exact walk_eq_some.mpr ⟨leaf_eq_some.mpr ⟨_, h₃, rfl⟩, by simpa using hpte⟩

/-! ## Entries that only lose rights -/

/-- An entry with fewer rights: if it is present, it refers to the same frame. -/
structure Entry.Le (e' e : Entry) : Prop where
  ref : ∀ f, e'.ref = some f → e.ref = some f
  writable : e'.writable = true → e.writable = true

/-- An entry has its own bits. -/
theorem Entry.Le.refl (e : Entry) : e.Le e :=
  ⟨fun _ => id, id⟩

/-- Losing bits twice is losing bits. -/
theorem Entry.Le.trans (h : e₂.Le e₁) (h' : e₁.Le e) : e₂.Le e :=
  ⟨fun f hf => h'.ref f (h.ref f hf), fun hw => h'.writable (h.writable hw)⟩

/-- A cleared entry has lost all bits. -/
theorem Entry.zero_le (e : Entry) : Entry.zero.Le e :=
  ⟨nofun, nofun⟩

/-- Clearing bits loses bits. -/
theorem Entry.clear_le (e : Entry) (bits : BitVec 12) : (e.clear bits).Le e := by
  refine ⟨fun f hf => ?_, fun hw => ?_⟩
  · rw [Entry.ref_eq_some] at hf ⊢
    simp only [Entry.clear, Entry.present, BitVec.getLsbD_and, Bool.and_eq_true] at hf
    exact ⟨hf.1.1, hf.2⟩
  · simp only [Entry.clear, Entry.writable, BitVec.getLsbD_and, Bool.and_eq_true] at hw
    exact hw.1

/-- Tables whose entries have lost rights. -/
def Weaker (t t' : Tables) : Prop :=
  ∀ f i, (t' f i).Le (t f i)

/-- No entry has changed. -/
theorem Weaker.refl (t : Tables) : Weaker t t :=
  fun _ _ => Entry.Le.refl _

/-- Entries that lose bits twice have lost bits. -/
theorem Weaker.trans (h : Weaker t t₁) (h' : Weaker t₁ t') : Weaker t t' :=
  fun f i => (h' f i).trans (h f i)

/-- Storing an entry with fewer bits weakens the tables. -/
theorem Weaker.put (h : e.Le (t s.table s.index)) : Weaker t (t.put s e) := by
  intro f i
  rw [put_apply]
  split_ifs with heq
  · subst heq
    exact h
  · exact Entry.Le.refl _

/-- Clearing bits of an entry weakens the tables. -/
theorem Weaker.modify {bits : BitVec 12} : Weaker m.table (m.modify s (·.clear bits)).table :=
  Weaker.put (Entry.clear_le _ _)

/-- A path through weaker tables is a path through the old ones, to the same table. -/
theorem Weaker.follow (h : Weaker t t') (hf : follow Entry.ref t' r p = some f) :
    follow Entry.ref t r p = some f :=
  follow_of_shrinks (fun g i f hf => (h g i).ref f hf) hf

/-- A walk that is present afterwards was so before. -/
theorem Weaker.walk (h : Weaker t t') (hwalk : walk t' r x = some e') :
    ∃ e, walk t r x = some e ∧ e.pfn = e'.pfn ∧ (e'.writable = true → e.writable = true) := by
  obtain ⟨hleaf, hpresent⟩ := walk_eq_some.mp hwalk
  obtain ⟨f, hf, rfl⟩ := leaf_eq_some.mp hleaf
  obtain ⟨href, hw⟩ := h f (pteIdx x)
  obtain ⟨hpresent, hpfn⟩ := Entry.ref_eq_some.mp (href _ (Entry.ref_eq_some.mpr ⟨hpresent, rfl⟩))
  exact ⟨_, walk_eq_some.mpr ⟨leaf_eq_some.mpr ⟨f, h.follow hf, rfl⟩, hpresent⟩, hpfn, hw⟩

/-- Which entry a walk that is still present finds. -/
theorem Slots.Reached.walk_weaker {s : Slots} (hs : s.Reached t pgd x) (h : Weaker t t')
    (hwalk : walk t' pgd x = some e') : e' = t' s.pte.table s.pte.index := by
  obtain ⟨f, hf, rfl⟩ := leaf_eq_some.mp (walk_eq_some.mp hwalk).1
  have hsame : some f = some s.pte.table := (h.follow hf).symm.trans hs.pte_slot.2
  rw [Option.some.inj hsame, hs.pte_slot.1]

end GemOS.Vm
