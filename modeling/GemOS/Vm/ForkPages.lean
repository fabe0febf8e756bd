import GemOS.Vm.Fork
import GemOS.Vm.FrameCounts

/-!
# The page table of a child

`copyPageToChildProcess` for one address and for the addresses of a list. A page of the parent that
is visited is shared with the child, read-only on both sides; other pages are not in the child's
table, and the walks of other processes do not change. The reference counts stay exact.
-/

namespace GemOS.Vm

open Radix (follow Separated follow_congr)

variable {a : FrameAlloc} {m m' m₁ : Machine} {t t' t₁ : Tables} {r r' par child f fp fc n : Nat}
variable {x y i : U64} {e e' : Entry} {roots : Set Nat} {area : Set U64} {q : List U64}
variable {pgds : Finset Nat} {pages done : List U64}

/-! ## One level -/

/-- Tables have been added, and what is stored at the last level is as it was. -/
structure Grown (roots : Set Nat) (area : Set U64) (m m' : Machine) : Prop
    extends Extended roots area m m' where
  leafEntry : ∀ r x, r ∈ roots → x ∈ area → leafEntry m'.table r x = leafEntry m.table r x

theorem Grown.refl (h : Tidy roots area m) : Grown roots area m m :=
  ⟨Extended.refl h, fun _ _ _ _ => rfl⟩

theorem Grown.trans (h : Grown roots area m m₁) (h' : Grown roots area m₁ m') :
    Grown roots area m m' :=
  ⟨h.toExtended.trans h'.toExtended,
    fun r x hr hx => (h'.leafEntry r x hr hx).trans (h.leafEntry r x hr hx)⟩

/-- Upper entries have changed, but not what they refer to. -/
theorem SameLeaves.grown (h : SameLeaves roots area m.table t) (htidy : Tidy roots area m) :
    Grown roots area m { m with table := t } :=
  ⟨⟨⟨h.trees htidy.trees, fun r p f hp hf => htidy.used r p f hp (h.follow r p hp ▸ hf)⟩,
    fun _ _ hr hx => h.walk hr hx, fun r p _ hp hf => (h.follow r p hp).trans hf, rfl, rfl, rfl⟩,
    fun r x hr hx => congrArg (Option.getD · Entry.zero) (h.leaf r x hr hx)⟩

/-- Taking the write access from two upper entries. -/
theorem restrict_upper (h : Tidy roots area m) (hpar : InScope roots area par q)
    (hchild : InScope roots area child q) (hlen : q.length < 3)
    (hfp : follow Entry.ref m.table par q = some fp)
    (hfc : follow Entry.ref m.table child q = some fc) :
    Grown roots area m (restrict m ⟨fp, i⟩ ⟨fc, i⟩) := by
  have hfirst : SameLeaves roots area m.table (m.modify ⟨fp, i⟩ (·.clear 0x8)).table :=
    h.trees.put_upper hpar hlen hfp Entry.clear_write_ref
  have hext := hfirst.grown h
  have hsecond : SameLeaves roots area (m.modify ⟨fp, i⟩ (·.clear 0x8)).table
      (restrict m ⟨fp, i⟩ ⟨fc, i⟩).table :=
    hext.tidy.trees.put_upper hchild hlen (hext.follow _ _ _ hchild hfc) Entry.clear_write_ref
  exact hext.trans (hsecond.grown hext.tidy)

/-- One of the upper levels: below entries that are present on the parent's side, both walks go
on. -/
theorem copyTable_spec (h : Tidy roots area m) (ha : a.Ample) (hpar : par ∈ roots)
    (hchild : child ∈ roots) (hx : x ∈ area) (hq : q ++ [i] <+: tablePath x)
    (hfp : follow Entry.ref m.table par q = some fp)
    (hfc : follow Entry.ref m.table child q = some fc)
    (hpresent : ¬ (m.entry ⟨fp, i⟩).present = false) :
    Grown roots area m (copyTable a m ⟨fp, i⟩ ⟨fc, i⟩) ∧
      follow Entry.ref (copyTable a m ⟨fp, i⟩ ⟨fc, i⟩).table par (q ++ [i]) =
        some ((copyTable a m ⟨fp, i⟩ ⟨fc, i⟩).entry ⟨fp, i⟩).pfn ∧
      follow Entry.ref (copyTable a m ⟨fp, i⟩ ⟨fc, i⟩).table child (q ++ [i]) =
        some ((copyTable a m ⟨fp, i⟩ ⟨fc, i⟩).entry ⟨fc, i⟩).pfn := by
  have hlen : q.length < 3 := by
    have := hq.length_le
    rw [List.length_append, List.length_singleton] at this
    exact this
  have hscope : ∀ r ∈ roots, InScope roots area r q := fun r hr =>
    ⟨hr, x, hx, (List.prefix_append q [i]).trans hq⟩
  have hparent := (follow_entry (i := i) hfp).trans (Entry.ref_of_present hpresent)
  -- a path that goes on leads to the frame of its last entry
  have hlast : ∀ {m' r g k}, follow Entry.ref m'.table r q = some g →
      follow Entry.ref m'.table r (q ++ [i]) = some k →
      follow Entry.ref m'.table r (q ++ [i]) = some (Machine.entry m' ⟨g, i⟩).pfn := by
    intro m' r g k hg hk
    rw [hk, ← Entry.pfn_of_ref ((follow_entry hg).symm.trans hk)]
    rfl
  unfold copyTable
  by_cases hchildPresent : (m.entry ⟨fc, i⟩).present = true
  · rw [if_pos hchildPresent]
    exact ⟨Grown.refl h, hparent,
      (follow_entry hfc).trans (Entry.ref_eq_some.mpr ⟨hchildPresent, rfl⟩)⟩
  · rw [if_neg hchildPresent]
    have habsent : (m.entry ⟨fc, i⟩).present = false := by simpa using hchildPresent
    have hentry := Entry.ref_readOnly (a.allocTable m).1
    obtain ⟨hinstalled, hnew⟩ := h.install ha.toFresh (ha.table_ne_zero m) ⟨hchild, x, hx, hq⟩ hfc
      habsent hentry
    have hext : Grown roots area m _ := ⟨hinstalled, fun _ _ hr hy =>
      h.install_leafEntry ha.toFresh (ha.table_ne_zero m) ⟨hchild, x, hx, hq⟩ hfc habsent hentry
        hr hy⟩
    have hext' := restrict_upper (i := i) hext.tidy (hscope par hpar) (hscope child hchild) hlen
      (hext.follow _ _ _ (hscope par hpar) hfp) (hext.follow _ _ _ (hscope child hchild) hfc)
    have hall := hext.trans hext'
    refine ⟨hall, ?_, ?_⟩
    · exact hlast (hall.follow _ _ _ (hscope par hpar) hfp)
        (hall.follow _ _ _ ⟨hpar, x, hx, hq⟩ hparent)
    · exact hlast (hall.follow _ _ _ (hscope child hchild) hfc)
        (hext'.follow _ _ _ ⟨hchild, x, hx, hq⟩ hnew)

/-! ## One page -/

theorem put_self {s : Slot} : t.put s (t s.table s.index) = t := by
  funext f i
  rw [put_apply]
  split_ifs with heq
  · rw [← heq]
  · rfl

/-- A page of the parent has been shared with the child. -/
structure Shared (a : FrameAlloc) (roots : Set Nat) (area : Set U64) (m m' : Machine)
    (par child : Nat) (x : U64) (e : Entry) : Prop where
  machine : ∃ t₁, m' = { m.getPfn a e.pfn with table := m'.table } ∧
    LeafSet roots area m.table t₁ child x ⟨e.pfn, 0x11⟩ ∧
    LeafSet roots area t₁ m'.table par x (e.clear 0x8)

theorem Entry.clear_readOnly (n : Nat) : (Entry.mk n 0x11).clear 0x8 = ⟨n, 0x11⟩ :=
  congrArg (Entry.mk n) (by decide : (0x11 : BitVec 12) &&& ~~~0x8 = 0x11)

/-- The last level. -/
theorem copyPage_spec (h : Tidy roots area m) (hpar : par ∈ roots) (hchild : child ∈ roots)
    (hne : par ≠ child) (hx : x ∈ area) (hfp : tableOf m.table par x = some fp)
    (hfc : tableOf m.table child x = some fc)
    (habsent : ¬ (m.entry ⟨fc, pteIdx x⟩).present = true) :
    Shared a roots area m (copyPage a m ⟨fp, pteIdx x⟩ ⟨fc, pteIdx x⟩) par child x
      (m.entry ⟨fp, pteIdx x⟩) := by
  let e := m.entry ⟨fp, pteIdx x⟩
  let t₁ := m.table.put ⟨fc, pteIdx x⟩ ⟨e.pfn, 0x11⟩
  have hset : LeafSet roots area m.table t₁ child x ⟨e.pfn, 0x11⟩ :=
    h.trees.put_leaf hchild hx hfc
  have hpar₁ : tableOf t₁ par x = some fp := (tableOf_of_leafSet hset hpar hx).trans hfp
  have hchild₁ : tableOf t₁ child x = some fc := (tableOf_of_leafSet hset hchild hx).trans hfc
  -- the entry of the parent is not the one just stored
  have hentry : t₁ fp (pteIdx x) = e := by
    have hleaf := hset.other par x hpar hx fun heq => hne heq.1
    rw [leaf, leaf, hpar₁, hfp, Option.map_some, Option.map_some] at hleaf
    exact Option.some.inj hleaf
  have hset' : LeafSet roots area t₁ (t₁.put ⟨fp, pteIdx x⟩ (e.clear 0x8)) par x (e.clear 0x8) :=
    (hset.trees h.trees).put_leaf hpar hx hpar₁
  -- and the one of the child has no write access to lose
  have hentry' : t₁.put ⟨fp, pteIdx x⟩ (e.clear 0x8) fc (pteIdx x) = ⟨e.pfn, 0x11⟩ := by
    have hleaf := hset'.other child x hchild hx fun heq => hne heq.1.symm
    rw [leaf, leaf, tableOf_of_leafSet hset' hchild hx, hchild₁, Option.map_some, Option.map_some]
      at hleaf
    exact (Option.some.inj hleaf).trans put_same
  have htable : (copyPage a m ⟨fp, pteIdx x⟩ ⟨fc, pteIdx x⟩).table =
      t₁.put ⟨fp, pteIdx x⟩ (e.clear 0x8) := by
    rw [copyPage, if_neg habsent]
    show (t₁.put ⟨fp, pteIdx x⟩ ((t₁ fp (pteIdx x)).clear 0x8)).put ⟨fc, pteIdx x⟩
      ((t₁.put ⟨fp, pteIdx x⟩ ((t₁ fp (pteIdx x)).clear 0x8) fc (pteIdx x)).clear 0x8) = _
    rw [hentry, hentry', Entry.clear_readOnly]
    exact (congrArg _ hentry'.symm).trans (put_self (s := ⟨fc, pteIdx x⟩))
  refine ⟨_, ?_, hset, ?_⟩
  · rw [copyPage, if_neg habsent]
    rfl
  · rw [htable]
    exact hset'

/-- `copyPageToChildProcess` installs tables for the child; the page itself is shared if it is
present for the parent and not yet for the child. -/
theorem copyPageToChildProcess_spec (h : Tidy roots area m) (ha : a.Ample) (hpar : par ∈ roots)
    (hchild : child ∈ roots) (hne : par ≠ child) (hx : x ∈ area) :
    ∃ m₁, Grown roots area m m₁ ∧
      ((walk m.table par x = none ∨ (walk m.table child x).isSome) ∧
          (copyPageToChildProcess a par child m x).2 = m₁ ∨
        ∃ e, walk m.table par x = some e ∧ walk m.table child x = none ∧
          Shared a roots area m₁ (copyPageToChildProcess a par child m x).2 par child x e) := by
  have hroot : ∀ r, follow Entry.ref m.table r [] = some r := fun _ => rfl
  unfold copyPageToChildProcess
  simp only
  by_cases hpgd : (m.entry ⟨par, pgdIdx x⟩).present = false
  · refine ⟨m, Grown.refl h, Or.inl ⟨Or.inl ?_, by rw [if_pos hpgd]⟩⟩
    refine walk_none (p := [pgdIdx x]) ?_ ⟨_, rfl⟩
    exact (follow_entry (hroot par)).trans (Entry.ref_of_not_present hpgd)
  obtain ⟨hext₁, hpar₁, hchild₁⟩ := copyTable_spec h ha hpar hchild hx (q := []) ⟨_, rfl⟩
    (hroot par) (hroot child) hpgd
  rw [if_neg hpgd]
  revert hext₁ hpar₁ hchild₁
  generalize copyTable a m ⟨par, pgdIdx x⟩ ⟨child, pgdIdx x⟩ = m₁
  generalize (m₁.entry ⟨par, pgdIdx x⟩).pfn = pud, (m₁.entry ⟨child, pgdIdx x⟩).pfn = pud'
  intro hext₁ hpar₁ hchild₁
  by_cases hpud : (m₁.entry ⟨pud, pudIdx x⟩).present = false
  · refine ⟨m₁, hext₁, Or.inl ⟨Or.inl ?_, by rw [if_pos hpud]⟩⟩
    rw [← hext₁.walk par x hpar hx]
    refine walk_none (p := [pgdIdx x, pudIdx x]) ?_ ⟨_, rfl⟩
    exact (follow_entry hpar₁).trans (Entry.ref_of_not_present hpud)
  obtain ⟨hext₂, hpar₂, hchild₂⟩ := copyTable_spec hext₁.tidy ha hpar hchild hx ⟨_, rfl⟩
    hpar₁ hchild₁ hpud
  rw [if_neg hpud]
  revert hext₂ hpar₂ hchild₂
  generalize copyTable a m₁ ⟨pud, pudIdx x⟩ ⟨pud', pudIdx x⟩ = m₂
  generalize (m₂.entry ⟨pud, pudIdx x⟩).pfn = pmd, (m₂.entry ⟨pud', pudIdx x⟩).pfn = pmd'
  intro hext₂ hpar₂ hchild₂
  by_cases hpmd : (m₂.entry ⟨pmd, pmdIdx x⟩).present = false
  · refine ⟨m₂, hext₁.trans hext₂, Or.inl ⟨Or.inl ?_, by rw [if_pos hpmd]⟩⟩
    rw [← (hext₁.trans hext₂).walk par x hpar hx]
    refine walk_none (p := [pgdIdx x, pudIdx x, pmdIdx x]) ?_ (List.prefix_refl _)
    exact (follow_entry hpar₂).trans (Entry.ref_of_not_present hpmd)
  obtain ⟨hext₃, hpar₃, hchild₃⟩ := copyTable_spec hext₂.tidy ha hpar hchild hx
    (List.prefix_refl _) hpar₂ hchild₂ hpmd
  rw [if_neg hpmd]
  revert hext₃ hpar₃ hchild₃
  generalize copyTable a m₂ ⟨pmd, pmdIdx x⟩ ⟨pmd', pmdIdx x⟩ = m₃
  generalize (m₃.entry ⟨pmd, pmdIdx x⟩).pfn = pte, (m₃.entry ⟨pmd', pmdIdx x⟩).pfn = pte'
  intro hext₃ hpar₃ hchild₃
  have hext := hext₁.trans (hext₂.trans hext₃)
  have hleaf : leaf m₃.table par x = some (m₃.entry ⟨pte, pteIdx x⟩) :=
    leaf_eq_some.mpr ⟨pte, hpar₃, rfl⟩
  have hleaf' : leaf m₃.table child x = some (m₃.entry ⟨pte', pteIdx x⟩) :=
    leaf_eq_some.mpr ⟨pte', hchild₃, rfl⟩
  refine ⟨m₃, hext, ?_⟩
  by_cases hpte : (m₃.entry ⟨pte, pteIdx x⟩).present = false
  · refine Or.inl ⟨Or.inl ?_, by rw [if_pos hpte]⟩
    rw [← hext.walk par x hpar hx, walk, hleaf]
    exact Option.filter_some_neg (by simpa using hpte)
  rw [if_neg hpte]
  by_cases hthere : (m₃.entry ⟨pte', pteIdx x⟩).present = true
  · refine Or.inl ⟨Or.inr ?_, by rw [copyPage, if_pos hthere]⟩
    rw [← hext.walk child x hchild hx, walk_eq_some.mpr ⟨hleaf', hthere⟩]
    rfl
  · refine Or.inr ⟨m₃.entry ⟨pte, pteIdx x⟩, ?_, ?_,
      copyPage_spec hext.tidy hpar hchild hne hx hpar₃ hchild₃ hthere⟩
    · rw [← hext.walk par x hpar hx]
      exact walk_eq_some.mpr ⟨hleaf, by simpa using hpte⟩
    · rw [← hext.walk child x hchild hx, walk, hleaf']
      exact Option.filter_some_neg (by simpa using hthere)

theorem Shared.tidy (h : Shared a roots area m m' par child x e) (htidy : Tidy roots area m) :
    Tidy roots area m' := by
  obtain ⟨t₁, hm', hset, hset'⟩ := h.machine
  have htidy₁ : Tidy roots area { m.getPfn a e.pfn with table := t₁ } := htidy.leafSet hset rfl
  exact htidy₁.leafSet hset' (by rw [hm'])

theorem Tidy.copyPageToChildProcess (h : Tidy roots area m) (ha : a.Ample) (hpar : par ∈ roots)
    (hchild : child ∈ roots) (hne : par ≠ child) (hx : x ∈ area) :
    Tidy roots area (copyPageToChildProcess a par child m x).2 := by
  obtain ⟨m₁, hext, ⟨_, hcopy⟩ | ⟨_, _, _, hshared⟩⟩ :=
    copyPageToChildProcess_spec h ha hpar hchild hne hx
  · exact hcopy ▸ hext.tidy
  · exact hshared.tidy hext.tidy

/-- Sharing a page gives its frame one more holder: the child's entry adds one, and the parent's
keeps its frame. -/
theorem Shared.holders (hshared : Shared a pgds Set.univ m m' par child x e) (hpar : par ∈ pgds)
    (hchild : child ∈ pgds) (hne : par ≠ child) (hwalk : walk m.table par x = some e)
    (habsent : walk m.table child x = none) (g : Nat) :
    Vm.holders pgds m'.table g = Vm.holders pgds m.table g + (if e.pfn = g then 1 else 0) := by
  obtain ⟨t₁, _, hset, hset'⟩ := hshared.machine
  have hfirst := hset.holders hchild g
  have hsecond := hset'.holders hpar g
  have hparent : frameOf t₁ par x = some e.pfn := by
    rw [frameOf, hset.walk_other hpar (Set.mem_univ x) fun heq => hne heq.1, hwalk]
    rfl
  rw [frameOf, habsent, Entry.ref_readOnly, some_eq_some_ite] at hfirst
  rw [hparent, Entry.clear_write_ref,
    Entry.ref_eq_some.mpr ⟨(walk_eq_some.mp hwalk).2, rfl⟩] at hsecond
  simp only [Option.map_none, reduceCtorEq, if_false, Nat.add_zero] at hfirst
  rw [← hfirst]
  exact Nat.add_right_cancel hsecond

theorem RefsExact.copyPageToChildProcess (h : RefsExact pgds m) (ha : a.Ample)
    (hcounts : a.CountsExactly) (hpar : par ∈ pgds) (hchild : child ∈ pgds) (hne : par ≠ child) :
    RefsExact pgds (copyPageToChildProcess a par child m x).2 := by
  obtain ⟨m₁, hext, ⟨_, hcopy⟩ | ⟨e, hwalk, habsent, hshared⟩⟩ :=
    copyPageToChildProcess_spec h.tidy ha hpar hchild hne (Set.mem_univ x)
  · rw [hcopy]
    exact h.extended hext.toExtended
  · have h₁ := h.extended hext.toExtended
    have htidy := hshared.tidy h₁.tidy
    rw [← hext.walk par x hpar (Set.mem_univ x)] at hwalk
    rw [← hext.walk child x hchild (Set.mem_univ x)] at habsent
    have hcount := hshared.holders hpar hchild hne hwalk habsent
    obtain ⟨t₁, hm', _, _⟩ := hshared.machine
    rw [hm'] at htidy hcount ⊢
    exact ⟨htidy, (h₁.frames.getPfn hcounts (holders_pos hpar (frameOf_of_walk hwalk))
      hcount).congr (fun _ => rfl) rfl rfl⟩

theorem RefsExact.copyPages (h : RefsExact pgds m) (ha : a.Ample)
    (hcounts : a.CountsExactly) (hpar : par ∈ pgds) (hchild : child ∈ pgds) (hne : par ≠ child) :
    RefsExact pgds (copyPages a par child m pages) := by
  unfold Vm.copyPages
  induction pages generalizing m with
  | nil => exact h
  | cons page pages ih => exact ih (h.copyPageToChildProcess ha hcounts hpar hchild hne)

/-! ## A new first-level table -/

/-- An empty table as the first level of a new process. -/
structure NewRoot (roots : Set Nat) (area : Set U64) (m m' : Machine) (n : Nat) : Prop where
  fresh : n ∉ roots
  tidy : Tidy (insert n roots) area m'
  walk : ∀ r x, r ∈ roots → x ∈ area → walk m'.table r x = walk m.table r x
  empty : ∀ x, Vm.walk m'.table n x = none
  page : m'.page = m.page
  refcount : m'.refcount = m.refcount
  pagesUsed : m'.frames.pagesUsed = m.frames.pagesUsed

theorem Tidy.newRoot (h : Tidy roots area m) (ha : a.Ample) (harea : area.Nonempty) :
    NewRoot roots area m (a.allocTable m).2 (a.allocTable m).1 := by
  have halloc : a.allocTable m = (a.table m.frames, _) := if_neg (ha.some_table _)
  rw [halloc]
  show NewRoot roots area m { m with
      table := fun f i => if f = a.table m.frames then .zero else m.table f i
      frames := { m.frames with
        tablesUsed := a.table m.frames :: m.frames.tablesUsed, count := m.frames.count + 1 } }
    (a.table m.frames)
  have hunused := ha.table m.frames (ha.some_table _)
  -- paths from the other roots do not come to the new table
  have hfresh : ∀ r p, InScope roots area r p →
      follow Entry.ref m.table r p ≠ some (a.table m.frames) := fun r p hp hf =>
    hunused (h.used r p _ hp hf)
  have hkeep : ∀ r p, InScope roots area r p →
      follow Entry.ref (fun f i => if f = a.table m.frames then .zero else m.table f i) r p =
        follow Entry.ref m.table r p := by
    intro r p hp
    refine follow_congr fun q j g hq hg => ?_
    have hscope := inScope_closed r q p hp ((List.prefix_append q [j]).trans hq)
    have hg' : g ≠ a.table m.frames := fun heq => hfresh r q hscope (heq ▸ hg)
    rw [if_neg hg']
  have hempty : ∀ i p, follow Entry.ref
      (fun f i => if f = a.table m.frames then .zero else m.table f i) (a.table m.frames) (i :: p) =
        none := fun i p => by
    have hzero : Entry.zero.ref = none := Entry.ref_of_not_present Entry.zero_present
    rw [follow, if_pos rfl, hzero, Option.bind_none]
  -- what a path leads to
  have hcases : ∀ r p f, InScope (insert (a.table m.frames) roots) area r p →
      follow Entry.ref
          (fun f i => if f = a.table m.frames then .zero else m.table f i) r p = some f →
      (r = a.table m.frames ∧ p = [] ∧ f = a.table m.frames) ∨
        InScope roots area r p ∧ follow Entry.ref m.table r p = some f := by
    intro r p f hp hf
    by_cases hr : r ∈ roots
    · exact Or.inr ⟨⟨hr, hp.2⟩, hkeep r p ⟨hr, hp.2⟩ ▸ hf⟩
    · obtain rfl : r = a.table m.frames := hp.1.resolve_right hr
      cases p with
      | nil => exact Or.inl ⟨rfl, rfl, (Option.some.inj hf).symm⟩
      | cons i p =>
          rw [hempty] at hf
          cases hf
  obtain ⟨x₀, hx₀⟩ := harea
  refine ⟨fun hmem => ?_, ⟨fun r p r' p' f hp hp' hf hf' => ?_, fun r p f hp hf => ?_⟩,
    fun r x hr hx => ?_, fun x => walk_none (hempty _ _) (List.prefix_refl _), rfl, rfl, rfl⟩
  · exact hfresh _ [] ⟨hmem, x₀, hx₀, List.nil_prefix⟩ rfl
  · rcases hcases r p f hp hf with ⟨rfl, rfl, rfl⟩ | ⟨hs, hf⟩ <;>
      rcases hcases r' p' _ hp' hf' with ⟨rfl, rfl, heq⟩ | ⟨hs', hf'⟩
    · exact ⟨rfl, rfl⟩
    · exact absurd hf' (hfresh _ _ hs')
    · exact absurd (heq ▸ hf) (hfresh _ _ hs)
    · exact h.trees _ _ _ _ _ hs hs' hf hf'
  · rcases hcases r p f hp hf with ⟨_, _, rfl⟩ | ⟨hs, hf⟩
    · exact List.mem_cons_self
    · exact List.mem_cons_of_mem _ (h.used r p f hs hf)
  · have hs : InScope roots area r (tablePath x) := ⟨hr, x, hx, List.prefix_refl _⟩
    rw [Vm.walk, Vm.walk, leaf, leaf, tableOf, tableOf, hkeep r _ hs]
    cases hg : follow Entry.ref m.table r (tablePath x) with
    | none => rfl
    | some g =>
        have hg' : g ≠ a.table m.frames := fun heq => hfresh r _ hs (heq ▸ hg)
        rw [Option.map_some, Option.map_some]
        exact congrArg (fun e => Option.filter Entry.present (some e)) (if_neg hg')

theorem RefsExact.newRoot (h : RefsExact pgds m) (ha : a.Ample) :
    RefsExact (insert (a.allocTable m).1 pgds) (a.allocTable m).2 := by
  have hnew := h.tidy.newRoot ha ⟨0, Set.mem_univ 0⟩
  refine ⟨by simpa using hnew.tidy, h.frames.congr (fun f => ?_) hnew.refcount hnew.pagesUsed⟩
  have hsub : allPages pgds ⊆ allPages (insert (a.allocTable m).1 pgds) :=
    Finset.product_subset_product (Finset.subset_insert _ _) (Finset.Subset.refl _)
  rw [← holders_congr fun r x hr => hnew.walk r x hr (Set.mem_univ x)]
  refine RefCount.held_extend hsub fun q hq hnot => ?_
  obtain ⟨hq, hp⟩ := mem_allPages.mp hq
  rcases Finset.mem_insert.mp hq with heq | hold
  · rw [frameOf, heq, hnew.empty]
    rfl
  · exact absurd (mem_allPages.mpr ⟨hold, hp⟩) hnot

/-- `do_cfork` keeps the reference counts exact. -/
theorem RefsExact.doCfork (h : RefsExact pgds m) (ha : a.Ample) (hcounts : a.CountsExactly)
    {ctx : Process} (addrStart : U64) (hpgd : ctx.pgd ∈ pgds) :
    RefsExact (insert (doCfork a addrStart ctx m).1.pgd pgds) (doCfork a addrStart ctx m).2 := by
  have hnew := h.tidy.newRoot ha ⟨0, Set.mem_univ 0⟩
  have hne : ctx.pgd ≠ (a.allocTable m).1 := fun heq => hnew.fresh (heq ▸ hpgd)
  exact (h.newRoot ha).copyPages ha hcounts (Finset.mem_insert_of_mem hpgd)
    (Finset.mem_insert_self _ _) hne

end GemOS.Vm
