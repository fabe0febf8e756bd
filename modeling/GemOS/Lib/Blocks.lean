import Mathlib.Algebra.GroupWithZero.Nat
import Mathlib.Algebra.BigOperators.Group.List.Basic
import Mathlib.Data.List.Pairwise
import Mathlib.Data.Set.Insert

/-!
# Disjoint blocks of an address space

A block `b` is the interval of the `size b` addresses from `start b` on. `Tiling` says that the
blocks of a list do not overlap and lie in a given area, `Exact` that they leave no address of
the area out and have a given total size. Merging neighbours, splitting a block and adding a
block in new area keep both.
-/

namespace Blocks

variable {ι : Type*} {start size size' : ι → Nat} {bs cs : List ι} {b c : ι}
variable {area area' : Set Nat} {sum : Nat}

/-- Address `x` belongs to block `b`. -/
def Holds (start size : ι → Nat) (b : ι) (x : Nat) : Prop :=
  start b ≤ x ∧ x < start b + size b

instance {x : Nat} : Decidable (Holds start size b x) :=
  inferInstanceAs (Decidable (_ ∧ _))

/-- Block `c` starts where block `b` ends. -/
def Adjacent (start size : ι → Nat) (b c : ι) : Prop :=
  start b + size b = start c

instance : Decidable (Adjacent start size b c) :=
  inferInstanceAs (Decidable (_ = _))

/-- Two blocks do not overlap. -/
def Apart (start size : ι → Nat) (b c : ι) : Prop :=
  start b + size b ≤ start c ∨ start c + size c ≤ start b

instance : Decidable (Apart start size b c) :=
  inferInstanceAs (Decidable (_ ∨ _))

theorem Apart.symm (h : Apart start size b c) : Apart start size c b :=
  Or.symm h

/-- Blocks that do not overlap share no address. -/
theorem Apart.not_holds {x : Nat} (h : Apart start size b c) (hb : Holds start size b x) :
    ¬ Holds start size c x := by
  unfold Apart Holds at *
  omega

theorem Apart.congr (h : Apart start size b c) (hb : size' b = size b) (hc : size' c = size c) :
    Apart start size' b c := by
  unfold Apart at *
  rwa [hb, hc]

theorem Holds.congr {x : Nat} (h : Holds start size b x) (hb : size' b = size b) :
    Holds start size' b x := by
  unfold Holds at *
  rwa [hb]

/-- Blocks that hold consecutive addresses and do not overlap are adjacent. -/
theorem Apart.adjacent {x : Nat} (h : Apart start size b c) (hb : Holds start size b x)
    (hc : Holds start size c (x + 1)) : Adjacent start size b c := by
  unfold Apart Holds Adjacent at *
  omega

/-- Adjacent blocks hold consecutive addresses. -/
theorem Adjacent.holds (h : Adjacent start size b c) (hb : 0 < size b) (hc : 0 < size c) :
    ∃ x, Holds start size b x ∧ Holds start size c (x + 1) := by
  refine ⟨start c - 1, ?_⟩
  unfold Holds Adjacent at *
  omega

/-! ## Blocks in an area -/

/-- The blocks of a list are not empty, do not overlap and lie in `area`. -/
structure Tiling (start size : ι → Nat) (bs : List ι) (area : Set Nat) : Prop where
  pos : ∀ b ∈ bs, 0 < size b
  apart : bs.Pairwise (Apart start size)
  inside : ∀ b ∈ bs, ∀ x, Holds start size b x → x ∈ area

namespace Tiling

theorem mono {area' : Set Nat} (h : Tiling start size bs area) (harea : area ⊆ area') :
    Tiling start size bs area' :=
  ⟨h.pos, h.apart, fun b hb x hx => harea (h.inside b hb x hx)⟩

/-- Two different blocks of a tiling. -/
theorem forall_apart (h : Tiling start size bs area) (hb : b ∈ bs) (hc : c ∈ bs) (hbc : b ≠ c) :
    Apart start size b c := by
  have : Std.Symm (Apart start size) := ⟨fun _ _ => Apart.symm⟩
  exact h.apart.forall hb hc hbc

/-- No block occurs twice. -/
theorem nodup (h : Tiling start size bs area) : bs.Nodup := by
  refine List.Pairwise.imp_of_mem (fun {b c} hb _ hapart heq => ?_) h.apart
  subst heq
  have := h.pos b hb
  unfold Apart at hapart
  omega

theorem congr (h : Tiling start size bs area) (hsize : ∀ b ∈ bs, size' b = size b) :
    Tiling start size' bs area where
  pos b hb := (hsize b hb).symm ▸ h.pos b hb
  apart := List.Pairwise.imp_of_mem
    (fun hb hc hapart => hapart.congr (hsize _ hb) (hsize _ hc)) h.apart
  inside b hb x hx := h.inside b hb x (hx.congr (hsize b hb).symm)

theorem perm (h : Tiling start size bs area) (hperm : bs.Perm cs) : Tiling start size cs area where
  pos b hb := h.pos b (hperm.mem_iff.mpr hb)
  apart := hperm.pairwise h.apart Apart.symm
  inside b hb := h.inside b (hperm.mem_iff.mpr hb)

/-- Blocks may be dropped. -/
theorem sublist (h : Tiling start size bs area) (hsub : cs.Sublist bs) :
    Tiling start size cs area where
  pos b hb := h.pos b (hsub.subset hb)
  apart := h.apart.sublist hsub
  inside b hb := h.inside b (hsub.subset hb)

/-- A block takes in its right neighbour. -/
theorem merge (h : Tiling start size (b :: c :: bs) area)
    (hadjacent : start b + size b = start c) (hsum : size' b = size b + size c)
    (hsize : ∀ a ∈ bs, size' a = size a) : Tiling start size' (b :: bs) area := by
  have hbs : Tiling start size' bs area :=
    (h.sublist ((List.sublist_cons_self c bs).cons b)).congr hsize
  obtain ⟨hb, hrest⟩ := List.pairwise_cons.mp h.apart
  obtain ⟨hc, _⟩ := List.pairwise_cons.mp hrest
  have hpos := h.pos
  refine ⟨?_, List.pairwise_cons.mpr ⟨fun a ha => ?_, hbs.apart⟩, ?_⟩
  · intro a ha
    rcases List.mem_cons.mp ha with rfl | ha
    · have := hpos a (by simp)
      omega
    · exact hbs.pos a ha
  · have hba := hb a (by simp [ha])
    have hca := hc a ha
    have := hpos a (by simp [ha])
    unfold Apart at *
    rw [hsize a ha]
    omega
  · intro a ha x hx
    rcases List.mem_cons.mp ha with rfl | ha
    · unfold Holds at hx
      rcases Nat.lt_or_ge x (start c) with hlt | hge
      · exact h.inside a (by simp) x ⟨hx.1, by omega⟩
      · exact h.inside c (by simp) x ⟨hge, by omega⟩
    · exact hbs.inside a ha x hx

/-- A block is cut in two. -/
theorem split (h : Tiling start size (b :: bs) area) (hstart : start c = start b + size' b)
    (hsum : size b = size' b + size' c) (hb : 0 < size' b) (hc : 0 < size' c)
    (hsize : ∀ a ∈ bs, size' a = size a) : Tiling start size' (b :: c :: bs) area := by
  have hbs : Tiling start size' bs area := (h.sublist (List.sublist_cons_self b bs)).congr hsize
  have hcut : ∀ a ∈ bs, Apart start size' b a ∧ Apart start size' c a := by
    intro a ha
    have := (List.pairwise_cons.mp h.apart).1 a ha
    unfold Apart at *
    rw [hsize a ha]
    omega
  refine ⟨?_, List.pairwise_cons_cons.mpr ⟨Or.inl (by omega),
    List.pairwise_cons.mpr ⟨fun a ha => (hcut a ha).1, hbs.apart⟩,
    List.pairwise_cons.mpr ⟨fun a ha => (hcut a ha).2, hbs.apart⟩⟩, ?_⟩
  · intro a ha
    rcases List.mem_cons.mp ha with rfl | ha
    · exact hb
    · rcases List.mem_cons.mp ha with rfl | ha
      · exact hc
      · exact hbs.pos a ha
  · intro a ha x hx
    rcases List.mem_cons.mp ha with rfl | ha
    · unfold Holds at hx
      exact h.inside a (by simp) x ⟨hx.1, by omega⟩
    · rcases List.mem_cons.mp ha with rfl | ha
      · unfold Holds at hx
        exact h.inside b (by simp) x ⟨by omega, by omega⟩
      · exact hbs.inside a ha x hx

/-- A new block in new area. -/
theorem add (h : Tiling start size bs area) (hb : 0 < size' b)
    (hfresh : ∀ x ∈ area, ¬ Holds start size' b x)
    (harea : ∀ x, x ∈ area' ↔ x ∈ area ∨ Holds start size' b x)
    (hsize : ∀ a ∈ bs, size' a = size a) : Tiling start size' (b :: bs) area' := by
  have hbs := h.congr hsize
  refine ⟨?_, List.pairwise_cons.mpr ⟨fun a ha => ?_, hbs.apart⟩, ?_⟩
  · intro a ha
    rcases List.mem_cons.mp ha with rfl | ha
    · exact hb
    · exact hbs.pos a ha
  · -- the first address of the later one of two overlapping blocks would be in both
    have hpos := hbs.pos a ha
    by_contra hnot
    unfold Apart at hnot
    rcases Nat.le_total (start a) (start b) with hle | hle
    · exact hfresh (start b) (hbs.inside a ha _ ⟨hle, by omega⟩) ⟨Nat.le_refl _, by omega⟩
    · exact hfresh (start a) (hbs.inside a ha _ ⟨Nat.le_refl _, by omega⟩) ⟨hle, by omega⟩
  · intro a ha x hx
    rcases List.mem_cons.mp ha with rfl | ha
    · exact (harea x).mpr (Or.inr hx)
    · exact (harea x).mpr (Or.inl (hbs.inside a ha x hx))

end Tiling

/-- The addresses of the blocks of a list. -/
def addresses (start size : ι → Nat) (bs : List ι) : Set Nat :=
  {x | ∃ b ∈ bs, Holds start size b x}

/-- No address of a block belongs to other blocks of a tiling. -/
theorem Tiling.not_addresses {ds : List ι} {x : Nat} (h : Tiling start size bs area)
    (hds : ∀ d ∈ ds, d ∈ bs ∧ d ≠ b) (hb : b ∈ bs) (hx : Holds start size b x) :
    x ∉ addresses start size ds := by
  rintro ⟨d, hd, hdx⟩
  obtain ⟨hd, hne⟩ := hds d hd
  exact (h.forall_apart hd hb hne).not_holds hdx hx

/-! ## Blocks that are not adjacent -/

/-- No block of the list starts where another one ends. -/
def Separated (start size : ι → Nat) (bs : List ι) : Prop :=
  ∀ b ∈ bs, ∀ c ∈ bs, ¬ Adjacent start size b c

instance [DecidableEq ι] : Decidable (Separated start size bs) :=
  List.decidableBAll _ bs

/-- Joining a block `b` with all blocks of a separated list that are next to it, into `m`, gives
a separated list. -/
theorem Separated.join {bs' : List ι} {m : ι} (h : Separated start size bs)
    (hb : b ∉ bs) (htiling : Tiling start size (b :: bs) area) (hpos : ∀ c ∈ bs', 0 < size' c)
    (hold : ∀ c ∈ bs', c ≠ m → c ∈ bs ∧ size' c = size c ∧
      ¬ Adjacent start size b c ∧ ¬ Adjacent start size c b)
    (hjoin : ∀ x, Holds start size' m x → Holds start size b x ∨
      ∃ c ∈ bs, (Adjacent start size b c ∨ Adjacent start size c b) ∧ Holds start size c x) :
    Separated start size' bs' := by
  have hapart : ∀ c ∈ bs, Apart start size b c ∧ ∀ d ∈ bs, c ≠ d → Apart start size c d := by
    intro c hc
    refine ⟨htiling.forall_apart (by simp) (by simp [hc]) (fun heq => hb (heq ▸ hc)), ?_⟩
    exact fun d hd => htiling.forall_apart (by simp [hc]) (by simp [hd])
  intro c hc d hd hadjacent
  obtain ⟨x, hcx, hdx⟩ := hadjacent.holds (hpos c hc) (hpos d hd)
  by_cases hcm : c = m <;> by_cases hdm : d = m
  · have := hpos c hc
    unfold Adjacent at hadjacent
    rw [hcm, hdm] at hadjacent
    rw [hcm] at this
    omega
  · -- `d` would be next to `b` or to what has been joined with it
    obtain ⟨hd, hsize, hbd, hdb⟩ := hold d hd hdm
    have hdx := hdx.congr hsize.symm
    rcases hjoin _ (hcm ▸ hcx) with hbx | ⟨a, ha, hab, hax⟩
    · exact hbd ((hapart d hd).1.adjacent hbx hdx)
    · have hne : a ≠ d := fun heq => (heq ▸ hab).elim hbd hdb
      exact h a ha d hd (((hapart a ha).2 d hd hne).adjacent hax hdx)
  · obtain ⟨hc, hsize, hbc, hcb⟩ := hold c hc hcm
    have hcx := hcx.congr hsize.symm
    rcases hjoin _ (hdm ▸ hdx) with hbx | ⟨a, ha, hab, hax⟩
    · exact hcb ((hapart c hc).1.symm.adjacent hcx hbx)
    · have hne : c ≠ a := fun heq => (heq ▸ hab).elim hbc hcb
      exact h c hc a ha (((hapart c hc).2 a ha hne).adjacent hcx hax)
  · obtain ⟨hc, hsize, -⟩ := hold c hc hcm
    refine h c hc d (hold d hd hdm).1 ?_
    unfold Adjacent at *
    rwa [hsize] at hadjacent

/-- A block of the list starts where another one ends only at an address of `B`. -/
def SeparatedBut (B : Set Nat) (start size : ι → Nat) (bs : List ι) : Prop :=
  ∀ b ∈ bs, ∀ c ∈ bs, Adjacent start size b c → start c ∈ B

/-- New blocks next to each other start and end where old ones did, or at addresses of `B'`. -/
theorem SeparatedBut.of_ends {B B' : Set Nat} {bs' : List ι} (h : SeparatedBut B start size bs)
    (hB : B ⊆ B')
    (hend : ∀ c ∈ bs', (∃ a ∈ bs, start c + size' c = start a + size a) ∨
      ∀ d ∈ bs', start c + size' c = start d → start d ∈ B')
    (hstart : ∀ d ∈ bs', d ∈ bs ∨ ∀ a ∈ bs, start a + size a ≠ start d) :
    SeparatedBut B' start size' bs' := by
  intro c hc d hd hadjacent
  rcases hend c hc with ⟨a, ha, heq⟩ | hfresh
  · have hends : start a + size a = start d := heq.symm.trans hadjacent
    rcases hstart d hd with hold | hnew
    · exact hB (h a ha d hold hends)
    · exact absurd hends (hnew a ha)
  · exact hfresh d hd hadjacent

/-- A block that holds the first address of an interval in which no block of the list starts
behind it, and which the list covers, holds the whole interval. -/
theorem Tiling.holds_interval {lo hi : Nat} (h : Tiling start size bs area) (hlo : lo < hi)
    (hcovers : ∀ x, lo ≤ x → x < hi → ∃ b ∈ bs, Holds start size b x)
    (hstart : ∀ b ∈ bs, ∀ c ∈ bs, Adjacent start size b c → ¬ (lo < start c ∧ start c < hi)) :
    ∃ b ∈ bs, ∀ x, lo ≤ x → x < hi → Holds start size b x := by
  obtain ⟨b, hb, hfirst⟩ := hcovers lo (Nat.le_refl _) hlo
  refine ⟨b, hb, ?_⟩
  suffices hend : hi ≤ start b + size b from fun x hle hlt =>
    ⟨Nat.le_trans hfirst.1 hle, Nat.lt_of_lt_of_le hlt hend⟩
  by_contra hshort
  unfold Holds at hfirst
  obtain ⟨c, hc, hcx⟩ := hcovers (start b + size b) (by omega) (by omega)
  have hne : b ≠ c := by
    intro heq
    subst heq
    exact Nat.lt_irrefl _ hcx.2
  have hadjacent : Adjacent start size b c := by
    have hapart := h.forall_apart hb hc hne
    have hpos := h.pos c hc
    unfold Apart Adjacent Holds at *
    omega
  refine hstart b hb c hc hadjacent ?_
  unfold Adjacent at hadjacent
  omega

/-! ## Blocks that fill an area -/

/-- The blocks of a list leave no address of `area` out, and their sizes add up to `sum`. -/
structure Exact (start size : ι → Nat) (bs : List ι) (area : Set Nat) (sum : Nat) : Prop where
  covers : ∀ x ∈ area, ∃ b ∈ bs, Holds start size b x
  total : (bs.map size).sum = sum

namespace Exact

theorem congr (h : Exact start size bs area sum) (hsize : ∀ b ∈ bs, size' b = size b) :
    Exact start size' bs area sum where
  covers x hx := by
    obtain ⟨b, hb, hholds⟩ := h.covers x hx
    exact ⟨b, hb, hholds.congr (hsize b hb)⟩
  total := by rw [← h.total, List.map_congr_left hsize]

theorem perm (h : Exact start size bs area sum) (hperm : bs.Perm cs) :
    Exact start size cs area sum where
  covers x hx := by
    obtain ⟨b, hb, hholds⟩ := h.covers x hx
    exact ⟨b, hperm.mem_iff.mp hb, hholds⟩
  total := by rw [← h.total, (hperm.map size).sum_eq]

/-- Merging neighbours leaves no address out. -/
theorem merge (h : Exact start size (b :: c :: bs) area sum)
    (hadjacent : start b + size b = start c) (hsum : size' b = size b + size c)
    (hsize : ∀ a ∈ bs, size' a = size a) : Exact start size' (b :: bs) area sum where
  covers x hx := by
    obtain ⟨a, ha, hholds⟩ := h.covers x hx
    unfold Holds at *
    rcases List.mem_cons.mp ha with rfl | ha
    · exact ⟨a, by simp, by omega⟩
    · rcases List.mem_cons.mp ha with rfl | ha
      · exact ⟨b, by simp, by omega⟩
      · exact ⟨a, by simp [ha], by rwa [hsize a ha]⟩
  total := by
    rw [← h.total]
    simp only [List.map_cons, List.sum_cons, hsum, List.map_congr_left hsize]
    omega

/-- Cutting a block leaves no address out. -/
theorem split (h : Exact start size (b :: bs) area sum) (hstart : start c = start b + size' b)
    (hsum : size b = size' b + size' c) (hsize : ∀ a ∈ bs, size' a = size a) :
    Exact start size' (b :: c :: bs) area sum where
  covers x hx := by
    obtain ⟨a, ha, hholds⟩ := h.covers x hx
    unfold Holds at *
    rcases List.mem_cons.mp ha with rfl | ha
    · rcases Nat.lt_or_ge x (start c) with hlt | hge
      · exact ⟨a, by simp, by omega⟩
      · exact ⟨c, by simp, by omega⟩
    · exact ⟨a, by simp [ha], by rwa [hsize a ha]⟩
  total := by
    rw [← h.total]
    simp only [List.map_cons, List.sum_cons, hsum, List.map_congr_left hsize]
    omega

/-- The new block fills the new area. -/
theorem add (h : Exact start size bs area sum)
    (harea : ∀ x, x ∈ area' ↔ x ∈ area ∨ Holds start size' b x)
    (hsize : ∀ a ∈ bs, size' a = size a) :
    Exact start size' (b :: bs) area' (size' b + sum) where
  covers x hx := by
    rcases (harea x).mp hx with hx | hx
    · obtain ⟨a, ha, hholds⟩ := (h.congr hsize).covers x hx
      exact ⟨a, by simp [ha], hholds⟩
    · exact ⟨b, by simp, hx⟩
  total := by rw [List.map_cons, List.sum_cons, (h.congr hsize).total]

end Exact

end Blocks
