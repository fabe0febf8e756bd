import GemOS.Lib.CopyOnWrite
import GemOS.Vm.ForkPages

/-!
# What processes see in memory

The pages of processes as holders of frames. An edit of the page tables that gives one page a new
frame moves this page and no other, and an edit that keeps all frames shows nothing.
-/

namespace GemOS.Vm

open CopyOnWrite (Store Moved)

variable {a : FrameAlloc} {m m' : Machine} {t : Tables} {r pgd f n : Nat} {x y : U64}
variable {e e' : Entry} {roots : Set Nat} {pgds : Finset Nat} {pages : List U64} {prot : CInt}
variable {c : BitVec 12 → U8} {accessFlags : U32}

/-- The 4096 bytes that a process sees on the page of an address. -/
def contents (m : Machine) (r : Nat) (x : U64) : Option (BitVec 12 → U8) :=
  (walk m.table r x).map fun e => m.page e.pfn

/-- Pages refer to frames, and may be written if their last-level entry says so. -/
def Machine.store (m : Machine) : Store (Nat × Nat) Nat (BitVec 12 → U8) where
  ref q := frameOf m.table q.1 (pageAddr q.2)
  mem := m.page
  writable q := ∃ e, walk m.table q.1 (pageAddr q.2) = some e ∧ e.writable = true

/-- All pages of some processes. -/
def pagesOf (roots : Set Nat) : Set (Nat × Nat) :=
  {q | q.1 ∈ roots ∧ q.2 < PAGES}

/-- The page of an address is one of the pages of its process. -/
theorem mem_pagesOf (hr : r ∈ roots) : (r, pageOf x) ∈ pagesOf roots :=
  ⟨hr, pageOf_lt x⟩

/-- The frame of a page in the store. -/
theorem store_ref : m.store.ref (r, pageOf x) = frameOf m.table r x :=
  frameOf_congr (pageOf_pageAddr (pageOf_lt x))

/-- What the store calls writable. -/
theorem store_writable :
    m.store.writable (r, pageOf x) ↔ ∃ e, walk m.table r x = some e ∧ e.writable = true := by
  show (∃ e, walk m.table r (pageAddr (pageOf x)) = some e ∧ _) ↔ _
  rw [walk_congr (pageOf_pageAddr (pageOf_lt x))]

/-- The contents of a page are those of its frame. -/
theorem contents_eq_frame : contents m r x = (frameOf m.table r x).map m.page := by
  rw [contents, frameOf, Option.map_map]
  rfl

/-- The contents of a page are what the store shows. -/
theorem contents_eq : contents m r x = m.store.view (r, pageOf x) := by
  rw [contents_eq_frame, Store.view, store_ref]
  rfl

/-- The contents of a page that a walk finds. -/
theorem contents_of_walk (h : walk m.table r x = some e) :
    contents m r x = some (m.page e.pfn) := by
  rw [contents, h, Option.map_some]

/-- All addresses of a page have the same contents. -/
theorem contents_page (h : pageOf x = pageOf y) : contents m r x = contents m r y := by
  rw [contents, contents, walk_congr h]

/-- Pages with the same frame have the same contents, if no byte has changed. -/
theorem contents_congr (hpage : m'.page = m.page)
    (hframe : frameOf m'.table pgd y = frameOf m.table r x) :
    contents m' pgd y = contents m r x := by
  rw [contents_eq_frame, contents_eq_frame, hpage, hframe]

/-- The pages with contents are those that are present. -/
theorem contents_isSome : (contents m r x).isSome = (walk m.table r x).isSome := by
  rw [contents, Option.isSome_map]

/-- The frames of the pages that are present are in use. -/
def FramesUsed (roots : Set Nat) (m : Machine) : Prop :=
  ∀ r x f, r ∈ roots → frameOf m.table r x = some f → f ∈ m.frames.pagesUsed

/-- With exact counts, the frames behind the pages have been handed out. -/
theorem RefsExact.framesUsed (h : RefsExact pgds m) : FramesUsed pgds m :=
  fun _ _ _ hr hf => (h.frames.used _).mpr (holders_pos hr hf)

/-- A new frame is behind no page. -/
theorem FramesUsed.fresh (h : FramesUsed roots m) (ha : a.Ample) (hr : r ∈ roots) :
    frameOf m.table r x ≠ some (a.allocPage m).1 := by
  intro hf
  rw [ha.allocPage_eq] at hf
  exact ha.page _ (ha.some_page _) (h r x _ hr hf)

/-- Two addresses on one page of a process, or not. -/
theorem page_ne {q : Nat × Nat} (hq : q ∈ pagesOf roots) (hne : q ≠ (r, pageOf x)) :
    ¬ (q.1 = r ∧ pageOf (pageAddr q.2) = pageOf x) := by
  intro h
  obtain ⟨hroot, hpage⟩ := h
  rw [pageOf_pageAddr hq.2] at hpage
  exact hne (Prod.ext hroot hpage)

/-- A last-level entry with a frame that no page was mapped to: its page has moved. -/
theorem LeafSet.moved_fresh (h : LeafSet roots Set.univ m.table m'.table pgd x e)
    (hfresh : ∀ r ∈ roots, ∀ y, Vm.frameOf m.table r y ≠ some n) (href : e.ref = some n)
    (hpage : m'.page = Function.update m.page n c) :
    Moved (pagesOf roots) m.store m'.store (pgd, pageOf x) n c := by
  obtain ⟨hpresent, hpfn⟩ := Entry.ref_eq_some.mp href
  have hother : ∀ q ∈ pagesOf roots, q ≠ (pgd, pageOf x) →
      Vm.walk m'.table q.1 (pageAddr q.2) = Vm.walk m.table q.1 (pageAddr q.2) := fun q hq hne =>
    h.walk_other hq.1 (Set.mem_univ _) (page_ne hq hne)
  refine ⟨fun q hq => hfresh q.1 hq.1 _, ?_, fun q hq hne => ?_, ?_, fun o ho => ?_,
    fun q hq hne => ?_⟩
  · rw [store_ref, frameOf_of_walk (h.walk hpresent), hpfn]
  · exact congrArg (Option.map Entry.pfn) (hother q hq hne)
  · show m'.page _ = c
    rw [hpage, Function.update_self]
  · show m'.page o = m.page o
    rw [hpage, Function.update_of_ne ho]
  · intro h'
    obtain ⟨e, he, hw⟩ := h'
    exact ⟨e, (hother q hq hne).symm.trans he, hw⟩

/-- Setting a leaf to a new frame moves the page in the store. -/
theorem LeafSet.moved (h : LeafSet roots Set.univ m.table m'.table pgd x e)
    (hused : FramesUsed roots m) (ha : a.Ample) (href : e.ref = some (a.allocPage m).1)
    (hpage : m'.page = Function.update m.page (a.allocPage m).1 c) :
    Moved (pagesOf roots) m.store m'.store (pgd, pageOf x) (a.allocPage m).1 c :=
  h.moved_fresh (fun _ hr _ => hused.fresh ha hr) href hpage

/-- The contents of a page that was moved. -/
theorem contents_of_moved (h : Moved (pagesOf roots) m.store m'.store (pgd, pageOf x) n c) :
    contents m' pgd x = some c :=
  contents_eq.trans h.view

/-- The other pages show what they did. -/
theorem contents_of_moved_other
    (h : Moved (pagesOf roots) m.store m'.store (pgd, pageOf x) n c)
    (hr : r ∈ roots) (hne : ¬ (r = pgd ∧ pageOf y = pageOf x)) :
    contents m' r y = contents m r y := by
  rw [contents_eq, contents_eq]
  exact h.view_other (mem_pagesOf hr) fun heq => hne (Prod.mk.inj heq)

end GemOS.Vm
