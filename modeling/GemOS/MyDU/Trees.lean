import Mathlib.Data.BitVec
import Mathlib.Data.List.DropRight
import GemOS.MyDU.Results

/-!
# Directory trees

A tree of directories, regular files and symbolic links, as the file system has it (`Has`). Where
`getDirSize` finds its way through a tree (`Reads`), its calls have a depth and its result is the
total of the tree. It does so in a tree without links, as the file system shows it when no system
call fails (`Shows`), so the program prints the total of such a tree (`getDirSize_total`).
-/

namespace GemOS.MyDU

open Pipes (Action End Process)

/-! ## Trees -/

/-- Regular files and directories, with the sizes that `stat` gives. -/
inductive Tree where
  | file (name : Path) (size : U64)
  | dir (name : Path) (size : U64) (entries : List Tree)

def Tree.name : Tree → Path
  | .file name _ | .dir name _ _ => name

def Tree.kind : Tree → FileType
  | .file _ _ => .file
  | .dir _ _ _ => .dir

mutual

/-- The sum of all sizes in a tree, each counted once. -/
def Tree.total : Tree → U64
  | .file _ size => size
  | .dir _ size entries => size + totals entries

/-- The sum of the totals of some trees. -/
def totals : List Tree → U64
  | [] => 0
  | t :: rest => t.total + totals rest

end

mutual

/-- The system calls succeed for a tree at some path: `readdir` returns the names of its entries in
any order, with "." and ".." among them or not. -/
def Shows (fs : FileSystem) (path : Path) : Tree → Prop
  | .file _ size => fs.stat path = some size
  | .dir _ size entries => fs.stat path = some size ∧ fs.pipe path = true ∧
      (∃ names, fs.opendir path = some names ∧
        (names.filter fun name => !isDots name).Perm (entries.map Tree.name)) ∧
      ShowsAll fs path entries

/-- The entries of the directory at some path; their paths fit into the buffer. -/
def ShowsAll (fs : FileSystem) (path : Path) : List Tree → Prop
  | [] => True
  | t :: rest =>
      ((path ++ 47 :: t.name).length < MAX_PATH_LEN ∧
        fs.lstat (path ++ 47 :: t.name) = some t.kind ∧
        (t.kind = .dir → fs.fork (path ++ 47 :: t.name) = true) ∧
        Shows fs (path ++ 47 :: t.name) t) ∧ ShowsAll fs path rest

end

/-! ## Trees with symbolic links -/

/-- Regular files, directories and symbolic links, each link with what it leads to. -/
inductive LinkTree where
  | file (name : Path) (size : U64)
  | dir (name : Path) (size : U64) (entries : List LinkTree)
  | link (name target : Path) (content : LinkTree)

def LinkTree.name : LinkTree → Path
  | .file name _ | .dir name _ _ | .link name _ _ => name

def LinkTree.kind : LinkTree → FileType
  | .file _ _ => .file
  | .dir _ _ _ => .dir
  | .link _ _ _ => .link

mutual

/-- The sum of all sizes in a tree, with the total of what it leads to for a link. -/
def LinkTree.total : LinkTree → U64
  | .file _ size => size
  | .dir _ size entries => size + linkTotals entries
  | .link _ _ content => content.total

def linkTotals : List LinkTree → U64
  | [] => 0
  | t :: rest => t.total + linkTotals rest

end

/-- Where a link leads to: a relative target starts from the directory that holds the link. -/
def resolve (path target : Path) : Path :=
  if target.head? = some 47 then target else path.rdropWhile (· ≠ 47) ++ target

mutual

/-- What the file system has at some path, with all links resolved. `readdir` returns the names of
the entries in any order. -/
def Has (fs : FileSystem) (path : Path) : LinkTree → Prop
  | .file _ size => fs.stat path = some size
  | .dir _ size entries => fs.stat path = some size ∧
      (∃ names, fs.opendir path = some names ∧
        (names.filter fun name => !isDots name).Perm (entries.map LinkTree.name)) ∧
      HasAll fs path entries
  | .link _ target content => fs.readlink path = some target ∧ content.kind ≠ .link ∧
      Has fs (resolve path target) content

/-- The entries of the directory at some path. -/
def HasAll (fs : FileSystem) (path : Path) : List LinkTree → Prop
  | [] => True
  | t :: rest => (fs.lstat (path ++ 47 :: t.name) = some t.kind ∧
      Has fs (path ++ 47 :: t.name) t) ∧ HasAll fs path rest

end

mutual

/-- `getDirSize` finds its way through a tree: it gets its pipes and its children, the paths fit
into the buffer, and each link leads to a directory, which is also what the path has that is read
from the link. -/
def Reads (fs : FileSystem) (path : Path) : LinkTree → Prop
  | .file _ _ => True
  | .dir _ _ entries => fs.pipe path = true ∧ ReadsAll fs path entries
  | .link _ target content => content.kind = .dir ∧ Has fs (target ++ fs.stale path) content ∧
      Reads fs (target ++ fs.stale path) content

def ReadsAll (fs : FileSystem) (path : Path) : List LinkTree → Prop
  | [] => True
  | t :: rest => ((path ++ 47 :: t.name).length < MAX_PATH_LEN ∧
      (t.kind = .dir → fs.fork (path ++ 47 :: t.name) = true) ∧
      Reads fs (path ++ 47 :: t.name) t) ∧ ReadsAll fs path rest

end

/-- The path that `getDirSize` is called with for what is at some path. -/
def LinkTree.called (fs : FileSystem) (path : Path) : LinkTree → Option Path
  | .file _ _ => none
  | .dir _ _ _ => some path
  | .link _ target _ => some (target ++ fs.stale path)

variable {fs : FileSystem} {path root q name : Path} {capacity n : Nat} {size : U64}
variable {t : LinkTree} {ts : List LinkTree}

/-- A path that fits into the buffer is not cut off. -/
theorem entryPath_eq (h : (path ++ 47 :: name).length < MAX_PATH_LEN) :
    entryPath path name = path ++ 47 :: name :=
  List.take_of_length_le (Nat.le_sub_one_of_lt h)

theorem LinkTree.called_dir (h : t.kind = .dir) : t.called fs path = some path := by
  cases t with
  | dir _ _ _ => rfl
  | file _ _ | link _ _ _ => cases h

theorem HasAll.entry (h : HasAll fs path ts) (hreads : ReadsAll fs path ts) (ht : t ∈ ts) :
    fs.lstat (entryPath path t.name) = some t.kind ∧
      (t.kind = .dir → fs.fork (entryPath path t.name) = true) ∧
      Has fs (entryPath path t.name) t ∧ Reads fs (entryPath path t.name) t := by
  induction ts with
  | nil => cases ht
  | cons u ts ih =>
      obtain ⟨⟨hlstat, hhas⟩, hrest⟩ := h
      obtain ⟨⟨hlength, hfork, hread⟩, hreads⟩ := hreads
      rcases List.mem_cons.mp ht with rfl | ht
      · rw [entryPath_eq hlength]
        exact ⟨hlstat, hfork, hhas, hread⟩
      · exact ih hrest hreads ht

/-- The entries that `getDirSize` finds are those of the tree. -/
theorem Has.listing (h : Has fs path (.dir name size ts)) :
    (listing fs path).Perm (ts.map fun t => entryPath path t.name) := by
  obtain ⟨_, ⟨names, hopendir, hperm⟩, _⟩ := h
  have := hperm.map (entryPath path)
  rw [List.map_map] at this
  rwa [MyDU.listing, hopendir]

theorem Has.calledFor (h : Has fs path t) (hlstat : fs.lstat path = some t.kind) :
    calledFor fs path = t.called fs path := by
  cases t with
  | file _ _ => exact calledFor_file hlstat
  | dir _ _ _ => exact calledFor_dir hlstat
  | link _ _ _ => exact calledFor_link hlstat h.1

/-! ## The result for a tree -/

mutual

/-- The calls for a tree have a depth. -/
theorem Has.shallow {path : Path} : ∀ t : LinkTree, Has fs path t → Reads fs path t →
    ∃ n, ∀ q, t.called fs path = some q → Shallow fs n q
  | .file _ _, _, _ => ⟨0, nofun⟩
  | .dir _ _ entries, h, hreads => by
      obtain ⟨n, hn⟩ := HasAll.shallow entries h.2.2 hreads.2
      refine ⟨n + 1, fun q hq e he q' hq' => ?_⟩
      obtain rfl := Option.some.inj hq
      obtain ⟨t, ht, rfl⟩ := List.mem_map.mp (h.listing.mem_iff.mp he)
      obtain ⟨hlstat, _, hhas, _⟩ := h.2.2.entry hreads.2 ht
      exact hn t ht q' ((hhas.calledFor hlstat).symm.trans hq')
  | .link _ _ content, _, hreads => by
      obtain ⟨n, hn⟩ := Has.shallow content hreads.2.1 hreads.2.2
      refine ⟨n, fun q hq => hn q ?_⟩
      rw [LinkTree.called_dir hreads.1]
      exact hq

theorem HasAll.shallow {path : Path} : ∀ ts : List LinkTree, HasAll fs path ts →
    ReadsAll fs path ts → ∃ n, ∀ t ∈ ts, ∀ q, t.called fs (entryPath path t.name) = some q →
      Shallow fs n q
  | [], _, _ => ⟨0, fun _ ht => absurd ht List.not_mem_nil⟩
  | t :: rest, h, hreads => by
      obtain ⟨_, _, hhas, hread⟩ := h.entry hreads List.mem_cons_self
      obtain ⟨n, hn⟩ := Has.shallow t hhas hread
      obtain ⟨m, hm⟩ := HasAll.shallow rest h.2 hreads.2
      refine ⟨max n m, fun u hu q hq => ?_⟩
      rcases List.mem_cons.mp hu with rfl | hu
      · exact (hn q hq).mono (Nat.le_max_left _ _)
      · exact (hm u hu q hq).mono (Nat.le_max_right _ _)

end

theorem entriesResult_eq_sum {call : Path → Option U64} {es : List Path} {f : Path → U64}
    (h : ∀ e ∈ es, entryResult fs call e = some (f e)) :
    entriesResult fs call es = some (es.map f).sum := by
  induction es with
  | nil => rfl
  | cons e rest ih =>
      rw [entriesResult, h e List.mem_cons_self, Option.bind_some,
        ih fun e he => h e (List.mem_cons_of_mem _ he)]
      rfl

theorem linkTotals_eq (ts : List LinkTree) : linkTotals ts = (ts.map LinkTree.total).sum := by
  induction ts with
  | nil => rfl
  | cons t rest ih => rw [linkTotals, ih, List.map_cons, List.sum_cons]

/-- The result for a directory from those for its entries, whatever their order is. -/
theorem Has.dir_result (h : Has fs path (.dir name size ts)) (hpipe : fs.pipe path = true)
    (hshallow : Shallow fs n path) (hentries : ∀ t ∈ ts,
      entryResult fs (callResult fs n) (entryPath path t.name) = some t.total) :
    callResult fs n path = some (size + linkTotals ts) := by
  have hlisting := h.listing
  obtain ⟨hstat, ⟨names, hopendir, _⟩, _⟩ := h
  rw [listing_eq hopendir] at hlisting
  have hsum : entriesResult fs (callResult fs n) (entryPaths path names) = some ((entryPaths path
      names).map fun e => (entryResult fs (callResult fs n) e).getD 0).sum := by
    refine entriesResult_eq_sum fun e he => ?_
    obtain ⟨t, ht, rfl⟩ := List.mem_map.mp (hlisting.mem_iff.mp he)
    rw [hentries t ht, Option.getD_some]
  have htotals : (ts.map fun t => (entryResult fs (callResult fs n)
      (entryPath path t.name)).getD 0) = ts.map LinkTree.total :=
    List.map_congr_left fun t ht => by rw [hentries t ht, Option.getD_some]
  rw [callResult_eq hshallow, bodyResult_eq hstat hopendir hpipe, hsum, (hlisting.map _).sum_eq,
    List.map_map, linkTotals_eq, ← htotals]
  rfl

mutual

/-- `getDirSize` adds up the total of a tree. -/
theorem Has.result {path : Path} : ∀ t : LinkTree, Has fs path t → Reads fs path t →
    ∀ q, t.called fs path = some q → Shallow fs n q → callResult fs n q = some t.total
  | .file _ _, _, _, _, hq, _ => nomatch hq
  | .dir _ _ entries, h, hreads, q, hq, hshallow => by
      obtain rfl := Option.some.inj hq
      refine h.dir_result hreads.1 hshallow (HasAll.results entries h.2.2 hreads.2 ?_)
      intro t ht q hq
      obtain ⟨hlstat, _, hhas, _⟩ := h.2.2.entry hreads.2 ht
      refine hshallow.called (h.listing.mem_iff.mpr (List.mem_map_of_mem ht)) ?_
      exact (hhas.calledFor hlstat).trans hq
  | .link _ _ content, _, hreads, q, hq, hshallow => by
      refine Has.result content hreads.2.1 hreads.2.2 q ?_ hshallow
      rw [LinkTree.called_dir hreads.1]
      exact hq

theorem HasAll.results {path : Path} : ∀ ts : List LinkTree, HasAll fs path ts →
    ReadsAll fs path ts → (∀ t ∈ ts, ∀ q, t.called fs (entryPath path t.name) = some q →
      Shallow fs n q) →
    ∀ t ∈ ts, entryResult fs (callResult fs n) (entryPath path t.name) = some t.total
  | [], _, _, _ => fun _ ht => absurd ht List.not_mem_nil
  | t :: rest, h, hreads, hshallow => by
      obtain ⟨hlstat, hfork, hhas, hread⟩ := h.entry hreads List.mem_cons_self
      have hcall := Has.result t hhas hread
      have hrest := HasAll.results rest h.2 hreads.2 fun u hu =>
        hshallow u (List.mem_cons_of_mem _ hu)
      intro u hu
      rcases List.mem_cons.mp hu with rfl | hu
      · cases u with
        | file name size => exact (entryResult_file hlstat).trans hhas
        | dir name size entries =>
            rw [entryResult_dir hlstat (hfork rfl),
              hcall _ rfl (hshallow _ List.mem_cons_self _ rfl), Option.getD_some]
        | link name target content =>
            rw [entryResult_link hlstat hhas.1]
            exact hcall _ rfl (hshallow _ List.mem_cons_self _ rfl)
      · exact hrest u hu

end

/-- The program prints the total of a tree that `getDirSize` finds its way through. -/
theorem endsWith_total (h : Has fs root t) (hreads : Reads fs root t) (hdir : t.kind = .dir)
    (hcapacity : 0 < capacity) :
    EndsWith fs capacity root (· = .exit 0 (some (.total t.total))) := by
  have hcalled : t.called fs root = some root := LinkTree.called_dir hdir
  obtain ⟨n, hn⟩ := h.shallow t hreads
  have hshallow := hn root hcalled
  exact (endsWith_total_iff hshallow hcapacity).mpr (h.result t hreads root hcalled hshallow)

/-! ## Trees without links -/

mutual

/-- A tree as one that could have links. -/
def Tree.plain : Tree → LinkTree
  | .file name size => .file name size
  | .dir name size entries => .dir name size (plains entries)

def plains : List Tree → List LinkTree
  | [] => []
  | t :: rest => t.plain :: plains rest

end

theorem Tree.plain_name (t : Tree) : t.plain.name = t.name := by
  cases t <;> rfl

theorem Tree.plain_kind (t : Tree) : t.plain.kind = t.kind := by
  cases t <;> rfl

theorem plains_names (ts : List Tree) : (plains ts).map LinkTree.name = ts.map Tree.name := by
  induction ts with
  | nil => rfl
  | cons t rest ih => rw [plains, List.map_cons, List.map_cons, ih, t.plain_name]

mutual

theorem Tree.plain_total : ∀ t : Tree, t.plain.total = t.total
  | .file _ _ => rfl
  | .dir _ size entries => congrArg (size + ·) (plains_totals entries)

theorem plains_totals : ∀ ts : List Tree, linkTotals (plains ts) = totals ts
  | [] => rfl
  | t :: rest => congrArg₂ (· + ·) t.plain_total (plains_totals rest)

end

mutual

/-- `getDirSize` finds its way through a tree without links. -/
theorem Shows.plain {path : Path} : ∀ t : Tree, Shows fs path t →
    Has fs path t.plain ∧ Reads fs path t.plain
  | .file _ _, h => ⟨h, trivial⟩
  | .dir _ _ entries, h => by
      obtain ⟨hstat, hpipe, ⟨names, hopendir, hperm⟩, hentries⟩ := h
      obtain ⟨hhas, hreads⟩ := ShowsAll.plains entries hentries
      rw [← plains_names] at hperm
      exact ⟨⟨hstat, ⟨names, hopendir, hperm⟩, hhas⟩, hpipe, hreads⟩

theorem ShowsAll.plains {path : Path} : ∀ ts : List Tree, ShowsAll fs path ts →
    HasAll fs path (plains ts) ∧ ReadsAll fs path (plains ts)
  | [], _ => ⟨trivial, trivial⟩
  | t :: rest, h => by
      obtain ⟨⟨hlength, hlstat, hfork, hshown⟩, hrest⟩ := h
      obtain ⟨hhas, hreads⟩ := Shows.plain t hshown
      obtain ⟨hhas_rest, hreads_rest⟩ := ShowsAll.plains rest hrest
      rw [← t.plain_name] at hlength hlstat hfork hhas hreads
      rw [← t.plain_kind] at hlstat hfork
      exact ⟨⟨⟨hlstat, hhas⟩, hhas_rest⟩, ⟨hlength, hfork, hreads⟩, hreads_rest⟩

end

/-- In every order of the processes, the program ends and prints the sum of all sizes in the tree,
each counted once. -/
theorem getDirSize_total {ts : List Tree} (h : Shows fs root (.dir name size ts))
    (hcapacity : 0 < capacity) :
    EndsWith fs capacity root
      (· = .exit 0 (some (.total (Tree.dir name size ts).total))) := by
  obtain ⟨hhas, hreads⟩ := h.plain (.dir name size ts)
  rw [← Tree.plain_total]
  exact endsWith_total hhas hreads rfl hcapacity

/-- The directory "a" has a directory "a/c", which is empty, and a file "a/b". -/
def sample : FileSystem where
  stat path := some (if path = [97, 47, 98] then 5 else 4096)
  lstat path := some (if path = [97, 47, 98] then .file else .dir)
  opendir path := some (if path = [97] then [[46], [99], [98]] else [])
  readlink _ := none
  stale _ := []
  pipe _ := true
  fork _ := true

theorem sample_shows :
    Shows sample [97] (.dir [97] 4096 [.file [98] 5, .dir [99] 4096 []]) := by
  refine ⟨rfl, rfl, ⟨_, rfl, by decide⟩, ⟨by decide, rfl, nofun, rfl⟩,
    ⟨by decide, rfl, fun _ => rfl, rfl, rfl, ⟨[], rfl, by decide⟩, trivial⟩, trivial⟩

theorem getDirSize_total_sample :
    EndsWith sample 8192 [97] (· = .exit 0 (some (.total 8197))) :=
  getDirSize_total sample_shows (by decide)

end GemOS.MyDU
