import GemOS.MyDU.Failures
import GemOS.MyDU.Trees

/-!
# Symbolic links

For a symbolic link, `getDirSize` calls itself with what it has read from the link. `opendir` fails
if that is the path of a regular file; a relative target is taken from the working directory instead
of the directory that holds the link; and no 0 is put behind the bytes of the target. The program
prints the total of a tree with links if the paths that it reads lead to the directories that the
links lead to (`getDirSize_follows_links`).
-/

namespace GemOS.MyDU

variable {fs : FileSystem} {root name : Path} {capacity : Nat} {size : U64}
variable {entries : List LinkTree}

/-- In every order of the processes, the program prints the total of a tree, with what links lead to
in place of the links, if `getDirSize` finds its way through the tree; and only if no system call of
the first process fails, such as `opendir` for a link to a regular file. -/
theorem getDirSize_follows_links (h : Has fs root (.dir name size entries))
    (hcapacity : 0 < capacity) :
    (Reads fs root (.dir name size entries) → EndsWith fs capacity root
      (· = .exit 0 (some (.total (LinkTree.dir name size entries).total)))) ∧
    (FiniteCalls fs root → EndsWith fs capacity root
      (· = .exit 0 (some (.total (LinkTree.dir name size entries).total))) →
        ¬ TopFails fs root) := by
  constructor
  · intro hreads
    exact endsWith_total h hreads rfl hcapacity
  · intro hfinite hends htop
    obtain ⟨n, hshallow⟩ := hfinite
    have hresult := (endsWith_total_iff hshallow hcapacity).mp hends
    rw [(callResult_eq_none_iff hshallow).mpr htop] at hresult
    cases hresult

/-- The directory "a" has a link "a/l" to the directory "/d", which has a file "/d/f". -/
def linked : FileSystem where
  stat path := some (if path = [97] then 4096 else if path = [47, 100] then 10 else 5)
  lstat path := some (if path = [97, 47, 108] then .link
    else if path = [47, 100, 47, 102] then .file else .dir)
  opendir path := if path = [97] then some [[46], [108]]
    else if path = [47, 100] then some [[102], [46, 46]] else none
  readlink path := if path = [97, 47, 108] then some [47, 100] else none
  stale _ := []
  pipe _ := true
  fork _ := true

theorem linked_has : Has linked [97]
    (.dir [97] 4096 [.link [108] [47, 100] (.dir [100] 10 [.file [102] 5])]) := by
  refine ⟨rfl, ⟨_, rfl, by decide⟩, ⟨rfl, rfl, by decide, ?_⟩, trivial⟩
  exact ⟨rfl, ⟨_, rfl, by decide⟩, ⟨rfl, rfl⟩, trivial⟩

theorem linked_reads : Reads linked [97]
    (.dir [97] 4096 [.link [108] [47, 100] (.dir [100] 10 [.file [102] 5])]) := by
  refine ⟨rfl, ⟨by decide, nofun, rfl, ?_, ?_⟩, trivial⟩
  · exact ⟨rfl, ⟨_, rfl, by decide⟩, ⟨rfl, rfl⟩, trivial⟩
  · exact ⟨rfl, ⟨by decide, nofun, trivial⟩, trivial⟩

theorem getDirSize_follows_links_sample :
    EndsWith linked 8192 [97] (· = .exit 0 (some (.total 4111))) :=
  (getDirSize_follows_links linked_has (by decide)).1 linked_reads

/-- The directory "a" has a link "a/l" to the file "/f". -/
def linkedFile : FileSystem where
  stat path := some (if path = [97] then 4096 else 5)
  lstat path := some (if path = [97, 47, 108] then .link
    else if path = [47, 102] then .file else .dir)
  opendir path := if path = [97] then some [[46], [108]] else none
  readlink path := if path = [97, 47, 108] then some [47, 102] else none
  stale _ := []
  pipe _ := true
  fork _ := true

/-- The program opens "/f" as a directory, and prints an error in place of the total. -/
theorem link_to_file_fails :
    Has linkedFile [97] (.dir [97] 4096 [.link [108] [47, 102] (.file [102] 5)]) ∧
      ¬ EndsWith linkedFile 8192 [97] (· = .exit 0 (some (.total 4101))) := by
  constructor
  · exact ⟨rfl, ⟨_, rfl, by decide⟩, ⟨rfl, rfl, by decide, rfl⟩, trivial⟩
  · intro h
    have hrun : Runs.run (step linkedFile 8192) (start [97]) [0, 0, 0, 0] =
        some ⟨[⟨⟨none, unable⟩, []⟩], [⟨0, []⟩]⟩ := rfl
    obtain ⟨p, o, hp, ho, hgood⟩ :=
      h.outcome _ _ hrun (Pipes.stuck_of_ended (by simp [act, unable]))
    obtain rfl := Option.some.inj hp
    obtain rfl := Control.ended.inj ho
    cases hgood

end GemOS.MyDU
