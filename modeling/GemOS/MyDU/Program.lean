import GemOS.Base
import GemOS.Lib.Pipes

/-!
# The program `myDU`

`myDU.c` adds up the sizes of a directory tree with one process for each directory. `act` is the
program of a process, one system call with what follows it at a time: `main` and the children start
in `getDirSize`, which calls itself for symbolic links and forks for directories. What the file
system answers is a parameter.
-/

namespace GemOS.MyDU

open Pipes (Action)

def MAX_PATH_LEN : Nat := 4096

/-- The bytes of a string, without the 0 at its end. -/
abbrev Path := List U8

/-- What `getDirSize` tells apart in `st_mode`. -/
inductive FileType where
  | link
  | dir
  | file
  | other
  deriving DecidableEq, Repr

/-- What the system calls answer for a path; `none` and `false` say that they fail. `pipe` is the
call in `getDirSize` for the path, and `fork` the one for an entry. `stale` is what the buffer of
`readlink` holds behind the bytes of the target, up to the first 0: nothing has been stored
there. -/
structure FileSystem where
  stat : Path → Option U64
  lstat : Path → Option FileType
  opendir : Path → Option (List Path)
  readlink : Path → Option Path
  stale : Path → Path
  pipe : Path → Bool
  fork : Path → Bool

/-- `strcmp(d_name, ".") == 0 || strcmp(d_name, "..") == 0`. -/
def isDots (name : Path) : Bool :=
  name = [46] || name = [46, 46]

/-- `snprintf(entry_path, sizeof(entry_path), "%s/%s", dir_path, d_name)`. -/
def entryPath (dirPath name : Path) : Path :=
  (dirPath ++ 47 :: name).take (MAX_PATH_LEN - 1)

/-- A call of `getDirSize`: its variables, and the names that `readdir` has not returned yet. -/
structure Frame where
  dirPath : Path
  dirSize : U64
  pipe : Nat
  entries : List Path

/-- A line on standard output. -/
inductive Line where
  | unable
  | total (size : U64)
  deriving DecidableEq, Repr

/-- How a process has ended. -/
inductive Outcome where
  | exit (code : Int) (line : Option Line)
  | sigpipe
  deriving DecidableEq, Repr

/-- Where a process stands. `callers` are the calls of `getDirSize` that wait for the call for the
target of a symbolic link. -/
inductive Control where
  | start (pipe : Nat) (path : Path)
  | call (path : Path) (callers : List Frame)
  | loop (f : Frame) (callers : List Frame)
  | drain (f : Frame) (callers : List Frame)
  | finish (f : Frame) (callers : List Frame)
  | result (size : U64)
  | sent (pipe : Nat)
  | closed
  | ended (outcome : Outcome)

/-- A process: the pipe of its parent that it reports to, unless it is the first one. -/
structure State where
  report : Option Nat
  control : Control

def State.goto (x : State) (control : Control) : State :=
  { x with control := control }

/-- `printf("Unable to execute\n")` and `exit(-1)`. -/
def unable : Control :=
  .ended (.exit (-1) (some .unable))

/-- The body of the loop over the entries, for one name. -/
def visit (fs : FileSystem) (x : State) (f : Frame) (callers : List Frame) (name : Path) :
    Action State U64 :=
  if isDots name then .tau (x.goto (.loop f callers))
  else
    let path := entryPath f.dirPath name
    match fs.lstat path with
    | none => .exit (x.goto unable)
    | some .link =>
        match fs.readlink path with
        | none => .exit (x.goto unable)
        | some target => .tau (x.goto (.call (target ++ fs.stale path) (f :: callers)))
    | some .dir =>
        if fs.fork path then
          .fork ⟨some f.pipe, .start f.pipe path⟩ (x.goto (.loop f callers))
        else .exit (x.goto unable)
    | some .file =>
        match fs.stat path with
        | none => .exit (x.goto unable)
        | some size => .tau (x.goto (.loop { f with dirSize := f.dirSize + size } callers))
    | some .other => .tau (x.goto (.loop f callers))

/-- What a process does next. -/
def act (fs : FileSystem) (x : State) : Option (Action State U64) :=
  match x.control with
  | .start i path => some (.close .read i (x.goto (.call path [])))
  | .call path callers =>
      match fs.stat path, fs.opendir path, fs.pipe path with
      | some size, some entries, true =>
          some (.pipe fun i => x.goto (.loop ⟨path, size, i, entries⟩ callers))
      | _, _, _ => some (.exit (x.goto unable))
  | .loop f callers =>
      match f.entries with
      | [] => some (.close .write f.pipe (x.goto (.drain f callers)))
      | name :: rest => some (visit fs x { f with entries := rest } callers name)
  | .drain f callers =>
      some (.read f.pipe fun
        | some size => x.goto (.drain { f with dirSize := f.dirSize + size } callers)
        | none => x.goto (.finish f callers))
  | .finish f [] => some (.close .read f.pipe (x.goto (.result f.dirSize)))
  | .finish f (g :: callers) =>
      some (.close .read f.pipe
        (x.goto (.loop { g with dirSize := g.dirSize + f.dirSize } callers)))
  | .result size =>
      match x.report with
      | none => some (.exit (x.goto (.ended (.exit 0 (some (.total size))))))
      | some i => some (.write i size (x.goto (.sent i)) (x.goto (.ended .sigpipe)))
  | .sent i => some (.close .write i (x.goto .closed))
  | .closed => some (.exit (x.goto (.ended (.exit 0 none))))
  | .ended _ => none

/-- `main` with one argument: the only process calls `getDirSize`, and there is no pipe yet. -/
def start (root : Path) : Pipes.System State U64 :=
  ⟨[⟨⟨none, .call root []⟩, []⟩], []⟩

/-- One of the processes goes on. -/
def step (fs : FileSystem) (capacity : Nat) :
    Pipes.System State U64 → Nat → Option (Pipes.System State U64) :=
  Pipes.step (act fs) capacity

end GemOS.MyDU
