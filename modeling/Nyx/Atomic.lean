import Nyx.CreateDirAll
import Nyx.Text

/-! `nyx_core::atomic::write_atomic` as a program: one stage for every point at which the
code is about to ask the kernel for something. -/
namespace Nyx.Atomic
open FileTree Interaction Text
open CreateDirAll (IoError)

/-- A call: its arguments, the process id and clock it will read (none: a clock before
the epoch), and the working directory its relative paths start from. -/
structure Call where
  path : Path OsStr
  data : Bytes
  pid : UInt32
  clock : Option ℕ
  cwd : Loc OsStr

/-- `format!(".{file_name}.{pid}.{nanos}.tmp")` -/
def tmpName (fileName : OsStr) (pid : UInt32) (nanos : ℕ) : OsStr :=
  bytes "." ++ fileName ++ bytes "." ++ decimal pid.toNat ++ bytes "." ++ decimal nanos ++
    bytes ".tmp"

namespace Call

/-- `path.file_name().and_then(|n| n.to_str())` -/
def fileName (c : Call) : Option OsStr :=
  c.path.fileName.bind fun n => (toStr n).map fun _ => n

def nanos (c : Call) : ℕ := c.clock.getD 0

/-- `path.parent()`; without one the call ends before it uses `dir`. -/
def dir (c : Call) : Path OsStr := c.path.parent.getD c.path

/-- `dir.join(..)`; without a file name the call ends before it uses `tmp_path`. -/
def tmpPath (c : Call) : Path OsStr :=
  c.dir.join (tmpName (c.fileName.getD []) c.pid c.nanos)

def target (c : Call) : Loc OsStr := c.path.loc c.cwd

def tmp (c : Call) : Loc OsStr := c.tmpPath.loc c.cwd

end Call

inductive Stage
  | mkdirs (s : CreateDirAll.Stage OsStr)
  | create
  | write (ino off : ℕ)
  | flush (ino : ℕ)
  | sync (ino : ℕ)
  | rename
  | openDir
  | syncDir (h : Handle OsStr)
  | done (r : Except IoError Unit)
  deriving DecidableEq

/-- The file name is looked at only when the directories are there. -/
def mkdirs (c : Call) : CreateDirAll.Stage OsStr → Stage
  | .done (.ok _) =>
    if c.fileName.isSome then .create
    else .done (.error (.custom .invalidInput "invalid filename"))
  | .done (.error e) => .done (.error e)
  | s => .mkdirs s

def start (c : Call) : Stage :=
  match c.path.parent with
  | none => .done (.error (.custom .invalidInput "path has no parent"))
  | some dir => mkdirs c (CreateDirAll.start dir)

def writeAll (c : Call) (ino off : ℕ) : Stage :=
  if off < c.data.length then .write ino off else .flush ino

def issue (c : Call) : Stage → Option (Request OsStr)
  | .mkdirs s => CreateDirAll.issue s
  | .create => some (.create c.tmpPath)
  | .write i off => some (.write i off (c.data.drop off))
  | .flush i => some (.flush i)
  | .sync i => some (.fsync (.file i))
  | .rename => some (.rename c.tmpPath c.path)
  | .openDir => some (.openFile c.dir)
  | .syncDir h => some (.fsync h)
  | .done _ => none

def resume (c : Call) : Stage → Reply OsStr → Stage
  | .mkdirs s, r => mkdirs c (CreateDirAll.resume s r)
  | .create, .opened (.file i) => writeAll c i 0
  | .create, .err e => .done (.error (.os e))
  | .write i off, .wrote n =>
    if n = 0 then .done (.error (.custom .writeZero "failed to write whole buffer"))
    else writeAll c i (off + n)
  | .write i off, .err e => if e = .interrupted then .write i off else .done (.error (.os e))
  | .flush i, .ok => .sync i
  | .flush _, .err e => .done (.error (.os e))
  | .sync _, .ok => .rename
  | .sync _, .err e => .done (.error (.os e))
  | .rename, .ok => .openDir
  | .rename, .err e => .done (.error (.os e))
  -- a directory that cannot be opened or synced is passed over
  | .openDir, .opened h => .syncDir h
  | .openDir, .err _ => .done (.ok ())
  | .syncDir _, _ => .done (.ok ())
  | s, _ => s

def program (c : Call) : Program (Request OsStr) (Reply OsStr) Stage := ⟨issue c, resume c⟩

abbrev Run (σ : Type) := Config Choice (Request OsStr) (Reply OsStr) σ Stage

/-- A call over a bare file tree, the choices fixing how far it gets. -/
def call (c : Call) (ks : List Choice) (t : Volume OsStr) : Run (Volume OsStr) :=
  run (program c) (Volume.respond c.cwd) ⟨t, start c, []⟩ ks

/-- The rename of the log succeeded. -/
def renamed (log : List (Request OsStr × Choice × Reply OsStr)) : Bool :=
  log.any fun e => match e with
    | (.rename _ _, _, .ok) => true
    | _ => false

def created (log : List (Request OsStr × Choice × Reply OsStr)) : Bool :=
  log.any fun e => match e with
    | (.create _, _) => true
    | _ => false

end Nyx.Atomic
