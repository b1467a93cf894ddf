import Nyx.FileTree
import Nyx.Interaction

/-! `std::fs::create_dir_all` as a program: the recursion on the parent is a climb that
stacks up the paths still to be made, then a descent over that stack. -/
namespace Nyx.CreateDirAll
open FileTree Interaction

/-- `std::io::Error`: an error of the kernel, or one the code makes up. -/
inductive IoError
  | os (kind : ErrorKind)
  | custom (kind : ErrorKind) (message : String)
  deriving DecidableEq, Repr

def IoError.kind : IoError → ErrorKind
  | .os k | .custom k _ => k

inductive Stage (N : Type)
  | mkdir (d : Path N) (below : List (Path N)) (again : Bool)
  | isDir (d : Path N) (below : List (Path N)) (again : Bool) (e : ErrorKind)
  | done (r : Except IoError Unit)
  deriving DecidableEq

variable {N : Type}

/-- The directory just made or found; the second `mkdir` of the next caller follows. -/
def descend : List (Path N) → Stage N
  | [] => .done (.ok ())
  | d :: below => .mkdir d below true

def climb (d : Path N) (below : List (Path N)) : Stage N :=
  match d.parent with
  | none => .done (.error (.custom .other "failed to create whole tree"))
  | some p => if p.isEmpty then descend (d :: below) else .mkdir p (d :: below) false

def start (d : Path N) : Stage N := if d.isEmpty then .done (.ok ()) else .mkdir d [] false

def issue : Stage N → Option (Request N)
  | .mkdir d _ _ => some (.mkdir d)
  | .isDir d _ _ _ => some (.isDir d)
  | .done _ => none

def resume : Stage N → Reply N → Stage N
  | .mkdir _ below _, .ok => descend below
  | .mkdir d below again, .err e =>
    if again = false ∧ e = .notFound then climb d below else .isDir d below again e
  | .isDir _ below _ _, .ok => descend below
  | .isDir _ _ _ e, .err _ => .done (.error (.os e))
  | s, _ => s

def program : Program (Request N) (Reply N) (Stage N) := ⟨issue, resume⟩

/-- Only directories are made, and only where nothing was. -/
theorem outcome_issue (t : Volume N) (cwd : Loc N) (ch : Choice) {s : Stage N} {r : Request N}
    (h : issue s = some r) : (t.outcome cwd ch r).2 = .none ∨
      ∃ d below again, s = .mkdir d below again ∧ (t.outcome cwd ch r).2 = .mkdir (d.loc cwd) ∧
        t.entry (d.loc cwd) = none := by
  cases s with
  | mkdir d below again =>
    obtain rfl : .mkdir d = r := Option.some.inj h
    rcases t.outcome_mkdir cwd ch d with ⟨e, he⟩ | ⟨he, hd, -⟩
    · exact Or.inl (by rw [he])
    · exact Or.inr ⟨d, below, again, rfl, by rw [he], hd⟩
  | isDir d below again e =>
    obtain rfl : .isDir d = r := Option.some.inj h
    rcases t.outcome_isDir cwd ch d with ⟨e, he⟩ | ⟨he, -⟩ <;>
      exact Or.inl (by rw [he])
  | done r => cases h

end Nyx.CreateDirAll
