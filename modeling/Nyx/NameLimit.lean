import Nyx.FileTree

/-! A file system that keeps names up to some length only: a request that comes upon a longer
one fails there, and nothing else is different. Which names are too long is a parameter. -/
namespace Nyx.NameLimit
open FileTree

section Limit
variable {N : Type} (long : N → Bool)

def tooLong : Component N → Bool
  | .normal x => long x
  | .parentDir | .curDir => false

/-- What stands above the outermost name that is too long. -/
def upTo : List (Component N) → Option (List (Component N))
  | [] => none
  | c :: up => (upTo up).or (if tooLong long c then some up else none)

/-- The error of a path with such a name: that of the walk to it, or else the name's own. -/
def refusal (t : Image N) (cwd : Loc N) (p : Path N) : Option ErrorKind :=
  (upTo long p.comps).map fun up => (t.walk (p.start cwd) up).getD .other

def paths : Request N → List (Path N)
  | .mkdir p | .isDir p | .create p | .openFile p => [p]
  | .rename a b => [a, b]
  | .write .. | .flush _ | .fsync _ => []

def outcome (t : Volume N) (cwd : Loc N) : Choice → Request N → Reply N × Change N
  | .fail e, _ => (.err e, .none)
  | .go n, r =>
    match (paths r).findSome? (refusal long t.toImage cwd) with
    | some e => (.err e, .none)
    | none => t.plan cwd n r

def respond [DecidableEq N] (cwd : Loc N) (ch : Choice) (r : Request N) (t : Volume N) :
    Reply N × Volume N :=
  ((outcome long t cwd ch r).1, t.apply (outcome long t cwd ch r).2)

def Fits (p : Path N) : Prop := ∀ c ∈ p.comps, tooLong long c = false

end Limit

section Fits
variable {N : Type} {long : N → Bool} {t : Volume N} {cwd : Loc N}

theorem upTo_fits {cs : List (Component N)} (h : ∀ c ∈ cs, tooLong long c = false) :
    upTo long cs = none := by
  induction cs with
  | nil => rfl
  | cons c up ih =>
    rw [upTo, ih fun d hd => h d (List.mem_cons_of_mem _ hd), h c List.mem_cons_self]
    rfl

theorem refusal_fits {p : Path N} (h : Fits long p) : refusal long t.toImage cwd p = none := by
  rw [refusal, upTo_fits h]
  rfl

/-- A name that is too long is refused where the path above it is not. -/
theorem refusal_join {p : Path N} (h : Fits long p) {x : N} (hx : long x = true) :
    refusal long t.toImage cwd (p.join x) = some ((t.walk (p.start cwd) p.comps).getD .other) := by
  have hup : upTo long (.normal x :: p.comps) = some p.comps := by
    rw [upTo, upTo_fits h, tooLong, hx]
    rfl
  rw [refusal, Path.join, hup]
  rfl

/-- Where all names are short the limit is not noticed. -/
theorem outcome_fits {r : Request N} (h : ∀ p ∈ paths r, Fits long p) (ch : Choice) :
    outcome long t cwd ch r = t.outcome cwd ch r := by
  cases ch with
  | fail e => rfl
  | go n =>
    have hnone : (paths r).findSome? (refusal long t.toImage cwd) = none :=
      List.findSome?_eq_none_iff.mpr fun p hp => refusal_fits (h p hp)
    rw [outcome, hnone]
    rfl

/-- A request by handle comes upon no name. -/
theorem outcome_pathless {r : Request N} (h : paths r = []) (ch : Choice) :
    outcome long t cwd ch r = t.outcome cwd ch r :=
  outcome_fits (fun _ hp => absurd (h ▸ hp) List.not_mem_nil) ch

theorem outcome_long {p : Path N} {e : ErrorKind} (h : refusal long t.toImage cwd p = some e) (n : ℕ) :
    outcome long t cwd (.go n) (.create p) = (.err e, .none) := by
  simp [outcome, paths, h]

theorem Fits.join {p : Path N} (h : Fits long p) {x : N} (hx : long x = false) :
    Fits long (p.join x) :=
  List.forall_mem_cons.mpr ⟨hx, h⟩

theorem Fits.of_suffix {p q : Path N} (h : Fits long p) (hq : q.comps <:+ p.comps) : Fits long q :=
  fun c hc => h c (hq.subset hc)

end Fits

end Nyx.NameLimit
