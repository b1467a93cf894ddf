import Nyx.CreateDirAllStep
import Nyx.Text

/-! `nyx_core::paths`: the directories Nyx keeps below a root, and `ensure_layout`, which makes
all of them. -/
namespace Nyx.Layout
open FileTree Interaction Text
open CreateDirAll (IoError)

structure NyxPaths where
  root : Path OsStr

/-- The names a literal path is made of; no literal has an empty one, or one of dots. -/
def names (p : String) : List OsStr := ((p.toList.dropWhile (· = '/')).splitOn '/').map Utf8.encode

namespace NyxPaths

def system : NyxPaths := ⟨⟨true, [], false⟩⟩

variable (paths : NyxPaths)

/-- `self.root.join(p.trim_start_matches('/'))` -/
def join (p : String) : Path OsStr := (names p).foldl Path.join paths.root

def etcDir : Path OsStr := paths.join "etc/nyx"

def confD : Path OsStr := paths.etcDir.join (bytes "conf.d")

def reposD : Path OsStr := paths.etcDir.join (bytes "repos.d")

def policiesD : Path OsStr := paths.etcDir.join (bytes "policies.d")

def profilesDir : Path OsStr := paths.etcDir.join (bytes "profiles")

def packagesD : Path OsStr := paths.etcDir.join (bytes "packages.d")

def libDir : Path OsStr := paths.join "var/lib/nyx"

def alpmDbDir : Path OsStr := paths.libDir.join (bytes "alpm")

def transactionsDir : Path OsStr := paths.libDir.join (bytes "transactions")

def baselinesDir : Path OsStr := paths.libDir.join (bytes "baselines")

def snapshotsDir : Path OsStr := paths.libDir.join (bytes "snapshots")

def locksDir : Path OsStr := paths.libDir.join (bytes "locks")

def cacheDir : Path OsStr := paths.join "var/cache/nyx"

def pkgCacheDir : Path OsStr := paths.cacheDir.join (bytes "pkg")

def scanCacheDir : Path OsStr := paths.cacheDir.join (bytes "scan")

def mirrorsCacheDir : Path OsStr := paths.cacheDir.join (bytes "mirrors")

def indexesCacheDir : Path OsStr := paths.cacheDir.join (bytes "indexes")

/-- The directories `ensure_layout` makes, in its order. -/
def dirs : List (Path OsStr) :=
  [paths.etcDir, paths.confD, paths.reposD, paths.policiesD, paths.profilesDir, paths.packagesD,
    paths.libDir, paths.alpmDbDir, paths.transactionsDir, paths.baselinesDir, paths.snapshotsDir,
    paths.locksDir, paths.cacheDir, paths.pkgCacheDir, paths.scanCacheDir, paths.mirrorsCacheDir,
    paths.indexesCacheDir]

end NyxPaths

/-- One directory is being made, and others come after it. -/
inductive Stage
  | making (s : CreateDirAll.Stage OsStr) (rest : List (Path OsStr))
  | done (r : Except IoError Unit)
  deriving DecidableEq

/-- The loop: the next directory when the last one is made, and no other after an error. -/
def next : CreateDirAll.Stage OsStr → List (Path OsStr) → Stage
  | .done (.ok _), [] => .done (.ok ())
  | .done (.ok _), dir :: rest => next (CreateDirAll.start dir) rest
  | .done (.error e), _ => .done (.error e)
  | s, rest => .making s rest

@[simp] theorem next_mkdir (d : Path OsStr) (below : List (Path OsStr)) (again : Bool)
    (rest : List (Path OsStr)) :
    next (.mkdir d below again) rest = .making (.mkdir d below again) rest := by
  cases rest <;> rfl

@[simp] theorem next_isDir (d : Path OsStr) (below : List (Path OsStr)) (again : Bool)
    (e : ErrorKind) (rest : List (Path OsStr)) :
    next (.isDir d below again e) rest = .making (.isDir d below again e) rest := by
  cases rest <;> rfl

@[simp] theorem next_error (e : IoError) (rest : List (Path OsStr)) :
    next (.done (.error e)) rest = .done (.error e) := by
  cases rest <;> rfl

def start (paths : NyxPaths) : Stage := next (.done (.ok ())) paths.dirs

def issue : Stage → Option (Request OsStr)
  | .making s _ => CreateDirAll.issue s
  | .done _ => none

def resume : Stage → Reply OsStr → Stage
  | .making s rest, r => next (CreateDirAll.resume s r) rest
  | .done r, _ => .done r

def program : Program (Request OsStr) (Reply OsStr) Stage := ⟨issue, resume⟩

/-- `ensure_layout` over a file tree, the choices fixing how far it gets. -/
def ensureLayout (paths : NyxPaths) (cwd : Loc OsStr) (ks : List Choice) (t : Volume OsStr) :
    Config Choice (Request OsStr) (Reply OsStr) (Volume OsStr) Stage :=
  run program (Volume.respond cwd) ⟨t, start paths, []⟩ ks

/-- The root is a lexical prefix of the path, which is not the empty one. -/
structure Below (paths : NyxPaths) (d : Path OsStr) : Prop where
  rooted : d.rooted = paths.root.rooted
  comps : paths.root.comps <:+ d.comps
  named : d.isEmpty = false

theorem Below.join {paths : NyxPaths} {d : Path OsStr} (h : Below paths d) (x : OsStr) :
    Below paths (d.join x) where
  rooted := h.rooted
  comps := h.comps.trans (List.suffix_cons _ _)
  named := by simp [Path.isEmpty, Path.join]

theorem below_foldl {paths : NyxPaths} {p : Path OsStr} {xs : List OsStr}
    (h : Below paths p) : Below paths (xs.foldl Path.join p) := by
  induction xs generalizing p with
  | nil => exact h
  | cons x xs ih => exact ih (h.join x)

theorem below_join (paths : NyxPaths) {p : String} (hp : names p ≠ []) :
    Below paths (paths.join p) := by
  unfold NyxPaths.join
  cases hx : names p with
  | nil => exact absurd hx hp
  | cons x xs =>
    have hfirst : Below paths (paths.root.join x) :=
      ⟨rfl, List.suffix_cons _ _, by simp [Path.isEmpty, Path.join]⟩
    rw [List.foldl_cons]
    exact below_foldl hfirst

theorem dirs_below (paths : NyxPaths) : ∀ d ∈ paths.dirs, Below paths d := by
  have hetc : Below paths paths.etcDir := below_join paths (by decide +kernel)
  have hlib : Below paths paths.libDir := below_join paths (by decide +kernel)
  have hcache : Below paths paths.cacheDir := below_join paths (by decide +kernel)
  simp only [NyxPaths.dirs, List.forall_mem_cons]
  exact ⟨hetc, hetc.join _, hetc.join _, hetc.join _, hetc.join _, hetc.join _, hlib, hlib.join _,
    hlib.join _, hlib.join _, hlib.join _, hlib.join _, hcache, hcache.join _, hcache.join _,
    hcache.join _, hcache.join _, fun d hd => absurd hd List.not_mem_nil⟩

/-- How many more requests there can be. -/
def cost : Stage → ℕ
  | .making s rest => CreateDirAll.cost s + (rest.map fun d => 3 * d.comps.length + 2).sum
  | .done _ => 0

def budget (paths : NyxPaths) : ℕ := (paths.dirs.map fun d => 3 * d.comps.length + 2).sum

theorem cost_next (s : CreateDirAll.Stage OsStr) (rest : List (Path OsStr)) :
    cost (next s rest) ≤
      CreateDirAll.cost s + (rest.map fun d => 3 * d.comps.length + 2).sum := by
  induction rest generalizing s with
  | nil =>
    cases s with
    | mkdir | isDir => exact le_rfl
    | done r => cases r <;> exact Nat.zero_le _
  | cons d rest ih =>
    cases s with
    | mkdir | isDir => exact le_rfl
    | done r =>
      cases r with
      | error e => exact Nat.zero_le _
      | ok u =>
        have hstart := CreateDirAll.cost_start d
        have hnext := ih (CreateDirAll.start d)
        rw [List.map_cons, List.sum_cons]
        simp only [next, CreateDirAll.cost]
        omega

theorem cost_start (paths : NyxPaths) : cost (start paths) ≤ budget paths := by
  have h := cost_next (.done (.ok ())) paths.dirs
  rwa [CreateDirAll.cost, Nat.zero_add] at h

theorem cost_pos {s : Stage} {r : Request OsStr} (h : issue s = some r) : 0 < cost s := by
  cases s with
  | making s rest => exact Nat.add_pos_left (CreateDirAll.cost_pos h) _
  | done x => cases h

theorem cost_resume {s : Stage} {r : Request OsStr} (h : issue s = some r) {a : Reply OsStr}
    (ha : a = .ok ∨ ∃ e, a = .err e) : cost (resume s a) < cost s := by
  cases s with
  | making s rest =>
    exact (cost_next _ rest).trans_lt (Nat.add_lt_add_right (CreateDirAll.cost_resume h ha) _)
  | done x => cases h

end Nyx.Layout
