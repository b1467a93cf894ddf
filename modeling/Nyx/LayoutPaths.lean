import Nyx.PathBuf
import Nyx.SystemOutside

/-! `nyx_core::paths::NyxPaths` over the bytes a root is written with: where all its paths lie,
and that no process at work below a root comes near what belongs to pacman there. -/
namespace Nyx.LayoutPaths
open FileTree Interaction Text PathBuf
open CreateDirAll (Above)
open Hash (Blake3)

structure NyxPaths where
  root : OsStr

namespace NyxPaths

def system : NyxPaths := ⟨bytes "/"⟩

variable (paths : NyxPaths)

/-- `self.root.join(p.trim_start_matches('/'))` -/
def join (p : String) : OsStr :=
  push paths.root (bytes (String.ofList (p.toList.dropWhile (· = '/'))))

def etcDir : OsStr := paths.join "etc/nyx"

def mainConfig : OsStr := push paths.etcDir (bytes "nyx.toml")

def confD : OsStr := push paths.etcDir (bytes "conf.d")

def reposD : OsStr := push paths.etcDir (bytes "repos.d")

def policiesD : OsStr := push paths.etcDir (bytes "policies.d")

def profilesDir : OsStr := push paths.etcDir (bytes "profiles")

def packagesD : OsStr := push paths.etcDir (bytes "packages.d")

def libDir : OsStr := paths.join "var/lib/nyx"

def alpmDbDir : OsStr := push paths.libDir (bytes "alpm")

def transactionsDir : OsStr := push paths.libDir (bytes "transactions")

def baselinesDir : OsStr := push paths.libDir (bytes "baselines")

def snapshotsDir : OsStr := push paths.libDir (bytes "snapshots")

def locksDir : OsStr := push paths.libDir (bytes "locks")

def cacheDir : OsStr := paths.join "var/cache/nyx"

def pkgCacheDir : OsStr := push paths.cacheDir (bytes "pkg")

def scanCacheDir : OsStr := push paths.cacheDir (bytes "scan")

def mirrorsCacheDir : OsStr := push paths.cacheDir (bytes "mirrors")

def indexesCacheDir : OsStr := push paths.cacheDir (bytes "indexes")

def legacyPacmanConf : OsStr := paths.join "etc/pacman.conf"

def legacyPacmanLib : OsStr := paths.join "var/lib/pacman"

def legacyPacmanCache : OsStr := paths.join "var/cache/pacman/pkg"

/-- The directories `ensure_layout` makes, in its order. -/
def dirs : List OsStr :=
  [paths.etcDir, paths.confD, paths.reposD, paths.policiesD, paths.profilesDir, paths.packagesD,
    paths.libDir, paths.alpmDbDir, paths.transactionsDir, paths.baselinesDir, paths.snapshotsDir,
    paths.locksDir, paths.cacheDir, paths.pkgCacheDir, paths.scanCacheDir, paths.mirrorsCacheDir,
    paths.indexesCacheDir]

/-- The directories that all the others are in. -/
def homes : List OsStr := [paths.etcDir, paths.libDir, paths.cacheDir]

def legacy : List OsStr :=
  [paths.legacyPacmanConf, paths.legacyPacmanLib, paths.legacyPacmanCache]

def all : List OsStr := paths.dirs ++ paths.mainConfig :: paths.legacy

/-- The layout as the kernel reads it. -/
def read : Layout.NyxPaths := ⟨parse paths.root⟩

end NyxPaths

/-- A literal that is joined to the root adds its names to what the root is read as. -/
theorem parse_join (paths : NyxPaths) {p : String}
    (hplain : Plain (bytes (String.ofList (p.toList.dropWhile (· = '/')))))
    (hnames : pieces (bytes (String.ofList (p.toList.dropWhile (· = '/')))) = Layout.names p) :
    parse (paths.join p) = paths.read.join p := by
  rw [NyxPaths.join, parse_push _ hplain, hnames]
  rfl

instance decidablePlain (q : OsStr) : Decidable (Plain q) :=
  inferInstanceAs (Decidable (∀ x ∈ pieces q, component x = some (.normal x)))

theorem parse_etcDir (paths : NyxPaths) : parse paths.etcDir = paths.read.etcDir :=
  parse_join paths (by decide +kernel) (by decide +kernel)

theorem parse_libDir (paths : NyxPaths) : parse paths.libDir = paths.read.libDir :=
  parse_join paths (by decide +kernel) (by decide +kernel)

theorem parse_cacheDir (paths : NyxPaths) : parse paths.cacheDir = paths.read.cacheDir :=
  parse_join paths (by decide +kernel) (by decide +kernel)

/-- Whatever bytes the root is made of, the directories are those of the layout of what it is
read as. -/
theorem parse_dirs (paths : NyxPaths) : paths.dirs.map parse = paths.read.dirs := by
  have hname : ∀ (d : OsStr) (x : String), Plain (bytes x) ∧ pieces (bytes x) = [bytes x] →
      parse (push d (bytes x)) = (parse d).join (bytes x) := by
    rintro d x ⟨hplain, hpieces⟩
    rw [parse_push d hplain, hpieces]
    rfl
  simp only [NyxPaths.dirs, Layout.NyxPaths.dirs, List.map_cons, List.map_nil, parse_etcDir,
    parse_libDir, parse_cacheDir, NyxPaths.confD, NyxPaths.reposD, NyxPaths.policiesD,
    NyxPaths.profilesDir, NyxPaths.packagesD, NyxPaths.alpmDbDir, NyxPaths.transactionsDir,
    NyxPaths.baselinesDir, NyxPaths.snapshotsDir, NyxPaths.locksDir, NyxPaths.pkgCacheDir,
    NyxPaths.scanCacheDir, NyxPaths.mirrorsCacheDir, NyxPaths.indexesCacheDir]
  simp (disch := decide +kernel) only [hname, parse_etcDir, parse_libDir, parse_cacheDir]
  rfl

section Places
variable {base cwd l : Loc OsStr} {comps up : List (Component OsStr)}

theorem locate_normal (base : Loc OsStr) (xs : List OsStr) (comps : List (Component OsStr)) :
    Path.locate base (xs.map .normal ++ comps) = xs ++ Path.locate base comps := by
  induction xs with
  | nil => rfl
  | cons x xs ih => exact congrArg (x :: ·) ih

/-- Names lead straight down from where they start. -/
theorem locate_down {xs : List OsStr} (h : up <:+ xs.map .normal ++ comps) :
    up <:+ comps ∨ Path.locate base up <:+ xs ++ Path.locate base comps := by
  induction xs with
  | nil => exact Or.inl h
  | cons x xs ih =>
    rcases List.suffix_cons_iff.mp h with rfl | h
    · exact Or.inr (locate_normal base (x :: xs) comps ▸ List.suffix_refl _)
    · exact (ih h).imp_right fun h => h.trans (List.suffix_cons _ _)

theorem locate_straight (hd : .parentDir ∉ comps) (h : up <:+ comps) :
    Path.locate base up <:+ Path.locate base comps := by
  induction comps with
  | nil =>
    rw [List.suffix_nil.mp h]
  | cons c comps ih =>
    rw [List.mem_cons, not_or] at hd
    rcases List.suffix_cons_iff.mp h with rfl | h
    · exact List.suffix_refl _
    · have hrest := ih hd.2 h
      cases c with
      | normal x => exact hrest.trans (List.suffix_cons _ _)
      | curDir => exact hrest
      | parentDir => exact absurd rfl hd.1

theorem parse_push_comps (p : OsStr) {q : OsStr} (hq : Plain q) :
    parse (push p q) =
      ⟨(parse p).rooted, (pieces q).reverse.map .normal ++ (parse p).comps, false⟩ := by
  rw [parse_push p hq, foldl_join (pieces_ne_nil q), List.map_reverse]

theorem loc_push (p : OsStr) {q : OsStr} (hq : Plain q) (cwd : Loc OsStr) :
    (parse (push p q)).loc cwd = (pieces q).reverse ++ (parse p).loc cwd := by
  rw [parse_push_comps p hq]
  exact locate_normal _ _ _

theorem loc_suffix_push (p : OsStr) {q : OsStr} (hq : Plain q) (cwd : Loc OsStr) :
    (parse p).loc cwd <:+ (parse (push p q)).loc cwd := by
  rw [loc_push p hq]
  exact List.suffix_append _ _

/-- The way to a plain path that was pushed leads to where it was pushed, and straight down
from there. -/
theorem above_push {p q : OsStr} (hq : Plain q) (h : Above (parse (push p q)) cwd l) :
    Above (parse p) cwd l ∨ l <:+ (parse (push p q)).loc cwd := by
  obtain ⟨up, hup, rfl⟩ := h
  rw [loc_push p hq]
  rw [parse_push_comps p hq] at hup ⊢
  exact (locate_down hup).imp_left fun h => ⟨up, h, rfl⟩

end Places

theorem suffix_append_inj {α : Type} {xs ys zs : List α} (h : xs ++ zs <:+ ys ++ zs) :
    xs <:+ ys := by
  rw [← List.reverse_prefix] at h ⊢
  rwa [List.reverse_append, List.reverse_append, List.prefix_append_right_inj] at h

/-- All the paths lie below the root as they lie below the empty one. -/
theorem loc_all (paths : NyxPaths) (cwd : Loc OsStr) :
    paths.all.map (fun d => (parse d).loc cwd) =
      (NyxPaths.all ⟨[]⟩).map fun d => (parse d).loc [] ++ (parse paths.root).loc cwd := by
  have hempty : (parse []).loc [] = [] := by decide +kernel
  have hpush : ∀ (p : OsStr) (x : String) (cwd : Loc OsStr), Plain (bytes x) →
      (parse (push p (bytes x))).loc cwd = (pieces (bytes x)).reverse ++ (parse p).loc cwd :=
    fun p x cwd hx => loc_push p hx cwd
  simp (disch := decide +kernel) only [NyxPaths.all, NyxPaths.dirs, NyxPaths.legacy,
    NyxPaths.mainConfig, NyxPaths.confD, NyxPaths.reposD, NyxPaths.policiesD, NyxPaths.profilesDir,
    NyxPaths.packagesD, NyxPaths.alpmDbDir, NyxPaths.transactionsDir, NyxPaths.baselinesDir,
    NyxPaths.snapshotsDir, NyxPaths.locksDir, NyxPaths.pkgCacheDir, NyxPaths.scanCacheDir,
    NyxPaths.mirrorsCacheDir, NyxPaths.indexesCacheDir, NyxPaths.etcDir, NyxPaths.libDir,
    NyxPaths.cacheDir, NyxPaths.legacyPacmanConf, NyxPaths.legacyPacmanLib,
    NyxPaths.legacyPacmanCache, NyxPaths.join, List.map_cons, List.map_nil, List.cons_append,
    List.nil_append, hpush, hempty, List.append_assoc]

/-- Whatever bytes the root is made of and wherever the program runs, the directories are read
as the layout below what the root is read as, and the paths lead to places of their own, all
properly below the place of the root. -/
theorem places_distinct (paths : NyxPaths) (cwd : Loc OsStr) :
    paths.dirs.map parse = paths.read.dirs ∧
      (paths.all.map fun d => (parse d).loc cwd).Nodup ∧
      ∀ d ∈ paths.all, ∃ xs, xs ≠ [] ∧ (parse d).loc cwd = xs ++ (parse paths.root).loc cwd := by
  have htable : ((NyxPaths.all ⟨[]⟩).map fun d => (parse d).loc []).Nodup ∧
      ∀ d ∈ NyxPaths.all ⟨[]⟩, (parse d).loc [] ≠ [] := by decide +kernel
  refine ⟨parse_dirs paths, ?_, fun d hd => ?_⟩
  · have hmoved := htable.1.map (f := (· ++ (parse paths.root).loc cwd))
      fun _ _ h => List.append_cancel_right h
    rw [List.map_map] at hmoved
    rw [loc_all]
    exact hmoved
  · have hmem : (parse d).loc cwd ∈ paths.all.map fun d => (parse d).loc cwd :=
      List.mem_map_of_mem hd
    rw [loc_all, List.mem_map] at hmem
    obtain ⟨e, he, hloc⟩ := hmem
    exact ⟨_, htable.2 e he, hloc.symm⟩

/-- The names that lead from the root to the three homes, innermost first. -/
def homeNames : List (List OsStr) :=
  [[bytes "nyx", bytes "etc"], [bytes "nyx", bytes "lib", bytes "var"],
    [bytes "nyx", bytes "cache", bytes "var"]]

def legacyNames : List (List OsStr) :=
  [[bytes "pacman.conf", bytes "etc"], [bytes "pacman", bytes "lib", bytes "var"],
    [bytes "pkg", bytes "pacman", bytes "cache", bytes "var"]]

section Root
variable (paths : NyxPaths) (cwd : Loc OsStr)

theorem loc_join (p : String) (xs : List OsStr)
    (hplain : Plain (bytes (String.ofList (p.toList.dropWhile (· = '/')))))
    (hxs : (pieces (bytes (String.ofList (p.toList.dropWhile (· = '/'))))).reverse = xs) :
    (parse (paths.join p)).loc cwd = xs ++ (parse paths.root).loc cwd := by
  rw [NyxPaths.join, loc_push _ hplain, hxs]

theorem loc_homes : paths.homes.map (fun d => (parse d).loc cwd) =
    homeNames.map (· ++ (parse paths.root).loc cwd) := by
  have hetc : (parse paths.etcDir).loc cwd = _ :=
    loc_join paths cwd "etc/nyx" [bytes "nyx", bytes "etc"] (by decide +kernel) (by decide +kernel)
  have hlib : (parse paths.libDir).loc cwd = _ :=
    loc_join paths cwd "var/lib/nyx" [bytes "nyx", bytes "lib", bytes "var"] (by decide +kernel)
      (by decide +kernel)
  have hcache : (parse paths.cacheDir).loc cwd = _ :=
    loc_join paths cwd "var/cache/nyx" [bytes "nyx", bytes "cache", bytes "var"]
      (by decide +kernel) (by decide +kernel)
  simp only [NyxPaths.homes, homeNames, List.map_cons, List.map_nil, hetc, hlib, hcache]

theorem loc_legacy : paths.legacy.map (fun d => (parse d).loc cwd) =
    legacyNames.map (· ++ (parse paths.root).loc cwd) := by
  have hconf : (parse paths.legacyPacmanConf).loc cwd = _ :=
    loc_join paths cwd "etc/pacman.conf" [bytes "pacman.conf", bytes "etc"] (by decide +kernel)
      (by decide +kernel)
  have hlib : (parse paths.legacyPacmanLib).loc cwd = _ :=
    loc_join paths cwd "var/lib/pacman" [bytes "pacman", bytes "lib", bytes "var"]
      (by decide +kernel) (by decide +kernel)
  have hcache : (parse paths.legacyPacmanCache).loc cwd = _ :=
    loc_join paths cwd "var/cache/pacman/pkg" [bytes "pkg", bytes "pacman", bytes "cache", bytes "var"]
      (by decide +kernel) (by decide +kernel)
  simp only [NyxPaths.legacy, legacyNames, List.map_cons, List.map_nil, hconf, hlib, hcache]

variable {paths cwd} {home own : OsStr} {l k : Loc OsStr}

/-- No place is both in a home of Nyx and in what belongs to pacman. -/
theorem homes_apart (hhome : home ∈ paths.homes) (hown : own ∈ paths.legacy)
    (hk : (parse home).loc cwd <:+ k) : ¬(parse own).loc cwd <:+ k := by
  intro hk'
  have hmem : (parse home).loc cwd ∈ paths.homes.map fun d => (parse d).loc cwd :=
    List.mem_map_of_mem hhome
  have hmem' : (parse own).loc cwd ∈ paths.legacy.map fun d => (parse d).loc cwd :=
    List.mem_map_of_mem hown
  rw [loc_homes, List.mem_map] at hmem
  rw [loc_legacy, List.mem_map] at hmem'
  obtain ⟨xs, hxs, hhome⟩ := hmem
  obtain ⟨ys, hys, hown⟩ := hmem'
  rw [← hhome] at hk
  rw [← hown] at hk'
  have hne : ∀ xs ∈ homeNames, ∀ ys ∈ legacyNames, ¬xs <:+ ys ∧ ¬ys <:+ xs := by decide +kernel
  rcases List.suffix_or_suffix_of_suffix hk hk' with h | h
  · exact (hne xs hxs ys hys).1 (suffix_append_inj h)
  · exact (hne xs hxs ys hys).2 (suffix_append_inj h)

theorem homes_push (h : home ∈ paths.homes) : ∃ q, Plain q ∧ home = push paths.root q := by
  simp only [NyxPaths.homes, List.mem_cons, List.not_mem_nil, or_false] at h
  rcases h with rfl | rfl | rfl
  · exact ⟨bytes "etc/nyx", by decide +kernel, rfl⟩
  · exact ⟨bytes "var/lib/nyx", by decide +kernel, rfl⟩
  · exact ⟨bytes "var/cache/nyx", by decide +kernel, rfl⟩

theorem dirs_homes : ∀ d ∈ paths.dirs, ∃ home ∈ paths.homes,
    d = home ∨ ∃ q, Plain q ∧ d = push home q := by
  have hetc : paths.etcDir ∈ paths.homes := by simp [NyxPaths.homes]
  have hlib : paths.libDir ∈ paths.homes := by simp [NyxPaths.homes]
  have hcache : paths.cacheDir ∈ paths.homes := by simp [NyxPaths.homes]
  have hname : ∀ (home : OsStr) (x : String), home ∈ paths.homes → Plain (bytes x) →
      ∃ h ∈ paths.homes, push home (bytes x) = h ∨ ∃ q, Plain q ∧ push home (bytes x) = push h q :=
    fun home x hhome hx => ⟨home, hhome, Or.inr ⟨_, hx, rfl⟩⟩
  simp only [NyxPaths.dirs, List.forall_mem_cons]
  exact ⟨⟨_, hetc, Or.inl rfl⟩, hname _ _ hetc (by decide +kernel), hname _ _ hetc (by decide +kernel),
    hname _ _ hetc (by decide +kernel), hname _ _ hetc (by decide +kernel),
    hname _ _ hetc (by decide +kernel), ⟨_, hlib, Or.inl rfl⟩, hname _ _ hlib (by decide +kernel),
    hname _ _ hlib (by decide +kernel), hname _ _ hlib (by decide +kernel),
    hname _ _ hlib (by decide +kernel), hname _ _ hlib (by decide +kernel),
    ⟨_, hcache, Or.inl rfl⟩, hname _ _ hcache (by decide +kernel),
    hname _ _ hcache (by decide +kernel), hname _ _ hcache (by decide +kernel),
    hname _ _ hcache (by decide +kernel), fun d hd => absurd hd List.not_mem_nil⟩

/-- On the way to the root, or on the way from a home of Nyx to a place in it. -/
def Near (paths : NyxPaths) (cwd l : Loc OsStr) : Prop :=
  Above (parse paths.root) cwd l ∨
    ∃ home ∈ paths.homes, ∃ k, (parse home).loc cwd <:+ k ∧ l <:+ k

theorem near_home (hhome : home ∈ paths.homes) (h : Above (parse home) cwd l) :
    Near paths cwd l := by
  obtain ⟨q, hq, hpush⟩ := homes_push hhome
  rw [hpush] at h
  refine (above_push hq h).imp_right fun h => ⟨home, hhome, _, List.suffix_refl _, ?_⟩
  rwa [hpush]

theorem near_covers (h : Layout.Covers paths.read cwd l) : Near paths cwd l := by
  obtain ⟨d, hd, habove⟩ := h
  rw [← parse_dirs, List.mem_map] at hd
  obtain ⟨d, hd, rfl⟩ := hd
  obtain ⟨home, hhome, rfl | ⟨q, hq, rfl⟩⟩ := dirs_homes d hd
  · exact near_home hhome habove
  · rcases above_push hq habove with habove | hsuffix
    · exact near_home hhome habove
    · exact Or.inr ⟨home, hhome, _, loc_suffix_push home hq cwd, hsuffix⟩

theorem near_write {c : Atomic.Call} (hcwd : c.cwd = cwd) (hhome : home ∈ paths.homes)
    {q : OsStr} (hq : Plain q) (hpath : c.path = parse (push home q))
    (h : (System.Task.write c).Reaches l) : Near paths cwd l := by
  obtain ⟨x, xs, hxs⟩ := List.exists_cons_of_ne_nil
    (List.reverse_ne_nil_iff.mpr (pieces_ne_nil q))
  rw [parse_push_comps home hq, hxs, List.map_cons, List.cons_append] at hpath
  have hname : c.path.fileName = some x := by rw [hpath]; rfl
  have hdir : c.dir = ⟨(parse home).rooted, xs.map .normal ++ (parse home).comps, false⟩ := by
    rw [Atomic.Call.dir_comps (by simp [hname]), hpath]
    rfl
  have hloc : c.dir.loc c.cwd = xs ++ (parse home).loc cwd := by
    rw [hdir, hcwd]
    exact locate_normal _ _ _
  have hinside : ∀ y, Near paths cwd (y :: c.dir.loc c.cwd) := fun y => by
    refine Or.inr ⟨home, hhome, _, ?_, List.suffix_refl _⟩
    rw [hloc]
    exact (List.suffix_append _ _).trans (List.suffix_cons _ _)
  rcases h with h | rfl | rfl
  · obtain ⟨up, hup, rfl⟩ := h
    rw [hdir] at hup ⊢
    rw [hcwd]
    rcases locate_down hup with hup | hdown
    · exact near_home hhome ⟨up, hup, rfl⟩
    · exact Or.inr ⟨home, hhome, _, List.suffix_append _ _, hdown⟩
  · exact hinside _
  · rw [Atomic.Call.target_eq_of_path hname]
    exact hinside x

end Root

/-- The process works for what is installed at the root: it makes the layout, or writes a file
somewhere in a home of Nyx, or hashes any file there is. -/
def Works (paths : NyxPaths) (cwd : Loc OsStr) : System.Task → Prop
  | .layout ps d => ps = paths.read ∧ d = cwd
  | .write c => c.cwd = cwd ∧ ∃ home ∈ paths.homes, ∃ q, Plain q ∧ c.path = parse (push home q)
  | .hash .. => True

/-- The way to the root leads through nothing that is pacman's below the root. -/
def Clear (paths : NyxPaths) (cwd : Loc OsStr) : Prop :=
  ∀ l, Above (parse paths.root) cwd l → ∀ own ∈ paths.legacy, ¬(parse own).loc cwd <:+ l

/-- So it is for every root that is written without a step up. -/
theorem clear_straight {paths : NyxPaths} (h : .parentDir ∉ (parse paths.root).comps)
    (cwd : Loc OsStr) : Clear paths cwd := by
  rintro l ⟨up, hup, rfl⟩ own hown hsuffix
  have hlen := (hsuffix.trans (locate_straight h hup)).length_le
  have hmem : (parse own).loc cwd ∈ paths.legacy.map fun d => (parse d).loc cwd :=
    List.mem_map_of_mem hown
  rw [loc_legacy, List.mem_map] at hmem
  obtain ⟨ys, hys, hloc⟩ := hmem
  have hpos : ∀ ys ∈ legacyNames, 0 < ys.length := by decide +kernel
  have hshort : (parse own).loc cwd = ys ++ Path.locate _ _ := hloc.symm
  rw [hshort, List.length_append] at hlen
  have hys := hpos ys hys
  omega

theorem outside_legacy {ι : Type} {paths : NyxPaths} {cwd : Loc OsStr} (hclear : Clear paths cwd)
    {tasks : ι → System.Task} (h : ∀ i, Works paths cwd (tasks i)) {own : OsStr}
    (hown : own ∈ paths.legacy) {l : Loc OsStr} (hl : (parse own).loc cwd <:+ l) :
    System.Outside tasks l := by
  intro i hreaches
  have hnear : Near paths cwd l := by
    have hi := h i
    cases htask : tasks i with
    | layout ps d =>
      rw [htask] at hi hreaches
      obtain ⟨rfl, rfl⟩ := hi
      exact near_covers hreaches
    | write c =>
      rw [htask] at hi hreaches
      obtain ⟨hcwd, home, hhome, q, hq, hpath⟩ := hi
      exact near_write hcwd hhome hq hpath hreaches
    | hash path d =>
      rw [htask] at hreaches
      exact hreaches.elim
  rcases hnear with habove | ⟨home, hhome, k, hk, hlk⟩
  · exact hclear l habove own hown hl
  · exact homes_apart hhome hown hk (hl.trans hlk)

/-- A system that pacman is in use on. -/
def installed : Volume OsStr :=
  ((Volume.empty.apply (.mkdir [bytes "etc"])).apply
    (.create [bytes "pacman.conf", bytes "etc"])).apply (.write 0 [1, 2])

/-- One process makes the layout, and another one writes the configuration. -/
def staff (i : Bool) : System.Task :=
  if i then .write ⟨parse NyxPaths.system.mainConfig, [3], 7, some 12, []⟩
  else .layout NyxPaths.system.read []

/-- The process that makes the layout is killed, the other one gets as far as it can. -/
def busy : List (Move Bool Choice) :=
  [.act false (.go 0), .act true (.go 1), .act false (.go 0), .kill false] ++
    List.replicate 12 (.act true (.go 1))

end Nyx.LayoutPaths
