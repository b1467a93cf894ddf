import Nyx.LayoutTree
import Nyx.Modes

/-! The modes of the directories `ensure_layout` makes. It asks for no mode of its own, so
each is asked for with 0777. -/
namespace Nyx.Layout
open FileTree Interaction Text
open CreateDirAll (IoError Grown)

/-- `ensure_layout` under a umask, over directories with modes. -/
def ensureLayoutModed (paths : NyxPaths) (cwd : Loc OsStr) (umask : BitVec 9) (ks : List Choice)
    (t : Moded OsStr) : Config Choice (Request OsStr) (Reply OsStr) (Moded OsStr) Stage :=
  run program (Moded.respond cwd umask) ⟨t, start paths, []⟩ ks

section Run
variable (paths : NyxPaths) (cwd : Loc OsStr) (umask : BitVec 9) (ks : List Choice)
  (t : Moded OsStr)

/-- The modes change nothing about how a run goes. -/
theorem ensureLayoutModed_tree : ensureLayout paths cwd ks t.tree =
    (ensureLayoutModed paths cwd umask ks t).map Moded.tree :=
  run_map (Moded.respond_tree cwd umask) ⟨t, start paths, []⟩ ks

theorem ensureLayoutModed_stage : (ensureLayout paths cwd ks t.tree).stage =
    (ensureLayoutModed paths cwd umask ks t).stage := by
  rw [ensureLayoutModed_tree paths cwd umask]
  rfl

theorem inherits_step {paths : NyxPaths} {cwd : Loc OsStr} {t w : Moded OsStr} {s : Stage}
    {r : Request OsStr} (hrun : Running paths cwd t.tree w.tree s) (hr : issue s = some r)
    (ch : Choice) (h : Moded.Inherits umask t w) :
    Moded.Inherits umask t (w.apply umask (w.tree.outcome cwd ch r).2) := by
  cases s with
  | making s rest =>
    rcases CreateDirAll.outcome_issue w.tree cwd ch hr with hx | ⟨d, below, again, rfl, hx, hd⟩
    · rw [hx]
      exact h
    · obtain ⟨x, p, hl, hp, hn⟩ := CreateDirAll.inside_of_mkdir (s := .mkdir d below again) hr hx
      have hbefore : t.tree.entry (x :: p) = none := by
        rcases hrun.grown.entry (x :: p) with h1 | ⟨h1, -⟩
        · rw [← h1, hn]
        · exact h1
      rw [hx, hl]
      exact h.mkdir (by rw [hp]; exact Option.some_ne_none _) hbefore
  | done x => cases hr

theorem runningModed : Running paths cwd t.tree (ensureLayoutModed paths cwd umask ks t).world.tree
      (ensureLayoutModed paths cwd umask ks t).stage ∧
    Moded.Inherits umask t (ensureLayoutModed paths cwd umask ks t).world := by
  refine run_invariant
    (fun c : Config _ _ _ (Moded OsStr) _ =>
      Running paths cwd t.tree c.world.tree c.stage ∧ Moded.Inherits umask t c.world)
    (fun c k r hr h => ?_) ⟨t, start paths, []⟩ ks
    ⟨running_start paths cwd t.tree, Moded.inherits_refl umask t⟩
  rw [advance_issued hr]
  exact ⟨h.1.step hr k, inherits_step umask h.1 hr k h.2⟩

end Run

/-- After `ensure_layout` has returned Ok, the directories of the layout that were missing
have mode 0755, and those that were there the one they had, if and only if none was missing,
or the umask is 022 and none that was missing came to lie below a set-group-id directory. -/
theorem ensureLayout_modes (paths : NyxPaths) (cwd : Loc OsStr) (umask : BitVec 9)
    (ks : List Choice) (t : Moded OsStr)
    (hok : (ensureLayoutModed paths cwd umask ks t).stage = .done (.ok ())) :
    ((∀ d ∈ paths.dirs, t.tree.entry (d.loc cwd) = none →
        (ensureLayoutModed paths cwd umask ks t).world.mode (d.loc cwd) =
          ⟨false, false, false, 0o755#9⟩) ∧
      ∀ l, t.tree.entry l = some .dir →
        (ensureLayoutModed paths cwd umask ks t).world.mode l = t.mode l) ↔
    ∀ d ∈ paths.dirs, t.tree.entry (d.loc cwd) = none →
      umask = 0o022#9 ∧ (t.mode (t.tree.nearest (d.loc cwd))).setgid = false := by
  obtain ⟨hrun, hmodes⟩ := runningModed paths cwd umask ks t
  rw [hok] at hrun
  have hkept : ∀ l, t.tree.entry l = some .dir →
      (ensureLayoutModed paths cwd umask ks t).world.mode l = t.mode l := by
    intro l hl
    rw [hmodes l (by rw [hrun.grown.dir hl]; exact Option.some_ne_none _),
      if_neg (by rw [hl]; exact Option.some_ne_none _)]
  have hnew : ∀ d ∈ paths.dirs, t.tree.entry (d.loc cwd) = none →
      (ensureLayoutModed paths cwd umask ks t).world.mode (d.loc cwd) =
        (t.mode (t.tree.nearest (d.loc cwd))).inherited umask := by
    intro d hd hnone
    have hthere := hrun.filled ⟨d, hd, CreateDirAll.above_self d cwd⟩
    rw [hmodes _ (by rw [hthere]; exact Option.some_ne_none _), if_pos hnone]
  rw [and_iff_left hkept]
  refine forall₂_congr fun d hd => forall_congr' fun hnone => ?_
  rw [hnew d hd hnone, Mode.inherited_eq]
  rfl

/-- An empty tree whose root has mode 0755. -/
def bare : Moded OsStr := ⟨.empty, fun _ => ⟨false, false, false, 0o755#9⟩⟩

theorem plenty_bare (umask : BitVec 9) :
    (ensureLayoutModed .system [] umask plenty bare).stage = .done (.ok ()) := by
  have hok : (ensureLayout .system [] plenty bare.tree).stage = .done (.ok ()) :=
    ensureLayout_succeeds Volume.rooted_empty Volume.rooted_empty.root
      (fun _ _ l _ i => free_of_next rfl l i) undisturbed_plenty budget_plenty
  rwa [ensureLayoutModed_stage .system [] umask plenty bare] at hok

theorem alpmDbDir_missing : NyxPaths.system.alpmDbDir ∈ NyxPaths.system.dirs ∧
    bare.tree.entry (NyxPaths.system.alpmDbDir.loc []) = none := by
  refine ⟨?_, by decide +kernel⟩
  rw [NyxPaths.dirs]
  simp

theorem ensureLayout_modes_bare :
    (ensureLayoutModed .system [] 0o022#9 plenty bare).world.mode
      (NyxPaths.system.alpmDbDir.loc []) = ⟨false, false, false, 0o755#9⟩ :=
  ((ensureLayout_modes .system [] 0o022#9 plenty bare (plenty_bare _)).mpr
    fun _ _ _ => ⟨rfl, rfl⟩).1 _ alpmDbDir_missing.1 alpmDbDir_missing.2

/-- Under the umask 0 the package database directory can be written by everyone. -/
theorem alpmDbDir_world_writable :
    (ensureLayoutModed .system [] 0#9 plenty bare).stage = .done (.ok ()) ∧
      (ensureLayoutModed .system [] 0#9 plenty bare).world.mode
        (NyxPaths.system.alpmDbDir.loc []) = ⟨false, false, false, 0o777#9⟩ ∧
      ¬ ∀ d ∈ NyxPaths.system.dirs, bare.tree.entry (d.loc []) = none →
        (ensureLayoutModed .system [] 0#9 plenty bare).world.mode (d.loc []) =
          ⟨false, false, false, 0o755#9⟩ := by
  obtain ⟨hmem, hnone⟩ := alpmDbDir_missing
  have hmode : (ensureLayoutModed .system [] 0#9 plenty bare).world.mode
      (NyxPaths.system.alpmDbDir.loc []) = ⟨false, false, false, 0o777#9⟩ := by
    obtain ⟨hrun, hmodes⟩ := runningModed .system [] 0#9 plenty bare
    rw [plenty_bare] at hrun
    have hthere := hrun.filled ⟨_, hmem, CreateDirAll.above_self _ []⟩
    rw [hmodes _ (by rw [hthere]; exact Option.some_ne_none _), if_pos hnone]
    rfl
  refine ⟨plenty_bare _, hmode, fun hall => ?_⟩
  have h755 := hall _ hmem hnone
  rw [hmode] at h755
  cases h755

end Nyx.Layout
