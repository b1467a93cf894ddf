import Nyx.AtomicLinks

/-! The paths `write_atomic` rejects. That a path has a parent is checked at once; that it has
a file name only when the directories above it have been made. -/
namespace Nyx.Atomic
open FileTree Interaction Text
open CreateDirAll (IoError Serves)

/-- The directory of the path is there already, or there is none to make. -/
def DirThere (c : Call) (t : LinkTree OsStr) : Prop :=
  ∀ p, c.path.parent = some p → p.isEmpty = true ∨ t.IsDir c.cwd p

/-- What holds until the path is rejected, and when it is. -/
def Checks (c : Call) (t u : LinkTree OsStr) : Stage → Prop
  | .mkdirs s => ∃ p, c.path.parent = some p ∧ Serves p s ∧ t.Grown u ∧
      (t.IsDir c.cwd p → u = t)
  | .done (.error (.custom .invalidInput _)) => u = t ↔ DirThere c t
  | _ => True

theorem checks_mkdirs {c : Call} {t u : LinkTree OsStr} {s : CreateDirAll.Stage OsStr}
    (hmore : ∀ q, CreateDirAll.issue s = some q → Checks c t u (.mkdirs s))
    (hdone : s = .done (.ok ()) → (u = t ↔ DirThere c t))
    (herror : ∀ m, s ≠ .done (.error (.custom .invalidInput m))) : Checks c t u (mkdirs c s) := by
  cases s with
  | mkdir | isDir => exact hmore _ rfl
  | done r =>
    cases r with
    | ok x =>
      simp only [mkdirs]
      split_ifs
      · trivial
      · exact hdone rfl
    | error e =>
      cases e with
      | os k => trivial
      | custom k m =>
        cases k with
        | invalidInput => exact absurd rfl (herror m)
        | _ => trivial

theorem checks_start (c : Call) (t : LinkTree OsStr) : Checks c t t (start c) := by
  unfold start
  split
  · rename_i hnone
    refine iff_of_true rfl fun p hp => ?_
    rw [hnone] at hp
    cases hp
  · rename_i p hp
    refine checks_mkdirs (fun q hq => ⟨p, hp, CreateDirAll.serves_start p, .refl t, fun _ => rfl⟩)
      (fun hdone => iff_of_true rfl fun p' hp' => ?_) (fun m hm => ?_)
    · obtain rfl : p = p' := Option.some.inj (hp.symm.trans hp')
      exact Or.inl (CreateDirAll.isEmpty_of_start hdone)
    · unfold CreateDirAll.start at hm
      split_ifs at hm with hempty
      cases hm

theorem checks_making {c : Call} {t u : LinkTree OsStr} {s : CreateDirAll.Stage OsStr}
    {q : Request OsStr} (h : Checks c t u (.mkdirs s)) (hq : CreateDirAll.issue s = some q)
    (k : Choice) : Checks c t (u.apply (u.outcome c.cwd k q).2)
      (mkdirs c (CreateDirAll.resume s (u.outcome c.cwd k q).1)) := by
  obtain ⟨p, hp, hs, hgrown, hkept⟩ := h
  have hstill : t.IsDir c.cwd p → u.apply (u.outcome c.cwd k q).2 = t := by
    intro ht
    have hut := hkept ht
    subst hut
    exact CreateDirAll.apply_of_isDir ht hs hq k
  refine checks_mkdirs (fun q' _ => ⟨p, hp, CreateDirAll.serves_resume hs _,
    hgrown.trans (CreateDirAll.grown_links hq k), hstill⟩) (fun hdone => ⟨?_, ?_⟩)
    fun m => CreateDirAll.resume_error hq _ m
  · intro ht p' hp'
    obtain rfl : p = p' := Option.some.inj (hp.symm.trans hp')
    rcases CreateDirAll.isDir_of_done hs hq hdone with hdir | ⟨l, hl, hx⟩
    · rw [CreateDirAll.apply_of_isDir hdir hs hq k] at ht
      exact Or.inr (ht ▸ hdir)
    · rw [hx] at ht
      exact absurd ht (hgrown.ne_mkdir hl)
  · intro hthere
    rcases hthere p hp with hempty | hdir
    · rw [CreateDirAll.serves_named hs hq] at hempty
      cases hempty
    · exact hstill hdir

/-- No request that comes later rejects the path. -/
theorem checks_later {c : Call} {t u : LinkTree OsStr} {s : Stage} (hs : ∀ m, s ≠ .mkdirs m)
    {q : Request OsStr} (hq : issue c s = some q) (a : Reply OsStr) :
    Checks c t u (resume c s a) := by
  have hwrite : ∀ i off, Checks c t u (writeAll c i off) := by
    intro i off
    unfold writeAll
    split_ifs <;> trivial
  cases s with
  | mkdirs m => exact absurd rfl (hs m)
  | create =>
    cases a with
    | opened f =>
      cases f with
      | file i => exact hwrite i 0
      | dir l => trivial
    | ok | wrote | err => trivial
  | write i off =>
    cases a with
    | wrote n =>
      simp only [resume]
      split_ifs
      · trivial
      · exact hwrite i (off + n)
    | err e =>
      simp only [resume]
      split_ifs <;> trivial
    | ok | opened => trivial
  | flush | sync | rename | openDir => cases a <;> trivial
  | syncDir => trivial
  | done x => cases hq

theorem checks_run (c : Call) (ks : List Choice) (t : LinkTree OsStr) :
    Checks c t (linkCall c ks t).world (linkCall c ks t).stage := by
  refine run_invariant (fun r : Run (LinkTree OsStr) => Checks c t r.world r.stage)
    (fun r k q hq h => ?_) ⟨t, start c, []⟩ ks (checks_start c t)
  rw [advance_issued hq]
  obtain ⟨u, s, log⟩ := r
  change issue c s = some q at hq
  cases s with
  | mkdirs m => exact checks_making h hq k
  | create | write | flush | sync | rename | openDir | syncDir | done =>
    refine checks_later (fun m hm => ?_) hq (u.outcome c.cwd k q).1
    cases hm

/-- A call that rejects its path as invalid leaves the file system as it was if and only if
the path has no parent, or its parent is the empty path or leads to a directory already. -/
theorem rejected_unchanged (c : Call) (ks : List Choice) (t : LinkTree OsStr) (m : String)
    (h : (linkCall c ks t).stage = .done (.error (.custom .invalidInput m))) :
    (linkCall c ks t).world = t ↔ DirThere c t := by
  have hrun := checks_run c ks t
  rwa [h] at hrun

/-- A path that ends in "..", below the root directory. -/
def dotted : Call := ⟨⟨true, [.parentDir, .normal (bytes "pkgs")], false⟩, [1], 7, some 12, []⟩

/-- The same path, whose parent is there. -/
theorem rejected_unchanged_dotted :
    (linkCall dotted [.go 0, .go 0] (Volume.empty.apply (.mkdir [bytes "pkgs"])).plain).world =
      (Volume.empty.apply (.mkdir [bytes "pkgs"])).plain := by
  refine (rejected_unchanged dotted _ _ "invalid filename" (by decide +kernel)).mpr ?_
  intro p hp
  obtain rfl : (⟨true, [.normal (bytes "pkgs")], false⟩ : Path OsStr) = p := Option.some.inj hp
  exact Or.inr ⟨[bytes "pkgs"], by decide +kernel⟩

/-- The call makes the directory "/pkgs" before it rejects the path "/pkgs/..". -/
theorem dotted_makes_directory :
    (linkCall dotted [.go 0] Volume.empty.plain).stage =
        .done (.error (.custom .invalidInput "invalid filename")) ∧
      (linkCall dotted [.go 0] Volume.empty.plain).world ≠ Volume.empty.plain := by
  refine ⟨by decide +kernel, fun h => ?_⟩
  have hitem : (linkCall dotted [.go 0] Volume.empty.plain).world.item [bytes "pkgs"] =
      some .dir := by decide +kernel
  rw [h] at hitem
  cases hitem

end Nyx.Atomic
