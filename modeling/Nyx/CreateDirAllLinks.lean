import Nyx.CreateDirAllStep
import Nyx.LinkTree

/-! `create_dir_all` over a tree with symbolic links. -/
namespace Nyx.CreateDirAll
open FileTree Interaction

variable {N : Type} [DecidableEq N] {t : LinkTree N} {cwd : Loc N} {goal : Path N} {s : Stage N}
  {r : Request N}

/-- Only directories are made, each under a name the directory it is made in does not hold. -/
theorem outcome_links (t : LinkTree N) (cwd : Loc N) (hr : issue s = some r) (ch : Choice) :
    (t.outcome cwd ch r).2 = .none ∨
    ∃ d below again x l, s = .mkdir d below again ∧ d.fileName = some x ∧
      t.enter cwd d = .ok l ∧ t.item (x :: l) = none ∧
      (t.outcome cwd ch r).2 = .mkdir (x :: l) := by
  cases s with
  | mkdir d below again =>
    obtain rfl : .mkdir d = r := Option.some.inj hr
    rcases t.outcome_mkdir cwd ch d with ⟨e, h⟩ | ⟨x, l, hx, he, hn, h⟩
    · exact Or.inl (by rw [h])
    · exact Or.inr ⟨d, below, again, x, l, rfl, hx, he, hn, by rw [h]⟩
  | isDir d below again e =>
    obtain rfl : .isDir d = r := Option.some.inj hr
    rcases t.outcome_isDir cwd ch d with ⟨e, h⟩ | ⟨l, -, h⟩ <;>
      exact Or.inl (by rw [h])
  | done x => cases hr

theorem grown_links (hr : issue s = some r) (ch : Choice) :
    t.Grown (t.apply (t.outcome cwd ch r).2) := by
  rcases outcome_links t cwd hr ch with h | ⟨d, below, again, x, l, -, -, -, hn, h⟩
  · rw [h]
    exact .refl t
  · rw [h]
    exact .mkdir hn

omit [DecidableEq N] in
theorem Tower.comps {d : Path N} {below : List (Path N)} (h : Tower goal d below) {x : N}
    (hx : d.fileName = some x) :
    ∃ rest, goal.comps.reverse = d.comps.tail.reverse ++ .normal x :: rest := by
  obtain ⟨front, hfront⟩ := h.within.2
  refine ⟨front.reverse, ?_⟩
  rw [← hfront, Path.comps_of_fileName hx]
  simp

/-- On the way to a directory that is there nothing is missing. -/
theorem none_missing (hgoal : t.IsDir cwd goal) {d : Path N} {below : List (Path N)}
    (h : Tower goal d below) {x : N} {l : Loc N} (hx : d.fileName = some x)
    (he : t.enter cwd d = .ok l) : t.item (x :: l) ≠ none := by
  obtain ⟨g, hg⟩ := hgoal
  obtain ⟨hreach, hdir⟩ := LinkTree.settle_ok.mp hg
  obtain ⟨-, -, hwalk⟩ := LinkTree.reach_ok.mp hreach
  obtain ⟨-, -, henter, -⟩ := LinkTree.enter_ok.mp he
  obtain ⟨rest, hrest⟩ := h.comps hx
  obtain ⟨m, hm⟩ := henter.append
  rw [hrest, ← h.start_eq cwd, hm] at hwalk
  exact hwalk.found (by simp [hdir])

/-- Where the path asked for is a directory already, no request changes anything. -/
theorem apply_of_isDir (hgoal : t.IsDir cwd goal) (h : Serves goal s) (hr : issue s = some r)
    (ch : Choice) : t.apply (t.outcome cwd ch r).2 = t := by
  rcases outcome_links t cwd hr ch with hx | ⟨d, below, again, x, l, rfl, hx, he, hn, -⟩
  · rw [hx]
    rfl
  · exact absurd hn (none_missing hgoal h hx he)

/-- A call that has just ended well has made a directory with its last request, or the path
asked for is one. -/
theorem isDir_of_done (h : Serves goal s) (hr : issue s = some r) {ch : Choice}
    (hs : resume s (t.outcome cwd ch r).1 = .done (.ok ())) :
    t.IsDir cwd goal ∨ ∃ l, t.item l = none ∧ (t.outcome cwd ch r).2 = .mkdir l := by
  obtain ⟨ha, rfl | rfl⟩ := done_ok h hr hs
  · rcases t.outcome_mkdir cwd ch goal with ⟨e, hx⟩ | ⟨x, l, -, -, hn, hx⟩
    · rw [hx] at ha
      cases ha
    · exact Or.inr ⟨x :: l, hn, by rw [hx]⟩
  · rcases t.outcome_isDir cwd ch goal with ⟨e, hx⟩ | ⟨d, hd, -⟩
    · rw [hx] at ha
      cases ha
    · exact Or.inl ⟨d, hd⟩

end Nyx.CreateDirAll
