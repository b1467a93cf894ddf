import Nyx.CreateDirAll

/-! What `create_dir_all` does between two requests, whatever answers them, and what it makes
of a file tree. -/
namespace Nyx.CreateDirAll
open FileTree Interaction

variable {N : Type}

/-- From a path down to the one asked for, each path holding the next. -/
inductive Tower (goal : Path N) : Path N → List (Path N) → Prop
  | goal (named : goal.isEmpty = false) : Tower goal goal []
  | cons {d p : Path N} {below : List (Path N)} (held : d.parent = some p)
      (named : p.isEmpty = false) (rest : Tower goal d below) : Tower goal p (d :: below)

/-- The stage works on an ancestor of the path asked for, or on that path. -/
def Serves (goal : Path N) : Stage N → Prop
  | .mkdir d below _ => Tower goal d below
  | .isDir d below _ _ => Tower goal d below
  | .done _ => True

theorem parent_eq {d p : Path N} (h : d.parent = some p) :
    ∃ c, d.comps = c :: p.comps ∧ p.rooted = d.rooted := by
  unfold Path.parent at h
  split at h
  · cases h
  · rename_i c up hc
    obtain rfl := Option.some.inj h
    exact ⟨c, hc, rfl⟩

theorem Tower.named {goal d : Path N} {below : List (Path N)} (h : Tower goal d below) :
    d.isEmpty = false := by
  cases h with
  | goal named => exact named
  | cons held named rest => exact named

theorem Tower.within {goal d : Path N} {below : List (Path N)} (h : Tower goal d below) :
    d.rooted = goal.rooted ∧ d.comps <:+ goal.comps := by
  induction h with
  | goal => exact ⟨rfl, List.suffix_refl _⟩
  | cons held named rest ih =>
    obtain ⟨c, hc, hr⟩ := parent_eq held
    refine ⟨hr.trans ih.1, List.IsSuffix.trans ?_ ih.2⟩
    rw [hc]
    exact List.suffix_cons _ _

theorem serves_descend {goal d : Path N} {below : List (Path N)} (h : Tower goal d below) :
    Serves goal (descend below) := by
  cases h with
  | goal => trivial
  | cons held named rest => exact rest

theorem serves_climb {goal d : Path N} {below : List (Path N)} (h : Tower goal d below) :
    Serves goal (climb d below) := by
  unfold climb
  split
  · trivial
  · rename_i p hp
    split_ifs with hempty
    · exact h
    · exact .cons hp (by simpa using hempty) h

theorem serves_start (goal : Path N) : Serves goal (start goal) := by
  unfold start
  split_ifs with h
  · trivial
  · exact .goal (by simpa using h)

theorem serves_resume {goal : Path N} {s : Stage N} (h : Serves goal s) (a : Reply N) :
    Serves goal (resume s a) := by
  unfold resume
  split
  · exact serves_descend h
  · split_ifs
    · exact serves_climb h
    · exact h
  · exact serves_descend h
  · trivial
  · exact h

/-- Only the empty path is there before anything is asked for. -/
theorem isEmpty_of_start {goal : Path N} (h : start goal = .done (.ok ())) : goal.isEmpty = true := by
  unfold start at h
  split_ifs at h with hempty
  exact hempty

/-- The last directory made or found is the one asked for. -/
theorem done_ok {goal : Path N} {s : Stage N} (h : Serves goal s) {r : Request N} {a : Reply N}
    (hr : issue s = some r) (ha : resume s a = .done (.ok ())) :
    a = .ok ∧ (r = .mkdir goal ∨ r = .isDir goal) := by
  have last : ∀ {d : Path N} {below}, Tower goal d below → descend below = .done (.ok ()) →
      d = goal := by
    intro d below ht hd
    cases ht with
    | goal => rfl
    | cons => cases hd
  cases s with
  | mkdir d below again =>
    obtain rfl : .mkdir d = r := Option.some.inj hr
    cases a with
    | ok => exact ⟨rfl, Or.inl (congrArg _ (last h ha))⟩
    | err e =>
      simp only [resume] at ha
      split_ifs at ha
      unfold climb at ha
      split at ha
      · cases ha
      · split_ifs at ha
        cases ha
    | opened | wrote => cases ha
  | isDir d below again e =>
    obtain rfl : .isDir d = r := Option.some.inj hr
    cases a with
    | ok => exact ⟨rfl, Or.inr (congrArg _ (last h ha))⟩
    | err | opened | wrote => cases ha
  | done x => cases hr

theorem Tower.goal_named {goal d : Path N} {below : List (Path N)} (h : Tower goal d below) :
    goal.isEmpty = false := by
  induction h with
  | goal named => exact named
  | cons held named rest ih => exact ih

theorem serves_named {goal : Path N} {s : Stage N} {r : Request N} (h : Serves goal s)
    (hr : issue s = some r) : goal.isEmpty = false := by
  cases s with
  | mkdir | isDir => exact Tower.goal_named h
  | done x => cases hr

/-- The only error made up here is that there is no parent to make. -/
theorem resume_error {s : Stage N} {r : Request N} (hr : issue s = some r) (a : Reply N)
    (m : String) : resume s a ≠ .done (.error (.custom .invalidInput m)) := by
  intro h
  cases s with
  | mkdir d below again =>
    cases a with
    | ok => cases below <;> cases h
    | err e =>
      simp only [resume] at h
      split_ifs at h
      unfold climb at h
      split at h
      · cases h
      · split_ifs at h
        cases h
    | opened | wrote => cases h
  | isDir d below again e =>
    cases a with
    | ok => cases below <;> cases h
    | err | opened | wrote => cases h
  | done x => cases hr

/-- How many more requests there can be: the climb takes one a level, the descent two. -/
def cost : Stage N → ℕ
  | .mkdir d below false => 3 * d.comps.length + 2 * below.length + 2
  | .mkdir _ below true => 2 * below.length + 2
  | .isDir _ below _ _ => 2 * below.length + 1
  | .done _ => 0

theorem cost_pos {s : Stage N} {r : Request N} (h : issue s = some r) : 0 < cost s := by
  cases s with
  | mkdir d below again => cases again <;> simp [cost]
  | isDir => simp [cost]
  | done => cases h

theorem cost_descend (below : List (Path N)) : cost (descend below) ≤ 2 * below.length := by
  cases below with
  | nil => exact Nat.zero_le _
  | cons d below =>
    simp only [descend, cost, List.length_cons]
    omega

theorem cost_climb (d : Path N) (below : List (Path N)) :
    cost (climb d below) < 3 * d.comps.length + 2 * below.length + 2 := by
  unfold climb
  split
  · simp [cost]
  · rename_i p hp
    obtain ⟨c, hc, -⟩ := parent_eq hp
    have hlen : d.comps.length = p.comps.length + 1 := by rw [hc, List.length_cons]
    split_ifs
    · simp only [descend, cost]
      omega
    · simp only [cost, List.length_cons]
      omega

theorem cost_start (goal : Path N) : cost (start goal) ≤ 3 * goal.comps.length + 2 := by
  unfold start
  split_ifs
  · exact Nat.zero_le _
  · simp [cost]

/-- Every answer brings the end nearer. -/
theorem cost_resume {s : Stage N} {r : Request N} (h : issue s = some r) {a : Reply N}
    (ha : a = .ok ∨ ∃ e, a = .err e) : cost (resume s a) < cost s := by
  cases s with
  | mkdir d below again =>
    rcases ha with rfl | ⟨e, rfl⟩
    · refine (cost_descend below).trans_lt ?_
      cases again <;> simp only [cost] <;> omega
    · simp only [resume]
      split_ifs with hx
      · obtain ⟨rfl, -⟩ := hx
        exact cost_climb d below
      · cases again <;> simp only [cost] <;> omega
  | isDir d below again e =>
    rcases ha with rfl | ⟨e', rfl⟩
    · exact Nat.lt_succ_of_le (cost_descend below)
    · exact Nat.succ_pos _
  | done x => cases h

/-- Every directory of the path is there. -/
def Made (t : Image N) (cwd : Loc N) (d : Path N) : Prop := t.walk (d.start cwd) d.comps = none

/-- The places of a path and of its ancestors. -/
def Above (goal : Path N) (cwd l : Loc N) : Prop :=
  ∃ up, up <:+ goal.comps ∧ l = Path.locate (goal.start cwd) up

/-- No file stands in the way of the path. -/
def Free (t : Image N) (cwd : Loc N) (goal : Path N) : Prop :=
  ∀ l, Above goal cwd l → ∀ i, t.entry l ≠ some (.file i)

theorem Made.entry {t : Image N} {cwd : Loc N} {d : Path N} (h : Made t cwd d) {l : Loc N}
    (hl : Above d cwd l) : t.entry l = some .dir := by
  obtain ⟨up, hup, rfl⟩ := hl
  exact Image.walk_eq_none.mp h up hup

theorem Made.keep {t u : Image N} {cwd : Loc N} {d : Path N} (h : Made t cwd d)
    (hdir : ∀ l, t.entry l = some .dir → u.entry l = some .dir) : Made u cwd d := by
  rw [Made, Image.walk_eq_none]
  exact fun up hup => hdir _ (h.entry ⟨up, hup, rfl⟩)

theorem above_self (d : Path N) (cwd : Loc N) : Above d cwd (d.loc cwd) :=
  ⟨d.comps, List.suffix_refl _, rfl⟩

theorem Tower.start_eq {goal d : Path N} {below : List (Path N)} (h : Tower goal d below)
    (cwd : Loc N) : d.start cwd = goal.start cwd := by
  rw [Path.start, Path.start, h.within.1]

theorem Tower.above {goal d : Path N} {below : List (Path N)} (h : Tower goal d below)
    {cwd l : Loc N} (hl : Above d cwd l) : Above goal cwd l := by
  obtain ⟨up, hup, rfl⟩ := hl
  exact ⟨up, hup.trans h.within.2, by rw [h.start_eq]⟩

theorem Made.enter {t : Image N} {cwd : Loc N} {d : Path N} (h : Made t cwd d)
    (hd : d.isEmpty = false) : t.enter cwd d = none := by
  rw [Image.enter_named hd, Image.walk_eq_none]
  intro up hup
  exact h.entry ⟨up, hup.trans (List.tail_suffix _), rfl⟩

/-- A path whose last component turns out to be there is all there. -/
theorem Made.of_enter {t : Image N} {cwd : Loc N} {d : Path N} (hd : d.isEmpty = false)
    (h : t.enter cwd d = none) (hl : t.entry (d.loc cwd) = some .dir) : Made t cwd d := by
  rw [Image.enter_named hd, Image.walk_eq_none] at h
  rw [Made, Image.walk_eq_none]
  intro up hup
  cases hc : d.comps with
  | nil =>
    rw [hc] at h hup
    exact h up hup
  | cons c rest =>
    rw [hc] at h hup
    rcases List.suffix_cons_iff.mp hup with rfl | hup
    · rw [← hc]
      exact hl
    · exact h up hup

/-- One tree comes from the other by making directories at some places where nothing was. -/
structure Grown (D : Loc N → Prop) (t u : Volume N) : Prop where
  data : u.data = t.data
  next : u.next = t.next
  entry : ∀ l, u.entry l = t.entry l ∨ t.entry l = none ∧ u.entry l = some .dir ∧ D l

namespace Grown
variable {D E : Loc N → Prop} {t u v : Volume N}

theorem refl (D : Loc N → Prop) (t : Volume N) : Grown D t t := ⟨rfl, rfl, fun _ => Or.inl rfl⟩

theorem trans (h : Grown D t u) (h' : Grown D u v) : Grown D t v := by
  refine ⟨h'.data.trans h.data, h'.next.trans h.next, fun l => ?_⟩
  rcases h'.entry l with h2 | ⟨h2, hv, hl⟩
  · rw [h2]
    exact h.entry l
  · rcases h.entry l with h1 | ⟨-, h1, -⟩
    · exact Or.inr ⟨h1 ▸ h2, hv, hl⟩
    · rw [h1] at h2
      cases h2

theorem mono (h : Grown D t u) (hDE : ∀ l, D l → E l) : Grown E t u := by
  refine ⟨h.data, h.next, fun l => ?_⟩
  rcases h.entry l with h1 | ⟨h1, hu, hl⟩
  · exact Or.inl h1
  · exact Or.inr ⟨h1, hu, hDE l hl⟩

theorem dir (h : Grown D t u) {l : Loc N} (hl : t.entry l = some .dir) :
    u.entry l = some .dir := by
  rcases h.entry l with h1 | ⟨h1, -⟩
  · rw [h1, hl]
  · rw [hl] at h1
    cases h1

theorem made (h : Grown D t u) {cwd : Loc N} {d : Path N} (hd : Made t.toImage cwd d) :
    Made u.toImage cwd d :=
  hd.keep fun _ hl => h.dir hl

theorem free (h : Grown D t u) {cwd : Loc N} {d : Path N} (hd : Free t.toImage cwd d) :
    Free u.toImage cwd d := by
  intro l hl i hi
  rcases h.entry l with h1 | ⟨-, h1, -⟩
  · rw [h1] at hi
    exact hd l hl i hi
  · rw [h1] at hi
    cases hi

/-- The directories are those that were there and those of the path. -/
theorem dir_iff {cwd : Loc N} {goal : Path N} (h : Grown (Above goal cwd) t u)
    (hm : Made u.toImage cwd goal) (l : Loc N) :
    u.entry l = some .dir ↔ t.entry l = some .dir ∨ Above goal cwd l := by
  constructor
  · intro hu
    rcases h.entry l with he | ⟨-, -, habove⟩
    · exact Or.inl (he.symm.trans hu)
    · exact Or.inr habove
  · rintro (ht | habove)
    · exact h.dir ht
    · exact hm.entry habove

/-- Two trees that grew from one are the same when both have all that was to be made. -/
theorem unique (h : Grown D t u) (h' : Grown D t v) (hu : ∀ l, D l → u.entry l = some .dir)
    (hv : ∀ l, D l → v.entry l = some .dir) : u = v := by
  have hentry : u.entry = v.entry := by
    funext l
    rcases h.entry l with h1 | ⟨-, h1, hl⟩
    · rcases h'.entry l with h2 | ⟨-, h2, hl⟩
      · rw [h1, h2]
      · rw [hu l hl, hv l hl]
    · rw [hu l hl, hv l hl]
  have hdata : u.data = v.data := h.data.trans h'.data.symm
  have hnext : u.next = v.next := h.next.trans h'.next.symm
  obtain ⟨⟨e, d⟩, n, f⟩ := u
  obtain ⟨⟨e', d'⟩, n', f'⟩ := v
  cases hentry
  cases hdata
  cases hnext
  rfl

end Grown

section Step
variable [DecidableEq N] {t : Volume N} {cwd : Loc N} {goal : Path N} {s : Stage N} {r : Request N}

theorem grown_mkdir {D : Loc N → Prop} {l : Loc N} (hl : t.entry l = none) (hD : D l) :
    Grown D t (t.apply (.mkdir l)) := by
  refine ⟨rfl, rfl, fun k => ?_⟩
  by_cases hk : k = l
  · subst hk
    exact Or.inr ⟨hl, Function.update_self _ _ _, hD⟩
  · exact Or.inl (Function.update_of_ne hk _ _)

theorem grown_outcome (h : Serves goal s) (hr : issue s = some r) (ch : Choice) :
    Grown (Above goal cwd) t (t.apply (t.outcome cwd ch r).2) := by
  rcases outcome_issue t cwd ch hr with hx | ⟨d, below, again, rfl, hx, hd⟩
  · rw [hx]
    exact .refl _ _
  · rw [hx]
    exact grown_mkdir hd (Tower.above h (above_self d cwd))

omit [DecidableEq N] in
theorem reply_issue (hr : issue s = some r) (ch : Choice) :
    (t.outcome cwd ch r).1 = .ok ∨ ∃ e, (t.outcome cwd ch r).1 = .err e := by
  cases s with
  | mkdir d below again =>
    obtain rfl : .mkdir d = r := Option.some.inj hr
    rcases t.outcome_mkdir cwd ch d with ⟨e, h⟩ | ⟨h, -⟩
    · exact Or.inr ⟨e, by rw [h]⟩
    · exact Or.inl (by rw [h])
  | isDir d below again e =>
    obtain rfl : .isDir d = r := Option.some.inj hr
    rcases t.outcome_isDir cwd ch d with ⟨e', h⟩ | ⟨h, -⟩
    · exact Or.inr ⟨e', by rw [h]⟩
    · exact Or.inl (by rw [h])
  | done x => cases hr

/-- Where the call ends well, all of the path it was asked for is there. -/
theorem made_of_done (h : Serves goal s) (hr : issue s = some r) {ch : Choice}
    (hs : resume s (t.outcome cwd ch r).1 = .done (.ok ())) :
    Made (t.apply (t.outcome cwd ch r).2).toImage cwd goal := by
  obtain ⟨ha, rfl | rfl⟩ := done_ok h hr hs
  · rcases t.outcome_mkdir cwd ch goal with ⟨e, hx⟩ | ⟨hx, hn, he, hf⟩
    · rw [hx] at ha
      cases ha
    · have hnamed : goal.isEmpty = false := by
        unfold Image.enter at he
        split_ifs at he with hempty
        simpa using hempty
      have hgrown := grown_mkdir (D := fun _ => True) hn trivial
      rw [hx]
      refine .of_enter hnamed ?_ (Function.update_self _ _ _)
      rw [Image.enter_named hnamed] at he ⊢
      exact hgrown.made (d := ⟨goal.rooted, goal.comps.tail, false⟩) he
  · rcases t.outcome_isDir cwd ch goal with ⟨e, hx⟩ | ⟨hx, hw⟩
    · rw [hx] at ha
      cases ha
    · rw [hx]
      exact hw

omit [DecidableEq N] in
/-- A directory is made inside one that is there. -/
theorem inside_of_mkdir (hr : issue s = some r) {ch : Choice} {l : Loc N}
    (hx : (t.outcome cwd ch r).2 = .mkdir l) :
    ∃ x p, l = x :: p ∧ t.entry p = some .dir ∧ t.entry (x :: p) = none := by
  cases s with
  | mkdir d below again =>
    obtain rfl : .mkdir d = r := Option.some.inj hr
    rcases t.outcome_mkdir cwd ch d with ⟨e, ho⟩ | ⟨ho, hd, he, hf⟩
    · rw [ho] at hx
      cases hx
    · rw [ho] at hx
      obtain rfl := Change.mkdir.inj hx
      obtain ⟨x, hfile⟩ := Option.isSome_iff_exists.mp hf
      have hloc : d.loc cwd = _ := Path.loc_of_fileName hfile (Path.parent_of_fileName hf)
      rw [hloc] at hd ⊢
      refine ⟨x, _, rfl, ?_, hd⟩
      unfold Image.enter at he
      split_ifs at he
      exact Image.walk_eq_none.mp he _ (List.suffix_refl _)
  | isDir d below again e =>
    obtain rfl : .isDir d = r := Option.some.inj hr
    rcases t.outcome_isDir cwd ch d with ⟨e', ho⟩ | ⟨ho, -⟩
    · rw [ho] at hx
      cases hx
    · rw [ho] at hx
      cases hx
  | done x => cases hr

theorem rooted_mkdir (ht : t.Rooted) {x : N} {l : Loc N} (hl : t.entry l = some .dir)
    (hx : t.entry (x :: l) = none) : (t.apply (.mkdir (x :: l))).Rooted := by
  have hgrown := grown_mkdir (D := fun _ => True) hx trivial
  refine ⟨hgrown.dir ht.root, fun y k hk => ?_⟩
  by_cases hyk : y :: k = x :: l
  · obtain ⟨-, rfl⟩ := List.cons.inj hyk
    exact hgrown.dir hl
  · rw [Volume.entry_apply (by simpa [Change.touches] using hyk)] at hk
    exact hgrown.dir (ht.inside y k hk)

theorem rooted_outcome (ht : t.Rooted) (hr : issue s = some r) (ch : Choice) :
    (t.apply (t.outcome cwd ch r).2).Rooted := by
  rcases outcome_issue t cwd ch hr with hx | ⟨d, below, again, rfl, hx, hd⟩
  · rw [hx]
    exact ht
  · obtain ⟨x, p, hl, hp, hn⟩ := inside_of_mkdir hr hx
    rw [hx, hl]
    exact rooted_mkdir ht hp hn

/-- Nothing has failed, and nothing stands in the way of what is asked for next. -/
def OnCourse (t : Volume N) (cwd : Loc N) : Stage N → Prop
  | .mkdir d _ again => again = true → t.enter cwd d = none
  | .isDir d _ _ _ => Made t.toImage cwd d
  | .done r => r = .ok ()

omit [DecidableEq N] in
theorem onCourse_start (t : Volume N) (cwd : Loc N) (goal : Path N) :
    OnCourse t cwd (start goal) := by
  unfold start
  split_ifs
  · rfl
  · intro hagain
    cases hagain

omit [DecidableEq N] in
theorem walk_free (hf : Free t.toImage cwd goal) {up : List (Component N)}
    (hup : up <:+ goal.comps) :
    t.walk (goal.start cwd) up = none ∨ t.walk (goal.start cwd) up = some .notFound := by
  induction up with
  | nil =>
    rw [Image.walk]
    split_ifs
    · exact Or.inl rfl
    · exact Or.inr rfl
  | cons c up ih =>
    rw [Image.walk]
    rcases ih ((List.suffix_cons c up).trans hup) with h | h
    · rw [h]
      cases he : t.entry (Path.locate (goal.start cwd) (c :: up)) with
      | none => exact Or.inr rfl
      | some n =>
        cases n with
        | dir => exact Or.inl rfl
        | file i => exact absurd he (hf _ ⟨_, hup, rfl⟩ i)
    · rw [h]
      exact Or.inr rfl

omit [DecidableEq N] in
theorem enter_free (hf : Free t.toImage cwd goal) {d : Path N} {below : List (Path N)}
    (h : Tower goal d below) : t.enter cwd d = none ∨ t.enter cwd d = some .notFound := by
  rw [Image.enter_named h.named, h.start_eq cwd]
  exact walk_free hf ((List.tail_suffix _).trans h.within.2)

omit [DecidableEq N] in
/-- What is found under the last component of a path is the directory it stands for, unless
it is a name nothing goes by. -/
theorem made_of_found (ht : t.Rooted) (hf : Free t.toImage cwd goal) {d : Path N}
    {below : List (Path N)} (h : Tower goal d below) (he : t.enter cwd d = none)
    (hx : d.fileName = none ∨ t.entry (d.loc cwd) ≠ none) : Made t.toImage cwd d := by
  have hwalk := he
  rw [Image.enter_named h.named, Image.walk_eq_none] at hwalk
  refine .of_enter h.named he ?_
  have hfree := hf _ (h.above (above_self d cwd))
  unfold Path.loc at hfree hx ⊢
  cases hc : d.comps with
  | nil =>
    rw [hc] at hwalk
    exact hwalk [] (List.suffix_refl _)
  | cons c up =>
    rw [hc] at hwalk hfree hx
    have hup := hwalk up (List.suffix_refl _)
    cases c with
    | normal x =>
      have hne := hx.resolve_left (by simp [Path.fileName, hc])
      cases hl : t.entry (Path.locate (d.start cwd) (.normal x :: up)) with
      | none => exact absurd hl hne
      | some n =>
        cases n with
        | dir => rfl
        | file i => exact absurd hl (hfree i)
    | parentDir =>
      refine ht.dirs hup _ ?_
      rw [Path.locate]
      exact List.mem_tails _ _ |>.mpr (List.tail_suffix _)
    | curDir => exact hup

omit [DecidableEq N] in
theorem onCourse_descend {d : Path N} {below : List (Path N)} (h : Tower goal d below)
    (hm : Made t.toImage cwd d) : OnCourse t cwd (descend below) := by
  cases h with
  | goal => rfl
  | cons held named rest =>
    intro _
    obtain ⟨c, hc, hr⟩ := parent_eq held
    rw [Image.enter_named rest.named, hc, List.tail_cons, Path.start, ← hr]
    exact hm

omit [DecidableEq N] in
/-- The climb ends at the place the path starts from, which is there. -/
theorem onCourse_climb (hbase : t.entry (goal.start cwd) = some .dir) {d : Path N}
    {below : List (Path N)} (h : Tower goal d below) (he : t.enter cwd d = some .notFound) :
    OnCourse t cwd (climb d below) := by
  have hne : ∀ c, d.comps ≠ [c] ∧ d.comps ≠ [] := by
    intro c
    rw [Image.enter_named h.named, h.start_eq cwd] at he
    constructor
    · intro hc
      rw [hc, List.tail_cons, Image.walk, if_pos hbase] at he
      cases he
    · intro hc
      rw [hc, List.tail_nil, Image.walk, if_pos hbase] at he
      cases he
  unfold climb
  split
  · rename_i hp
    unfold Path.parent at hp
    split at hp
    · exact absurd ‹_› (hne .curDir).2
    · cases hp
  · rename_i p hp
    obtain ⟨c, hc, hr⟩ := parent_eq hp
    split_ifs with hempty
    · rw [Path.comps_of_isEmpty hempty] at hc
      exact absurd hc (hne c).1
    · intro hagain
      cases hagain

/-- Where requests do not fail by themselves and no file stands in the way, the call stays
on course. -/
theorem onCourse_resume (ht : t.Rooted) (hf : Free t.toImage cwd goal)
    (hbase : t.entry (goal.start cwd) = some .dir) (h : Serves goal s) (hs : OnCourse t cwd s)
    (hr : issue s = some r) (n : ℕ) :
    OnCourse (t.apply (t.outcome cwd (.go n) r).2) cwd
      (resume s (t.outcome cwd (.go n) r).1) := by
  cases s with
  | mkdir d below again =>
    obtain rfl : .mkdir d = r := Option.some.inj hr
    simp only [Volume.outcome, Volume.plan]
    rcases enter_free hf h with he | he
    · rw [he]
      dsimp only
      split
      · rename_i x hfile hnone
        refine onCourse_descend h (.of_enter h.named ?_ (Function.update_self _ _ _))
        have hgrown := grown_mkdir (D := fun _ => True) hnone trivial
        rw [Image.enter_named h.named] at he ⊢
        exact hgrown.made (d := ⟨d.rooted, d.comps.tail, false⟩) he
      · rename_i hno
        have hfound : d.fileName = none ∨ t.entry (d.loc cwd) ≠ none := by
          by_contra hboth
          push Not at hboth
          obtain ⟨x, hx⟩ := Option.ne_none_iff_exists'.mp hboth.1
          exact hno x hx hboth.2
        have hne : ¬ (again = false ∧ ErrorKind.alreadyExists = .notFound) := by simp
        rw [resume, if_neg hne]
        exact made_of_found ht hf h he hfound
    · rw [he]
      cases again with
      | true =>
        rw [hs rfl] at he
        cases he
      | false => exact onCourse_climb hbase h he
  | isDir d below again e =>
    obtain rfl : .isDir d = r := Option.some.inj hr
    have hw : t.walk (d.start cwd) d.comps = none := hs
    simp only [Volume.outcome, Volume.plan, Tower.named h, Bool.false_eq_true, if_false, hw]
    exact onCourse_descend h hs
  | done x => cases hr

end Step

end Nyx.CreateDirAll
