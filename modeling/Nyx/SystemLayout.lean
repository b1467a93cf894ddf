import Nyx.RootedTree
import Nyx.SystemTurns

/-! Processes that make the layout at the same time, as each other and as processes that write
files: none of them fails because of another, and what they make together does not depend on
the order in which they make it. -/
namespace Nyx.System
open FileTree Interaction Text
open CreateDirAll (Made Free Grown OnCourse)
open Layout (Covers Steady)
open Hash (Blake3)

section Step
variable {H : Type} {B : Blake3 H} {k : Task} {p : Stage H} {r : Request} {t u : Volume OsStr}
  {paths : Layout.NyxPaths} {cwd : Loc OsStr}

theorem effect_change (t : Volume OsStr) (cwd : Loc OsStr) (ch : Choice) (r : Request) :
    Effect t (change t cwd ch r) := by
  cases r with
  | tree r => exact outcome_effect t cwd ch r
  | read => exact .quiet rfl

/-- A file comes to be only where a call has its temporary file, or its target. -/
theorem file_of_write {c : Atomic.Call} {s : Atomic.Stage} {q : FileTree.Request OsStr}
    (hq : Atomic.issue c s = some q) (ch : Choice) {l : Loc OsStr} (htmp : l ≠ c.tmp)
    (htarget : l ≠ c.target) : l ∉ (t.outcome c.cwd ch q).2.touches ∨
      (t.apply (t.outcome c.cwd ch q).2).entry l = some .dir := by
  cases s with
  | mkdirs m =>
    rcases CreateDirAll.outcome_issue t c.cwd ch hq with h | ⟨d, below, again, rfl, h, hd⟩
    · rw [h]
      exact Or.inl List.not_mem_nil
    · rw [h]
      by_cases hl : l = d.loc c.cwd
      · subst hl
        exact Or.inr (Function.update_self _ _ _)
      · exact Or.inl (by simpa [Change.touches] using hl)
  | create =>
    obtain rfl : .create c.tmpPath = q := Option.some.inj hq
    rcases t.outcome_create c.cwd ch c.tmpPath with ⟨e, h⟩ | ⟨h, -⟩ | ⟨i, h, -⟩
    · exact Or.inl (by simp [h, Change.touches])
    · exact Or.inl (by rw [h]; exact fun hl => htmp (List.mem_singleton.mp hl))
    · exact Or.inl (by simp [h, Change.touches])
  | write i off =>
    obtain rfl : .write i off (c.data.drop off) = q := Option.some.inj hq
    rcases t.outcome_write c.cwd ch i off (c.data.drop off) with ⟨e, h⟩ | h | ⟨n, -, -, h⟩ <;>
      exact Or.inl (by simp [h, Change.touches])
  | flush i =>
    obtain rfl : .flush i = q := Option.some.inj hq
    cases ch <;> exact Or.inl List.not_mem_nil
  | sync i =>
    obtain rfl : .fsync (.file i) = q := Option.some.inj hq
    cases ch <;> exact Or.inl List.not_mem_nil
  | rename =>
    obtain rfl : .rename c.tmpPath c.path = q := Option.some.inj hq
    rcases t.outcome_rename c.cwd ch c.tmpPath c.path with
      ⟨e, h⟩ | ⟨i, -, -, -, -, -, ⟨h, -⟩ | ⟨h, -⟩⟩
    · exact Or.inl (by simp [h, Change.touches])
    · exact Or.inl (by simp [h, Change.touches])
    · left
      rw [h]
      simp only [Change.touches, List.mem_cons, List.not_mem_nil, or_false, not_or]
      exact ⟨htmp, htarget⟩
  | openDir =>
    obtain rfl : .openFile c.dir = q := Option.some.inj hq
    rcases t.outcome_openFile c.cwd ch c.dir with ⟨e, h⟩ | ⟨-, ⟨h, -⟩ | ⟨i, h, -⟩⟩ <;>
      exact Or.inl (by simp [h, Change.touches])
  | syncDir hd =>
    obtain rfl : .fsync hd = q := Option.some.inj hq
    cases ch with
    | fail e => exact Or.inl List.not_mem_nil
    | go n => cases hd <;> exact Or.inl List.not_mem_nil
  | done x => cases hq

/-- No file comes to be where no call has its temporary file or its target. -/
theorem file_of_change (hr : issue k p = some r) (ch : Choice) {l : Loc OsStr}
    (hw : ∀ c, k = .write c → l ≠ c.tmp ∧ l ≠ c.target) {i : ℕ}
    (hi : (t.apply (change t k.cwd ch r)).entry l = some (.file i)) :
    t.entry l = some (.file i) := by
  suffices h : l ∉ (change t k.cwd ch r).touches ∨
      (t.apply (change t k.cwd ch r)).entry l = some .dir by
    rcases h with h | h
    · rwa [Volume.entry_apply h] at hi
    · rw [hi] at h
      cases h
  cases k with
  | layout paths cwd =>
    cases p with
    | layout s =>
      obtain ⟨q, hq, rfl⟩ := Option.map_eq_some_iff.mp hr
      cases s with
      | making s rest =>
        rcases CreateDirAll.outcome_issue t cwd ch hq with h | ⟨d, below, again, rfl, h, hd⟩
        · exact Or.inl (by simp [change, Task.cwd, h, Change.touches])
        · simp only [change, Task.cwd, h]
          by_cases hl : l = d.loc cwd
          · subst hl
            exact Or.inr (Function.update_self _ _ _)
          · exact Or.inl (by simpa [Change.touches] using hl)
      | done x => cases hq
    | write | hash => cases hr
  | write c =>
    cases p with
    | write s =>
      obtain ⟨q, hq, rfl⟩ := Option.map_eq_some_iff.mp hr
      exact file_of_write hq ch (hw c rfl).1 (hw c rfl).2
    | layout | hash => cases hr
  | hash path cwd =>
    cases p with
    | hash s file off =>
      rw [Task.cwd, issue_hash hr]
      exact Or.inl List.not_mem_nil
    | layout | write => cases hr

theorem steady_keep {s : Layout.Stage} (h : Steady t cwd s)
    (hd : ∀ l, t.entry l = some .dir → u.entry l = some .dir) : Steady u cwd s := by
  cases s with
  | done x => exact h
  | making s rest =>
    cases s with
    | done x => exact h
    | isDir d below again e => exact Made.keep h hd
    | mkdir d below again =>
      intro hagain
      have he := h hagain
      unfold Image.enter at he ⊢
      split_ifs at he ⊢
      rw [Image.walk_eq_none] at he ⊢
      exact fun up hup => hd _ (he up hup)

end Step

/-- The process makes the layout, what it has made is there, and nothing is in its way. -/
structure OnTrack {H : Type} (paths : Layout.NyxPaths) (cwd : Loc OsStr) (t : Volume OsStr)
    (p : Option (Stage H)) : Prop where
  base : t.entry (paths.root.start cwd) = some .dir
  free : ∀ d ∈ paths.dirs, Free t.toImage cwd d
  stage : ∀ q, p = some q → ∃ s, q = .layout s ∧ Layout.Holds paths cwd t s ∧ Steady t cwd s

section Run
variable {H ι : Type} [DecidableEq ι] (B : Blake3 H) (tasks : ι → Task) (t : Volume OsStr)

/-- The requests of those that make the layout do what the tree allows; any other may fail. -/
def Undisturbed (m : Move ι Choice) : Prop :=
  ∀ i e, m = .act i (.fail e) → ∀ paths cwd, tasks i ≠ .layout paths cwd

/-- No call writes a file, or has a temporary one, where a directory of the layout is to be. -/
def OutOfTheWay : Prop :=
  ∀ i c, tasks i = .write c → ∀ j paths cwd, tasks j = .layout paths cwd →
    ¬ Covers paths cwd c.tmp ∧ ¬ Covers paths cwd c.target

/-- All that make the layout are on track. -/
structure Tracks (s : Processes ι H) : Prop where
  rooted : s.world.Rooted
  onTrack : ∀ i paths cwd, tasks i = .layout paths cwd → OnTrack paths cwd s.world (s.stage i)

section Tracks
variable {B tasks t} {s : Processes ι H}

omit [DecidableEq ι] in
theorem tracks_start (ht : t.Rooted) (hcwd : ∀ i, t.entry (tasks i).cwd = some .dir)
    (hf : ∀ i paths cwd, tasks i = .layout paths cwd → ∀ d ∈ paths.dirs, Free t.toImage cwd d) :
    Tracks tasks (processes tasks t : Processes ι H) := by
  refine ⟨ht, fun i paths cwd hi => ⟨?_, hf i paths cwd hi, fun q hq => ?_⟩⟩
  · have hbase := hcwd i
    rw [hi] at hbase
    exact Layout.start_dir paths ht hbase
  · obtain rfl : (tasks i).start = q := Option.some.inj hq
    rw [hi]
    exact ⟨_, rfl, Layout.holds_start paths cwd t, Layout.steady_next rfl⟩

theorem OnTrack.keep {paths : Layout.NyxPaths} {cwd : Loc OsStr} {u : Volume OsStr}
    {p : Option (Stage H)} (h : OnTrack paths cwd t p)
    (hd : ∀ l, t.entry l = some .dir → u.entry l = some .dir)
    (hf : ∀ l, Covers paths cwd l → ∀ i, u.entry l = some (.file i) → t.entry l = some (.file i)) :
    OnTrack paths cwd u p := by
  refine ⟨hd _ h.base, fun d hdir l hl i hi => h.free d hdir l hl i (hf l ⟨d, hdir, hl⟩ i hi),
    fun q hq => ?_⟩
  obtain ⟨s, rfl, hholds, hsteady⟩ := h.stage q hq
  exact ⟨s, rfl, holds_keep hholds hd, steady_keep hsteady hd⟩

theorem tracks_kill (h : Tracks tasks s) (i : ι) : Tracks tasks (step B tasks s (.kill i)) := by
  refine ⟨h.rooted, fun j paths cwd hj => ?_⟩
  have hold := h.onTrack j paths cwd hj
  refine ⟨hold.base, hold.free, fun q hq => ?_⟩
  by_cases hji : j = i
  · subst hji
    simp [step, move] at hq
  · exact hold.stage q (by simpa [step, move, Function.update_of_ne hji] using hq)

theorem tracks_act (hway : OutOfTheWay tasks) (h : Tracks tasks s) {i : ι} {k : Choice}
    (hk : Undisturbed tasks (.act i k)) : Tracks tasks (step B tasks s (.act i k)) := by
  rcases idle_or_issues (fun i => program B (tasks i)) s i with hidle | ⟨p, r, hp, hr⟩
  · rw [step, move_idle _ _ hidle]
    exact h
  · replace hr : issue (tasks i) p = some r := hr
    have heffect := effect_change s.world (tasks i).cwd k r
    rw [step, move_act _ _ hp hr]
    refine ⟨heffect.rooted h.rooted, fun j paths cwd hj => ?_⟩
    have hkeep : OnTrack paths cwd (s.world.apply (change s.world (tasks i).cwd k r)) (s.stage j) := by
      refine (h.onTrack j paths cwd hj).keep (fun l hl => heffect.dir hl) fun l hl x hx => ?_
      refine file_of_change hr k (fun c hc => ?_) hx
      obtain ⟨htmp, htarget⟩ := hway i c hc j paths cwd hj
      exact ⟨by rintro rfl; exact htmp hl, by rintro rfl; exact htarget hl⟩
    refine ⟨hkeep.base, hkeep.free, fun q hq => ?_⟩
    by_cases hji : j = i
    · subst hji
      obtain ⟨v, rfl, hholds, hsteady⟩ := (h.onTrack j paths cwd hj).stage p hp
      rw [hj] at hr
      obtain ⟨x, hx, rfl⟩ := Option.map_eq_some_iff.mp hr
      obtain ⟨n, rfl⟩ : ∃ n, k = .go n := by
        cases k with
        | go n => exact ⟨n, rfl⟩
        | fail e => exact absurd hj (hk j e rfl paths cwd)
      refine ⟨Layout.resume v (s.world.outcome cwd (.go n) x).1, ?_, ?_, ?_⟩
      · simpa [respond, reply, program, resume, hj, Task.cwd] using hq.symm
      · simp only [respond, change, hj, Task.cwd]
        exact Layout.holds_step hholds hx (.go n)
      · simp only [respond, change, hj, Task.cwd]
        exact hsteady.step (t := s.world) ⟨hholds, .refl _ _, id⟩ h.rooted
          (h.onTrack j paths cwd hj).base (h.onTrack j paths cwd hj).free hx n
    · exact hkeep.stage q (by simpa [Function.update_of_ne hji] using hq)

end Tracks

theorem tracks_run (ht : t.Rooted) (hcwd : ∀ i, t.entry (tasks i).cwd = some .dir)
    (hf : ∀ i paths cwd, tasks i = .layout paths cwd → ∀ d ∈ paths.dirs, Free t.toImage cwd d)
    (hway : OutOfTheWay tasks) (ms : List (Move ι Choice)) (hms : ∀ m ∈ ms, Undisturbed tasks m) :
    Tracks tasks (runAll B tasks t ms) := by
  refine interleave_invariant (G := fun _ m => Undisturbed tasks m) _ _ (Tracks tasks)
    (fun s m hm hs => ?_) _ ms (guarded_of_forall hms _) (tracks_start ht hcwd hf)
  cases m with
  | kill i => exact tracks_kill hs i
  | act i k => exact tracks_act hway hs hm

/-- The places of all the layouts that are being made. -/
def Planned (l : Loc OsStr) : Prop :=
  ∃ i paths cwd, tasks i = .layout paths cwd ∧ Covers paths cwd l

/-- What processes that write no file make between them. -/
structure Making (s : Processes ι H) : Prop where
  grown : Grown (Planned tasks) t s.world
  holds : ∀ i paths cwd v, tasks i = .layout paths cwd → s.stage i = some (.layout v) →
    Layout.Holds paths cwd s.world v

omit [DecidableEq ι] in
theorem making_start : Making tasks t (processes tasks t : Processes ι H) := by
  refine ⟨.refl _ _, fun i paths cwd v hi hv => ?_⟩
  have hstart : (tasks i).start = Stage.layout v := Option.some.inj hv
  rw [hi] at hstart
  obtain rfl := Stage.layout.inj hstart
  exact Layout.holds_start paths cwd t

section Making
variable {B tasks t} {s : Processes ι H}

theorem making_kill (h : Making tasks t s) (i : ι) : Making tasks t (step B tasks s (.kill i)) := by
  refine ⟨h.grown, fun j paths cwd v hj hv => ?_⟩
  by_cases hji : j = i
  · subst hji
    simp [step, move] at hv
  · exact h.holds j paths cwd v hj (by simpa [step, move, Function.update_of_ne hji] using hv)

omit [DecidableEq ι] in
theorem making_change (hno : ∀ i c, tasks i ≠ .write c) (h : Making tasks t s) {i : ι}
    {p : Stage H} {r : Request} (hp : s.stage i = some p) (hr : issue (tasks i) p = some r)
    (k : Choice) : Grown (Planned tasks) s.world (s.world.apply (change s.world (tasks i).cwd k r)) := by
  cases hi : tasks i with
  | layout paths cwd =>
    rw [hi] at hr
    cases p with
    | layout v =>
      obtain ⟨q, hq, rfl⟩ := Option.map_eq_some_iff.mp hr
      exact (Layout.grown_step (h.holds i paths cwd v hi hp) hq k).mono
        fun l hl => ⟨i, paths, cwd, hi, hl⟩
    | write | hash => cases hr
  | write c => exact absurd hi (hno i c)
  | hash path cwd =>
    rw [hi] at hr
    cases p with
    | hash v file off =>
      rw [Task.cwd, issue_hash hr]
      exact .refl _ _
    | layout | write => cases hr

theorem making_act (hno : ∀ i c, tasks i ≠ .write c) (h : Making tasks t s) (i : ι) (k : Choice) :
    Making tasks t (step B tasks s (.act i k)) := by
  rcases idle_or_issues (fun i => program B (tasks i)) s i with hidle | ⟨p, r, hp, hr⟩
  · rw [step, move_idle _ _ hidle]
    exact h
  · have hgrown := making_change hno h hp hr k
    rw [step, move_act _ _ hp hr]
    refine ⟨h.grown.trans hgrown, fun j paths cwd v hj hv => ?_⟩
    by_cases hji : j = i
    · subst hji
      rw [hj] at hr
      cases p with
      | layout u =>
        obtain ⟨q, hq, rfl⟩ := Option.map_eq_some_iff.mp hr
        have hstep := Layout.holds_step (h.holds j paths cwd u hj hp) hq k
        obtain rfl : Layout.resume u (s.world.outcome cwd k q).1 = v := by
          simpa [respond, reply, program, resume, hj, Task.cwd] using hv
        simpa [respond, change, hj, Task.cwd] using hstep
      | write | hash => cases hr
    · exact holds_keep (h.holds j paths cwd v hj (by simpa [Function.update_of_ne hji] using hv))
        fun l hl => hgrown.dir hl

end Making

theorem making_run (hno : ∀ i c, tasks i ≠ .write c) (ms : List (Move ι Choice)) :
    Making tasks t (runAll B tasks t ms) := by
  refine interleave_invariant (G := fun _ _ => True) _ _ (Making tasks t) (fun s m _ hs => ?_) _ ms
    (guarded_of_forall (fun _ _ => trivial) _) (making_start tasks t)
  cases m with
  | kill i => exact making_kill hs i
  | act i k => exact making_act hno hs i k

omit [DecidableEq ι] in
theorem Making.filled {tasks : ι → Task} {t : Volume OsStr} {s : Processes ι H}
    (h : Making tasks t s) (hs : ∀ i paths cwd, tasks i = .layout paths cwd →
      ∃ j, tasks j = .layout paths cwd ∧ s.stage j = some (.layout (.done (.ok ()))))
    {l : Loc OsStr} (hl : Planned tasks l) : s.world.entry l = some .dir := by
  obtain ⟨i, paths, cwd, hi, d, hd, hl⟩ := hl
  obtain ⟨j, hj, hstage⟩ := hs i paths cwd hi
  exact (h.holds j paths cwd _ hj hstage rfl d hd).entry hl

section Free
variable (ht : t.Rooted) (hcwd : ∀ i, t.entry (tasks i).cwd = some .dir)
  (hf : ∀ i paths cwd, tasks i = .layout paths cwd → ∀ l, Covers paths cwd l →
    ∀ n, t.entry l ≠ some (.file n)) (hway : OutOfTheWay tasks) {ms : List (Move ι Choice)}
  (hms : ∀ m ∈ ms, Undisturbed tasks m) {i : ι} {paths : Layout.NyxPaths} {cwd : Loc OsStr}
  (hi : tasks i = .layout paths cwd)
include ht hcwd hf hway hms hi

theorem onTrack_run : OnTrack paths cwd (runAll B tasks t ms).world ((runAll B tasks t ms).stage i) :=
  (tracks_run B tasks t ht hcwd (fun i paths cwd hi d hd l hl => hf i paths cwd hi l ⟨d, hd, hl⟩)
    hway ms hms).onTrack i paths cwd hi

theorem layout_ok {x : Except CreateDirAll.IoError Unit}
    (hx : (runAll B tasks t ms).stage i = some (.layout (.done x))) : x = .ok () ∧
      ∀ d ∈ paths.dirs, (runAll B tasks t ms).world.entry (d.loc cwd) = some .dir := by
  obtain ⟨s, hs, hholds, hsteady⟩ := (onTrack_run B tasks t ht hcwd hf hway hms hi).stage _ hx
  obtain rfl := Stage.layout.inj hs
  exact ⟨hsteady, fun d hd => (hholds hsteady d hd).entry (CreateDirAll.above_self d cwd)⟩

theorem layout_returns (hlive : Move.kill i ∉ ms)
    (hturns : Layout.budget paths ≤ turns counts i ms) :
    (runAll B tasks t ms).stage i = some (.layout (.done (.ok ()))) := by
  obtain ⟨p, hp⟩ := alive_run B tasks t hlive
  have hno : ∀ path cwd, tasks i ≠ .hash path cwd := by simp [hi]
  have hissue := issue_of_turns B tasks t hno (by rwa [hi]) hp
  have hpossible := possible_run B tasks t ms i p hp
  obtain ⟨s, rfl, -, -⟩ := (onTrack_run B tasks t ht hcwd hf hway hms hi).stage p hp
  rw [hi] at hissue hpossible
  cases s with
  | making s rest => exact absurd (Option.map_eq_none_iff.mp hissue) hpossible
  | done x => rw [hp, (layout_ok B tasks t ht hcwd hf hway hms hi hp).1]

end Free

/-- Processes that make the layout where no file is in the way all succeed, however many there
are, whatever layouts they make and whatever their requests interleave with, calls that write
files and fail or are killed included: one that is given its turns and is not killed has
returned Ok, and whenever one has returned its seventeen directories are there. -/
theorem layouts_succeed (ht : t.Rooted) (hcwd : ∀ i, t.entry (tasks i).cwd = some .dir)
    (hf : ∀ i paths cwd, tasks i = .layout paths cwd → ∀ l, Covers paths cwd l →
      ∀ n, t.entry l ≠ some (.file n))
    (hway : OutOfTheWay tasks) (ms : List (Move ι Choice)) (hms : ∀ m ∈ ms, Undisturbed tasks m)
    (i : ι) (paths : Layout.NyxPaths) (cwd : Loc OsStr) (hi : tasks i = .layout paths cwd) :
    (∀ x, (runAll B tasks t ms).stage i = some (.layout (.done x)) →
      x = .ok () ∧ ∀ d ∈ paths.dirs, (runAll B tasks t ms).world.entry (d.loc cwd) = some .dir) ∧
    (Move.kill i ∉ ms → Layout.budget paths ≤ turns counts i ms →
      (runAll B tasks t ms).stage i = some (.layout (.done (.ok ())))) :=
  ⟨fun _ hx => layout_ok B tasks t ht hcwd hf hway hms hi hx,
    fun hlive hturns => layout_returns B tasks t ht hcwd hf hway hms hi hlive hturns⟩

/-- What processes that make layouts leave, once each layout has been made by one of them, does
not depend on the schedule: on how their requests interleave, which of them fail, or which
processes are killed. One after another is one of these schedules, and nothing but the layouts
is made in any of them. -/
theorem layouts_confluent (hno : ∀ i c, tasks i ≠ .write c) (ms ns : List (Move ι Choice))
    (hms : ∀ i paths cwd, tasks i = .layout paths cwd → ∃ j, tasks j = .layout paths cwd ∧
      (runAll B tasks t ms).stage j = some (.layout (.done (.ok ()))))
    (hns : ∀ i paths cwd, tasks i = .layout paths cwd → ∃ j, tasks j = .layout paths cwd ∧
      (runAll B tasks t ns).stage j = some (.layout (.done (.ok ())))) :
    (runAll B tasks t ms).world = (runAll B tasks t ns).world ∧
      Grown (Planned tasks) t (runAll B tasks t ms).world := by
  have hm := making_run B tasks t hno ms
  have hn := making_run B tasks t hno ns
  exact ⟨hm.grown.unique hn.grown (fun l hl => hm.filled hms hl) fun l hl => hn.filled hns hl,
    hm.grown⟩

end Run

/-- The call fails to create its temporary file, and the process that makes the layout, though
held up, then runs to its end. -/
def heldUp : List (Move Bool Choice) :=
  [.act false (.go 0), .act true (.go 0), .act true (.fail .other), .kill true] ++
    List.replicate (Layout.budget .system) (.act false (.go 0))

instance (paths : Layout.NyxPaths) (cwd l : Loc OsStr) : Decidable (Covers paths cwd l) :=
  decidable_of_iff (∃ d ∈ paths.dirs, ∃ up ∈ d.comps.tails, l = Path.locate (d.start cwd) up) <| by
    simp only [List.mem_tails]
    rfl

theorem outOfTheWay_mixed : OutOfTheWay mixed := by
  intro i c hi j paths cwd hj
  cases i <;> cases hi
  cases j <;> cases hj
  decide +kernel

theorem undisturbed_heldUp : ∀ m ∈ heldUp, Undisturbed mixed m := by
  have honly : ∀ m ∈ heldUp, ∀ e, m ≠ .act false (.fail e) := by
    intro m hm e
    rcases List.mem_append.mp hm with hm | hm
    · simp only [List.mem_cons, List.not_mem_nil, or_false] at hm
      rcases hm with rfl | rfl | rfl | rfl <;> simp
    · rw [List.eq_of_mem_replicate hm]
      simp
  intro m hm i e he paths cwd hi
  cases i with
  | false => exact honly m hm e he
  | true => cases hi

theorem layouts_succeed_heldUp :
    (runAll Hash.table mixed .empty heldUp).stage false = some (.layout (.done (.ok ()))) := by
  have hcwd : ∀ i, (Volume.empty : Volume OsStr).entry (mixed i).cwd = some .dir := by
    intro i
    cases i <;> exact Volume.rooted_empty.root
  exact (layouts_succeed Hash.table mixed .empty Volume.rooted_empty hcwd
    (fun i paths cwd _ l _ => Layout.free_of_next rfl l) outOfTheWay_mixed heldUp
    undisturbed_heldUp false .system [] rfl).2 (by simp [heldUp]) (by decide +kernel)

/-- Any number of processes: the first makes the layout below /mnt, all others that of the
running system. -/
def crowd : ℕ → Task
  | 0 => .layout ⟨⟨true, [.normal (bytes "mnt")], false⟩⟩ []
  | _ + 1 => .layout .system []

def ample : ℕ := 300

/-- One process is killed when it has made a directory; then one layout is made after the other. -/
def inTurn : List (Move ℕ Choice) :=
  [.act 1 (.go 0), .act 1 (.go 0), .kill 1] ++ List.replicate ample (.act 2 (.go 0)) ++
    List.replicate ample (.act 0 (.go 0))

def together : List (Move ℕ Choice) :=
  (List.replicate ample [.act 0 (.go 0), .act 3 (.go 0)]).flatten

theorem crowd_cases {i : ℕ} {paths : Layout.NyxPaths} {cwd : Loc OsStr}
    (h : crowd i = .layout paths cwd) (j : ℕ) :
    crowd 0 = .layout paths cwd ∨ crowd (j + 1) = .layout paths cwd := by
  cases i with
  | zero => exact Or.inl h
  | succ i => exact Or.inr h

theorem crowd_returns {ms : List (Move ℕ Choice)} (hms : ∀ m ∈ ms, ∀ i e, m ≠ .act i (.fail e))
    {i : ℕ} (hlive : Move.kill i ∉ ms) (hturns : budget (crowd i) ≤ turns counts i ms) :
    (runAll Hash.table crowd .empty ms).stage i = some (.layout (.done (.ok ()))) := by
  have hcwd : ∀ i, (Volume.empty : Volume OsStr).entry (crowd i).cwd = some .dir := by
    intro i
    cases i <;> exact Volume.rooted_empty.root
  have hway : OutOfTheWay crowd := by
    intro i c hi
    cases i <;> cases hi
  obtain ⟨paths, hi⟩ : ∃ paths, crowd i = .layout paths [] := by
    cases i <;> exact ⟨_, rfl⟩
  rw [hi] at hturns
  exact layout_returns Hash.table crowd .empty Volume.rooted_empty hcwd
    (fun i paths cwd _ l _ => Layout.free_of_next rfl l) hway
    (fun m hm i e he => absurd he (hms m hm i e)) hi hlive hturns

theorem layouts_confluent_crowd : (runAll Hash.table crowd .empty inTurn).world =
    (runAll Hash.table crowd .empty together).world := by
  have hno : ∀ i c, crowd i ≠ .write c := by
    intro i c
    cases i <;> simp [crowd]
  have hin : ∀ m ∈ inTurn, ∀ i e, m ≠ .act i (.fail e) := by
    simp only [inTurn, List.mem_append, List.mem_replicate, List.mem_cons, List.not_mem_nil]
    rintro m (((rfl | rfl | rfl | ⟨⟨⟩⟩) | ⟨-, rfl⟩) | ⟨-, rfl⟩) i e <;> simp
  have htogether : ∀ m ∈ together, ∀ i e, m ≠ .act i (.fail e) := by
    simp only [together, List.mem_flatten, List.mem_replicate]
    rintro m ⟨_, ⟨-, rfl⟩, hm⟩ i e
    simp only [List.mem_cons, List.not_mem_nil, or_false] at hm
    rcases hm with rfl | rfl <;> simp
  refine (layouts_confluent Hash.table crowd .empty hno inTurn together (fun i paths cwd hi => ?_)
    fun i paths cwd hi => ?_).1
  · rcases crowd_cases hi 1 with h | h
    · exact ⟨0, h, crowd_returns hin (by simp [inTurn]) (by decide +kernel)⟩
    · exact ⟨2, h, crowd_returns hin (by simp [inTurn]) (by decide +kernel)⟩
  · rcases crowd_cases hi 2 with h | h
    · exact ⟨0, h, crowd_returns htogether (by simp [together]) (by decide +kernel)⟩
    · exact ⟨3, h, crowd_returns htogether (by simp [together]) (by decide +kernel)⟩

end Nyx.System
