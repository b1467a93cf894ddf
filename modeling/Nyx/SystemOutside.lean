import Nyx.System

/-! What lies outside the reach of every process: no schedule changes anything there, whatever
fails, whoever is killed, and even where processes share the name of a temporary file. -/
namespace Nyx.System
open FileTree Interaction Text
open CreateDirAll (Serves Tower Above above_self)
open Hash (Blake3)

/-- The places where a task makes directories, keeps its temporary file and puts its file. -/
def Task.Reaches : Task → Loc OsStr → Prop
  | .layout paths cwd, l => Layout.Covers paths cwd l
  | .write c, l => Above c.dir c.cwd l ∨ l = c.tmp ∨ l = c.target
  | .hash .., _ => False

def Outside {ι : Type} (tasks : ι → Task) (l : Loc OsStr) : Prop := ∀ i, ¬(tasks i).Reaches l

/-- A process that makes directories is at work on one that its task asks for. -/
def OnTask {H : Type} : Task → Stage H → Prop
  | .layout paths _, .layout (.making s rest) =>
    (∃ d ∈ paths.dirs, Serves d s) ∧ ∀ d ∈ rest, d ∈ paths.dirs
  | .write c, .write (.mkdirs m) => Serves c.dir m
  | _, _ => True

section Step
variable {H : Type} {B : Blake3 H} {t : Volume OsStr} {k : Task} {p : Stage H} {r : Request}

theorem onTask_next {paths : Layout.NyxPaths} {cwd : Loc OsStr} {s : CreateDirAll.Stage OsStr}
    {rest : List (Path OsStr)} (hs : ∃ d ∈ paths.dirs, Serves d s)
    (hrest : ∀ d ∈ rest, d ∈ paths.dirs) :
    OnTask (.layout paths cwd) (.layout (Layout.next s rest) : Stage H) := by
  induction rest generalizing s with
  | nil =>
    cases s with
    | mkdir | isDir => exact ⟨hs, hrest⟩
    | done x => cases x <;> trivial
  | cons d rest ih =>
    cases s with
    | mkdir | isDir => exact ⟨hs, hrest⟩
    | done x =>
      cases x with
      | error e => trivial
      | ok u =>
        exact ih ⟨d, hrest d List.mem_cons_self, CreateDirAll.serves_start d⟩
          fun e he => hrest e (List.mem_cons_of_mem _ he)

theorem onTask_mkdirs {c : Atomic.Call} {m : CreateDirAll.Stage OsStr} (h : Serves c.dir m) :
    OnTask (.write c) (.write (Atomic.mkdirs c m) : Stage H) := by
  cases m with
  | mkdir | isDir => exact h
  | done x =>
    cases x with
    | error e => trivial
    | ok u =>
      simp only [Atomic.mkdirs]
      split_ifs <;> trivial

theorem onTask_start (k : Task) : OnTask k (k.start : Stage H) := by
  cases k with
  | layout paths cwd =>
    exact onTask_next ⟨paths.etcDir, List.mem_cons_self, trivial⟩ fun d hd => hd
  | write c =>
    cases hp : c.path.parent with
    | none => simp [Task.start, Atomic.start, hp, OnTask]
    | some d =>
      have hdir : c.dir = d := by rw [Atomic.Call.dir, hp, Option.getD_some]
      simp only [Task.start, Atomic.start, hp, ← hdir]
      exact onTask_mkdirs (CreateDirAll.serves_start c.dir)
  | hash path cwd => trivial

/-- Only the making of directories leads to the making of directories. -/
theorem onTask_write {c : Atomic.Call} {s : Atomic.Stage} (a : FileTree.Reply OsStr)
    (h : OnTask (.write c) (.write s : Stage H)) :
    OnTask (.write c) (.write (Atomic.resume c s a) : Stage H) := by
  have hwriteAll : ∀ i off, OnTask (.write c) (.write (Atomic.writeAll c i off) : Stage H) := by
    intro i off
    unfold Atomic.writeAll
    split_ifs <;> trivial
  unfold Atomic.resume
  split <;>
    first
    | exact onTask_mkdirs (CreateDirAll.serves_resume h a)
    | exact hwriteAll _ _
    | trivial
    | (split_ifs <;> first | trivial | exact hwriteAll _ _)

theorem onTask_resume (h : OnTask k p) (a : Reply) : OnTask k (resume B k p a) := by
  cases k with
  | layout paths cwd =>
    cases p with
    | layout s =>
      cases a with
      | tree a =>
        cases s with
        | done x => trivial
        | making s rest =>
          obtain ⟨⟨d, hd, hs⟩, hrest⟩ := h
          exact onTask_next ⟨d, hd, CreateDirAll.serves_resume hs a⟩ hrest
      | filled | err => exact h
    | write | hash => exact h
  | write c =>
    cases p with
    | write s =>
      cases a with
      | tree a => exact onTask_write a h
      | filled | err => exact h
    | layout | hash => exact h
  | hash path cwd => trivial

/-- What `create_dir_all` changes is a place of the path it was asked for. -/
theorem mkdir_above {goal : Path OsStr} {s : CreateDirAll.Stage OsStr}
    {q : FileTree.Request OsStr} (h : Serves goal s) (hq : CreateDirAll.issue s = some q)
    (cwd : Loc OsStr) (ch : Choice) :
    (∀ l ∈ (t.outcome cwd ch q).2.touches, Above goal cwd l) ∧
      ∀ i d, (t.outcome cwd ch q).2 ≠ .write i d := by
  rcases CreateDirAll.outcome_issue t cwd ch hq with hx | ⟨d, below, again, rfl, hx, -⟩
  · rw [hx]
    exact ⟨fun l hl => absurd hl List.not_mem_nil, fun i d hd => by cases hd⟩
  · rw [hx]
    refine ⟨fun l hl => ?_, fun i d hd => by cases hd⟩
    rw [List.mem_singleton.mp hl]
    exact Tower.above h (above_self d cwd)

/-- The inode is the one a process writes to, or the one it finds under the name of its
temporary file. -/
def Owned {H : Type} (t : Volume OsStr) (i : ℕ) : Task → Stage H → Prop
  | .write c, .write s => (∃ off, s = .write i off) ∨ t.entry c.tmp = some (.file i)
  | _, _ => False

theorem change_write {c : Atomic.Call} {s : Atomic.Stage} {q : FileTree.Request OsStr}
    (hq : Atomic.issue c s = some q) (hs : OnTask (.write c) (.write s : Stage H)) (ch : Choice) :
    (∀ l ∈ (t.outcome c.cwd ch q).2.touches, (Task.write c).Reaches l) ∧
      ∀ i d, (t.outcome c.cwd ch q).2 = .write i d → Owned t i (.write c) (.write s : Stage H) := by
  have quiet : ∀ δ : Change OsStr, δ.quiet = true →
      (∀ l ∈ δ.touches, (Task.write c).Reaches l) ∧
        ∀ i d, δ = .write i d → Owned t i (.write c) (.write s : Stage H) := by
    intro δ hδ
    refine ⟨fun l hl => ?_, ?_⟩
    · rw [Change.touches_quiet hδ] at hl
      exact absurd hl List.not_mem_nil
    · rintro i d rfl
      cases hδ
  cases s with
  | mkdirs m =>
    obtain ⟨habove, hno⟩ := mkdir_above (t := t) hs hq c.cwd ch
    exact ⟨fun l hl => Or.inl (habove l hl), fun i d hd => absurd hd (hno i d)⟩
  | create =>
    obtain rfl : .create c.tmpPath = q := Option.some.inj hq
    rcases t.outcome_create c.cwd ch c.tmpPath with ⟨e, h⟩ | ⟨h, -⟩ | ⟨i, h, hi⟩
    · rw [h]
      exact quiet _ rfl
    · rw [h]
      refine ⟨fun l hl => Or.inr (Or.inl (List.mem_singleton.mp hl)), fun i d hd => by cases hd⟩
    · rw [h]
      refine ⟨fun l hl => absurd hl List.not_mem_nil, fun j d hd => ?_⟩
      obtain ⟨rfl, -⟩ := Change.write.inj hd
      exact Or.inr hi
  | write i off =>
    obtain rfl : .write i off (c.data.drop off) = q := Option.some.inj hq
    rcases t.outcome_write c.cwd ch i off (c.data.drop off) with ⟨e, h⟩ | h | ⟨n, -, -, h⟩
    · rw [h]
      exact quiet _ rfl
    · rw [h]
      exact quiet _ rfl
    · rw [h]
      refine ⟨fun l hl => absurd hl List.not_mem_nil, fun j d hd => ?_⟩
      obtain ⟨rfl, -⟩ := Change.write.inj hd
      exact Or.inl ⟨off, rfl⟩
  | flush i =>
    obtain rfl : .flush i = q := Option.some.inj hq
    cases ch <;> exact quiet _ rfl
  | sync i =>
    obtain rfl : .fsync (.file i) = q := Option.some.inj hq
    cases ch <;> exact quiet _ rfl
  | rename =>
    obtain rfl : .rename c.tmpPath c.path = q := Option.some.inj hq
    rcases t.outcome_rename c.cwd ch c.tmpPath c.path with
      ⟨e, h⟩ | ⟨i, -, -, -, -, -, ⟨h, -⟩ | ⟨h, -⟩⟩
    · rw [h]
      exact quiet _ rfl
    · rw [h]
      exact quiet _ rfl
    · rw [h]
      refine ⟨fun l hl => ?_, fun i d hd => by cases hd⟩
      rcases List.mem_cons.mp hl with hl | hl
      · exact Or.inr (Or.inl hl)
      · exact Or.inr (Or.inr (List.mem_singleton.mp hl))
  | openDir =>
    obtain rfl : .openFile c.dir = q := Option.some.inj hq
    rcases t.outcome_openFile c.cwd ch c.dir with ⟨e, h⟩ | ⟨-, ⟨h, -⟩ | ⟨i, h, -⟩⟩ <;>
    · rw [h]
      exact quiet _ rfl
  | syncDir hd =>
    obtain rfl : .fsync hd = q := Option.some.inj hq
    cases ch with
    | fail e => exact quiet _ rfl
    | go n => cases hd <;> exact quiet _ rfl
  | done x => cases hq

/-- A request touches no place that its task does not reach, and writes to no file but the one
its process has open. -/
theorem change_reaches (hr : issue k p = some r) (hp : OnTask k p) (ch : Choice) :
    (∀ l ∈ (change t k.cwd ch r).touches, k.Reaches l) ∧
      ∀ i d, change t k.cwd ch r = .write i d → Owned t i k p := by
  cases k with
  | layout paths cwd =>
    cases p with
    | layout s =>
      obtain ⟨q, hq, rfl⟩ := Option.map_eq_some_iff.mp hr
      cases s with
      | making s rest =>
        obtain ⟨⟨d, hd, hs⟩, -⟩ := hp
        obtain ⟨habove, hno⟩ := mkdir_above (t := t) hs hq cwd ch
        exact ⟨fun l hl => ⟨d, hd, habove l hl⟩, fun i x hx => absurd hx (hno i x)⟩
      | done x => cases hq
    | write | hash => cases hr
  | write c =>
    cases p with
    | write s =>
      obtain ⟨q, hq, rfl⟩ := Option.map_eq_some_iff.mp hr
      exact change_write hq hp ch
    | layout | hash => cases hr
  | hash path cwd =>
    cases p with
    | hash s file off =>
      rw [Task.cwd, issue_hash hr]
      exact ⟨fun l hl => absurd hl List.not_mem_nil, fun i d hd => by cases hd⟩
    | layout | write => cases hr

/-- The file a process comes to write to is the one it has just opened, or had open before. -/
theorem owned_resume (hr : issue k p = some r) (ch : Choice) {c : Atomic.Call} {i off : ℕ}
    (hk : k = .write c) (hv : resume B k p (reply t k.cwd ch r) = .write (.write i off)) :
    i = t.next ∨ Owned t i k p := by
  subst hk
  cases p with
  | layout | hash => cases hr
  | write s =>
    obtain ⟨q, hq, rfl⟩ := Option.map_eq_some_iff.mp hr
    have hv' : Atomic.resume c s (t.outcome c.cwd ch q).1 = .write i off := Stage.write.inj hv
    have hopen : ∀ j x, Atomic.writeAll c j x = .write i off → j = i := by
      intro j x hj
      unfold Atomic.writeAll at hj
      split_ifs at hj
      exact (Atomic.Stage.write.inj hj).1
    cases s with
    | create =>
      obtain rfl : .create c.tmpPath = q := Option.some.inj hq
      rcases t.outcome_create c.cwd ch c.tmpPath with ⟨e, h⟩ | ⟨h, -⟩ | ⟨j, h, hj⟩
      · rw [h] at hv'
        cases hv'
      · rw [h] at hv'
        exact Or.inl (hopen _ _ hv').symm
      · rw [h] at hv'
        obtain rfl := hopen _ _ hv'
        exact Or.inr (Or.inr hj)
    | write j x =>
      obtain rfl : .write j x (c.data.drop x) = q := Option.some.inj hq
      rcases t.outcome_write c.cwd ch j x (c.data.drop x) with ⟨e, h⟩ | h | ⟨n, hn, -, h⟩
      · rw [h] at hv'
        simp only [Atomic.resume] at hv'
        split_ifs at hv'
        exact Or.inr (Or.inl ⟨off, hv'⟩)
      · rw [h] at hv'
        cases hv'
      · rw [h] at hv'
        simp only [Atomic.resume, hn.ne', if_false] at hv'
        obtain rfl := hopen _ _ hv'
        exact Or.inr (Or.inl ⟨x, rfl⟩)
    | mkdirs m =>
      simp only [Atomic.resume, Atomic.mkdirs] at hv'
      split at hv'
      · split_ifs at hv'
      · cases hv'
      · cases hv'
    | flush j =>
      obtain rfl : .flush j = q := Option.some.inj hq
      cases ch <;> cases hv'
    | sync j =>
      obtain rfl : .fsync (.file j) = q := Option.some.inj hq
      cases ch <;> cases hv'
    | rename =>
      obtain rfl : .rename c.tmpPath c.path = q := Option.some.inj hq
      rcases t.outcome_rename c.cwd ch c.tmpPath c.path with
        ⟨e, h⟩ | ⟨j, -, -, -, -, -, ⟨h, -⟩ | ⟨h, -⟩⟩ <;>
      · rw [h] at hv'
        cases hv'
    | openDir =>
      obtain rfl : .openFile c.dir = q := Option.some.inj hq
      rcases t.outcome_openFile c.cwd ch c.dir with ⟨e, h⟩ | ⟨-, ⟨h, -⟩ | ⟨j, h, -⟩⟩ <;>
      · rw [h] at hv'
        cases hv'
    | syncDir hd => cases hv'
    | done x => cases hq

end Step

section Run
variable {H ι : Type} [DecidableEq ι] (B : Blake3 H) (tasks : ι → Task) (t : Volume OsStr)

/-- What a schedule keeps: nothing outside the reach of the processes has changed, and no file
that one of them writes to has a name there. -/
structure Keeps (s : Processes ι H) : Prop where
  linkless : s.world.Linkless
  entry : ∀ l, Outside tasks l → s.world.entry l = t.entry l
  data : ∀ l i, Outside tasks l → t.entry l = some (.file i) → s.world.data i = t.data i
  onTask : ∀ i p, s.stage i = some p → OnTask (tasks i) p
  apart : ∀ i c j off, tasks i = .write c → s.stage i = some (.write (.write j off)) →
    ∀ l, Outside tasks l → t.entry l ≠ some (.file j)

omit [DecidableEq ι] in
theorem keeps_start (ht : t.Linkless) : Keeps tasks t (processes tasks t : Processes ι H) where
  linkless := ht
  entry l hl := rfl
  data l i hl hi := rfl
  onTask i p hp := by
    obtain rfl : (tasks i).start = p := Option.some.inj hp
    exact onTask_start _
  apart i c j off hi hj := by
    have hstart : (tasks i).start = Stage.write (H := H) (.write j off) := Option.some.inj hj
    rw [hi] at hstart
    have hholding := Atomic.holding_start c
    rw [Stage.write.inj hstart] at hholding
    cases hholding

section Move
variable {B tasks t} {s : Processes ι H}

theorem keeps_kill (h : Keeps tasks t s) (i : ι) : Keeps tasks t (step B tasks s (.kill i)) := by
  have hstage : ∀ j p, (step B tasks s (.kill i)).stage j = some p → s.stage j = some p := by
    intro j p hp
    by_cases hji : j = i
    · subst hji
      simp [step, move] at hp
    · simpa [step, move, Function.update_of_ne hji] using hp
  exact ⟨h.linkless, h.entry, h.data, fun j p hp => h.onTask j p (hstage j p hp),
    fun j c n off hj hp => h.apart j c n off hj (hstage j _ hp)⟩

omit [DecidableEq ι] in
/-- No file that a process may write to has a name outside. -/
theorem Keeps.owned (h : Keeps tasks t s) {i : ι} {p : Stage H} (hp : s.stage i = some p) {j : ℕ}
    (hj : Owned s.world j (tasks i) p) {l : Loc OsStr} (hl : Outside tasks l) :
    t.entry l ≠ some (.file j) := by
  cases hi : tasks i with
  | write c =>
    rw [hi] at hj
    cases p with
    | write u =>
      rcases hj with ⟨off, rfl⟩ | htmp
      · exact h.apart i c j off hi hp l hl
      · intro hfile
        rw [← h.entry l hl] at hfile
        obtain rfl := h.linkless _ _ htmp l hfile
        have hno := hl i
        rw [hi] at hno
        exact hno (Or.inr (Or.inl rfl))
    | layout | hash => exact hj.elim
  | layout | hash =>
    rw [hi] at hj
    exact hj.elim

theorem keeps_act (h : Keeps tasks t s) (i : ι) (k : Choice) :
    Keeps tasks t (step B tasks s (.act i k)) := by
  rcases idle_or_issues (fun i => program B (tasks i)) s i with hidle | ⟨p, r, hp, hr⟩
  · rw [step, move_idle _ _ hidle]
    exact h
  · obtain ⟨htouches, hwrite⟩ := change_reaches (t := s.world) hr (h.onTask i p hp) k
    rw [step, move_act _ _ hp hr]
    refine ⟨Volume.linkless_apply h.linkless _, fun l hl => ?_, fun l j hl hj => ?_,
      fun j q hq => ?_, fun j c n off hj hq l hl => ?_⟩
    · have hnot : l ∉ (change s.world (tasks i).cwd k r).touches :=
        fun hmem => hl i (htouches l hmem)
      exact (Volume.entry_apply hnot).trans (h.entry l hl)
    · have hfile : s.world.entry l = some (.file j) := by rw [h.entry l hl, hj]
      refine (Volume.data_apply (fun d hd => ?_) (s.world.fresh hfile)).trans (h.data l j hl hj)
      exact h.owned hp (hwrite j d hd) hl hj
    · by_cases hji : j = i
      · subst hji
        obtain rfl : resume B (tasks j) p (reply s.world (tasks j).cwd k r) = q := by
          simpa [respond, program] using hq
        exact onTask_resume (h.onTask j p hp) _
      · exact h.onTask j q (by simpa [Function.update_of_ne hji] using hq)
    · by_cases hji : j = i
      · subst hji
        have hv : resume B (tasks j) p (reply s.world (tasks j).cwd k r) = .write (.write n off) := by
          simpa [respond, program] using hq
        rcases owned_resume hr k hj hv with rfl | hown
        · intro hfile
          rw [← h.entry l hl] at hfile
          exact (s.world.fresh hfile).false
        · exact h.owned hp hown hl
      · exact h.apart j c n off hj (by simpa [Function.update_of_ne hji] using hq) l hl

end Move

theorem keeps_run (ht : t.Linkless) (ms : List (Move ι Choice)) :
    Keeps tasks t (runAll B tasks t ms) := by
  refine interleave_invariant (G := fun _ _ => True) _ _ (Keeps tasks t) (fun s m _ hs => ?_) _ ms
    (guarded_of_forall (fun _ _ => trivial) _) (keeps_start tasks t ht)
  cases m with
  | kill i => exact keeps_kill hs i
  | act i k => exact keeps_act hs i k

/-- Whatever the schedule, a place outside keeps its entry and what a file there holds. -/
theorem outside_kept (ht : t.Linkless) (ms : List (Move ι Choice)) {l : Loc OsStr}
    (hl : Outside tasks l) : (runAll B tasks t ms).world.entry l = t.entry l ∧
      (runAll B tasks t ms).world.content l = t.content l := by
  have hkeeps := keeps_run B tasks t ht ms
  exact ⟨hkeeps.entry l hl,
    Image.content_congr (hkeeps.entry l hl) fun i hi => hkeeps.data l i hl hi⟩

end Run

end Nyx.System
