import Nyx.Layout

/-! What `ensure_layout` makes of a file tree, however far it gets, and what running it again
makes of that. -/
namespace Nyx.Layout
open FileTree Interaction Text
open CreateDirAll (IoError Serves Made Above Free Grown OnCourse)

/-- The places of the seventeen directories and of their ancestors. -/
def Covers (paths : NyxPaths) (cwd l : Loc OsStr) : Prop := ∃ d ∈ paths.dirs, Above d cwd l

/-- The directories come one after the other, and those before the one at hand are made. -/
def Holds (paths : NyxPaths) (cwd : Loc OsStr) (t : Volume OsStr) : Stage → Prop
  | .making s rest => CreateDirAll.issue s ≠ none ∧ ∃ made d,
      paths.dirs = made ++ d :: rest ∧ Serves d s ∧ ∀ x ∈ made, Made t.toImage cwd x
  | .done r => r = .ok () → ∀ d ∈ paths.dirs, Made t.toImage cwd d

section Step
variable {paths : NyxPaths} {cwd : Loc OsStr} {t u : Volume OsStr} {s : Stage} {r : Request OsStr}

theorem holds_next {x : CreateDirAll.Stage OsStr} {made rest : List (Path OsStr)} {d : Path OsStr}
    (hdirs : paths.dirs = made ++ d :: rest) (hs : Serves d x)
    (hmade : ∀ y ∈ made, Made t.toImage cwd y) (hd : x = .done (.ok ()) → Made t.toImage cwd d) :
    Holds paths cwd t (next x rest) := by
  cases x with
  | mkdir e below again =>
    rw [next_mkdir]
    exact ⟨Option.some_ne_none _, made, d, hdirs, hs, hmade⟩
  | isDir e below again k =>
    rw [next_isDir]
    exact ⟨Option.some_ne_none _, made, d, hdirs, hs, hmade⟩
  | done res =>
    cases res with
    | error e =>
      rw [next_error]
      intro h
      cases h
    | ok _ =>
      have hall : ∀ y ∈ made ++ [d], Made t.toImage cwd y := by
        intro y hy
        rcases List.mem_append.mp hy with hy | hy
        · exact hmade y hy
        · rw [List.mem_singleton.mp hy]
          exact hd rfl
      cases rest with
      | nil =>
        intro _
        rw [hdirs]
        exact hall
      | cons e rest =>
        have hdirs' : paths.dirs = (made ++ [d]) ++ e :: rest := by rw [hdirs, List.append_assoc]; rfl
        have hnamed := (dirs_below paths e (by simp [hdirs])).named
        have hstart : next (.done (.ok ())) (e :: rest) = .making (.mkdir e [] false) rest := by
          simp [next, CreateDirAll.start, hnamed]
        rw [hstart]
        exact ⟨Option.some_ne_none _, made ++ [d], e, hdirs', .goal hnamed, hall⟩

theorem holds_start (paths : NyxPaths) (cwd : Loc OsStr) (t : Volume OsStr) :
    Holds paths cwd t (start paths) := by
  have hnamed := (dirs_below paths paths.etcDir List.mem_cons_self).named
  have hstart : start paths = .making (.mkdir paths.etcDir [] false) paths.dirs.tail := by
    simp [start, NyxPaths.dirs, next, CreateDirAll.start, hnamed]
  rw [hstart]
  exact ⟨Option.some_ne_none _, [], paths.etcDir, rfl, .goal hnamed,
    fun x hx => absurd hx List.not_mem_nil⟩

theorem grown_step (h : Holds paths cwd t s) (hr : issue s = some r) (ch : Choice) :
    Grown (Covers paths cwd) t (t.apply (t.outcome cwd ch r).2) := by
  cases s with
  | making s rest =>
    obtain ⟨-, made, d, hdirs, hs, -⟩ := h
    have hd : d ∈ paths.dirs := by simp [hdirs]
    exact (CreateDirAll.grown_outcome hs hr ch).mono fun l hl => ⟨d, hd, hl⟩
  | done x => cases hr

theorem holds_step (h : Holds paths cwd t s) (hr : issue s = some r) (ch : Choice) :
    Holds paths cwd (t.apply (t.outcome cwd ch r).2) (resume s (t.outcome cwd ch r).1) := by
  have hgrown := grown_step h hr ch
  cases s with
  | making s rest =>
    obtain ⟨-, made, d, hdirs, hs, hmade⟩ := h
    exact holds_next hdirs (CreateDirAll.serves_resume hs _) (fun x hx => hgrown.made (hmade x hx))
      (CreateDirAll.made_of_done hs hr)
  | done x => cases hr

theorem rooted_step (ht : t.Rooted) (hr : issue s = some r) (ch : Choice) :
    (t.apply (t.outcome cwd ch r).2).Rooted := by
  cases s with
  | making s rest => exact CreateDirAll.rooted_outcome ht hr ch
  | done x => cases hr

theorem cost_step (hr : issue s = some r) (ch : Choice) :
    cost (resume s (t.outcome cwd ch r).1) < cost s := by
  cases s with
  | making x rest => exact cost_resume hr (CreateDirAll.reply_issue hr ch)
  | done x => cases hr

end Step

/-- What holds of a run of `ensure_layout` at every instant. -/
structure Running (paths : NyxPaths) (cwd : Loc OsStr) (t u : Volume OsStr) (s : Stage) : Prop where
  holds : Holds paths cwd u s
  grown : Grown (Covers paths cwd) t u
  rooted : t.Rooted → u.Rooted

section Run
variable {paths : NyxPaths} {cwd : Loc OsStr} {t u : Volume OsStr} {s : Stage} {r : Request OsStr}

theorem Running.step (h : Running paths cwd t u s) (hr : issue s = some r) (ch : Choice) :
    Running paths cwd t (u.apply (u.outcome cwd ch r).2) (resume s (u.outcome cwd ch r).1) where
  holds := holds_step h.holds hr ch
  grown := h.grown.trans (grown_step h.holds hr ch)
  rooted ht := rooted_step (h.rooted ht) hr ch

theorem running_start (paths : NyxPaths) (cwd : Loc OsStr) (t : Volume OsStr) :
    Running paths cwd t t (start paths) := ⟨holds_start paths cwd t, .refl _ _, id⟩

theorem running (paths : NyxPaths) (cwd : Loc OsStr) (ks : List Choice) (t : Volume OsStr) :
    Running paths cwd t (ensureLayout paths cwd ks t).world
      (ensureLayout paths cwd ks t).stage := by
  refine run_invariant (fun c => Running paths cwd t c.world c.stage) (fun c k r hr h => ?_) _ ks
    (running_start paths cwd t)
  rw [advance_issued hr]
  exact h.step hr k

/-- Every request does what the tree allows. -/
def Undisturbed (ks : List Choice) : Prop := ∀ k ∈ ks, ∃ n, k = .go n

/-- No request has failed, and none will. -/
def Steady (t : Volume OsStr) (cwd : Loc OsStr) : Stage → Prop
  | .making s _ => OnCourse t cwd s
  | .done r => r = .ok ()

theorem steady_next {x : CreateDirAll.Stage OsStr} {rest : List (Path OsStr)}
    (h : OnCourse t cwd x) : Steady t cwd (next x rest) := by
  induction rest generalizing x with
  | nil =>
    cases x with
    | mkdir | isDir => exact h
    | done r =>
      obtain rfl : r = .ok () := h
      rfl
  | cons d rest ih =>
    cases x with
    | mkdir | isDir => exact h
    | done r =>
      obtain rfl : r = .ok () := h
      exact ih (CreateDirAll.onCourse_start _ _ d)

theorem Steady.step (h : Running paths cwd t u s) (hu : u.Rooted)
    (hbase : u.entry (paths.root.start cwd) = some .dir)
    (hf : ∀ d ∈ paths.dirs, Free u.toImage cwd d) (hs : Steady u cwd s) (hr : issue s = some r)
    (n : ℕ) : Steady (u.apply (u.outcome cwd (.go n) r).2) cwd
      (resume s (u.outcome cwd (.go n) r).1) := by
  cases s with
  | making x rest =>
    obtain ⟨-, made, d, hdirs, hx, -⟩ := h.holds
    have hd : d ∈ paths.dirs := by simp [hdirs]
    have hstart : d.start cwd = paths.root.start cwd := by
      rw [Path.start, Path.start, (dirs_below paths d hd).rooted]
    exact steady_next (CreateDirAll.onCourse_resume hu (hf d hd) (hstart ▸ hbase) hx hs hr n)
  | done x => cases hr

/-- Undisturbed, and with no file in the way, `ensure_layout` succeeds. -/
theorem ensureLayout_succeeds (ht : t.Rooted) (hbase : t.entry (paths.root.start cwd) = some .dir)
    (hf : ∀ d ∈ paths.dirs, Free t.toImage cwd d) {ks : List Choice} (hks : Undisturbed ks)
    (hlen : budget paths ≤ ks.length) :
    (ensureLayout paths cwd ks t).stage = .done (.ok ()) := by
  obtain ⟨hissue, hrun, hsteady⟩ := run_returns (P := program) (K := Volume.respond cwd) cost
    (fun k => ∃ n, k = Choice.go n)
    (fun c => Running paths cwd t c.world c.stage ∧ Steady c.world cwd c.stage)
    (fun s r hr => cost_pos hr)
    (by
      rintro c k r hr ⟨n, rfl⟩ ⟨hrun, hsteady⟩
      rw [advance_issued hr]
      exact ⟨⟨hrun.step hr (.go n), hsteady.step hrun (hrun.rooted ht) (hrun.grown.dir hbase)
        (fun d hd => hrun.grown.free (hf d hd)) hr n⟩, cost_step hr (.go n)⟩)
    ⟨t, start paths, []⟩ ks hks ⟨running_start paths cwd t, steady_next rfl⟩
    ((cost_start paths).trans hlen)
  change issue (ensureLayout paths cwd ks t).stage = none at hissue
  change Steady _ cwd (ensureLayout paths cwd ks t).stage at hsteady
  change Running paths cwd t _ (ensureLayout paths cwd ks t).stage at hrun
  cases hs : (ensureLayout paths cwd ks t).stage with
  | making x rest =>
    rw [hs] at hissue hrun
    exact absurd hissue hrun.holds.1
  | done x =>
    rw [hs] at hsteady
    exact congrArg Stage.done hsteady

theorem Running.filled (h : Running paths cwd t u (.done (.ok ()))) {l : Loc OsStr}
    (hl : Covers paths cwd l) : u.entry l = some .dir := by
  obtain ⟨d, hd, hl⟩ := hl
  exact (h.holds rfl d hd).entry hl

/-- A run that returns Ok leaves what any other does that starts from the same tree, or from
what runs cut short have made of it. -/
theorem Running.unique {v w : Volume OsStr} (hv : Grown (Covers paths cwd) t v)
    (hu : Running paths cwd v u (.done (.ok ()))) (hw : Running paths cwd t w (.done (.ok ()))) :
    u = w :=
  (hv.trans hu.grown).unique hw.grown (fun _ hl => hu.filled hl) fun _ hl => hw.filled hl

/-- One run after the other, each cut short or not. -/
def retried (paths : NyxPaths) (cwd : Loc OsStr) (runs : List (List Choice)) (t : Volume OsStr) :
    Volume OsStr :=
  runs.foldl (fun v ks => (ensureLayout paths cwd ks v).world) t

theorem grown_retried (paths : NyxPaths) (cwd : Loc OsStr) (runs : List (List Choice))
    (t : Volume OsStr) : Grown (Covers paths cwd) t (retried paths cwd runs t) := by
  induction runs generalizing t with
  | nil => exact .refl _ _
  | cons ks runs ih => exact (running paths cwd ks t).grown.trans (ih _)

theorem start_dir (paths : NyxPaths) (ht : t.Rooted) (hcwd : t.entry cwd = some .dir) :
    t.entry (paths.root.start cwd) = some .dir := by
  unfold Path.start
  split_ifs
  · exact ht.root
  · exact hcwd

end Run

/-- `ensure_layout` makes nothing but directories of the layout and their ancestors, where
nothing was, and touches nothing else. Once it has returned Ok all seventeen are there, and
another call changes nothing and succeeds. It succeeds wherever no file is in the way. Runs
that are cut short or fail change nothing about what a later run that returns Ok leaves. -/
theorem ensureLayout_confluent (paths : NyxPaths) (cwd : Loc OsStr) (t : Volume OsStr)
    (ht : t.Rooted) (hcwd : t.entry cwd = some .dir) :
    (paths.dirs.length = 17 ∧
      (∀ d ∈ paths.dirs, d.rooted = paths.root.rooted ∧ paths.root.comps <:+ d.comps) ∧
      ∀ ks, Grown (Covers paths cwd) t (ensureLayout paths cwd ks t).world) ∧
    (∀ ks, (ensureLayout paths cwd ks t).stage = .done (.ok ()) →
      let u := (ensureLayout paths cwd ks t).world
      (∀ d ∈ paths.dirs, u.entry (d.loc cwd) = some .dir) ∧
        ∀ ls, (ensureLayout paths cwd ls u).world = u ∧
          (Undisturbed ls → budget paths ≤ ls.length →
            (ensureLayout paths cwd ls u).stage = .done (.ok ()))) ∧
    ((∀ l, Covers paths cwd l → ∀ i, t.entry l ≠ some (.file i)) →
      ∀ ks, Undisturbed ks → budget paths ≤ ks.length →
        (ensureLayout paths cwd ks t).stage = .done (.ok ())) ∧
    ∀ (runs : List (List Choice)) (ks : List Choice),
      (ensureLayout paths cwd ks (retried paths cwd runs t)).stage = .done (.ok ()) →
        (∀ ls, Undisturbed ls → budget paths ≤ ls.length →
          (ensureLayout paths cwd ls t).stage = .done (.ok ())) ∧
        ∀ ls, (ensureLayout paths cwd ls t).stage = .done (.ok ()) →
          (ensureLayout paths cwd ks (retried paths cwd runs t)).world =
            (ensureLayout paths cwd ls t).world := by
  have hbase := start_dir paths ht hcwd
  refine ⟨⟨rfl, fun d hd => ?_, fun ks => (running paths cwd ks t).grown⟩, fun ks hks => ?_,
    fun hf ks hgo hlen => ?_, fun runs ks hks => ?_⟩
  · have hbelow := dirs_below paths d hd
    exact ⟨hbelow.rooted, hbelow.comps⟩
  · have hrun := running paths cwd ks t
    rw [hks] at hrun
    refine ⟨fun d hd => hrun.filled ⟨d, hd, CreateDirAll.above_self d cwd⟩, fun ls => ⟨?_, ?_⟩⟩
    · have hagain := running paths cwd ls (ensureLayout paths cwd ks t).world
      exact hagain.grown.unique (.refl _ _) (fun l hl => hagain.grown.dir (hrun.filled hl))
        fun l hl => hrun.filled hl
    · intro hgo hlen
      refine ensureLayout_succeeds (hrun.rooted ht) (hrun.grown.dir hbase) ?_ hgo hlen
      intro d hd l hl i hi
      rw [hrun.filled ⟨d, hd, hl⟩] at hi
      cases hi
  · exact ensureLayout_succeeds ht hbase (fun d hd l hl => hf l ⟨d, hd, hl⟩) hgo hlen
  · have hv := grown_retried paths cwd runs t
    have hrun := running paths cwd ks (retried paths cwd runs t)
    rw [hks] at hrun
    constructor
    · intro ls hgo hlen
      refine ensureLayout_succeeds ht hbase ?_ hgo hlen
      -- a file in the way would still be there after the run that returned Ok
      intro d hd l hl i hi
      have hdir := hrun.filled ⟨d, hd, hl⟩
      rcases (hv.trans hrun.grown).entry l with h | ⟨h, -⟩
      · rw [h, hi] at hdir
        cases hdir
      · rw [hi] at h
        cases h
    · intro ls hls
      have hone := running paths cwd ls t
      rw [hls] at hone
      exact hrun.unique hv hone

/-- Requests enough for the layout of the running system, none of which fails. -/
def plenty : List Choice := List.replicate (budget .system) (.go 0)

theorem undisturbed_plenty : Undisturbed plenty := fun _ hk => ⟨0, List.eq_of_mem_replicate hk⟩

theorem budget_plenty : budget .system ≤ plenty.length := by
  rw [plenty, List.length_replicate]

theorem free_of_next {t : Volume OsStr} (h : t.next = 0) (l : Loc OsStr) (i : ℕ) :
    t.entry l ≠ some (.file i) := by
  intro hi
  have hlt := t.fresh hi
  omega

/-- What a run leaves that makes one directory and ends when it fails to make the next. -/
def interrupted : Volume OsStr :=
  retried .system [] [[.go 0, .go 0, .fail .other]] .empty

theorem ensureLayout_confluent_system :
    ((ensureLayout .system [] plenty .empty).stage = .done (.ok ()) ∧
      ∀ d ∈ NyxPaths.system.dirs,
        (ensureLayout .system [] plenty .empty).world.entry (d.loc []) = some .dir) ∧
    ((ensureLayout .system [] plenty (ensureLayout .system [] plenty .empty).world).stage =
        .done (.ok ()) ∧
      (ensureLayout .system [] plenty (ensureLayout .system [] plenty .empty).world).world =
        (ensureLayout .system [] plenty .empty).world) ∧
    (ensureLayout .system [] plenty interrupted).stage = .done (.ok ()) ∧
    (ensureLayout .system [] plenty interrupted).world =
      (ensureLayout .system [] plenty .empty).world := by
  have hempty : (Volume.empty : Volume OsStr).entry [] = some .dir := Volume.rooted_empty.root
  have hgrown := grown_retried .system [] [[.go 0, .go 0, .fail .other]] .empty
  have hrooted : interrupted.Rooted :=
    (running .system [] [.go 0, .go 0, .fail .other] .empty).rooted Volume.rooted_empty
  obtain ⟨-, hagain, hok, hretry⟩ :=
    ensureLayout_confluent .system [] .empty Volume.rooted_empty hempty
  have hu := hok (fun l _ i => free_of_next rfl l i) plenty undisturbed_plenty budget_plenty
  obtain ⟨hdirs, hls⟩ := hagain plenty hu
  have hv := (ensureLayout_confluent .system [] interrupted hrooted (hgrown.dir hempty)).2.2.1
    (fun l _ i => free_of_next hgrown.next l i) plenty undisturbed_plenty budget_plenty
  exact ⟨⟨hu, hdirs⟩, ⟨(hls plenty).2 undisturbed_plenty budget_plenty, (hls plenty).1⟩, hv,
    (hretry [[.go 0, .go 0, .fail .other]] plenty hv).2 plenty hu⟩

end Nyx.Layout
