import Nyx.System

/-! The order in which calls of `write_atomic` take effect that run at the same time: whatever
the schedule, the tree holds what a store of whole contents does in which each call takes effect
at once, when its rename does. -/
namespace Nyx.System
open FileTree Interaction Text
open Hash (Blake3)

/-- The whole contents at the places of a tree. -/
abbrev Store := Loc OsStr → Option Bytes

variable {H ι : Type} [DecidableEq ι] (B : Blake3 H) (tasks : ι → Task)

/-- One call takes effect on a store. -/
def publish (a : Store) (i : ι) : Store :=
  match tasks i with
  | .write c => Function.update a c.target (some c.data)
  | .layout .. | .hash .. => a

/-- The process whose rename a move makes succeed. -/
def publisher (s : Processes ι H) : Move ι Choice → Option ι
  | .kill _ => none
  | .act i k =>
    match tasks i, s.stage i with
    | .write c, some (.write .rename) =>
      if (s.world.outcome c.cwd k (.rename c.tmpPath c.path)).1 = .ok then some i else none
    | _, _ => none

/-- The processes that have published under a schedule, in the order in which they did. -/
def order (t : Volume OsStr) (ms : List (Move ι Choice)) : List ι :=
  events (fun i => program B (tasks i)) (fun i => respond (tasks i).cwd) (publisher tasks)
    (processes tasks t) ms

/-- A process is between creating its temporary file and renaming it. -/
def Holding (s : Processes ι H) (i : ι) : Prop :=
  ∃ p, s.stage i = some (.write p) ∧ p.holding = true

/-- No call creates its temporary file while another one holds a file of that name. -/
def Clear (s : Processes ι H) : Move ι Choice → Prop
  | .kill _ => True
  | .act i _ => ∀ c, tasks i = .write c → s.stage i = some (.write .create) →
      ∀ j d, j ≠ i → tasks j = .write d → Holding s j → d.tmp ≠ c.tmp

abbrev AllClear (t : Volume OsStr) (ms : List (Move ι Choice)) : Prop :=
  Guarded (fun i => program B (tasks i)) (fun i => respond (tasks i).cwd) (Clear tasks)
    (processes tasks t) ms

/-- No call uses the place for its temporary file. -/
def Lasting (l : Loc OsStr) : Prop :=
  ∀ i c, tasks i = .write c → c.fileName.isSome → l ≠ c.tmp

/-- The state after some calls have published, in this order. -/
structure Linear (t : Volume OsStr) (published : List ι) (s : Processes ι H) : Prop where
  linkless : s.world.Linkless
  sound : ∀ i p, s.stage i = some p → Sound s.world (tasks i) p
  apart : ∀ i j c d, i ≠ j → tasks i = .write c → tasks j = .write d → Holding s i →
    Holding s j → c.tmp ≠ d.tmp
  content : ∀ l, Lasting tasks l →
    s.world.content l = published.foldl (publish tasks) t.content l
  once : published.Nodup
  effect : ∀ i u, s.stage i = some (.write u) → (u.published = true ↔ i ∈ published)

section Step
variable {B tasks} {t : Volume OsStr} {published : List ι} {s : Processes ι H}

omit [DecidableEq ι] in
theorem linear_start (ht : t.Linkless) :
    Linear tasks t [] (processes tasks t : Processes ι H) := by
  have start_write : ∀ i u, (processes tasks t : Processes ι H).stage i = some (.write u) →
      ∃ c, u = Atomic.start c := by
    intro i u hu
    have hstart : (tasks i).start = Stage.write u := Option.some.inj hu
    cases hk : tasks i with
    | write c => exact ⟨c, by simpa [hk, Task.start] using hstart.symm⟩
    | layout | hash => simp [hk, Task.start] at hstart
  have start_holding : ∀ i, ¬ Holding (processes tasks t : Processes ι H) i := by
    rintro i ⟨u, hu, hh⟩
    obtain ⟨c, rfl⟩ := start_write i u hu
    rw [Atomic.holding_start] at hh
    cases hh
  refine ⟨ht, fun i p hp => ?_, fun i j c d _ _ _ hi => absurd hi (start_holding i),
    fun l _ => rfl, List.nodup_nil, fun i u hu => ?_⟩
  · obtain rfl : (tasks i).start = p := Option.some.inj hp
    exact sound_start t (tasks i)
  · obtain ⟨c, rfl⟩ := start_write i u hu
    simp [Atomic.published_start]

theorem linear_kill (h : Linear tasks t published s) (i : ι) :
    Linear tasks t published (step B tasks s (.kill i)) := by
  have back : ∀ j p, (step B tasks s (.kill i)).stage j = some p → s.stage j = some p := by
    intro j p hp
    by_cases hji : j = i
    · subst hji
      simp [step, move] at hp
    · simpa [step, move, Function.update_of_ne hji] using hp
  refine ⟨h.linkless, fun j p hp => h.sound j p (back j p hp), fun j k c d hjk hc hd hj hk => ?_,
    h.content, h.once, fun j u hu => h.effect j u (back j _ hu)⟩
  obtain ⟨p, hp, hh⟩ := hj
  obtain ⟨q, hq, hh'⟩ := hk
  exact h.apart j k c d hjk hc hd ⟨p, back j _ hp, hh⟩ ⟨q, back k _ hq, hh'⟩

omit [DecidableEq ι] in
theorem publisher_some {i j : ι} {k : Choice} (h : publisher tasks s (.act i k) = some j) :
    ∃ c, tasks i = .write c ∧ s.stage i = some (.write .rename) := by
  simp only [publisher] at h
  split at h
  · exact ⟨_, ‹_›, ‹_›⟩
  · cases h

/-- A process is about to have a request answered, and a call stands for it. -/
structure Issues (tasks : ι → Task) (s : Processes ι H) (i : ι) (k : Choice) (p : Stage H)
    (r : Request) (c : Atomic.Call) (u : Atomic.Stage) : Prop where
  stage : s.stage i = some p
  issued : issue (tasks i) p = some r
  sound : Sound s.world (tasks i) p
  stands : StandsFor c u (tasks i) p
  touch : Atomic.Touch c s.world u (change s.world (tasks i).cwd k r)

section Issues
variable {i j : ι} {k : Choice} {p : Stage H} {r : Request} {c : Atomic.Call} {u : Atomic.Stage}

omit [DecidableEq ι] in
theorem Linear.issues (h : Linear tasks t published s) (hp : s.stage i = some p)
    (hr : issue (tasks i) p = some r) (k : Choice) : ∃ c u, Issues tasks s i k p r c u := by
  have hs := h.sound i p hp
  obtain ⟨c, u, hfor, htouch⟩ := issue_touch hr hs h.linkless k
  exact ⟨c, u, hp, hr, hs, hfor, htouch⟩

theorem Issues.step_eq (h : Issues tasks s i k p r c u) (B : Blake3 H) :
    step B tasks s (.act i k) = ⟨s.world.apply (change s.world (tasks i).cwd k r),
      Function.update s.stage i (some (resume B (tasks i) p (reply s.world (tasks i).cwd k r)))⟩ :=
  move_act _ _ h.stage h.issued k

omit [DecidableEq ι] in
/-- A move publishes exactly where it renames a temporary file onto its target. -/
theorem Issues.publisher (h : Issues tasks s i k p r c u) :
    (publisher tasks s (.act i k) = some i ∧ tasks i = .write c ∧ p = .write .rename ∧
        change s.world (tasks i).cwd k r = .rename c.tmp c.target) ∨
      System.publisher tasks s (.act i k) = none ∧
        change s.world (tasks i).cwd k r ≠ .rename c.tmp c.target := by
  obtain ⟨hp, hr, hs, hfor, htouch⟩ := h
  rcases hfor with ⟨hk, rfl⟩ | ⟨hk, m, rfl⟩
  · by_cases hu : u = .rename
    · subst hu
      rw [hk] at hr hs
      obtain rfl : .tree (.rename c.tmpPath c.path) = r := Option.some.inj hr
      have hnote : System.publisher tasks s (.act i k) =
          if (s.world.outcome c.cwd k (.rename c.tmpPath c.path)).1 = .ok then some i else none := by
        simp only [System.publisher, hk, hp]
      rcases Atomic.outcome_rename_held hs k with ⟨e, he⟩ | ⟨he, -⟩
      · right
        simp [hnote, he, change, hk, Task.cwd]
      · left
        simp [hnote, he, change, hk, Task.cwd]
    · right
      constructor
      · simp only [System.publisher, hk, hp]
        cases u <;> first | rfl | exact absurd rfl hu
      · intro hδ
        rw [hδ] at htouch
        exact hu htouch.stage_eq
  · right
    constructor
    · cases ht : tasks i with
      | write d => exact absurd ht (hk d)
      | layout | hash => simp only [System.publisher, ht]
    · intro hδ
      rw [hδ] at htouch
      cases htouch.stage_eq

omit [DecidableEq ι] in
theorem Issues.named (h : Issues tasks s i k p r c u) (hu : u = .create ∨ u.holding = true) :
    tasks i = .write c ∧ c.fileName.isSome := by
  obtain ⟨hk, rfl⟩ := h.stands.owner hu
  have hs := h.sound
  rw [hk] at hs
  rcases hu with rfl | hu
  · exact ⟨hk, hs⟩
  · obtain ⟨j, hscratch⟩ := Atomic.Holds.scratch hs hu
    exact ⟨hk, hscratch.named⟩

omit [DecidableEq ι] in
/-- Whoever is about to touch a temporary file shares its name with no other that holds one. -/
theorem Issues.apart (h : Issues tasks s i k p r c u) (hl : Linear tasks t published s)
    (hc : Clear tasks s (.act i k)) (hu : u = .create ∨ u.holding = true) {d : Atomic.Call}
    (hji : j ≠ i) (hd : tasks j = .write d) (hj : Holding s j) : d.tmp ≠ c.tmp := by
  obtain ⟨hk, hp⟩ := h.stands.owner hu
  have hst := h.stage
  rw [hp] at hst
  rcases hu with rfl | hu
  · exact hc c hk hst j d hji hd hj
  · exact hl.apart j i d c hji hd hk hj ⟨u, hst, hu⟩

/-- The stage of a call after a move is the one before, or the move has taken it there. -/
theorem Issues.stage_write (h : Issues tasks s i k p r c u) {v : Atomic.Stage}
    (hv : (step B tasks s (.act i k)).stage j = some (.write v)) :
    s.stage j = some (.write v) ∧ j ≠ i ∨ j = i ∧ tasks i = .write c ∧ p = .write u ∧
      ∃ q, r = .tree q ∧ Atomic.issue c u = some q ∧
        v = Atomic.resume c u (s.world.outcome c.cwd k q).1 := by
  rw [h.step_eq] at hv
  by_cases hji : j = i
  · subst hji
    have hv' : resume B (tasks j) p (reply s.world (tasks j).cwd k r) = .write v := by
      simpa using hv
    obtain ⟨d, w, q, hk, hw, hq, hissue, hres⟩ := resume_write h.issued h.sound hv'
    rcases h.stands with ⟨hk', hw'⟩ | ⟨hno, -⟩
    · obtain rfl := Task.write.inj (hk.symm.trans hk')
      obtain rfl := Stage.write.inj (hw.symm.trans hw')
      exact Or.inr ⟨rfl, hk, hw, q, hq, hissue, hres⟩
    · exact absurd hk (hno d)
  · exact Or.inl ⟨by simpa [Function.update_of_ne hji] using hv, hji⟩

/-- Only the moving call can have become a holder, by creating its file. -/
theorem Issues.holding (h : Issues tasks s i k p r c u)
    (hj : Holding (step B tasks s (.act i k)) j) :
    Holding s j ∧ j ≠ i ∨ j = i ∧ (u = .create ∨ u.holding = true) := by
  obtain ⟨v, hv, hh⟩ := hj
  rcases h.stage_write hv with ⟨hst, hji⟩ | ⟨hji, -, -, q, -, -, rfl⟩
  · exact Or.inl ⟨⟨v, hst, hh⟩, hji⟩
  · exact Or.inr ⟨hji, Atomic.holding_resume hh⟩

/-- A call reports what its rename came to: the stages after it say that it has published. -/
theorem Issues.effect (h : Issues tasks s i k p r c u) (hl : Linear tasks t published s)
    {v : Atomic.Stage} (hv : (step B tasks s (.act i k)).stage j = some (.write v)) :
    v.published = true ↔ j ∈ published ++ (System.publisher tasks s (.act i k)).toList := by
  rcases h.stage_write hv with ⟨hst, hji⟩ | ⟨rfl, hk, rfl, q, rfl, hissue, rfl⟩
  · rw [hl.effect j v hst]
    rcases h.publisher with ⟨hnote, -⟩ | ⟨hnote, -⟩
    · simp [hnote, hji]
    · simp [hnote]
  · have hheld : Atomic.Holds c s.world u := by
      have hs := h.sound
      rwa [hk] at hs
    have hbefore := hl.effect j u h.stage
    rcases h.publisher with ⟨hnote, -, hu, hδ⟩ | ⟨hnote, hδ⟩
    · rw [hk] at hδ
      have hpub := Atomic.published_of_rename hissue hheld
        (Atomic.unshared_of_linkless hl.linkless u) k hδ
      simp [hnote, hpub]
    · rw [hnote]
      simp only [Option.toList_none, List.append_nil]
      rw [← hbefore]
      by_cases hu : u = .rename
      · subst hu
        obtain rfl : .rename c.tmpPath c.path = q := Option.some.inj hissue
        rcases Atomic.outcome_rename_held hheld k with ⟨e, he⟩ | ⟨he, -⟩
        · rw [he]
          exact Iff.rfl
        · exact absurd (by simp [change, hk, Task.cwd, he]) hδ
      · rw [Atomic.published_resume hu]

end Issues

theorem linear_idle {i : ι} {k : Choice} (h : Linear tasks t published s)
    (hidle : ∀ p, s.stage i = some p → (program B (tasks i)).issue p = none) :
    Linear tasks t (published ++ (publisher tasks s (.act i k)).toList)
      (step B tasks s (.act i k)) := by
  have hnone : publisher tasks s (.act i k) = none := by
    by_contra hne
    obtain ⟨j, hj⟩ := Option.ne_none_iff_exists'.mp hne
    obtain ⟨c, hk, hst⟩ := publisher_some hj
    have hissue := hidle _ hst
    simp [program, issue, hk, Atomic.issue] at hissue
  rw [step, move_idle _ _ hidle, hnone]
  simpa using h

theorem linear_act (hn : ∀ i c, tasks i = .write c → Lasting tasks c.target)
    (h : Linear tasks t published s) {i : ι} {k : Choice} (hc : Clear tasks s (.act i k)) :
    Linear tasks t (published ++ (publisher tasks s (.act i k)).toList)
      (step B tasks s (.act i k)) := by
  rcases idle_or_issues (fun i => program B (tasks i)) s i with hidle | ⟨p, r, hp, hr⟩
  · exact linear_idle h hidle
  · obtain ⟨c, u, hi⟩ := h.issues hp hr k
    have hstep := hi.step_eq B
    refine ⟨?_, fun j q hq => ?_, fun j l cj cl hjl hcj hcl hj hl => ?_, fun l hl => ?_, ?_,
      fun j v hv => hi.effect h hv⟩
    · rw [hstep]
      exact Volume.linkless_apply h.linkless _
    · rw [hstep] at hq ⊢
      by_cases hji : j = i
      · subst hji
        obtain rfl : resume B (tasks j) p (reply s.world (tasks j).cwd k r) = q := by
          simpa using hq
        exact sound_resume hr hi.sound h.linkless k
      · replace hq : s.stage j = some q := by simpa [Function.update_of_ne hji] using hq
        refine touch_sound hi.touch (h.sound j q hq) fun d w hd hw hwh hu => ?_
        subst hw
        have hsj := h.sound j _ hq
        rw [hd] at hsj
        obtain ⟨x, hscratch⟩ := Atomic.Holds.scratch hsj hwh
        exact ⟨hi.apart h hc hu hji hd ⟨w, hq, hwh⟩,
          (hn i c (hi.named hu).1 j d hd hscratch.named).symm⟩
    · rcases hi.holding hj with ⟨hheld, hji⟩ | ⟨rfl, hu⟩
      · rcases hi.holding hl with ⟨hheld', -⟩ | ⟨rfl, hu⟩
        · exact h.apart j l cj cl hjl hcj hcl hheld hheld'
        · obtain rfl := Task.write.inj (hcl.symm.trans (hi.named hu).1)
          exact hi.apart h hc hu hji hcj hheld
      · obtain rfl := Task.write.inj (hcj.symm.trans (hi.named hu).1)
        rcases hi.holding hl with ⟨hheld, -⟩ | ⟨rfl, -⟩
        · exact (hi.apart h hc hu hjl.symm hcl hheld).symm
        · exact absurd rfl hjl
    · have hcont := hi.touch.content fun hu => hl i c (hi.named hu).1 (hi.named hu).2
      rw [hstep, List.foldl_append]
      refine hcont.trans ?_
      rw [h.content l hl]
      rcases hi.publisher with ⟨hnote, hk, -, hδ⟩ | ⟨hnote, hδ⟩
      · rw [hnote, hδ]
        simp only [Option.toList_some, List.foldl_cons, List.foldl_nil, publish, hk, true_and,
          Function.update_apply]
      · rw [hnote, if_neg fun hx => hδ hx.1]
        rfl
    · rcases hi.publisher with ⟨hnote, hk, rfl, -⟩ | ⟨hnote, -⟩
      · have hfresh : i ∉ published := fun hi => by cases (h.effect i _ hp).mpr hi
        rw [hnote, Option.toList_some, ← List.concat_eq_append]
        exact h.once.concat hfresh
      · rw [hnote]
        simpa using h.once

end Step

theorem order_snoc (t : Volume OsStr) (ms : List (Move ι Choice)) (m : Move ι Choice) :
    order B tasks t (ms ++ [m]) =
      order B tasks t ms ++ (publisher tasks (runAll B tasks t ms) m).toList :=
  events_snoc _ _ _ _

theorem linear_move (t : Volume OsStr)
    (hn : ∀ i c, tasks i = .write c → Lasting tasks c.target) (ms : List (Move ι Choice))
    (m : Move ι Choice) (hm : Clear tasks (runAll B tasks t ms) m)
    (hs : Linear tasks t (order B tasks t ms) (runAll B tasks t ms)) :
    Linear tasks t (order B tasks t (ms ++ [m])) (step B tasks (runAll B tasks t ms) m) := by
  rw [order_snoc]
  cases m with
  | kill i =>
    simp only [publisher, Option.toList_none, List.append_nil]
    exact linear_kill hs i
  | act i k => exact linear_act hn hs hm

theorem linear_run (t : Volume OsStr) (ht : t.Linkless)
    (hn : ∀ i c, tasks i = .write c → Lasting tasks c.target) (ms : List (Move ι Choice))
    (hc : AllClear B tasks t ms) :
    Linear tasks t (order B tasks t ms) (runAll B tasks t ms) :=
  interleave_history (fun ms s => Linear tasks t (order B tasks t ms) s) _
    (fun ms m hm hs => linear_move B tasks t hn ms m hm hs) ms hc (linear_start ht)

/-- Distinct temporary names are enough for every schedule to be clear. -/
theorem allClear_of_distinct {tasks : ι → Task} (t : Volume OsStr)
    (hd : ∀ i j c d, i ≠ j → tasks i = .write c → tasks j = .write d → c.tmp ≠ d.tmp)
    (ms : List (Move ι Choice)) : AllClear B tasks t ms := by
  refine guarded_of_invariant _ _ (fun _ => True) (fun s m _ => ⟨?_, trivial⟩) _ ms trivial
  cases m with
  | kill i => trivial
  | act i k => exact fun c hk _ j d hji hd' _ => hd j i d c hji hd' hk

/-- Two calls for one path at different readings of the clock. -/
def rival (i : Bool) : Atomic.Call :=
  ⟨⟨false, [.normal (bytes "m")], false⟩, if i then [1, 2] else [3], 7,
    some (if i then 12 else 13), []⟩

def rivals (i : Bool) : Task := .write (rival i)

/-- Both have a temporary file when the first one renames its own, and the second one after it. -/
def racing : List (Move Bool Choice) :=
  List.replicate 2 (.act true (.go 2)) ++ List.replicate 2 (.act false (.go 2)) ++
    List.replicate 4 (.act true (.go 2)) ++ List.replicate 3 (.act false (.go 2))

theorem rivals_lasting (i : Bool) (c : Atomic.Call) (h : rivals i = .write c) :
    Lasting rivals c.target := by
  obtain rfl := Task.write.inj h
  intro j d hd _
  obtain rfl := Task.write.inj hd
  have hne : ∀ i j, (rival i).target ≠ (rival j).tmp := by decide +kernel
  exact hne i j

theorem rivals_clear : AllClear Hash.table rivals .empty racing := by
  refine allClear_of_distinct _ _ (fun i j c d hij hc hd => ?_) _
  obtain rfl := Task.write.inj hc
  obtain rfl := Task.write.inj hd
  have hne : ∀ i j, i ≠ j → (rival i).tmp ≠ (rival j).tmp := by decide +kernel
  exact hne i j hij

end Nyx.System
