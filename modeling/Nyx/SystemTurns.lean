import Nyx.AtomicLimit
import Nyx.System

/-! How long a process takes: it returns after so many turns of its own, whatever the processes
do that it shares the tree with. -/
namespace Nyx.System
open FileTree Interaction Text
open CreateDirAll (IoError)
open Hash (Blake3)

/-- A turn counts unless its request is interrupted, which a write makes again. -/
def counts : Choice → Bool
  | .go _ => true
  | .fail e => e ≠ .interrupted

/-- How many more turns that count a process takes that makes the layout or writes a file. -/
def cost {H : Type} : Task → Stage H → ℕ
  | .layout .., .layout s => Layout.cost s
  | .write c, .write s => Atomic.cost c s
  | _, _ => 0

def budget : Task → ℕ
  | .layout paths _ => Layout.budget paths
  | .write c => Atomic.budget c
  | .hash .. => 0

def returned {H : Type} : Stage H → Bool
  | .layout (.done _) | .write (.done _) | .hash (.done _) _ _ => true
  | .layout (.making ..) | .write _ | .hash .. => false

/-- A stage that a process can come to, whatever answers its requests. -/
def Possible {H : Type} : Task → Stage H → Prop
  | .layout .., .layout (.making s _) => CreateDirAll.issue s ≠ none
  | .write _, .write (.mkdirs s) => CreateDirAll.issue s ≠ none
  | .layout .., .layout (.done _) | .write _, .write _ | .hash .., .hash .. => True
  | _, _ => False

section Layout

theorem possible_next {H : Type} (paths : Layout.NyxPaths) (cwd : Loc OsStr)
    (s : CreateDirAll.Stage OsStr) (rest : List (Path OsStr)) :
    Possible (.layout paths cwd) (.layout (Layout.next s rest) : Stage H) := by
  induction rest generalizing s with
  | nil =>
    cases s with
    | mkdir | isDir => exact Option.some_ne_none _
    | done r => cases r <;> trivial
  | cons d rest ih =>
    cases s with
    | mkdir | isDir => exact Option.some_ne_none _
    | done r =>
      cases r with
      | error e => trivial
      | ok u => exact ih _

end Layout

theorem possible_mkdirs {H : Type} (c : Atomic.Call) (s : CreateDirAll.Stage OsStr) :
    Possible (.write c) (.write (Atomic.mkdirs c s) : Stage H) := by
  cases s with
  | mkdir | isDir => exact Option.some_ne_none _
  | done r =>
    cases r with
    | error e => trivial
    | ok u =>
      simp only [Atomic.mkdirs]
      split_ifs <;> trivial

theorem possible_writeAll {H : Type} (c : Atomic.Call) (i off : ℕ) :
    Possible (.write c) (.write (Atomic.writeAll c i off) : Stage H) := by
  unfold Atomic.writeAll
  split_ifs <;> trivial

section Step
variable {H : Type} {B : Blake3 H} {k : Task} {p : Stage H} {r : Request} {t : Volume OsStr}

theorem possible_start (k : Task) : Possible k (k.start : Stage H) := by
  cases k with
  | layout paths cwd => exact possible_next paths cwd _ _
  | write c =>
    simp only [Task.start, Atomic.start]
    split
    · trivial
    · exact possible_mkdirs c _
  | hash path cwd => trivial

theorem possible_write (c : Atomic.Call) (s : Atomic.Stage) (a : FileTree.Reply OsStr)
    (h : Possible (.write c) (.write s : Stage H)) :
    Possible (.write c) (.write (Atomic.resume c s a) : Stage H) := by
  unfold Atomic.resume
  split <;>
    first
    | trivial
    | exact h
    | exact possible_mkdirs c _
    | exact possible_writeAll c _ _
    | (split_ifs <;> first | trivial | exact possible_writeAll c _ _)

theorem possible_resume (h : Possible k p) (a : Reply) : Possible k (resume B k p a) := by
  cases k with
  | layout paths cwd =>
    cases p with
    | layout s =>
      cases a with
      | tree a =>
        cases s with
        | making s rest => exact possible_next paths cwd _ _
        | done x => trivial
      | filled | err => exact h
    | write | hash => exact h.elim
  | write c =>
    cases p with
    | write s =>
      cases a with
      | tree a => exact possible_write c s a h
      | filled | err => exact h
    | layout | hash => exact h.elim
  | hash path cwd =>
    cases p with
    | hash s file off =>
      cases a with
      | tree a => cases a <;> trivial
      | filled | err => trivial
    | layout | write => exact h.elim

/-- A process that asks for nothing has returned. -/
theorem returned_of_issue (h : Possible k p) (hr : issue k p = none) : returned p = true := by
  cases k with
  | layout paths cwd =>
    cases p with
    | layout s =>
      cases s with
      | making s rest => exact absurd (Option.map_eq_none_iff.mp hr) h
      | done x => rfl
    | write | hash => exact h.elim
  | write c =>
    cases p with
    | write s =>
      have hissue := Option.map_eq_none_iff.mp hr
      cases s with
      | mkdirs s => exact absurd hissue h
      | done x => rfl
      | create | write | flush | sync | rename | openDir | syncDir => cases hissue
    | layout | hash => exact h.elim
  | hash path cwd =>
    cases p with
    | hash s file off =>
      have hissue := Option.map_eq_none_iff.mp hr
      cases s with
      | done x => rfl
      | opening | reading => cases hissue
    | layout | write => exact h.elim

/-- An interrupted write is made again; every other answer takes a call nearer to its end. -/
theorem cost_write {c : Atomic.Call} {s : Atomic.Stage} {q : FileTree.Request OsStr}
    (hq : Atomic.issue c s = some q) (ch : Choice) :
    Atomic.cost c (Atomic.resume c s (t.outcome c.cwd ch q).1) + (if counts ch then 1 else 0) ≤
      Atomic.cost c s := by
  have strict : Atomic.cost c (Atomic.resume c s (t.outcome c.cwd ch q).1) < Atomic.cost c s →
      Atomic.cost c (Atomic.resume c s (t.outcome c.cwd ch q).1) + (if counts ch then 1 else 0) ≤
        Atomic.cost c s := by
    intro h
    split_ifs <;> omega
  cases s with
  | mkdirs m =>
    apply strict
    have hreply : (t.outcome c.cwd ch q).1 = .ok ∨ ∃ e, (t.outcome c.cwd ch q).1 = .err e :=
      CreateDirAll.reply_issue hq ch
    have hlt := CreateDirAll.cost_resume hq hreply
    refine (Atomic.cost_mkdirs c (CreateDirAll.resume m (t.outcome c.cwd ch q).1)).trans_lt ?_
    simp only [Atomic.cost]
    omega
  | create =>
    apply strict
    obtain rfl : .create c.tmpPath = q := Option.some.inj hq
    rcases t.outcome_create c.cwd ch c.tmpPath with ⟨e, h⟩ | ⟨h, -⟩ | ⟨i, h, -⟩
    · rw [h]
      exact Nat.succ_pos _
    · rw [h]
      refine (Atomic.cost_writeAll c t.next 0).trans_lt ?_
      simp only [Atomic.cost]
      omega
    · rw [h]
      refine (Atomic.cost_writeAll c i 0).trans_lt ?_
      simp only [Atomic.cost]
      omega
  | write i off =>
    obtain rfl : .write i off (c.data.drop off) = q := Option.some.inj hq
    cases ch with
    | fail e =>
      by_cases he : e = .interrupted
      · subst he
        exact Nat.le_refl _
      · apply strict
        simp [Volume.outcome, Atomic.resume, he, Atomic.cost]
    | go n =>
      apply strict
      rcases t.outcome_write c.cwd (.go n) i off (c.data.drop off) with ⟨e, h⟩ | h | ⟨m, hm, hle, h⟩
      · rcases write_taken (N := OsStr) (t.data i) i off n (c.data.drop off) with hw | ⟨m, -, -, hw⟩
        · cases (hw.symm.trans h)
        · cases (hw.symm.trans h)
      · rw [h]
        simp [Atomic.resume, Atomic.cost]
      · rw [List.length_drop] at hle
        rw [h]
        simp only [Atomic.resume, hm.ne', if_false]
        refine (Atomic.cost_writeAll c i (off + m)).trans_lt ?_
        simp only [Atomic.cost]
        omega
  | flush i =>
    apply strict
    obtain rfl : .flush i = q := Option.some.inj hq
    cases ch <;> simp [Volume.outcome, Volume.plan, Atomic.resume, Atomic.cost]
  | sync i =>
    apply strict
    obtain rfl : .fsync (.file i) = q := Option.some.inj hq
    cases ch <;> simp [Volume.outcome, Volume.plan, Atomic.resume, Atomic.cost]
  | rename =>
    apply strict
    obtain rfl : .rename c.tmpPath c.path = q := Option.some.inj hq
    rcases t.outcome_rename c.cwd ch c.tmpPath c.path with
      ⟨e, h⟩ | ⟨i, -, -, -, -, -, ⟨h, -⟩ | ⟨h, -⟩⟩ <;> simp [h, Atomic.resume, Atomic.cost]
  | openDir =>
    apply strict
    obtain rfl : .openFile c.dir = q := Option.some.inj hq
    rcases t.outcome_openFile c.cwd ch c.dir with ⟨e, h⟩ | ⟨-, ⟨h, -⟩ | ⟨i, h, -⟩⟩ <;>
      simp [h, Atomic.resume, Atomic.cost]
  | syncDir hd =>
    apply strict
    exact Nat.succ_pos _
  | done x => cases hq

theorem cost_step (hk : ∀ path cwd, k ≠ .hash path cwd) (hr : issue k p = some r) (ch : Choice)
    (w : Volume OsStr) : cost k (resume B k p (respond k.cwd ch r w).1) + (if counts ch then 1 else 0) ≤
      cost k p := by
  cases k with
  | layout paths cwd =>
    cases p with
    | layout s =>
      obtain ⟨q, hq, rfl⟩ := Option.map_eq_some_iff.mp hr
      have hlt : Layout.cost (Layout.resume s (w.outcome cwd ch q).1) < Layout.cost s :=
        Layout.cost_step hq ch
      have hone : (if counts ch then 1 else 0) ≤ 1 := by split_ifs <;> omega
      exact (Nat.add_le_add_left hone _).trans hlt
    | write | hash => cases hr
  | write c =>
    cases p with
    | write s =>
      obtain ⟨q, hq, rfl⟩ := Option.map_eq_some_iff.mp hr
      exact cost_write hq ch
    | layout | hash => cases hr
  | hash path cwd => exact absurd rfl (hk path cwd)

theorem cost_start (k : Task) : cost k (k.start : Stage H) ≤ budget k := by
  cases k with
  | layout paths cwd => exact Layout.cost_start paths
  | write c =>
    simp only [Task.start, cost, budget, Atomic.start]
    split
    · exact Nat.zero_le _
    · rename_i d hd
      have hstart := CreateDirAll.cost_start d
      have hdir : c.dir = d := by rw [Atomic.Call.dir, hd, Option.getD_some]
      have hle := Atomic.cost_mkdirs c (CreateDirAll.start d)
      unfold Atomic.budget
      rw [hdir]
      omega
  | hash path cwd => exact Nat.zero_le _

theorem cost_pos (hk : ∀ path cwd, k ≠ .hash path cwd) (hr : issue k p = some r) : 0 < cost k p := by
  cases k with
  | layout paths cwd =>
    cases p with
    | layout s =>
      obtain ⟨q, hq, rfl⟩ := Option.map_eq_some_iff.mp hr
      exact Layout.cost_pos hq
    | write | hash => cases hr
  | write c =>
    cases p with
    | write s =>
      obtain ⟨q, hq, rfl⟩ := Option.map_eq_some_iff.mp hr
      exact Atomic.cost_pos hq
    | layout | hash => cases hr
  | hash path cwd => exact absurd rfl (hk path cwd)

end Step

section Run
variable {H ι : Type} [DecidableEq ι] (B : Blake3 H) (tasks : ι → Task) (t : Volume OsStr)

theorem possible_run (ms : List (Move ι Choice)) (i : ι) (p : Stage H)
    (hp : (runAll B tasks t ms).stage i = some p) : Possible (tasks i) p := by
  induction ms using List.reverseRecOn generalizing p with
  | nil =>
    obtain rfl : (tasks i).start = p := Option.some.inj hp
    exact possible_start _
  | append_singleton ms m ih =>
    rw [runAll, interleave_append] at hp
    rcases move_stage hp with ⟨h, -⟩ | ⟨k, u, r, -, hu, -, rfl⟩
    · exact ih p h
    · exact possible_resume (ih u hu) _

theorem alive_run {ms : List (Move ι Choice)} {i : ι} (hlive : Move.kill i ∉ ms) :
    ∃ p, (runAll B tasks t ms).stage i = some p :=
  interleave_alive (s := processes tasks t) (Option.some_ne_none _) hlive

/-- A process that has been given its turns has nothing more to ask. -/
theorem issue_of_turns {ms : List (Move ι Choice)} {i : ι}
    (hk : ∀ path cwd, tasks i ≠ .hash path cwd)
    (hturns : budget (tasks i) ≤ turns counts i ms) {p : Stage H}
    (hp : (runAll B tasks t ms).stage i = some p) : issue (tasks i) p = none := by
  by_contra hopen
  obtain ⟨r, hr⟩ := Option.ne_none_iff_exists'.mp hopen
  have hbound := turns_bounded (P := fun i => program B (tasks i))
    (K := fun i => respond (tasks i).cwd) (Q := counts) (cost (tasks i))
    (fun p r ch w hr => cost_step hk hr ch w) (s := processes tasks t) rfl ms hp hopen
  have hstart := cost_start (H := H) (tasks i)
  have hpos := cost_pos hk hr
  omega

/-- A process that makes the layout or writes a file has returned, unless it is killed, once it
has been given as many turns as its budget says in which its request was not interrupted. What
it writes and where is all that the budget depends on: no other process can make it wait, by
whatever it does to the tree, and nor can requests that fail. -/
theorem returns_in_turn (ms : List (Move ι Choice)) (i : ι)
    (hk : ∀ path cwd, tasks i ≠ .hash path cwd) (hlive : Move.kill i ∉ ms)
    (hturns : budget (tasks i) ≤ turns counts i ms) :
    ∃ p, (runAll B tasks t ms).stage i = some p ∧ returned p = true ∧
      ∀ ns, Move.kill i ∉ ns → (runAll B tasks t (ms ++ ns)).stage i = some p := by
  obtain ⟨p, hp⟩ := alive_run B tasks t hlive
  have hissue : issue (tasks i) p = none := issue_of_turns B tasks t hk hturns hp
  refine ⟨p, hp, returned_of_issue (possible_run B tasks t ms i p hp) hissue, fun ns hns => ?_⟩
  have hlater : Move.kill i ∉ ms ++ ns := fun h => (List.mem_append.mp h).elim hlive hns
  obtain ⟨q, hq⟩ := alive_run B tasks t hlater
  have hq' := hq
  rw [runAll, interleave_append] at hq'
  obtain rfl := interleave_returned hp hissue hq'
  exact hq

end Run

/-- One process writes two bytes, and another one makes the layout. -/
def mixed (i : Bool) : Task :=
  if i then .write ⟨⟨false, [.normal (bytes "m")], false⟩, [1, 2], 7, some 12, []⟩
  else .layout .system []

/-- The write is interrupted once; the other process fails at once. -/
def disturbed : List (Move Bool Choice) :=
  [.act false (.fail .other), .act true (.go 1), .act false (.go 0), .act true (.go 1),
    .act true (.fail .interrupted)] ++ List.replicate 8 (.act true (.go 1))

theorem returns_in_turn_disturbed :
    ∃ p, (runAll Hash.table mixed .empty disturbed).stage true = some p ∧ returned p = true := by
  obtain ⟨p, hp, hreturned, -⟩ := returns_in_turn Hash.table mixed .empty disturbed true
    (by simp [mixed]) (by simp [disturbed]) (by decide +kernel)
  exact ⟨p, hp, hreturned⟩

end Nyx.System
