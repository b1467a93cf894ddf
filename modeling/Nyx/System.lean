import Nyx.AtomicStep
import Nyx.Hash
import Nyx.LayoutTree
import Nyx.Schedule

/-! Nyx processes at work on one file tree at the same time: some make the layout, some write a
file, some hash one. Their requests interleave in any order, and any of them may be killed. -/
namespace Nyx.System
open FileTree Interaction Text
open Hash (Blake3)

inductive Task
  | layout (paths : Layout.NyxPaths) (cwd : Loc OsStr)
  | write (c : Atomic.Call)
  | hash (path : Path OsStr) (cwd : Loc OsStr)

deriving instance DecidableEq for Hash.Stage

/-- A process that hashes has a file open, and has read it up to some offset. -/
inductive Stage (H : Type)
  | layout (s : Layout.Stage)
  | write (s : Atomic.Stage)
  | hash (s : Hash.Stage H) (file : Option (Handle OsStr)) (off : ℕ)
  deriving DecidableEq

inductive Request
  | tree (r : FileTree.Request OsStr)
  | read (file : Option (Handle OsStr)) (off len : ℕ)

inductive Reply
  | tree (a : FileTree.Reply OsStr)
  | filled (b : Bytes)
  | err (e : ErrorKind)

def Task.cwd : Task → Loc OsStr
  | .layout _ cwd | .hash _ cwd => cwd
  | .write c => c.cwd

/-- Reading gives nothing at the end of a file, and else at least one byte. -/
def readAt (t : Volume OsStr) (off len n : ℕ) : Option (Handle OsStr) → Reply
  | some (.file i) => .filled (((t.data i).drop off).take (min (n + 1) len))
  | some (.dir _) => .err .isADirectory
  | none => .err .other

def change (t : Volume OsStr) (cwd : Loc OsStr) (ch : Choice) : Request → Change OsStr
  | .tree r => (t.outcome cwd ch r).2
  | .read .. => .none

def reply (t : Volume OsStr) (cwd : Loc OsStr) : Choice → Request → Reply
  | ch, .tree r => .tree (t.outcome cwd ch r).1
  | .fail e, .read .. => .err e
  | .go n, .read file off len => readAt t off len n file

def respond (cwd : Loc OsStr) (ch : Choice) (r : Request) (t : Volume OsStr) :
    Reply × Volume OsStr :=
  (reply t cwd ch r, t.apply (change t cwd ch r))

section Program
variable {H : Type} (B : Blake3 H)

def Task.start : Task → Stage H
  | .layout paths _ => .layout (Layout.start paths)
  | .write c => .write (Atomic.start c)
  | .hash .. => .hash .opening none 0

def hashRequest (file : Option (Handle OsStr)) (off : ℕ) : Hash.Request → Request
  | .openFile path => .tree (.openFile path)
  | .read len => .read file off len

def issue : Task → Stage H → Option Request
  | .layout .., .layout s => (Layout.issue s).map .tree
  | .write c, .write s => (Atomic.issue c s).map .tree
  | .hash path _, .hash s file off => (Hash.issue path s).map (hashRequest file off)
  | _, _ => none

def resume : Task → Stage H → Reply → Stage H
  | .layout .., .layout s, .tree a => .layout (Layout.resume s a)
  | .write c, .write s, .tree a => .write (Atomic.resume c s a)
  | .hash .., .hash s _ _, .tree (.opened h) => .hash (Hash.resume B s .opened) (some h) 0
  | .hash .., .hash s file off, .tree (.err e) => .hash (Hash.resume B s (.err e)) file off
  | .hash .., .hash s file off, .filled b =>
    .hash (Hash.resume B s (.filled b)) file (off + b.length)
  | .hash .., .hash s file off, .err e => .hash (Hash.resume B s (.err e)) file off
  | _, s, _ => s

def program (k : Task) : Program Request Reply (Stage H) := ⟨issue k, resume B k⟩

end Program

/-- What a process relies on between two requests. -/
def Sound {H : Type} (t : Volume OsStr) : Task → Stage H → Prop
  | .layout paths cwd, .layout s => Layout.Holds paths cwd t s
  | .write c, .write s => Atomic.Holds c t s
  | .hash .., .hash .. => True
  | _, _ => False

section Step
variable {H : Type} {B : Blake3 H} {t : Volume OsStr} {k : Task} {p : Stage H} {r : Request}

theorem sound_start (t : Volume OsStr) (k : Task) : Sound t k (k.start : Stage H) := by
  cases k with
  | layout paths cwd => exact Layout.holds_start paths cwd t
  | write c => exact Atomic.holds_start c t
  | hash path cwd => trivial

/-- A process and its stage are of one kind. -/
theorem Sound.cases (h : Sound t k p) :
    (∃ paths cwd s, k = .layout paths cwd ∧ p = .layout s ∧ Layout.Holds paths cwd t s) ∨
      (∃ c s, k = .write c ∧ p = .write s ∧ Atomic.Holds c t s) ∨
      ∃ path cwd s file off, k = .hash path cwd ∧ p = .hash s file off := by
  cases k <;> cases p <;> first
    | exact h.elim
    | exact Or.inl ⟨_, _, _, rfl, rfl, h⟩
    | exact Or.inr (Or.inl ⟨_, _, rfl, rfl, h⟩)
    | exact Or.inr (Or.inr ⟨_, _, _, _, _, rfl, rfl⟩)

theorem issue_hash {path : Path OsStr} {cwd : Loc OsStr} {s : Hash.Stage H}
    {file : Option (Handle OsStr)} {off : ℕ} (hr : issue (.hash path cwd) (.hash s file off) = some r)
    (ch : Choice) : change t cwd ch r = .none := by
  obtain ⟨q, hq, rfl⟩ := Option.map_eq_some_iff.mp hr
  cases q with
  | read len => rfl
  | openFile d =>
    rcases t.outcome_openFile cwd ch d with ⟨e, h⟩ | ⟨-, ⟨h, -⟩ | ⟨i, h, -⟩⟩ <;>
    · rw [hashRequest, change, h]

/-- A call at one of its stages stands for a process: for one that writes this is its own call,
and for any other one that makes directories. -/
def StandsFor (c : Atomic.Call) (s : Atomic.Stage) (k : Task) (p : Stage H) : Prop :=
  k = .write c ∧ p = .write s ∨ (∀ d, k ≠ .write d) ∧ ∃ m, s = .mkdirs m

/-- Only a process that writes is ever about to open a temporary file, or holds one. -/
theorem StandsFor.owner {c : Atomic.Call} {s : Atomic.Stage} (h : StandsFor c s k p)
    (hs : s = .create ∨ s.holding = true) : k = .write c ∧ p = .write s := by
  rcases h with h | ⟨-, m, rfl⟩
  · exact h
  · rcases hs with hs | hs <;> cases hs

/-- All that a request of any process can change is what a call that writes could. -/
theorem issue_touch (hr : issue k p = some r) (hs : Sound t k p) (ht : t.Linkless) (ch : Choice) :
    ∃ c s, StandsFor c s k p ∧ Atomic.Touch c t s (change t k.cwd ch r) := by
  -- where no file is touched any call making its directories will do
  have quiet : ∀ δ : Change OsStr, (∀ d, k ≠ .write d) →
      δ.quiet = true ∨ (∃ l, δ = .mkdir l ∧ t.entry l = none) →
      ∃ c s, StandsFor c s k p ∧ Atomic.Touch c t s δ := by
    intro δ hk hδ
    refine ⟨⟨⟨true, [], false⟩, [], 0, none, []⟩, .mkdirs (.done (.ok ())),
      Or.inr ⟨hk, _, rfl⟩, ?_⟩
    rcases hδ with hδ | ⟨l, rfl, hl⟩
    · exact .quiet hδ
    · exact .mkdir hl
  rcases hs.cases with ⟨paths, cwd, s, rfl, rfl, hh⟩ | ⟨c, s, rfl, rfl, hh⟩ |
    ⟨path, cwd, s, file, off, rfl, rfl⟩
  · obtain ⟨q, hq, rfl⟩ := Option.map_eq_some_iff.mp hr
    refine quiet _ (fun d => by simp) ?_
    cases s with
    | making s rest =>
      rcases CreateDirAll.outcome_issue t cwd ch hq with h | ⟨d, below, again, rfl, h, hd⟩
      · exact Or.inl (by rw [change, Task.cwd, h]; rfl)
      · exact Or.inr ⟨_, by rw [change, Task.cwd, h], hd⟩
    | done x => cases hq
  · obtain ⟨q, hq, rfl⟩ := Option.map_eq_some_iff.mp hr
    exact ⟨c, s, Or.inl ⟨rfl, rfl⟩,
      Atomic.issue_touch hq hh (Atomic.unshared_of_linkless ht s) ch⟩
  · exact quiet _ (fun d => by simp) (Or.inl (by rw [Task.cwd, issue_hash hr]; rfl))

/-- What is made of its directories is kept for a process that makes the layout. -/
theorem holds_keep {paths : Layout.NyxPaths} {cwd : Loc OsStr} {s : Layout.Stage}
    {u : Volume OsStr} (h : Layout.Holds paths cwd t s)
    (hd : ∀ l, t.entry l = some .dir → u.entry l = some .dir) : Layout.Holds paths cwd u s := by
  cases s with
  | making s rest =>
    obtain ⟨hopen, made, d, hdirs, hserves, hmade⟩ := h
    exact ⟨hopen, made, d, hdirs, hserves, fun x hx => (hmade x hx).keep hd⟩
  | done x => exact fun hx d hd' => (h hx d hd').keep hd

theorem sound_resume (hr : issue k p = some r) (hs : Sound t k p) (ht : t.Linkless) (ch : Choice) :
    Sound (t.apply (change t k.cwd ch r)) k (resume B k p (reply t k.cwd ch r)) := by
  rcases hs.cases with ⟨paths, cwd, s, rfl, rfl, hh⟩ | ⟨c, s, rfl, rfl, hh⟩ |
    ⟨path, cwd, s, file, off, rfl, rfl⟩
  · obtain ⟨q, hq, rfl⟩ := Option.map_eq_some_iff.mp hr
    exact Layout.holds_step hh hq ch
  · obtain ⟨q, hq, rfl⟩ := Option.map_eq_some_iff.mp hr
    exact Atomic.resume_holds hq hh (Atomic.unshared_of_linkless ht s) ch
  · have any : ∀ u a, Sound u (.hash path cwd) (resume B (.hash path cwd) (.hash s file off) a) := by
      intro u a
      cases a with
      | tree a => cases a <;> trivial
      | filled | err => trivial
    exact any _ _

/-- Only a process that writes comes to a stage of a call. -/
theorem resume_write (hr : issue k p = some r) (hs : Sound t k p) {ch : Choice} {v : Atomic.Stage}
    (h : resume B k p (reply t k.cwd ch r) = .write v) :
    ∃ c u q, k = .write c ∧ p = .write u ∧ r = .tree q ∧ Atomic.issue c u = some q ∧
      v = Atomic.resume c u (t.outcome c.cwd ch q).1 := by
  rcases hs.cases with ⟨paths, cwd, s, rfl, rfl, -⟩ | ⟨c, u, rfl, rfl, -⟩ |
    ⟨path, cwd, s, file, off, rfl, rfl⟩
  · obtain ⟨q, hq, rfl⟩ := Option.map_eq_some_iff.mp hr
    cases h
  · obtain ⟨q, hq, rfl⟩ := Option.map_eq_some_iff.mp hr
    exact ⟨c, u, q, rfl, rfl, rfl, hq, (Stage.write.inj h).symm⟩
  · have any : ∀ a, resume B (.hash path cwd) (.hash s file off) a ≠ .write v := by
      intro a
      cases a with
      | tree a => cases a <;> simp [resume]
      | filled | err => simp [resume]
    exact absurd h (any _)

/-- What one process does leaves what another relies on as it is, unless both hold a
temporary file of one name. -/
theorem touch_sound {c : Atomic.Call} {s : Atomic.Stage} {δ : Change OsStr}
    (h : Atomic.Touch c t s δ) {k : Task} {p : Stage H} (hs : Sound t k p)
    (hne : ∀ d u, k = .write d → p = .write u → u.holding = true →
      s = .create ∨ s.holding = true → d.tmp ≠ c.tmp ∧ d.tmp ≠ c.target) :
    Sound (t.apply δ) k p := by
  rcases hs.cases with ⟨paths, cwd, u, rfl, rfl, hh⟩ | ⟨d, u, rfl, rfl, hh⟩ |
    ⟨path, cwd, u, file, off, rfl, rfl⟩
  · exact holds_keep hh fun l => h.dir
  · exact h.holds hh fun hu hx => hne d u rfl rfl hu hx
  · trivial

end Step

section Pool
variable {H ι : Type} [DecidableEq ι] (B : Blake3 H)

abbrev Processes (ι H : Type) := Pool ι (Volume OsStr) (Stage H)

def processes (tasks : ι → Task) (t : Volume OsStr) : Processes ι H :=
  ⟨t, fun i => some (tasks i).start⟩

def step (tasks : ι → Task) : Processes ι H → Move ι Choice → Processes ι H :=
  move (fun i => program B (tasks i)) (fun i => respond (tasks i).cwd)

/-- The processes from their start, as far as a schedule takes them. -/
def runAll (tasks : ι → Task) (t : Volume OsStr) (ms : List (Move ι Choice)) : Processes ι H :=
  interleave (fun i => program B (tasks i)) (fun i => respond (tasks i).cwd) (processes tasks t) ms

end Pool

end Nyx.System
