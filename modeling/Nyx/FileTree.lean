import Mathlib.Tactic

/-! A file tree as a POSIX kernel keeps it: entries name directories or inodes, file
contents belong to inodes, and an open file is reached by its inode whatever its name
has become. Names are an arbitrary type. There are no symbolic links. -/
namespace Nyx.FileTree

abbrev Bytes := List UInt8

/-- A place in the tree: the names leading to it, innermost first. The root is []. -/
abbrev Loc (N : Type) := List N

inductive Node
  | dir
  | file (ino : ℕ)
  deriving DecidableEq, Repr

/-- What can be looked up in a tree: its entries and the contents of its inodes. -/
structure Image (N : Type) where
  entry : Loc N → Option Node
  data : ℕ → Bytes

/-- A tree with its inode allocator: no entry names an inode not handed out yet. -/
structure Volume (N : Type) extends Image N where
  next : ℕ
  fresh : ∀ {l i}, entry l = some (.file i) → i < next

inductive ErrorKind
  | notFound
  | alreadyExists
  | notADirectory
  | isADirectory
  | invalidInput
  | interrupted
  | writeZero
  | other
  deriving DecidableEq, Repr

/-- A path component as the kernel walks it. -/
inductive Component (N : Type)
  | normal (name : N)
  | parentDir
  | curDir
  deriving DecidableEq, Repr

/-- A path: its components innermost first, and whether more than its last component
is written after it (a trailing separator). -/
structure Path (N : Type) where
  rooted : Bool
  comps : List (Component N)
  trailing : Bool
  deriving DecidableEq, Repr

namespace Path
variable {N : Type}

def parent (p : Path N) : Option (Path N) :=
  match p.comps with
  | [] => none
  | _ :: up => some ⟨p.rooted, up, false⟩

def fileName (p : Path N) : Option N :=
  match p.comps with
  | .normal x :: _ => some x
  | _ => none

def join (p : Path N) (x : N) : Path N := ⟨p.rooted, .normal x :: p.comps, false⟩

def isEmpty (p : Path N) : Bool := !p.rooted && p.comps.isEmpty

def start (cwd : Loc N) (p : Path N) : Loc N := if p.rooted then [] else cwd

/-- The place a chain of components leads to; without links ".." is lexical. -/
def locate (base : Loc N) : List (Component N) → Loc N
  | [] => base
  | .normal x :: up => x :: locate base up
  | .parentDir :: up => (locate base up).tail
  | .curDir :: up => locate base up

def loc (cwd : Loc N) (p : Path N) : Loc N := locate (p.start cwd) p.comps

theorem parent_of_fileName {p : Path N} (h : p.fileName.isSome) :
    p.parent = some ⟨p.rooted, p.comps.tail, false⟩ := by
  cases hc : p.comps with
  | nil => simp [fileName, hc] at h
  | cons c up => simp [parent, hc]

theorem comps_of_fileName {p : Path N} {x : N} (h : p.fileName = some x) :
    p.comps = .normal x :: p.comps.tail := by
  unfold fileName at h
  split at h
  · rename_i y up hc
    obtain rfl := Option.some.inj h
    rw [hc, List.tail_cons]
  · cases h

theorem comps_of_isEmpty {p : Path N} (h : p.isEmpty = true) : p.comps = [] := by
  rw [isEmpty, Bool.and_eq_true, List.isEmpty_iff] at h
  exact h.2

theorem loc_of_fileName {cwd : Loc N} {p q : Path N} {x : N} (hx : p.fileName = some x)
    (hq : p.parent = some q) : p.loc cwd = x :: q.loc cwd := by
  rw [parent_of_fileName (by simp [hx]), Option.some.injEq] at hq
  subst hq
  rw [loc, comps_of_fileName hx]
  rfl

end Path

inductive Handle (N : Type)
  | file (ino : ℕ)
  | dir (l : Loc N)
  deriving DecidableEq, Repr

inductive Request (N : Type)
  | mkdir (p : Path N)
  | isDir (p : Path N)
  | create (p : Path N)
  | write (ino off : ℕ) (buf : Bytes)
  | flush (ino : ℕ)
  | fsync (h : Handle N)
  | rename (src dst : Path N)
  | openFile (p : Path N)
  deriving DecidableEq, Repr

inductive Reply (N : Type)
  | ok
  | opened (h : Handle N)
  | wrote (n : ℕ)
  | err (e : ErrorKind)
  deriving DecidableEq, Repr

/-- Everything an answered request can do to the tree. -/
inductive Change (N : Type)
  | none
  | mkdir (l : Loc N)
  | create (l : Loc N)
  | write (ino : ℕ) (d : Bytes)
  | rename (src dst : Loc N)
  | syncFile (ino : ℕ)
  | syncDir (l : Loc N)
  deriving DecidableEq, Repr

/-- The places whose entries a change may replace. -/
def Change.touches {N : Type} : Change N → List (Loc N)
  | .mkdir l | .create l => [l]
  | .rename a b => [a, b]
  | .none | .write .. | .syncFile _ | .syncDir _ => []

def Change.quiet {N : Type} : Change N → Bool
  | .none | .syncFile _ | .syncDir _ => true
  | .mkdir _ | .create _ | .write .. | .rename .. => false

theorem Change.touches_quiet {N : Type} {δ : Change N} (h : δ.quiet = true) : δ.touches = [] := by
  cases δ with
  | none | syncFile | syncDir => rfl
  | mkdir | create | write | rename => cases h

/-- How one request turns out: it fails, or it does what the tree allows, a write taking
at most so many bytes. -/
inductive Choice
  | go (n : ℕ)
  | fail (e : ErrorKind)
  deriving DecidableEq, Repr

/-- Bytes written at an offset, the gap before it filled with zeros. -/
def writeAt (d : Bytes) (off : ℕ) (b : Bytes) : Bytes :=
  d.take off ++ List.replicate (off - d.length) 0 ++ b ++ d.drop (off + b.length)

theorem writeAt_length (d b : Bytes) : writeAt d d.length b = d ++ b := by
  simp [writeAt]

/-- Writing where the first bytes of a buffer end appends the next ones. -/
theorem writeAt_take {d : Bytes} {off : ℕ} (h : off ≤ d.length) (n : ℕ) :
    writeAt (d.take off) off ((d.drop off).take n) = d.take (off + n) := by
  have hlen : (d.take off).length = off := List.length_take_of_le h
  have hw := writeAt_length (d.take off) ((d.drop off).take n)
  rw [hlen] at hw
  rw [hw, List.take_add]

/-- A write takes nothing, or as many of the first bytes as the kernel likes. -/
theorem write_taken {N : Type} (d : Bytes) (i off n : ℕ) (buf : Bytes) :
    let a : Reply N × Change N := if n = 0 ∨ buf = [] then (.wrote 0, .none)
      else (.wrote (min n buf.length), .write i (writeAt d off (buf.take n)))
    a = (.wrote 0, .none) ∨
      ∃ m, 0 < m ∧ m ≤ buf.length ∧ a = (.wrote m, .write i (writeAt d off (buf.take m))) := by
  intro a
  by_cases h : n = 0 ∨ buf = []
  · exact Or.inl (if_pos h)
  · push Not at h
    have hb : 0 < buf.length := List.length_pos_iff.mpr h.2
    have htake : buf.take (min n buf.length) = buf.take n := by
      rw [List.take_eq_take_iff]
      omega
    refine Or.inr ⟨min n buf.length, by omega, by omega, ?_⟩
    rw [htake]
    exact if_neg (by simp [h])

namespace Image
variable {N : Type}

def content (t : Image N) (l : Loc N) : Option Bytes :=
  match t.entry l with
  | some (.file i) => some (t.data i)
  | _ => none

/-- Walks a chain of components down to a directory; the error is that of the outermost
component that is missing or is not a directory. -/
def walk (t : Image N) (base : Loc N) : List (Component N) → Option ErrorKind
  | [] => if t.entry base = some .dir then none else some .notFound
  | c :: up =>
    match t.walk base up with
    | some e => some e
    | none =>
      match t.entry (Path.locate base (c :: up)) with
      | some .dir => none
      | some (.file _) => some .notADirectory
      | none => some .notFound

/-- The walk to the directory that holds the last component. -/
def enter (t : Image N) (cwd : Loc N) (p : Path N) : Option ErrorKind :=
  if p.isEmpty then some .notFound else t.walk (p.start cwd) p.comps.tail

theorem enter_named {t : Image N} {cwd : Loc N} {p : Path N} (h : p.isEmpty = false) :
    t.enter cwd p = t.walk (p.start cwd) p.comps.tail := by
  rw [enter, h, if_neg Bool.false_ne_true]

/-- The file at a place, provided the directories above it are all there. -/
def lookup (t : Image N) (l : Loc N) : Option Bytes :=
  if ∀ m ∈ l.tails.tail, t.entry m = some .dir then t.content l else none

/-- Reading a path: every directory on it is walked, then the file is looked up. -/
def read (t : Image N) (cwd : Loc N) (p : Path N) : Option Bytes :=
  match t.enter cwd p with
  | some _ => none
  | none => if p.fileName.isSome ∧ p.trailing = false then t.lookup (p.loc cwd) else none

def Sole (t : Image N) (i : ℕ) (l : Loc N) : Prop := ∀ m, t.entry m = some (.file i) → m = l

/-- No inode has two names: there are no hard links. -/
def Linkless (t : Image N) : Prop := ∀ l i, t.entry l = some (.file i) → t.Sole i l

/-- The root is a directory and every entry lies in one. -/
structure Rooted (t : Image N) : Prop where
  root : t.entry [] = some .dir
  inside : ∀ x l, t.entry (x :: l) ≠ none → t.entry l = some .dir

theorem walk_eq_none {t : Image N} {base : Loc N} {comps : List (Component N)} :
    t.walk base comps = none ↔
      ∀ up, up <:+ comps → t.entry (Path.locate base up) = some .dir := by
  induction comps with
  | nil => simp [walk, Path.locate]
  | cons c up ih =>
    simp only [List.suffix_cons_iff, forall_eq_or_imp]
    rw [← ih, walk]
    cases t.walk base up with
    | some e => simp
    | none =>
      cases t.entry (Path.locate base (c :: up)) with
      | none => simp
      | some n => cases n <;> simp

theorem Rooted.dirs {t : Image N} (h : t.Rooted) {l : Loc N} (hl : t.entry l = some .dir) :
    ∀ m ∈ l.tails, t.entry m = some .dir := by
  induction l with
  | nil =>
    intro m hm
    obtain rfl : m = [] := by simpa using hm
    exact hl
  | cons x l ih =>
    intro m hm
    rw [List.tails_cons, List.mem_cons] at hm
    rcases hm with rfl | hm
    · exact hl
    · exact ih (h.inside x l (by simp [hl])) m hm

theorem Rooted.above {t : Image N} (h : t.Rooted) {l : Loc N} (hl : t.entry l ≠ none) :
    ∀ m ∈ l.tails.tail, t.entry m = some .dir := by
  cases l with
  | nil => simp
  | cons x l =>
    rw [List.tails_cons, List.tail_cons]
    exact h.dirs (h.inside x l hl)

theorem content_file {t : Image N} {l : Loc N} {i : ℕ} (h : t.entry l = some (.file i)) :
    t.content l = some (t.data i) := by simp [content, h]

theorem content_dir {t : Image N} {l : Loc N} (h : t.entry l = some .dir) :
    t.content l = none := by simp [content, h]

theorem content_none {t : Image N} {l : Loc N} (h : t.entry l = none) :
    t.content l = none := by simp [content, h]

theorem lookup_file {t : Image N} {l : Loc N} {i : ℕ} (h : t.entry l = some (.file i))
    (ha : ∀ m ∈ l.tails.tail, t.entry m = some .dir) : t.lookup l = some (t.data i) := by
  rw [lookup, if_pos ha, content_file h]

theorem lookup_none {t : Image N} {l : Loc N} (h : t.content l = none) : t.lookup l = none := by
  simp [lookup, h]

def Reaches (t : Image N) (cwd : Loc N) (p : Path N) : Prop :=
  t.enter cwd p = none ∧ p.fileName.isSome ∧ p.trailing = false

theorem read_eq {t : Image N} {cwd : Loc N} {p : Path N} (h : t.Reaches cwd p) :
    t.read cwd p = t.lookup (p.loc cwd) := by
  simp [read, h.1, h.2.1, h.2.2]

theorem read_none {t : Image N} {cwd : Loc N} {p : Path N} (h : ¬ t.Reaches cwd p) :
    t.read cwd p = none := by
  unfold read
  split
  · rfl
  · rw [if_neg fun hp => h ⟨‹_›, hp⟩]

theorem Reaches.walk {t : Image N} {cwd : Loc N} {p : Path N} (h : t.Reaches cwd p)
    {up : List (Component N)} (hup : up <:+ p.comps.tail) :
    t.entry (Path.locate (p.start cwd) up) = some .dir := by
  have he := h.1
  unfold enter at he
  split_ifs at he
  exact walk_eq_none.mp he up hup

theorem Reaches.of_walk {t u : Image N} {cwd : Loc N} {p : Path N} (h : t.Reaches cwd p)
    (hw : ∀ up, up <:+ p.comps.tail → u.entry (Path.locate (p.start cwd) up) = some .dir) :
    u.Reaches cwd p := by
  obtain ⟨he, hp⟩ := h
  refine ⟨?_, hp⟩
  unfold enter at he ⊢
  split_ifs at he ⊢
  exact walk_eq_none.mpr hw

theorem Reaches.mono {t u : Image N} {cwd : Loc N} {p : Path N} (h : t.Reaches cwd p)
    (hd : ∀ l, t.entry l = some .dir → u.entry l = some .dir) : u.Reaches cwd p :=
  h.of_walk fun _ hup => hd _ (h.walk hup)

theorem read_some {t : Image N} {cwd : Loc N} {p : Path N} {b : Bytes}
    (h : t.read cwd p = some b) : t.Reaches cwd p := by
  by_contra hno
  rw [read_none hno] at h
  cases h

theorem content_congr {t u : Image N} {l : Loc N} (he : u.entry l = t.entry l)
    (hd : ∀ i, t.entry l = some (.file i) → u.data i = t.data i) :
    u.content l = t.content l := by
  unfold content
  rw [he]
  split
  · rw [hd _ ‹_›]
  · rfl

end Image

theorem fresh_update {N β : Type} [DecidableEq N] {f : ℕ → β} {e : Loc N → β} {n : ℕ}
    (h : ∀ {l i}, e l = f i → i < n) {l : Loc N} {v : β} {m : ℕ} (hnm : n ≤ m)
    (hv : ∀ i, v = f i → i < m) {k : Loc N} {i : ℕ}
    (hk : Function.update e l v k = f i) : i < m := by
  by_cases hkl : k = l
  · subst hkl
    exact hv i (by simpa using hk)
  · rw [Function.update_of_ne hkl] at hk
    exact (h hk).trans_le hnm

namespace Volume
variable {N : Type}

/-- The reply to a request and what it does to the tree. -/
def plan (t : Volume N) (cwd : Loc N) (n : ℕ) : Request N → Reply N × Change N
  | .mkdir p =>
    match t.enter cwd p with
    | some e => (.err e, .none)
    | none =>
      match p.fileName, t.entry (p.loc cwd) with
      | some _, none => (.ok, .mkdir (p.loc cwd))
      | _, _ => (.err .alreadyExists, .none)
  | .isDir p =>
    if p.isEmpty then (.err .notFound, .none)
    else match t.walk (p.start cwd) p.comps with
      | some e => (.err e, .none)
      | none => (.ok, .none)
  | .create p =>
    match t.enter cwd p with
    | some e => (.err e, .none)
    | none =>
      match p.fileName, t.entry (p.loc cwd) with
      | some _, none =>
        if p.trailing then (.err .isADirectory, .none)
        else (.opened (.file t.next), .create (p.loc cwd))
      | some _, some (.file i) =>
        if p.trailing then (.err .notADirectory, .none)
        else (.opened (.file i), .write i [])
      | _, _ => (.err .isADirectory, .none)
  | .write i off buf =>
    if n = 0 ∨ buf = [] then (.wrote 0, .none)
    else (.wrote (min n buf.length), .write i (writeAt (t.data i) off (buf.take n)))
  | .flush _ => (.ok, .none)
  | .fsync (.file i) => (.ok, .syncFile i)
  | .fsync (.dir l) => (.ok, .syncDir l)
  | .rename a b =>
    match t.enter cwd a, t.enter cwd b with
    | some e, _ => (.err e, .none)
    | none, some e => (.err e, .none)
    | none, none =>
      match t.entry (a.loc cwd), t.entry (b.loc cwd) with
      | none, _ => (.err .notFound, .none)
      | some .dir, _ => (.err .other, .none)   -- directories are never renamed here
      | some (.file i), v =>
        if b.fileName.isNone ∨ v = some .dir then (.err .isADirectory, .none)
        else if a.trailing ∨ b.trailing then (.err .notADirectory, .none)
        else if v = some (.file i) then (.ok, .none)
        else (.ok, .rename (a.loc cwd) (b.loc cwd))
  | .openFile p =>
    match t.enter cwd p with
    | some e => (.err e, .none)
    | none =>
      match t.entry (p.loc cwd) with
      | none => (.err .notFound, .none)
      | some .dir => (.opened (.dir (p.loc cwd)), .none)
      | some (.file i) => (.opened (.file i), .none)

/-- What creating a file comes to where the walk to its directory succeeds. -/
theorem plan_create {t : Volume N} {cwd : Loc N} {p : Path N} (he : t.enter cwd p = none)
    (hf : p.fileName.isSome) (ht : p.trailing = false) (n : ℕ) : t.plan cwd n (.create p) =
      match t.entry (p.loc cwd) with
      | none => (.opened (.file t.next), .create (p.loc cwd))
      | some (.file i) => (.opened (.file i), .write i [])
      | some .dir => (.err .isADirectory, .none) := by
  obtain ⟨x, hx⟩ := Option.isSome_iff_exists.mp hf
  simp only [plan, he, hx, ht, Bool.false_eq_true, if_false]
  cases t.entry (p.loc cwd) with
  | none => rfl
  | some node => cases node <;> rfl

/-- What renaming a file comes to where the walks to both directories succeed. -/
theorem plan_rename {t : Volume N} {cwd : Loc N} {a b : Path N} (ha : t.enter cwd a = none)
    (hb : t.enter cwd b = none) {i : ℕ} (hi : t.entry (a.loc cwd) = some (.file i))
    (hf : b.fileName.isSome) (ht : a.trailing = false) (n : ℕ) : t.plan cwd n (.rename a b) =
      if t.entry (b.loc cwd) = some .dir then (.err .isADirectory, .none)
      else if b.trailing then (.err .notADirectory, .none)
      else if t.entry (b.loc cwd) = some (.file i) then (.ok, .none)
      else (.ok, .rename (a.loc cwd) (b.loc cwd)) := by
  have hname : b.fileName.isNone = false := by
    rw [Option.isNone_eq_false_iff]
    exact hf
  simp only [plan, ha, hb, hi, hname, ht, Bool.false_eq_true, false_or]

variable [DecidableEq N]

def apply (t : Volume N) : Change N → Volume N
  | .mkdir l =>
    { t with
      entry := Function.update t.entry l (some .dir)
      fresh := fun h => fresh_update t.fresh le_rfl (by simp) h }
  | .create l =>
    { entry := Function.update t.entry l (some (.file t.next))
      data := Function.update t.data t.next []
      next := t.next + 1
      fresh := fun h => fresh_update t.fresh (Nat.le_succ _) (by simp) h }
  | .write i d => { t with data := Function.update t.data i d }
  | .rename a b =>
    { t with
      entry := Function.update (Function.update t.entry b (t.entry a)) a none
      fresh := fun h => fresh_update (fun h' => fresh_update t.fresh le_rfl (fun _ => t.fresh) h')
        le_rfl (by simp) h }
  | .none | .syncFile _ | .syncDir _ => t

theorem apply_quiet (t : Volume N) {δ : Change N} (h : δ.quiet = true) : t.apply δ = t := by
  cases δ with
  | none | syncFile | syncDir => rfl
  | mkdir | create | write | rename => cases h

def outcome (t : Volume N) (cwd : Loc N) : Choice → Request N → Reply N × Change N
  | .fail e, _ => (.err e, .none)
  | .go n, r => t.plan cwd n r

def respond (cwd : Loc N) (ch : Choice) (r : Request N) (t : Volume N) : Reply N × Volume N :=
  ((t.outcome cwd ch r).1, t.apply (t.outcome cwd ch r).2)

def empty : Volume N where
  entry := Function.update (fun _ => none) [] (some .dir)
  data _ := []
  next := 0
  fresh := fun h => fresh_update (e := fun _ => none) (f := fun i => some (Node.file i)) (n := 0)
    (by simp) le_rfl (by simp) h

theorem rooted_empty : (empty : Volume N).Rooted where
  root := by simp [empty]
  inside x l h := by simp [empty] at h

theorem linkless_empty : (empty : Volume N).Linkless :=
  fun _ i h => absurd (empty.fresh h) (Nat.not_lt_zero i)

section Outcome
variable (t : Volume N) (cwd : Loc N) (ch : Choice)

omit [DecidableEq N] in
theorem outcome_mkdir (p : Path N) :
    (∃ e, t.outcome cwd ch (.mkdir p) = (.err e, .none)) ∨
      t.outcome cwd ch (.mkdir p) = (.ok, .mkdir (p.loc cwd)) ∧ t.entry (p.loc cwd) = none ∧
        t.enter cwd p = none ∧ p.fileName.isSome := by
  cases ch with
  | fail e => exact Or.inl ⟨e, rfl⟩
  | go n =>
    simp only [outcome, plan]
    split
    · exact Or.inl ⟨_, rfl⟩
    · split
      · exact Or.inr ⟨rfl, ‹_›, ‹_›, by simp [*]⟩
      · exact Or.inl ⟨_, rfl⟩

omit [DecidableEq N] in
theorem outcome_isDir (p : Path N) :
    (∃ e, t.outcome cwd ch (.isDir p) = (.err e, .none)) ∨
      t.outcome cwd ch (.isDir p) = (.ok, .none) ∧ t.walk (p.start cwd) p.comps = none := by
  cases ch with
  | fail e => exact Or.inl ⟨e, rfl⟩
  | go n =>
    simp only [outcome, plan]
    split
    · exact Or.inl ⟨_, rfl⟩
    · split
      · exact Or.inl ⟨_, rfl⟩
      · exact Or.inr ⟨rfl, ‹_›⟩

omit [DecidableEq N] in
theorem outcome_create (p : Path N) :
    (∃ e, t.outcome cwd ch (.create p) = (.err e, .none)) ∨
      (t.outcome cwd ch (.create p) = (.opened (.file t.next), .create (p.loc cwd)) ∧
        t.entry (p.loc cwd) = none) ∨
      ∃ i, t.outcome cwd ch (.create p) = (.opened (.file i), .write i []) ∧
        t.entry (p.loc cwd) = some (.file i) := by
  cases ch with
  | fail e => exact Or.inl ⟨e, rfl⟩
  | go n =>
    simp only [outcome, plan]
    split
    · exact Or.inl ⟨_, rfl⟩
    · split
      · split
        · exact Or.inl ⟨_, rfl⟩
        · exact Or.inr (Or.inl ⟨rfl, ‹_›⟩)
      · split
        · exact Or.inl ⟨_, rfl⟩
        · exact Or.inr (Or.inr ⟨_, rfl, ‹_›⟩)
      · exact Or.inl ⟨_, rfl⟩

omit [DecidableEq N] in
theorem outcome_write (i off : ℕ) (buf : Bytes) :
    (∃ e, t.outcome cwd ch (.write i off buf) = (.err e, .none)) ∨
      t.outcome cwd ch (.write i off buf) = (.wrote 0, .none) ∨
      ∃ n, 0 < n ∧ n ≤ buf.length ∧ t.outcome cwd ch (.write i off buf) =
        (.wrote n, .write i (writeAt (t.data i) off (buf.take n))) := by
  cases ch with
  | fail e => exact Or.inl ⟨e, rfl⟩
  | go n => exact Or.inr (write_taken (t.data i) i off n buf)

omit [DecidableEq N] in
/-- A rename that succeeds moves a file onto a place that holds no directory, or finds
both names on one inode and does nothing. -/
theorem outcome_rename (a b : Path N) :
    (∃ e, t.outcome cwd ch (.rename a b) = (.err e, .none)) ∨
      ∃ i, t.entry (a.loc cwd) = some (.file i) ∧ t.enter cwd b = none ∧ b.fileName.isSome ∧
        b.trailing = false ∧ t.entry (b.loc cwd) ≠ some .dir ∧
        (t.outcome cwd ch (.rename a b) = (.ok, .none) ∧ t.entry (b.loc cwd) = some (.file i) ∨
          t.outcome cwd ch (.rename a b) = (.ok, .rename (a.loc cwd) (b.loc cwd)) ∧
            t.entry (b.loc cwd) ≠ some (.file i)) := by
  cases ch with
  | fail e => exact Or.inl ⟨e, rfl⟩
  | go n =>
    simp only [outcome, plan]
    split
    · exact Or.inl ⟨_, rfl⟩
    · exact Or.inl ⟨_, rfl⟩
    · split
      · exact Or.inl ⟨_, rfl⟩
      · exact Or.inl ⟨_, rfl⟩
      · rename_i _ hb _ _ i ha
        split_ifs with h1 h2 h3
        · exact Or.inl ⟨_, rfl⟩
        · exact Or.inl ⟨_, rfl⟩
        all_goals
          push Not at h1
          simp only [not_or, Bool.not_eq_true] at h2
          refine Or.inr ⟨i, ha, hb, by simpa [Option.isSome_iff_ne_none] using h1.1, h2.2, h1.2, ?_⟩
        · exact Or.inl ⟨rfl, h3⟩
        · exact Or.inr ⟨rfl, h3⟩

omit [DecidableEq N] in
theorem outcome_openFile (p : Path N) :
    (∃ e, t.outcome cwd ch (.openFile p) = (.err e, .none)) ∨
      t.enter cwd p = none ∧
        (t.outcome cwd ch (.openFile p) = (.opened (.dir (p.loc cwd)), .none) ∧
            t.entry (p.loc cwd) = some .dir ∨
          ∃ i, t.outcome cwd ch (.openFile p) = (.opened (.file i), .none) ∧
            t.entry (p.loc cwd) = some (.file i)) := by
  cases ch with
  | fail e => exact Or.inl ⟨e, rfl⟩
  | go n =>
    simp only [outcome, plan]
    split
    · exact Or.inl ⟨_, rfl⟩
    · split
      · exact Or.inl ⟨_, rfl⟩
      · exact Or.inr ⟨‹_›, Or.inl ⟨rfl, ‹_›⟩⟩
      · exact Or.inr ⟨‹_›, Or.inr ⟨_, rfl, ‹_›⟩⟩

omit [DecidableEq N] in
theorem outcome_syncDir {r : Request N} {l : Loc N} (h : (t.outcome cwd ch r).2 = .syncDir l) :
    r = .fsync (.dir l) := by
  cases r with
  | mkdir p =>
    rcases t.outcome_mkdir cwd ch p with ⟨e, ho⟩ | ⟨ho, -⟩ <;> simp [ho] at h
  | isDir p =>
    rcases t.outcome_isDir cwd ch p with ⟨e, ho⟩ | ⟨ho, -⟩ <;> simp [ho] at h
  | create p =>
    rcases t.outcome_create cwd ch p with ⟨e, ho⟩ | ⟨ho, -⟩ | ⟨i, ho, -⟩ <;> simp [ho] at h
  | write i off buf =>
    rcases t.outcome_write cwd ch i off buf with ⟨e, ho⟩ | ho | ⟨n, -, -, ho⟩ <;> simp [ho] at h
  | rename a b =>
    rcases t.outcome_rename cwd ch a b with
      ⟨e, ho⟩ | ⟨i, -, -, -, -, -, ⟨ho, -⟩ | ⟨ho, -⟩⟩ <;> simp [ho] at h
  | openFile p =>
    rcases t.outcome_openFile cwd ch p with ⟨e, ho⟩ | ⟨-, ⟨ho, -⟩ | ⟨i, ho, -⟩⟩ <;> simp [ho] at h
  | flush i => cases ch <;> cases h
  | fsync hd =>
    cases ch with
    | fail e => cases h
    | go n =>
      cases hd with
      | file i => cases h
      | dir m => rw [Change.syncDir.inj h]

end Outcome

section Apply
variable {t : Volume N} {δ : Change N} {l : Loc N} {i : ℕ}

theorem entry_apply (h : l ∉ δ.touches) : (t.apply δ).entry l = t.entry l := by
  cases δ with
  | mkdir k | create k => exact Function.update_of_ne (by simpa [Change.touches] using h) _ _
  | rename a b =>
    simp only [Change.touches, List.mem_cons, List.not_mem_nil, or_false, not_or] at h
    simp [apply, h.1, h.2]
  | none | write | syncFile | syncDir => rfl

theorem data_apply (hw : ∀ d, δ ≠ .write i d) (hi : i < t.next) :
    (t.apply δ).data i = t.data i := by
  cases δ with
  | create k => exact Function.update_of_ne hi.ne _ _
  | write j d =>
    refine Function.update_of_ne ?_ _ _
    rintro rfl
    exact hw d rfl
  | none | mkdir | rename | syncFile | syncDir => rfl

theorem content_apply (h : l ∉ δ.touches)
    (hw : ∀ j d, δ = .write j d → t.entry l ≠ some (.file j)) :
    (t.apply δ).content l = t.content l := by
  refine Image.content_congr (entry_apply h) fun j hj => data_apply ?_ (t.fresh hj)
  intro d hd
  exact hw j d hd hj

theorem content_mkdir (h : t.entry l = none) (k : Loc N) :
    (t.apply (.mkdir l)).content k = t.content k := by
  by_cases hk : k = l
  · subst hk
    rw [Image.content_none h, Image.content_dir (by simp [apply])]
  · exact content_apply (by simpa [Change.touches] using hk) (by simp)

theorem content_rename {a b : Loc N} (hab : a ≠ b) :
    (t.apply (.rename a b)).content b = t.content a := by
  simp [Image.content, apply, Function.update_of_ne hab.symm]

theorem entry_rename {a b : Loc N} (hab : a ≠ b) :
    (t.apply (.rename a b)).entry b = t.entry a := by
  simp [apply, Function.update_of_ne hab.symm]

theorem sole_apply (he : t.entry l = some (.file i)) (hs : t.Sole i l) (h : l ∉ δ.touches) :
    (t.apply δ).Sole i l := by
  intro m hm
  by_cases hmt : m ∈ δ.touches
  · exfalso
    cases δ with
    | mkdir k =>
      obtain rfl : m = k := by simpa [Change.touches] using hmt
      simp [apply] at hm
    | create k =>
      obtain rfl : m = k := by simpa [Change.touches] using hmt
      have := t.fresh he
      simp only [apply, Function.update_self, Option.some.injEq, Node.file.injEq] at hm
      omega
    | rename a b =>
      simp only [Change.touches, List.mem_cons, List.not_mem_nil, or_false, not_or] at h hmt
      by_cases hma : m = a
      · simp [apply, hma] at hm
      · have hmb : m = b := hmt.resolve_left hma
        subst hmb
        rw [entry_rename (Ne.symm hma)] at hm
        exact h.1 (hs a hm).symm
    | none | write | syncFile | syncDir => simp [Change.touches] at hmt
  · rw [entry_apply hmt] at hm
    exact hs m hm

theorem sole_create (t : Volume N) (l : Loc N) : (t.apply (.create l)).Sole t.next l := by
  intro m hm
  by_contra hml
  rw [entry_apply (by simpa [Change.touches] using hml)] at hm
  exact (t.fresh hm).false

theorem linkless_apply (h : t.Linkless) (δ : Change N) : (t.apply δ).Linkless := by
  intro k i hk
  cases δ with
  | mkdir m =>
    have hkm : k ≠ m := by rintro rfl; simp [apply] at hk
    rw [entry_apply (by simpa [Change.touches] using hkm)] at hk
    exact sole_apply hk (h k i hk) (by simpa [Change.touches] using hkm)
  | create m =>
    by_cases hkm : k = m
    · subst hkm
      obtain rfl : t.next = i := by simpa [apply] using hk
      exact sole_create t k
    · rw [entry_apply (by simpa [Change.touches] using hkm)] at hk
      exact sole_apply hk (h k i hk) (by simpa [Change.touches] using hkm)
  | rename a b =>
    have hka : k ≠ a := by rintro rfl; simp [apply] at hk
    by_cases hkb : k = b
    · subst hkb
      rw [entry_rename (Ne.symm hka)] at hk
      intro n hn
      by_contra hnk
      have hna : n ≠ a := by rintro rfl; simp [apply] at hn
      rw [entry_apply (by simp [Change.touches, hna, hnk])] at hn
      exact hna (h a i hk n hn)
    · rw [entry_apply (by simp [Change.touches, hka, hkb])] at hk
      exact sole_apply hk (h k i hk) (by simp [Change.touches, hka, hkb])
  | none | write | syncFile | syncDir => exact h k i hk

end Apply

end Volume

end Nyx.FileTree
