import Nyx.FileTree

/-! A file tree with symbolic links. A path is resolved as a POSIX kernel resolves it, from
the outside in, each link replaced by the path it holds, until too many have been followed. -/
namespace Nyx.FileTree

inductive Item (N : Type)
  | dir
  | file (ino : ℕ)
  | link (target : Path N)
  deriving DecidableEq, Repr

def Item.isFile {N : Type} : Item N → Bool
  | .file _ => true
  | .dir | .link _ => false

/-- A tree with links and its inode allocator. -/
structure LinkTree (N : Type) where
  item : Loc N → Option (Item N)
  data : ℕ → Bytes
  next : ℕ
  fresh : ∀ {l i}, item l = some (.file i) → i < next

namespace Path
variable {N : Type}

def stepTo (l : Loc N) : Component N → Loc N
  | .normal x => x :: l
  | .parentDir => l.tail
  | .curDir => l

/-- The components of what a link holds, outermost first. A trailing separator asks for a
directory, as "." does. -/
def steps (p : Path N) : List (Component N) :=
  p.comps.reverse ++ if p.trailing then [.curDir] else []

theorem locate_cons (base : Loc N) (c : Component N) (up : List (Component N)) :
    locate base (c :: up) = stepTo (locate base up) c := by
  cases c <;> rfl

end Path

namespace LinkTree
variable {N : Type}

/-- Why nothing can be looked up at a place: it is no directory. -/
def barred (t : LinkTree N) (l : Loc N) : Option ErrorKind :=
  match t.item l with
  | some .dir => none
  | some (.file _) => some .notADirectory
  | some (.link _) | none => some .notFound

/-- Walks components from the outside in. Each is looked up in the directory reached so far;
at a link the walk jumps to what the link holds. What the last one names need not exist. -/
def walkWith (t : LinkTree N) (jump : Loc N → List (Component N) → Except ErrorKind (Loc N)) :
    Loc N → List (Component N) → Except ErrorKind (Loc N)
  | l, [] => .ok l
  | l, c :: rest =>
    match t.barred l with
    | some e => .error e
    | none =>
      match t.item (Path.stepTo l c) with
      | some (.link p) =>
        if p.isEmpty then .error .notFound else jump (p.start l) (p.steps ++ rest)
      | _ => t.walkWith jump (Path.stepTo l c) rest

/-- The walk that follows at most so many links. -/
def resolve (t : LinkTree N) : ℕ → Loc N → List (Component N) → Except ErrorKind (Loc N)
  | 0 => t.walkWith fun _ _ => .error .other
  | n + 1 => t.walkWith (t.resolve n)

def maxLinks : ℕ := 40

/-- The place reached has to be a directory. -/
def settle (t : LinkTree N) : Except ErrorKind (Loc N) → Except ErrorKind (Loc N)
  | .error e => .error e
  | .ok l =>
    match t.barred l with
    | some e => .error e
    | none => .ok l

section Paths
variable [DecidableEq N]

/-- Some components of a path, walked from where the path starts. -/
def lead (t : LinkTree N) (cwd : Loc N) (p : Path N) (cs : List (Component N)) :
    Except ErrorKind (Loc N) :=
  if p.isEmpty ∨ t.item (p.start cwd) ≠ some .dir then .error .notFound
  else t.resolve maxLinks (p.start cwd) cs

/-- The directory that holds the last component. -/
def enter (t : LinkTree N) (cwd : Loc N) (p : Path N) : Except ErrorKind (Loc N) :=
  t.settle (t.lead cwd p p.comps.tail.reverse)

/-- Where a path leads when a link under its last name is followed. -/
def reach (t : LinkTree N) (cwd : Loc N) (p : Path N) : Except ErrorKind (Loc N) :=
  t.lead cwd p p.comps.reverse

/-- The place the last name stands for, a link there not followed. -/
def place (t : LinkTree N) (cwd : Loc N) (p : Path N) : Except ErrorKind (Loc N) :=
  match p.comps with
  | [] => t.enter cwd p
  | c :: _ => (t.enter cwd p).map fun l => Path.stepTo l c

end Paths

/-- The walks that end well: each component is looked up in the directory reached, and a
link that is found is followed. -/
inductive Walk (t : LinkTree N) : ℕ → Loc N → List (Component N) → Loc N → Prop
  | nil {n : ℕ} {l : Loc N} : Walk t n l [] l
  | step {n : ℕ} {l e : Loc N} {c : Component N} {rest : List (Component N)}
      (dir : t.item l = some .dir) (plain : ∀ p, t.item (Path.stepTo l c) ≠ some (.link p))
      (on : Walk t n (Path.stepTo l c) rest e) : Walk t n l (c :: rest) e
  | link {n : ℕ} {l e : Loc N} {c : Component N} {rest : List (Component N)} {p : Path N}
      (dir : t.item l = some .dir) (found : t.item (Path.stepTo l c) = some (.link p))
      (named : p.isEmpty = false) (on : Walk t n (p.start l) (p.steps ++ rest) e) :
      Walk t (n + 1) l (c :: rest) e

section Resolve
variable {t u : LinkTree N} {n : ℕ} {l e : Loc N} {cs ds : List (Component N)}

theorem barred_eq_none : t.barred l = none ↔ t.item l = some .dir := by
  unfold barred
  split <;> simp_all

theorem settle_ok {r : Except ErrorKind (Loc N)} :
    t.settle r = .ok l ↔ r = .ok l ∧ t.item l = some .dir := by
  cases r with
  | error k => simp [settle]
  | ok m =>
    rw [settle]
    constructor
    · intro h
      split at h
      · cases h
      · obtain rfl := Except.ok.inj h
        exact ⟨rfl, barred_eq_none.mp ‹_›⟩
    · rintro ⟨h, hdir⟩
      obtain rfl := Except.ok.inj h
      rw [barred_eq_none.mpr hdir]

/-- The walk a link is followed with. -/
def jump (t : LinkTree N) : ℕ → Loc N → List (Component N) → Except ErrorKind (Loc N)
  | 0, _, _ => .error .other
  | n + 1, l, cs => t.resolve n l cs

theorem resolve_eq (t : LinkTree N) (n : ℕ) : t.resolve n = t.walkWith (t.jump n) := by
  cases n <;> rfl

@[simp] theorem resolve_nil : t.resolve n l [] = .ok l := by
  rw [resolve_eq, walkWith]

theorem resolve_cons (t : LinkTree N) (n : ℕ) (l : Loc N) (c : Component N)
    (rest : List (Component N)) : t.resolve n l (c :: rest) =
      match t.barred l with
      | some e => .error e
      | none =>
        match t.item (Path.stepTo l c) with
        | some (.link p) =>
          if p.isEmpty then .error .notFound else t.jump n (p.start l) (p.steps ++ rest)
        | _ => t.resolve n (Path.stepTo l c) rest := by
  rw [resolve_eq, walkWith]

theorem Walk.resolve (h : Walk t n l cs e) : t.resolve n l cs = .ok e := by
  induction h with
  | nil => exact resolve_nil
  | step dir plain on ih =>
    rw [resolve_cons, barred_eq_none.mpr dir]
    dsimp only
    split
    · exact absurd ‹_› (plain _)
    · exact ih
  | link dir found named on ih =>
    rw [resolve_cons, barred_eq_none.mpr dir]
    simpa [found, named, jump] using ih

theorem walk_of_resolve (h : t.resolve n l cs = .ok e) : Walk t n l cs e := by
  induction n using Nat.strong_induction_on generalizing l cs with
  | _ n ihn =>
    induction cs generalizing l with
    | nil =>
      rw [resolve_nil] at h
      obtain rfl := Except.ok.inj h
      exact .nil
    | cons c rest ih =>
      rw [resolve_cons] at h
      split at h
      · cases h
      · have hdir := barred_eq_none.mp ‹_›
        split at h
        · rename_i p hp
          split_ifs at h with hempty
          cases n with
          | zero => cases h
          | succ m => exact .link hdir hp (by simpa using hempty) (ihn m (Nat.lt_succ_self m) h)
        · exact .step hdir ‹_› (ih h)

theorem resolve_ok : t.resolve n l cs = .ok e ↔ Walk t n l cs e := ⟨walk_of_resolve, Walk.resolve⟩

/-- A walk that goes on does so in a directory. -/
theorem Walk.start_dir (h : Walk t n l cs e) (hcs : cs ≠ []) : t.item l = some .dir := by
  cases h with
  | nil => exact absurd rfl hcs
  | step dir => exact dir
  | link dir => exact dir

/-- A walk to what is there passes only what is there. -/
theorem Walk.found {c : Component N} {rest : List (Component N)} (h : Walk t n l (c :: rest) e)
    (he : t.item e ≠ none) : t.item (Path.stepTo l c) ≠ none := by
  cases h with
  | step dir plain on =>
    cases on with
    | nil => exact he
    | step dir => simp [dir]
    | link dir => simp [dir]
  | link dir found => simp [found]

/-- A longer walk goes on from where its first part ends. -/
theorem Walk.append (h : Walk t n l cs e) :
    ∃ m, ∀ rest g, Walk t n l (cs ++ rest) g ↔ Walk t m e rest g := by
  induction h with
  | @nil n l => exact ⟨n, fun rest g => Iff.rfl⟩
  | step dir plain on ih =>
    obtain ⟨m, hm⟩ := ih
    refine ⟨m, fun more g => ?_⟩
    rw [← hm more g, List.cons_append]
    refine ⟨fun h => ?_, fun h => .step dir plain h⟩
    cases h with
    | step dir plain on => exact on
    | link dir found => exact absurd found (plain _)
  | @link n l e c rest p dir found named on ih =>
    obtain ⟨m, hm⟩ := ih
    refine ⟨m, fun more g => ?_⟩
    rw [← hm more g, List.append_assoc, List.cons_append]
    refine ⟨fun h => ?_, fun h => .link dir found named h⟩
    cases h with
    | step dir plain on => exact absurd found (plain _)
    | link dir found' named' on' =>
      rw [found] at found'
      obtain rfl := Item.link.inj (Option.some.inj found')
      exact on'

/-- The first part of a walk that ends well ends well. -/
theorem Walk.initial (h : Walk t n l (cs ++ ds) e) : ∃ m, Walk t n l cs m := by
  generalize hall : cs ++ ds = all at h
  induction h generalizing cs with
  | nil =>
    obtain ⟨rfl, -⟩ := List.append_eq_nil_iff.mp hall
    exact ⟨_, .nil⟩
  | @step n l e c rest dir plain on ih =>
    cases cs with
    | nil => exact ⟨l, .nil⟩
    | cons c' cs =>
      obtain ⟨rfl, rfl⟩ := List.cons.inj hall
      obtain ⟨m, hm⟩ := ih rfl
      exact ⟨m, .step dir plain hm⟩
  | @link n l e c rest p dir found named on ih =>
    cases cs with
    | nil => exact ⟨l, .nil⟩
    | cons c' cs =>
      obtain ⟨rfl, rfl⟩ := List.cons.inj hall
      obtain ⟨m, hm⟩ := ih (List.append_assoc _ _ _)
      exact ⟨m, .link dir found named hm⟩

/-- A walk to a directory leads there in any tree that has the same directories and links. -/
theorem Walk.mono (h : Walk t n l cs e) (he : t.item e = some .dir)
    (hd : ∀ m, t.item m = some .dir → u.item m = some .dir)
    (hk : ∀ m p, t.item m = some (.link p) → u.item m = some (.link p)) : Walk u n l cs e := by
  induction h with
  | nil => exact .nil
  | @step n l e c rest dir plain on ih =>
    refine .step (hd l dir) (fun p hp => ?_) (ih he)
    -- what is stepped to is a directory, being the last place or walked on from
    have hnext : t.item (Path.stepTo l c) = some .dir := by
      cases on with
      | nil => exact he
      | step dir => exact dir
      | link dir => exact dir
    rw [hd _ hnext] at hp
    cases hp
  | link dir found named on ih => exact .link (hd _ dir) (hk _ _ found) named (ih he)

end Resolve

section Plan
variable [DecidableEq N]

/-- The reply to a request and what it does to the tree. Making a directory and renaming do
not follow a link under the last name; opening does. -/
def plan (t : LinkTree N) (cwd : Loc N) (n : ℕ) : Request N → Reply N × Change N
  | .mkdir p =>
    match t.place cwd p with
    | .error e => (.err e, .none)
    | .ok l =>
      match p.fileName, t.item l with
      | some _, none => (.ok, .mkdir l)
      | _, _ => (.err .alreadyExists, .none)
  | .isDir p =>
    match t.settle (t.reach cwd p) with
    | .error e => (.err e, .none)
    | .ok _ => (.ok, .none)
  | .create p =>
    match t.reach cwd p with
    | .error e => (.err e, .none)
    | .ok l =>
      match p.fileName, t.item l with
      | some _, none =>
        if p.trailing then (.err .isADirectory, .none)
        else (.opened (.file t.next), .create l)
      | some _, some (.file i) =>
        if p.trailing then (.err .notADirectory, .none)
        else (.opened (.file i), .write i [])
      | _, _ => (.err .isADirectory, .none)
  | .write i off buf =>
    if n = 0 ∨ buf = [] then (.wrote 0, .none)
    else (.wrote (min n buf.length), .write i (writeAt (t.data i) off (buf.take n)))
  | .flush _ => (.ok, .none)
  | .fsync (.file i) => (.ok, .syncFile i)
  | .fsync (.dir l) => (.ok, .syncDir l)
  | .rename a b =>
    match t.place cwd a, t.place cwd b with
    | .error e, _ => (.err e, .none)
    | .ok _, .error e => (.err e, .none)
    | .ok l, .ok m =>
      match t.item l, t.item m with
      | none, _ => (.err .notFound, .none)
      | some .dir, _ => (.err .other, .none)   -- directories are never renamed here
      | some v, w =>
        if b.fileName.isNone ∨ w = some .dir then (.err .isADirectory, .none)
        else if a.trailing ∨ b.trailing then (.err .notADirectory, .none)
        else if l = m ∨ v.isFile ∧ w = some v then (.ok, .none)
        else (.ok, .rename l m)
  | .openFile p =>
    match t.reach cwd p with
    | .error e => (.err e, .none)
    | .ok l =>
      match t.item l with
      | some .dir => (.opened (.dir l), .none)
      | some (.file i) => (.opened (.file i), .none)
      | some (.link _) | none => (.err .notFound, .none)

def apply (t : LinkTree N) : Change N → LinkTree N
  | .mkdir l =>
    { t with
      item := Function.update t.item l (some .dir)
      fresh := fun h => fresh_update t.fresh le_rfl (by simp) h }
  | .create l =>
    { item := Function.update t.item l (some (.file t.next))
      data := Function.update t.data t.next []
      next := t.next + 1
      fresh := fun h => fresh_update t.fresh (Nat.le_succ _) (by simp) h }
  | .write i d => { t with data := Function.update t.data i d }
  | .rename a b =>
    { t with
      item := Function.update (Function.update t.item b (t.item a)) a none
      fresh := fun h => fresh_update (fun h' => fresh_update t.fresh le_rfl (fun _ => t.fresh) h')
        le_rfl (by simp) h }
  | .none | .syncFile _ | .syncDir _ => t

def outcome (t : LinkTree N) (cwd : Loc N) : Choice → Request N → Reply N × Change N
  | .fail e, _ => (.err e, .none)
  | .go n, r => t.plan cwd n r

def respond (cwd : Loc N) (ch : Choice) (r : Request N) (t : LinkTree N) : Reply N × LinkTree N :=
  ((t.outcome cwd ch r).1, t.apply (t.outcome cwd ch r).2)

end Plan

section Lead
variable [DecidableEq N] {t : LinkTree N} {cwd l d : Loc N} {p : Path N} {cs : List (Component N)}

theorem lead_ok : t.lead cwd p cs = .ok l ↔ p.isEmpty = false ∧
    t.item (p.start cwd) = some .dir ∧ Walk t maxLinks (p.start cwd) cs l := by
  unfold lead
  split_ifs with h
  · constructor
    · intro hno
      cases hno
    rintro ⟨hp, hb, -⟩
    rcases h with h | h
    · rw [hp] at h
      cases h
    · exact absurd hb h
  · push Not at h
    rw [resolve_ok]
    exact ⟨fun hw => ⟨by simpa using h.1, h.2, hw⟩, fun hw => hw.2.2⟩

theorem enter_ok : t.enter cwd p = .ok d ↔ p.isEmpty = false ∧ t.item (p.start cwd) = some .dir ∧
    Walk t maxLinks (p.start cwd) p.comps.tail.reverse d ∧ t.item d = some .dir := by
  rw [enter, settle_ok, lead_ok]
  tauto

theorem reach_ok : t.reach cwd p = .ok l ↔ p.isEmpty = false ∧ t.item (p.start cwd) = some .dir ∧
    Walk t maxLinks (p.start cwd) p.comps.reverse l := lead_ok

/-- The path leads to a directory. -/
def IsDir (t : LinkTree N) (cwd : Loc N) (p : Path N) : Prop :=
  ∃ d, t.settle (t.reach cwd p) = .ok d

theorem place_of_fileName {x : N} (h : p.fileName = some x) :
    t.place cwd p = (t.enter cwd p).map fun l => x :: l := by
  rw [place, Path.comps_of_fileName h]
  rfl

theorem place_ok {x : N} (h : p.fileName = some x) :
    t.place cwd p = .ok l ↔ ∃ d, t.enter cwd p = .ok d ∧ l = x :: d := by
  rw [place_of_fileName h]
  cases t.enter cwd p with
  | error e => simp [Except.map]
  | ok m => simp [Except.map, eq_comm]

/-- The last name of a path that leads somewhere is looked up in the directory entered. -/
theorem enter_of_reach {c : Component N} {up : List (Component N)} (hc : p.comps = c :: up)
    (h : t.reach cwd p = .ok l) : ∃ d m, t.enter cwd p = .ok d ∧ Walk t m d [c] l := by
  obtain ⟨hp, hb, hw⟩ := reach_ok.mp h
  rw [hc, List.reverse_cons] at hw
  obtain ⟨d, hd⟩ := hw.initial
  obtain ⟨m, hm⟩ := hd.append
  have hlast := (hm _ _).mp hw
  refine ⟨d, m, enter_ok.mpr ⟨hp, hb, ?_, hlast.start_dir (List.cons_ne_nil _ _)⟩, hlast⟩
  rw [hc, List.tail_cons]
  exact hd

/-- Unless a link is there, a path leads to the place its last name stands for. -/
theorem reach_eq_place {x : N} (hx : p.fileName = some x) (h : t.reach cwd p = .ok l) :
    ∃ d, t.enter cwd p = .ok d ∧ (l = x :: d ∨ ∃ q, t.item (x :: d) = some (.link q)) := by
  obtain ⟨d, m, hd, hw⟩ := enter_of_reach (Path.comps_of_fileName hx) h
  refine ⟨d, hd, ?_⟩
  cases hw with
  | step dir plain on =>
    cases on
    exact Or.inl rfl
  | link dir found => exact Or.inr ⟨_, found⟩

theorem enter_mono {u : LinkTree N} (h : t.enter cwd p = .ok d)
    (hd : ∀ m, t.item m = some .dir → u.item m = some .dir)
    (hk : ∀ m q, t.item m = some (.link q) → u.item m = some (.link q)) :
    u.enter cwd p = .ok d := by
  obtain ⟨hp, hb, hw, hdir⟩ := enter_ok.mp h
  exact enter_ok.mpr ⟨hp, hd _ hb, hw.mono hdir hd hk, hd _ hdir⟩

end Lead

section Outcome
variable [DecidableEq N] (t : LinkTree N) (cwd : Loc N) (ch : Choice)

theorem outcome_mkdir (p : Path N) :
    (∃ e, t.outcome cwd ch (.mkdir p) = (.err e, .none)) ∨
      ∃ x d, p.fileName = some x ∧ t.enter cwd p = .ok d ∧ t.item (x :: d) = none ∧
        t.outcome cwd ch (.mkdir p) = (.ok, .mkdir (x :: d)) := by
  cases ch with
  | fail e => exact Or.inl ⟨e, rfl⟩
  | go n =>
    simp only [outcome, plan]
    split
    · exact Or.inl ⟨_, rfl⟩
    · rename_i l hl
      split
      · rename_i x hx hnone
        obtain ⟨d, hd, rfl⟩ := (place_ok hx).mp hl
        exact Or.inr ⟨x, d, hx, hd, hnone, rfl⟩
      · exact Or.inl ⟨_, rfl⟩

theorem outcome_isDir (p : Path N) :
    (∃ e, t.outcome cwd ch (.isDir p) = (.err e, .none)) ∨
      ∃ d, t.settle (t.reach cwd p) = .ok d ∧ t.outcome cwd ch (.isDir p) = (.ok, .none) := by
  cases ch with
  | fail e => exact Or.inl ⟨e, rfl⟩
  | go n =>
    simp only [outcome, plan]
    split
    · exact Or.inl ⟨_, rfl⟩
    · exact Or.inr ⟨_, ‹_›, rfl⟩

/-- A file is made where nothing was, or the file that is there is emptied. -/
theorem outcome_create (p : Path N) :
    (∃ e, t.outcome cwd ch (.create p) = (.err e, .none)) ∨
      ∃ l, t.reach cwd p = .ok l ∧
        (t.item l = none ∧
            t.outcome cwd ch (.create p) = (.opened (.file t.next), .create l) ∨
          ∃ i, t.item l = some (.file i) ∧
            t.outcome cwd ch (.create p) = (.opened (.file i), .write i [])) := by
  cases ch with
  | fail e => exact Or.inl ⟨e, rfl⟩
  | go n =>
    simp only [outcome, plan]
    split
    · exact Or.inl ⟨_, rfl⟩
    · split
      · split
        · exact Or.inl ⟨_, rfl⟩
        · exact Or.inr ⟨_, ‹_›, Or.inl ⟨‹_›, rfl⟩⟩
      · split
        · exact Or.inl ⟨_, rfl⟩
        · exact Or.inr ⟨_, ‹_›, Or.inr ⟨_, ‹_›, rfl⟩⟩
      · exact Or.inl ⟨_, rfl⟩

theorem outcome_write (i off : ℕ) (buf : Bytes) :
    (∃ e, t.outcome cwd ch (.write i off buf) = (.err e, .none)) ∨
      t.outcome cwd ch (.write i off buf) = (.wrote 0, .none) ∨
      ∃ n, 0 < n ∧ n ≤ buf.length ∧ t.outcome cwd ch (.write i off buf) =
        (.wrote n, .write i (writeAt (t.data i) off (buf.take n))) := by
  cases ch with
  | fail e => exact Or.inl ⟨e, rfl⟩
  | go n => exact Or.inr (write_taken (t.data i) i off n buf)

/-- A rename that succeeds moves a file or a link onto a place that holds no directory, or
finds the two the same and does nothing. -/
theorem outcome_rename (a b : Path N) :
    (∃ e, t.outcome cwd ch (.rename a b) = (.err e, .none)) ∨
      ∃ l m, t.place cwd a = .ok l ∧ t.place cwd b = .ok m ∧ t.item m ≠ some .dir ∧
        (t.outcome cwd ch (.rename a b) = (.ok, .none) ∨
          l ≠ m ∧ t.outcome cwd ch (.rename a b) = (.ok, .rename l m)) := by
  cases ch with
  | fail e => exact Or.inl ⟨e, rfl⟩
  | go n =>
    simp only [outcome, plan]
    split
    · exact Or.inl ⟨_, rfl⟩
    · exact Or.inl ⟨_, rfl⟩
    · split
      · exact Or.inl ⟨_, rfl⟩
      · exact Or.inl ⟨_, rfl⟩
      · split_ifs with h1 h2 h3
        · exact Or.inl ⟨_, rfl⟩
        · exact Or.inl ⟨_, rfl⟩
        all_goals
          push Not at h1
          refine Or.inr ⟨_, _, ‹_›, ‹_›, h1.2, ?_⟩
        · exact Or.inl rfl
        · exact Or.inr ⟨fun h => h3 (Or.inl h), rfl⟩

theorem outcome_openFile (p : Path N) :
    (∃ e, t.outcome cwd ch (.openFile p) = (.err e, .none)) ∨
      ∃ h, t.outcome cwd ch (.openFile p) = (.opened h, .none) := by
  cases ch with
  | fail e => exact Or.inl ⟨e, rfl⟩
  | go n =>
    simp only [outcome, plan]
    split
    · exact Or.inl ⟨_, rfl⟩
    · split
      · exact Or.inr ⟨_, rfl⟩
      · exact Or.inr ⟨_, rfl⟩
      all_goals exact Or.inl ⟨_, rfl⟩

theorem outcome_flush (i : ℕ) : (∃ e, t.outcome cwd ch (.flush i) = (.err e, .none)) ∨
    t.outcome cwd ch (.flush i) = (.ok, .none) := by
  cases ch with
  | fail e => exact Or.inl ⟨e, rfl⟩
  | go n => exact Or.inr rfl

theorem apply_fsync (h : Handle N) : t.apply (t.outcome cwd ch (.fsync h)).2 = t := by
  cases ch with
  | fail e => rfl
  | go n => cases h <;> rfl

end Outcome

/-- One tree comes from the other by making directories where nothing was. -/
structure Grown (t u : LinkTree N) : Prop where
  data : u.data = t.data
  next : u.next = t.next
  item : ∀ l, u.item l = t.item l ∨ t.item l = none ∧ u.item l = some .dir

namespace Grown
variable {t u v : LinkTree N}

theorem refl (t : LinkTree N) : Grown t t := ⟨rfl, rfl, fun _ => Or.inl rfl⟩

theorem keep (h : Grown t u) {l : Loc N} {a : Item N} (hl : t.item l = some a) :
    u.item l = some a := by
  rcases h.item l with h1 | ⟨h1, -⟩
  · rw [h1, hl]
  · rw [hl] at h1
    cases h1

theorem before (h : Grown t u) {l : Loc N} (hl : u.item l ≠ some .dir) :
    u.item l = t.item l := by
  rcases h.item l with h1 | ⟨-, h1⟩
  · exact h1
  · exact absurd h1 hl

theorem trans (h : Grown t u) (h' : Grown u v) : Grown t v := by
  refine ⟨h'.data.trans h.data, h'.next.trans h.next, fun l => ?_⟩
  rcases h'.item l with h2 | ⟨h2, hv⟩
  · rw [h2]
    exact h.item l
  · have hne : u.item l ≠ some .dir := by simp [h2]
    exact Or.inr ⟨(h.before hne).symm.trans h2, hv⟩

theorem mkdir [DecidableEq N] {l : Loc N} (hl : t.item l = none) :
    Grown t (t.apply (.mkdir l)) := by
  refine ⟨rfl, rfl, fun k => ?_⟩
  by_cases hk : k = l
  · subst hk
    exact Or.inr ⟨hl, Function.update_self _ _ _⟩
  · exact Or.inl (Function.update_of_ne hk _ _)

/-- One more directory, and the tree is not the first one. -/
theorem ne_mkdir [DecidableEq N] (h : Grown t u) {l : Loc N} (hl : u.item l = none) :
    u.apply (.mkdir l) ≠ t := by
  intro ht
  have hdir : (u.apply (.mkdir l)).item l = some .dir := Function.update_self _ _ _
  rw [ht] at hdir
  have hkeep := h.keep hdir
  rw [hl] at hkeep
  cases hkeep

end Grown

end LinkTree

end Nyx.FileTree
