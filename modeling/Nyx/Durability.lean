import Nyx.FileTree

/-! A file tree on a disk that loses power. File contents are safe only once the file is
synced, directory operations only once their directory is: until then a power loss keeps
any prefix of a file and any selection of the operations. -/
namespace Nyx.Durability
open FileTree

variable {N : Type} [DecidableEq N]

/-- Entries set at once, all in one directory. -/
structure DirOp (N : Type) where
  dir : Loc N
  sets : List (Loc N × Option Node)
  inside : ∀ l v, (l, v) ∈ sets → l.tail = dir

/-- The entries after some directory operations, in order. -/
def settle (e : Loc N → Option Node) (ops : List (DirOp N)) : Loc N → Option Node :=
  ops.foldl (fun e o => o.sets.foldl (fun e s => Function.update e s.1 s.2) e) e

section Settle
variable {e : Loc N → Option Node} {l : Loc N}

theorem sets_of_not_mem {sets : List (Loc N × Option Node)} (h : ∀ v, (l, v) ∉ sets) :
    sets.foldl (fun e s => Function.update e s.1 s.2) e l = e l := by
  induction sets generalizing e with
  | nil => rfl
  | cons s sets ih =>
    rw [List.foldl_cons, ih fun v hv => h v (List.mem_cons_of_mem _ hv)]
    refine Function.update_of_ne ?_ _ _
    rintro rfl
    exact h s.2 List.mem_cons_self

theorem sets_congr {f : Loc N → Option Node} (sets : List (Loc N × Option Node)) (h : e l = f l) :
    sets.foldl (fun e s => Function.update e s.1 s.2) e l =
      sets.foldl (fun e s => Function.update e s.1 s.2) f l := by
  induction sets generalizing e f with
  | nil => exact h
  | cons s sets ih =>
    refine ih ?_
    by_cases hs : l = s.1
    · subst hs
      simp
    · simp [Function.update_of_ne hs, h]

theorem settle_congr {f : Loc N → Option Node} (ops : List (DirOp N)) (h : e l = f l) :
    settle e ops l = settle f ops l := by
  induction ops generalizing e f with
  | nil => exact h
  | cons o ops ih => exact ih (sets_congr o.sets h)

theorem settle_append (ops ops' : List (DirOp N)) :
    settle e (ops ++ ops') = settle (settle e ops) ops' := List.foldl_append

theorem settle_of_not_mem {ops : List (DirOp N)} (h : ∀ o ∈ ops, ∀ v, (l, v) ∉ o.sets) :
    settle e ops l = e l := by
  induction ops generalizing e with
  | nil => rfl
  | cons o ops ih =>
    exact (ih fun p hp => h p (List.mem_cons_of_mem _ hp)).trans
      (sets_of_not_mem (h o List.mem_cons_self))

theorem sets_mem (e : Loc N → Option Node) (sets : List (Loc N × Option Node)) (l : Loc N) :
    sets.foldl (fun e s => Function.update e s.1 s.2) e l = e l ∨
      (l, sets.foldl (fun e s => Function.update e s.1 s.2) e l) ∈ sets := by
  induction sets generalizing e with
  | nil => exact Or.inl rfl
  | cons s sets ih =>
    rcases ih (Function.update e s.1 s.2) with h | h
    · by_cases hs : l = s.1
      · refine Or.inr ?_
        rw [List.foldl_cons, h, hs, Function.update_self]
        exact List.mem_cons_self
      · exact Or.inl (h.trans (Function.update_of_ne hs _ _))
    · exact Or.inr (List.mem_cons_of_mem _ h)

theorem settle_mem (e : Loc N → Option Node) (ops : List (DirOp N)) (l : Loc N) :
    settle e ops l = e l ∨ ∃ o ∈ ops, (l, settle e ops l) ∈ o.sets := by
  induction ops generalizing e with
  | nil => exact Or.inl rfl
  | cons o ops ih =>
    rcases ih (o.sets.foldl (fun e s => Function.update e s.1 s.2) e) with h | ⟨p, hp, h⟩
    · rcases sets_mem e o.sets l with h' | h'
      · exact Or.inl (h.trans h')
      · exact Or.inr ⟨o, List.mem_cons_self, by rw [← h] at h'; exact h'⟩
    · exact Or.inr ⟨p, List.mem_cons_of_mem _ hp, h⟩

theorem settle_filter (ops : List (DirOp N)) (p : DirOp N → Bool)
    (hp : ∀ o ∈ ops, o.dir = l.tail → p o = true) :
    settle e (ops.filter p) l = settle e ops l := by
  induction ops generalizing e with
  | nil => rfl
  | cons o ops ih =>
    have hi := fun e => ih (e := e) fun q hq => hp q (List.mem_cons_of_mem _ hq)
    by_cases ho : p o = true
    · rw [List.filter_cons_of_pos ho]
      exact hi _
    · rw [List.filter_cons_of_neg ho, hi]
      refine settle_congr ops (sets_of_not_mem fun v hv => ho ?_).symm
      exact hp o List.mem_cons_self (o.inside l v hv).symm

end Settle

/-- A running system over its disk: what programs see, what is safe, which inodes have
unsynced content, and the directory operations not synced yet, oldest first. -/
structure Disk (N : Type) [DecidableEq N] where
  live : Volume N
  stable : Image N
  dirty : ℕ → Bool
  pending : List (DirOp N)
  clean : ∀ i, dirty i = false → stable.data i = live.data i
  replay : settle stable.entry pending = live.entry

/-- What may be found after a power loss. -/
structure Recovers (d : Disk N) (t : Image N) : Prop where
  entries : ∃ ops, ops.Sublist d.pending ∧ t.entry = settle d.stable.entry ops
  contents : ∀ i, t.data i = d.stable.data i ∨ d.dirty i = true ∧ t.data i <+: d.live.data i

/-- A rename inside one directory is a single operation. -/
def renameOps (a b : Loc N) (v : Option Node) : List (DirOp N) :=
  if h : a.tail = b.tail then
    [⟨b.tail, [(b, v), (a, none)], by
      intro l w hw
      rcases List.mem_pair.mp hw with hw | hw <;> cases hw
      · rfl
      · exact h⟩]
  else [⟨b.tail, [(b, v)], by simp +contextual⟩, ⟨a.tail, [(a, none)], by simp +contextual⟩]

def ops (t : Volume N) : Change N → List (DirOp N)
  | .mkdir l => [⟨l.tail, [(l, some .dir)], by simp +contextual⟩]
  | .create l => [⟨l.tail, [(l, some (.file t.next))], by simp +contextual⟩]
  | .rename a b => renameOps a b (t.entry a)
  | .none | .write .. | .syncFile _ | .syncDir _ => []

theorem settle_ops (t : Volume N) (δ : Change N) :
    settle t.entry (ops t δ) = (t.apply δ).entry := by
  cases δ with
  | rename a b =>
    simp only [ops, renameOps]
    split_ifs <;> rfl
  | none | mkdir | create | write | syncFile | syncDir => rfl

theorem ops_mem {t : Volume N} {δ : Change N} (hne : ∀ k, δ ≠ .rename k k) {o : DirOp N}
    (ho : o ∈ ops t δ) {l : Loc N} {v : Option Node} (hl : (l, v) ∈ o.sets) :
    l ∈ δ.touches ∧ v = (t.apply δ).entry l := by
  cases δ with
  | mkdir k | create k =>
    obtain rfl := List.mem_singleton.mp ho
    obtain ⟨rfl, rfl⟩ := Prod.mk.inj (List.mem_singleton.mp hl)
    simp [Change.touches, Volume.apply]
  | rename a b =>
    have hab : a ≠ b := by
      rintro rfl
      exact hne a rfl
    have hcases : (l, v) = (b, t.entry a) ∨ (l, v) = (a, none) := by
      simp only [ops, renameOps] at ho
      split_ifs at ho
      · obtain rfl := List.mem_singleton.mp ho
        exact List.mem_pair.mp hl
      · rcases List.mem_pair.mp ho with rfl | rfl
        · exact Or.inl (List.mem_singleton.mp hl)
        · exact Or.inr (List.mem_singleton.mp hl)
    rcases hcases with h | h
    · obtain ⟨rfl, rfl⟩ := Prod.mk.inj h
      exact ⟨by simp [Change.touches], (Volume.entry_rename hab).symm⟩
    · obtain ⟨rfl, rfl⟩ := Prod.mk.inj h
      exact ⟨by simp [Change.touches], by simp [Volume.apply]⟩
  | none | write | syncFile | syncDir => cases ho

namespace Disk

def ofVolume (t : Volume N) : Disk N := ⟨t, t.toImage, fun _ => false, [], fun _ _ => rfl, rfl⟩

/-- What is safe once a change is made: a sync makes safe what it is about. -/
def safe (d : Disk N) : Change N → Image N
  | .create _ => ⟨d.stable.entry, Function.update d.stable.data d.live.next []⟩
  | .syncFile i => ⟨d.stable.entry, Function.update d.stable.data i (d.live.data i)⟩
  | .syncDir m => ⟨settle d.stable.entry (d.pending.filter (·.dir = m)), d.stable.data⟩
  | .none | .mkdir _ | .write .. | .rename .. => d.stable

def unsynced (d : Disk N) : Change N → ℕ → Bool
  | .create _ => Function.update d.dirty d.live.next false
  | .write i _ => Function.update d.dirty i true
  | .syncFile i => Function.update d.dirty i false
  | .none | .mkdir _ | .rename .. | .syncDir _ => d.dirty

def queue (d : Disk N) : Change N → List (DirOp N)
  | .syncDir m => d.pending.filter (·.dir ≠ m)
  | δ => d.pending ++ ops d.live δ

theorem clean_apply (d : Disk N) (δ : Change N) (i : ℕ) (hi : d.unsynced δ i = false) :
    (d.safe δ).data i = (d.live.apply δ).data i := by
  cases δ with
  | none | mkdir | rename | syncDir => exact d.clean i hi
  | create l =>
    by_cases h : i = d.live.next
    · subst h
      simp [safe, Volume.apply]
    · simp only [unsynced, Function.update_of_ne h] at hi
      simp [safe, Volume.apply, Function.update_of_ne h, d.clean i hi]
  | write j e =>
    have h : i ≠ j := by
      rintro rfl
      simp [unsynced] at hi
    simp only [unsynced, Function.update_of_ne h] at hi
    simp [safe, Volume.apply, Function.update_of_ne h, d.clean i hi]
  | syncFile j =>
    by_cases h : i = j
    · subst h
      simp [safe, Volume.apply]
    · simp only [unsynced, Function.update_of_ne h] at hi
      simp [safe, Volume.apply, Function.update_of_ne h, d.clean i hi]

theorem replay_syncDir (d : Disk N) (m l : Loc N) :
    settle (d.safe (.syncDir m)).entry (d.queue (.syncDir m)) l = d.live.entry l := by
  rw [← d.replay]
  simp only [safe, queue]
  by_cases hl : l.tail = m
  · -- the operations left are of other directories
    rw [settle_of_not_mem, settle_filter]
    · intro o _ ho
      simp [ho, hl]
    · intro o ho v hv
      have hne := of_decide_eq_true (List.mem_filter.mp ho).2
      exact hne ((o.inside l v hv).symm.trans hl)
  · rw [settle_filter]
    · refine settle_congr _ (settle_of_not_mem fun o ho v hv => hl ?_)
      have heq := of_decide_eq_true (List.mem_filter.mp ho).2
      exact (o.inside l v hv).trans heq
    · intro o _ ho
      simpa [ho] using hl

theorem replay_apply (d : Disk N) (δ : Change N) :
    settle (d.safe δ).entry (d.queue δ) = (d.live.apply δ).entry := by
  cases δ with
  | syncDir m => exact funext (d.replay_syncDir m)
  | none | mkdir | create | write | rename | syncFile =>
    refine (settle_append _ _).trans (Eq.trans ?_ (settle_ops d.live _))
    exact congrArg (settle · _) d.replay

def apply (d : Disk N) (δ : Change N) : Disk N :=
  ⟨d.live.apply δ, d.safe δ, d.unsynced δ, d.queue δ, d.clean_apply δ, d.replay_apply δ⟩

def respond (cwd : Loc N) (ch : Choice) (r : Request N) (d : Disk N) : Reply N × Disk N :=
  ((d.live.outcome cwd ch r).1, d.apply (d.live.outcome cwd ch r).2)

/-- What a place may be found to hold after a power loss. -/
def Possible (d : Disk N) (l : Loc N) (v : Option Node) : Prop :=
  v = d.stable.entry l ∨ ∃ o ∈ d.pending, (l, v) ∈ o.sets

theorem possible_live (d : Disk N) (l : Loc N) : d.Possible l (d.live.entry l) := by
  rw [← d.replay]
  exact settle_mem _ _ _

/-- A change makes possible at a place only what it leaves there. -/
theorem Possible.of_apply {d : Disk N} {δ : Change N} (hne : ∀ k, δ ≠ .rename k k) {l : Loc N}
    {v : Option Node} (h : (d.apply δ).Possible l v) :
    d.Possible l v ∨ l ∈ δ.touches ∧ v = (d.live.apply δ).entry l := by
  rcases h with h | ⟨o, ho, hl⟩
  · left
    rw [h]
    cases δ with
    | syncDir m =>
      rcases settle_mem d.stable.entry (d.pending.filter (·.dir = m)) l with hs | ⟨o, ho, hs⟩
      · exact Or.inl hs
      · exact Or.inr ⟨o, (List.mem_filter.mp ho).1, hs⟩
    | none | mkdir | create | write | rename | syncFile => exact Or.inl rfl
  · cases δ with
    | syncDir m => exact Or.inl (Or.inr ⟨o, (List.mem_filter.mp ho).1, hl⟩)
    | none | mkdir | create | write | rename | syncFile =>
      rcases List.mem_append.mp ho with ho | ho
      · exact Or.inl (Or.inr ⟨o, ho, hl⟩)
      · exact Or.inr (ops_mem hne ho hl)

/-- A sync of a directory leaves possible in it only what is seen there. -/
theorem Possible.of_syncDir {d : Disk N} {l : Loc N} {v : Option Node}
    (h : (d.apply (.syncDir l.tail)).Possible l v) : v = d.live.entry l := by
  have hno : ∀ o ∈ (d.apply (.syncDir l.tail)).pending, ∀ w, (l, w) ∉ o.sets := by
    intro o ho w hw
    have hne := of_decide_eq_true (List.mem_filter.mp ho).2
    exact hne (o.inside l w hw).symm
  rcases h with h | ⟨o, ho, hl⟩
  · have hlive := congrFun (d.apply (.syncDir l.tail)).replay l
    rw [settle_of_not_mem hno] at hlive
    exact h.trans hlive
  · exact absurd hl (hno o ho v)

/-- What is possible at a place after a change is what it then shows, or was possible before,
unless the change has synced its directory. -/
theorem Possible.shown_or_before {d : Disk N} {δ : Change N} (hne : ∀ k, δ ≠ .rename k k)
    {l : Loc N} {v : Option Node} (h : (d.apply δ).Possible l v) :
    v = (d.live.apply δ).entry l ∨ d.Possible l v ∧ δ ≠ .syncDir l.tail := by
  by_cases hδ : δ = .syncDir l.tail
  · subst hδ
    exact Or.inl h.of_syncDir
  · rcases h.of_apply hne with h | ⟨-, h⟩
    · exact Or.inr ⟨h, hδ⟩
    · exact Or.inl h

theorem dirty_apply {d : Disk N} {δ : Change N} {i : ℕ} (hd : d.dirty i = false)
    (hw : ∀ e, δ ≠ .write i e) : (d.apply δ).dirty i = false := by
  cases δ with
  | write j e =>
    refine (Function.update_of_ne ?_ _ _).trans hd
    rintro rfl
    exact hw e rfl
  | create l =>
    change Function.update d.dirty d.live.next false i = false
    rw [Function.update_apply]
    split_ifs
    · rfl
    · exact hd
  | syncFile j =>
    change Function.update d.dirty j false i = false
    rw [Function.update_apply]
    split_ifs
    · rfl
    · exact hd
  | none | mkdir | rename | syncDir => exact hd

end Disk

/-- Entries that may be found together after a power loss. -/
def Disk.Found (d : Disk N) (e : Loc N → Option Node) : Prop :=
  ∃ ops, ops.Sublist d.pending ∧ e = settle d.stable.entry ops

section Found

/-- Some of the members without a property, put back among those with it. -/
theorem exists_sublist_filter {α : Type} (p : α → Bool) {l b : List α}
    (h : b.Sublist (l.filter fun a => !p a)) :
    ∃ c : List α, c.Sublist l ∧ c.filter p = l.filter p ∧ (c.filter fun a => !p a) = b := by
  induction l generalizing b with
  | nil =>
    obtain rfl := List.eq_nil_of_sublist_nil h
    exact ⟨[], List.nil_sublist _, rfl, rfl⟩
  | cons a l ih =>
    cases ha : p a with
    | true =>
      rw [List.filter_cons_of_neg (by simp [ha])] at h
      obtain ⟨c, hc, hp, hn⟩ := ih h
      exact ⟨a :: c, hc.cons_cons a, by simp [ha, hp], by simp [ha, hn]⟩
    | false =>
      rw [List.filter_cons_of_pos (by simp [ha])] at h
      cases h with
      | cons _ h =>
        obtain ⟨c, hc, hp, hn⟩ := ih h
        exact ⟨c, hc.cons a, by simp [ha, hp], hn⟩
      | cons_cons _ h =>
        obtain ⟨c, hc, hp, hn⟩ := ih h
        exact ⟨a :: c, hc.cons_cons a, by simp [ha, hp], by simp [ha, hn]⟩

/-- The operations of one directory may be done first. -/
theorem settle_filter_append (e : Loc N → Option Node) (ops : List (DirOp N)) (m : Loc N) :
    settle e (ops.filter (·.dir = m) ++ ops.filter fun o => !decide (o.dir = m)) = settle e ops := by
  funext l
  rw [settle_append]
  by_cases hl : l.tail = m
  · rw [settle_of_not_mem, settle_filter]
    · intro o _ ho
      simp [ho, hl]
    · intro o ho v hv
      have hne := (List.mem_filter.mp ho).2
      rw [← o.inside l v hv, hl] at hne
      simp at hne
  · rw [settle_filter]
    · refine settle_congr _ (settle_of_not_mem fun o ho v hv => hl ?_)
      exact (o.inside l v hv).trans (of_decide_eq_true (List.mem_filter.mp ho).2)
    · intro o _ ho
      simpa [ho] using hl

/-- What may be found after a change is what might have been before, with some of the operations
of the change. -/
theorem Disk.Found.of_apply {d : Disk N} {δ : Change N} {e : Loc N → Option Node}
    (h : (d.apply δ).Found e) :
    ∃ f, d.Found f ∧ ∃ ops', ops'.Sublist (ops d.live δ) ∧ e = settle f ops' := by
  obtain ⟨os, hos, rfl⟩ := h
  cases δ with
  | syncDir m =>
    have hos' : os.Sublist (d.pending.filter fun o => !decide (o.dir = m)) := by
      simpa [Disk.apply, queue] using hos
    obtain ⟨c, hc, hp, hn⟩ := exists_sublist_filter (fun o : DirOp N => decide (o.dir = m)) hos'
    refine ⟨_, ⟨c, hc, rfl⟩, [], List.nil_sublist _, ?_⟩
    rw [← settle_filter_append d.stable.entry c m, hp, hn, settle_append]
    rfl
  | none | mkdir | create | write | rename | syncFile =>
    obtain ⟨os₁, os₂, rfl, h₁, h₂⟩ := List.sublist_append_iff.mp hos
    exact ⟨_, ⟨os₁, h₁, rfl⟩, os₂, h₂, settle_append _ _⟩

theorem Disk.Found.possible {d : Disk N} {e : Loc N → Option Node} (h : d.Found e) (l : Loc N) :
    d.Possible l (e l) := by
  obtain ⟨os, hos, rfl⟩ := h
  rcases settle_mem d.stable.entry os l with hs | ⟨o, ho, hs⟩
  · exact Or.inl hs
  · exact Or.inr ⟨o, hos.subset ho, hs⟩

end Found

theorem recovers_stable (d : Disk N) : Recovers d d.stable :=
  ⟨⟨[], List.nil_sublist _, rfl⟩, fun _ => Or.inl rfl⟩

theorem Recovers.possible {d : Disk N} {t : Image N} (h : Recovers d t) (l : Loc N) :
    d.Possible l (t.entry l) := by
  obtain ⟨ops, hops, he⟩ := h.entries
  rw [he]
  rcases settle_mem d.stable.entry ops l with hs | ⟨o, ho, hs⟩
  · exact Or.inl hs
  · exact Or.inr ⟨o, hops.subset ho, hs⟩

theorem Recovers.data {d : Disk N} {t : Image N} (h : Recovers d t) {i : ℕ}
    (hi : d.dirty i = false) : t.data i = d.live.data i := by
  rcases h.contents i with hc | ⟨hd, -⟩
  · rw [hc, d.clean i hi]
  · rw [hi] at hd
    cases hd

/-- In a directory with nothing pending every entry is found as it was last seen. -/
theorem Recovers.entry_of_synced {d : Disk N} {t : Image N} (h : Recovers d t) {l : Loc N}
    (hl : ∀ o ∈ d.pending, o.dir ≠ l.tail) : t.entry l = d.live.entry l := by
  have hno : ∀ o ∈ d.pending, ∀ v, (l, v) ∉ o.sets := fun o ho v hv =>
    hl o ho (o.inside l v hv).symm
  obtain ⟨ops, hops, he⟩ := h.entries
  rw [he, ← d.replay, settle_of_not_mem fun o ho => hno o (hops.subset ho), settle_of_not_mem hno]

end Nyx.Durability
