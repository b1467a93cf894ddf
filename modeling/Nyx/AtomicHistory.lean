import Nyx.AtomicStep

/-! Calls of `write_atomic` one after the other over a tree without links, each completing,
failing or killed wherever its choices end. -/
namespace Nyx.Atomic
open FileTree Interaction Text
open CreateDirAll (IoError)

/-- What a call has done to the tree it started from, at any point of it. -/
structure Sofar (c : Call) (t : Volume OsStr) (r : Run (Volume OsStr)) : Prop where
  linkless : r.world.Linkless
  holds : Holds c r.world r.stage
  published : r.stage.published = renamed r.log
  dirs : ∀ l, t.entry l = some .dir → r.world.entry l = some .dir
  created : r.stage.holding = true → created r.log = true
  content : ∀ l, (Atomic.created r.log = true → l ≠ c.tmp) → r.world.content l =
    if renamed r.log = true ∧ l = c.target then some c.data else t.content l

theorem renamed_cons (r : Request OsStr) (k : Choice) (a : Reply OsStr)
    (log : List (Request OsStr × Choice × Reply OsStr)) :
    renamed ((r, k, a) :: log) = (renamed [(r, k, a)] || renamed log) := by
  simp [renamed]

theorem renamed_single {c : Call} {s : Stage} {r : Request OsStr} (hr : issue c s = some r)
    (hs : s ≠ .rename) (k : Choice) (a : Reply OsStr) : renamed [(r, k, a)] = false := by
  cases s with
  | rename => exact absurd rfl hs
  | mkdirs m =>
    cases m with
    | mkdir d below again => obtain rfl := Option.some.inj hr; rfl
    | isDir d below again e => obtain rfl := Option.some.inj hr; rfl
    | done x => cases hr
  | done x => cases hr
  | create | write | flush | sync | openDir | syncDir => obtain rfl := Option.some.inj hr; rfl

theorem created_cons (r : Request OsStr) (k : Choice) (a : Reply OsStr)
    (log : List (Request OsStr × Choice × Reply OsStr)) :
    created ((r, k, a) :: log) = (created [(r, k, a)] || created log) := by
  simp [created]

theorem created_step {c : Call} {s : Stage} {q : Request OsStr} (hq : issue c s = some q)
    {log : List (Request OsStr × Choice × Reply OsStr)}
    (hlog : s.holding = true → created log = true) (hs : s = .create ∨ s.holding = true)
    (k : Choice) (a : Reply OsStr) : created ((q, k, a) :: log) = true := by
  rw [created_cons, Bool.or_eq_true]
  rcases hs with rfl | hs
  · obtain rfl : .create c.tmpPath = q := Option.some.inj hq
    exact Or.inl rfl
  · exact Or.inr (hlog hs)

/-- The log shows a rename exactly when the temporary file was moved, and so does the stage. -/
theorem renamed_step {c : Call} {t : Volume OsStr} {s : Stage} {q : Request OsStr}
    (hq : issue c s = some q) (hh : Holds c t s) (hu : Unshared c t s) (k : Choice)
    {log : List (Request OsStr × Choice × Reply OsStr)} (hp : s.published = renamed log) :
    (resume c s (t.outcome c.cwd k q).1).published =
        renamed ((q, k, (t.outcome c.cwd k q).1) :: log) ∧
      (renamed ((q, k, (t.outcome c.cwd k q).1) :: log) = true ↔
        (t.outcome c.cwd k q).2 = .rename c.tmp c.target ∨ renamed log = true) := by
  rw [renamed_cons, ← hp]
  by_cases hs : s = .rename
  · subst hs
    obtain rfl : .rename c.tmpPath c.path = q := Option.some.inj hq
    rcases outcome_rename_held hh k with ⟨e, he⟩ | ⟨he, -⟩
    · rw [he]
      simp [renamed, resume, Stage.published]
    · rw [he]
      simp [renamed, resume, Stage.published]
  · rw [renamed_single hq hs, Bool.false_or]
    refine ⟨published_resume hs _, fun hx => Or.inr hx, fun hx => hx.resolve_left fun hδ => ?_⟩
    have htouch := issue_touch hq hh hu k
    rw [hδ] at htouch
    exact hs htouch.stage_eq

theorem sofar_step {c : Call} {t : Volume OsStr} (r : Run (Volume OsStr)) (k : Choice)
    (q : Request OsStr) (hq : (program c).issue r.stage = some q) (h : Sofar c t r) :
    Sofar c t (advance (program c) (Volume.respond c.cwd) r k) := by
  rw [advance_issued hq]
  have hu := unshared_of_linkless (c := c) h.linkless r.stage
  have htouch := issue_touch hq h.holds hu k
  have hcreated := fun hx => created_step hq h.created hx k (r.world.outcome c.cwd k q).1
  obtain ⟨hpub, hren⟩ := renamed_step hq h.holds hu k h.published
  refine ⟨Volume.linkless_apply h.linkless _, resume_holds hq h.holds hu k, hpub,
    fun l hl => htouch.dir (h.dirs l hl), fun hx => hcreated (holding_resume hx), fun l hl => ?_⟩
  have hc := htouch.content (l := l) fun hx => hl (hcreated hx)
  have hold := h.content l fun hx => hl (by rw [created_cons, hx, Bool.or_true])
  refine (hc.trans (congrArg _ hold)).trans ?_
  simp only [Volume.respond, hren]
  by_cases hlt : l = c.target
  · by_cases hδ : (r.world.outcome c.cwd k q).2 = .rename c.tmp c.target <;> simp [hlt, hδ]
  · simp [hlt]

theorem sofar_call (c : Call) (ks : List Choice) {t : Volume OsStr} (ht : t.Linkless) :
    Sofar c t (call c ks t) := by
  refine run_invariant (Sofar c t) (fun r k q hq h => sofar_step r k q hq h) _ ks ?_
  refine ⟨ht, holds_start c t, published_start c, fun _ h => h, fun h => ?_,
    fun _ _ => by simp [renamed]⟩
  rw [holding_start] at h
  cases h

abbrev History := List (Call × List Choice)

def after : Volume OsStr → History → Volume OsStr
  | t, [] => t
  | t, (c, ks) :: h => after (call c ks t).world h

/-- The data of the last call aimed at a place whose rename took effect. -/
def published (l : Loc OsStr) : Volume OsStr → History → Option Bytes
  | _, [] => none
  | t, (c, ks) :: h =>
    (published l (call c ks t).world h).or
      (if renamed (call c ks t).log = true ∧ l = c.target then some c.data else none)

/-- The temporary names the calls of a history generate. -/
def temps : Volume OsStr → History → List (Loc OsStr)
  | _, [] => []
  | t, (c, ks) :: h =>
    (if created (call c ks t).log then [c.tmp] else []) ++ temps (call c ks t).world h

/-- The part of a history that has happened when n calls are over and m requests of the
next one are answered. -/
def cut (h : History) (n m : ℕ) : History :=
  h.take n ++ h[n]?.toList.map fun e => (e.1, e.2.take m)

theorem created_call {c : Call} {ks : List Choice} {t : Volume OsStr} {m : ℕ}
    (h : created (call c (ks.take m) t).log = true) : created (call c ks t).log = true := by
  conv_lhs => rw [← List.take_append_drop m ks]
  rw [call, run_append]
  refine run_invariant (fun r => created r.log = true) ?_ _ _ h
  intro r k q hq hr
  rw [advance_issued hq, created_cons, hr, Bool.or_true]

theorem temps_cut (t : Volume OsStr) (h : History) (n m : ℕ) :
    temps t (cut h n m) ⊆ temps t h := by
  induction n generalizing t h with
  | zero =>
    cases h with
    | nil => exact List.nil_subset _
    | cons e h =>
      intro l hl
      simp only [cut, List.take_zero, List.nil_append, List.getElem?_cons_zero,
        Option.toList_some, List.map_cons, List.map_nil, temps, List.append_nil] at hl ⊢
      split_ifs at hl with hc
      · rw [if_pos (created_call hc)]
        exact List.mem_append_left _ hl
      · cases hl
  | succ n ih =>
    cases h with
    | nil => exact List.nil_subset _
    | cons e h =>
      have hcut : cut (e :: h) (n + 1) m = e :: cut h n m := by simp [cut]
      rw [hcut]
      exact List.append_subset.mpr ⟨List.subset_append_left _ _,
        fun l hl => List.mem_append_right _ (ih _ h hl)⟩

theorem mem_temps {t : Volume OsStr} {h : History} {n : ℕ} {e : Call × List Choice}
    (he : h[n]? = some e) (hc : created (call e.1 e.2 (after t (h.take n))).log = true) :
    e.1.tmp ∈ temps t h := by
  induction n generalizing t h with
  | zero =>
    cases h with
    | nil => cases he
    | cons f h =>
      obtain rfl : f = e := by simpa using he
      simp only [temps, List.take_zero, after] at hc ⊢
      simp [hc]
  | succ n ih =>
    cases h with
    | nil => cases he
    | cons f h => exact List.mem_append_right _ (ih (by simpa using he) hc)

theorem after_linkless {t : Volume OsStr} (ht : t.Linkless) (h : History) :
    (after t h).Linkless := by
  induction h generalizing t with
  | nil => exact ht
  | cons e h ih => exact ih (sofar_call e.1 e.2 ht).linkless

theorem after_dir {t : Volume OsStr} (ht : t.Linkless) (h : History) {l : Loc OsStr}
    (hl : t.entry l = some .dir) : (after t h).entry l = some .dir := by
  induction h generalizing t with
  | nil => exact hl
  | cons e h ih =>
    have hs := sofar_call e.1 e.2 ht
    exact ih hs.linkless (hs.dirs l hl)

theorem after_content {t : Volume OsStr} (ht : t.Linkless) (h : History) {l : Loc OsStr}
    (hl : l ∉ temps t h) : (after t h).content l =
      (published l t h).or (t.content l) := by
  induction h generalizing t with
  | nil => rfl
  | cons e h ih =>
    have hs := sofar_call e.1 e.2 ht
    rw [temps, List.mem_append, not_or] at hl
    have hself : created (call e.1 e.2 t).log = true → l ≠ e.1.tmp := by
      intro hc
      simpa [hc] using hl.1
    rw [after, ih hs.linkless hl.2, published, Option.or_assoc, hs.content l hself]
    congr 1
    split_ifs <;> rfl

/-- A manifest written to the root directory. -/
def manifest : Call := ⟨⟨true, [.normal (bytes "manifest.nyx")], false⟩, [1, 2, 3], 7, some 12, []⟩

/-- The first write of the manifest is killed after two bytes; the second, which generates
the same temporary name, completes. -/
def interrupted : History :=
  [(manifest, [.go 0, .go 0, .go 0, .go 2]), (manifest, List.replicate 9 (.go 5))]

end Nyx.Atomic
