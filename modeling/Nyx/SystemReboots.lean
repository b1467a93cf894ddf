import Nyx.SystemPowerLoss

/-! Power that fails again and again: each time the tree comes up again from what is found of the
disk, and other processes are started on it. No file is ever found half written. -/
namespace Nyx.System
open FileTree Interaction Text Durability
open Hash (Blake3)

/-- The tree that comes up from what is found on a disk: what lies in no directory is gone. -/
structure Mounts (v : Image OsStr) (t : Volume OsStr) : Prop where
  entry : ∀ l, t.entry l = if ∀ m ∈ l.tails.tail, v.entry m = some .dir then v.entry l else none
  data : ∀ l i, t.entry l = some (.file i) → t.data i = v.data i

section Mounts
variable {v : Image OsStr} {t : Volume OsStr} (h : Mounts v t)
include h

theorem Mounts.above {l : Loc OsStr} (hl : t.entry l ≠ none) :
    (∀ m ∈ l.tails.tail, v.entry m = some .dir) ∧ t.entry l = v.entry l := by
  have he := h.entry l
  split_ifs at he with ha
  · exact ⟨ha, he⟩
  · exact absurd he hl

theorem Mounts.dir {l : Loc OsStr} (hl : v.entry l = some .dir)
    (ha : ∀ m ∈ l.tails.tail, v.entry m = some .dir) : t.entry l = some .dir := by
  rw [h.entry l, if_pos ha, hl]

theorem Mounts.rooted (hroot : v.entry [] = some .dir) : t.Rooted where
  root := h.dir hroot (by simp)
  inside x l hx := by
    have ha := (h.above hx).1
    rw [List.tails_cons, List.tail_cons] at ha
    exact h.dir (ha l ((List.mem_tails l l).mpr (List.suffix_refl l)))
      fun m hm => ha m (List.mem_of_mem_tail hm)

theorem Mounts.linkless (hv : v.Linkless) : t.Linkless := by
  intro l i hl m hm
  have hback : ∀ k, t.entry k = some (.file i) → v.entry k = some (.file i) := by
    intro k hk
    rw [← (h.above (by simp [hk])).2, hk]
  exact hv l i (hback l hl) m (hback m hm)

theorem Mounts.content (l : Loc OsStr) : t.content l = v.lookup l := by
  unfold Image.lookup
  split_ifs with ha
  · have he : t.entry l = v.entry l := (h.entry l).trans (if_pos ha)
    exact Image.content_congr he fun i hi => h.data l i (he.trans hi)
  · exact Image.content_none ((h.entry l).trans (if_neg ha))

end Mounts

/-- What processes do between the start of a machine and the next loss of power. -/
structure Boot (ι : Type) where
  tasks : ι → Task
  moves : List (Move ι Choice)

section Boots
variable {H ι : Type} [DecidableEq ι] (B : Blake3 H)

/-- No call aims at the name of a temporary file, or creates one that is in use. -/
structure Boot.Careful (t : Volume OsStr) (b : Boot ι) : Prop where
  lasting : ∀ i c, b.tasks i = .write c → Lasting b.tasks c.target
  clear : AllClear B b.tasks t b.moves

inductive Boots : Volume OsStr → List (Boot ι) → Volume OsStr → Prop
  | nil (t) : Boots t [] t
  | cons {t u w b bs v} (careful : b.Careful B t)
      (recovers : Recovers (diskRun B b.tasks t b.moves).world v) (mounts : Mounts v u)
      (rest : Boots u bs w) : Boots t (b :: bs) w

/-- The complete data of a call aimed at a place. -/
def Wrote (b : Boot ι) (l : Loc OsStr) (d : Option Bytes) : Prop :=
  ∃ i c, b.tasks i = .write c ∧ c.target = l ∧ d = some c.data

variable {B}

omit [DecidableEq ι] in
theorem publish_wrote (b : Boot ι) (js : List ι) (a : Store) (l : Loc OsStr) :
    js.foldl (publish b.tasks) a l = a l ∨ Wrote b l (js.foldl (publish b.tasks) a l) := by
  induction js generalizing a with
  | nil => exact Or.inl rfl
  | cons j js ih =>
    rw [List.foldl_cons]
    rcases ih (publish b.tasks a j) with h | h
    · rw [h]
      cases hj : b.tasks j with
      | layout | hash => exact Or.inl (by simp only [publish, hj])
      | write c =>
        simp only [publish, hj]
        by_cases hl : l = c.target
        · subst hl
          exact Or.inr ⟨j, c, hj, rfl, Function.update_self _ _ _⟩
        · exact Or.inl (Function.update_of_ne hl _ _)
    · exact Or.inr h

/-- A machine can always come up again. -/
theorem exists_mounts {tasks : ι → Task} {t : Volume OsStr} {ms : List (Move ι Choice)}
    {s : Machine ι H} (h : Durable B tasks t ms s) {v : Image OsStr} (hv : Recovers s.world v) :
    ∃ u, Mounts v u := by
  refine ⟨⟨⟨fun l => if ∀ m ∈ l.tails.tail, v.entry m = some .dir then v.entry l else none,
    v.data⟩, s.world.live.next, fun {l i} hl => ?_⟩, fun l => rfl, fun l i _ => rfl⟩
  simp only at hl
  split_ifs at hl
  exact h.fresh l i (hl ▸ hv.possible l)

/-- What a tree that comes up again has in common with the one before. -/
structure Again (t u : Volume OsStr) (b : Boot ι) : Prop where
  linkless : u.Linkless
  rooted : u.Rooted
  dirs : ∀ l, t.entry l = some .dir → u.entry l = some .dir
  content : ∀ l, Lasting b.tasks l → u.content l = t.content l ∨ Wrote b l (u.content l)

theorem again_boot {t u : Volume OsStr} (ht : t.Linkless) (hr : t.Rooted) {b : Boot ι}
    (hb : b.Careful B t) {v : Image OsStr}
    (hv : Recovers (diskRun B b.tasks t b.moves).world v) (hm : Mounts v u) : Again t u b := by
  have hdur := durable_run B b.tasks t ht hb.lasting b.moves hb.clear
  have hdirs : ∀ l, t.entry l = some .dir → v.entry l = some .dir :=
    fun l hl => hdur.dirs l hl _ (hv.possible l)
  refine ⟨hm.linkless (hdur.linkless v.entry hv.entries), hm.rooted (hdirs [] hr.root),
    fun l hl => ?_, fun l hl => ?_⟩
  · exact hm.dir (hdirs l hl) fun m hm => hdirs m (hr.dirs hl m (List.mem_of_mem_tail hm))
  · obtain ⟨n, -, hlookup, -⟩ := hdur.lookup B b.tasks hr hv hl
    rw [hm.content l, hlookup]
    exact publish_wrote b _ _ l

/-- After any number of power losses. -/
theorem again_boots {t u : Volume OsStr} {bs : List (Boot ι)} (h : Boots B t bs u)
    (ht : t.Linkless) (hr : t.Rooted) : u.Linkless ∧ u.Rooted ∧
      (∀ l, t.entry l = some .dir → u.entry l = some .dir) ∧
      ∀ l, (∀ b ∈ bs, Lasting b.tasks l) →
        u.content l = t.content l ∨ ∃ b ∈ bs, Wrote b l (u.content l) := by
  induction h with
  | nil t => exact ⟨ht, hr, fun _ hl => hl, fun _ _ => Or.inl rfl⟩
  | cons careful recovers mounts rest ih =>
    have hagain := again_boot ht hr careful recovers mounts
    obtain ⟨hlinks, hrooted, hdirs, hcontent⟩ := ih hagain.linkless hagain.rooted
    refine ⟨hlinks, hrooted, fun l hl => hdirs l (hagain.dirs l hl), fun l hl => ?_⟩
    obtain ⟨hfirst, hrest⟩ := List.forall_mem_cons.mp hl
    rcases hcontent l hrest with he | ⟨b, hb, hwrote⟩
    · rw [he]
      rcases hagain.content l hfirst with he' | hwrote
      · exact Or.inl he'
      · exact Or.inr ⟨_, List.mem_cons_self, hwrote⟩
    · exact Or.inr ⟨b, List.mem_cons_of_mem _ hb, hwrote⟩

variable (B)

end Boots

/-- Both processes of a log are at work when the power fails, one with its file renamed. -/
def failing : Boot Bool := ⟨logging, logged⟩

/-- They are started again, and the first one is killed while it writes. -/
def restarted : Boot Bool :=
  ⟨logging, List.replicate 3 (.act true (.go 0)) ++ [.kill true]⟩

theorem logging_careful (t : Volume OsStr) (ms : List (Move Bool Choice)) :
    Boot.Careful Hash.table t ⟨logging, ms⟩ :=
  ⟨logging_lasting, logging_clear t ms⟩

end Nyx.System
