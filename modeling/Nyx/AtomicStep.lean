import Nyx.Atomic

/-! What one request of a `write_atomic` call can do to the tree, and what the call can
rely on between two requests. -/
namespace Nyx.Atomic
open FileTree Interaction Text
open CreateDirAll (IoError)

theorem tmpName_length (f : OsStr) (pid : UInt32) (nanos : ℕ) :
    f.length < (tmpName f pid nanos).length := by
  have h : (bytes ".").length = 1 := by decide
  simp only [tmpName, List.length_append, h]
  omega

namespace Call

theorem fileName_path {c : Call} {n : OsStr} (h : c.fileName = some n) :
    c.path.fileName = some n := by
  obtain ⟨m, hm, hn⟩ := Option.bind_eq_some_iff.mp h
  obtain ⟨s, -, rfl⟩ := Option.map_eq_some_iff.mp hn
  exact hm

theorem dir_comps {c : Call} (h : c.path.fileName.isSome) :
    c.dir = ⟨c.path.rooted, c.path.comps.tail, false⟩ := by
  rw [dir, Path.parent_of_fileName h, Option.getD_some]

theorem target_eq_of_path {c : Call} {n : OsStr} (h : c.path.fileName = some n) :
    c.target = n :: c.dir.loc c.cwd := by
  have hn : c.path.fileName.isSome := by simp [h]
  rw [dir_comps hn]
  exact Path.loc_of_fileName h (Path.parent_of_fileName hn)

theorem target_eq {c : Call} {n : OsStr} (h : c.fileName = some n) :
    c.target = n :: c.dir.loc c.cwd :=
  target_eq_of_path (fileName_path h)

theorem tmp_eq (c : Call) :
    c.tmp = tmpName (c.fileName.getD []) c.pid c.nanos :: c.dir.loc c.cwd := rfl

theorem tmp_ne_target {c : Call} (h : c.fileName.isSome) : c.tmp ≠ c.target := by
  obtain ⟨n, hn⟩ := Option.isSome_iff_exists.mp h
  rw [tmp_eq, target_eq hn, hn, Option.getD_some]
  intro he
  have hl := tmpName_length n c.pid c.nanos
  rw [(List.cons.inj he).1] at hl
  exact hl.false

end Call

/-- The inode is the call's temporary file and has no other name. -/
structure Scratch (c : Call) (t : Volume OsStr) (i : ℕ) : Prop where
  named : c.fileName.isSome
  entry : t.entry c.tmp = some (.file i)
  sole : t.Sole i c.tmp

/-- What a call relies on at each stage: its temporary file holds what was written so far. -/
def Holds (c : Call) (t : Volume OsStr) : Stage → Prop
  | .create => c.fileName.isSome
  | .write i off => Scratch c t i ∧ off < c.data.length ∧ t.data i = c.data.take off
  | .flush i | .sync i => Scratch c t i ∧ t.data i = c.data
  | .rename => ∃ i, Scratch c t i ∧ t.data i = c.data
  | .mkdirs _ | .openDir | .syncDir _ | .done _ => True

def Stage.holding : Stage → Bool
  | .write .. | .flush _ | .sync _ | .rename => true
  | .mkdirs _ | .create | .openDir | .syncDir _ | .done _ => false

theorem Holds.scratch {c : Call} {t : Volume OsStr} {s : Stage} (h : Holds c t s)
    (hs : s.holding = true) : ∃ i, Scratch c t i := by
  cases s with
  | write i off => exact ⟨i, h.1⟩
  | flush i | sync i => exact ⟨i, h.1⟩
  | rename => exact ⟨_, h.choose_spec.1⟩
  | mkdirs | create | openDir | syncDir | done => cases hs

/-- Nothing else is called by the name of the temporary file about to be opened. -/
def Unshared (c : Call) (t : Volume OsStr) (s : Stage) : Prop :=
  match s with
  | .create => ∀ i, t.entry c.tmp = some (.file i) → t.Sole i c.tmp
  | _ => True

theorem unshared_of_linkless {c : Call} {t : Volume OsStr} (h : t.Linkless) (s : Stage) :
    Unshared c t s := by
  cases s with
  | create => exact fun i hi => h _ _ hi
  | _ => trivial

/-- At its rename a call holds an inode of its own, so success means it was moved. -/
theorem outcome_rename_held {c : Call} {t : Volume OsStr} (hh : Holds c t .rename) (ch : Choice) :
    (∃ e, t.outcome c.cwd ch (.rename c.tmpPath c.path) = (.err e, .none)) ∨
      t.outcome c.cwd ch (.rename c.tmpPath c.path) = (.ok, .rename c.tmp c.target) ∧
        t.enter c.cwd c.path = none ∧ c.path.trailing = false ∧ t.entry c.target ≠ some .dir := by
  obtain ⟨i, hs, -⟩ := hh
  rcases t.outcome_rename c.cwd ch c.tmpPath c.path with
    h | ⟨j, hj, he, -, htr, hp, ⟨-, ht⟩ | ⟨h, -⟩⟩
  · exact Or.inl h
  · have hij : j = i := by
      have := hs.entry.symm.trans hj
      simpa using this.symm
    subst hij
    exact absurd (hs.sole _ ht) (Call.tmp_ne_target hs.named).symm
  · exact Or.inr ⟨h, he, htr, hp⟩

/-- The changes a request of a call can make, with what is known where it is made. -/
inductive Touch (c : Call) (t : Volume OsStr) : Stage → Change OsStr → Prop
  | quiet {s δ} (h : δ.quiet = true) : Touch c t s δ
  | mkdir {m l} (absent : t.entry l = none) : Touch c t (.mkdirs m) (.mkdir l)
  | create (named : c.fileName.isSome) (absent : t.entry c.tmp = none) :
      Touch c t .create (.create c.tmp)
  | write {s i} (d) (scratch : Scratch c t i) (stage : s = .create ∨ ∃ off, s = .write i off) :
      Touch c t s (.write i d)
  | rename {i} (scratch : Scratch c t i) (full : t.data i = c.data)
      (plain : t.entry c.target ≠ some .dir) : Touch c t .rename (.rename c.tmp c.target)

theorem issue_touch {c : Call} {t : Volume OsStr} {s : Stage} {r : Request OsStr}
    (hr : issue c s = some r) (hh : Holds c t s) (hu : Unshared c t s) (ch : Choice) :
    Touch c t s (t.outcome c.cwd ch r).2 := by
  cases s with
  | mkdirs m =>
    rcases CreateDirAll.outcome_issue t c.cwd ch hr with
      h | ⟨d, below, again, rfl, h, he⟩
    · rw [h]
      exact .quiet rfl
    · rw [h]
      exact .mkdir he
  | create =>
    obtain rfl : .create c.tmpPath = r := Option.some.inj hr
    rcases t.outcome_create c.cwd ch c.tmpPath with ⟨e, h⟩ | ⟨h, he⟩ | ⟨i, h, he⟩
    · rw [h]
      exact .quiet rfl
    · rw [h]
      exact .create hh he
    · rw [h]
      exact .write [] ⟨hh, he, hu i he⟩ (Or.inl rfl)
  | write i off =>
    obtain rfl : .write i off (c.data.drop off) = r := Option.some.inj hr
    rcases t.outcome_write c.cwd ch i off (c.data.drop off) with ⟨e, h⟩ | h | ⟨n, -, -, h⟩
    · rw [h]
      exact .quiet rfl
    · rw [h]
      exact .quiet rfl
    · rw [h]
      exact .write _ hh.1 (Or.inr ⟨off, rfl⟩)
  | flush i =>
    obtain rfl : .flush i = r := Option.some.inj hr
    cases ch <;> exact .quiet rfl
  | sync i =>
    obtain rfl : .fsync (.file i) = r := Option.some.inj hr
    cases ch with
    | fail e => exact .quiet rfl
    | go n => exact .quiet rfl
  | rename =>
    obtain rfl : .rename c.tmpPath c.path = r := Option.some.inj hr
    rcases outcome_rename_held hh ch with ⟨e, h⟩ | ⟨h, -, -, hp⟩
    · rw [h]
      exact .quiet rfl
    · rw [h]
      obtain ⟨i, hs, hd⟩ := hh
      exact .rename hs hd hp
  | openDir =>
    obtain rfl : .openFile c.dir = r := Option.some.inj hr
    rcases t.outcome_openFile c.cwd ch c.dir with ⟨e, h⟩ | ⟨-, ⟨h, -⟩ | ⟨i, h, -⟩⟩ <;>
    · rw [h]
      exact .quiet rfl
  | syncDir hd =>
    obtain rfl : .fsync hd = r := Option.some.inj hr
    cases ch with
    | fail e => exact .quiet rfl
    | go n =>
      cases hd with
      | file i => exact .quiet rfl
      | dir l => exact .quiet rfl
  | done r => cases hr

theorem holds_mkdirs (c : Call) (t : Volume OsStr) (m : CreateDirAll.Stage OsStr) :
    Holds c t (mkdirs c m) := by
  unfold mkdirs
  split
  · split_ifs with h
    · exact h
    · trivial
  · trivial
  · trivial

theorem holds_start (c : Call) (t : Volume OsStr) : Holds c t (start c) := by
  unfold start
  split
  · trivial
  · exact holds_mkdirs c t _

theorem holds_writeAll {c : Call} {t : Volume OsStr} {i off : ℕ} (hs : Scratch c t i)
    (hd : t.data i = c.data.take off) : Holds c t (writeAll c i off) := by
  unfold writeAll
  split_ifs with h
  · exact ⟨hs, h, hd⟩
  · exact ⟨hs, by rw [hd, List.take_of_length_le (by omega)]⟩

theorem resume_holds {c : Call} {t : Volume OsStr} {s : Stage} {r : Request OsStr}
    (hr : issue c s = some r) (hh : Holds c t s) (hu : Unshared c t s) (ch : Choice) :
    Holds c (t.apply (t.outcome c.cwd ch r).2) (resume c s (t.outcome c.cwd ch r).1) := by
  cases s with
  | mkdirs m => exact holds_mkdirs c _ _
  | create =>
    obtain rfl : .create c.tmpPath = r := Option.some.inj hr
    rcases t.outcome_create c.cwd ch c.tmpPath with ⟨e, h⟩ | ⟨h, he⟩ | ⟨i, h, he⟩
    · rw [h]
      trivial
    · rw [h]
      refine holds_writeAll ⟨hh, ?_, Volume.sole_create t c.tmp⟩ ?_
      · exact Function.update_self _ _ _
      · exact Function.update_self _ _ _
    · rw [h]
      exact holds_writeAll ⟨hh, he, hu i he⟩ (Function.update_self _ _ _)
  | write i off =>
    obtain ⟨hs, hlt, hd⟩ := hh
    obtain rfl : .write i off (c.data.drop off) = r := Option.some.inj hr
    rcases t.outcome_write c.cwd ch i off (c.data.drop off) with ⟨e, h⟩ | h | ⟨n, hn, hle, h⟩
    · rw [h]
      simp only [resume]
      split_ifs
      · exact ⟨hs, hlt, hd⟩
      · trivial
    · rw [h]
      trivial
    · rw [h]
      simp only [resume, hn.ne', if_false]
      refine holds_writeAll ⟨hs.named, hs.entry, hs.sole⟩ ?_
      have hw : writeAt (t.data i) off ((c.data.drop off).take n) = c.data.take (off + n) := by
        rw [hd]
        exact writeAt_take hlt.le n
      exact (Function.update_self _ _ _).trans hw
  | flush i =>
    obtain rfl : .flush i = r := Option.some.inj hr
    cases ch with
    | fail e => trivial
    | go n => exact hh
  | sync i =>
    obtain rfl : .fsync (.file i) = r := Option.some.inj hr
    cases ch with
    | fail e => trivial
    | go n => exact ⟨i, hh⟩
  | rename =>
    obtain rfl : .rename c.tmpPath c.path = r := Option.some.inj hr
    rcases outcome_rename_held hh ch with ⟨e, h⟩ | ⟨h, -⟩
    · rw [h]
      trivial
    · rw [h]
      trivial
  | openDir =>
    obtain rfl : .openFile c.dir = r := Option.some.inj hr
    rcases t.outcome_openFile c.cwd ch c.dir with ⟨e, h⟩ | ⟨-, ⟨h, -⟩ | ⟨i, h, -⟩⟩ <;>
    · rw [h]
      trivial
  | syncDir hd => trivial
  | done r => cases hr

/-- Between two requests another call leaves the temporary file alone, if it uses another
name and does not aim at it. -/
theorem Touch.holds {c d : Call} {t : Volume OsStr} {s u : Stage} {δ : Change OsStr}
    (h : Touch c t s δ) (hh : Holds d t u)
    (hne : u.holding = true → s = .create ∨ s.holding = true →
      d.tmp ≠ c.tmp ∧ d.tmp ≠ c.target) :
    Holds d (t.apply δ) u := by
  have keep : ∀ i, u.holding = true → Scratch d t i →
      Scratch d (t.apply δ) i ∧ (t.apply δ).data i = t.data i := by
    intro i hu hs
    have hmem : d.tmp ∉ δ.touches ∧ ∀ e, δ ≠ .write i e := by
      cases h with
      | quiet h =>
        refine ⟨by simp [Change.touches_quiet h], ?_⟩
        rintro e rfl
        cases h
      | mkdir absent =>
        refine ⟨?_, by simp⟩
        rw [Change.touches, List.mem_singleton]
        rintro rfl
        rw [hs.entry] at absent
        cases absent
      | create named absent => simpa [Change.touches] using (hne hu (Or.inl rfl)).1
      | write e scratch stage =>
        refine ⟨by simp [Change.touches], ?_⟩
        intro e' he
        obtain ⟨rfl, -⟩ := Change.write.inj he
        refine (hne hu (stage.imp_right ?_)).1 (scratch.sole _ hs.entry)
        rintro ⟨off, rfl⟩
        rfl
      | rename scratch full plain => simpa [Change.touches] using hne hu (Or.inr rfl)
    exact ⟨⟨hs.named, by rw [Volume.entry_apply hmem.1, hs.entry],
      Volume.sole_apply hs.entry hs.sole hmem.1⟩,
      Volume.data_apply hmem.2 (t.fresh hs.entry)⟩
  cases u with
  | create => exact hh
  | write i off =>
    obtain ⟨hs, hlt, hd⟩ := hh
    obtain ⟨hs', hd'⟩ := keep i rfl hs
    exact ⟨hs', hlt, hd'.trans hd⟩
  | flush i | sync i =>
    obtain ⟨hs', hd'⟩ := keep i rfl hh.1
    exact ⟨hs', hd'.trans hh.2⟩
  | rename =>
    obtain ⟨i, hs, hd⟩ := hh
    obtain ⟨hs', hd'⟩ := keep i rfl hs
    exact ⟨i, hs', hd'.trans hd⟩
  | mkdirs | openDir | syncDir | done => trivial

/-- The only change at a place that is not the temporary name is the rename onto it, and
that puts the complete data there. -/
theorem Touch.content {c : Call} {t : Volume OsStr} {s : Stage} {δ : Change OsStr}
    (h : Touch c t s δ) {l : Loc OsStr} (hl : s = .create ∨ s.holding = true → l ≠ c.tmp) :
    (t.apply δ).content l =
      if δ = .rename c.tmp c.target ∧ l = c.target then some c.data else t.content l := by
  cases h with
  | quiet h =>
    rw [Volume.apply_quiet t h, if_neg]
    rintro ⟨rfl, -⟩
    cases h
  | mkdir absent =>
    rw [if_neg (by simp)]
    exact Volume.content_mkdir absent l
  | create named absent =>
    rw [if_neg (by simp)]
    exact Volume.content_apply (by simpa [Change.touches] using hl (Or.inl rfl)) (by simp)
  | write e scratch stage =>
    rw [if_neg (by simp)]
    refine Volume.content_apply (by simp [Change.touches]) ?_
    intro j e' he hj
    obtain ⟨rfl, -⟩ := Change.write.inj he
    refine hl (stage.imp_right ?_) (scratch.sole l hj)
    rintro ⟨off, rfl⟩
    rfl
  | rename scratch full plain =>
    have hne := Call.tmp_ne_target scratch.named
    by_cases hlt : l = c.target
    · subst hlt
      rw [if_pos ⟨rfl, rfl⟩, Volume.content_rename hne, Image.content_file scratch.entry, full]
    · rw [if_neg (by simp [hlt])]
      exact Volume.content_apply (by simp [Change.touches, hlt, hl (Or.inr rfl)]) (by simp)

theorem holding_resume {c : Call} {s : Stage} {a : Reply OsStr}
    (h : (resume c s a).holding = true) : s = .create ∨ s.holding = true := by
  cases s with
  | create => exact Or.inl rfl
  | write | flush | sync | rename => exact Or.inr rfl
  | mkdirs m =>
    exfalso
    simp only [resume, mkdirs] at h
    split at h
    · split_ifs at h <;> cases h
    · cases h
    · cases h
  | openDir => cases a <;> cases h
  | syncDir x => cases h
  | done x => cases h

theorem holding_start (c : Call) : (start c).holding = false := by
  unfold start mkdirs
  split
  · rfl
  · split
    · split_ifs <;> rfl
    · rfl
    · rfl

theorem Touch.not_mem_of_dir {c : Call} {t : Volume OsStr} {s : Stage} {δ : Change OsStr}
    (h : Touch c t s δ) {l : Loc OsStr} (hl : t.entry l = some .dir) : l ∉ δ.touches := by
  cases h with
  | quiet h => simp [Change.touches_quiet h]
  | mkdir absent | create named absent =>
    rw [Change.touches, List.mem_singleton]
    rintro rfl
    rw [hl] at absent
    cases absent
  | write e scratch stage => simp [Change.touches]
  | rename scratch full plain =>
    have htmp : l ≠ c.tmp := by
      rintro rfl
      cases scratch.entry.symm.trans hl
    have htarget : l ≠ c.target := by
      rintro rfl
      exact plain hl
    simp [Change.touches, htmp, htarget]

theorem Touch.dir {c : Call} {t : Volume OsStr} {s : Stage} {δ : Change OsStr}
    (h : Touch c t s δ) {l : Loc OsStr} (hl : t.entry l = some .dir) :
    (t.apply δ).entry l = some .dir := by
  rw [Volume.entry_apply (h.not_mem_of_dir hl), hl]

theorem Touch.unshared {c : Call} {t : Volume OsStr} {s : Stage} {δ : Change OsStr}
    (h : Touch c t s δ) (hu : Unshared c t .create) : Unshared c (t.apply δ) .create := by
  intro i hi
  by_cases hmem : c.tmp ∈ δ.touches
  · cases h with
    | quiet h =>
      rw [Change.touches_quiet h] at hmem
      cases hmem
    | mkdir absent =>
      obtain rfl := List.mem_singleton.mp hmem
      simp [Volume.apply] at hi
    | create named absent =>
      obtain rfl : t.next = i := by simpa [Volume.apply] using hi
      exact Volume.sole_create t c.tmp
    | write e scratch stage => cases hmem
    | rename scratch full plain => simp [Volume.apply] at hi
  · rw [Volume.entry_apply hmem] at hi
    exact Volume.sole_apply hi (hu i hi) hmem

theorem Unshared.at {c : Call} {t : Volume OsStr} (h : Unshared c t .create) (s : Stage) :
    Unshared c t s := by
  cases s with
  | create => exact h
  | _ => trivial

theorem Touch.stage_eq {c : Call} {t : Volume OsStr} {s : Stage} {a b : Loc OsStr}
    (h : Touch c t s (.rename a b)) : s = .rename := by
  cases h with
  | quiet h => cases h
  | rename => rfl

/-- The stages only a successful rename leads to. -/
def Stage.published : Stage → Bool
  | .openDir | .syncDir _ | .done (.ok _) => true
  | .mkdirs _ | .create | .write .. | .flush _ | .sync _ | .rename | .done (.error _) => false

theorem published_mkdirs (c : Call) (m : CreateDirAll.Stage OsStr) :
    (mkdirs c m).published = false := by
  unfold mkdirs
  split
  · split_ifs <;> rfl
  · rfl
  · rfl

theorem published_start (c : Call) : (start c).published = false := by
  unfold start
  split
  · rfl
  · exact published_mkdirs c _

theorem published_writeAll (c : Call) (i off : ℕ) : (writeAll c i off).published = false := by
  unfold writeAll
  split_ifs <;> rfl

theorem published_of_rename {c : Call} {t : Volume OsStr} {s : Stage} {q : Request OsStr}
    (hq : issue c s = some q) (hh : Holds c t s) (hu : Unshared c t s) (ch : Choice)
    {a b : Loc OsStr} (h : (t.outcome c.cwd ch q).2 = .rename a b) :
    (resume c s (t.outcome c.cwd ch q).1).published = true := by
  have htouch := issue_touch hq hh hu ch
  rw [h] at htouch
  obtain rfl := htouch.stage_eq
  obtain rfl : .rename c.tmpPath c.path = q := Option.some.inj hq
  rcases outcome_rename_held hh ch with ⟨e, he⟩ | ⟨he, -⟩
  · rw [he] at h
    cases h
  · rw [he]
    rfl

/-- No other reply publishes or takes back. -/
theorem published_resume {c : Call} {s : Stage} (hs : s ≠ .rename) (a : Reply OsStr) :
    (resume c s a).published = s.published := by
  unfold resume
  split <;>
    first
    | rfl
    | exact published_mkdirs c _
    | exact published_writeAll c _ _
    | (split_ifs <;> first | rfl | exact published_writeAll c _ _)
    | exact absurd rfl hs

end Nyx.Atomic
