import Nyx.AtomicHistory
import Nyx.Durability

/-! One `write_atomic` call on a disk that may lose power: its target never comes back torn. -/
namespace Nyx.Atomic
open FileTree Interaction Text Durability
open CreateDirAll (IoError)

def diskCall (c : Call) (ks : List Choice) (t : Volume OsStr) : Run (Disk OsStr) :=
  run (program c) (Disk.respond c.cwd) ⟨Disk.ofVolume t, start c, []⟩ ks

/-- A program sees nothing of the disk but its live tree, and runs as over the bare tree. -/
theorem diskCall_live (c : Call) (ks : List Choice) (t : Volume OsStr) :
    (diskCall c ks t).map Disk.live = call c ks t :=
  (run_map (fun _ _ _ => rfl) _ ks).symm

theorem Touch.proper {c : Call} {t : Volume OsStr} {s : Stage} {δ : Change OsStr}
    (h : Touch c t s δ) (k : Loc OsStr) : δ ≠ .rename k k := by
  intro he
  cases h with
  | quiet h =>
    rw [he] at h
    cases h
  | mkdir | create | write => cases he
  | rename scratch =>
    obtain ⟨h1, h2⟩ := Change.rename.inj he
    exact Call.tmp_ne_target scratch.named (h1.trans h2.symm)

theorem Touch.scratch_of_write {c : Call} {t : Volume OsStr} {s : Stage} {i : ℕ} {e : Bytes}
    (h : Touch c t s (.write i e)) : Scratch c t i := by
  cases h with
  | quiet h => cases h
  | write e scratch stage => exact scratch

theorem Touch.quiet_of_published {c : Call} {t : Volume OsStr} {s : Stage} {δ : Change OsStr}
    (h : Touch c t s δ) (hs : s.published = true) :
    δ.quiet = true := by
  cases h with
  | quiet h => exact h
  | mkdir | create | rename => cases hs
  | write e scratch stage => rcases stage with rfl | ⟨off, rfl⟩ <;> cases hs

/-- The rename follows the sync of the file. -/
theorem resume_rename {c : Call} {s : Stage} {a : Reply OsStr} (h : resume c s a = .rename) :
    (∃ i, s = .sync i ∧ a = .ok) ∨ s = .rename := by
  cases s with
  | sync i =>
    cases a with
    | ok => exact Or.inl ⟨i, rfl, rfl⟩
    | opened | wrote | err => cases h
  | rename => exact Or.inr rfl
  | mkdirs m =>
    exfalso
    simp only [resume, mkdirs] at h
    split at h
    · split_ifs at h
    · cases h
    · cases h
  | create =>
    exfalso
    cases a with
    | opened hd =>
      cases hd with
      | file i =>
        simp only [resume, writeAll] at h
        split_ifs at h
      | dir l => cases h
    | ok | wrote | err => cases h
  | write i off =>
    exfalso
    cases a with
    | wrote n =>
      simp only [resume, writeAll] at h
      split_ifs at h
    | err e =>
      simp only [resume] at h
      split_ifs at h
    | ok | opened => cases h
  | flush i => cases a <;> cases h
  | openDir => cases a <;> cases h
  | syncDir hd => cases h
  | done x => cases h

/-- What the target may hold after a power loss: the old entry, a directory made where
there was nothing, or, once the rename is done, a synced file with the complete data. -/
def Origin (c : Call) (t : Volume OsStr) (r : Run (Disk OsStr)) (v : Option Node) : Prop :=
  v = t.entry c.target ∨ (v = some .dir ∧ t.entry c.target = none) ∨
    r.stage.published = true ∧ ∃ i, v = some (.file i) ∧ r.world.live.data i = c.data ∧
      r.world.dirty i = false

structure Kept (c : Call) (t : Volume OsStr) (r : Run (Disk OsStr)) : Prop where
  unshared : Unshared c r.world.live .create
  holds : Holds c r.world.live r.stage
  dirs : ∀ l, t.entry l = some .dir → ∀ v, r.world.Possible l v → v = some .dir
  old : ∀ i, t.entry c.target = some (.file i) →
    r.world.live.data i = t.data i ∧ r.world.dirty i = false
  synced : r.stage = .rename → ∀ i, r.world.live.entry c.tmp = some (.file i) →
    r.world.dirty i = false
  origin : ∀ v, r.world.Possible c.target v → Origin c t r v

/-- Until the rename the old file is still the one named by the target. -/
theorem Kept.unpublished {c : Call} {t : Volume OsStr} {r : Run (Disk OsStr)} (h : Kept c t r)
    (hp : r.stage.published = false) {i : ℕ} (hi : t.entry c.target = some (.file i)) :
    r.world.live.entry c.target = some (.file i) := by
  rcases h.origin _ (r.world.possible_live c.target) with ho | ⟨-, ho⟩ | ⟨ho, -⟩
  · rw [ho, hi]
  · rw [hi] at ho
    cases ho
  · rw [hp] at ho
    cases ho

/-- The changes of a call are never made to the file at the target. -/
theorem Touch.keeps {c : Call} {d : Disk OsStr} {s : Stage} {δ : Change OsStr}
    (ht : Touch c d.live s δ) {i : ℕ} (hd : d.dirty i = false)
    (hi : s.published = false → d.live.entry c.target = some (.file i)) :
    (d.live.apply δ).data i = d.live.data i ∧ (d.apply δ).dirty i = false := by
  cases hp : s.published with
  | true =>
    have hq := ht.quiet_of_published hp
    refine ⟨by rw [Volume.apply_quiet _ hq], Disk.dirty_apply hd ?_⟩
    rintro e rfl
    cases hq
  | false =>
    have hw : ∀ e, δ ≠ .write i e := by
      rintro e rfl
      have hs := ht.scratch_of_write
      exact Call.tmp_ne_target hs.named (hs.sole _ (hi hp)).symm
    exact ⟨Volume.data_apply hw (d.live.fresh (hi hp)), Disk.dirty_apply hd hw⟩

theorem origin_new {c : Call} {t : Volume OsStr} {r : Run (Disk OsStr)} {q : Request OsStr}
    (hq : issue c r.stage = some q) (h : Kept c t r) (k : Choice)
    (hmem : c.target ∈ (r.world.live.outcome c.cwd k q).2.touches) :
    Origin c t (advance (program c) (Disk.respond c.cwd) r k)
      ((r.world.live.apply (r.world.live.outcome c.cwd k q).2).entry c.target) := by
  have hu := h.unshared.at r.stage
  have htouch := issue_touch hq h.holds hu k
  have hpub := published_of_rename hq h.holds hu k (a := c.tmp) (b := c.target)
  rw [advance_issued (P := program c) hq]
  simp only [Origin, Disk.respond, Disk.apply, program]
  generalize hδ : (r.world.live.outcome c.cwd k q).2 = δ at *
  generalize resume c r.stage (r.world.live.outcome c.cwd k q).1 = s' at *
  generalize hs : r.stage = s at *
  cases htouch with
  | quiet hx =>
    rw [Change.touches_quiet hx] at hmem
    cases hmem
  | write e scratch stage => cases hmem
  | create named absent =>
    exact absurd (List.mem_singleton.mp hmem).symm (Call.tmp_ne_target named)
  | mkdir absent =>
    obtain rfl := List.mem_singleton.mp hmem
    refine Or.inr (Or.inl ⟨Function.update_self _ _ _, ?_⟩)
    rcases h.origin _ (r.world.possible_live c.target) with ho | ⟨ho, -⟩ | ⟨-, i, ho, -⟩
    · rw [← ho, absent]
    · cases absent.symm.trans ho
    · cases absent.symm.trans ho
  | rename scratch full plain =>
    rename_i i
    refine Or.inr (Or.inr ⟨hpub rfl, i, ?_, full, h.synced hs i scratch.entry⟩)
    rw [Volume.entry_rename (Call.tmp_ne_target scratch.named), scratch.entry]

theorem synced_step {c : Call} {d : Disk OsStr} {s : Stage} {q : Request OsStr}
    (hq : issue c s = some q) (hh : Holds c d.live s) (k : Choice)
    (hs : resume c s (d.live.outcome c.cwd k q).1 = .rename) {i : ℕ}
    (hi : (d.live.apply (d.live.outcome c.cwd k q).2).entry c.tmp = some (.file i)) :
    (d.apply (d.live.outcome c.cwd k q).2).dirty i = false := by
  rcases resume_rename hs with ⟨j, rfl, ha⟩ | rfl
  · obtain rfl : .fsync (.file j) = q := Option.some.inj hq
    cases k with
    | fail e => cases ha
    | go n =>
      have hij : some (Node.file j) = some (.file i) := hh.1.entry.symm.trans hi
      obtain rfl := Node.file.inj (Option.some.inj hij)
      exact Function.update_self _ _ _
  · obtain rfl : .rename c.tmpPath c.path = q := Option.some.inj hq
    rcases outcome_rename_held hh k with ⟨e, he⟩ | ⟨he, -⟩ <;>
    · rw [he] at hs
      cases hs

theorem kept_step {c : Call} {t : Volume OsStr} (r : Run (Disk OsStr)) (k : Choice)
    (q : Request OsStr) (hq : (program c).issue r.stage = some q) (h : Kept c t r) :
    Kept c t (advance (program c) (Disk.respond c.cwd) r k) := by
  have hu := h.unshared.at r.stage
  have htouch := issue_touch hq h.holds hu k
  have hadv := advance_issued (K := Disk.respond c.cwd) hq k
  refine ⟨?_, ?_, ?_, ?_, ?_, ?_⟩
  · rw [hadv]
    exact htouch.unshared h.unshared
  · rw [hadv]
    exact resume_holds hq h.holds hu k
  · intro l hl v hv
    rw [hadv] at hv
    have hdir := h.dirs l hl _ (r.world.possible_live l)
    rcases hv.of_apply htouch.proper with hv | ⟨hmem, -⟩
    · exact h.dirs l hl v hv
    · exact absurd hmem (htouch.not_mem_of_dir hdir)
  · intro i hi
    rw [hadv]
    have hold := h.old i hi
    have hkeep := htouch.keeps hold.2 fun hp => h.unpublished hp hi
    exact ⟨hkeep.1.trans hold.1, hkeep.2⟩
  · intro hs i hi
    rw [hadv] at hs hi ⊢
    exact synced_step hq h.holds k hs hi
  · intro v hv
    rw [hadv] at hv
    rcases hv.of_apply htouch.proper with hv | ⟨hmem, rfl⟩
    · rcases h.origin v hv with ho | ho | ⟨hp, i, rfl, hd, hc⟩
      · exact Or.inl ho
      · exact Or.inr (Or.inl ho)
      · have hkeep := htouch.keeps (i := i) hc (by simp [hp])
        have hne : r.stage ≠ .rename := by
          intro hs
          rw [hs] at hp
          cases hp
        rw [hadv]
        exact Or.inr (Or.inr ⟨(published_resume hne _).trans hp, i, rfl, hkeep.1.trans hd, hkeep.2⟩)
    · exact origin_new hq h k hmem

theorem kept_call {c : Call} (ks : List Choice) {t : Volume OsStr} (ht : Unshared c t .create) :
    Kept c t (diskCall c ks t) := by
  refine run_invariant (Kept c t) kept_step _ ks ?_
  have hall : ∀ l v, (Disk.ofVolume t).Possible l v → v = t.entry l := by
    rintro l v (hv | ⟨o, ho, -⟩)
    · exact hv
    · cases ho
  refine ⟨ht, holds_start c t, fun l hl v hv => (hall l v hv).trans hl, fun _ _ => ⟨rfl, rfl⟩,
    fun hs => ?_, fun v hv => Or.inl (hall _ v hv)⟩
  have hstart := holding_start c
  rw [show start c = .rename from hs] at hstart
  cases hstart

theorem Kept.dir {c : Call} {t : Volume OsStr} {r : Run (Disk OsStr)} (h : Kept c t r)
    {u : Image OsStr} (hu : Recovers r.world u) {l : Loc OsStr} (hl : t.entry l = some .dir) :
    u.entry l = some .dir :=
  h.dirs l hl _ (hu.possible l)

theorem Kept.lookup_old {c : Call} {t : Volume OsStr} {r : Run (Disk OsStr)} (h : Kept c t r)
    (hr : t.Rooted) {u : Image OsStr} (hu : Recovers r.world u)
    (he : u.entry c.target = t.entry c.target) : u.lookup c.target = t.lookup c.target := by
  cases hv : t.entry c.target with
  | none => rw [Image.lookup_none (Image.content_none (he.trans hv)),
      Image.lookup_none (Image.content_none hv)]
  | some n =>
    cases n with
    | dir => rw [Image.lookup_none (Image.content_dir (he.trans hv)),
        Image.lookup_none (Image.content_dir hv)]
    | file i =>
      have ha := hr.above (l := c.target) (by simp [hv])
      obtain ⟨hd, hc⟩ := h.old i hv
      rw [Image.lookup_file (he.trans hv) fun m hm => h.dir hu (ha m hm), Image.lookup_file hv ha,
        hu.data hc, hd]

theorem Kept.lookup {c : Call} {t : Volume OsStr} {r : Run (Disk OsStr)} (h : Kept c t r)
    (hr : t.Rooted) {u : Image OsStr} (hu : Recovers r.world u) :
    u.lookup c.target = t.lookup c.target ∨ u.lookup c.target = some c.data := by
  rcases h.origin _ (hu.possible c.target) with ho | ⟨hd, hn⟩ | ⟨-, i, hv, hdata, hc⟩
  · exact Or.inl (h.lookup_old hr hu ho)
  · left
    rw [Image.lookup_none (Image.content_dir hd), Image.lookup_none (Image.content_none hn)]
  · by_cases ha : ∀ m ∈ c.target.tails.tail, u.entry m = some .dir
    · right
      rw [Image.lookup_file hv ha, hu.data hc, hdata]
    · left
      have hn : t.entry c.target = none := by
        by_contra hne
        exact ha fun m hm => h.dir hu (hr.above hne m hm)
      rw [Image.lookup_none (Image.content_none hn), Image.lookup, if_neg ha]

/-- Wherever a call is when the power fails, and however it ended before, its target is
found with its old content (or absent as before) or with the complete data, and its path
leads there again if it did before. -/
theorem power_loss_atomic (c : Call) (t : Volume OsStr) (hu : Unshared c t .create) (hr : t.Rooted)
    (ks : List Choice) (u : Image OsStr) (hrec : Recovers (diskCall c ks t).world u) :
    (u.lookup c.target = t.lookup c.target ∨ u.lookup c.target = some c.data) ∧
      (u.read c.cwd c.path = u.lookup c.target ∨
        u.read c.cwd c.path = none ∧ t.read c.cwd c.path = none) := by
  have h := kept_call ks hu
  refine ⟨h.lookup hr hrec, ?_⟩
  by_cases hu' : u.Reaches c.cwd c.path
  · exact Or.inl (Image.read_eq hu')
  · refine Or.inr ⟨Image.read_none hu', Image.read_none fun ht => hu' ?_⟩
    exact ht.mono fun l hl => h.dir hrec hl

/-- The manifest, its rename done but its directory not synced yet. -/
theorem power_loss_atomic_unsynced :
    let u := (diskCall manifest (List.replicate 7 (.go 5)) Volume.empty).world.stable
    (u.lookup manifest.target = Volume.empty.lookup manifest.target ∨
        u.lookup manifest.target = some [1, 2, 3]) ∧
      (u.read [] manifest.path = u.lookup manifest.target ∨
        u.read [] manifest.path = none ∧ Volume.empty.read [] manifest.path = none) :=
  power_loss_atomic manifest Volume.empty (unshared_of_linkless Volume.linkless_empty .create)
    Volume.rooted_empty _ _
    (recovers_stable _)

end Nyx.Atomic
