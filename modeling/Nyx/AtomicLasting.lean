import Nyx.AtomicDurable

/-! When a `write_atomic` call that reports success is sure to be found after a power loss.
The directory of the target is synced at the end, if it can be opened; the directories
made on the way to it are not. -/
namespace Nyx.Atomic
open FileTree Interaction Text Durability
open CreateDirAll (IoError)

/-- The environment failed neither the opening nor the syncing of a directory. -/
def steady (log : List (Request OsStr × Choice × Reply OsStr)) : Bool :=
  log.all fun e => match e with
    | (.openFile _, .fail _, _) | (.fsync (.dir _), .fail _, _) => false
    | _ => true

/-- Every directory the path goes through is there or lies in the target's own directory. -/
def Anchored (c : Call) (t : Volume OsStr) : Prop :=
  ∀ up, up <:+ c.path.comps.tail →
    t.entry (Path.locate (c.path.start c.cwd) up) = some .dir ∨
      (Path.locate (c.path.start c.cwd) up).tail = c.dir.loc c.cwd

theorem steady_cons (r : Request OsStr) (k : Choice) (a : Reply OsStr)
    (log : List (Request OsStr × Choice × Reply OsStr)) :
    steady ((r, k, a) :: log) = (steady [(r, k, a)] && steady log) := by
  simp [steady]

theorem issue_unpublished {c : Call} {s : Stage} {q : Request OsStr} (hq : issue c s = some q)
    (hs : s.published = false) : (∀ p, q ≠ .openFile p) ∧ ∀ l, q ≠ .fsync (.dir l) := by
  cases s with
  | mkdirs m =>
    cases m with
    | mkdir d below again => obtain rfl := Option.some.inj hq; simp
    | isDir d below again e => obtain rfl := Option.some.inj hq; simp
    | done x => cases hq
  | create | write | flush | sync | rename => obtain rfl := Option.some.inj hq; simp
  | openDir | syncDir => cases hs
  | done x => cases hq

theorem steady_single {q : Request OsStr} (ho : ∀ p, q ≠ .openFile p)
    (hd : ∀ l, q ≠ .fsync (.dir l)) (k : Choice) (a : Reply OsStr) : steady [(q, k, a)] = true := by
  cases q with
  | openFile p => exact absurd rfl (ho p)
  | fsync h =>
    cases h with
    | file i => rfl
    | dir l => exact absurd rfl (hd l)
  | mkdir | isDir | create | write | flush | rename => rfl

theorem entry_safe {d : Disk OsStr} {δ : Change OsStr} (h : ∀ m, δ ≠ .syncDir m) :
    (d.apply δ).stable.entry = d.stable.entry := by
  cases δ with
  | syncDir m => exact absurd rfl (h m)
  | none | mkdir | create | write | rename | syncFile => rfl

/-- Where the path reaches its target, the parent directory can be opened, unless its name
is empty. -/
theorem outcome_openDir {c : Call} {t : Volume OsStr} (h : t.Reaches c.cwd c.path)
    (hne : c.dir.isEmpty = false) (n : ℕ) :
    t.outcome c.cwd (.go n) (.openFile c.dir) =
      (.opened (.dir (c.dir.loc c.cwd)), .none) := by
  have hd := Call.dir_comps h.2.1
  have hloc : t.entry (c.dir.loc c.cwd) = some .dir := by
    rw [hd]
    exact h.walk (List.suffix_refl _)
  have henter : t.enter c.cwd c.dir = none := by
    rw [Image.enter, hne, if_neg (by simp), Image.walk_eq_none, hd]
    intro up hup
    exact h.walk (hup.trans (List.tail_suffix _))
  simp [Volume.outcome, Volume.plan, henter, hloc]

theorem outcome_openDir_empty {c : Call} {t : Volume OsStr} (he : c.dir.isEmpty = true) (n : ℕ) :
    t.outcome c.cwd (.go n) (.openFile c.dir) = (.err .notFound, .none) := by
  simp [Volume.outcome, Volume.plan, Image.enter, he]

/-- What is known of the disk at each stage: until the directory is synced no entry is safe
that was not so before, and then only those of that directory are. -/
def Fate (c : Call) (t : Volume OsStr) (d : Disk OsStr) (calm : Bool) : Stage → Prop
  | .syncDir h => h = .dir (c.dir.loc c.cwd) ∧ c.dir.isEmpty = false ∧ calm = true ∧
      d.stable.entry = t.entry
  | .done (.ok _) =>
    if calm = true ∧ c.dir.isEmpty = false then
      (∀ o ∈ d.pending, o.dir ≠ c.dir.loc c.cwd) ∧
        ∀ l, l.tail ≠ c.dir.loc c.cwd → d.stable.entry l = t.entry l
    else d.stable.entry = t.entry
  | _ => calm = true ∧ d.stable.entry = t.entry

structure Landed (c : Call) (d : Disk OsStr) : Prop where
  reached : d.live.Reaches c.cwd c.path
  file : ∃ i, d.live.entry c.target = some (.file i) ∧ d.live.data i = c.data ∧ d.dirty i = false

theorem landed_step {c : Call} {t : Volume OsStr} {r : Run (Disk OsStr)} {q : Request OsStr}
    (hq : issue c r.stage = some q) (h : Kept c t r) (k : Choice)
    (hl : r.stage.published = true → Landed c r.world)
    (hp : (resume c r.stage (r.world.live.outcome c.cwd k q).1).published = true) :
    Landed c (r.world.apply (r.world.live.outcome c.cwd k q).2) := by
  have htouch := issue_touch hq h.holds (h.unshared.at _) k
  by_cases hs : r.stage.published = true
  · obtain ⟨hr, i, he, hd, hc⟩ := hl hs
    have hkeep := htouch.keeps (i := i) hc (by simp [hs])
    have hlive : (r.world.apply (r.world.live.outcome c.cwd k q).2).live = r.world.live :=
      Volume.apply_quiet r.world.live (htouch.quiet_of_published hs)
    refine ⟨?_, i, ?_, hkeep.1.trans hd, hkeep.2⟩
    · rwa [hlive]
    · rwa [hlive]
  · have hren : r.stage = .rename := by
      by_contra hne
      rw [published_resume hne] at hp
      exact hs hp
    have hh := h.holds
    rw [hren] at hh hq hp
    obtain rfl : .rename c.tmpPath c.path = q := Option.some.inj hq
    rcases outcome_rename_held hh k with ⟨e, he⟩ | ⟨he, henter, htr, -⟩
    · rw [he] at hp
      cases hp
    · rw [he] at htouch ⊢
      obtain ⟨i, hsc, hd⟩ := hh
      have hname : c.path.fileName.isSome := by
        obtain ⟨n, hn⟩ := Option.isSome_iff_exists.mp hsc.named
        simp [Call.fileName_path hn]
      have hlive : r.world.live.Reaches c.cwd c.path := ⟨henter, hname, htr⟩
      refine ⟨hlive.mono fun l => htouch.dir, i, ?_, hd, ?_⟩
      · exact (Volume.entry_rename (Call.tmp_ne_target hsc.named)).trans hsc.entry
      · exact Disk.dirty_apply (h.synced hren i hsc.entry) (by simp)

theorem fate_early {c : Call} {t : Volume OsStr} {d : Disk OsStr} {calm : Bool} {s : Stage}
    (hs : s.published = false ∨ s = .openDir) :
    Fate c t d calm s ↔ calm = true ∧ d.stable.entry = t.entry := by
  rcases hs with hs | rfl
  · cases s with
    | mkdirs | create | write | flush | sync | rename => rfl
    | openDir | syncDir => cases hs
    | done x =>
      cases x with
      | ok u => cases hs
      | error e => rfl
  · rfl

theorem resume_early {c : Call} {d : Disk OsStr} {s : Stage} {q : Request OsStr}
    (hq : issue c s = some q) (hh : Holds c d.live s) (hs : s.published = false) (k : Choice) :
    (resume c s (d.live.outcome c.cwd k q).1).published = false ∨
      resume c s (d.live.outcome c.cwd k q).1 = .openDir := by
  by_cases hren : s = .rename
  · subst hren
    obtain rfl : .rename c.tmpPath c.path = q := Option.some.inj hq
    rcases outcome_rename_held hh k with ⟨e, he⟩ | ⟨he, -⟩
    · rw [he]
      exact Or.inl rfl
    · rw [he]
      exact Or.inr rfl
  · exact Or.inl ((published_resume hren _).trans hs)

theorem fate_unpublished {c : Call} {t : Volume OsStr} {d : Disk OsStr} {s : Stage}
    {q : Request OsStr} {log : List (Request OsStr × Choice × Reply OsStr)}
    (hq : issue c s = some q) (hh : Holds c d.live s) (hs : s.published = false) (k : Choice)
    (hf : Fate c t d (steady log) s) :
    Fate c t (d.apply (d.live.outcome c.cwd k q).2)
      (steady ((q, k, (d.live.outcome c.cwd k q).1) :: log))
      (resume c s (d.live.outcome c.cwd k q).1) := by
  obtain ⟨hcalm, hentry⟩ := (fate_early (Or.inl hs)).mp hf
  obtain ⟨ho, hd⟩ := issue_unpublished hq hs
  have hsync : ∀ m, (d.live.outcome c.cwd k q).2 ≠ .syncDir m := fun m hm =>
    hd m (d.live.outcome_syncDir c.cwd k hm)
  rw [fate_early (resume_early hq hh hs k), steady_cons, steady_single ho hd, hcalm,
    entry_safe hsync]
  exact ⟨rfl, hentry⟩

theorem fate_openDir {c : Call} {t : Volume OsStr} {d : Disk OsStr}
    {log : List (Request OsStr × Choice × Reply OsStr)} (hl : Landed c d) (k : Choice)
    (hf : Fate c t d (steady log) .openDir) :
    Fate c t (d.apply (d.live.outcome c.cwd k (.openFile c.dir)).2)
      (steady ((.openFile c.dir, k, (d.live.outcome c.cwd k (.openFile c.dir)).1) :: log))
      (resume c .openDir (d.live.outcome c.cwd k (.openFile c.dir)).1) := by
  obtain ⟨hcalm, hentry⟩ := hf
  rw [steady_cons, hcalm, Bool.and_true]
  cases k with
  | fail e => exact hentry
  | go n =>
    cases he : c.dir.isEmpty with
    | true =>
      rw [outcome_openDir_empty he]
      exact (if_neg (by simp [he])).mpr hentry
    | false =>
      rw [outcome_openDir hl.reached he]
      exact ⟨rfl, he, rfl, hentry⟩

theorem fate_syncDir {c : Call} {t : Volume OsStr} {d : Disk OsStr}
    {log : List (Request OsStr × Choice × Reply OsStr)} {hd : Handle OsStr} (k : Choice)
    (hf : Fate c t d (steady log) (.syncDir hd)) :
    Fate c t (d.apply (d.live.outcome c.cwd k (.fsync hd)).2)
      (steady ((.fsync hd, k, (d.live.outcome c.cwd k (.fsync hd)).1) :: log))
      (resume c (.syncDir hd) (d.live.outcome c.cwd k (.fsync hd)).1) := by
  obtain ⟨rfl, hne, hcalm, hentry⟩ := hf
  rw [steady_cons, hcalm, Bool.and_true]
  cases k with
  | fail e => exact hentry
  | go n =>
    refine (if_pos ⟨rfl, hne⟩).mpr ⟨fun o ho => ?_, fun l hlt => ?_⟩
    · exact of_decide_eq_true (List.mem_filter.mp ho).2
    · have hset : ∀ o ∈ d.pending.filter (·.dir = c.dir.loc c.cwd), ∀ v, (l, v) ∉ o.sets := by
        intro o ho v hv
        have hod := of_decide_eq_true (List.mem_filter.mp ho).2
        exact hlt ((o.inside l v hv).trans hod)
      exact (settle_of_not_mem hset).trans (congrFun hentry l)

theorem fate_step {c : Call} {t : Volume OsStr} {r : Run (Disk OsStr)} {q : Request OsStr}
    (hq : issue c r.stage = some q) (h : Kept c t r) (k : Choice)
    (hl : r.stage.published = true → Landed c r.world)
    (hf : Fate c t r.world (steady r.log) r.stage) :
    Fate c t (r.world.apply (r.world.live.outcome c.cwd k q).2)
      (steady ((q, k, (r.world.live.outcome c.cwd k q).1) :: r.log))
      (resume c r.stage (r.world.live.outcome c.cwd k q).1) := by
  cases hs : r.stage.published with
  | false => exact fate_unpublished hq h.holds hs k hf
  | true =>
    have hland := hl hs
    cases hstage : r.stage with
    | mkdirs | create | write | flush | sync | rename => rw [hstage] at hs; cases hs
    | done x => rw [hstage] at hq; cases hq
    | openDir =>
      rw [hstage] at hq hf
      obtain rfl : .openFile c.dir = q := Option.some.inj hq
      exact fate_openDir hland k hf
    | syncDir hd =>
      rw [hstage] at hq hf
      obtain rfl : .fsync hd = q := Option.some.inj hq
      exact fate_syncDir k hf

structure Lasting (c : Call) (t : Volume OsStr) (r : Run (Disk OsStr)) : Prop where
  kept : Kept c t r
  landed : r.stage.published = true → Landed c r.world
  fate : Fate c t r.world (steady r.log) r.stage

theorem lasting_call {c : Call} (ks : List Choice) {t : Volume OsStr} (ht : Unshared c t .create) :
    Lasting c t (diskCall c ks t) := by
  refine run_invariant (Lasting c t) ?_ _ ks ?_
  · intro r k q hq h
    refine ⟨kept_step r k q hq h.kept, ?_, ?_⟩
    · rw [advance_issued hq]
      exact landed_step hq h.kept k h.landed
    · rw [advance_issued hq]
      exact fate_step hq h.kept k h.landed h.fate
  · have hstart := published_start c
    refine ⟨kept_call [] ht, fun hp => ?_, (fate_early (Or.inl hstart)).mpr ⟨rfl, rfl⟩⟩
    rw [hstart] at hp
    cases hp

theorem Anchored.parent {c : Call} {t : Volume OsStr} (h : Anchored c t) (hr : t.Rooted)
    (hn : c.path.fileName.isSome) : t.entry (c.dir.loc c.cwd) = some .dir := by
  have hloc : c.dir.loc c.cwd = Path.locate (c.path.start c.cwd) c.path.comps.tail := by
    rw [Call.dir_comps hn]
    rfl
  rw [hloc]
  rcases h _ (List.suffix_refl _) with ht | ht
  · exact ht
  · -- only the root lies in itself
    rw [hloc] at ht
    have hlen := congrArg List.length ht
    rw [List.length_tail] at hlen
    have hnil := List.eq_nil_of_length_eq_zero
      (show (Path.locate (c.path.start c.cwd) c.path.comps.tail).length = 0 by omega)
    rw [hnil]
    exact hr.root

theorem Lasting.found {c : Call} {t : Volume OsStr} {r : Run (Disk OsStr)} (h : Lasting c t r)
    (hr : t.Rooted) (hok : r.stage = .done (.ok ())) (hs : steady r.log = true)
    (hne : c.dir.isEmpty = false) (ha : Anchored c t) {u : Image OsStr}
    (hu : Recovers r.world u) : u.read c.cwd c.path = some c.data := by
  obtain ⟨hreach, i, he, hd, hc⟩ := h.landed (by rw [hok]; rfl)
  have hfate := h.fate
  rw [hok, Fate, if_pos ⟨hs, hne⟩] at hfate
  obtain ⟨x, hname⟩ := Option.isSome_iff_exists.mp hreach.2.1
  have hx := Call.target_eq_of_path hname
  have hsynced : ∀ l, l.tail = c.dir.loc c.cwd → u.entry l = r.world.live.entry l := by
    intro l hl
    exact hu.entry_of_synced fun o ho => hl ▸ hfate.1 o ho
  have hreach' : u.Reaches c.cwd c.path := by
    refine hreach.of_walk fun up hup => ?_
    rcases ha up hup with ht | ht
    · exact h.kept.dir hu ht
    · rw [hsynced _ ht]
      exact hreach.walk hup
  have hdirs : ∀ m ∈ c.target.tails.tail, u.entry m = some .dir := by
    rw [hx, List.tails_cons, List.tail_cons]
    exact fun m hm => h.kept.dir hu (hr.dirs (ha.parent hr hreach.2.1) m hm)
  have hentry : u.entry c.target = some (.file i) := by
    rw [hsynced c.target (by rw [hx, List.tail_cons]), he]
  rw [Image.read_eq hreach', ← Call.target, Image.lookup_file hentry hdirs, hu.data hc, hd]

/-- What is safe with the directory synced says where the path's directories come from. -/
theorem Lasting.anchored {c : Call} {t : Volume OsStr} {r : Run (Disk OsStr)} (h : Lasting c t r)
    (hok : r.stage = .done (.ok ())) (hs : steady r.log = true) (hne : c.dir.isEmpty = false)
    (hreach : r.world.stable.Reaches c.cwd c.path) : Anchored c t := by
  have hfate := h.fate
  rw [hok, Fate, if_pos ⟨hs, hne⟩] at hfate
  intro up hup
  have hdir := hreach.walk hup
  by_cases hin : (Path.locate (c.path.start c.cwd) up).tail = c.dir.loc c.cwd
  · exact Or.inr hin
  · rw [hfate.2 _ hin] at hdir
    exact Or.inl hdir

/-- With the directory not synced only what was there is safe. -/
theorem Lasting.read_before {c : Call} {t : Volume OsStr} {r : Run (Disk OsStr)}
    (h : Lasting c t r) (hr : t.Rooted) (hok : r.stage = .done (.ok ()))
    (hs : steady r.log ≠ true) (hread : r.world.stable.read c.cwd c.path = some c.data) :
    t.read c.cwd c.path = some c.data := by
  have hfate := h.fate
  rw [hok, Fate, if_neg (by simp [hs])] at hfate
  have hreach := Image.read_some hread
  have ht : t.Reaches c.cwd c.path := hreach.mono fun l hd => by rwa [hfate] at hd
  have hlook := h.kept.lookup_old hr (recovers_stable _) (congrFun hfate _)
  rw [Image.read_eq hreach, ← Call.target] at hread
  rw [Image.read_eq ht, ← Call.target, ← hlook, hread]

theorem Kept.read_again {c : Call} {t : Volume OsStr} {r : Run (Disk OsStr)} (h : Kept c t r)
    (hr : t.Rooted) {u : Image OsStr} (hu : Recovers r.world u)
    (ht : t.read c.cwd c.path = some c.data) : u.read c.cwd c.path = some c.data := by
  have hreach := Image.read_some ht
  have hreach' := hreach.mono fun l hd => h.dir hu hd
  rw [Image.read_eq hreach] at ht
  rw [Image.read_eq hreach']
  rcases h.lookup hr hu with hlook | hlook
  · exact hlook.trans ht
  · exact hlook

/-- A call that returned success under a named parent directory is sure to be found after
a power loss exactly if the path read the same before the call, or the directory could be
opened and synced and no directory the path goes through was made but in it. -/
theorem success_lasts_iff (c : Call) (t : Volume OsStr) (hu : Unshared c t .create) (hr : t.Rooted)
    (hne : c.dir.isEmpty = false) (ks : List Choice)
    (hok : (diskCall c ks t).stage = .done (.ok ())) :
    (∀ u, Recovers (diskCall c ks t).world u → u.read c.cwd c.path = some c.data) ↔
      t.read c.cwd c.path = some c.data ∨
        steady (diskCall c ks t).log = true ∧ Anchored c t := by
  have h := lasting_call ks hu
  constructor
  · intro hall
    have hread := hall _ (recovers_stable _)
    by_cases hs : steady (diskCall c ks t).log = true
    · exact Or.inr ⟨hs, h.anchored hok hs hne (Image.read_some hread)⟩
    · exact Or.inl (h.read_before hr hok hs hread)
  · intro hwhen u hrec
    rcases hwhen with ht | ⟨hs, ha⟩
    · exact h.kept.read_again hr hrec ht
    · exact h.found hr hok hs hne ha hrec

/-- A manifest written below a directory that is not there yet. -/
def nested : Call :=
  ⟨⟨true, [.normal (bytes "manifest.nyx"), .normal (bytes "state")], false⟩, [1, 2, 3], 7, some 12, []⟩

theorem success_lasts_iff_manifest :
    (∀ u, Recovers (diskCall manifest (List.replicate 9 (.go 5)) Volume.empty).world u →
        u.read [] manifest.path = some [1, 2, 3]) ↔
      Volume.empty.read [] manifest.path = some [1, 2, 3] ∨
        steady (diskCall manifest (List.replicate 9 (.go 5)) Volume.empty).log = true ∧
          Anchored manifest Volume.empty :=
  success_lasts_iff manifest Volume.empty (unshared_of_linkless Volume.linkless_empty .create)
    Volume.rooted_empty (by decide) _ (by decide +kernel)

/-- Success is reported, and the file may be lost, when the directory cannot be synced and
when the directory itself was just made. -/
theorem success_may_be_lost :
    let r := diskCall manifest (List.replicate 8 (.go 5) ++ [.fail .other]) Volume.empty
    let s := diskCall nested (List.replicate 8 (.go 5)) Volume.empty
    (r.stage = .done (.ok ()) ∧ Recovers r.world r.world.stable ∧
        r.world.stable.read [] manifest.path = none) ∧
      s.stage = .done (.ok ()) ∧ Recovers s.world s.world.stable ∧
        s.world.stable.read [] nested.path = none := by
  refine ⟨⟨?_, recovers_stable _, ?_⟩, ?_, recovers_stable _, ?_⟩
  all_goals decide +kernel

end Nyx.Atomic
