import Nyx.AtomicDurable
import Nyx.AtomicPool
import Nyx.SystemOrder

/-! Nyx processes at work together on a disk that may lose power: what is found again at a place
is what some of the calls that took effect left there, counted from the first one on, and the sync
of a directory by any process makes the effects so far sure for every place in it. -/
namespace Nyx.System
open FileTree Interaction Text Durability
open Hash (Blake3)

section Machine
variable {H ι : Type} [DecidableEq ι] (B : Blake3 H) (tasks : ι → Task)

def diskRespond (cwd : Loc OsStr) (ch : Choice) (r : Request) (d : Disk OsStr) :
    Reply × Disk OsStr :=
  (reply d.live cwd ch r, d.apply (change d.live cwd ch r))

abbrev Machine (ι H : Type) := Pool ι (Disk OsStr) (Stage H)

def machine (t : Volume OsStr) : Machine ι H := ⟨Disk.ofVolume t, fun i => some (tasks i).start⟩

def diskStep : Machine ι H → Move ι Choice → Machine ι H :=
  move (fun i => program B (tasks i)) (fun i => diskRespond (tasks i).cwd)

def diskRun (t : Volume OsStr) (ms : List (Move ι Choice)) : Machine ι H :=
  interleave (fun i => program B (tasks i)) (fun i => diskRespond (tasks i).cwd)
    (machine tasks t) ms

theorem diskStep_live (s : Machine ι H) (m : Move ι Choice) :
    step B tasks (s.map Disk.live) m = (diskStep B tasks s m).map Disk.live :=
  move_map (K := fun i => diskRespond (tasks i).cwd) (f := Disk.live) (fun _ _ _ _ => rfl) s m

/-- The processes see nothing of the disk but its live tree. -/
theorem diskRun_live (t : Volume OsStr) (ms : List (Move ι Choice)) :
    runAll B tasks t ms = (diskRun B tasks t ms).map Disk.live :=
  interleave_map (K := fun i => diskRespond (tasks i).cwd) (f := Disk.live) (fun _ _ _ _ => rfl)
    (machine tasks t) ms

theorem diskRun_snoc (t : Volume OsStr) (ms : List (Move ι Choice)) (m : Move ι Choice) :
    diskRun B tasks t (ms ++ [m]) = diskStep B tasks (diskRun B tasks t ms) m :=
  interleave_append _ _ _

end Machine

/-- What an entry of a tree shows of its contents. -/
def shown (t : Image OsStr) : Option Node → Option Bytes
  | some (.file i) => some (t.data i)
  | some .dir | none => none

theorem shown_entry (t : Image OsStr) (l : Loc OsStr) : shown t (t.entry l) = t.content l := by
  cases he : t.entry l with
  | none => rw [Image.content_none he, shown]
  | some n =>
    cases n with
    | dir => rw [Image.content_dir he, shown]
    | file i => rw [Image.content_file he, shown]

section Durable
variable {H ι : Type} [DecidableEq ι] (B : Blake3 H) (tasks : ι → Task) (t : Volume OsStr)

/-- The first m effects include all that had been made when a process last synced the directory
of a place. -/
def Barrier (ms : List (Move ι Choice)) (l : Loc OsStr) (m : ℕ) : Prop :=
  ∀ ls i n ns, ms = ls ++ .act i (.go n) :: ns →
    (runAll B tasks t ls).stage i = some (.write (.syncDir (.dir l.tail))) →
    (order B tasks t ls).length ≤ m

/-- What the first m effects leave at a place. -/
def reached (ms : List (Move ι Choice)) (m : ℕ) (l : Loc OsStr) : Option Bytes :=
  ((order B tasks t ms).take m).foldl (publish tasks) t.content l

theorem order_snoc_length (ms : List (Move ι Choice)) (m : Move ι Choice) :
    (order B tasks t ms).length ≤ (order B tasks t (ms ++ [m])).length := by
  rw [order_snoc, List.length_append]
  exact Nat.le_add_right _ _

theorem reached_snoc {ms : List (Move ι Choice)} (m : Move ι Choice) {n : ℕ}
    (hn : n ≤ (order B tasks t ms).length) (l : Loc OsStr) :
    reached B tasks t (ms ++ [m]) n l = reached B tasks t ms n l := by
  rw [reached, reached, order_snoc, List.take_append_of_le_length hn]

theorem barrier_all (ms : List (Move ι Choice)) (l : Loc OsStr) :
    Barrier B tasks t ms l (order B tasks t ms).length := by
  rintro ls i n ns rfl -
  rw [order, order, events_append, List.length_append]
  exact Nat.le_add_right _ _

theorem barrier_snoc {ms : List (Move ι Choice)} {m : Move ι Choice} {l : Loc OsStr} {n : ℕ}
    (h : Barrier B tasks t ms l n)
    (hm : ∀ i k, m = .act i (.go k) →
      (runAll B tasks t ms).stage i ≠ some (.write (.syncDir (.dir l.tail)))) :
    Barrier B tasks t (ms ++ [m]) l n := by
  intro ls i k ns he hs
  rcases List.eq_nil_or_concat ns with rfl | ⟨ns, m', rfl⟩
  · obtain ⟨rfl, hmk⟩ := List.append_inj' he rfl
    exact absurd hs (hm i k (List.cons.inj hmk).1)
  · rw [List.concat_eq_append, ← List.cons_append, ← List.append_assoc] at he
    exact h ls i k ns (List.append_inj' he rfl).1 hs

/-- What is known of the disk under a schedule: every entry that may be found at a place shows
what some of the effects left there, counted from the first one on, in a file that is synced, and
a temporary file is found nowhere else. -/
structure Durable (ms : List (Move ι Choice)) (s : Machine ι H) : Prop where
  fresh : ∀ l i, s.world.Possible l (some (.file i)) → i < s.world.live.next
  dirs : ∀ l, t.entry l = some .dir → ∀ v, s.world.Possible l v → v = some .dir
  synced : ∀ i c, tasks i = .write c → s.stage i = some (.write .rename) →
    ∀ j, s.world.live.entry c.tmp = some (.file j) → s.world.dirty j = false
  clean : ∀ l i, Lasting tasks l → s.world.Possible l (some (.file i)) → s.world.dirty i = false
  own : ∀ j c, tasks j = .write c → c.fileName.isSome → ∀ i,
    s.world.live.entry c.tmp = some (.file i) → ∀ l, s.world.Possible l (some (.file i)) → l = c.tmp
  linkless : ∀ e, s.world.Found e → (⟨e, s.world.live.data⟩ : Image OsStr).Linkless
  origin : ∀ l, Lasting tasks l → ∀ v, s.world.Possible l v →
    ∃ m ≤ (order B tasks t ms).length,
      shown s.world.live.toImage v = reached B tasks t ms m l ∧ Barrier B tasks t ms l m

end Durable

section Step
variable {H ι : Type} [DecidableEq ι] {B : Blake3 H} {tasks : ι → Task} {t : Volume OsStr}
  {ms : List (Move ι Choice)} {s : Machine ι H} {published : List ι} {i : ι} {k : Choice}
  {p : Stage H} {r : Request} {c : Atomic.Call} {u : Atomic.Stage}

theorem Durable.still (h : Durable B tasks t ms s) {m : Move ι Choice} {s' : Machine ι H}
    (hw : s'.world = s.world) (hst : ∀ j p, s'.stage j = some p → s.stage j = some p)
    (hm : ∀ i k, m = .act i (.go k) → ∀ l,
      (runAll B tasks t ms).stage i ≠ some (.write (.syncDir (.dir l)))) :
    Durable B tasks t (ms ++ [m]) s' := by
  refine ⟨?_, ?_, fun j c hj hs => ?_, ?_, ?_, ?_, fun l hl v hv => ?_⟩ <;> rw [hw] at *
  · exact h.fresh
  · exact h.dirs
  · exact h.synced j c hj (hst j _ hs)
  · exact h.clean
  · exact h.own
  · exact h.linkless
  · obtain ⟨n, hn, hshown, hbar⟩ := h.origin l hl v hv
    refine ⟨n, hn.trans (order_snoc_length B tasks t ms m), ?_,
      barrier_snoc B tasks t hbar fun i k hk => hm i k hk l.tail⟩
    rw [reached_snoc B tasks t m hn, hshown]

omit [DecidableEq ι] in
/-- A process writes to no file but its temporary one. -/
theorem Issues.written {w : Processes ι H} (h : Issues tasks w i k p r c u) {x : ℕ} {e : Bytes}
    (hx : change w.world (tasks i).cwd k r = .write x e) :
    (u = .create ∨ u.holding = true) ∧ Atomic.Scratch c w.world x := by
  have htouch := h.touch
  rw [hx] at htouch
  cases htouch with
  | quiet hq => cases hq
  | write e scratch stage =>
    refine ⟨stage.imp_right ?_, scratch⟩
    rintro ⟨off, rfl⟩
    rfl

omit [DecidableEq ι] in
/-- A process about to rename its temporary file keeps it while another one has its turn. -/
theorem Issues.spares {w : Processes ι H} (h : Issues tasks w i k p r c u)
    (hl : Linear tasks t published w) (hc : Clear tasks w (.act i k))
    (hn : ∀ i c, tasks i = .write c → Lasting tasks c.target) {j : ι} (hji : j ≠ i)
    {d : Atomic.Call} (hd : tasks j = .write d) (hj : w.stage j = some (.write .rename)) :
    ∃ x, w.world.entry d.tmp = some (.file x) ∧
      (w.world.apply (change w.world (tasks i).cwd k r)).entry d.tmp = some (.file x) ∧
      ∀ e, change w.world (tasks i).cwd k r ≠ .write x e := by
  have hs := hl.sound j _ hj
  rw [hd] at hs
  obtain ⟨x, hscratch, hdata⟩ := (hs : Atomic.Holds d w.world .rename)
  have hapart : u = .create ∨ u.holding = true → d.tmp ≠ c.tmp ∧ d.tmp ≠ c.target := fun hu =>
    ⟨h.apart hl hc hu hji hd ⟨.rename, hj, rfl⟩,
      (hn i c (h.named hu).1 j d hd hscratch.named).symm⟩
  have hflush : Atomic.Holds d w.world (.flush x) := ⟨hscratch, hdata⟩
  have hkeep := h.touch.holds hflush fun _ => hapart
  refine ⟨x, hscratch.entry, hkeep.1.entry, fun e he => ?_⟩
  obtain ⟨hu, hown⟩ := h.written he
  exact (hapart hu).1 (hown.sole _ hscratch.entry)

omit [DecidableEq ι] in
/-- No file comes by the name of a temporary one but a new one. -/
theorem Issues.tmp_before {w : Processes ι H} (h : Issues tasks w i k p r c u)
    (hn : ∀ i c, tasks i = .write c → Lasting tasks c.target) {j : ι} {d : Atomic.Call}
    (hd : tasks j = .write d) (hnamed : d.fileName.isSome) {x : ℕ} (hx : x < w.world.next)
    (he : (w.world.apply (change w.world (tasks i).cwd k r)).entry d.tmp = some (.file x)) :
    w.world.entry d.tmp = some (.file x) := by
  by_cases hmem : d.tmp ∈ (change w.world (tasks i).cwd k r).touches
  · exfalso
    have htouch := h.touch
    have howner := h.named
    generalize change w.world (tasks i).cwd k r = δ at *
    cases htouch with
    | quiet hq =>
      rw [Change.touches_quiet hq] at hmem
      exact absurd hmem List.not_mem_nil
    | write e scratch stage => exact absurd hmem List.not_mem_nil
    | mkdir absent =>
      obtain hl := List.mem_singleton.mp hmem
      rw [hl] at he
      simp [Volume.apply] at he
    | create named absent =>
      rw [List.mem_singleton.mp hmem] at he
      have hnext : w.world.next = x := by simpa [Volume.apply] using he
      omega
    | rename scratch full plain =>
      rcases List.mem_cons.mp hmem with hl | hl
      · rw [hl] at he
        simp [Volume.apply] at he
      · have htarget := List.mem_singleton.mp hl
        exact hn i c (howner (Or.inr rfl)).1 j d hd hnamed htarget.symm
  · rwa [Volume.entry_apply hmem] at he

omit [DecidableEq ι] in
/-- Only a rename brings a file to a lasting place. -/
theorem Issues.brought {w : Processes ι H} (h : Issues tasks w i k p r c u) {l : Loc OsStr}
    (hl : Lasting tasks l) (hmem : l ∈ (change w.world (tasks i).cwd k r).touches) {x : ℕ}
    (he : (w.world.apply (change w.world (tasks i).cwd k r)).entry l = some (.file x)) :
    tasks i = .write c ∧ p = .write .rename ∧ w.world.entry c.tmp = some (.file x) := by
  have htouch := h.touch
  have hnamed := h.named
  have howner := h.stands.owner
  generalize change w.world (tasks i).cwd k r = δ at *
  cases htouch with
  | quiet hq =>
    rw [Change.touches_quiet hq] at hmem
    exact absurd hmem List.not_mem_nil
  | write e scratch stage => exact absurd hmem List.not_mem_nil
  | mkdir absent =>
    rw [List.mem_singleton.mp hmem] at he
    simp [Volume.apply] at he
  | create named absent =>
    exact absurd (List.mem_singleton.mp hmem) (hl i c (hnamed (Or.inl rfl)).1 named)
  | rename scratch full plain =>
    obtain ⟨hk, hp⟩ := howner (Or.inr rfl)
    refine ⟨hk, hp, ?_⟩
    rcases List.mem_cons.mp hmem with hx | hx
    · exact absurd hx (hl i c hk scratch.named)
    · rw [List.mem_singleton.mp hx,
        Volume.entry_rename (Atomic.Call.tmp_ne_target scratch.named)] at he
      exact he

section Links
variable {f : Loc OsStr → Option Node} (hf : ∀ l x, f l = some (.file x) →
  ∀ m, f m = some (.file x) → m = l)
include hf

theorem linkless_dir (k : Loc OsStr) : ∀ l x, Function.update f k (some .dir) l = some (.file x) →
    ∀ m, Function.update f k (some .dir) m = some (.file x) → m = l := by
  have hback : ∀ l x, Function.update f k (some .dir) l = some (.file x) →
      f l = some (.file x) := by
    intro l x hl
    rw [Function.update_apply] at hl
    split_ifs at hl
    · cases hl
    · exact hl
  exact fun l x hl m hm => hf l x (hback l x hl) m (hback m x hm)

theorem linkless_create (k : Loc OsStr) {n : ℕ} (hn : ∀ l, f l ≠ some (.file n)) :
    ∀ l x, Function.update f k (some (.file n)) l = some (.file x) →
      ∀ m, Function.update f k (some (.file n)) m = some (.file x) → m = l := by
  intro l x hl m hm
  simp only [Function.update_apply] at hl hm
  split_ifs at hl hm with h1 h2
  · rw [h1, h2]
  · rw [← hl] at hm
    exact absurd hm (hn m)
  · rw [← hm] at hl
    exact absurd hl (hn l)
  · exact hf l x hl m hm

/-- A file found under no name but its old one is moved to its new one. -/
theorem linkless_move {a b : Loc OsStr} {n : ℕ}
    (hn : ∀ l, f l = some (.file n) → l = a) :
    ∀ l x, Function.update (Function.update f b (some (.file n))) a none l = some (.file x) →
      ∀ m, Function.update (Function.update f b (some (.file n))) a none m = some (.file x) →
        m = l := by
  intro l x hl m hm
  simp only [Function.update_apply] at hl hm
  split_ifs at hl hm with h1 h2 h3 h4
  · rw [h2, h4]
  · rw [← hl] at hm
    exact absurd (hn m hm) h3
  · rw [← hm] at hl
    exact absurd (hn l hl) h1
  · exact hf l x hl m hm

end Links

/-- A temporary file is made in the directory that its target is in. -/
theorem tmp_tail {c : Atomic.Call} (h : c.fileName.isSome) : c.tmp.tail = c.target.tail := by
  obtain ⟨n, hn⟩ := Option.isSome_iff_exists.mp h
  rw [c.tmp_eq, Atomic.Call.target_eq hn, List.tail_cons, List.tail_cons]

theorem next_le_apply (t : Volume OsStr) (δ : Change OsStr) : t.next ≤ (t.apply δ).next := by
  cases δ with
  | create l => exact Nat.le_succ _
  | none | mkdir | write | rename | syncFile | syncDir => exact Nat.le_refl _

omit [DecidableEq ι] in
/-- A process at the sync of a directory syncs it, unless that fails. -/
theorem Issues.syncs (h : Issues tasks (s.map Disk.live) i k p r c u) {n : ℕ} (hk : k = .go n)
    {l : Loc OsStr} (hp : s.stage i = some (.write (.syncDir (.dir l)))) :
    change s.world.live (tasks i).cwd k r = .syncDir l := by
  obtain rfl : p = .write (.syncDir (.dir l)) := Option.some.inj (h.stage.symm.trans hp)
  have hr := h.issued
  cases hi : tasks i with
  | layout | hash =>
    rw [hi] at hr
    cases hr
  | write d =>
    rw [hi] at hr
    obtain rfl : .tree (.fsync (.dir l)) = r := Option.some.inj hr
    rw [hk]
    rfl

section Act
variable (hi : Issues tasks (s.map Disk.live) i k p r c u)
include hi

theorem diskStep_act : diskStep B tasks s (.act i k) =
    ⟨s.world.apply (change s.world.live (tasks i).cwd k r), Function.update s.stage i
      (some (resume B (tasks i) p (reply s.world.live (tasks i).cwd k r)))⟩ :=
  move_act (s := s) (fun i => program B (tasks i)) (fun i => diskRespond (tasks i).cwd) hi.stage
    hi.issued k

theorem fresh_act (h : Durable B tasks t ms s) {l : Loc OsStr} {x : ℕ}
    (hx : (s.world.apply (change s.world.live (tasks i).cwd k r)).Possible l (some (.file x))) :
    x < (s.world.live.apply (change s.world.live (tasks i).cwd k r)).next := by
  rcases hx.shown_or_before hi.touch.proper with he | ⟨hx, -⟩
  · exact Volume.fresh _ he.symm
  · exact (h.fresh l x hx).trans_le (next_le_apply _ _)

theorem dirs_act (h : Durable B tasks t ms s) {l : Loc OsStr} (hl : t.entry l = some .dir)
    {v : Option Node}
    (hv : (s.world.apply (change s.world.live (tasks i).cwd k r)).Possible l v) :
    v = some .dir := by
  rcases hv.of_apply hi.touch.proper with hv | ⟨hmem, -⟩
  · exact h.dirs l hl v hv
  · have hdir := h.dirs l hl _ (s.world.possible_live l)
    exact absurd hmem (hi.touch.not_mem_of_dir hdir)

/-- A file that may be found at a lasting place is no file that a process writes to. -/
theorem Durable.not_written (h : Durable B tasks t ms s) {l : Loc OsStr} (hl : Lasting tasks l)
    {x : ℕ} (hx : s.world.Possible l (some (.file x))) (e : Bytes) :
    change s.world.live (tasks i).cwd k r ≠ .write x e := by
  intro he
  obtain ⟨hu, hscratch⟩ := hi.written he
  have htmp := h.own i c (hi.named hu).1 hscratch.named x hscratch.entry l hx
  exact hl i c (hi.named hu).1 hscratch.named htmp

theorem clean_act (h : Durable B tasks t ms s) {l : Loc OsStr} (hl : Lasting tasks l) {x : ℕ}
    (hx : (s.world.apply (change s.world.live (tasks i).cwd k r)).Possible l (some (.file x))) :
    (s.world.apply (change s.world.live (tasks i).cwd k r)).dirty x = false := by
  rcases hx.of_apply hi.touch.proper with hx | ⟨hmem, he⟩
  · exact Disk.dirty_apply (h.clean l x hl hx) (h.not_written hi hl hx)
  · obtain ⟨hk, rfl, htmp⟩ := hi.brought hl hmem he.symm
    have hclean := h.synced i c hk hi.stage x htmp
    refine Disk.dirty_apply hclean fun e hδ => ?_
    replace hmem : l ∈ (change s.world.live (tasks i).cwd k r).touches := hmem
    rw [hδ] at hmem
    exact absurd hmem List.not_mem_nil

theorem own_act (hlin : Linear tasks t published (s.map Disk.live))
    (hn : ∀ i c, tasks i = .write c → Lasting tasks c.target) (h : Durable B tasks t ms s)
    {j : ι} {d : Atomic.Call} (hd : tasks j = .write d) (hnamed : d.fileName.isSome) {x : ℕ}
    (hx : (s.world.live.apply (change s.world.live (tasks i).cwd k r)).entry d.tmp =
      some (.file x)) {l : Loc OsStr}
    (hl : (s.world.apply (change s.world.live (tasks i).cwd k r)).Possible l (some (.file x))) :
    l = d.tmp := by
  rcases hl.of_apply hi.touch.proper with hl | ⟨-, hshown⟩
  · have hbefore := hi.tmp_before hn hd hnamed (h.fresh l x hl) hx
    exact h.own j d hd hnamed x hbefore l hl
  · have hlinks := Volume.linkless_apply hlin.linkless (change s.world.live (tasks i).cwd k r)
    exact hlinks _ _ hx l hshown.symm

/-- Whatever is found of the operations, a file is found under one name. -/
theorem linkless_act (h : Durable B tasks t ms s) {e : Loc OsStr → Option Node}
    (he : (s.world.apply (change s.world.live (tasks i).cwd k r)).Found e) :
    ∀ l x, e l = some (.file x) → ∀ m, e m = some (.file x) → m = l := by
  obtain ⟨f, hf, os, hos, rfl⟩ := he.of_apply
  have hbefore : ∀ l x, f l = some (.file x) → ∀ m, f m = some (.file x) → m = l :=
    fun l x => h.linkless f hf l x
  have hfresh : ∀ l x, f l = some (.file x) → x < s.world.live.next :=
    fun l x hl => h.fresh l x (hl ▸ hf.possible l)
  have htouch := hi.touch
  have hnamed := hi.named
  replace htouch : Atomic.Touch c s.world.live u (change s.world.live (tasks i).cwd k r) := htouch
  generalize change s.world.live (tasks i).cwd k r = δ at *
  cases htouch with
  | quiet hq =>
    have hno : ops s.world.live δ = [] := by
      cases δ with
      | none | syncFile | syncDir => rfl
      | mkdir | create | write | rename => cases hq
    rw [hno] at hos
    obtain rfl := List.eq_nil_of_sublist_nil hos
    exact hbefore
  | write e scratch stage =>
    obtain rfl := List.eq_nil_of_sublist_nil hos
    exact hbefore
  | @mkdir _ l absent =>
    rcases List.sublist_singleton.mp hos with rfl | rfl
    · exact hbefore
    · exact linkless_dir hbefore l
  | create named absent =>
    rcases List.sublist_singleton.mp hos with rfl | rfl
    · exact hbefore
    · exact linkless_create hbefore c.tmp fun l hl => (hfresh l _ hl).false
  | @rename x scratch full plain =>
    rw [ops, scratch.entry, renameOps, dif_pos (tmp_tail scratch.named)] at hos
    rcases List.sublist_singleton.mp hos with rfl | rfl
    · exact hbefore
    · refine linkless_move hbefore fun l hl => ?_
      exact h.own i c (hnamed (Or.inr rfl)).1 scratch.named x scratch.entry l (hl ▸ hf.possible l)

theorem synced_act (hlin : Linear tasks t published (s.map Disk.live))
    (hn : ∀ i c, tasks i = .write c → Lasting tasks c.target)
    (hc : Clear tasks (s.map Disk.live) (.act i k)) (h : Durable B tasks t ms s) {j : ι}
    {d : Atomic.Call} (hd : tasks j = .write d)
    (hj : (diskStep B tasks s (.act i k)).stage j = some (.write .rename)) {x : ℕ}
    (hx : (s.world.live.apply (change s.world.live (tasks i).cwd k r)).entry d.tmp =
      some (.file x)) :
    (s.world.apply (change s.world.live (tasks i).cwd k r)).dirty x = false := by
  have hj' : (step B tasks (s.map Disk.live) (.act i k)).stage j = some (.write .rename) := by
    rw [diskStep_live]
    exact hj
  rcases hi.stage_write hj' with ⟨hst, hji⟩ | ⟨rfl, hk, rfl, q, rfl, hissue, hres⟩
  · obtain ⟨y, hentry, hentry', hno⟩ := hi.spares hlin hc hn hji hd hst
    obtain rfl := Node.file.inj (Option.some.inj (hentry'.symm.trans hx))
    exact Disk.dirty_apply (h.synced j d hd hst y hentry) hno
  · obtain rfl := Task.write.inj (hk.symm.trans hd)
    have hs := hi.sound
    rw [hk] at hs hx ⊢
    exact Atomic.synced_step hissue hs k hres.symm hx

/-- What is then seen at a place is what all the effects so far leave there; what else may be
found was possible before, and no file found so has changed. -/
theorem origin_act (hlin' : Linear tasks t (order B tasks t (ms ++ [.act i k]))
      ((diskStep B tasks s (.act i k)).map Disk.live))
    (hrun : runAll B tasks t ms = s.map Disk.live) (h : Durable B tasks t ms s) {l : Loc OsStr}
    (hl : Lasting tasks l) {v : Option Node}
    (hv : (s.world.apply (change s.world.live (tasks i).cwd k r)).Possible l v) :
    ∃ m ≤ (order B tasks t (ms ++ [.act i k])).length,
      shown (s.world.live.apply (change s.world.live (tasks i).cwd k r)).toImage v =
        reached B tasks t (ms ++ [.act i k]) m l ∧ Barrier B tasks t (ms ++ [.act i k]) l m := by
  rcases hv.shown_or_before hi.touch.proper with rfl | ⟨hv, hδ⟩
  · refine ⟨_, Nat.le_refl _, ?_, barrier_all B tasks t _ l⟩
    have hcontent := hlin'.content l hl
    rw [diskStep_act hi] at hcontent
    rw [reached, List.take_length]
    exact (shown_entry _ l).trans hcontent
  · obtain ⟨n, hn, hshown, hbar⟩ := h.origin l hl v hv
    refine ⟨n, hn.trans (order_snoc_length B tasks t ms _), ?_,
      barrier_snoc B tasks t hbar fun j g hjg hst => hδ ?_⟩
    · rw [reached_snoc B tasks t _ hn, ← hshown]
      rcases v with _ | _ | x
      · rfl
      · rfl
      · exact congrArg some (Volume.data_apply (h.not_written hi hl hv) (h.fresh l x hv))
    · obtain ⟨rfl, hk⟩ := Move.act.inj hjg
      rw [hrun] at hst
      exact hi.syncs hk hst

end Act

theorem durable_kill (h : Durable B tasks t ms s) (i : ι) :
    Durable B tasks t (ms ++ [.kill i]) (diskStep B tasks s (.kill i)) := by
  refine h.still rfl (fun j p hp => ?_) fun i k hk => by cases hk
  by_cases hji : j = i
  · subst hji
    simp [diskStep, move] at hp
  · simpa [diskStep, move, Function.update_of_ne hji] using hp

theorem durable_idle (hlin : Linear tasks t published (s.map Disk.live))
    (hrun : runAll B tasks t ms = s.map Disk.live) (h : Durable B tasks t ms s)
    (hidle : ∀ p, s.stage i = some p → (program B (tasks i)).issue p = none) :
    Durable B tasks t (ms ++ [.act i k]) (diskStep B tasks s (.act i k)) := by
  rw [diskStep, move_idle _ _ hidle]
  refine h.still rfl (fun j p hp => hp) fun j n hj l hst => ?_
  obtain ⟨rfl, -⟩ := Move.act.inj hj
  rw [hrun] at hst
  rcases (hlin.sound i _ hst).cases with ⟨paths, cwd, w, hk, hp, -⟩ | ⟨c, w, hk, hp, -⟩ |
    ⟨path, cwd, w, file, off, hk, hp⟩
  · cases hp
  · have hissue := hidle _ hst
    simp [program, hk, issue, Atomic.issue] at hissue
  · cases hp

theorem durable_act (hn : ∀ i c, tasks i = .write c → Lasting tasks c.target)
    (hlin : Linear tasks t published (s.map Disk.live))
    (hlin' : Linear tasks t (order B tasks t (ms ++ [.act i k]))
      ((diskStep B tasks s (.act i k)).map Disk.live))
    (hc : Clear tasks (s.map Disk.live) (.act i k))
    (hrun : runAll B tasks t ms = s.map Disk.live) (h : Durable B tasks t ms s) :
    Durable B tasks t (ms ++ [.act i k]) (diskStep B tasks s (.act i k)) := by
  rcases idle_or_issues (fun i => program B (tasks i)) s i with hidle | ⟨p, r, hp, hr⟩
  · exact durable_idle hlin hrun h hidle
  · obtain ⟨c, u, hi⟩ := hlin.issues hp hr k
    have hstep := diskStep_act (B := B) hi
    refine ⟨fun l x hx => ?_, fun l hl v hv => ?_, fun j d hd hj x hx => ?_, fun l x hl hx => ?_,
      fun j d hd hnamed x hx l hl => ?_, fun e he => ?_, fun l hl v hv => ?_⟩
    · rw [hstep] at hx ⊢
      exact fresh_act hi h hx
    · rw [hstep] at hv
      exact dirs_act hi h hl hv
    · have hsync := synced_act (x := x) hi hlin hn hc h hd hj
      rw [hstep] at hx ⊢
      exact hsync hx
    · rw [hstep] at hx ⊢
      exact clean_act hi h hl hx
    · rw [hstep] at hx hl
      exact own_act hi hlin hn h hd hnamed hx hl
    · rw [hstep] at he
      exact linkless_act hi h he
    · rw [hstep] at hv ⊢
      exact origin_act hi hlin' hrun h hl hv

end Step

section Run
variable {H ι : Type} [DecidableEq ι] (B : Blake3 H) (tasks : ι → Task)

theorem durable_start {t : Volume OsStr} (ht : t.Linkless) :
    Durable B tasks t [] (machine tasks t) := by
  have hall : ∀ l v, (Disk.ofVolume t).Possible l v → v = t.entry l := by
    rintro l v (hv | ⟨o, ho, -⟩)
    · exact hv
    · cases ho
  refine ⟨fun l x hx => t.fresh (hall l _ hx).symm, fun l hl v hv => (hall l v hv).trans hl,
    fun i c _ _ j _ => rfl, fun l x _ _ => rfl,
    fun j c hj hnamed x hx l hl => ht _ _ hx l (hall l _ hl).symm, fun e he => ?_,
    fun l hl v hv => ⟨0, Nat.zero_le _, ?_, ?_⟩⟩
  · obtain ⟨os, hos, rfl⟩ := he
    obtain rfl := List.eq_nil_of_sublist_nil hos
    exact ht
  · obtain rfl := hall l v hv
    exact shown_entry t.toImage l
  · intro ls i n ns he
    cases List.append_eq_nil_iff.mp he.symm |>.2

theorem durable_run (t : Volume OsStr) (ht : t.Linkless)
    (hn : ∀ i c, tasks i = .write c → Lasting tasks c.target) (ms : List (Move ι Choice))
    (hc : AllClear B tasks t ms) :
    Durable B tasks t ms (diskRun B tasks t ms) := by
  refine (interleave_history (fun ms s => Linear tasks t (order B tasks t ms) s ∧
    Durable B tasks t ms (diskRun B tasks t ms)) _ (fun ms m hm hs => ?_) ms hc
      ⟨linear_start ht, durable_start B tasks ht⟩).2
  obtain ⟨hlin, hdur⟩ := hs
  rw [← runAll] at hlin hm
  have hrun := diskRun_live B tasks t ms
  have hlin' := linear_move B tasks t hn ms m hm hlin
  refine ⟨hlin', ?_⟩
  rw [diskRun_snoc]
  cases m with
  | kill i => exact durable_kill hdur i
  | act i k =>
    have hstep := diskStep_live B tasks (diskRun B tasks t ms) (.act i k)
    rw [← hrun] at hstep
    rw [hstep] at hlin'
    rw [hrun] at hlin hm
    exact durable_act hn hlin hlin' hm hrun hdur

/-- What is found after a power loss at a place. -/
theorem Durable.found {t : Volume OsStr} {ms : List (Move ι Choice)} {s : Machine ι H}
    (h : Durable B tasks t ms s) {v : Image OsStr} (hv : Recovers s.world v) {l : Loc OsStr}
    (hl : Lasting tasks l) : ∃ m ≤ (order B tasks t ms).length,
      v.content l = reached B tasks t ms m l ∧ Barrier B tasks t ms l m := by
  obtain ⟨m, hm, hshown, hbar⟩ := h.origin l hl _ (hv.possible l)
  refine ⟨m, hm, ?_, hbar⟩
  rw [← hshown]
  rcases he : v.entry l with _ | _ | x
  · rw [Image.content_none he, shown]
  · rw [Image.content_dir he, shown]
  · have hclean := h.clean l x hl (by rw [← he]; exact hv.possible l)
    rw [Image.content_file he, shown, hv.data hclean]

/-- Where a directory above a place has been lost nothing was there at the start. -/
theorem Durable.lookup {t : Volume OsStr} (hr : t.Rooted) {ms : List (Move ι Choice)}
    {s : Machine ι H} (h : Durable B tasks t ms s) {v : Image OsStr} (hv : Recovers s.world v)
    {l : Loc OsStr} (hl : Lasting tasks l) : ∃ m ≤ (order B tasks t ms).length,
      v.lookup l = reached B tasks t ms m l ∧
      (t.entry l.tail = some .dir → Barrier B tasks t ms l m) := by
  have hdirs : ∀ k, t.entry k = some .dir → v.entry k = some .dir :=
    fun k hk => h.dirs k hk _ (hv.possible k)
  by_cases ha : ∀ k ∈ l.tails.tail, v.entry k = some .dir
  · obtain ⟨m, hm, hcontent, hbar⟩ := h.found B tasks hv hl
    refine ⟨m, hm, ?_, fun _ => hbar⟩
    rw [Image.lookup, if_pos ha, hcontent]
  · have habsent : t.entry l = none := by
      by_contra hne
      exact ha fun k hk => hdirs k (hr.above hne k hk)
    refine ⟨0, Nat.zero_le _, ?_, fun htail => absurd ?_ ha⟩
    · rw [Image.lookup, if_neg ha]
      exact (Image.content_none habsent).symm
    · cases l with
      | nil => simp
      | cons x l => exact fun k hk => hdirs k (hr.dirs htail k hk)

end Run

def logging (i : Bool) : Task := .write (Atomic.ticking i)

/-- The first process is about to sync the directory when the second one has renamed its file and
is killed. -/
def logged : List (Move Bool Choice) :=
  List.replicate 8 (.act true (.go 3)) ++ List.replicate 7 (.act false (.go 3)) ++ [.kill false]

theorem logging_lasting (i : Bool) (c : Atomic.Call) (h : logging i = .write c) :
    Lasting logging c.target := by
  obtain rfl := Task.write.inj h
  intro j d hd _
  obtain rfl := Task.write.inj hd
  have hne : ∀ i j, (Atomic.ticking i).target ≠ (Atomic.ticking j).tmp := by decide +kernel
  exact hne i j

theorem logging_clear (t : Volume OsStr) (ms : List (Move Bool Choice)) :
    AllClear Hash.table logging t ms := by
  refine allClear_of_distinct _ _ (fun i j c d hij hc hd => ?_) _
  obtain rfl := Task.write.inj hc
  obtain rfl := Task.write.inj hd
  have hne : ∀ i j, i ≠ j → (Atomic.ticking i).tmp ≠ (Atomic.ticking j).tmp := by decide +kernel
  exact hne i j hij

end Nyx.System
