import Nyx.AtomicStep
import Nyx.CreateDirAllLinks
import Nyx.LinkFree

/-! `write_atomic` over a tree with symbolic links, in any state: the names it uses may be
taken, and links may stand anywhere. A call has two parts, before its temporary file is asked
for and after, and the tree of that instant fixes all that comes after it. -/
namespace Nyx.Atomic
open FileTree Interaction Text
open CreateDirAll (IoError)

def linkCall (c : Call) (ks : List Choice) (t : LinkTree OsStr) : Run (LinkTree OsStr) :=
  run (program c) (LinkTree.respond c.cwd) ⟨t, start c, []⟩ ks

/-- Where there are no links the call goes as over a bare file tree. -/
theorem linkCall_plain (c : Call) (ks : List Choice) (t : Volume OsStr) :
    linkCall c ks t.plain = (call c ks t).map Volume.plain :=
  run_map (fun k r w => LinkTree.respond_plain w c.cwd k r) ⟨t, start c, []⟩ ks

abbrev Log := List (Request OsStr × Choice × Reply OsStr)

/-- `File::create` has succeeded. -/
def opened (log : Log) : Bool :=
  log.any fun e => match e with
    | (.create _, _, .opened _) => true
    | _ => false

/-- The bytes the kernel has taken. -/
def accepted (log : Log) : ℕ :=
  (log.map fun e => match e with
    | (.write .., _, .wrote n) => n
    | _ => 0).sum

def Preparing (c : Call) : Stage → Prop
  | .mkdirs _ | .done (.error _) => True
  | .create => c.fileName.isSome
  | .write .. | .flush _ | .sync _ | .rename | .openDir | .syncDir _ | .done (.ok _) => False

/-- A call that has not asked for its temporary file: it has made directories at most. -/
structure Early (c : Call) (t : LinkTree OsStr) (r : Run (LinkTree OsStr)) : Prop where
  grown : t.Grown r.world
  stage : Preparing c r.stage
  opened : opened r.log = false
  accepted : accepted r.log = 0

theorem preparing_mkdirs (c : Call) (s : CreateDirAll.Stage OsStr) : Preparing c (mkdirs c s) := by
  unfold mkdirs
  split
  · split_ifs with h
    · exact h
    · trivial
  · trivial
  · trivial

theorem early_start (c : Call) (t : LinkTree OsStr) : Early c t ⟨t, start c, []⟩ := by
  refine ⟨.refl t, ?_, rfl, rfl⟩
  unfold start
  split
  · trivial
  · exact preparing_mkdirs c _

theorem early_step {c : Call} {t : LinkTree OsStr} (r : Run (LinkTree OsStr)) (k : Choice)
    (q : Request OsStr) (hq : (program c).issue r.stage = some q) (hs : r.stage ≠ .create)
    (h : Early c t r) : Early c t (advance (program c) (LinkTree.respond c.cwd) r k) := by
  obtain ⟨w, s, log⟩ := r
  obtain ⟨hgrown, hstage, hopened, haccepted⟩ := h
  rw [advance_issued hq]
  cases s with
  | mkdirs m =>
    refine ⟨hgrown.trans (CreateDirAll.grown_links hq k), preparing_mkdirs c _, ?_, ?_⟩
    · cases m with
      | mkdir | isDir => obtain rfl := Option.some.inj hq; exact hopened
      | done x => cases hq
    · cases m with
      | mkdir | isDir => obtain rfl := Option.some.inj hq; simpa [accepted] using haccepted
      | done x => cases hq
  | create => exact absurd rfl hs
  | done x => cases hq
  | write | flush | sync | rename | openDir | syncDir => cases hstage

/-- `File::create` opens this inode, at the place the temporary path leads to. -/
structure Opens (c : Call) (w : LinkTree OsStr) (l : Loc OsStr) (i : ℕ) : Prop where
  named : c.fileName.isSome
  reach : w.reach c.cwd c.tmpPath = .ok l
  inode : w.item l = none ∧ i = w.next ∨ w.item l = some (.file i)

/-- The tree once the opened file holds so many bytes. -/
def written (w : LinkTree OsStr) (l : Loc OsStr) (i : ℕ) (b : Bytes) : LinkTree OsStr :=
  (if w.item l = none then w.apply (.create l) else w).apply (.write i b)

/-- The stages between `File::create` and the rename, n bytes being written. -/
def Working (c : Call) (i n : ℕ) : Stage → Prop
  | .write j off => j = i ∧ off = n ∧ off < c.data.length
  | .flush _ | .sync _ | .rename => True
  | .mkdirs _ | .create | .openDir | .syncDir _ | .done _ => False

/-- What a call has made of the tree in which it asked for its temporary file. -/
inductive Late (c : Call) (w : LinkTree OsStr) : Stage → LinkTree OsStr → Bool → ℕ → Prop
  | waiting (named : c.fileName.isSome) : Late c w .create w false 0
  | refused (e : IoError) : Late c w (.done (.error e)) w false 0
  | working {s l i n} (file : Opens c w l i) (stage : Working c i n s) :
      Late c w s (written w l i (c.data.take n)) true n
  | failed {l i n} (file : Opens c w l i) (e : IoError) :
      Late c w (.done (.error e)) (written w l i (c.data.take n)) true n
  | same {s l i n} (file : Opens c w l i) (stage : s.published = true) :
      Late c w s (written w l i (c.data.take n)) true n
  | renamed {s l i n a b} (file : Opens c w l i) (stage : s.published = true)
      (source : (written w l i (c.data.take n)).place c.cwd c.tmpPath = .ok a)
      (target : (written w l i (c.data.take n)).place c.cwd c.path = .ok b) (distinct : a ≠ b) :
      Late c w s ((written w l i (c.data.take n)).apply (.rename a b)) true n

theorem opened_cons (e : Request OsStr × Choice × Reply OsStr) (log : Log) :
    opened (e :: log) = (opened [e] || opened log) := by
  simp [opened]

theorem accepted_cons (e : Request OsStr × Choice × Reply OsStr) (log : Log) :
    accepted (e :: log) = accepted [e] + accepted log := by
  simp [accepted]

section Written
variable {c : Call} {w : LinkTree OsStr} {l : Loc OsStr} {i n : ℕ} {b : Bytes}

theorem written_data (w : LinkTree OsStr) (l : Loc OsStr) (i : ℕ) (b : Bytes) :
    (written w l i b).data i = b := Function.update_self _ _ _

theorem written_write (b' : Bytes) : (written w l i b).apply (.write i b') = written w l i b' := by
  simp [written, LinkTree.apply]

/-- As soon as it is open the file is empty. -/
theorem written_created (h : w.item l = none) :
    w.apply (.create l) = written w l w.next [] := by
  simp [written, h, LinkTree.apply]

theorem written_emptied (h : w.item l = some (.file i)) :
    w.apply (.write i []) = written w l i [] := by
  simp [written, h]

theorem working_writeAll (c : Call) (i off : ℕ) : Working c i off (writeAll c i off) := by
  unfold writeAll
  split_ifs with h
  · exact ⟨rfl, rfl, h⟩
  · trivial

end Written

/-- The opened file is all that is new. -/
theorem Opens.item (file : Opens c w l i) (b : Bytes) (k : Loc OsStr) :
    (written w l i b).item k = if k = l then some (.file i) else w.item k := by
  obtain ⟨hn, rfl⟩ | hi := file.inode
  · simp [written, hn, LinkTree.apply, Function.update_apply]
  · have hitem : (written w l i b).item = w.item := by simp [written, hi, LinkTree.apply]
    rw [hitem]
    split_ifs with hk
    · rw [hk, hi]
    · rfl

theorem Opens.data (file : Opens c w l i) (b : Bytes) (j : ℕ) :
    (written w l i b).data j = if j = i then b else w.data j := by
  obtain ⟨hn, rfl⟩ | hi := file.inode
  · simp only [written, hn, if_true, LinkTree.apply, Function.update_apply]
    split_ifs <;> rfl
  · simp [written, hi, LinkTree.apply, Function.update_apply]

/-- Paths lead into the directories they led into. -/
theorem Opens.enter (file : Opens c w l i) (b : Bytes) {p : Path OsStr} {d : Loc OsStr}
    (h : w.enter c.cwd p = .ok d) : (written w l i b).enter c.cwd p = .ok d := by
  have hkeep : ∀ m v, v ≠ .file i → w.item m = some v → (written w l i b).item m = some v := by
    intro m v hv hm
    have hne : m ≠ l := by
      rintro rfl
      obtain ⟨hn, -⟩ | hi := file.inode
      · rw [hn] at hm
        cases hm
      · rw [hi] at hm
        exact hv (Option.some.inj hm).symm
    rw [file.item, if_neg hne, hm]
  exact LinkTree.enter_mono h (fun m => hkeep m .dir (by simp)) fun m q => hkeep m (.link q) (by simp)

/-- The path and its temporary path name entries of one directory. -/
theorem enter_tmpPath {c : Call} (h : c.fileName.isSome) (w : LinkTree OsStr) :
    w.enter c.cwd c.tmpPath = w.enter c.cwd c.path := by
  obtain ⟨x, hx⟩ := Option.isSome_iff_exists.mp h
  have hfile := Call.fileName_path hx
  have hempty : c.path.isEmpty = false := by
    rw [Path.isEmpty, Path.comps_of_fileName hfile]
    simp
  have htmp : c.tmpPath.isEmpty = false := by simp [Call.tmpPath, Path.join, Path.isEmpty]
  unfold LinkTree.enter LinkTree.lead
  rw [hempty, htmp, Path.start, Path.start, Call.tmpPath, Call.dir_comps (by simp [hfile])]
  rfl

theorem place_tmpPath {c : Call} {w : LinkTree OsStr} {k : Loc OsStr} :
    w.place c.cwd c.tmpPath = .ok k ↔ ∃ d, w.enter c.cwd c.tmpPath = .ok d ∧
      k = tmpName (c.fileName.getD []) c.pid c.nanos :: d :=
  LinkTree.place_ok rfl

/-- The directory of the temporary file is there when the file is opened. -/
theorem Opens.dir (file : Opens c w l i) : ∃ d, w.enter c.cwd c.path = .ok d ∧
    (l = tmpName (c.fileName.getD []) c.pid c.nanos :: d ∨
      ∃ q, w.item (tmpName (c.fileName.getD []) c.pid c.nanos :: d) = some (.link q)) := by
  rw [← enter_tmpPath file.named]
  exact LinkTree.reach_eq_place rfl file.reach

/-- Once the rename is over nothing is done to the tree any more. -/
theorem published_step {c : Call} {u : LinkTree OsStr} {s : Stage} {q : Request OsStr}
    (hs : s.published = true) (hq : issue c s = some q) (k : Choice) :
    (resume c s (u.outcome c.cwd k q).1).published = true ∧
      u.apply (u.outcome c.cwd k q).2 = u ∧ accepted [(q, k, (u.outcome c.cwd k q).1)] = 0 := by
  cases s with
  | openDir =>
    obtain rfl : .openFile c.dir = q := Option.some.inj hq
    rcases u.outcome_openFile c.cwd k c.dir with ⟨e, h⟩ | ⟨f, h⟩ <;>
    · rw [h]
      exact ⟨rfl, rfl, rfl⟩
  | syncDir f =>
    obtain rfl : .fsync f = q := Option.some.inj hq
    exact ⟨rfl, u.apply_fsync c.cwd k f, rfl⟩
  | done x => cases hq
  | mkdirs | create | write | flush | sync | rename => cases hs

theorem working_step {c : Call} {w : LinkTree OsStr} {s : Stage} {l : Loc OsStr} {i n : ℕ}
    (file : Opens c w l i) (stage : Working c i n s) {q : Request OsStr} (hq : issue c s = some q)
    (k : Choice) {u : LinkTree OsStr} (hu : u = written w l i (c.data.take n)) :
    Late c w (resume c s (u.outcome c.cwd k q).1) (u.apply (u.outcome c.cwd k q).2) true
      (accepted [(q, k, (u.outcome c.cwd k q).1)] + n) := by
  have failed : ∀ e, Late c w (.done (.error e)) u true (0 + n) := by
    intro e
    rw [hu, Nat.zero_add]
    exact .failed file e
  have working : ∀ s', Working c i n s' → Late c w s' u true (0 + n) := by
    intro s' hs'
    rw [hu, Nat.zero_add]
    exact .working file hs'
  cases s with
  | write j off =>
    obtain ⟨rfl, rfl, hoff⟩ := stage
    obtain rfl : .write j off (c.data.drop off) = q := Option.some.inj hq
    rcases u.outcome_write c.cwd k j off (c.data.drop off) with ⟨e, h⟩ | h | ⟨m, hm, -, h⟩
    · rw [h]
      simp only [resume]
      split_ifs with he
      · exact working _ ⟨rfl, rfl, hoff⟩
      · exact failed _
    · rw [h]
      exact failed _
    · have hdata : writeAt (u.data j) off ((c.data.drop off).take m) = c.data.take (m + off) := by
        rw [hu, written_data, writeAt_take hoff.le, Nat.add_comm]
      rw [h, hdata, hu, written_write]
      simp only [resume, hm.ne', if_false, Nat.add_comm off m]
      exact .working file (working_writeAll c j (m + off))
  | flush j =>
    obtain rfl : .flush j = q := Option.some.inj hq
    rcases u.outcome_flush c.cwd k j with ⟨e, h⟩ | h
    · rw [h]
      exact failed _
    · rw [h]
      exact working _ trivial
  | sync j =>
    obtain rfl : .fsync (.file j) = q := Option.some.inj hq
    cases k with
    | fail e => exact failed _
    | go m => exact working _ trivial
  | rename =>
    obtain rfl : .rename c.tmpPath c.path = q := Option.some.inj hq
    rcases u.outcome_rename c.cwd k c.tmpPath c.path with ⟨e, h⟩ | ⟨a, b, ha, hb, -, h | ⟨hab, h⟩⟩
    · rw [h]
      exact failed _
    · have same : Late c w .openDir u true (0 + n) := by
        rw [hu, Nat.zero_add]
        exact .same file rfl
      rw [h]
      exact same
    · have renamed : Late c w .openDir (u.apply (.rename a b)) true (0 + n) := by
        rw [hu] at ha hb ⊢
        rw [Nat.zero_add]
        exact .renamed file rfl ha hb hab
      rw [h]
      exact renamed
  | mkdirs | create | openDir | syncDir | done => cases stage

theorem late_step {c : Call} {w u : LinkTree OsStr} {s : Stage} {o : Bool} {n : ℕ}
    (h : Late c w s u o n) {q : Request OsStr} (hq : issue c s = some q) (k : Choice) :
    Late c w (resume c s (u.outcome c.cwd k q).1) (u.apply (u.outcome c.cwd k q).2)
      (opened [(q, k, (u.outcome c.cwd k q).1)] || o)
      (accepted [(q, k, (u.outcome c.cwd k q).1)] + n) := by
  cases h with
  | waiting named =>
    obtain rfl : .create c.tmpPath = q := Option.some.inj hq
    rcases w.outcome_create c.cwd k c.tmpPath with ⟨e, h⟩ | ⟨l, hl, ⟨hn, h⟩ | ⟨i, hi, h⟩⟩
    · rw [h]
      exact .refused _
    · rw [h, written_created hn]
      exact .working (n := 0) ⟨named, hl, Or.inl ⟨hn, rfl⟩⟩ (working_writeAll c _ 0)
    · rw [h, written_emptied hi]
      exact .working (n := 0) ⟨named, hl, Or.inr hi⟩ (working_writeAll c i 0)
  | refused e => cases hq
  | working file stage =>
    rw [Bool.or_true]
    exact working_step file stage hq k rfl
  | failed file e => cases hq
  | same file stage =>
    obtain ⟨hs, hu, hn⟩ := published_step stage hq k
    rw [hu, hn, Bool.or_true, Nat.zero_add]
    exact .same file hs
  | renamed file stage source target distinct =>
    obtain ⟨hs, hu, hn⟩ := published_step stage hq k
    rw [hu, hn, Bool.or_true, Nat.zero_add]
    exact .renamed file hs source target distinct

theorem late_run {c : Call} {r : Run (LinkTree OsStr)} (named : c.fileName.isSome)
    (hs : r.stage = .create) (ho : opened r.log = false) (hn : accepted r.log = 0)
    (ks : List Choice) {r' : Run (LinkTree OsStr)}
    (hr : r' = run (program c) (LinkTree.respond c.cwd) r ks) :
    Late c r.world r'.stage r'.world (opened r'.log) (accepted r'.log) := by
  rw [hr]
  refine run_invariant
    (fun x => Late c r.world x.stage x.world (opened x.log) (accepted x.log))
    (fun x k q hq h => ?_) r ks ?_
  · rw [advance_issued hq]
    dsimp only
    rw [opened_cons, accepted_cons]
    exact late_step h hq k
  · rw [hs, ho, hn]
    exact .waiting named

theorem late_create {c : Call} {w u : LinkTree OsStr} {o : Bool} {n : ℕ}
    (h : Late c w .create u o n) : u = w := by
  cases h with
  | waiting => rfl
  | working file stage => cases stage
  | same file stage => cases stage
  | renamed file stage => cases stage

/-- A call never comes to ask for its temporary file, or it does in one tree, which is the
first with directories added, and from which all it does afterwards can be told. -/
theorem linkCall_parts (c : Call) (ks : List Choice) (t : LinkTree OsStr) :
    (Early c t (linkCall c ks t) ∧ ∀ n, (linkCall c (ks.take n) t).stage ≠ .create) ∨
    ∃ w, t.Grown w ∧ c.fileName.isSome ∧ (∃ n, (linkCall c (ks.take n) t).stage = .create) ∧
      (∀ n, (linkCall c (ks.take n) t).stage = .create → (linkCall c (ks.take n) t).world = w) ∧
      Late c w (linkCall c ks t).stage (linkCall c ks t).world (opened (linkCall c ks t).log)
        (accepted (linkCall c ks t).log) := by
  have early : ∀ ls, (∀ n < ls.length, (linkCall c (ls.take n) t).stage ≠ .create) →
      Early c t (linkCall c ls t) := fun ls hls =>
    run_along (G := fun r : Run (LinkTree OsStr) => r.stage ≠ .create) (Early c t)
      (fun r k q hq hs h => early_step r k q hq hs h) _ ls hls (early_start c t)
  by_cases hex : ∃ n, (linkCall c (ks.take n) t).stage = .create
  · -- the first time the file is asked for splits the run
    obtain ⟨m, hm, hmin⟩ : ∃ m, (linkCall c (ks.take m) t).stage = .create ∧
        ∀ n < m, (linkCall c (ks.take n) t).stage ≠ .create := by
      classical
      exact ⟨Nat.find hex, Nat.find_spec hex, fun n hn => Nat.find_min hex hn⟩
    obtain ⟨hgrown, hstage, ho, hn⟩ := early (ks.take m) fun n hn => by
      rw [List.length_take] at hn
      rw [List.take_take, min_eq_left (by omega)]
      exact hmin n (by omega)
    rw [hm] at hstage
    have hlate : ∀ n, m ≤ n → Late c (linkCall c (ks.take m) t).world
        (linkCall c (ks.take n) t).stage (linkCall c (ks.take n) t).world
        (opened (linkCall c (ks.take n) t).log) (accepted (linkCall c (ks.take n) t).log) :=
      fun n hle => late_run hstage hm ho hn _ (run_take _ _ _ ks hle)
    refine Or.inr ⟨_, hgrown, hstage, ⟨m, hm⟩, fun n hcreate => ?_, ?_⟩
    · have hle : m ≤ n := by
        by_contra hlt
        exact hmin n (by omega) hcreate
      have hl := hlate n hle
      rw [hcreate] at hl
      exact late_create hl
    · have hl := hlate (max m ks.length) (le_max_left _ _)
      rwa [List.take_of_length_le (le_max_right _ _)] at hl
  · have hno : ∀ n, (linkCall c (ks.take n) t).stage ≠ .create := by
      simpa using hex
    exact Or.inl ⟨early ks fun n _ => hno n, hno⟩

end Nyx.Atomic
