import Nyx.AtomicNames
import Nyx.CreateDirAllStep
import Nyx.NameLimit

/-! `write_atomic` where no name may be longer than 255 bytes and nothing else goes wrong. The
temporary name is longer than the name of the target. -/
namespace Nyx.Atomic
open FileTree Interaction Text NameLimit
open CreateDirAll (IoError Serves Tower Made Above Free Grown OnCourse)

def maxName : ℕ := 255

def long (x : OsStr) : Bool := maxName < x.length

def limitedCall (c : Call) (ks : List Choice) (t : Volume OsStr) : Run (Volume OsStr) :=
  run (program c) (NameLimit.respond long c.cwd) ⟨t, start c, []⟩ ks

/-- Every request does what the file system allows, and every write takes something. -/
def Unfailing (ks : List Choice) : Prop := ∀ k ∈ ks, ∃ n, 0 < n ∧ k = .go n

/-- The path ends in a file name, its names are short enough, and no entry is in its way. -/
structure Unobstructed (c : Call) (f : OsStr) (t : Volume OsStr) : Prop where
  named : c.fileName = some f
  fits : Fits long c.path
  rooted : t.Rooted
  base : t.entry (c.path.start c.cwd) = some .dir
  free : Free t.toImage c.cwd c.dir
  target : t.entry c.target ≠ some .dir

/-- The temporary file can be created. -/
structure Room (c : Call) (f : OsStr) (t : Volume OsStr) : Prop where
  width : f.length + (decimal c.pid.toNat).length + (decimal c.nanos).length + 7 ≤ maxName
  plain : t.entry c.tmp ≠ some .dir
  apart : ¬Above c.dir c.cwd c.tmp

/-- The temporary file can be renamed to the path: it is written without a separator at its
end, and the target is none of the directories the path leads through. -/
structure Aimed (c : Call) : Prop where
  file : c.path.trailing = false
  apart : ¬Above c.dir c.cwd c.target

/-- What a call that has its temporary file open relies on. -/
structure Ready (c : Call) (f : OsStr) (t u : Volume OsStr) (i : ℕ) : Prop where
  room : Room c f t
  made : Made u.toImage c.cwd c.dir
  held : ∀ l ∈ (c.dir.loc c.cwd).tails, u.entry l = some .dir
  tmp : u.entry c.tmp = some (.file i)
  target : u.entry c.target = some .dir ↔ Above c.dir c.cwd c.target

/-- The call went as far as it can. -/
structure Written (c : Call) (f : OsStr) (t u : Volume OsStr) : Prop where
  room : Room c f t
  aimed : Aimed c
  read : u.read c.cwd c.path = some c.data

/-- What holds at each stage of a call that began over a tree where nothing is in its way. -/
def Progress (c : Call) (f : OsStr) (t u : Volume OsStr) : Stage → Prop
  | .mkdirs m => CreateDirAll.issue m ≠ none ∧ Serves c.dir m ∧ OnCourse u c.cwd m ∧
      Grown (Above c.dir c.cwd) t u ∧ u.Rooted
  | .create => Grown (Above c.dir c.cwd) t u ∧ Made u.toImage c.cwd c.dir ∧ u.Rooted
  | .write i off => Ready c f t u i ∧ off < c.data.length ∧ u.data i = c.data.take off
  | .flush i | .sync i => Ready c f t u i ∧ u.data i = c.data
  | .rename => ∃ i, Ready c f t u i ∧ u.data i = c.data
  | .openDir | .syncDir _ | .done (.ok _) => Written c f t u
  | .done (.error _) => ¬(Room c f t ∧ Aimed c)

/-- How many more requests there can be. -/
def cost (c : Call) : Stage → ℕ
  | .mkdirs m => CreateDirAll.cost m + c.data.length + 6
  | .create => c.data.length + 6
  | .write _ off => c.data.length - off + 5
  | .flush _ => 5
  | .sync _ => 4
  | .rename => 3
  | .openDir => 2
  | .syncDir _ => 1
  | .done _ => 0

def budget (c : Call) : ℕ := 3 * c.dir.comps.length + c.data.length + 8

/-- An answer takes the call to where it should be, and nearer to its end. -/
def Advances (c : Call) (f : OsStr) (t u : Volume OsStr) (s : Stage)
    (a : Reply OsStr × Change OsStr) : Prop :=
  Progress c f t (u.apply a.2) (resume c s a.1) ∧ cost c (resume c s a.1) < cost c s

theorem cost_pos {c : Call} {s : Stage} {r : Request OsStr} (h : issue c s = some r) :
    0 < cost c s := by
  cases s with
  | done x => cases h
  | _ => simp [cost]

theorem cost_writeAll (c : Call) (i off : ℕ) : cost c (writeAll c i off) ≤ c.data.length - off + 5 := by
  unfold writeAll
  split_ifs <;> simp [cost]

theorem cost_mkdirs (c : Call) (m : CreateDirAll.Stage OsStr) :
    cost c (mkdirs c m) ≤ CreateDirAll.cost m + c.data.length + 6 := by
  unfold mkdirs
  split
  · split_ifs <;> simp [cost]
  · simp [cost]
  · simp [cost]

section Step
variable {c : Call} {f : OsStr} {t u v : Volume OsStr}

theorem Unobstructed.dir_eq (h : Unobstructed c f t) :
    c.dir = ⟨c.path.rooted, c.path.comps.tail, false⟩ :=
  Call.dir_comps (by simp [Call.fileName_path h.named])

theorem Unobstructed.fits_dir (h : Unobstructed c f t) : Fits long c.dir := by
  refine h.fits.of_suffix ?_
  rw [h.dir_eq]
  exact List.tail_suffix _

theorem Unobstructed.tmpPath_eq (h : Unobstructed c f t) :
    c.tmpPath = c.dir.join (tmpName f c.pid c.nanos) := by
  rw [Call.tmpPath, h.named]
  rfl

/-- The limit falls on the temporary name alone. -/
theorem Unobstructed.fits_tmpPath (h : Unobstructed c f t) (hw : long (tmpName f c.pid c.nanos) = false) :
    Fits long c.tmpPath := by
  rw [h.tmpPath_eq]
  exact h.fits_dir.join hw

theorem long_tmpName {c : Call} {f : OsStr} : long (tmpName f c.pid c.nanos) = false ↔
    f.length + (decimal c.pid.toNat).length + (decimal c.nanos).length + 7 ≤ maxName := by
  rw [long, tmpName_width, decide_eq_false_iff_not, Nat.not_lt]

theorem enter_of_made {p : Path OsStr} (hd : Made u.toImage c.cwd c.dir)
    (hr : p.rooted = c.dir.rooted) (hc : ∃ x, p.comps = .normal x :: c.dir.comps) :
    u.enter c.cwd p = none := by
  obtain ⟨x, hx⟩ := hc
  have hnamed : p.isEmpty = false := by simp [Path.isEmpty, hx]
  rw [Image.enter_named hnamed, hx, List.tail_cons, Path.start, hr]
  exact hd

theorem Unobstructed.path_comps (h : Unobstructed c f t) : c.path.comps = .normal f :: c.dir.comps := by
  rw [h.dir_eq]
  exact Path.comps_of_fileName (Call.fileName_path h.named)

theorem Unobstructed.enter_path (h : Unobstructed c f t) (hd : Made u.toImage c.cwd c.dir) :
    u.enter c.cwd c.path = none :=
  enter_of_made hd (by rw [h.dir_eq]) ⟨f, h.path_comps⟩

theorem Unobstructed.enter_tmpPath (h : Unobstructed c f t) (hd : Made u.toImage c.cwd c.dir) :
    u.enter c.cwd c.tmpPath = none := by
  rw [h.tmpPath_eq]
  exact enter_of_made hd rfl ⟨_, rfl⟩

theorem progress_mkdirs (h : Unobstructed c f t) {m : CreateDirAll.Stage OsStr}
    (hs : Serves c.dir m) (hc : OnCourse u c.cwd m) (hg : Grown (Above c.dir c.cwd) t u)
    (hr : u.Rooted) (hm : m = .done (.ok ()) → Made u.toImage c.cwd c.dir) :
    Progress c f t u (mkdirs c m) := by
  cases m with
  | mkdir | isDir => exact ⟨Option.some_ne_none _, hs, hc, hg, hr⟩
  | done r =>
    obtain rfl : r = .ok () := hc
    have hnamed : c.fileName.isSome := by simp [h.named]
    rw [mkdirs, if_pos hnamed]
    exact ⟨hg, hm rfl, hr⟩

theorem start_eq (h : Unobstructed c f t) : start c = mkdirs c (CreateDirAll.start c.dir) := by
  have hparent := Path.parent_of_fileName (p := c.path) (by simp [Call.fileName_path h.named])
  rw [start, hparent, h.dir_eq]

theorem progress_start (h : Unobstructed c f t) : Progress c f t t (start c) := by
  rw [start_eq h]
  refine progress_mkdirs h (CreateDirAll.serves_start c.dir) (CreateDirAll.onCourse_start t c.cwd c.dir)
    (.refl _ t) h.rooted fun hdone => ?_
  have hbase := h.base
  rw [Made, Path.comps_of_isEmpty (CreateDirAll.isEmpty_of_start hdone), Image.walk, h.dir_eq]
  exact if_pos hbase

/-- Making the directories goes as it does without a limit. -/
theorem outcome_mkdirs (h : Unobstructed c f t) {m : CreateDirAll.Stage OsStr} {r : Request OsStr}
    (hs : Serves c.dir m) (hr : CreateDirAll.issue m = some r) (ch : Choice) :
    NameLimit.outcome long u c.cwd ch r = u.outcome c.cwd ch r := by
  refine outcome_fits (fun p hp => ?_) ch
  cases m with
  | mkdir d below again =>
    obtain rfl : .mkdir d = r := Option.some.inj hr
    rw [List.mem_singleton.mp hp]
    exact h.fits_dir.of_suffix (Tower.within hs).2
  | isDir d below again e =>
    obtain rfl : .isDir d = r := Option.some.inj hr
    rw [List.mem_singleton.mp hp]
    exact h.fits_dir.of_suffix (Tower.within hs).2
  | done x => cases hr

theorem advances_mkdirs (h : Unobstructed c f t) {m : CreateDirAll.Stage OsStr}
    {r : Request OsStr} (hp : Progress c f t u (.mkdirs m)) (hr : CreateDirAll.issue m = some r)
    (n : ℕ) : Advances c f t u (.mkdirs m) (NameLimit.outcome long u c.cwd (.go n) r) := by
  obtain ⟨-, hs, hc, hg, hrooted⟩ := hp
  have hbase : u.entry (c.dir.start c.cwd) = some .dir := by
    rw [h.dir_eq]
    exact hg.dir h.base
  rw [outcome_mkdirs h hs hr]
  refine ⟨progress_mkdirs h (CreateDirAll.serves_resume hs _)
    (CreateDirAll.onCourse_resume hrooted (hg.free h.free) hbase hs hc hr n)
    (hg.trans (CreateDirAll.grown_outcome hs hr _)) (CreateDirAll.rooted_outcome hrooted hr _)
    (CreateDirAll.made_of_done hs hr), ?_⟩
  have hcost : CreateDirAll.cost (CreateDirAll.resume m (u.outcome c.cwd (.go n) r).1) <
      CreateDirAll.cost m := CreateDirAll.cost_resume hr (CreateDirAll.reply_issue hr _)
  refine (cost_mkdirs c _).trans_lt ?_
  simp only [cost]
  omega

/-- The next write, or the end of writing. -/
theorem progress_writeAll {i off : ℕ} (hready : Ready c f t u i)
    (hd : u.data i = c.data.take off) : Progress c f t u (writeAll c i off) := by
  unfold writeAll
  split_ifs with hoff
  · exact ⟨hready, hoff, hd⟩
  · exact ⟨hready, by rw [hd, List.take_of_length_le (by omega)]⟩

theorem ready_of_create (h : Unobstructed c f t) (hp : Progress c f t u .create)
    (hw : long (tmpName f c.pid c.nanos) = false) (hplain : u.entry c.tmp ≠ some .dir)
    {i : ℕ} (htmp : v.entry c.tmp = some (.file i))
    (hkeep : ∀ l, l ≠ c.tmp → v.entry l = u.entry l) : Ready c f t v i := by
  obtain ⟨hg, hm, hr⟩ := hp
  have hdir : ∀ l, u.entry l = some .dir → v.entry l = some .dir := by
    intro l hl
    rw [hkeep l (by rintro rfl; exact hplain hl), hl]
  have htarget := Call.tmp_ne_target (c := c) (by simp [h.named])
  rw [Ne, hg.dir_iff hm, not_or] at hplain
  refine ⟨⟨long_tmpName.mp hw, hplain.1, hplain.2⟩, hm.keep hdir, fun l hl => ?_, htmp, ?_⟩
  · exact hdir l (hr.dirs (hm.entry (CreateDirAll.above_self c.dir c.cwd)) l hl)
  · rw [hkeep _ htarget.symm, hg.dir_iff hm]
    exact or_iff_right h.target

theorem advances_create (h : Unobstructed c f t) (hp : Progress c f t u .create) (n : ℕ) :
    Advances c f t u .create (NameLimit.outcome long u c.cwd (.go n) (.create c.tmpPath)) := by
  obtain ⟨hg, hm, hr⟩ := hp
  have hcost : ∀ i, cost c (writeAll c i 0) < cost c .create := fun i =>
    (cost_writeAll c i 0).trans_lt (Nat.lt_succ_self _)
  by_cases hw : long (tmpName f c.pid c.nanos) = false
  · have hfits : ∀ p ∈ paths (.create c.tmpPath), Fits long p := by
      intro p hp
      rw [List.mem_singleton.mp hp]
      exact h.fits_tmpPath hw
    rw [outcome_fits hfits, Volume.outcome, Volume.plan_create (h.enter_tmpPath hm) rfl rfl]
    cases hx : u.entry (c.tmpPath.loc c.cwd) with
    | none =>
      refine ⟨progress_writeAll (ready_of_create h ⟨hg, hm, hr⟩ hw ?_ (Function.update_self _ _ _)
        fun l hl => Function.update_of_ne hl _ _) (Function.update_self _ _ _), hcost _⟩
      rw [Call.tmp, hx]
      simp
    | some node =>
      cases node with
      | dir =>
        -- a directory that was there, or one made on the way to the target
        refine ⟨fun hboth => ?_, Nat.succ_pos _⟩
        rcases (hg.dir_iff hm c.tmp).mp hx with hdir | habove
        · exact hboth.1.plain hdir
        · exact hboth.1.apart habove
      | file i =>
        refine ⟨progress_writeAll (ready_of_create h ⟨hg, hm, hr⟩ hw ?_ hx fun l _ => rfl)
          (Function.update_self _ _ _), hcost _⟩
        rw [Call.tmp, hx]
        simp
  · -- the directory is there by now, so the name itself is what is refused
    have hlong : long (tmpName f c.pid c.nanos) = true := by simpa using hw
    have hrefused : refusal long u.toImage c.cwd c.tmpPath =
        some ((u.walk (c.dir.start c.cwd) c.dir.comps).getD .other) := by
      rw [h.tmpPath_eq]
      exact refusal_join h.fits_dir hlong
    rw [outcome_long hrefused]
    exact ⟨fun hboth => hw (long_tmpName.mpr hboth.1.width), Nat.succ_pos _⟩

theorem Ready.write {i : ℕ} (h : Ready c f t u i) (d : Bytes) :
    Ready c f t (u.apply (.write i d)) i :=
  ⟨h.room, h.made.keep fun _ hl => hl, h.held, h.tmp, h.target⟩

theorem advances_write {i off n : ℕ} (hp : Progress c f t u (.write i off)) (hn : 0 < n) :
    Advances c f t u (.write i off)
      (NameLimit.outcome long u c.cwd (.go n) (.write i off (c.data.drop off))) := by
  obtain ⟨hready, hoff, hd⟩ := hp
  have hlen : (c.data.drop off).length = c.data.length - off := List.length_drop
  have hsome : ¬(n = 0 ∨ c.data.drop off = []) := by
    rw [← List.length_eq_zero_iff, hlen]
    omega
  have hout : NameLimit.outcome long u c.cwd (.go n) (.write i off (c.data.drop off)) =
      (.wrote (min n (c.data.length - off)),
        .write i (writeAt (u.data i) off ((c.data.drop off).take n))) := by
    rw [outcome_pathless rfl, Volume.outcome, Volume.plan, if_neg hsome, hlen]
  have hnext : resume c (.write i off) (.wrote (min n (c.data.length - off))) =
      writeAll c i (off + min n (c.data.length - off)) := if_neg (by omega)
  have htake : c.data.take (off + n) = c.data.take (off + min n (c.data.length - off)) := by
    rw [List.take_eq_take_iff]
    omega
  rw [hout, Advances, hnext]
  refine ⟨progress_writeAll (hready.write _) ?_, ?_⟩
  · rw [hd, writeAt_take hoff.le, htake]
    exact Function.update_self _ _ _
  · refine (cost_writeAll c _ _).trans_lt ?_
    simp only [cost]
    omega

theorem Unobstructed.read (h : Unobstructed c f t) (hm : Made u.toImage c.cwd c.dir)
    (hheld : ∀ l ∈ (c.dir.loc c.cwd).tails, u.entry l = some .dir) (hf : c.path.trailing = false)
    {i : ℕ} (hi : u.entry c.target = some (.file i)) (hd : u.data i = c.data) :
    u.read c.cwd c.path = some c.data := by
  have hname := Call.fileName_path h.named
  rw [Image.read_eq ⟨h.enter_path hm, by simp [hname], hf⟩, ← hd]
  refine Image.lookup_file hi ?_
  have htarget : c.path.loc c.cwd = f :: c.dir.loc c.cwd := Call.target_eq h.named
  rw [htarget, List.tails_cons, List.tail_cons]
  exact hheld

theorem advances_rename (h : Unobstructed c f t) (hp : Progress c f t u .rename) (n : ℕ) :
    Advances c f t u .rename (NameLimit.outcome long u c.cwd (.go n) (.rename c.tmpPath c.path)) := by
  obtain ⟨i, hready, hd⟩ := hp
  have hfits : ∀ p ∈ paths (.rename c.tmpPath c.path), Fits long p := by
    intro p hp
    rcases List.mem_pair.mp hp with rfl | rfl
    · exact h.fits_tmpPath (long_tmpName.mpr hready.room.width)
    · exact h.fits
  rw [outcome_fits hfits, Volume.outcome, Volume.plan_rename (h.enter_tmpPath hready.made)
    (h.enter_path hready.made) hready.tmp (by simp [Call.fileName_path h.named]) rfl]
  split_ifs with hdir htr hsame
  · exact ⟨fun hboth => hboth.2.apart (hready.target.mp hdir), Nat.succ_pos _⟩
  · refine ⟨fun hboth => ?_, Nat.succ_pos _⟩
    rw [hboth.2.file] at htr
    cases htr
  all_goals
    have haimed : Aimed c := ⟨by simpa using htr, fun habove => hdir (hready.target.mpr habove)⟩
  · -- both names are on one inode already
    exact ⟨⟨hready.room, haimed, h.read hready.made hready.held haimed.file hsame hd⟩,
      Nat.lt_succ_self _⟩
  · have hkeep : ∀ l, u.entry l = some .dir →
        (u.apply (.rename c.tmp c.target)).entry l = some .dir := by
      intro l hl
      have htmp : l ≠ c.tmp := by
        rintro rfl
        cases hready.tmp.symm.trans hl
      have htarget : l ≠ c.target := by
        rintro rfl
        exact hdir hl
      rw [Volume.entry_apply (by simp [Change.touches, htmp, htarget]), hl]
    have hne := Call.tmp_ne_target (c := c) (by simp [h.named])
    refine ⟨⟨hready.room, haimed, h.read (hready.made.keep hkeep)
      (fun l hl => hkeep l (hready.held l hl)) haimed.file ?_ hd⟩, Nat.lt_succ_self _⟩
    rw [← hready.tmp]
    exact Volume.entry_rename hne

theorem advances_openDir (h : Unobstructed c f t) (hp : Progress c f t u .openDir) (n : ℕ) :
    Advances c f t u .openDir (NameLimit.outcome long u c.cwd (.go n) (.openFile c.dir)) := by
  have hfits : ∀ p ∈ paths (.openFile c.dir), Fits long p := by
    intro p hp
    rw [List.mem_singleton.mp hp]
    exact h.fits_dir
  rw [outcome_fits hfits]
  rcases u.outcome_openFile c.cwd (.go n) c.dir with ⟨e, ho⟩ | ⟨-, ⟨ho, -⟩ | ⟨i, ho, -⟩⟩
  · rw [ho]
    exact ⟨hp, Nat.succ_pos _⟩
  · rw [ho]
    exact ⟨hp, Nat.lt_succ_self _⟩
  · rw [ho]
    exact ⟨hp, Nat.lt_succ_self _⟩

theorem advances_step (h : Unobstructed c f t) {s : Stage} {r : Request OsStr}
    (hp : Progress c f t u s) (hr : issue c s = some r) {n : ℕ} (hn : 0 < n) :
    Advances c f t u s (NameLimit.outcome long u c.cwd (.go n) r) := by
  cases s with
  | mkdirs m => exact advances_mkdirs h hp hr n
  | create =>
    obtain rfl : .create c.tmpPath = r := Option.some.inj hr
    exact advances_create h hp n
  | write i off =>
    obtain rfl : .write i off (c.data.drop off) = r := Option.some.inj hr
    exact advances_write hp hn
  | flush i =>
    obtain rfl : .flush i = r := Option.some.inj hr
    rw [outcome_pathless rfl]
    exact ⟨hp, Nat.lt_succ_self _⟩
  | sync i =>
    obtain rfl : .fsync (.file i) = r := Option.some.inj hr
    rw [outcome_pathless rfl]
    exact ⟨⟨i, hp⟩, Nat.lt_succ_self _⟩
  | rename =>
    obtain rfl : .rename c.tmpPath c.path = r := Option.some.inj hr
    exact advances_rename h hp n
  | openDir =>
    obtain rfl : .openFile c.dir = r := Option.some.inj hr
    exact advances_openDir h hp n
  | syncDir d =>
    obtain rfl : .fsync d = r := Option.some.inj hr
    rw [outcome_pathless rfl]
    cases d with
    | file i => exact ⟨hp, Nat.lt_succ_self _⟩
    | dir l => exact ⟨hp, Nat.lt_succ_self _⟩
  | done x => cases hr

theorem cost_start (h : Unobstructed c f t) : cost c (start c) ≤ budget c := by
  have hstart := CreateDirAll.cost_start c.dir
  rw [start_eq h]
  refine (cost_mkdirs c _).trans ?_
  unfold budget
  omega

end Step

/-- A file of the root directory whose name has so many bytes. -/
def ofWidth (n : ℕ) : Call := ⟨⟨true, [.normal (List.replicate n 0x61)], false⟩, [1], 7, some 12, []⟩

theorem unobstructed_ofWidth {n : ℕ} (hn : n ≤ maxName) :
    Unobstructed (ofWidth n) (List.replicate n 0x61) .empty where
  named := by
    have hascii : bytes (String.ofList (List.replicate n 'a')) = List.replicate n 0x61 := by
      rw [bytes, String.toList_ofList, Utf8.encode_ascii, List.map_replicate]
      · rfl
      · intro c hc
        rw [List.eq_of_mem_replicate hc]
        decide
    have hstr := toStr_bytes (String.ofList (List.replicate n 'a'))
    rw [hascii] at hstr
    simp [Call.fileName, ofWidth, Path.fileName, hstr]
  fits := by
    refine List.forall_mem_singleton.mpr ?_
    simpa [tooLong, long] using hn
  rooted := Volume.rooted_empty
  base := Volume.rooted_empty.root
  free _ _ _ hi := absurd (Volume.empty.fresh hi) (Nat.not_lt_zero _)
  target := by
    simp [Call.target, Path.loc, ofWidth, Path.locate, Volume.empty]

def tenRequests : List Choice := List.replicate 10 (.go 1)

theorem unfailing_tenRequests : Unfailing tenRequests :=
  fun _ hk => ⟨1, Nat.one_pos, List.eq_of_mem_replicate hk⟩

end Nyx.Atomic
