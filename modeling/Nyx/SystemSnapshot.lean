import Nyx.SystemOrder
import Nyx.SystemTurns

/-! What a process hashes while others write: the whole content that its file had when it was
opened, and never parts of two. How many turns that takes is settled by then, so that no process
can prolong it by writing more. -/
namespace Nyx.System
open FileTree Interaction Text
open Hash (Blake3 hashBytes)

/-- What a process knows of the file it hashes; its path leads to the place, and to no other
name of the file. -/
def Reads {H : Type} (B : Blake3 H) (l : Loc OsStr) (fresh : Prop) (seen : Bytes → Prop)
    (t : Volume OsStr) : Stage H → Prop
  | .hash .opening _ _ => fresh
  | .hash (.reading h buf) (some (.file x)) off => seen (t.data x) ∧ x < t.next ∧ t.Sole x l ∧
      h = B.update B.new ((t.data x).take off) ∧ buf.length = Hash.bufLen
  | .hash (.done (.ok h)) _ _ => ∃ d, seen d ∧ h = hashBytes B d
  | _ => True

section Step
variable {H : Type} {B : Blake3 H} {l : Loc OsStr} {fresh : Prop} {seen : Bytes → Prop}
  {t u : Volume OsStr}

theorem Reads.mono {fresh' : Prop} {seen' : Bytes → Prop} {p : Stage H}
    (h : Reads B l fresh seen t p) (hf : ∀ file off, p = .hash .opening file off → fresh → fresh')
    (hs : ∀ d, seen d → seen' d)
    (ht : ∀ x, x < t.next → t.Sole x l → x < u.next ∧ u.Sole x l ∧ u.data x = t.data x) :
    Reads B l fresh' seen' u p := by
  cases p with
  | layout | write => trivial
  | hash s file off =>
    cases s with
    | opening => exact hf file off rfl h
    | reading hasher buf =>
      match file with
      | some (.file x) =>
        obtain ⟨hseen, hx, hsole, hhash, hbuf⟩ := h
        obtain ⟨hx', hsole', hdata⟩ := ht x hx hsole
        rw [← hdata] at hseen hhash
        exact ⟨hs _ hseen, hx', hsole', hhash, hbuf⟩
      | some (.dir _) | none => trivial
    | done r =>
      cases r with
      | error e => trivial
      | ok hash =>
        obtain ⟨d, hd, hhash⟩ := h
        exact ⟨d, hs d hd, hhash⟩

/-- A file stays as it is that has no name but one that no call uses for its temporary file. -/
theorem touch_file {c : Atomic.Call} {s : Atomic.Stage} {δ : Change OsStr}
    (h : Atomic.Touch c t s δ) (hl : s = .create ∨ s.holding = true → l ≠ c.tmp) {x : ℕ}
    (hx : x < t.next) (hs : t.Sole x l) :
    x < (t.apply δ).next ∧ (t.apply δ).Sole x l ∧ (t.apply δ).data x = t.data x := by
  cases h with
  | quiet h => rw [Volume.apply_quiet t h]; exact ⟨hx, hs, rfl⟩
  | @mkdir m k absent =>
    refine ⟨hx, fun n hn => hs n ?_, rfl⟩
    by_cases hnk : n = k
    · subst hnk
      simp [Volume.apply] at hn
    · rwa [Volume.entry_apply (by simpa [Change.touches] using hnk)] at hn
  | create named absent =>
    refine ⟨Nat.lt_succ_of_lt hx, fun n hn => hs n ?_, Volume.data_apply (by simp) hx⟩
    by_cases hnk : n = c.tmp
    · subst hnk
      simp only [Volume.apply, Function.update_self, Option.some.injEq, Node.file.injEq] at hn
      omega
    · rwa [Volume.entry_apply (by simpa [Change.touches] using hnk)] at hn
  | @write s i d scratch stage =>
    have hne : x ≠ i := by
      rintro rfl
      have hholds : s = .create ∨ s.holding = true := by
        rcases stage with rfl | ⟨off, rfl⟩
        · exact Or.inl rfl
        · exact Or.inr rfl
      exact hl hholds (hs _ scratch.entry).symm
    exact ⟨hx, hs, Function.update_of_ne hne _ _⟩
  | @rename i scratch full plain =>
    have htmp : l ≠ c.tmp := hl (Or.inr rfl)
    refine ⟨hx, fun n hn => ?_, rfl⟩
    by_cases hna : n = c.tmp
    · simp [Volume.apply, hna] at hn
    · by_cases hnb : n = c.target
      · subst hnb
        rw [Volume.entry_rename (Ne.symm hna)] at hn
        exact absurd (hs _ hn).symm htmp
      · rw [Volume.entry_apply (by simp [Change.touches, hna, hnb])] at hn
        exact hs n hn

theorem take_read (d : Bytes) (off m : ℕ) :
    d.take off ++ (d.drop off).take m = d.take (off + ((d.drop off).take m).length) := by
  rw [List.take_add, List.length_take, ← List.take_eq_take_min]

/-- One turn of the process itself. -/
theorem reads_turn (hB : B.Lawful) {path : Path OsStr} {cwd : Loc OsStr} {s : Hash.Stage H}
    {file : Option (Handle OsStr)} {off : ℕ} {r : Request} (ht : t.Linkless)
    (hr : issue (.hash path cwd) (.hash s file off) = some r) (k : Choice)
    (h : Reads B (path.loc cwd) fresh seen t (.hash s file off))
    (hopen : fresh → ∀ d, t.content (path.loc cwd) = some d → seen d) :
    Reads B (path.loc cwd) False seen t
      (resume B (.hash path cwd) (.hash s file off) (reply t cwd k r)) := by
  cases s with
  | opening =>
    obtain rfl : .tree (.openFile path) = r := Option.some.inj hr
    rcases t.outcome_openFile cwd k path with ⟨e, ho⟩ | ⟨-, ⟨ho, -⟩ | ⟨x, ho, hx⟩⟩
    · rw [reply, ho]
      trivial
    · rw [reply, ho]
      trivial
    · rw [reply, ho]
      refine ⟨hopen h _ (Image.content_file hx), t.fresh hx, ht _ _ hx, ?_, List.length_replicate⟩
      rw [List.take_zero, hB.update_nil]
  | reading hasher buf =>
    obtain rfl : .read file off buf.length = r := Option.some.inj hr
    cases k with
    | fail e => trivial
    | go n =>
      match file with
      | some (.file x) =>
        obtain ⟨hseen, hx, hsole, rfl, hbuf⟩ := h
        simp only [reply, readAt, resume, Hash.resume, Hash.absorb]
        split_ifs with hend
        · have hall : (t.data x).take off = t.data x := by
            rw [hbuf, List.length_take, List.length_drop] at hend
            rw [List.take_of_length_le]
            unfold Hash.bufLen at hend
            omega
          refine ⟨_, hseen, ?_⟩
          rw [hall, hashBytes, hB.hash_eq]
        · refine ⟨hseen, hx, hsole, ?_, ?_⟩
          · rw [hB.update_append, List.take_left', take_read]
            rfl
          · rw [List.length_append, List.length_drop, List.length_take]
            omega
      | some (.dir _) | none => trivial
  | done x => cases hr

end Step

section Run
variable {H ι : Type} [DecidableEq ι] (B : Blake3 H) (tasks : ι → Task) (t : Volume OsStr)
  (l : Loc OsStr) (i : ι)

/-- The process has had its first turn, and at that time the calls that had taken effect by then
had left these bytes at the place. -/
def Opened (ms : List (Move ι Choice)) (d : Bytes) : Prop :=
  ∃ ls k ns, ms = ls ++ .act i k :: ns ∧ (∀ k, .act i k ∉ ls) ∧
    (order B tasks t ls).foldl (publish tasks) t.content l = some d

variable {B tasks t l i}

theorem Opened.append {ms : List (Move ι Choice)} {d : Bytes} (h : Opened B tasks t l i ms d)
    (ns : List (Move ι Choice)) : Opened B tasks t l i (ms ++ ns) d := by
  obtain ⟨ls, k, ms', rfl, hfirst, hd⟩ := h
  exact ⟨ls, k, ms' ++ ns, by simp, hfirst, hd⟩

/-- What any move, of whatever process, leaves of a file that is being read. -/
theorem keeps_file {published : List ι} {s : Processes ι H} (h : Linear tasks t published s)
    (hl : Lasting tasks l) (m : Move ι Choice) {x : ℕ} (hx : x < s.world.next)
    (hs : s.world.Sole x l) : x < (step B tasks s m).world.next ∧
      (step B tasks s m).world.Sole x l ∧ (step B tasks s m).world.data x = s.world.data x := by
  cases m with
  | kill j => exact ⟨hx, hs, rfl⟩
  | act j k =>
    rcases idle_or_issues (fun i => program B (tasks i)) s j with hidle | ⟨p, r, hp, hr⟩
    · rw [step, move_idle _ _ hidle]
      exact ⟨hx, hs, rfl⟩
    · obtain ⟨c, u, hi⟩ := h.issues hp hr k
      rw [hi.step_eq B]
      exact touch_file hi.touch (fun hu => hl j c (hi.named hu).1 (hi.named hu).2) hx hs

theorem reads_run (ht : t.Linkless) (hB : B.Lawful)
    (hn : ∀ i c, tasks i = .write c → Lasting tasks c.target) {path : Path OsStr} {cwd : Loc OsStr}
    (hi : tasks i = .hash path cwd) (hl : Lasting tasks (path.loc cwd)) (ms : List (Move ι Choice))
    (hc : AllClear B tasks t ms) {p : Stage H} (hp : (runAll B tasks t ms).stage i = some p) :
    Reads B (path.loc cwd) (∀ k, .act i k ∉ ms) (Opened B tasks t (path.loc cwd) i ms)
      (runAll B tasks t ms).world p := by
  induction ms using List.reverseRecOn generalizing p with
  | nil =>
    obtain rfl : (tasks i).start = p := Option.some.inj hp
    rw [hi]
    exact fun k => List.not_mem_nil
  | append_singleton ms m ih =>
    obtain ⟨hms, -⟩ := guarded_append.mp hc
    have hlinear := linear_run B tasks t ht hn ms hms
    have hkeep : ∀ x, x < (runAll B tasks t ms).world.next →
        (runAll B tasks t ms).world.Sole x (path.loc cwd) → _ :=
      fun x hx hs => keeps_file (B := B) hlinear hl m hx hs
    have hrun : runAll B tasks t (ms ++ [m]) = step B tasks (runAll B tasks t ms) m :=
      interleave_append _ _ _
    rw [hrun] at hp ⊢
    rcases move_stage hp with ⟨hstage, hidle⟩ | ⟨k, u, r, rfl, hu, hr, rfl⟩
    · refine (ih hms hstage).mono (fun file off hopen hfresh k hk => ?_) (fun d hd => hd.append [m]) hkeep
      rcases List.mem_append.mp hk with hk | hk
      · exact hfresh k hk
      · obtain rfl := List.mem_singleton.mp hk
        have hissue : issue (tasks i) p = none := hidle k rfl
        rw [hopen, hi] at hissue
        cases hissue
    · have hsound := hlinear.sound i u hu
      have hbefore := (ih hms hu).mono (fun _ _ _ hfresh => hfresh)
        (fun d hd => hd.append [.act i k]) fun x hx hs => ⟨hx, hs, rfl⟩
      rw [hi] at hsound
      cases u with
      | layout | write => exact hsound.elim
      | hash s file off =>
        replace hr : issue (tasks i) (.hash s file off) = some r := hr
        rw [hi] at hr
        have hturn := reads_turn hB hlinear.linkless hr k hbefore fun hfresh d hd =>
          ⟨ms, k, [], rfl, hfresh, by rw [← hlinear.content _ hl, hd]⟩
        simp only [program, respond, hi, Task.cwd]
        exact hturn.mono (fun _ _ _ hno => hno.elim) (fun d hd => hd) hkeep

end Run

/-- Two calls for one path at different readings of the clock. -/
def watchedCall (i : Fin 3) : Atomic.Call :=
  ⟨⟨false, [.normal (bytes "m")], false⟩, if i = 1 then bytes "abc" else [1, 2], 7,
    some (10 + i.val), []⟩

/-- A process hashes what the two calls write. -/
def watched (i : Fin 3) : Task :=
  if i = 0 then .hash ⟨false, [.normal (bytes "m")], false⟩ [] else .write (watchedCall i)

/-- The second call takes effect when the file has been opened and two of its bytes read. -/
def overtaken : List (Move (Fin 3) Choice) :=
  List.replicate 6 (.act 1 (.go 9)) ++ [.act 0 (.go 0), .act 0 (.go 1)] ++
    List.replicate 5 (.act 2 (.go 9)) ++ List.replicate 2 (.act 0 (.go 9))

theorem watched_write {i : Fin 3} {c : Atomic.Call} (h : watched i = .write c) :
    c = watchedCall i ∧ i ≠ 0 := by
  unfold watched at h
  split_ifs at h with hi
  exact ⟨(Task.write.inj h).symm, hi⟩

theorem watched_lasting : Lasting watched [bytes "m"] := by
  intro i c hi _
  rw [(watched_write hi).1]
  have hne : ∀ i, [bytes "m"] ≠ (watchedCall i).tmp := by decide +kernel
  exact hne i

theorem watched_targets (i : Fin 3) (c : Atomic.Call) (hi : watched i = .write c) :
    Lasting watched c.target := by
  have htarget : ∀ i, (watchedCall i).target = [bytes "m"] := by decide +kernel
  rw [(watched_write hi).1, htarget]
  exact watched_lasting

theorem watched_clear (ms : List (Move (Fin 3) Choice)) :
    AllClear Hash.table watched .empty ms := by
  refine allClear_of_distinct _ _ (fun i j c d hij hi hj => ?_) ms
  obtain ⟨rfl, hi'⟩ := watched_write hi
  obtain ⟨rfl, hj'⟩ := watched_write hj
  have hne : ∀ i j, i ≠ j → i ≠ 0 → j ≠ 0 → (watchedCall i).tmp ≠ (watchedCall j).tmp := by
    decide +kernel
  exact hne i j hij hi' hj'

/-- How many more turns a process takes that hashes a file of at most so many bytes. -/
def hashCost {H : Type} (n : ℕ) : Stage H → ℕ
  | .hash .opening _ _ => n + 2
  | .hash (.reading ..) (some (.file _)) off => n - off + 1
  | .hash (.reading ..) _ _ => 1
  | .hash (.done _) _ _ | .layout _ | .write _ => 0

/-- No request of the process has failed. -/
def Unfailed {H : Type} : Stage H → Prop
  | .hash .opening _ _ | .hash (.reading ..) (some (.file _)) _ | .hash (.done (.ok _)) _ _ => True
  | _ => False

section Turn
variable {H : Type} {B : Blake3 H} {path : Path OsStr} {cwd : Loc OsStr} {t : Volume OsStr}
  {s : Hash.Stage H} {file : Option (Handle OsStr)} {off n : ℕ} {r : Request}

theorem hashCost_pos (hr : issue (.hash path cwd) (.hash s file off) = some r) :
    0 < hashCost n (.hash s file off) := by
  cases s with
  | opening => exact Nat.succ_pos _
  | reading hasher buf =>
    rcases file with _ | x | d
    · exact Nat.one_pos
    · exact Nat.succ_pos _
    · exact Nat.one_pos
  | done x => cases hr

/-- A read brings the end nearer by the bytes it gives, and at the end it gives none. -/
theorem hashCost_turn (hr : issue (.hash path cwd) (.hash s file off) = some r)
    (hn : ∀ hasher buf x, s = .reading hasher buf → file = some (.file x) →
      (t.data x).length ≤ n) (k : Choice) :
    hashCost n (resume B (.hash path cwd) (.hash s file off) (reply t cwd k r)) + 1 ≤
      hashCost n (.hash s file off) := by
  cases s with
  | opening =>
    obtain rfl : .tree (.openFile path) = r := Option.some.inj hr
    rcases t.outcome_openFile cwd k path with ⟨e, ho⟩ | ⟨-, ⟨ho, -⟩ | ⟨x, ho, -⟩⟩ <;>
      simp [reply, ho, resume, Hash.resume, hashCost]
  | reading hasher buf =>
    obtain rfl : .read file off buf.length = r := Option.some.inj hr
    cases k with
    | fail e => exact hashCost_pos hr
    | go m =>
      rcases file with _ | x | d
      · simp [reply, readAt, resume, Hash.resume, hashCost]
      · have hlen := hn hasher buf x rfl rfl
        simp only [reply, readAt, resume, Hash.resume, Hash.absorb]
        split_ifs with hend
        · simp [hashCost]
        · rw [List.length_take, List.length_drop] at hend
          simp only [hashCost, List.length_take, List.length_drop]
          omega
      · simp [reply, readAt, resume, Hash.resume, hashCost]
  | done x => cases hr

/-- The first turn opens the file that its path leads to, and no later one fails by itself. -/
theorem unfailed_turn (hr : issue (.hash path cwd) (.hash s file off) = some r)
    (h : Unfailed (.hash s file off)) (hopen : s = .opening → t.Reaches cwd path ∧
      t.content (path.loc cwd) ≠ none) (m : ℕ) :
    Unfailed (resume B (.hash path cwd) (.hash s file off) (reply t cwd (.go m) r)) := by
  cases s with
  | opening =>
    obtain rfl : .tree (.openFile path) = r := Option.some.inj hr
    obtain ⟨hreach, hfound⟩ := hopen rfl
    rcases t.outcome_openFile cwd (.go m) path with ⟨e, ho⟩ | ⟨-, ⟨-, hdir⟩ | ⟨x, ho, -⟩⟩
    · simp only [Volume.outcome, Volume.plan, hreach.1] at ho
      split at ho
      · exact absurd (Image.content_none ‹_›) hfound
      · cases ho
      · cases ho
    · exact absurd (Image.content_dir hdir) hfound
    · rw [reply, ho]
      trivial
  | reading hasher buf =>
    obtain rfl : .read file off buf.length = r := Option.some.inj hr
    rcases file with _ | x | d
    · exact h.elim
    · simp only [reply, readAt, resume, Hash.resume, Hash.absorb]
      split_ifs <;> trivial
    · exact h.elim
  | done x => cases hr

end Turn

section Run
variable {H ι : Type} [DecidableEq ι] {B : Blake3 H} {tasks : ι → Task} {t : Volume OsStr}
  {i : ι} {path : Path OsStr} {cwd : Loc OsStr}

/-- What a process has opened is what the place had before its first turn. -/
theorem Opened.content_before (ht : t.Linkless)
    (hn : ∀ i c, tasks i = .write c → Lasting tasks c.target) {l : Loc OsStr}
    (hl : Lasting tasks l) {ms : List (Move ι Choice)} (hc : AllClear B tasks t ms) {d : Bytes}
    (h : Opened B tasks t l i ms d) :
    (runAll B tasks t (before i ms)).world.content l = some d := by
  obtain ⟨ls, k, ns, rfl, hfirst, hd⟩ := h
  obtain ⟨hls, -⟩ := guarded_append.mp hc
  rw [before_eq hfirst, (linear_run B tasks t ht hn ls hls).content l hl, hd]

/-- A process that hashes is at a stage of hashing. -/
theorem stage_hash (hi : tasks i = .hash path cwd) {ms : List (Move ι Choice)} {p : Stage H}
    (hp : (runAll B tasks t ms).stage i = some p) : ∃ s file off, p = .hash s file off := by
  have h := possible_run B tasks t ms i p hp
  rw [hi] at h
  cases p with
  | layout | write => exact h.elim
  | hash s file off => exact ⟨s, file, off, rfl⟩

section Reader
variable (ht : t.Linkless) (hB : B.Lawful)
  (hn : ∀ i c, tasks i = .write c → Lasting tasks c.target) (hi : tasks i = .hash path cwd)
  (hl : Lasting tasks (path.loc cwd)) {ms : List (Move ι Choice)} (hc : AllClear B tasks t ms)
include ht hB hn hi hl hc

theorem hash_returned {n : ℕ}
    (hlen : ∀ d, (runAll B tasks t (before i ms)).world.content (path.loc cwd) = some d →
      d.length ≤ n) (hturns : n + 2 ≤ turns (fun _ => true) i ms) {p : Stage H}
    (hp : (runAll B tasks t ms).stage i = some p) : issue (tasks i) p = none := by
  by_contra hopen
  obtain ⟨r, hr⟩ := Option.ne_none_iff_exists'.mp hopen
  have hbound := turns_bounded_along (P := fun i => program B (tasks i))
    (K := fun i => respond (tasks i).cwd) (Q := fun _ => true) (hashCost n)
    (s := processes tasks t) rfl ms (fun ls k ns u q hms hu hq => ?_) hp hopen
  · obtain ⟨s, file, off, rfl⟩ := stage_hash hi hp
    rw [hi] at hr
    have hpos := hashCost_pos (n := n) hr
    have hstart : hashCost n ((tasks i).start : Stage H) = n + 2 := by
      rw [hi]
      rfl
    omega
  · obtain ⟨s, file, off, rfl⟩ := stage_hash hi hu
    replace hq : issue (tasks i) (.hash s file off) = some q := hq
    have hls : AllClear B tasks t ls := (guarded_append.mp (hms ▸ hc)).1
    have hreads := reads_run ht hB hn hi hl ls hls hu
    simp only [program, respond, hi, Task.cwd, if_true] at hq ⊢
    refine hashCost_turn hq (fun hasher buf x hs hx => ?_) k
    subst hs hx
    have hseen := hreads.1.append (.act i k :: ns)
    rw [← hms] at hseen
    exact hlen _ (hseen.content_before ht hn hl hc)

/-- Where none of its requests is made to fail and its path led to a file at its first turn. -/
theorem unfailed_run (hgo : ∀ e, .act i (.fail e) ∉ ms)
    (hreach : (runAll B tasks t (before i ms)).world.Reaches cwd path)
    (hfound : (runAll B tasks t (before i ms)).world.content (path.loc cwd) ≠ none)
    (ls ns : List (Move ι Choice)) (hms : ms = ls ++ ns) {p : Stage H}
    (hp : (runAll B tasks t ls).stage i = some p) : Unfailed p := by
  induction ls using List.reverseRecOn generalizing ns p with
  | nil =>
    obtain rfl : (tasks i).start = p := Option.some.inj hp
    rw [hi]
    trivial
  | append_singleton ls m ih =>
    have hms' : ms = ls ++ m :: ns := by simp [hms]
    rw [runAll, interleave_append] at hp
    rcases move_stage hp with ⟨h, -⟩ | ⟨k, u, r, rfl, hu, hr, rfl⟩
    · exact ih _ hms' h
    · have hwell := ih _ hms' hu
      obtain ⟨s, file, off, rfl⟩ := stage_hash hi hu
      have hls : AllClear B tasks t ls := (guarded_append.mp (hms' ▸ hc)).1
      have hreads := reads_run ht hB hn hi hl ls hls hu
      cases k with
      | fail e => exact absurd (by simp [hms']) (hgo e)
      | go m =>
        replace hr : issue (tasks i) (.hash s file off) = some r := hr
        simp only [program, respond, hi, Task.cwd] at hr ⊢
        refine unfailed_turn hr hwell (fun hs => ?_) m
        subst hs
        have hfirst : before i ms = ls := by rw [hms', before_eq hreads]
        rw [hfirst] at hreach hfound
        exact ⟨hreach, hfound⟩

end Reader

variable (B)

end Run

/-- The file is read one byte at a time, three turns of which come after it was overtaken. -/
def patient : List (Move (Fin 3) Choice) :=
  List.replicate 6 (.act 1 (.go 9)) ++ [.act 0 (.go 0), .act 0 (.go 0)] ++
    List.replicate 5 (.act 2 (.go 9)) ++ List.replicate 3 (.act 0 (.go 0))

end Nyx.System
