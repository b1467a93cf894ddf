import Nyx.AtomicLimit
import Nyx.LayoutPaths
import Nyx.SystemSnapshot

/-! From the layout to a file in it: once `ensure_layout` has returned Ok, `write_atomic` puts a
file into any of its directories, and `hash_file` gives the hash of what was written. No name may
be longer than 255 bytes. -/
namespace Nyx.LayoutFiles
open FileTree Interaction Text PathBuf NameLimit
open CreateDirAll (Serves Tower Made Above)
open Atomic (Call Unfailing Unobstructed Room Aimed Progress limitedCall)
open Hash (Blake3 hashBytes)

/-- `ensure_layout` where names are limited. -/
def limitedLayout (paths : Layout.NyxPaths) (cwd : Loc OsStr) (ks : List Choice)
    (t : Volume OsStr) : Config Choice (Request OsStr) (Reply OsStr) (Volume OsStr) Layout.Stage :=
  run Layout.program (NameLimit.respond Atomic.long cwd) ⟨t, Layout.start paths, []⟩ ks

def respond (cwd : Loc OsStr) (ch : Choice) :
    System.Request → Volume OsStr → System.Reply × Volume OsStr
  | .tree r, t =>
    (.tree (NameLimit.respond Atomic.long cwd ch r t).1, (NameLimit.respond Atomic.long cwd ch r t).2)
  | r, t => System.respond cwd ch r t

/-- `hash_file` over a file tree where names are limited, on its own. -/
def limitedHash {H : Type} (B : Blake3 H) (path : Path OsStr) (cwd : Loc OsStr) (ks : List Choice)
    (t : Volume OsStr) :
    Config Choice System.Request System.Reply (Volume OsStr) (System.Stage H) :=
  run (System.program B (.hash path cwd)) (respond cwd) ⟨t, .hash .opening none 0, []⟩ ks

section Layout
variable {paths : Layout.NyxPaths} {cwd : Loc OsStr} {t : Volume OsStr}

theorem fits_foldl {p : Path OsStr} (h : Fits Atomic.long p) {xs : List OsStr}
    (hxs : ∀ x ∈ xs, Atomic.long x = false) : Fits Atomic.long (xs.foldl Path.join p) := by
  induction xs generalizing p with
  | nil => exact h
  | cons x xs ih =>
    exact ih (h.join (hxs x List.mem_cons_self)) fun y hy => hxs y (List.mem_cons_of_mem _ hy)

/-- The layout adds no long name to its root. -/
theorem fits_dirs (h : Fits Atomic.long paths.root) : ∀ d ∈ paths.dirs, Fits Atomic.long d := by
  have hetc : Fits Atomic.long paths.etcDir := fits_foldl h (by decide +kernel)
  have hlib : Fits Atomic.long paths.libDir := fits_foldl h (by decide +kernel)
  have hcache : Fits Atomic.long paths.cacheDir := fits_foldl h (by decide +kernel)
  simp only [Layout.NyxPaths.dirs, List.forall_mem_cons]
  exact ⟨hetc, hetc.join (by decide +kernel), hetc.join (by decide +kernel),
    hetc.join (by decide +kernel), hetc.join (by decide +kernel), hetc.join (by decide +kernel), hlib,
    hlib.join (by decide +kernel), hlib.join (by decide +kernel), hlib.join (by decide +kernel),
    hlib.join (by decide +kernel), hlib.join (by decide +kernel), hcache,
    hcache.join (by decide +kernel), hcache.join (by decide +kernel), hcache.join (by decide +kernel),
    hcache.join (by decide +kernel), fun d hd => absurd hd List.not_mem_nil⟩

theorem outcome_serves {goal : Path OsStr} (hfits : Fits Atomic.long goal)
    {m : CreateDirAll.Stage OsStr} {r : Request OsStr} (hs : Serves goal m)
    (hr : CreateDirAll.issue m = some r) (ch : Choice) :
    NameLimit.outcome Atomic.long t cwd ch r = t.outcome cwd ch r := by
  refine outcome_fits (fun p hp => ?_) ch
  cases m with
  | mkdir d below again =>
    obtain rfl : .mkdir d = r := Option.some.inj hr
    rw [List.mem_singleton.mp hp]
    exact hfits.of_suffix (Tower.within hs).2
  | isDir d below again e =>
    obtain rfl : .isDir d = r := Option.some.inj hr
    rw [List.mem_singleton.mp hp]
    exact hfits.of_suffix (Tower.within hs).2
  | done x => cases hr

/-- Where the names of the root are short the layout is made as it is without a limit. -/
theorem limitedLayout_eq (h : Fits Atomic.long paths.root) (ks : List Choice) :
    limitedLayout paths cwd ks t = Layout.ensureLayout paths cwd ks t := by
  refine run_congr
    (fun s => System.OnTask (.layout paths cwd) (.layout s : System.Stage Unit))
    (fun s r hs hr k w => ?_) (fun s a hs => ?_) _ ks (System.onTask_start (.layout paths cwd))
  · cases s with
    | making s rest =>
      obtain ⟨⟨d, hd, hs⟩, -⟩ := hs
      rw [NameLimit.respond, outcome_serves (fits_dirs h d hd) hs hr]
      rfl
    | done x => cases hr
  · cases s with
    | making s rest =>
      obtain ⟨⟨d, hd, hs⟩, hrest⟩ := hs
      exact System.onTask_next ⟨d, hd, CreateDirAll.serves_resume hs a⟩ hrest
    | done x => exact hs

end Layout

section Write
variable {c : Call} {f : OsStr} {t : Volume OsStr}

/-- A call that nothing is in the way of, and that has room, writes its file. -/
theorem limited_write (h : Unobstructed c f t) (hroom : Room c f t) (haimed : Aimed c)
    {ks : List Choice} (hks : Unfailing ks) (hlen : Atomic.budget c ≤ ks.length) :
    (limitedCall c ks t).stage = .done (.ok ()) ∧
      (limitedCall c ks t).world.read c.cwd c.path = some c.data := by
  obtain ⟨hissue, hp⟩ := run_returns (P := Atomic.program c)
    (K := NameLimit.respond Atomic.long c.cwd) (Atomic.cost c) (fun k => ∃ n, 0 < n ∧ k = .go n)
    (fun r : Atomic.Run (Volume OsStr) => Progress c f t r.world r.stage)
    (fun _ _ => Atomic.cost_pos)
    (fun r k q hq hk hr => by
      obtain ⟨n, hn, rfl⟩ := hk
      rw [advance_issued hq]
      exact Atomic.advances_step h hr hq hn)
    ⟨t, Atomic.start c, []⟩ ks hks (Atomic.progress_start h) ((Atomic.cost_start h).trans hlen)
  change Atomic.issue c (limitedCall c ks t).stage = none at hissue
  change Progress c f t (limitedCall c ks t).world (limitedCall c ks t).stage at hp
  cases hstage : (limitedCall c ks t).stage with
  | done x =>
    rw [hstage] at hp
    cases x with
    | ok _ => exact ⟨rfl, hp.read⟩
    | error e => exact absurd ⟨hroom, haimed⟩ hp
  | mkdirs m =>
    rw [hstage] at hp hissue
    exact absurd hissue hp.1
  | create | write | flush | sync | rename | openDir | syncDir =>
    rw [hstage] at hissue
    cases hissue

end Write

section Hashing
variable {H : Type} {B : Blake3 H} {path : Path OsStr} {cwd : Loc OsStr} {t : Volume OsStr}
  {d : Bytes} {i : ℕ}

/-- How far a file has been read and hashed. -/
def Hashing (B : Blake3 H) (d : Bytes) (i : ℕ) : System.Stage H → Prop
  | .hash .opening none off => off = 0
  | .hash (.reading hasher buf) file off => file = some (.file i) ∧
      hasher = B.update B.new (d.take off) ∧ buf.length = Hash.bufLen ∧ off ≤ d.length
  | .hash (.done r) _ _ => r = .ok (hashBytes B d)
  | _ => False

/-- A read takes a byte at least, and the last one finds the end of the file. -/
def cost (d : Bytes) : System.Stage H → ℕ
  | .hash .opening _ _ => d.length + 2
  | .hash (.reading ..) _ off => d.length - off + 1
  | _ => 0

theorem respond_openFile (hfits : Fits Atomic.long path) (henter : t.enter cwd path = none)
    (hi : t.entry (path.loc cwd) = some (.file i)) (n : ℕ) :
    respond cwd (.go n) (.tree (.openFile path)) t = (.tree (.opened (.file i)), t) := by
  have hplain : NameLimit.outcome Atomic.long t cwd (.go n) (.openFile path) =
      (.opened (.file i), .none) := by
    rw [outcome_fits (fun p hp => List.mem_singleton.mp hp ▸ hfits)]
    simp only [Volume.outcome, Volume.plan, henter, hi]
  simp only [respond, NameLimit.respond, hplain]
  rfl

theorem hashing_turn (hB : B.Lawful) (hfits : Fits Atomic.long path)
    (henter : t.enter cwd path = none) (hi : t.entry (path.loc cwd) = some (.file i))
    (hd : t.data i = d) {p : System.Stage H} (hp : Hashing B d i p) {r : System.Request}
    (hr : System.issue (.hash path cwd) p = some r) (n : ℕ) :
    (respond cwd (.go n) r t).2 = t ∧
      Hashing B d i (System.resume B (.hash path cwd) p (respond cwd (.go n) r t).1) ∧
      cost d (System.resume B (.hash path cwd) p (respond cwd (.go n) r t).1) < cost d p := by
  cases p with
  | layout | write => exact hp.elim
  | hash s file off =>
    cases s with
    | done x => cases hr
    | opening =>
      obtain rfl : .tree (.openFile path) = r := Option.some.inj hr
      rw [respond_openFile hfits henter hi]
      refine ⟨rfl, ⟨rfl, ?_, List.length_replicate, Nat.zero_le _⟩, Nat.lt_succ_self _⟩
      rw [List.take_zero, hB.update_nil]
    | reading hasher buf =>
      obtain rfl : .read file off buf.length = r := Option.some.inj hr
      obtain ⟨rfl, rfl, hbuf, hoff⟩ := hp
      subst hd
      refine ⟨rfl, ?_⟩
      have hlen : (((t.data i).drop off).take (min (n + 1) buf.length)).length =
          min (min (n + 1) buf.length) ((t.data i).length - off) := by
        rw [List.length_take, List.length_drop]
      have hbig : 0 < buf.length := by
        rw [hbuf]
        decide
      simp only [respond, System.respond, System.reply, System.readAt, System.resume, Hash.resume,
        Hash.absorb]
      split_ifs with hend
      · -- nothing is left to read
        have hall : (t.data i).take off = t.data i := List.take_of_length_le (by omega)
        refine ⟨?_, Nat.succ_pos _⟩
        rw [Hashing, hall, hashBytes, hB.hash_eq]
      · refine ⟨⟨rfl, ?_, ?_, by omega⟩, ?_⟩
        · rw [hB.update_append, List.take_left', System.take_read]
          rfl
        · rw [List.length_append, List.length_drop, hlen, hbuf]
          omega
        · simp only [cost]
          omega

/-- A file that is there, and is left alone, is hashed in as many reads as it has bytes at most,
and one more to find its end. -/
theorem limitedHash_read (hB : B.Lawful) (hfits : Fits Atomic.long path)
    (hread : t.read cwd path = some d) {ks : List Choice} (hks : Layout.Undisturbed ks)
    (hlen : d.length + 2 ≤ ks.length) :
    ∃ file off, (limitedHash B path cwd ks t).stage = .hash (.done (.ok (hashBytes B d))) file off := by
  obtain ⟨henter, -, -⟩ := Image.read_some hread
  obtain ⟨i, hi, hd⟩ : ∃ i, t.entry (path.loc cwd) = some (.file i) ∧ t.data i = d := by
    rw [Image.read_eq (Image.read_some hread)] at hread
    unfold Image.lookup Image.content at hread
    split_ifs at hread
    split at hread
    · rename_i i hi
      exact ⟨i, hi, Option.some.inj hread⟩
    · cases hread
  obtain ⟨hissue, -, hp⟩ := run_returns (P := System.program B (.hash path cwd))
    (K := respond cwd) (cost d) (fun k => ∃ n, k = .go n)
    (fun r => r.world = t ∧ Hashing B d i r.stage)
    (fun s r hr => by
      cases s with
      | layout | write => cases hr
      | hash s file off =>
        cases s with
        | opening | reading => exact Nat.succ_pos _
        | done x => cases hr)
    (by
      rintro ⟨w, s, log⟩ k q hq ⟨n, rfl⟩ ⟨rfl, hs⟩
      rw [advance_issued hq]
      obtain ⟨hw, hs, hcost⟩ := hashing_turn hB hfits henter hi hd hs hq n
      exact ⟨⟨hw, hs⟩, hcost⟩)
    ⟨t, .hash .opening none 0, []⟩ ks hks ⟨rfl, rfl⟩ hlen
  change System.issue _ (limitedHash B path cwd ks t).stage = none at hissue
  change Hashing B d i (limitedHash B path cwd ks t).stage at hp
  cases hstage : (limitedHash B path cwd ks t).stage with
  | layout | write =>
    rw [hstage] at hp
    exact hp.elim
  | hash s file off =>
    rw [hstage] at hp hissue
    cases s with
    | opening | reading => cases hissue
    | done x =>
      obtain rfl : x = _ := hp
      exact ⟨file, off, rfl⟩

end Hashing

/-- The call is to put a file with a short name into the directory. -/
structure Puts (d f : OsStr) (c : Call) : Prop where
  path : c.path = parse (push d f)
  single : sep ∉ f
  plain : component f = some (.normal f)
  text : (toStr f).isSome
  width : f.length + (decimal c.pid.toNat).length + (decimal c.nanos).length + 7 ≤ Atomic.maxName

section Puts
variable {d f : OsStr} {c : Call}

theorem Puts.path_eq (h : Puts d f c) : c.path = (parse d).join f := by
  rw [h.path, parse_push_name d h.single h.plain]

theorem Puts.named (h : Puts d f c) : c.fileName = some f := by
  obtain ⟨s, hs⟩ := Option.isSome_iff_exists.mp h.text
  simp [Call.fileName, h.path_eq, Path.fileName, Path.join, hs]

theorem Puts.dir_eq (h : Puts d f c) : c.dir = ⟨(parse d).rooted, (parse d).comps, false⟩ := by
  rw [Call.dir_comps (by simp [Call.fileName_path h.named]), h.path_eq]
  rfl

theorem Puts.fits (h : Puts d f c) (hd : Fits Atomic.long (parse d)) :
    Fits Atomic.long c.path := by
  rw [h.path_eq]
  refine hd.join (decide_eq_false ?_)
  have hwidth := h.width
  omega

end Puts

def manifest : Call :=
  ⟨parse (push LayoutPaths.NyxPaths.system.transactionsDir (bytes "1.nyx")), [1, 2, 3], 7, some 12, []⟩

theorem puts_manifest : Puts LayoutPaths.NyxPaths.system.transactionsDir (bytes "1.nyx") manifest where
  path := rfl
  single := by decide +kernel
  plain := by decide +kernel
  text := by simp [toStr_bytes]
  width := by decide +kernel

def thirty : List Choice := List.replicate 30 (.go 1)

theorem read_system : LayoutPaths.NyxPaths.system.read = .system :=
  congrArg Layout.NyxPaths.mk (by decide +kernel)

theorem fits_system : Fits Atomic.long (parse LayoutPaths.NyxPaths.system.root) := by
  have hroot : parse LayoutPaths.NyxPaths.system.root = ⟨true, [], false⟩ := by decide +kernel
  rw [hroot]
  exact fun c hc => absurd hc List.not_mem_nil

/-- Nothing of the layout is called like the file or its temporary file. -/
theorem manifest_apart : ∀ l ∈ [manifest.target, manifest.tmp], ¬Layout.Covers .system [] l := by
  have hno : ∀ l ∈ [manifest.target, manifest.tmp], ∀ d ∈ Layout.NyxPaths.system.dirs,
      ∀ up ∈ d.comps.tails, l ≠ Path.locate (d.start []) up := by decide +kernel
  rintro l hl ⟨d, hd, up, hup, h⟩
  exact hno l hl d hd up ((List.mem_tails _ _).mpr hup) h

end Nyx.LayoutFiles
