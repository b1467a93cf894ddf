import Mathlib.Data.List.Induction
import Nyx.AlpmFootprint

/-! Sessions of a program that uses the libalpm wrapper: the handles it opens and drops, and the
databases and packages it holds, which are borrowed from handles. What it can do next is what
the signatures of the wrapper allow where its borrows still live. -/
namespace Nyx.Session
open Memory Text Alpm

/-- A handle is borrowed, by its number: by many with `&self`, by one with `&mut self`. -/
structure Loan where
  handle : ℕ
  unique : Bool
  deriving DecidableEq

def Loan.conflicts (k l : Loan) : Bool := k.handle = l.handle && (k.unique || l.unique)

inductive Item
  | db (db : Db)
  | pkg (p : Package)
  deriving DecidableEq

/-- A `Db` or a `Package`, with the borrows that its lifetime stands for. -/
structure Value where
  item : Item
  loans : List Loan
  deriving DecidableEq

/-- Handles and values go by the numbers under which the program got them. -/
inductive Action
  | init (root dbpath : OsStr)
  | drop (h : ℕ)
  | addCachedir (h : ℕ) (path : OsStr)
  | setLogfile (h : ℕ) (path : OsStr)
  | localDb (h : ℕ)
  | registerSyncdb (h : ℕ) (name : String) (siglevel : Int32)
  | syncDbs (h : ℕ)
  | updateDbs (h : ℕ) (dbs : List ℕ) (force : Bool)
  | checkDeps (h : ℕ) (pkglist remove upgrade : List ℕ) (reverseDeps : Bool)
  | checkConflicts (h : ℕ) (pkglist : List ℕ)
  | findDbsSatisfier (h : ℕ) (dbs : List ℕ) (depstring : String)
  | getPkg (db : ℕ) (name : String)
  | packages (db : ℕ)
  | search (db : ℕ) (needles : List String)
  /-- `root`, `dbpath`, `lockfile` or `last_error` -/
  | readHandle (h : ℕ)
  /-- an accessor of a database, or of a package -/
  | readValue (v : ℕ)

namespace Action

/-- How the receiver takes its handle; a handle is dropped when nothing borrows it any more. -/
def takes : Action → Option Loan
  | .init .. | .getPkg .. | .packages _ | .search .. | .readValue _ => none
  | .drop h | .addCachedir h _ | .setLogfile h _ | .registerSyncdb h .. | .updateDbs h .. =>
    some ⟨h, true⟩
  | .localDb h | .syncDbs h | .checkDeps h .. | .checkConflicts h _ | .findDbsSatisfier h ..
  | .readHandle h => some ⟨h, false⟩

/-- The databases and packages it is given. -/
def args : Action → List ℕ
  | .updateDbs _ dbs _ | .findDbsSatisfier _ dbs _ => dbs
  | .checkDeps _ pkglist remove upgrade _ => pkglist ++ remove ++ upgrade
  | .checkConflicts _ pkglist => pkglist
  | .getPkg i _ | .packages i | .search i _ | .readValue i => [i]
  | .init .. | .drop _ | .addCachedir .. | .setLogfile .. | .localDb _ | .registerSyncdb ..
  | .syncDbs _ | .readHandle _ => []

end Action

/-- What libalpm gets to see of a session, with the memory it finds and leaves. -/
inductive Happening
  | called (ev : Event)
  | read (p : Ptr)
  | released (p : Ptr) (before after : Mem)

/-- The handles that are open, the values whose borrows still live, and what libalpm has seen,
latest first. -/
structure State (σ : Type) where
  world : World σ
  handles : List (Option Handle)
  values : List (Option Value)
  trace : List Happening

/-- What an action gives the program. -/
structure Gain where
  handles : List Handle
  items : List Item

def Gain.nothing : Gain := ⟨[], []⟩

def gained {α : Type} (f : α → Gain) : Except AlpmError α → Gain
  | .ok a => f a
  | .error _ => .nothing

namespace State
variable {σ : Type}

def start (w : World σ) : State σ := ⟨w, [], [], []⟩

def handle (s : State σ) (h : ℕ) : Option Handle := (s.handles[h]?).join

def value (s : State σ) (i : ℕ) : Option Value := (s.values[i]?).join

def db (s : State σ) (i : ℕ) : Option Db :=
  match s.value i with
  | some ⟨.db d, _⟩ => some d
  | _ => none

def pkg (s : State σ) (i : ℕ) : Option Package :=
  match s.value i with
  | some ⟨.pkg p, _⟩ => some p
  | _ => none

/-- A value is of no more use once a handle it borrows is taken in a way that excludes it. -/
def take (s : State σ) (k : Option Loan) : State σ :=
  { s with values := s.values.map fun v =>
      v.filter fun v => !v.loans.any fun l => (k.map (·.conflicts l)).getD false }

/-- What is returned lives no longer than the handle is borrowed, and no longer than what was
passed. -/
def lends (s : State σ) (a : Action) : List Loan :=
  a.takes.toList ++ a.args.flatMap fun i => ((s.value i).map Value.loans).getD []

end State

section Step
variable {σ : Type} (L : Libalpm σ) (release : Ptr → Mem → σ → Mem × σ)

/-- `impl Drop for Handle`: `alpm_release`, whose return code is not looked at. -/
def dropHandle (h : Handle) : Ffi σ Unit := fun w =>
  some ((), { w with mem := (release h.raw w.mem w.lib).1, lib := (release h.raw w.mem w.lib).2 })

/-- The action, where what it is given is there. -/
def perform (s : State σ) : Action → Option (Ffi σ Gain)
  | .init root dbpath => some do
    return gained (fun h => ⟨[h], []⟩) (← Handle.init L root dbpath)
  | .drop h => (s.handle h).map fun h => do
    dropHandle release h
    return .nothing
  | .addCachedir h path => (s.handle h).map fun h => do
    return gained (fun _ => .nothing) (← h.addCachedir L path)
  | .setLogfile h path => (s.handle h).map fun h => do
    return gained (fun _ => .nothing) (← h.setLogfile L path)
  | .localDb h => (s.handle h).map fun h => do
    return gained (fun d => ⟨[], [.db d]⟩) (← h.localDb L)
  | .registerSyncdb h name siglevel => (s.handle h).map fun h => do
    return gained (fun d => ⟨[], [.db d]⟩) (← h.registerSyncdb L name siglevel)
  | .syncDbs h => (s.handle h).map fun h => do
    return ⟨[], (← h.syncDbs L).map .db⟩
  | .updateDbs h dbs force => do
    let h ← s.handle h
    let dbs ← dbs.mapM s.db
    some do return gained (fun _ => .nothing) (← h.updateDbs L dbs force)
  | .checkDeps h pkglist remove upgrade reverseDeps => do
    let h ← s.handle h
    let pkglist ← pkglist.mapM s.pkg
    let remove ← remove.mapM s.pkg
    let upgrade ← upgrade.mapM s.pkg
    some do
      let _ ← h.checkDeps L pkglist remove upgrade reverseDeps
      return .nothing
  | .checkConflicts h pkglist => do
    let h ← s.handle h
    let pkglist ← pkglist.mapM s.pkg
    some do
      let _ ← h.checkConflicts L pkglist
      return .nothing
  | .findDbsSatisfier h dbs depstring => do
    let h ← s.handle h
    let dbs ← dbs.mapM s.db
    some do return ⟨[], ((← h.findDbsSatisfier L dbs depstring).map .pkg).toList⟩
  | .getPkg db name => (s.db db).map fun d => do
    return ⟨[], ((← d.getPkg L name).map .pkg).toList⟩
  | .packages db => (s.db db).map fun d => do
    return ⟨[], (← d.packages L).map .pkg⟩
  | .search db needles => (s.db db).map fun d => do
    return gained (fun l => ⟨[], l.map .pkg⟩) (← d.search L needles)
  | .readHandle h => (s.handle h).map fun _ => return .nothing
  | .readValue v => (s.value v).map fun _ => return .nothing

/-- The calls of libalpm that led from one world to the other. -/
def calls (w w' : World σ) : List Happening :=
  (w'.log.take (w'.log.length - w.log.length)).map .called

/-- What libalpm sees of an action besides. -/
def seen (s : State σ) : Action → List Happening
  | .drop h => ((s.handle h).map fun h =>
    .released h.raw s.world.mem (release h.raw s.world.mem s.world.lib).1).toList
  | .readHandle h => ((s.handle h).map fun h => .read h.raw).toList
  | _ => []

def State.keeps (s : State σ) : Action → List (Option Handle)
  | .drop h => s.handles.set h none
  | _ => s.handles

/-- The state after an action that gave this and led to the world. -/
def State.after (s : State σ) (a : Action) (g : Gain) (w : World σ) : State σ where
  world := w
  handles := s.keeps a ++ g.handles.map some
  values := s.values ++ g.items.map fun i => some ⟨i, s.lends a⟩
  trace := seen release s a ++ calls s.world w ++ s.trace

/-- None where the program is not accepted, or what libalpm handed out cannot be read. -/
def step (s : State σ) (a : Action) : Option (State σ) := do
  let s := s.take a.takes
  let x ← perform L release s a
  let r ← x s.world
  return s.after release a r.1 r.2

/-- A session, from its start, as far as it goes. -/
def run (w : World σ) (as : List Action) : Option (State σ) := as.foldlM (step L release) (.start w)

end Step

section Run
variable {σ : Type} {L : Libalpm σ} {release : Ptr → Mem → σ → Mem × σ} {w : World σ}

theorem run_snoc {as : List Action} {a : Action} {s : State σ} :
    run L release w (as ++ [a]) = some s ↔
      ∃ u, run L release w as = some u ∧ step L release u a = some s := by
  simp [run, List.foldlM_append, Option.bind_eq_some_iff]

/-- What every step preserves, of the actions so far and the state they lead to. -/
theorem run_history (I : List Action → State σ → Prop) (h : I [] (.start w))
    (next : ∀ as a s s', run L release w as = some s → step L release s a = some s' → I as s →
      I (as ++ [a]) s') {as : List Action} {s : State σ} (hs : run L release w as = some s) :
    I as s := by
  induction as using List.reverseRecOn generalizing s with
  | nil =>
    obtain rfl := Option.some.inj hs
    exact h
  | append_singleton as a ih =>
    obtain ⟨u, hu, hstep⟩ := run_snoc.mp hs
    exact next as a u s hu hstep (ih hu)

end Run

/-- What an action does: one that opens a handle, one that drops one, and all others, which
leave the handles as they are and call libalpm on an open handle or a database at hand. -/
inductive Performs {σ : Type} (L : Libalpm σ) (release : Ptr → Mem → σ → Mem × σ) (s : State σ) :
    Action → Ffi σ Gain → Prop
  | init (root dbpath) : Performs L release s (.init root dbpath) do
      return gained (fun h => ⟨[h], []⟩) (← Handle.init L root dbpath)
  | drop (h hd) (isOpen : s.handle h = some hd) : Performs L release s (.drop h) do
      dropHandle release hd
      return .nothing
  | handle (a x k hd) (keeps : ∀ h, a ≠ .drop h) (taken : a.takes = some k)
      (isOpen : s.handle k.handle = some hd) (tidy : Tidy L (.handle hd.raw) x)
      (opens : ∀ w g w', x w = some (g, w') → g.handles = []) : Performs L release s a x
  | db (a x i d) (free : a.takes = none) (arg : a.args = [i]) (held : s.db i = some d)
      (tidy : Tidy L (.db d.raw) x) (opens : ∀ w g w', x w = some (g, w') → g.handles = []) :
      Performs L release s a x
  | value (i v) (held : s.value i = some v) : Performs L release s (.readValue i) (return .nothing)

section Performs
variable {σ : Type} {L : Libalpm σ} {release : Ptr → Mem → σ → Mem × σ} {s : State σ}

theorem gain_of_map {α : Type} {x : Ffi σ α} {f : α → Gain} (hf : ∀ a, (f a).handles = [])
    (w : World σ) (g : Gain) (w' : World σ) (h : (do return f (← x)) w = some (g, w')) :
    g.handles = [] := by
  obtain ⟨a, v, -, hb⟩ := Ffi.bind_inv h
  obtain ⟨rfl, -⟩ := Prod.mk.inj (Option.some.inj hb)
  exact hf a

theorem gained_handles {α : Type} {f : α → Gain} (hf : ∀ a, (f a).handles = [])
    (r : Except AlpmError α) : (gained f r).handles = [] := by
  cases r with
  | error e => rfl
  | ok a => exact hf a

theorem performs {a : Action} {x : Ffi σ Gain} (h : perform L release s a = some x) :
    Performs L release s a x := by
  cases a with
  | init root dbpath =>
    obtain rfl := Option.some.inj h
    exact .init root dbpath
  | drop k =>
    obtain ⟨hd, hk, rfl⟩ := Option.map_eq_some_iff.mp h
    exact .drop k hd hk
  | addCachedir k path =>
    obtain ⟨hd, hk, rfl⟩ := Option.map_eq_some_iff.mp h
    exact .handle _ _ _ hd (by simp) rfl hk ((tidy_addCachedir hd path).map _)
      (gain_of_map fun r => gained_handles (fun _ => rfl) r)
  | setLogfile k path =>
    obtain ⟨hd, hk, rfl⟩ := Option.map_eq_some_iff.mp h
    exact .handle _ _ _ hd (by simp) rfl hk ((tidy_setLogfile hd path).map _)
      (gain_of_map fun r => gained_handles (fun _ => rfl) r)
  | localDb k =>
    obtain ⟨hd, hk, rfl⟩ := Option.map_eq_some_iff.mp h
    exact .handle _ _ _ hd (by simp) rfl hk ((tidy_localDb hd).map _)
      (gain_of_map fun r => gained_handles (fun _ => rfl) r)
  | registerSyncdb k name siglevel =>
    obtain ⟨hd, hk, rfl⟩ := Option.map_eq_some_iff.mp h
    exact .handle _ _ _ hd (by simp) rfl hk ((tidy_registerSyncdb hd name siglevel).map _)
      (gain_of_map fun r => gained_handles (fun _ => rfl) r)
  | syncDbs k =>
    obtain ⟨hd, hk, rfl⟩ := Option.map_eq_some_iff.mp h
    exact .handle _ _ _ hd (by simp) rfl hk ((tidy_syncDbs hd).map _) (gain_of_map fun _ => rfl)
  | updateDbs k dbs force =>
    simp only [perform, Option.bind_eq_bind, Option.bind_eq_some_iff, Option.some.injEq] at h
    obtain ⟨hd, hk, ds, -, rfl⟩ := h
    exact .handle _ _ _ hd (by simp) rfl hk ((tidy_updateDbs hd ds force).map _)
      (gain_of_map fun r => gained_handles (fun _ => rfl) r)
  | checkDeps k pkglist remove upgrade reverseDeps =>
    simp only [perform, Option.bind_eq_bind, Option.bind_eq_some_iff, Option.some.injEq] at h
    obtain ⟨hd, hk, ps, -, rs, -, us, -, rfl⟩ := h
    exact .handle _ _ _ hd (by simp) rfl hk ((tidy_checkDeps hd ps rs us reverseDeps).map _)
      (gain_of_map fun _ => rfl)
  | checkConflicts k pkglist =>
    simp only [perform, Option.bind_eq_bind, Option.bind_eq_some_iff, Option.some.injEq] at h
    obtain ⟨hd, hk, ps, -, rfl⟩ := h
    exact .handle _ _ _ hd (by simp) rfl hk ((tidy_checkConflicts hd ps).map _)
      (gain_of_map fun _ => rfl)
  | findDbsSatisfier k dbs depstring =>
    simp only [perform, Option.bind_eq_bind, Option.bind_eq_some_iff, Option.some.injEq] at h
    obtain ⟨hd, hk, ds, -, rfl⟩ := h
    exact .handle _ _ _ hd (by simp) rfl hk ((tidy_findDbsSatisfier hd ds depstring).map _)
      (gain_of_map fun _ => rfl)
  | getPkg i name =>
    obtain ⟨d, hd, rfl⟩ := Option.map_eq_some_iff.mp h
    exact .db _ _ i d rfl rfl hd ((tidy_getPkg d name).map _) (gain_of_map fun _ => rfl)
  | packages i =>
    obtain ⟨d, hd, rfl⟩ := Option.map_eq_some_iff.mp h
    exact .db _ _ i d rfl rfl hd ((tidy_packages d).map _) (gain_of_map fun _ => rfl)
  | search i needles =>
    obtain ⟨d, hd, rfl⟩ := Option.map_eq_some_iff.mp h
    exact .db _ _ i d rfl rfl hd ((tidy_search d needles).map _)
      (gain_of_map fun r => gained_handles (fun _ => rfl) r)
  | readHandle k =>
    obtain ⟨hd, hk, rfl⟩ := Option.map_eq_some_iff.mp h
    refine .handle _ _ _ hd (by simp) rfl hk (tidy_pure _) fun w g w' hg => ?_
    obtain ⟨rfl, -⟩ := Prod.mk.inj (Option.some.inj hg)
    rfl
  | readValue i =>
    obtain ⟨v, hv, rfl⟩ := Option.map_eq_some_iff.mp h
    exact .value i v hv

omit L release in
theorem keeps_eq {a : Action} (h : ∀ k, a ≠ .drop k) : s.keeps a = s.handles := by
  cases a <;> first | rfl | exact absurd rfl (h _)

/-- A step performs its action once the borrows that exclude it have ended. -/
theorem step_cases {a : Action} {s' : State σ} (h : step L release s a = some s') :
    ∃ x g w, Performs L release (s.take a.takes) a x ∧ x s.world = some (g, w) ∧
      s' = (s.take a.takes).after release a g w := by
  obtain ⟨x, hx, h⟩ := Option.bind_eq_some_iff.mp h
  obtain ⟨r, hr, h⟩ := Option.bind_eq_some_iff.mp h
  exact ⟨x, r.1, r.2, performs hx, hr, (Option.some.inj h).symm⟩

end Performs

end Nyx.Session
