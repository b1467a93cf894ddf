import Nyx.AlpmErrors

/-! The queries whose answer is a list or a package. libalpm answers them with a null pointer
both when there is nothing to answer and when it fails. -/
namespace Nyx.Alpm
open Memory Text

inductive Query
  | packages (db : Db)
  | getPkg (db : Db) (name : String)
  | syncDbs (h : Handle)
  | checkDeps (h : Handle) (pkglist remove upgrade : List Package) (reverseDeps : Bool)
  | checkConflicts (h : Handle) (pkglist : List Package)
  | findDbsSatisfier (h : Handle) (dbs : List Db) (depstring : String)

inductive Answer
  | packages (l : List Package)
  | pkg (p : Option Package)
  | dbs (l : List Db)
  | missing (l : List DepMissing)
  | conflicts (l : List Conflict)
  deriving DecidableEq

namespace Query
variable {σ : Type} (L : Libalpm σ)

def ask : Query → Ffi σ Answer
  | .packages db => do return .packages (← db.packages L)
  | .getPkg db name => do return .pkg (← db.getPkg L name)
  | .syncDbs h => do return .dbs (← h.syncDbs L)
  | .checkDeps h pkglist remove upgrade reverseDeps => do
    return .missing (← h.checkDeps L pkglist remove upgrade reverseDeps)
  | .checkConflicts h pkglist => do return .conflicts (← h.checkConflicts L pkglist)
  | .findDbsSatisfier h dbs depstring => do return .pkg (← h.findDbsSatisfier L dbs depstring)

def nothing : Query → Answer
  | .packages _ => .packages []
  | .getPkg .. | .findDbsSatisfier .. => .pkg none
  | .syncDbs _ => .dbs []
  | .checkDeps .. => .missing []
  | .checkConflicts .. => .conflicts []

/-- The query is answered with a null pointer, or made no call at all. -/
def NullAnswer (q : Query) (w : World σ) : Prop :=
  ∃ x w', q.ask L w = some (x, w') ∧
    (w'.log = w.log ∨ ∃ ev, w'.log = ev :: w.log ∧ ev.reply.ptr = 0)

end Query

section Null
variable {σ : Type} {L : Libalpm σ} {w w' : World σ} {x : Answer}

theorem collect_null {α : Type} (f : σ → Mem → Ptr → Option α) :
    (Ffi.collect (AlpmList.fromRaw 0) f : Ffi σ (List α)) w = some ([], w) := by
  have hc := collect_chain (m := w.mem) (l := AlpmList.fromRaw 0) (f := f w.lib) .nil .nil
  simp [hc]

theorem takeOwned_null {α : Type} (f : σ → Mem → Ptr → Option α) (free : Ptr → Mem → Mem) :
    (Handle.takeOwned 0 f free : Ffi σ (List α)) w = some ([], w) := by
  rw [Handle.takeOwned, Ffi.bind_apply, collect_null]
  rfl

theorem silent_takeOwned {α : Type} (p : Ptr) (f : σ → Mem → Ptr → Option α)
    (free : Ptr → Mem → Mem) : Ffi.Silent (Handle.takeOwned p f free) :=
  Ffi.silent_bind (Ffi.silent_collect _ _) fun _ =>
    Ffi.silent_bind (Ffi.silent_act _) fun _ =>
      Ffi.silent_bind (Ffi.silent_act _) fun _ => Ffi.silent_pure _

/-- The code after the call of a query makes no call, and nothing of a null pointer. -/
structure Reads (q : Query) (k : AlpmReply → Ffi σ Answer) : Prop where
  silent : ∀ r, Ffi.Silent (k r)
  null : ∀ r v, r.ptr = 0 → ∃ v', k r v = some (q.nothing, v')

theorem reads_collect {α : Type} {q : Query} (f : σ → Mem → Ptr → Option α) {g : List α → Answer}
    (hq : g [] = q.nothing) :
    Reads q fun r => do return g (← Ffi.collect (AlpmList.fromRaw r.ptr) f : List α) where
  silent _ := Ffi.silent_bind (Ffi.silent_collect _ _) fun _ => Ffi.silent_pure _
  null r v hr := by
    refine ⟨v, ?_⟩
    rw [hr, Ffi.bind_apply, collect_null, Option.bind_some, hq]
    rfl

theorem reads_takeOwned {α : Type} {q : Query} (f : σ → Mem → Ptr → Option α)
    (free : Ptr → Mem → Mem) {g : List α → Answer} (owned : List Ptr) (hq : g [] = q.nothing) :
    Reads q fun r => do
      let out ← (Handle.takeOwned r.ptr f free : Ffi σ (List α))
      Ffi.drop owned
      return g out where
  silent _ := Ffi.silent_bind (silent_takeOwned _ _ _) fun _ =>
    Ffi.silent_bind (Ffi.silent_drop _) fun _ => Ffi.silent_pure _
  null r v hr := by
    refine ⟨v.drop owned, ?_⟩
    rw [hr, Ffi.bind_apply, takeOwned_null, Option.bind_some, hq]
    rfl

theorem reads_package {q : Query} (owned : List Ptr) (hq : q.nothing = .pkg none) :
    Reads q fun r : AlpmReply => (do
      Ffi.drop owned
      return .pkg (if r.ptr = 0 then none else some (Package.fromRaw r.ptr)) : Ffi σ Answer) where
  silent _ := Ffi.silent_bind (Ffi.silent_drop _) fun _ => Ffi.silent_pure _
  null r v hr := by
    refine ⟨v.drop owned, ?_⟩
    rw [hr, hq]
    rfl

/-- A query answers nothing at once, or makes one call and reads the reply. -/
theorem Query.asks (q : Query) (L : Libalpm σ) (w : World σ) :
    (∃ v, q.ask L w = some (q.nothing, v)) ∨
      ∃ c m k, q.ask L w = (Ffi.call L c >>= k) { w with mem := m } ∧ Reads q k := by
  cases q with
  | packages db =>
    refine Or.inr ⟨.alpmDbGetPkgcache db.raw, w.mem, _, ?_,
      reads_collect (fun _ _ p => some (Package.fromRaw p)) rfl⟩
    simp only [Query.ask, Db.packages, bind_assoc]
  | syncDbs h =>
    refine Or.inr ⟨.alpmGetSyncdbs h.raw, w.mem, _, ?_,
      reads_collect (fun _ _ p => some (Db.fromRaw p)) rfl⟩
    simp only [Query.ask, Handle.syncDbs, bind_assoc]
  | checkDeps h pkglist remove upgrade reverseDeps =>
    let a := BorrowedList.fromPtrs w.mem (pkglist.map Package.raw)
    let b := BorrowedList.fromPtrs a.2 (remove.map Package.raw)
    let d := BorrowedList.fromPtrs b.2 (upgrade.map Package.raw)
    refine Or.inr ⟨.alpmCheckdeps h.raw a.1.asRaw b.1.asRaw d.1.asRaw reverseDeps, d.2, _, ?_,
      reads_takeOwned (fun _ => DepMissing.fromRaw) freeDepmissing
        (a.1.nodes ++ b.1.nodes ++ d.1.nodes) rfl⟩
    simp only [Query.ask, Handle.checkDeps, bind_assoc, pure_bind]
    rfl
  | checkConflicts h pkglist =>
    let a := BorrowedList.fromPtrs w.mem (pkglist.map Package.raw)
    refine Or.inr ⟨.alpmCheckconflicts h.raw a.1.asRaw, a.2, _, ?_,
      reads_takeOwned (Conflict.fromRaw L) freeConflict a.1.nodes rfl⟩
    simp only [Query.ask, Handle.checkConflicts, bind_assoc, pure_bind]
    rfl
  | getPkg db name =>
    simp only [Query.ask, Db.getPkg]
    cases CString.new (bytes name) with
    | none => exact Or.inl ⟨w, rfl⟩
    | some c =>
      refine Or.inr ⟨.alpmDbGetPkg db.raw w.mem.next, (w.mem.alloc c.buffer).2, _, ?_,
        reads_package [w.mem.next] rfl⟩
      simp only [bind_assoc, pure_bind]
      rfl
  | findDbsSatisfier h dbs depstring =>
    let a := BorrowedList.fromPtrs w.mem (dbs.map Db.raw)
    simp only [Query.ask, Handle.findDbsSatisfier]
    cases CString.new (bytes depstring) with
    | none => exact Or.inl ⟨_, rfl⟩
    | some c =>
      refine Or.inr ⟨.alpmFindDbsSatisfier h.raw a.1.asRaw a.2.next, (a.2.alloc c.buffer).2, _, ?_,
        reads_package (a.2.next :: a.1.nodes) rfl⟩
      simp only [bind_assoc, pure_bind]
      rfl

theorem ask_null (q : Query) (h : q.ask L w = some (x, w'))
    (hn : w'.log = w.log ∨ ∃ ev, w'.log = ev :: w.log ∧ ev.reply.ptr = 0) : x = q.nothing := by
  rcases q.asks L w with ⟨v, hv⟩ | ⟨c, m, k, hrun, hk⟩
  · rw [hv] at h
    exact (Prod.mk.inj (Option.some.inj h)).1.symm
  · rw [hrun, Ffi.bind_apply, Ffi.call_apply, Option.bind_some] at h
    have hlog := (hk.silent _ h).2
    have hptr : (L.call c m w.lib).1.ptr = 0 := by
      rcases hn with hn | ⟨ev, hn, hptr⟩
      · exact absurd (hlog.symm.trans hn) (List.cons_ne_self _ _)
      · obtain rfl := (List.cons.inj (hlog.symm.trans hn)).1
        exact hptr
    obtain ⟨v, hv⟩ := hk.null _ (World.answered L { w with mem := m } c) hptr
    exact (Prod.mk.inj (Option.some.inj (hv.symm.trans h))).1.symm

end Null

/-- Two libraries that both answer a query with a null pointer, be it because there is
nothing or because they failed, are never told apart by its result. -/
theorem null_answers_alike {σ : Type} (q : Query) (L L' : Libalpm σ) (w : World σ)
    (h : q.NullAnswer L w) (h' : q.NullAnswer L' w) :
    (q.ask L w).map Prod.fst = (q.ask L' w).map Prod.fst := by
  obtain ⟨x, v, hx, hn⟩ := h
  obtain ⟨x', v', hx', hn'⟩ := h'
  rw [hx, hx', Option.map_some, Option.map_some, ask_null q hx hn, ask_null q hx' hn']

theorem null_answers_alike_packages :
    ((Query.packages ⟨1⟩).ask (replying ⟨0, 0, 0⟩ 0) blank).map Prod.fst =
      ((Query.packages ⟨1⟩).ask (replying ⟨0, 0, 0⟩ 3) blank).map Prod.fst :=
  null_answers_alike (.packages ⟨1⟩) (replying ⟨0, 0, 0⟩ 0) (replying ⟨0, 0, 0⟩ 3) blank
    ⟨.packages [], ⟨blank.mem, (), [⟨.alpmDbGetPkgcache 1, blank.mem, ⟨0, 0, 0⟩, blank.mem⟩]⟩, rfl,
      Or.inr ⟨_, rfl, rfl⟩⟩
    ⟨.packages [], ⟨blank.mem, (), [⟨.alpmDbGetPkgcache 1, blank.mem, ⟨0, 0, 0⟩, blank.mem⟩]⟩, rfl,
      Or.inr ⟨_, rfl, rfl⟩⟩

/-- A failed dependency check says that everything is satisfied. -/
theorem failed_check_satisfied :
    let q := Query.checkDeps ⟨1⟩ [⟨2⟩] [] [] false
    ((q.ask (replying ⟨0, 0, 0⟩ 3) blank).map Prod.fst = some (.missing []) ∧
      (q.ask (replying ⟨0, 0, 0⟩ 0) blank).map Prod.fst = some (.missing [])) ∧
    (replying ⟨0, 0, 0⟩ 3).errno 1 () = 3 ∧ (replying ⟨0, 0, 0⟩ 0).errno 1 () = 0 :=
  ⟨⟨rfl, rfl⟩, rfl, rfl⟩

end Nyx.Alpm
