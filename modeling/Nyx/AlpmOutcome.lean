import Nyx.Handle

/-! What the operations that return a `Result` make of the answer they get from libalpm, and
which category their errors end up in. -/
namespace Nyx.Alpm
open Linked Memory Text Nyx.Core

/-- The operations with a `Result`. A database holds no handle, so a search is given the one
its database belongs to; only the statements below look at it. -/
inductive Op
  | init (root dbpath : OsStr)
  | addCachedir (h : Handle) (path : OsStr)
  | setLogfile (h : Handle) (path : OsStr)
  | localDb (h : Handle)
  | registerSyncdb (h : Handle) (name : String) (siglevel : Int32)
  | updateDbs (h : Handle) (dbs : List Db) (force : Bool)
  | search (owner : Handle) (db : Db) (needles : List String)

def PathOk (path : OsStr) : Prop := (toStr path).isSome ∧ 0 ∉ path

def NameOk (s : String) : Prop := 0 ∉ bytes s

def Finds (m : Mem) (p : Ptr) (s : String) : Prop := optCstr m p = some (some s)

/-- At the pointer libalpm finds a chain of just these pointers. -/
def FindsAll (m : Mem) (p : Ptr) (ps : List Ptr) : Prop :=
  ∃ ns, Chain m.link 0 p ns ∧ ns.map Prod.snd = ps

namespace Op
variable {σ : Type} (L : Libalpm σ)

def perform : Op → Ffi σ (Except AlpmError Unit)
  | .init root dbpath => do return (← Handle.init L root dbpath).map fun _ => ()
  | .addCachedir h path => h.addCachedir L path
  | .setLogfile h path => h.setLogfile L path
  | .localDb h => do return (← h.localDb L).map fun _ => ()
  | .registerSyncdb h name siglevel => do
    return (← h.registerSyncdb L name siglevel).map fun _ => ()
  | .updateDbs h dbs force => h.updateDbs L dbs force
  | .search _ db needles => do return (← db.search L needles).map fun _ => ()

/-- The arguments pass the checks made before libalpm is called. -/
def Accepted : Op → Prop
  | .init root dbpath => PathOk root ∧ PathOk dbpath
  | .addCachedir _ path | .setLogfile _ path => PathOk path
  | .registerSyncdb _ name _ => NameOk name
  | .search _ _ needles => ∀ s ∈ needles, NameOk s
  | .localDb _ | .updateDbs .. => True

/-- The call is the one the operation is for, with its arguments as they were given. -/
def Delivers (m : Mem) (c : AlpmCall) : Op → Prop
  | .init root dbpath => ∃ p q s t, c = .alpmInitialize p q ∧ toStr root = some s ∧
      toStr dbpath = some t ∧ Finds m p s ∧ Finds m q t
  | .addCachedir h path => ∃ p s, c = .alpmOptionAddCachedir h.raw p ∧ toStr path = some s ∧
      Finds m p s
  | .setLogfile h path => ∃ p s, c = .alpmOptionSetLogfile h.raw p ∧ toStr path = some s ∧
      Finds m p s
  | .localDb h => c = .alpmGetLocaldb h.raw
  | .registerSyncdb h name siglevel => ∃ p, c = .alpmRegisterSyncdb h.raw p siglevel ∧
      Finds m p name
  | .updateDbs h dbs force => ∃ p, c = .alpmDbUpdate h.raw p force ∧ FindsAll m p (dbs.map Db.raw)
  | .search _ db needles => ∃ p ps, c = .alpmDbSearch db.raw p ∧ FindsAll m p ps ∧
      List.Forall₂ (Finds m) ps needles

/-- libalpm's own sign of failure in its reply. -/
def failed (r : AlpmReply) : Op → Prop
  | .init .. | .localDb _ | .registerSyncdb .. => r.ptr = 0
  | .addCachedir .. | .setLogfile .. => r.rc < 0
  | .updateDbs .. | .search .. => r.rc ≠ 0

/-- The errno that tells why the call failed. -/
def errno (r : AlpmReply) (lib : σ) : Op → UInt32
  | .init .. => r.err
  | .addCachedir h _ | .setLogfile h _ | .localDb h | .registerSyncdb h _ _ | .updateDbs h _ _
  | .search h _ _ => L.errno h.raw lib

def verdict (r : AlpmReply) (lib : σ) : Op → Except AlpmError Unit
  | .init .. => if r.ptr = 0 then .error (.fromErrno L r.err) else .ok ()
  | .addCachedir h _ | .setLogfile h _ | .updateDbs h _ _ =>
    if r.rc < 0 then .error (.fromErrno L (L.errno h.raw lib)) else .ok ()
  | .localDb h | .registerSyncdb h _ _ =>
    if r.ptr = 0 then .error (.fromErrno L (L.errno h.raw lib)) else .ok ()
  | .search .. => if r.rc ≠ 0 then .error ⟨-1, "alpm_db_search failed"⟩ else .ok ()

end Op

theorem pathToCstring_ok {path : OsStr} (h : PathOk path) :
    ∃ c s, pathToCstring path = .ok c ∧ toStr path = some s ∧ c.bytes = bytes s := by
  obtain ⟨s, hs⟩ := Option.isSome_iff_exists.mp h.1
  have hb := bytes_of_toStr hs
  have hnew : CString.new (bytes s) = some ⟨path, h.2⟩ := by
    simp [CString.new, hb, h.2]
  exact ⟨⟨path, h.2⟩, s, by simp [pathToCstring, hs, hnew], hs, hb.symm⟩

theorem pathToCstring_error {path : OsStr} (h : ¬ PathOk path) :
    ∃ e, pathToCstring path = .error e ∧ e.errno = -1 := by
  unfold pathToCstring
  cases hs : toStr path with
  | none => exact ⟨_, rfl, rfl⟩
  | some s =>
    have hb := bytes_of_toStr hs
    have hnul : 0 ∈ bytes s := by
      by_contra hno
      exact h ⟨by simp [hs], hb ▸ hno⟩
    simp [CString.new_eq_none.mpr hnul]

theorem new_ok {s : String} (h : NameOk s) : ∃ c, CString.new (bytes s) = some c ∧ c.bytes = bytes s := by
  have hnew : CString.new (bytes s) = some ⟨bytes s, h⟩ := dif_neg h
  exact ⟨_, hnew, rfl⟩

theorem new_none {s : String} (h : ¬ NameOk s) : CString.new (bytes s) = none :=
  CString.new_eq_none.mpr (not_not.mp h)

theorem mapM_new_none {needles : List String} (h : ¬ ∀ s ∈ needles, NameOk s) :
    (needles.mapM fun s => CString.new (bytes s)) = none := by
  induction needles with
  | nil => exact absurd (fun s hs => by cases hs) h
  | cons s needles ih =>
    by_cases hs : NameOk s
    · have hrest : ¬ ∀ s ∈ needles, NameOk s := fun hall =>
        h (List.forall_mem_cons.mpr ⟨hs, hall⟩)
      simp [List.mapM_cons, ih hrest]
    · simp [List.mapM_cons, new_none hs]

theorem mapM_new_ok {needles : List String} (h : ∀ s ∈ needles, NameOk s) :
    ∃ cs, (needles.mapM fun s => CString.new (bytes s)) = some cs ∧
      List.Forall₂ (fun c s => c.bytes = bytes s) cs needles := by
  induction needles with
  | nil => exact ⟨[], rfl, .nil⟩
  | cons s needles ih =>
    obtain ⟨hs, hrest⟩ := List.forall_mem_cons.mp h
    obtain ⟨c, hc, hb⟩ := new_ok hs
    obtain ⟨cs, hcs, hf⟩ := ih hrest
    exact ⟨c :: cs, by simp [List.mapM_cons, hc, hcs], .cons hb hf⟩

/-- One call was answered between the two worlds, made in the given memory. -/
structure Answered {σ : Type} (L : Libalpm σ) (w w' : World σ) (c : AlpmCall) (m : Mem) : Prop where
  lib : w'.lib = (L.call c m w.lib).2.2
  log : w'.log = ⟨c, m, (L.call c m w.lib).1, (L.call c m w.lib).2.1⟩ :: w.log

section Spec
variable {σ : Type} (L : Libalpm σ) (w : World σ)

@[simp] theorem checkRc_apply (h : Handle) (rc : Int32) : h.checkRc L rc w =
    some (if rc < 0 then .error (.fromErrno L (L.errno h.raw w.lib)) else .ok (), w) := by
  unfold Handle.checkRc
  split_ifs <;> rfl

@[simp] theorem dbOrError_apply (h : Handle) (raw : Ptr) : h.dbOrError L raw w =
    some (if raw = 0 then .error (.fromErrno L (L.errno h.raw w.lib)) else .ok ⟨raw⟩, w) := by
  unfold Handle.dbOrError
  split_ifs <;> rfl

@[simp] theorem asPtr_apply (c : CString) :
    c.asPtr w = some (w.mem.next, { w with mem := (w.mem.alloc c.buffer).2 }) := rfl

/-- An operation whose arguments are accepted delivers them in one call. What follows makes no
other: it turns the reply into the result, unless the answer to a search cannot be read. -/
def Op.Runs (op : Op) : Prop :=
  ∃ c m k, op.perform L w = (Ffi.call L c >>= k) { w with mem := m } ∧ op.Delivers m c ∧
    ∀ r v, (∃ m', k r v = some (op.verdict L r v.lib, { v with mem := m' })) ∨
      k r v = none ∧ ∃ owner db needles, op = .search owner db needles

theorem Op.Runs.cases {L : Libalpm σ} {w : World σ} {op : Op} (h : op.Runs L w) :
    op.perform L w = none ∨ ∃ c m w', Answered L w w' c m ∧
      op.perform L w = some (op.verdict L (L.call c m w.lib).1 w'.lib, w') := by
  obtain ⟨c, m, k, hrun, -, hk⟩ := h
  rw [hrun, Ffi.bind_apply, Ffi.call_apply, Option.bind_some]
  rcases hk (L.call c m w.lib).1 (World.answered L { w with mem := m } c) with
    ⟨m', hr⟩ | ⟨hr, -⟩
  · exact Or.inr ⟨c, m, { World.answered L { w with mem := m } c with mem := m' }, ⟨rfl, rfl⟩, hr⟩
  · exact Or.inl hr

theorem finds_alloc {m : Mem} {c : CString} {s : String} (hb : c.bytes = bytes s) :
    Finds (m.alloc c.buffer).2 m.next s :=
  optCstr_buffer hb (Mem.read_alloc_self m _)

theorem setPath_runs (h : Handle) (c : Ptr → AlpmCall) {path : OsStr} {pathC : CString}
    (hp : pathToCstring path = .ok pathC) :
    ∃ k, h.setPath L c path w = (Ffi.call L (c w.mem.next) >>= k)
        { w with mem := (w.mem.alloc pathC.buffer).2 } ∧
      ∀ r v, ∃ m', k r v = some
        (if r.rc < 0 then .error (.fromErrno L (L.errno h.raw v.lib)) else .ok (),
          { v with mem := m' }) := by
  refine ⟨fun r => do
    let v ← h.checkRc L r.rc
    Ffi.drop [w.mem.next]
    return v, ?_, fun r v => ⟨v.mem.drop [w.mem.next], ?_⟩⟩
  · simp only [Handle.setPath, hp]
    rfl
  · simp only [Ffi.bind_apply, checkRc_apply, Ffi.drop_apply, Ffi.pure_apply, Option.bind_some]
    rfl

theorem init_runs {root dbpath : OsStr} (hr : PathOk root) (hd : PathOk dbpath) :
    (Op.init root dbpath).Runs L w := by
  obtain ⟨rootC, s, hrc, hs, hrb⟩ := pathToCstring_ok hr
  obtain ⟨dbpathC, t, hdc, ht, hdb⟩ := pathToCstring_ok hd
  let m := (w.mem.alloc rootC.buffer).2
  have hp : Finds (m.alloc dbpathC.buffer).2 w.mem.next s := by
    have hread := Mem.read_alloc (m := m) dbpathC.buffer (Nat.lt_succ_self w.mem.next).ne
    exact (optCstr_congr hread).trans (finds_alloc hrb)
  refine ⟨.alpmInitialize w.mem.next m.next, (m.alloc dbpathC.buffer).2, fun r => do
    Ffi.drop [w.mem.next, m.next]
    return if r.ptr = 0 then .error (.fromErrno L r.err) else .ok (), ?_,
    ⟨_, _, s, t, rfl, hs, ht, hp, finds_alloc hdb⟩, fun r v => Or.inl ⟨_, rfl⟩⟩
  simp only [Op.perform, Handle.init, hrc, hdc, Ffi.bind_apply, asPtr_apply, Ffi.call_apply,
    Ffi.drop_apply, Ffi.pure_apply, Option.bind_some, apply_ite (Except.map _)]
  rfl

theorem addCachedir_runs (h : Handle) {path : OsStr} (hp : PathOk path) :
    (Op.addCachedir h path).Runs L w := by
  obtain ⟨c, s, hc, hs, hb⟩ := pathToCstring_ok hp
  obtain ⟨k, hrun, hk⟩ := setPath_runs L w h (.alpmOptionAddCachedir h.raw) hc
  exact ⟨_, _, k, hrun, ⟨_, s, rfl, hs, finds_alloc hb⟩, fun r v => Or.inl (hk r v)⟩

theorem setLogfile_runs (h : Handle) {path : OsStr} (hp : PathOk path) :
    (Op.setLogfile h path).Runs L w := by
  obtain ⟨c, s, hc, hs, hb⟩ := pathToCstring_ok hp
  obtain ⟨k, hrun, hk⟩ := setPath_runs L w h (.alpmOptionSetLogfile h.raw) hc
  exact ⟨_, _, k, hrun, ⟨_, s, rfl, hs, finds_alloc hb⟩, fun r v => Or.inl (hk r v)⟩

theorem map_dbOrError {e : AlpmError} {raw : Ptr} :
    (if raw = 0 then .error e else .ok ⟨raw⟩ : Except AlpmError Db).map (fun _ => ()) =
      if raw = 0 then .error e else .ok () := by
  split_ifs <;> rfl

theorem localDb_runs (h : Handle) : (Op.localDb h).Runs L w := by
  refine ⟨.alpmGetLocaldb h.raw, w.mem, fun r => do
    let v ← h.dbOrError L r.ptr
    return v.map fun _ => (), ?_, rfl, fun r v => Or.inl ⟨v.mem, ?_⟩⟩
  · simp only [Op.perform, Handle.localDb, bind_assoc]
  · simp only [Ffi.bind_apply, dbOrError_apply, Ffi.pure_apply, Option.bind_some, map_dbOrError]
    rfl

theorem registerSyncdb_runs (h : Handle) {name : String} (siglevel : Int32) (hn : NameOk name) :
    (Op.registerSyncdb h name siglevel).Runs L w := by
  obtain ⟨c, hc, hb⟩ := new_ok hn
  refine ⟨.alpmRegisterSyncdb h.raw w.mem.next siglevel, (w.mem.alloc c.buffer).2, fun r => do
    let v ← h.dbOrError L r.ptr
    Ffi.drop [w.mem.next]
    return v.map fun _ => (), ?_, ⟨_, rfl, finds_alloc hb⟩,
    fun r v => Or.inl ⟨v.mem.drop [w.mem.next], ?_⟩⟩
  · simp only [Op.perform, Handle.registerSyncdb, hc, bind_assoc, pure_bind]
    rfl
  · simp only [Ffi.bind_apply, dbOrError_apply, Ffi.drop_apply, Ffi.pure_apply, Option.bind_some,
      map_dbOrError]
    rfl

theorem findsAll_fromPtrs (m : Mem) (ps : List Ptr) :
    FindsAll (BorrowedList.fromPtrs m ps).2 (BorrowedList.fromPtrs m ps).1.asRaw ps := by
  refine ⟨_, BorrowedList.fromPtrs_chain m ps, ?_⟩
  exact List.map_snd_zip (by rw [List.length_range'])

theorem updateDbs_runs (h : Handle) (dbs : List Db) (force : Bool) :
    (Op.updateDbs h dbs force).Runs L w := by
  let b := BorrowedList.fromPtrs w.mem (dbs.map Db.raw)
  refine ⟨.alpmDbUpdate h.raw b.1.asRaw force, b.2, fun r => do
    let v ← h.checkRc L r.rc
    Ffi.drop b.1.nodes
    return v, rfl, ⟨_, rfl, findsAll_fromPtrs w.mem _⟩,
    fun r v => Or.inl ⟨v.mem.drop b.1.nodes, ?_⟩⟩
  simp only [Ffi.bind_apply, checkRc_apply, Ffi.drop_apply, Ffi.pure_apply, Option.bind_some]
  rfl

theorem finds_needles {m : Mem} {cs : List CString} {needles : List String}
    (h : List.Forall₂ (fun c s => c.bytes = bytes s) cs needles) :
    List.Forall₂ (Finds (BorrowedList.fromPtrs (m.allocAll (cs.map CString.buffer)).2
      (m.allocAll (cs.map CString.buffer)).1).2) (m.allocAll (cs.map CString.buffer)).1 needles := by
  have hlen := h.length_eq
  rw [Mem.allocAll_ptrs, List.length_map]
  refine List.forall₂_iff_get.mpr ⟨by rw [List.length_range', hlen], fun i h₁ h₂ => ?_⟩
  rw [List.length_range'] at h₁
  have hb := (List.forall₂_iff_get.mp h).2 i h₁ h₂
  have hnew := Mem.read_allocAll_new m (cs.map CString.buffer) (i := i) (by simpa using h₁)
  have hold : m.next + i < (m.allocAll (cs.map CString.buffer)).2.next := by
    rw [Mem.allocAll_next, List.length_map]
    omega
  have hread := (BorrowedList.fromPtrs_read (List.range' m.next cs.length) hold).trans hnew
  rw [List.getElem_map] at hread
  rw [List.get_eq_getElem, List.getElem_range', one_mul]
  exact optCstr_buffer hb hread

/-- Reading the result of a search calls nothing. -/
theorem takeResult_frame (r : AlpmReply) (v : World σ) :
    (Db.takeResult r : Ffi σ (Except AlpmError (List Package))) v = none ∨
      ∃ x m, (Db.takeResult r : Ffi σ (Except AlpmError (List Package))) v =
          some (x, { v with mem := m }) ∧
        x.map (fun _ => ()) =
          if r.rc ≠ 0 then .error ⟨-1, "alpm_db_search failed"⟩ else .ok () := by
  unfold Db.takeResult
  split_ifs with hrc
  · exact Or.inr ⟨_, v.mem, rfl, rfl⟩
  · simp only [Ffi.bind_apply, Ffi.collect_apply, Ffi.alpmListFree, Ffi.act_apply]
    cases hc : (AlpmList.fromRaw r.ptr).collect v.mem fun _ p => some (Package.fromRaw p) with
    | none => exact Or.inl rfl
    | some y =>
      cases hf : alpmListFree y.2 r.ptr with
      | none => exact Or.inl (by simp [hf])
      | some m => exact Or.inr ⟨.ok y.1, m, by simp [hf], rfl⟩

theorem search_runs (owner : Handle) (db : Db) {needles : List String}
    (hn : ∀ s ∈ needles, NameOk s) : (Op.search owner db needles).Runs L w := by
  obtain ⟨cs, hcs, hf⟩ := mapM_new_ok hn
  let a := w.mem.allocAll (cs.map CString.buffer)
  let b := BorrowedList.fromPtrs a.2 a.1
  refine ⟨.alpmDbSearch db.raw b.1.asRaw, b.2, fun r => do
    let v ← Db.takeResult r
    Ffi.drop (a.1 ++ b.1.nodes)
    return v.map fun _ => (), ?_, ⟨_, a.1, rfl, findsAll_fromPtrs _ _, finds_needles hf⟩,
    fun r v => ?_⟩
  · simp only [Op.perform, Db.search, hcs, bind_assoc, pure_bind]
    rfl
  · rcases takeResult_frame r v with hnone | ⟨x, m, hsome, hx⟩
    · refine Or.inr ⟨?_, owner, db, needles, rfl⟩
      simp only [Ffi.bind_apply, hnone, Option.bind_none]
    · refine Or.inl ⟨m.drop (a.1 ++ b.1.nodes), ?_⟩
      simp only [Ffi.bind_apply, hsome, Ffi.drop_apply, Ffi.pure_apply, Option.bind_some,
        Op.verdict, ← hx]
      rfl

theorem Op.runs {op : Op} (h : op.Accepted) : op.Runs L w := by
  cases op with
  | init root dbpath => exact init_runs L w h.1 h.2
  | addCachedir hd path => exact addCachedir_runs L w hd h
  | setLogfile hd path => exact setLogfile_runs L w hd h
  | localDb hd => exact localDb_runs L w hd
  | registerSyncdb hd name siglevel => exact registerSyncdb_runs L w hd siglevel h
  | updateDbs hd dbs force => exact updateDbs_runs L w hd dbs force
  | search owner db needles => exact search_runs L w owner db h

theorem Op.rejected {op : Op} (h : ¬ op.Accepted) :
    ∃ e, op.perform L w = some (.error e, w) ∧ e.errno = -1 := by
  cases op with
  | init root dbpath =>
    by_cases hr : PathOk root
    · obtain ⟨c, s, hc, -⟩ := pathToCstring_ok hr
      obtain ⟨e, he, hn⟩ := pathToCstring_error fun hd => h ⟨hr, hd⟩
      exact ⟨e, by simp [perform, Handle.init, hc, he, Except.map], hn⟩
    · obtain ⟨e, he, hn⟩ := pathToCstring_error hr
      exact ⟨e, by simp [perform, Handle.init, he, Except.map], hn⟩
  | addCachedir hd path =>
    obtain ⟨e, he, hn⟩ := pathToCstring_error h
    exact ⟨e, by simp [perform, Handle.addCachedir, Handle.setPath, he], hn⟩
  | setLogfile hd path =>
    obtain ⟨e, he, hn⟩ := pathToCstring_error h
    exact ⟨e, by simp [perform, Handle.setLogfile, Handle.setPath, he], hn⟩
  | registerSyncdb hd name siglevel =>
    exact ⟨⟨-1, "repository name contains NUL"⟩,
      by simp [perform, Handle.registerSyncdb, new_none h, Except.map], rfl⟩
  | search owner db needles =>
    exact ⟨⟨-1, "search needle contains an interior NUL byte"⟩,
      by simp [perform, Db.search, mapM_new_none h, Except.map], rfl⟩
  | localDb hd => exact absurd trivial h
  | updateDbs hd dbs force => exact absurd trivial h

end Spec

end Nyx.Alpm
