import Nyx.AlpmOwnership

/-! What an operation leaves in the memory it shares with libalpm: what it put there for its
call is gone when it returns, and all the rest is as libalpm left it. -/
namespace Nyx.Alpm
open Linked Memory Text

/-- Cells that were put behind all others, and nothing else changed. -/
structure Allocates (m m' : Mem) (ps : List Ptr) : Prop where
  mem : ∀ p : ℕ, p ∈ ps ↔ m.next ≤ p ∧ p < m'.next
  grows : m.next ≤ m'.next
  cell : ∀ p : ℕ, p < m.next → m'.cell p = m.cell p
  held : ∀ p ∈ ps, m'.cell p ≠ none

namespace Allocates

theorem nil (m : Mem) : Allocates m m [] :=
  ⟨fun p => by simp, Nat.le_refl _, fun p _ => rfl, fun p hp => absurd hp List.not_mem_nil⟩

theorem trans {m m' m'' : Mem} {ps qs : List Ptr} (h : Allocates m m' ps)
    (h' : Allocates m' m'' qs) : Allocates m m'' (ps ++ qs) := by
  have hg := h.grows
  have hg' := h'.grows
  refine ⟨fun p => ?_, hg.trans hg', fun p hp => ?_, List.forall_mem_append.mpr ⟨fun p hp => ?_,
    h'.held⟩⟩
  · rw [List.mem_append, h.mem, h'.mem]
    omega
  · rw [h'.cell p (hp.trans_le hg), h.cell p hp]
  · rw [h'.cell p ((h.mem p).mp hp).2]
    exact h.held p hp

theorem perm {m m' : Mem} {ps qs : List Ptr} (h : Allocates m m' ps) (hp : ps.Perm qs) :
    Allocates m m' qs :=
  ⟨fun p => hp.mem_iff.symm.trans (h.mem p), h.grows, h.cell,
    fun p hmem => h.held p (hp.mem_iff.mpr hmem)⟩

theorem alloc (m : Mem) (c : Cell) : Allocates m (m.alloc c).2 [m.next] := by
  refine ⟨fun p => ?_, Nat.le_succ _, fun p hp => Function.update_of_ne hp.ne _ _, ?_⟩
  · rw [List.mem_singleton]
    simp only [Mem.alloc]
    omega
  · exact List.forall_mem_singleton.mpr (by simp [Mem.alloc])

theorem allocAll (m : Mem) (cs : List Cell) : Allocates m (m.allocAll cs).2 (m.allocAll cs).1 := by
  induction cs generalizing m with
  | nil => exact nil m
  | cons c cs ih => exact (alloc m c).trans (ih _)

/-- Dropping what was put there undoes it. -/
theorem drop {m m' : Mem} {ps : List Ptr} (h : Allocates m m' ps) : (m'.drop ps).cell = m.cell := by
  funext p
  simp only [Mem.drop]
  by_cases hp : p < m.next
  · have hmem : p ∉ ps := fun hmem => Nat.not_lt.mpr ((h.mem p).mp hmem).1 hp
    rw [if_neg hmem, h.cell p hp]
  · have hnone : m.cell p = none := by
      by_contra hne
      exact hp (m.bound hne)
    rw [hnone]
    split_ifs with hmem
    · rfl
    · by_contra hne
      exact hmem ((h.mem p).mpr ⟨Nat.le_of_not_lt hp, m'.bound hne⟩)

end Allocates

theorem setNext_next (m : Mem) (p n : Ptr) : (BorrowedList.setNext m p n).next = m.next := by
  unfold BorrowedList.setNext
  split <;> rfl

theorem setNext_cell {m : Mem} {p q n : Ptr} (h : q ≠ p) :
    (BorrowedList.setNext m p n).cell q = m.cell q := by
  unfold BorrowedList.setNext
  split
  · simp [Mem.set, h]
  · rfl

theorem setNext_held {m : Mem} {p q n : Ptr} (h : m.cell q ≠ none) :
    (BorrowedList.setNext m p n).cell q ≠ none := by
  unfold BorrowedList.setNext
  split
  · simp only [Mem.set]
    split_ifs
    · exact Option.some_ne_none _
    · exact h
  · exact h

theorem allocates_fromPtrs (m : Mem) (ptrs : List Ptr) :
    Allocates m (BorrowedList.fromPtrs m ptrs).2 (BorrowedList.fromPtrs m ptrs).1.nodes := by
  have hboxes : Allocates m (BorrowedList.boxes m ptrs).2 (BorrowedList.boxes m ptrs).1 :=
    Allocates.allocAll m _
  have hnodes := BorrowedList.boxes_nodes m ptrs
  suffices h : ∀ js : List ℕ, (∀ j ∈ js, j < ptrs.length) → ∀ m', Allocates m m' (BorrowedList.boxes m ptrs).1 →
      Allocates m (js.foldl (BorrowedList.linkAt (BorrowedList.boxes m ptrs).1) m')
        (BorrowedList.boxes m ptrs).1 by
    refine h _ (fun j hj => ?_) _ hboxes
    rw [hnodes, List.length_range'] at hj
    exact List.mem_range.mp hj
  intro js hjs
  induction js with
  | nil => exact fun m' h => h
  | cons j js ih =>
    intro m' h
    obtain ⟨hj, hrest⟩ := List.forall_mem_cons.mp hjs
    refine ih hrest _ ⟨fun p => ?_, ?_, fun p hp => ?_, fun p hp => setNext_held (h.held p hp)⟩
    · rw [BorrowedList.linkAt, setNext_next]
      exact h.mem p
    · rw [BorrowedList.linkAt, setNext_next]
      exact h.grows
    · rw [BorrowedList.linkAt, setNext_cell, h.cell p hp]
      rw [hnodes, List.getD_eq_getElem?_getD, List.getElem?_range' hj]
      exact (hp.trans_le (Nat.le_add_right _ _)).ne

/-- What a call is made on. -/
inductive Receiver
  | library
  | handle (p : Ptr)
  | db (p : Ptr)
  deriving DecidableEq

def AlpmCall.receiver : AlpmCall → Receiver
  | .alpmInitialize .. => .library
  | .alpmOptionAddCachedir h _ | .alpmOptionSetLogfile h _ | .alpmGetLocaldb h
  | .alpmRegisterSyncdb h .. | .alpmGetSyncdbs h | .alpmDbUpdate h .. | .alpmCheckdeps h ..
  | .alpmCheckconflicts h _ | .alpmFindDbsSatisfier h .. => .handle h
  | .alpmDbGetPkg d _ | .alpmDbGetPkgcache d | .alpmDbSearch d _ => .db d

/-- What an operation leaves: nothing of its own, be it that it made no call, or that the rest
is as its call left it. -/
inductive Footprint {σ : Type} (L : Libalpm σ) (on : Receiver) (w w' : World σ) : Prop
  | idle (lib : w'.lib = w.lib) (log : w'.log = w.log) (cell : w'.mem.cell = w.mem.cell)
  | called (c : AlpmCall) (m : Mem) (ps : List Ptr) (own : Allocates w.mem m ps)
      (made : c.receiver = on) (answered : Answered L w w' c m)
      (cell : w'.mem.cell = ((L.call c m w.lib).2.1.drop ps).cell)

/-- What is done after a call: nothing is called, and cells are dropped but no others changed. -/
def Settles {σ α : Type} (ps : List Ptr) (x : Ffi σ α) : Prop :=
  ∀ v a v', x v = some (a, v') →
    v'.lib = v.lib ∧ v'.log = v.log ∧ v'.mem.cell = (v.mem.drop ps).cell

section Settles
variable {σ α β : Type} {ps qs : List Ptr}

theorem drop_nil (m : Mem) : (m.drop []).cell = m.cell := by
  funext p
  simp [Mem.drop]

theorem settles_pure (a : α) : Settles [] (pure a : Ffi σ α) := by
  intro v b v' h
  obtain ⟨-, rfl⟩ := Prod.mk.inj (Option.some.inj h)
  exact ⟨rfl, rfl, (drop_nil _).symm⟩

theorem Settles.bind {x : Ffi σ α} {f : α → Ffi σ β} (hx : Settles ps x)
    (hf : ∀ a, Settles qs (f a)) : Settles (ps ++ qs) (x >>= f) := by
  intro v b v' h
  obtain ⟨a, u, hu, hb⟩ := Ffi.bind_inv h
  obtain ⟨hlib, hlog, hcell⟩ := hx v a u hu
  obtain ⟨hlib', hlog', hcell'⟩ := hf a u b v' hb
  refine ⟨hlib'.trans hlib, hlog'.trans hlog, hcell'.trans ?_⟩
  funext p
  simp only [Mem.drop, hcell, List.mem_append]
  split_ifs <;> simp_all

theorem settles_drop (ps : List Ptr) : Settles ps (Ffi.drop ps : Ffi σ Unit) := by
  intro v a v' h
  obtain ⟨-, rfl⟩ := Prod.mk.inj (Option.some.inj h)
  exact ⟨rfl, rfl, rfl⟩

end Settles

section Answers
variable {σ α : Type}

theorem settles_collect (l : AlpmList) (f : σ → Mem → Ptr → Option α) :
    Settles [] (Ffi.collect l f) := by
  intro v a v' h
  obtain ⟨r, hr, hv⟩ := Option.map_eq_some_iff.mp h
  obtain ⟨-, rfl⟩ := Prod.mk.inj hv
  obtain ⟨s, hs, rfl⟩ := Option.map_eq_some_iff.mp hr
  rw [collect_eq_walk] at hs
  obtain ⟨xs, -, rfl⟩ := Option.map_eq_some_iff.mp hs
  exact ⟨rfl, rfl, (drop_nil _).symm⟩

theorem alpmListFree_cell {m m' : Mem} {p : Ptr} (h : alpmListFree m p = some m') :
    m'.cell = m.cell := by
  suffices hgo : ∀ n m p, alpmListFree.go n m p = some m' → m'.cell = m.cell from hgo _ _ _ h
  intro n
  induction n with
  | zero =>
    intro m p h
    cases h
  | succ n ih =>
    intro m p h
    unfold alpmListFree.go at h
    split at h
    · obtain rfl := Option.some.inj h
      rfl
    · split at h
      · cases h
      · have hrest := ih (m.free p) _ h
        exact hrest

theorem alpmListFreeInner_cell {m m' : Mem} {p : Ptr} {f : Ptr → Mem → Mem}
    (hf : ∀ q m, (f q m).cell = m.cell) (h : alpmListFreeInner m p f = some m') :
    m'.cell = m.cell := by
  suffices hgo : ∀ n m p, alpmListFreeInner.go f n m p = some m' → m'.cell = m.cell from
    hgo _ _ _ h
  intro n
  induction n with
  | zero =>
    intro m p h
    cases h
  | succ n ih =>
    intro m p h
    unfold alpmListFreeInner.go at h
    split at h
    · obtain rfl := Option.some.inj h
      rfl
    · split at h
      · cases h
      · rw [ih _ _ h]
        split_ifs
        · rfl
        · exact hf _ _

theorem settles_act {f : Mem → Option (α × Mem)}
    (hf : ∀ m a m', f m = some (a, m') → m'.cell = m.cell) : Settles [] (Ffi.act f : Ffi σ α) := by
  intro v a v' h
  obtain ⟨r, hr, hv⟩ := Option.map_eq_some_iff.mp h
  obtain ⟨rfl, rfl⟩ := Prod.mk.inj hv
  exact ⟨rfl, rfl, (hf _ _ _ hr).trans (drop_nil _).symm⟩

theorem settles_alpmListFree (p : Ptr) : Settles [] (Ffi.alpmListFree p : Ffi σ Unit) := by
  refine settles_act fun m a m' h => ?_
  obtain ⟨u, hu, hm⟩ := Option.map_eq_some_iff.mp h
  obtain ⟨-, rfl⟩ := Prod.mk.inj hm
  exact alpmListFree_cell hu

/-- Records that are freed are libalpm's own from then on: the ledger has them, and Nyx drops
no cell of theirs. -/
theorem settles_takeOwned (p : Ptr) (f : σ → Mem → Ptr → Option α) {free : Ptr → Mem → Mem}
    (hfree : ∀ q m, (free q m).cell = m.cell) : Settles [] (Handle.takeOwned p f free) := by
  refine (settles_collect _ f).bind  fun out => ?_
  have hinner : Settles [] (Ffi.alpmListFreeInner p free : Ffi σ Unit) := by
    refine settles_act fun m a m' h => ?_
    obtain ⟨u, hu, hm⟩ := Option.map_eq_some_iff.mp h
    obtain ⟨-, rfl⟩ := Prod.mk.inj hm
    exact alpmListFreeInner_cell hfree hu
  exact hinner.bind  fun _ => (settles_alpmListFree p).bind  fun _ => settles_pure out

theorem settles_takeResult (r : AlpmReply) :
    Settles [] (Db.takeResult r : Ffi σ (Except AlpmError (List Package))) := by
  unfold Db.takeResult
  split_ifs
  · exact settles_pure _
  · exact (settles_collect _ _).bind  fun l =>
      (settles_alpmListFree _).bind  fun _ => settles_pure _

theorem settles_checkRc (L : Libalpm σ) (h : Handle) (rc : Int32) : Settles [] (h.checkRc L rc) := by
  intro v a v' hr
  rw [checkRc_apply] at hr
  obtain ⟨-, rfl⟩ := Prod.mk.inj (Option.some.inj hr)
  exact ⟨rfl, rfl, (drop_nil _).symm⟩

theorem settles_dbOrError (L : Libalpm σ) (h : Handle) (raw : Ptr) :
    Settles [] (h.dbOrError L raw) := by
  intro v a v' hr
  rw [dbOrError_apply] at hr
  obtain ⟨-, rfl⟩ := Prod.mk.inj (Option.some.inj hr)
  exact ⟨rfl, rfl, (drop_nil _).symm⟩

end Answers

/-- An operation that leaves nothing of its own, whatever world it is run in. -/
def Tidy {σ α : Type} (L : Libalpm σ) (on : Receiver) (x : Ffi σ α) : Prop :=
  ∀ w a w', x w = some (a, w') → Footprint L on w w'

section Tidy
variable {σ α β : Type} {L : Libalpm σ} {on : Receiver} {w w' : World σ}

/-- Some cells are put in memory, a call is made, and the same cells are dropped. -/
theorem footprint_called {c : AlpmCall} {m : Mem} {ps : List Ptr} {k : AlpmReply → Ffi σ α} {a : α}
    (hown : Allocates w.mem m ps) (hk : ∀ r, Settles ps (k r))
    (h : (Ffi.call L c >>= k) { w with mem := m } = some (a, w')) :
    Footprint L c.receiver w w' := by
  rw [Ffi.bind_apply, Ffi.call_apply, Option.bind_some] at h
  obtain ⟨hlib, hlog, hcell⟩ := hk _ _ _ _ h
  exact .called c m ps hown rfl ⟨hlib, hlog⟩ hcell

theorem tidy_pure (a : α) : Tidy L on (pure a : Ffi σ α) := by
  intro w b w' h
  obtain ⟨-, rfl⟩ := Prod.mk.inj (Option.some.inj h)
  exact .idle rfl rfl rfl

theorem Tidy.map {x : Ffi σ α} (hx : Tidy L on x) (f : α → β) :
    Tidy L on (do return f (← x)) := by
  intro w b w' h
  obtain ⟨a, v, hv, hb⟩ := Ffi.bind_inv h
  obtain ⟨-, rfl⟩ := Prod.mk.inj (Option.some.inj hb)
  exact hx w a v hv

theorem Settles.then {x : Ffi σ α} {ps : List Ptr} (hx : Settles [] x) (f : α → β) :
    Settles ps (do
      let v ← x
      Ffi.drop ps
      return f v) := by
  have h := hx.bind fun v => (settles_drop ps).bind fun _ => settles_pure (f v)
  rwa [List.append_nil, List.nil_append] at h

theorem settles_return {ps : List Ptr} (a : α) : Settles ps (do
    Ffi.drop ps
    return a : Ffi σ α) := by
  have h := (settles_drop (σ := σ) ps).bind fun _ => settles_pure a
  rwa [List.append_nil] at h

theorem tidy_init (root dbpath : OsStr) : Tidy L .library (Handle.init L root dbpath) := by
  intro w a w' h
  unfold Handle.init at h
  cases hr : pathToCstring root with
  | error e => exact tidy_pure _ w a w' (by simpa [hr] using h)
  | ok rootC =>
    cases hd : pathToCstring dbpath with
    | error e => exact tidy_pure _ w a w' (by simpa [hr, hd] using h)
    | ok dbpathC =>
      simp only [hr, hd] at h
      exact footprint_called ((Allocates.alloc w.mem rootC.buffer).trans (.alloc _ dbpathC.buffer))
        (fun r => settles_return _) h

theorem tidy_setPath (hd : Handle) {c : Ptr → AlpmCall} (hc : ∀ p, (c p).receiver = on)
    (path : OsStr) : Tidy L on (hd.setPath L c path) := by
  intro w a w' h
  unfold Handle.setPath at h
  cases hp : pathToCstring path with
  | error e => exact tidy_pure _ w a w' (by simpa [hp] using h)
  | ok pathC =>
    simp only [hp] at h
    rw [← hc w.mem.next]
    exact footprint_called (.alloc w.mem pathC.buffer)
      (fun r => (settles_checkRc L hd r.rc).then id) h

theorem tidy_addCachedir (hd : Handle) (path : OsStr) :
    Tidy L (.handle hd.raw) (hd.addCachedir L path) :=
  tidy_setPath hd (c := .alpmOptionAddCachedir hd.raw) (fun _ => rfl) path

theorem tidy_setLogfile (hd : Handle) (path : OsStr) :
    Tidy L (.handle hd.raw) (hd.setLogfile L path) :=
  tidy_setPath hd (c := .alpmOptionSetLogfile hd.raw) (fun _ => rfl) path

theorem tidy_localDb (hd : Handle) : Tidy L (.handle hd.raw) (hd.localDb L) := by
  intro w a w' h
  exact footprint_called (.nil w.mem) (fun r => settles_dbOrError L hd r.ptr) h

theorem tidy_registerSyncdb (hd : Handle) (name : String) (siglevel : Int32) :
    Tidy L (.handle hd.raw) (hd.registerSyncdb L name siglevel) := by
  intro w a w' h
  unfold Handle.registerSyncdb at h
  cases hn : CString.new (bytes name) with
  | none => exact tidy_pure _ w a w' (by simpa [hn] using h)
  | some nameC =>
    simp only [hn] at h
    exact footprint_called (.alloc w.mem nameC.buffer)
      (fun r => (settles_dbOrError L hd r.ptr).then id) h

theorem tidy_syncDbs (hd : Handle) : Tidy L (.handle hd.raw) (hd.syncDbs L) := by
  intro w a w' h
  exact footprint_called (.nil w.mem) (fun r => settles_collect _ _) h

theorem tidy_updateDbs (hd : Handle) (dbs : List Db) (force : Bool) :
    Tidy L (.handle hd.raw) (hd.updateDbs L dbs force) := by
  intro w a w' h
  exact footprint_called (allocates_fromPtrs w.mem _)
    (fun r => (settles_checkRc L hd r.rc).then id) h

theorem tidy_checkDeps (hd : Handle) (pkglist remove upgrade : List Package) (reverseDeps : Bool) :
    Tidy L (.handle hd.raw) (hd.checkDeps L pkglist remove upgrade reverseDeps) := by
  intro w a w' h
  have htake : ∀ p, Settles [] (Handle.takeOwned p (fun _ => DepMissing.fromRaw) freeDepmissing :
      Ffi σ (List DepMissing)) := fun p => settles_takeOwned p _ fun _ _ => rfl
  exact footprint_called (((allocates_fromPtrs w.mem _).trans (allocates_fromPtrs _ _)).trans
    (allocates_fromPtrs _ _)) (fun r => (htake r.ptr).then id) h

theorem tidy_checkConflicts (hd : Handle) (pkglist : List Package) :
    Tidy L (.handle hd.raw) (hd.checkConflicts L pkglist) := by
  intro w a w' h
  have htake : ∀ p, Settles [] (Handle.takeOwned p (Conflict.fromRaw L) freeConflict) :=
    fun p => settles_takeOwned p _ fun _ _ => rfl
  exact footprint_called (allocates_fromPtrs w.mem _) (fun r => (htake r.ptr).then id) h

/-- The chain that was built first is dropped too where the string is turned away. -/
theorem tidy_findDbsSatisfier (hd : Handle) (dbs : List Db) (depstring : String) :
    Tidy L (.handle hd.raw) (hd.findDbsSatisfier L dbs depstring) := by
  intro w a w' h
  have hchain := allocates_fromPtrs w.mem (dbs.map Db.raw)
  simp only [Handle.findDbsSatisfier, Ffi.bind_apply, Ffi.fromPtrs_apply, Option.bind_some] at h
  cases hn : CString.new (bytes depstring) with
  | none =>
    simp only [hn, Ffi.bind_apply, Ffi.drop_apply, Ffi.pure_apply, Option.bind_some] at h
    obtain ⟨-, rfl⟩ := Prod.mk.inj (Option.some.inj h)
    exact .idle rfl rfl hchain.drop
  | some c =>
    simp only [hn] at h
    exact footprint_called ((hchain.trans (.alloc _ c.buffer)).perm (List.perm_append_singleton _ _))
      (fun r => settles_return _) h

theorem tidy_getPkg (db : Db) (name : String) : Tidy L (.db db.raw) (db.getPkg L name) := by
  intro w a w' h
  unfold Db.getPkg at h
  cases hn : CString.new (bytes name) with
  | none => exact tidy_pure _ w a w' (by simpa [hn] using h)
  | some nameC =>
    simp only [hn] at h
    exact footprint_called (.alloc w.mem nameC.buffer) (fun r => settles_return _) h

theorem tidy_packages (db : Db) : Tidy L (.db db.raw) (db.packages L) := by
  intro w a w' h
  exact footprint_called (.nil w.mem) (fun r => settles_collect _ _) h

theorem tidy_search (db : Db) (needles : List String) : Tidy L (.db db.raw) (db.search L needles) := by
  intro w a w' h
  unfold Db.search at h
  cases hn : needles.mapM fun s => CString.new (bytes s) with
  | none => exact tidy_pure _ w a w' (by simpa [hn] using h)
  | some cs =>
    simp only [hn] at h
    exact footprint_called ((Allocates.allocAll w.mem _).trans (allocates_fromPtrs _ _))
      (fun r => (settles_takeResult r).then id) h

end Tidy

end Nyx.Alpm
