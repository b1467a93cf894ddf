import Nyx.AlpmErrors

/-! Every string on its way into libalpm arrives as it is or not at all. -/
namespace Nyx.Alpm
open Linked Memory Text

variable {σ : Type} (L : Libalpm σ) (w : World σ)

theorem answered_drop (c : AlpmCall) (m : Mem) (ps : List Ptr) :
    Answered L w ((World.answered L { w with mem := m } c).drop ps) c m := ⟨rfl, rfl⟩

theorem getPkg_rejected (db : Db) {name : String} (hn : ¬ NameOk name) :
    db.getPkg L name w = some (none, w) := by
  simp [Db.getPkg, new_none hn]

theorem getPkg_delivers (db : Db) {name : String} (hn : NameOk name) :
    ∃ c m w' p, Answered L w w' c m ∧ c = .alpmDbGetPkg db.raw p ∧ Finds m p name ∧
      (db.getPkg L name w).map Prod.snd = some w' := by
  obtain ⟨s, hs, hb⟩ := new_ok hn
  refine ⟨_, _, _, _, answered_drop L w (.alpmDbGetPkg db.raw w.mem.next)
    (w.mem.alloc s.buffer).2 [w.mem.next], rfl, finds_alloc hb, ?_⟩
  simp only [Db.getPkg, hs, Ffi.bind_apply, asPtr_apply, Ffi.call_apply, Ffi.drop_apply,
    Ffi.pure_apply, Option.bind_some, Option.map_some]

theorem findDbsSatisfier_rejected (h : Handle) (dbs : List Db) {depstring : String}
    (hn : ¬ NameOk depstring) : ∃ w', h.findDbsSatisfier L dbs depstring w = some (none, w') ∧
      w'.lib = w.lib ∧ w'.log = w.log := by
  refine ⟨World.drop { w with mem := (BorrowedList.fromPtrs w.mem (dbs.map Db.raw)).2 }
    (BorrowedList.fromPtrs w.mem (dbs.map Db.raw)).1.nodes, ?_, rfl, rfl⟩
  simp only [Handle.findDbsSatisfier, new_none hn, Ffi.bind_apply, Ffi.fromPtrs_apply,
    Ffi.drop_apply, Ffi.pure_apply, Option.bind_some]

theorem findDbsSatisfier_delivers (h : Handle) (dbs : List Db) {depstring : String}
    (hn : NameOk depstring) :
    ∃ c m w' p q, Answered L w w' c m ∧ c = .alpmFindDbsSatisfier h.raw q p ∧
      FindsAll m q (dbs.map Db.raw) ∧ Finds m p depstring ∧
      (h.findDbsSatisfier L dbs depstring w).map Prod.snd = some w' := by
  obtain ⟨s, hs, hb⟩ := new_ok hn
  let b := BorrowedList.fromPtrs w.mem (dbs.map Db.raw)
  refine ⟨_, _, _, b.2.next, b.1.asRaw, answered_drop L w
    (.alpmFindDbsSatisfier h.raw b.1.asRaw b.2.next) (b.2.alloc s.buffer).2
    (b.2.next :: b.1.nodes), rfl, ?_, finds_alloc hb, ?_⟩
  · obtain ⟨ns, hc, hps⟩ := findsAll_fromPtrs w.mem (dbs.map Db.raw)
    -- the string is put in memory after the chain, and beside it
    refine ⟨ns, hc.congr fun n hn => Mem.link_congr (Mem.read_alloc _ ?_), hps⟩
    obtain ⟨q, hq⟩ := hc.link_mem hn
    exact (Mem.link_lt hq).ne
  · simp only [Handle.findDbsSatisfier, hs, Ffi.bind_apply, Ffi.fromPtrs_apply, asPtr_apply,
      Ffi.call_apply, Ffi.drop_apply, Ffi.pure_apply, Option.bind_some, Option.map_some]
    rfl

/-- An argument with a NUL in it, or a path that is no UTF-8, is turned away before libalpm
is called and leaves its state alone; every other string is found by libalpm as it was given,
and all the needles of a search in their order. -/
theorem strings_delivered :
    (∀ op : Op, (¬ op.Accepted → ∃ e, op.perform L w = some (.error e, w) ∧ e.errno = -1) ∧
      (op.Accepted → op.Runs L w)) ∧
    (∀ (db : Db) (name : String), (¬ NameOk name → db.getPkg L name w = some (none, w)) ∧
      (NameOk name → ∃ c m w' p, Answered L w w' c m ∧ c = .alpmDbGetPkg db.raw p ∧
        Finds m p name ∧ (db.getPkg L name w).map Prod.snd = some w')) ∧
    ∀ (h : Handle) (dbs : List Db) (depstring : String),
      (¬ NameOk depstring → ∃ w', h.findDbsSatisfier L dbs depstring w = some (none, w') ∧
        w'.lib = w.lib ∧ w'.log = w.log) ∧
      (NameOk depstring → ∃ c m w' p q, Answered L w w' c m ∧
        c = .alpmFindDbsSatisfier h.raw q p ∧ FindsAll m q (dbs.map Db.raw) ∧
        Finds m p depstring ∧ (h.findDbsSatisfier L dbs depstring w).map Prod.snd = some w') :=
  ⟨fun _ => ⟨Op.rejected L w, Op.runs L w⟩,
    fun db _ => ⟨getPkg_rejected L w db, getPkg_delivers L w db⟩,
    fun h dbs _ => ⟨findDbsSatisfier_rejected L w h dbs, findDbsSatisfier_delivers L w h dbs⟩⟩

theorem strings_delivered_names :
    (∃ e, (Op.registerSyncdb ⟨1⟩ "co\x00re" 0).perform (replying ⟨0, 0, 0⟩ 0) blank =
        some (.error e, blank) ∧ e.errno = -1) ∧
      (Op.registerSyncdb ⟨1⟩ "core" 0).Runs (replying ⟨0, 0, 0⟩ 0) blank := by
  have h := strings_delivered (replying ⟨0, 0, 0⟩ 0) blank
  have hrej : ¬ (Op.registerSyncdb ⟨1⟩ "co\x00re" 0).Accepted := by
    unfold Op.Accepted NameOk
    decide +kernel
  have hacc : (Op.registerSyncdb ⟨1⟩ "core" 0).Accepted := by
    unfold Op.Accepted NameOk
    decide +kernel
  exact ⟨(h.1 _).1 hrej, (h.1 _).2 hacc⟩

end Nyx.Alpm
