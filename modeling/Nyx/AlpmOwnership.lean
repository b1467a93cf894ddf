import Nyx.AlpmStrings

/-! Who frees what libalpm answers with: the records and nodes of a dependency or conflict
check and the nodes of a search go back to libalpm exactly once, and nothing else does. -/
namespace Nyx.Alpm
open Linked Memory Text

/-- An answer handed over to the caller: a chain of nodes with a record each, none of which
was in memory before the call. -/
structure HandedOver (m m' : Mem) (head : Ptr) (cells : List (Ptr × Ptr)) : Prop where
  chain : Chain m'.link 0 head cells
  records : (cells.map Prod.snd).Nodup
  fresh : ∀ x ∈ cells, m.next ≤ x.1 ∧ m.next ≤ x.2

/-- Each of these cells has been freed exactly once, and no other cell since. -/
def FreedOnce (m m' : Mem) (ps : List Ptr) : Prop :=
  (∀ p ∈ ps, m'.freed p = 1) ∧ ∀ p, p ∉ ps → m'.freed p = m.freed p

def IsRecord (m : Mem) (p : Ptr) : Prop :=
  ∃ c, m.read p = some c ∧ ∀ d pr n, c ≠ .node d pr n

theorem live_of_read {m : Mem} {p : Ptr} {c : Cell} (h : m.read p = some c) : m.freed p = 0 := by
  unfold Mem.read at h
  split_ifs at h with hf
  exact hf

theorem read_of_link {m : Mem} {p : Ptr} {d : Ptr × Ptr} (h : m.link p = some d) :
    ∃ pr, m.read p = some (.node d.1 pr d.2) := by
  unfold Mem.link at h
  split at h
  · obtain rfl := Option.some.inj h
    exact ⟨_, ‹_›⟩
  · cases h

/-- A ledger that counts distinct live cells once more shows each of them freed once. -/
theorem freedOnce_of_count {m m' : Mem} {ps : List Ptr} (hnd : ps.Nodup)
    (hlive : ∀ p ∈ ps, m.freed p = 0) (hf : ∀ q, m'.freed q = m.freed q + ps.count q) :
    FreedOnce m m' ps := by
  constructor
  · intro p hp
    rw [hf, hlive p hp, List.count_eq_one_of_mem hnd hp]
  · intro p hp
    rw [hf, List.count_eq_zero.mpr hp, Nat.add_zero]

section Chain
variable {m : Mem} {head : Ptr} {cells : List (Ptr × Ptr)}

theorem live_node (hc : Chain m.link 0 head cells) : ∀ p ∈ cells.map Prod.fst, m.freed p = 0 := by
  intro p hp
  obtain ⟨y, hy, rfl⟩ := List.mem_map.mp hp
  obtain ⟨q, hq⟩ := hc.link_mem hy
  obtain ⟨pr, hread⟩ := read_of_link hq
  exact live_of_read hread

theorem live_record (hrec : ∀ x ∈ cells, IsRecord m x.2) :
    ∀ p ∈ cells.map Prod.snd, m.freed p = 0 := by
  intro p hp
  obtain ⟨x, hx, rfl⟩ := List.mem_map.mp hp
  obtain ⟨c, hread, -⟩ := hrec x hx
  exact live_of_read hread

/-- No cell is a node and a record. -/
theorem nodes_apart (hc : Chain m.link 0 head cells) (hrec : ∀ x ∈ cells, IsRecord m x.2) :
    ∀ x ∈ cells, ∀ y ∈ cells, y.1 ≠ x.2 := by
  intro x hx y hy heq
  obtain ⟨c, hread, hnode⟩ := hrec x hx
  obtain ⟨q, hq⟩ := hc.link_mem hy
  obtain ⟨pr, hpr⟩ := read_of_link hq
  rw [heq, hread] at hpr
  exact hnode _ _ _ (Option.some.inj hpr)

theorem nodup_cells (hc : Chain m.link 0 head cells) (hr : (cells.map Prod.snd).Nodup)
    (hrec : ∀ x ∈ cells, IsRecord m x.2) :
    (cells.map Prod.fst ++ cells.map Prod.snd).Nodup := by
  refine List.Nodup.append hc.nodup hr fun p hp hp' => ?_
  obtain ⟨y, hy, rfl⟩ := List.mem_map.mp hp
  obtain ⟨x, hx, heq⟩ := List.mem_map.mp hp'
  exact nodes_apart hc hrec x hx y hy heq.symm

end Chain

section Take
variable {σ α : Type} {v : World σ} {head : Ptr} {cells : List (Ptr × Ptr)} {xs : List α}

/-- Records are copied before they are freed, and they and their nodes are freed once each. -/
theorem takeOwned_spec {f : σ → Mem → Ptr → Option α} (hc : Chain v.mem.link 0 head cells)
    (hr : (cells.map Prod.snd).Nodup)
    (hf : List.Forall₂ (fun x d => f v.lib v.mem x.2 = some d) cells xs)
    (hrec : ∀ x ∈ cells, IsRecord v.mem x.2) :
    ∃ m, (Handle.takeOwned head f fun p m => m.free p : Ffi σ (List α)) v =
        some (xs, { v with mem := m }) ∧
      FreedOnce v.mem m (cells.map Prod.fst ++ cells.map Prod.snd) := by
  have hnonnull : ∀ x ∈ cells, x.2 ≠ 0 := by
    intro x hx
    obtain ⟨c, hread, -⟩ := hrec x hx
    exact (Mem.read_lt hread).1
  have hapart := nodes_apart hc hrec
  have hcollect := collect_chain (l := AlpmList.fromRaw head) hc hf
  obtain ⟨m₁, hm₁, hcell₁, hfreed₁⟩ := alpmListFreeInner_chain hc hnonnull hapart
  -- the nodes outlive their records
  have hc₁ : Chain m₁.link 0 head cells := by
    refine hc.congr fun y hy => Mem.link_congr ?_
    have hcount : (cells.map Prod.snd).count y.1 = 0 := by
      refine List.count_eq_zero.mpr fun hmem => ?_
      obtain ⟨x, hx, heq⟩ := List.mem_map.mp hmem
      exact hapart x hx y hy heq.symm
    rw [Mem.read, Mem.read, hfreed₁, hcount, hcell₁, Nat.add_zero]
  obtain ⟨m₂, hm₂, -, hfreed₂⟩ := alpmListFree_chain hc₁
  refine ⟨m₂, ?_, freedOnce_of_count (nodup_cells hc hr hrec) ?_ fun q => ?_⟩
  · simp only [Handle.takeOwned, Ffi.alpmListFreeInner, Ffi.alpmListFree, Ffi.bind_apply,
      Ffi.collect_apply, Ffi.act_apply, Ffi.pure_apply, hcollect, hm₁, hm₂, Option.map_some,
      Option.bind_some]
  · exact List.forall_mem_append.mpr ⟨live_node hc, live_record hrec⟩
  · rw [hfreed₂, hfreed₁, List.count_append, Nat.add_assoc, Nat.add_comm (List.count q _)]

theorem takeResult_spec {r : AlpmReply} (hrc : r.rc = 0) (hc : Chain v.mem.link 0 r.ptr cells) :
    ∃ m, (Db.takeResult r : Ffi σ (Except AlpmError (List Package))) v =
        some (.ok (cells.map fun x => ⟨x.2⟩), { v with mem := m }) ∧
      FreedOnce v.mem m (cells.map Prod.fst) := by
  have hitems : List.Forall₂ (fun x d => some (Package.fromRaw x.2) = some d) cells
      (cells.map fun x => (⟨x.2⟩ : Package)) := by
    rw [List.forall₂_map_right_iff]
    exact List.forall₂_same.mpr fun x _ => rfl
  have hcollect := collect_chain (l := AlpmList.fromRaw r.ptr)
    (f := fun _ p => some (Package.fromRaw p)) hc hitems
  obtain ⟨m, hm, -, hfreed⟩ := alpmListFree_chain hc
  refine ⟨m, ?_, freedOnce_of_count hc.nodup (live_node hc) hfreed⟩
  simp only [Db.takeResult, hrc, ne_eq, not_true_eq_false, if_false, Ffi.alpmListFree,
    Ffi.bind_apply, Ffi.collect_apply, Ffi.act_apply, Ffi.pure_apply, hcollect, hm,
    Option.map_some, Option.bind_some]

end Take

/-- After one call the cells are back with libalpm, once each; nothing else of what the call
left was freed, and nothing at all of what was in memory before it. -/
structure GivenBack {σ : Type} (L : Libalpm σ) (w w' : World σ) (c : AlpmCall) (m : Mem)
    (ps : List Ptr) : Prop where
  answered : Answered L w w' c m
  once : FreedOnce (L.call c m w.lib).2.1 w'.mem ps
  others : ∀ p < m.next, w'.mem.freed p = (L.call c m w.lib).2.1.freed p

def ChecksDeps (h : Handle) (pkglist remove upgrade : List Package) (reverseDeps : Bool)
    (c : AlpmCall) (m : Mem) : Prop :=
  ∃ p q r, c = .alpmCheckdeps h.raw p q r reverseDeps ∧ FindsAll m p (pkglist.map Package.raw) ∧
    FindsAll m q (remove.map Package.raw) ∧ FindsAll m r (upgrade.map Package.raw)

def ChecksConflicts (h : Handle) (pkglist : List Package) (c : AlpmCall) (m : Mem) : Prop :=
  ∃ p, c = .alpmCheckconflicts h.raw p ∧ FindsAll m p (pkglist.map Package.raw)

def Searches (db : Db) (needles : List String) (c : AlpmCall) (m : Mem) : Prop :=
  ∃ p ps, c = .alpmDbSearch db.raw p ∧ FindsAll m p ps ∧ List.Forall₂ (Finds m) ps needles

theorem forall_records {α : Type} {R : Ptr → α → Prop} {P : Ptr → Prop} {cells : List (Ptr × Ptr)}
    {ds : List α} (hd : List.Forall₂ (fun y d => R y.2 d) cells ds) (h : ∀ p d, R p d → P p) :
    ∀ y ∈ cells, P y.2 := by
  induction hd with
  | nil => exact fun y hy => absurd hy List.not_mem_nil
  | cons hhead hrest ih => exact List.forall_mem_cons.mpr ⟨h _ _ hhead, ih⟩

section Released
variable {σ : Type} (L : Libalpm σ) (w : World σ)

theorem FindsAll.fromPtrs {m : Mem} {p : Ptr} {ps : List Ptr} (h : FindsAll m p ps)
    (qs : List Ptr) : FindsAll (BorrowedList.fromPtrs m qs).2 p ps := by
  obtain ⟨ns, hc, hps⟩ := h
  refine ⟨ns, hc.congr fun n hn => Mem.link_congr (BorrowedList.fromPtrs_read qs ?_), hps⟩
  obtain ⟨q, hq⟩ := hc.link_mem hn
  exact Mem.link_lt hq

theorem givenBack {c : AlpmCall} {m m' : Mem} {ps : List Ptr} (owned : List Ptr)
    (hf : FreedOnce (L.call c m w.lib).2.1 m' ps) (hfresh : ∀ p ∈ ps, m.next ≤ p) :
    GivenBack L w (World.drop { World.answered L { w with mem := m } c with mem := m' } owned) c m
      ps := by
  refine ⟨⟨rfl, rfl⟩, hf, fun p hp => hf.2 p fun hmem => ?_⟩
  exact absurd (hfresh p hmem) (Nat.not_le.mpr hp)

theorem HandedOver.fresh_all {m m' : Mem} {head : Ptr} {cells : List (Ptr × Ptr)}
    (h : HandedOver m m' head cells) :
    ∀ p ∈ cells.map Prod.fst ++ cells.map Prod.snd, m.next ≤ p := by
  intro p hp
  rcases List.mem_append.mp hp with hp | hp
  · obtain ⟨x, hx, rfl⟩ := List.mem_map.mp hp
    exact (h.fresh x hx).1
  · obtain ⟨x, hx, rfl⟩ := List.mem_map.mp hp
    exact (h.fresh x hx).2

/-- What every answer of a check comes to: its records copied out and all of it given back. -/
def Taken {α : Type} (x : Ffi σ (List α)) (Copy : Mem → Ptr → α → Prop) (c : AlpmCall) (m : Mem) :
    Prop :=
  ∀ cells ds, HandedOver m (L.call c m w.lib).2.1 (L.call c m w.lib).1.ptr cells →
    List.Forall₂ (fun y d => Copy (L.call c m w.lib).2.1 y.2 d) cells ds →
    ∃ w', x w = some (ds, w') ∧ GivenBack L w w' c m (cells.map Prod.fst ++ cells.map Prod.snd)

theorem DepMissing.CopyOf.isRecord {m : Mem} {raw : Ptr} {d : DepMissing} (h : d.CopyOf m raw) :
    IsRecord m raw := by
  obtain ⟨t, dep, c, hread, -⟩ := h
  exact ⟨_, hread, fun x pr n hcell => by cases hcell⟩

theorem Conflict.CopyOf.isRecord {L : Libalpm σ} {lib : σ} {m : Mem} {raw : Ptr} {d : Conflict}
    (h : d.CopyOf L lib m raw) : IsRecord m raw := by
  obtain ⟨p, q, r, hread, -⟩ := h
  exact ⟨_, hread, fun x pr n hcell => by cases hcell⟩

theorem checkDeps_spec (h : Handle) (pkglist remove upgrade : List Package) (reverseDeps : Bool) :
    ∃ c m, ChecksDeps h pkglist remove upgrade reverseDeps c m ∧
      Taken L w (h.checkDeps L pkglist remove upgrade reverseDeps)
        DepMissing.CopyOf c m := by
  let a := BorrowedList.fromPtrs w.mem (pkglist.map Package.raw)
  let b := BorrowedList.fromPtrs a.2 (remove.map Package.raw)
  let d := BorrowedList.fromPtrs b.2 (upgrade.map Package.raw)
  let c := AlpmCall.alpmCheckdeps h.raw a.1.asRaw b.1.asRaw d.1.asRaw reverseDeps
  refine ⟨c, d.2, ⟨_, _, _, rfl, ((findsAll_fromPtrs _ _).fromPtrs _).fromPtrs _,
    (findsAll_fromPtrs _ _).fromPtrs _, findsAll_fromPtrs _ _⟩, fun cells ds ho hd => ?_⟩
  have hrec := forall_records hd fun _ _ => DepMissing.CopyOf.isRecord
  have hf := hd.imp fun _ _ => DepMissing.fromRaw_of_copyOf
  obtain ⟨m, hrun, hfreed⟩ := takeOwned_spec (v := World.answered L { w with mem := d.2 } c)
    (f := fun _ => DepMissing.fromRaw) ho.chain ho.records hf hrec
  have hdrop : h.checkDeps L pkglist remove upgrade reverseDeps w =
      (Handle.takeOwned (L.call c d.2 w.lib).1.ptr (fun _ => DepMissing.fromRaw) freeDepmissing
        >>= fun out => Ffi.drop (a.1.nodes ++ b.1.nodes ++ d.1.nodes) >>= fun _ => pure out)
        (World.answered L { w with mem := d.2 } c) := rfl
  exact ⟨_, hdrop.trans (Ffi.bind_of_some hrun), givenBack L w _ hfreed ho.fresh_all⟩

theorem checkConflicts_spec (h : Handle) (pkglist : List Package) :
    ∃ c m, ChecksConflicts h pkglist c m ∧
      Taken L w (h.checkConflicts L pkglist) (Conflict.CopyOf L (L.call c m w.lib).2.2) c m := by
  let a := BorrowedList.fromPtrs w.mem (pkglist.map Package.raw)
  let c := AlpmCall.alpmCheckconflicts h.raw a.1.asRaw
  refine ⟨c, a.2, ⟨_, rfl, findsAll_fromPtrs _ _⟩, fun cells ds ho hd => ?_⟩
  have hrec := forall_records hd fun _ _ => Conflict.CopyOf.isRecord
  have hf := hd.imp fun _ _ => Conflict.fromRaw_of_copyOf
  obtain ⟨m, hrun, hfreed⟩ := takeOwned_spec (v := World.answered L { w with mem := a.2 } c)
    (f := Conflict.fromRaw L) ho.chain ho.records hf hrec
  have hdrop : h.checkConflicts L pkglist w =
      (Handle.takeOwned (L.call c a.2 w.lib).1.ptr (Conflict.fromRaw L) freeConflict
        >>= fun out => Ffi.drop a.1.nodes >>= fun _ => pure out)
        (World.answered L { w with mem := a.2 } c) := rfl
  exact ⟨_, hdrop.trans (Ffi.bind_of_some hrun), givenBack L w _ hfreed ho.fresh_all⟩

/-- What every answer of a search comes to: its packages in order and its nodes given back, or
an error and nothing given back, whatever the result pointer holds. -/
def Found (x : Ffi σ (Except AlpmError (List Package))) (c : AlpmCall) (m : Mem) : Prop :=
  ((L.call c m w.lib).1.rc = 0 → ∀ cells,
    Chain (L.call c m w.lib).2.1.link 0 (L.call c m w.lib).1.ptr cells →
    (∀ y ∈ cells, m.next ≤ y.1) →
    ∃ w', x w = some (.ok (cells.map fun y => ⟨y.2⟩), w') ∧
      GivenBack L w w' c m (cells.map Prod.fst)) ∧
  ((L.call c m w.lib).1.rc ≠ 0 →
    ∃ e w', x w = some (.error e, w') ∧ GivenBack L w w' c m [])

theorem search_spec (db : Db) {needles : List String} (hn : ∀ s ∈ needles, NameOk s) :
    ∃ c m, Searches db needles c m ∧ Found L w (db.search L needles) c m := by
  obtain ⟨cs, hcs, hf⟩ := mapM_new_ok hn
  let a := w.mem.allocAll (cs.map CString.buffer)
  let b := BorrowedList.fromPtrs a.2 a.1
  let c := AlpmCall.alpmDbSearch db.raw b.1.asRaw
  have hdrop : db.search L needles w =
      (Db.takeResult (L.call c b.2 w.lib).1
        >>= fun v => Ffi.drop (a.1 ++ b.1.nodes) >>= fun _ => pure v)
        (World.answered L { w with mem := b.2 } c) := by
    simp only [Db.search, hcs]
    rfl
  refine ⟨c, b.2, ⟨_, a.1, rfl, findsAll_fromPtrs _ _, finds_needles hf⟩,
    fun hrc cells hchain hfresh => ?_, fun hrc => ?_⟩
  · obtain ⟨m, hrun, hfreed⟩ :=
      takeResult_spec (v := World.answered L { w with mem := b.2 } c) hrc hchain
    have hnodes : ∀ p ∈ cells.map Prod.fst, b.2.next ≤ p := by
      intro p hp
      obtain ⟨y, hy, rfl⟩ := List.mem_map.mp hp
      exact hfresh y hy
    exact ⟨_, hdrop.trans (Ffi.bind_of_some hrun), givenBack L w _ hfreed hnodes⟩
  · have hrun : (Db.takeResult (L.call c b.2 w.lib).1 : Ffi σ (Except AlpmError (List Package)))
        (World.answered L { w with mem := b.2 } c) =
        some (.error ⟨-1, "alpm_db_search failed"⟩, World.answered L { w with mem := b.2 } c) := by
      rw [Db.takeResult, if_pos hrc]
      rfl
    have hnone : FreedOnce (L.call c b.2 w.lib).2.1 (L.call c b.2 w.lib).2.1 [] :=
      ⟨fun p hp => absurd hp List.not_mem_nil, fun p _ => rfl⟩
    exact ⟨_, _, hdrop.trans (Ffi.bind_of_some hrun),
      givenBack L w _ hnone fun p hp => absurd hp List.not_mem_nil⟩

/-- A dependency or conflict check answers with copies of all the records it was handed, in
order, and gives every record and node of the answer back exactly once. A search gives back
the nodes and no package, and nothing if it failed. Nothing that was in memory before, such as
the arguments and the chains built of them, goes to libalpm. -/
theorem answers_released :
    (∀ (h : Handle) (pkglist remove upgrade : List Package) (reverseDeps : Bool),
      ∃ c m, ChecksDeps h pkglist remove upgrade reverseDeps c m ∧
        Taken L w (h.checkDeps L pkglist remove upgrade reverseDeps) DepMissing.CopyOf c m) ∧
    (∀ (h : Handle) (pkglist : List Package), ∃ c m, ChecksConflicts h pkglist c m ∧
      Taken L w (h.checkConflicts L pkglist) (Conflict.CopyOf L (L.call c m w.lib).2.2) c m) ∧
    ∀ (db : Db) (needles : List String),
      ((∀ s ∈ needles, NameOk s) →
        ∃ c m, Searches db needles c m ∧ Found L w (db.search L needles) c m) ∧
      ((¬ ∀ s ∈ needles, NameOk s) → ∃ e, db.search L needles w = some (.error e, w)) := by
  refine ⟨checkDeps_spec L w, checkConflicts_spec L w, fun db needles =>
    ⟨search_spec L w db, fun hn => ⟨⟨-1, "search needle contains an interior NUL byte"⟩, ?_⟩⟩⟩
  rw [Db.search, mapM_new_none hn]
  rfl

end Released

/-- A library whose every answer is one missing dependency on a. -/
def missing : Libalpm Unit where
  call _ m s := (⟨m.next + 3, 0, 0⟩, (m.allocAll [.chars [97, 0], .depend m.next 0 0 .any,
    .depmissing m.next (m.next + 1) 0, .node (m.next + 2) 0 0]).2, s)
  errno _ _ := 0
  strerror _ := none
  pkgGetName _ _ _ := 0

theorem answers_released_missing :
    ∃ c m w', Handle.checkDeps missing ⟨1⟩ [⟨2⟩] [] [] false blank =
        some ([⟨"a", ⟨"a", none, none, .any⟩, none⟩], w') ∧
      GivenBack missing blank w' c m [m.next + 3, m.next + 2] := by
  obtain ⟨c, m, -, htaken⟩ := (answers_released missing blank).1 ⟨1⟩ [⟨2⟩] [] [] false
  let cells : List Cell := [.chars [97, 0], .depend m.next 0 0 .any,
    .depmissing m.next (m.next + 1) 0, .node (m.next + 2) 0 0]
  have hread : ∀ i (h : i < 4), (m.allocAll cells).2.read (m.next + i) = some cells[i] :=
    fun i h => Mem.read_allocAll_new m cells h
  have hstr : cstr (m.allocAll cells).2 m.next = some "a" := by
    have hname := optCstr_buffer (s := "a") (c := ⟨[97], by decide⟩) (by decide +kernel)
      (hread 0 (by decide))
    exact congrArg (Option.map (·.getD "")) hname
  have hdep : Dependency.CopyOf (m.allocAll cells).2 (m.next + 1) ⟨"a", none, none, .any⟩ :=
    ⟨m.next, 0, 0, .any, hread 1 (by decide), hstr, rfl, rfl, rfl⟩
  have hnode : (m.allocAll cells).2.link (m.next + 3) = some (m.next + 2, 0) := by
    rw [Mem.link, hread 3 (by decide)]
    rfl
  have hcopy : DepMissing.CopyOf (m.allocAll cells).2 (m.next + 2)
      ⟨"a", ⟨"a", none, none, .any⟩, none⟩ :=
    ⟨m.next, m.next + 1, 0, hread 2 (by decide), hstr, hdep, rfl⟩
  obtain ⟨w', hrun, hback⟩ := htaken [(m.next + 3, m.next + 2)] _
    ⟨.cons (Nat.succ_ne_zero _) hnode .nil, List.nodup_singleton _, by simp⟩ (.cons hcopy .nil)
  exact ⟨c, m, w', hrun, hback⟩

end Nyx.Alpm
