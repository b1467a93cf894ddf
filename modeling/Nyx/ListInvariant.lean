import Nyx.AlpmNull
import Nyx.AlpmStrings

/-! What libalpm may rely on in the lists Nyx hands to it. libalpm keeps its own lists doubly
linked, the first node leading back to the last; the chains of `BorrowedList` lead forward only. -/
namespace Nyx.Alpm
open Linked Memory Text

def nextOf (m : Mem) (p : Ptr) : Option Ptr :=
  match m.read p with
  | some (.node _ _ next) => some next
  | _ => none

def prevOf (m : Mem) (p : Ptr) : Option Ptr :=
  match m.read p with
  | some (.node _ prev _) => some prev
  | _ => none

/-- `alpm_list_last`: the first node knows the last one. -/
def alpmListLast (m : Mem) (list : Ptr) : Option Ptr := if list = 0 then some 0 else prevOf m list

/-- `alpm_list_previous`: the first node is told by what it leads back to leading nowhere. -/
def alpmListPrevious (m : Mem) (list : Ptr) : Option Ptr :=
  if list = 0 then some 0
  else do
    let prev ← prevOf m list
    let next ← nextOf m prev
    return if next = 0 then 0 else prev

/-- Nodes linked as libalpm links its own. -/
abbrev DoublyLinked (m : Mem) (nodes : List Ptr) : Prop := Doubly (nextOf m) (prevOf m) 0 nodes

abbrev ForwardOnly (m : Mem) (nodes : List Ptr) : Prop := Forward (nextOf m) (prevOf m) 0 nodes

theorem DoublyLinked.last {m : Mem} {nodes : List Ptr} (h : DoublyLinked m nodes)
    (h0 : 0 ∉ nodes) : alpmListLast m (nodes.headD 0) = some (nodes.getLastD 0) := by
  cases nodes with
  | nil => rfl
  | cons a nodes =>
    have ha : a ≠ 0 := fun ha => h0 (ha ▸ List.mem_cons_self)
    rw [List.headD_cons, alpmListLast, if_neg ha, h.head a rfl, List.getLast?_cons,
      List.getLastD_cons, List.getLastD_eq_getLast?]

theorem alpmListLast_forward {m : Mem} {nodes : List Ptr} (h : ForwardOnly m nodes) :
    alpmListLast m (nodes.headD 0) = some 0 := by
  cases nodes with
  | nil => rfl
  | cons a nodes =>
    have ha := h.live a List.mem_cons_self
    rw [List.headD_cons, alpmListLast, if_neg ha, h.back a List.mem_cons_self]

/-- Where nothing leads back, the question what came before reads the null pointer. -/
theorem alpmListPrevious_forward {m : Mem} {nodes : List Ptr} (h : ForwardOnly m nodes) {a : Ptr}
    (ha : a ∈ nodes) : alpmListPrevious m a = none := by
  have hnull : nextOf m 0 = none := by simp [nextOf, Mem.read, m.null]
  simp [alpmListPrevious, h.live a ha, h.back a ha, hnull]

theorem ForwardOnly.congr {m m' : Mem} {nodes : List Ptr} (h : ForwardOnly m nodes)
    (hr : ∀ a ∈ nodes, m'.read a = m.read a) : ForwardOnly m' nodes :=
  Forward.congr h fun a ha => by simp [nextOf, prevOf, hr a ha]

theorem ForwardOnly.lt {m : Mem} {nodes : List Ptr} (h : ForwardOnly m nodes) {a : Ptr}
    (ha : a ∈ nodes) : a < m.next := by
  have hback := h.back a ha
  unfold prevOf at hback
  split at hback
  · exact (Mem.read_lt ‹_›).2
  · cases hback

theorem fromPtrs_forward (m : Mem) (ptrs : List Ptr) :
    ForwardOnly (BorrowedList.fromPtrs m ptrs).2 (BorrowedList.fromPtrs m ptrs).1.nodes ∧
      (BorrowedList.fromPtrs m ptrs).1.asRaw =
        (BorrowedList.fromPtrs m ptrs).1.nodes.headD 0 := by
  have hlinks := (BorrowedList.links_read rfl
    (fun i => BorrowedList.boxes_read_node m ptrs (i := i)) ptrs.length le_rfl).1
  have hread : ∀ i (h : i < ptrs.length), (BorrowedList.fromPtrs m ptrs).2.read (m.next + i) =
      some (.node ptrs[i] 0 (if i + 1 < ptrs.length then m.next + i + 1 else 0)) := by
    intro i h
    have hi := hlinks i h
    simp only [h, true_and] at hi
    rw [BorrowedList.fromPtrs, BorrowedList.boxes_nodes, List.length_range']
    exact hi
  rw [BorrowedList.fromPtrs_nodes]
  refine ⟨⟨?_, ?_, ?_, ?_⟩, ?_⟩
  · intro a ha
    have hpos := m.pos
    have hle := (List.mem_range'_1.mp ha).1
    exact (lt_of_lt_of_le hpos hle).ne'
  · intro i hi
    rw [List.length_range'] at hi
    simp only [List.getElem_range', nextOf, one_mul, hread i (by omega), if_pos hi]
    rfl
  · intro a ha
    have hlen : 0 < ptrs.length := by
      by_contra h0
      simp [List.length_eq_zero_iff.mp (Nat.eq_zero_of_not_pos h0)] at ha
    have hlast : m.next + ptrs.length - 1 = a := by
      simpa [List.getLast?_range', hlen.ne'] using ha
    rw [← hlast, Nat.add_sub_assoc hlen, nextOf, hread _ (by omega), if_neg (by omega)]
  · intro a ha
    obtain ⟨hle, hlt⟩ := List.mem_range'_1.mp ha
    obtain ⟨i, rfl⟩ := Nat.exists_eq_add_of_le hle
    rw [prevOf, hread i (by omega)]
  · rw [BorrowedList.asRaw, BorrowedList.fromPtrs, BorrowedList.boxes_nodes]

/-- The lists a call is given. -/
def AlpmCall.lists : AlpmCall → List Ptr
  | .alpmDbUpdate _ dbs _ => [dbs]
  | .alpmCheckdeps _ pkglist remove upgrade _ => [pkglist, remove, upgrade]
  | .alpmCheckconflicts _ pkglist => [pkglist]
  | .alpmFindDbsSatisfier _ dbs _ => [dbs]
  | .alpmDbSearch _ needles => [needles]
  | .alpmInitialize .. | .alpmOptionAddCachedir .. | .alpmOptionSetLogfile .. | .alpmGetLocaldb _
  | .alpmRegisterSyncdb .. | .alpmGetSyncdbs _ | .alpmDbGetPkg .. | .alpmDbGetPkgcache _ => []

/-- The list at a pointer leads forward only. -/
def Plain (m : Mem) (list : Ptr) : Prop := ∃ nodes, list = nodes.headD 0 ∧ ForwardOnly m nodes

/-- Code that hands no list to libalpm but such as lead forward only. -/
def HandsPlain {σ α : Type} (x : Ffi σ α) : Prop :=
  ∀ {w w' : World σ} {a : α}, x w = some (a, w') →
    ∃ evs, w'.log = evs ++ w.log ∧ ∀ ev ∈ evs, ∀ l ∈ ev.call.lists, Plain ev.before l

section Hands
variable {σ α : Type} {L : Libalpm σ} {w : World σ}

theorem plain_fromPtrs (m : Mem) (ptrs : List Ptr) :
    Plain (BorrowedList.fromPtrs m ptrs).2 (BorrowedList.fromPtrs m ptrs).1.asRaw :=
  ⟨_, (fromPtrs_forward m ptrs).2, (fromPtrs_forward m ptrs).1⟩

theorem Plain.fromPtrs {m : Mem} {l : Ptr} (h : Plain m l) (ptrs : List Ptr) :
    Plain (BorrowedList.fromPtrs m ptrs).2 l := by
  obtain ⟨nodes, hl, hf⟩ := h
  exact ⟨nodes, hl, hf.congr fun a ha => BorrowedList.fromPtrs_read ptrs (hf.lt ha)⟩

theorem Plain.alloc {m : Mem} {l : Ptr} (h : Plain m l) (c : Cell) : Plain (m.alloc c).2 l := by
  obtain ⟨nodes, hl, hf⟩ := h
  exact ⟨nodes, hl, hf.congr fun a ha => Mem.read_alloc c (hf.lt ha).ne⟩

/-- One call, made where its lists are plain, and nothing but silent code after it. -/
theorem log_of_call {c : AlpmCall} {m : Mem} {k : AlpmReply → Ffi σ α}
    (hk : ∀ r, Ffi.Silent (k r)) (hl : ∀ l ∈ c.lists, Plain m l) {w' : World σ} {a : α}
    (h : (Ffi.call L c >>= k) { w with mem := m } = some (a, w')) :
    ∃ evs, w'.log = evs ++ w.log ∧ ∀ ev ∈ evs, ∀ l ∈ ev.call.lists, Plain ev.before l := by
  rw [Ffi.bind_apply, Ffi.call_apply, Option.bind_some] at h
  refine ⟨[⟨c, m, (L.call c m w.lib).1, (L.call c m w.lib).2.1⟩], (hk _ h).2, ?_⟩
  intro ev hev
  obtain rfl := List.mem_singleton.mp hev
  exact hl

theorem silent_checkRc (h : Handle) (rc : Int32) : Ffi.Silent (h.checkRc L rc) := by
  intro w w' a hx
  rw [checkRc_apply] at hx
  obtain ⟨-, rfl⟩ := Prod.mk.inj (Option.some.inj hx)
  exact ⟨rfl, rfl⟩

theorem updateDbs_plain (h : Handle) (dbs : List Db) (force : Bool) :
    HandsPlain (h.updateDbs L dbs force) := by
  intro w w' a hx
  simp only [Handle.updateDbs, Ffi.bind_apply (Ffi.fromPtrs _), Ffi.fromPtrs_apply,
    Option.bind_some] at hx
  refine log_of_call (fun r => ?_) (fun l hl => ?_) hx
  · exact Ffi.silent_bind (silent_checkRc h _) fun _ =>
      Ffi.silent_bind (Ffi.silent_drop _) fun _ => Ffi.silent_pure _
  · obtain rfl := List.mem_singleton.mp hl
    exact plain_fromPtrs _ _

theorem checkDeps_plain (h : Handle) (pkglist remove upgrade : List Package)
    (reverseDeps : Bool) : HandsPlain (h.checkDeps L pkglist remove upgrade reverseDeps) := by
  intro w w' a hx
  simp only [Handle.checkDeps, Ffi.bind_apply (Ffi.fromPtrs _), Ffi.fromPtrs_apply,
    Option.bind_some] at hx
  refine log_of_call (fun r => ?_) (fun l hl => ?_) hx
  · exact Ffi.silent_bind (silent_takeOwned _ _ _) fun _ =>
      Ffi.silent_bind (Ffi.silent_drop _) fun _ => Ffi.silent_pure _
  · simp only [AlpmCall.lists, List.mem_cons, List.not_mem_nil, or_false] at hl
    rcases hl with rfl | rfl | rfl
    · exact ((plain_fromPtrs _ _).fromPtrs _).fromPtrs _
    · exact (plain_fromPtrs _ _).fromPtrs _
    · exact plain_fromPtrs _ _

theorem checkConflicts_plain (h : Handle) (pkglist : List Package) :
    HandsPlain (h.checkConflicts L pkglist) := by
  intro w w' a hx
  simp only [Handle.checkConflicts, Ffi.bind_apply (Ffi.fromPtrs _), Ffi.fromPtrs_apply,
    Option.bind_some] at hx
  refine log_of_call (fun r => ?_) (fun l hl => ?_) hx
  · exact Ffi.silent_bind (silent_takeOwned _ _ _) fun _ =>
      Ffi.silent_bind (Ffi.silent_drop _) fun _ => Ffi.silent_pure _
  · obtain rfl := List.mem_singleton.mp hl
    exact plain_fromPtrs _ _

theorem findDbsSatisfier_plain (h : Handle) (dbs : List Db) (depstring : String) :
    HandsPlain (h.findDbsSatisfier L dbs depstring) := by
  intro w w' a hx
  by_cases hn : NameOk depstring
  · obtain ⟨depstringC, hc, -⟩ := new_ok hn
    simp only [Handle.findDbsSatisfier, hc, Ffi.bind_apply (Ffi.fromPtrs _), Ffi.fromPtrs_apply,
      Ffi.bind_apply depstringC.asPtr, asPtr_apply, Option.bind_some] at hx
    refine log_of_call (fun r => ?_) (fun l hl => ?_) hx
    · exact Ffi.silent_bind (Ffi.silent_drop _) fun _ => Ffi.silent_pure _
    · obtain rfl := List.mem_singleton.mp hl
      exact (plain_fromPtrs _ _).alloc _
  · obtain ⟨v, hv, -, hlog⟩ := findDbsSatisfier_rejected L w h dbs hn
    obtain ⟨-, rfl⟩ := Prod.mk.inj (Option.some.inj (hv.symm.trans hx))
    exact ⟨[], hlog, fun ev hev => absurd hev List.not_mem_nil⟩

theorem silent_takeResult (r : AlpmReply) : Ffi.Silent (Db.takeResult r : Ffi σ _) := by
  unfold Db.takeResult
  split_ifs
  · exact Ffi.silent_pure _
  · exact Ffi.silent_bind (Ffi.silent_collect _ _) fun _ =>
      Ffi.silent_bind (Ffi.silent_act _) fun _ => Ffi.silent_pure _

theorem search_plain (db : Db) (needles : List String) : HandsPlain (db.search L needles) := by
  intro w w' a hx
  cases hc : needles.mapM fun s => CString.new (bytes s) with
  | none =>
    simp only [Db.search, hc] at hx
    exact ⟨[], (Ffi.silent_pure _ hx).2, fun ev hev => absurd hev List.not_mem_nil⟩
  | some needleCstrings =>
    simp only [Db.search, hc, Ffi.bind_apply (Ffi.act _), Ffi.act_apply, Option.map_some,
      Ffi.bind_apply (Ffi.fromPtrs _), Ffi.fromPtrs_apply, Option.bind_some] at hx
    refine log_of_call (fun r => ?_) (fun l hl => ?_) hx
    · exact Ffi.silent_bind (silent_takeResult r) fun _ =>
        Ffi.silent_bind (Ffi.silent_drop _) fun _ => Ffi.silent_pure _
    · obtain rfl := List.mem_singleton.mp hl
      exact plain_fromPtrs _ _

end Hands

/-- The chains Nyx builds lead forward only, one node to the next and the last nowhere, and no
node leads back, so but for the empty one none is linked as libalpm links its own lists: the
last node is not found, and to ask for what came before a node is undefined. These are the
lists that the calls for updates, dependencies, conflicts, satisfiers and searches are given. -/
theorem chains_lead_forward {σ : Type} (L : Libalpm σ) :
    (∀ (m : Mem) (ptrs : List Ptr), ptrs ≠ [] →
      let b := (BorrowedList.fromPtrs m ptrs).1
      let m' := (BorrowedList.fromPtrs m ptrs).2
      b.asRaw ≠ 0 ∧ b.asRaw = b.nodes.headD 0 ∧ b.nodes.length = ptrs.length ∧
        ForwardOnly m' b.nodes ∧ ¬ DoublyLinked m' b.nodes ∧ alpmListLast m' b.asRaw = some 0 ∧
        ∀ a ∈ b.nodes, alpmListPrevious m' a = none) ∧
    (∀ (h : Handle) (dbs : List Db) (force : Bool), HandsPlain (h.updateDbs L dbs force)) ∧
    (∀ (h : Handle) (pkglist remove upgrade : List Package) (reverseDeps : Bool),
      HandsPlain (h.checkDeps L pkglist remove upgrade reverseDeps)) ∧
    (∀ (h : Handle) (pkglist : List Package), HandsPlain (h.checkConflicts L pkglist)) ∧
    (∀ (h : Handle) (dbs : List Db) (depstring : String),
      HandsPlain (h.findDbsSatisfier L dbs depstring)) ∧
    ∀ (db : Db) (needles : List String), HandsPlain (db.search L needles) := by
  refine ⟨fun m ptrs hne => ?_, updateDbs_plain, checkDeps_plain, checkConflicts_plain,
    findDbsSatisfier_plain, search_plain⟩
  intro b m'
  obtain ⟨hf, hhead⟩ := fromPtrs_forward m ptrs
  have hlen : b.nodes.length = ptrs.length := by
    rw [BorrowedList.fromPtrs_nodes, List.length_range']
  have hnodes : b.nodes ≠ [] := by
    rw [Ne, ← List.length_eq_zero_iff, hlen, List.length_eq_zero_iff]
    exact hne
  refine ⟨?_, hhead, hlen, hf, hf.not_doubly hnodes, ?_, fun a ha => alpmListPrevious_forward hf ha⟩
  · have hmem := List.head_mem hnodes
    rw [hhead, List.headD_eq_head?_getD, List.head?_eq_some_head hnodes]
    exact hf.live _ hmem
  · rw [hhead]
    exact alpmListLast_forward hf

theorem chains_lead_forward_single :
    let b := (BorrowedList.fromPtrs blank.mem [5]).1
    let m' := (BorrowedList.fromPtrs blank.mem [5]).2
    b.asRaw ≠ 0 ∧ b.asRaw = b.nodes.headD 0 ∧ b.nodes.length = 1 ∧
      ForwardOnly m' b.nodes ∧ ¬ DoublyLinked m' b.nodes ∧ alpmListLast m' b.asRaw = some 0 ∧
      ∀ a ∈ b.nodes, alpmListPrevious m' a = none :=
  (chains_lead_forward (replying ⟨0, 0, 0⟩ 0)).1 blank.mem [5] (List.cons_ne_nil _ _)

/-- A single node does not lead back to itself, so it is not found as the last one. -/
theorem single_chain_unlinked :
    let b := (BorrowedList.fromPtrs blank.mem [5]).1
    let m' := (BorrowedList.fromPtrs blank.mem [5]).2
    b.nodes = [1] ∧ b.asRaw = 1 ∧ prevOf m' 1 = some 0 ∧ ¬ DoublyLinked m' b.nodes ∧
      alpmListLast m' 1 = some 0 ∧ alpmListPrevious m' 1 = none := by
  intro b m'
  have hnodes : b.nodes = [1] := by decide +kernel
  refine ⟨hnodes, by decide +kernel, by decide +kernel, fun h => ?_, by decide +kernel,
    by decide +kernel⟩
  rw [hnodes] at h
  have hhead := h.head 1 rfl
  revert hhead
  decide +kernel

end Nyx.Alpm
