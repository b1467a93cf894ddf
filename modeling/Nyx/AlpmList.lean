import Nyx.Memory

/-! `AlpmList`, the read-only walk over an `alpm_list_t`, and `BorrowedList`, the chains Nyx
builds for libalpm to read. -/
namespace Nyx.Alpm
open Linked Memory

/-- The type of the items is a matter of what is done with them. -/
structure AlpmList where
  head : Ptr

structure AlpmListIter where
  mem : Mem
  node : Ptr

def AlpmListIter.next (it : AlpmListIter) : Option (Option Ptr × AlpmListIter) :=
  if it.node = 0 then some (none, it)
  else match it.mem.link it.node with
    | none => none
    | some (data, next) => some (some data, { it with node := next })

/-- Calls `next` until there are no more items. -/
def AlpmListIter.collect {α : Type} (f : Mem → Ptr → Option α) :
    ℕ → AlpmListIter → Option (List α × AlpmListIter)
  | 0, _ => none
  | n + 1, it =>
    match it.next with
    | none => none
    | some (none, it) => some ([], it)
    | some (some data, it) =>
      match f it.mem data with
      | none => none
      | some x => (collect f n it).map fun r => (x :: r.1, r.2)

namespace AlpmList

def fromRaw (head : Ptr) : AlpmList := ⟨head⟩

def isEmpty (l : AlpmList) : Bool := l.head = 0

def len (m : Mem) (l : AlpmList) : Option ℕ := alpmListCount m l.head

/-- `list.iter().map(f).collect()`, and the memory it leaves. -/
def collect {α : Type} (m : Mem) (l : AlpmList) (f : Mem → Ptr → Option α) :
    Option (List α × Mem) :=
  (AlpmListIter.collect f m.fuel ⟨m, l.head⟩).map fun r => (r.1, r.2.mem)

/-- `list.iter().collect()` -/
def iter (m : Mem) (l : AlpmList) : Option (List Ptr × Mem) := l.collect m fun _ => some

end AlpmList

theorem collect_eq_walk {α : Type} (f : Mem → Ptr → Option α) (n : ℕ) (it : AlpmListIter) :
    it.collect f n = (walk it.mem.link 0 (f it.mem) n it.node).map fun xs => (xs, ⟨it.mem, 0⟩) := by
  induction n generalizing it with
  | zero => rfl
  | succ n ih =>
    obtain ⟨m, p⟩ := it
    unfold AlpmListIter.collect AlpmListIter.next walk
    by_cases h : p = 0
    · simp [h]
    · cases hl : m.link p with
      | none => simp [h]
      | some d =>
        simp only [h, if_false, ih]
        cases f m d.1 with
        | none => rfl
        | some x => simp [Option.map_map, Function.comp_def]

/-- The items of a chain are what its nodes hold, in order. -/
theorem collect_chain {α : Type} {m : Mem} {l : AlpmList} {f : Mem → Ptr → Option α}
    {ns : List (Ptr × Ptr)} (h : Chain m.link 0 l.head ns) {xs : List α}
    (hf : List.Forall₂ (fun n x => f m n.2 = some x) ns xs) : l.collect m f = some (xs, m) := by
  have hw := h.walk hf (Mem.length_lt_fuel h)
  simp [AlpmList.collect, collect_eq_walk, hw]

/-- The items are collected exactly where the nodes end and each item can be read; the memory is
left as it is. -/
theorem collect_eq_some {α : Type} {m m' : Mem} {l : AlpmList} {f : Mem → Ptr → Option α}
    {xs : List α} : l.collect m f = some (xs, m') ↔
      m' = m ∧ ∃ ns, Chain m.link 0 l.head ns ∧ List.Forall₂ (fun n x => f m n.2 = some x) ns xs := by
  simp only [AlpmList.collect, collect_eq_walk, Option.map_map, Option.map_eq_some_iff,
    walk_eq_some, Function.comp_apply, Prod.mk.injEq]
  constructor
  · rintro ⟨ys, ⟨ns, hc, hf, -⟩, rfl, rfl⟩
    exact ⟨rfl, ns, hc, hf⟩
  · rintro ⟨rfl, ns, hc, hf⟩
    exact ⟨xs, ⟨ns, hc, hf, Mem.length_lt_fuel hc⟩, rfl, rfl⟩

structure BorrowedList where
  nodes : List Ptr
  head : Ptr

namespace BorrowedList

def asRaw (b : BorrowedList) : Ptr := b.head

def boxes (m : Mem) (ptrs : List Ptr) : List Ptr × Mem :=
  m.allocAll (ptrs.map fun data => .node data 0 0)

/-- `nodes[i].next = next_ptr` -/
def setNext (m : Mem) (p next : Ptr) : Mem :=
  match m.read p with
  | some (.node d pr _) => m.set p (.node d pr next)
  | _ => m

/-- The loop body: every node leads to the one after it, the last one nowhere. -/
def linkAt (nodes : List Ptr) (m : Mem) (i : ℕ) : Mem :=
  setNext m (nodes.getD i 0) (if i + 1 < nodes.length then nodes.getD (i + 1) 0 else 0)

def fromPtrs (m : Mem) (ptrs : List Ptr) : BorrowedList × Mem :=
  let b := boxes m ptrs
  (⟨b.1, b.1.headD 0⟩, (List.range b.1.length).foldl (linkAt b.1) b.2)

theorem boxes_nodes (m : Mem) (ptrs : List Ptr) :
    (boxes m ptrs).1 = List.range' m.next ptrs.length := by
  rw [boxes, Mem.allocAll_ptrs, List.length_map]

theorem boxes_read_node (m : Mem) (ptrs : List Ptr) {i : ℕ} (h : i < ptrs.length) :
    (boxes m ptrs).2.read (m.next + i) = some (.node ptrs[i] 0 0) := by
  rw [boxes, Mem.read_allocAll_new m _ (by simpa using h), List.getElem_map]

theorem setNext_read {m : Mem} {p q n : ℕ} (h : q ≠ p) : (setNext m p n).read q = m.read q := by
  unfold setNext
  split
  · exact Mem.read_set _ h
  · rfl

theorem setNext_read_self {m : Mem} {p d pr q n : Ptr} (h : m.read p = some (.node d pr q)) :
    (setNext m p n).read p = some (.node d pr n) := by
  simp only [setNext, h]
  exact Mem.read_set_self h

/-- After j rounds the first j nodes are linked, and nothing else has changed. -/
theorem links_read {m : Mem} {n k : ℕ} {ptrs : List Ptr} (hk : k = ptrs.length)
    (hb : ∀ i (h : i < ptrs.length), m.read (n + i) = some (.node ptrs[i] 0 0)) (j : ℕ) (hj : j ≤ k) :
    (∀ i (h : i < ptrs.length),
      ((List.range j).foldl (linkAt (List.range' n k)) m).read (n + i) =
        some (.node ptrs[i] 0 (if i < j ∧ i + 1 < k then n + i + 1 else 0))) ∧
    ∀ p : ℕ, (∀ i, i < k → p ≠ n + i) →
      ((List.range j).foldl (linkAt (List.range' n k)) m).read p = m.read p := by
  induction j with
  | zero => exact ⟨fun i h => by simpa using hb i h, fun p _ => rfl⟩
  | succ j ih =>
    obtain ⟨hnode, hother⟩ := ih (by omega)
    have hget : ∀ i, i < k → (List.range' n k).getD i 0 = n + i := by
      intro i hi
      rw [List.getD_eq_getElem?_getD, List.getElem?_range' hi]
      simp
    simp only [List.range_succ, List.foldl_append, List.foldl_cons, List.foldl_nil, linkAt,
      List.length_range', hget j (by omega)]
    constructor
    · intro i h
      by_cases hij : i = j
      · subst hij
        rw [setNext_read_self (hnode i h)]
        split_ifs with h1 h2
        · rw [hget _ h1]
          rfl
        · omega
        · omega
        · rfl
      · rw [setNext_read (by omega), hnode i h]
        have hiff : i < j ∧ i + 1 < k ↔ i < j + 1 ∧ i + 1 < k := by omega
        simp only [hiff]
    · intro p hp
      rw [setNext_read (hp j (by omega)), hother p hp]

theorem chain_of_links {link : ℕ → Option (Ptr × ℕ)} {n : ℕ} (hn : 0 < n) {ptrs : List Ptr}
    (hl : ∀ i (h : i < ptrs.length),
      link (n + i) = some (ptrs[i], if i + 1 < ptrs.length then n + i + 1 else 0)) :
    Chain link 0 ((List.range' n ptrs.length).headD 0)
      ((List.range' n ptrs.length).zip ptrs) := by
  induction ptrs generalizing n with
  | nil => exact .nil
  | cons d ptrs ih =>
    have hrest := ih (n := n + 1) (Nat.succ_pos _) fun i h => by
      have hi := hl (i + 1) (Nat.succ_lt_succ h)
      rw [show n + 1 + i = n + (i + 1) by omega, hi]
      simp
    have hhead := hl 0 (Nat.succ_pos _)
    rw [List.length_cons, List.range'_succ, List.zip_cons_cons, List.headD_cons]
    refine .cons (by omega) hhead ?_
    cases ptrs with
    | nil => exact hrest
    | cons e ptrs => simpa [List.range'_succ] using hrest

theorem fromPtrs_nodes (m : Mem) (ptrs : List Ptr) :
    (fromPtrs m ptrs).1.nodes = List.range' m.next ptrs.length :=
  boxes_nodes m ptrs

theorem fromPtrs_read {m : Mem} (ptrs : List Ptr) {p : ℕ} (h : p < m.next) :
    (fromPtrs m ptrs).2.read p = m.read p := by
  have hlinks := links_read rfl (fun i => boxes_read_node m ptrs (i := i)) ptrs.length le_rfl
  rw [fromPtrs, boxes_nodes, List.length_range', hlinks.2 p fun i _ => by omega]
  exact Mem.read_allocAll _ h

/-- The chain built holds exactly the given pointers, in order. -/
theorem fromPtrs_chain (m : Mem) (ptrs : List Ptr) :
    Chain (fromPtrs m ptrs).2.link 0 (fromPtrs m ptrs).1.head
      ((List.range' m.next ptrs.length).zip ptrs) := by
  have hlinks := links_read rfl (fun i => boxes_read_node m ptrs (i := i)) ptrs.length le_rfl
  have hlink : ∀ i (h : i < ptrs.length), (fromPtrs m ptrs).2.link (m.next + i) =
      some (ptrs[i], if i + 1 < ptrs.length then m.next + i + 1 else 0) := by
    intro i h
    have hread : (fromPtrs m ptrs).2.read (m.next + i) =
        some (.node ptrs[i] 0 (if i < ptrs.length ∧ i + 1 < ptrs.length then m.next + i + 1 else 0)) := by
      rw [fromPtrs, boxes_nodes, List.length_range']
      exact hlinks.1 i h
    rw [Mem.link, hread]
    simp [h]
  have hhead : (fromPtrs m ptrs).1.head = (List.range' m.next ptrs.length).headD 0 := by
    rw [fromPtrs, boxes_nodes]
  rw [hhead]
  exact chain_of_links m.pos hlink

end BorrowedList

/-- Building a chain and walking it are inverse, and the walk leaves the chain as it is. -/
theorem borrowedList_iter (m : Mem) (ptrs : List Ptr) :
    let b := (BorrowedList.fromPtrs m ptrs).1
    let m' := (BorrowedList.fromPtrs m ptrs).2
    (∃ ns, Chain m'.link 0 b.asRaw ns ∧ ns.map Prod.fst = b.nodes ∧ ns.map Prod.snd = ptrs) ∧
      b.nodes.Nodup ∧ (b.asRaw = 0 ↔ ptrs = []) ∧
      (AlpmList.fromRaw b.asRaw).iter m' = some (ptrs, m') ∧
      ((AlpmList.fromRaw b.asRaw).isEmpty = true ↔ ptrs = []) ∧
      (AlpmList.fromRaw b.asRaw).len m' = some ptrs.length := by
  intro b m'
  have hlen : (List.range' m.next ptrs.length).length = ptrs.length := List.length_range'
  have hchain := BorrowedList.fromPtrs_chain m ptrs
  have hfst := List.map_fst_zip hlen.le
  have hsnd := List.map_snd_zip hlen.ge
  have hnodes : b.nodes = List.range' m.next ptrs.length := BorrowedList.fromPtrs_nodes m ptrs
  have hnull : b.asRaw = 0 ↔ ptrs = [] := by
    rw [BorrowedList.asRaw, hchain.null_iff, ← List.length_eq_zero_iff, ← List.length_eq_zero_iff,
      List.length_zip, hlen, Nat.min_self]
  have hitems : ∀ ns : List (Ptr × Ptr),
      List.Forall₂ (fun n x => some n.2 = some x) ns (ns.map Prod.snd) := by
    intro ns
    rw [List.forall₂_map_right_iff]
    exact List.forall₂_same.mpr fun n _ => rfl
  have hforall := hitems ((List.range' m.next ptrs.length).zip ptrs)
  rw [hsnd] at hforall
  refine ⟨⟨_, hchain, by rw [hfst, hnodes], hsnd⟩, ?_, hnull, collect_chain hchain hforall, ?_, ?_⟩
  · rw [hnodes]
    exact List.nodup_range'
  · simp only [AlpmList.isEmpty, AlpmList.fromRaw, decide_eq_true_eq, hnull]
  · have hwalk := hchain.walk hforall (Mem.length_lt_fuel hchain)
    rw [AlpmList.len, alpmListCount]
    exact congrArg (Option.map List.length) hwalk

end Nyx.Alpm
