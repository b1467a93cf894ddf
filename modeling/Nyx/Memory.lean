import Nyx.Linked

/-! The memory Nyx shares with libalpm. A ledger counts how often each cell was handed to a
libalpm deallocator; to read a cell that is not there, or no longer, is undefined. -/
namespace Nyx.Memory
open Linked

/-- 0 is the null pointer. -/
abbrev Ptr := ℕ

abbrev Bytes := List UInt8

/-- The values of `alpm_depmod_t`, and any other integer found in their place. -/
inductive AlpmDepmod
  | any
  | eq
  | ge
  | le
  | gt
  | lt
  | unknown
  deriving DecidableEq

/-- `alpm_list_t`, a C string's buffer, and the records the queries answer with. -/
inductive Cell
  | node (data prev next : Ptr)
  | chars (buf : Bytes)
  | depend (name version desc : Ptr) (mod_ : AlpmDepmod)
  | depmissing (target depend causingpkg : Ptr)
  | conflict (package1 package2 reason : Ptr)
  deriving DecidableEq

structure Mem where
  cell : Ptr → Option Cell
  freed : Ptr → ℕ
  next : ℕ
  pos : 0 < next
  null : cell 0 = none
  bound : ∀ {p}, cell p ≠ none → p < next

namespace Mem

def read (m : Mem) (p : Ptr) : Option Cell := if m.freed p = 0 then m.cell p else none

theorem read_lt {m : Mem} {p : Ptr} {c : Cell} (h : m.read p = some c) : p ≠ 0 ∧ p < m.next := by
  unfold read at h
  split_ifs at h
  constructor
  · rintro rfl
    rw [m.null] at h
    cases h
  · exact m.bound (by simp [h])

/-- A new cell, at an address that was never in use. -/
def alloc (m : Mem) (c : Cell) : Ptr × Mem :=
  (m.next,
    { cell := Function.update m.cell m.next (some c)
      freed := Function.update m.freed m.next 0
      next := m.next + 1
      pos := Nat.succ_pos _
      null := by rw [Function.update_of_ne m.pos.ne, m.null]
      bound := by
        intro p hp
        by_cases h : p = m.next
        · exact h ▸ Nat.lt_succ_self _
        · rw [Function.update_of_ne h] at hp
          exact Nat.lt_succ_of_lt (m.bound hp) })

theorem read_alloc_self (m : Mem) (c : Cell) : (m.alloc c).2.read m.next = some c := by
  simp [alloc, read]

theorem read_alloc {m : Mem} (c : Cell) {p : Ptr} (h : p ≠ m.next) :
    (m.alloc c).2.read p = m.read p := by
  simp [alloc, read, Function.update_of_ne h]

def allocAll (m : Mem) : List Cell → List Ptr × Mem
  | [] => ([], m)
  | c :: cs => (m.next :: (allocAll (m.alloc c).2 cs).1, (allocAll (m.alloc c).2 cs).2)

theorem allocAll_ptrs (m : Mem) (cs : List Cell) :
    (m.allocAll cs).1 = List.range' m.next cs.length := by
  induction cs generalizing m with
  | nil => rfl
  | cons c cs ih =>
    rw [List.length_cons, List.range'_succ, allocAll, ih]
    rfl

theorem allocAll_next (m : Mem) (cs : List Cell) : (m.allocAll cs).2.next = m.next + cs.length := by
  induction cs generalizing m with
  | nil => rfl
  | cons c cs ih =>
    rw [allocAll, ih, List.length_cons]
    simp only [alloc]
    omega

theorem read_allocAll {m : Mem} (cs : List Cell) {p : ℕ} (h : p < m.next) :
    (m.allocAll cs).2.read p = m.read p := by
  induction cs generalizing m with
  | nil => rfl
  | cons c cs ih =>
    rw [allocAll, ih (Nat.lt_succ_of_lt h)]
    exact read_alloc _ h.ne

theorem read_allocAll_new (m : Mem) (cs : List Cell) {i : ℕ} (h : i < cs.length) :
    (m.allocAll cs).2.read (m.next + i) = some cs[i] := by
  induction cs generalizing m i with
  | nil => cases h
  | cons c cs ih =>
    rw [allocAll]
    cases i with
    | zero =>
      rw [read_allocAll cs (Nat.lt_succ_self _)]
      exact read_alloc_self m _
    | succ i =>
      have hnext : m.next + (i + 1) = (m.alloc c).2.next + i := by
        simp only [alloc]
        omega
      rw [hnext]
      exact ih _ (Nat.lt_of_succ_lt_succ h)

def set (m : Mem) (p : Ptr) (c : Cell) : Mem where
  cell q := if q = p ∧ m.cell p ≠ none then some c else m.cell q
  freed := m.freed
  next := m.next
  pos := m.pos
  null := by
    by_cases h : 0 = p ∧ m.cell p ≠ none
    · exact absurd (h.1 ▸ m.null) h.2
    · rw [if_neg h, m.null]
  bound := by
    intro q hq
    by_cases h : q = p ∧ m.cell p ≠ none
    · exact h.1 ▸ m.bound h.2
    · rw [if_neg h] at hq
      exact m.bound hq

theorem read_set_self {m : Mem} {p : Ptr} {c d : Cell} (h : m.read p = some d) :
    (m.set p c).read p = some c := by
  unfold read at h ⊢
  split_ifs at h with hf
  simp [set, hf, h]

theorem read_set {m : Mem} {p q : Ptr} (c : Cell) (h : q ≠ p) :
    (m.set p c).read q = m.read q := by
  simp [set, read, h]

/-- A libalpm deallocator takes a cell. -/
def free (m : Mem) (p : Ptr) : Mem := { m with freed := Function.update m.freed p (m.freed p + 1) }

theorem read_free {m : Mem} {p q : Ptr} (h : q ≠ p) : (m.free p).read q = m.read q := by
  simp [free, read, Function.update_of_ne h]

/-- Rust drops what it owns itself. -/
def drop (m : Mem) (ps : List Ptr) : Mem where
  cell q := if q ∈ ps then none else m.cell q
  freed := m.freed
  next := m.next
  pos := m.pos
  null := by simp [m.null]
  bound := by
    intro q hq
    split_ifs at hq
    · exact absurd rfl hq
    · exact m.bound hq

def link (m : Mem) (p : Ptr) : Option (Ptr × Ptr) :=
  match m.read p with
  | some (.node d _ n) => some (d, n)
  | _ => none

theorem link_congr {m m' : Mem} {p : Ptr} (h : m'.read p = m.read p) : m'.link p = m.link p := by
  simp [link, h]

/-- A C string: the bytes before the first NUL of its buffer. -/
def str (m : Mem) (p : Ptr) : Option Bytes :=
  match m.read p with
  | some (.chars buf) => if 0 ∈ buf then some (buf.takeWhile (· ≠ 0)) else none
  | _ => none

theorem str_congr {m m' : Mem} {p : Ptr} (h : m'.read p = m.read p) : m'.str p = m.str p := by
  simp [str, h]

/-- A walk that has met more nodes than there are cells goes round for ever. -/
def fuel (m : Mem) : ℕ := m.next + 1

theorem link_lt {m : Mem} {p : Ptr} {d : Ptr × Ptr} (h : m.link p = some d) : p < m.next := by
  unfold link at h
  split at h
  · exact (read_lt ‹_›).2
  · cases h

theorem length_lt_fuel {m : Mem} {p : Ptr} {ns : List (Ptr × Ptr)} (h : Chain m.link 0 p ns) :
    ns.length < m.fuel := by
  refine Nat.lt_succ_of_le (h.length_le fun n hn => ?_)
  obtain ⟨q, hq⟩ := h.link_mem hn
  exact link_lt hq

end Mem

/-- `alpm_list_count` -/
def alpmListCount (m : Mem) (list : Ptr) : Option ℕ :=
  (walk m.link 0 some m.fuel list).map List.length

/-- `alpm_list_free`: the next node is read before its predecessor is freed. -/
def alpmListFree (m : Mem) (list : Ptr) : Option Mem := go m.fuel m list
where
  go : ℕ → Mem → Ptr → Option Mem
    | 0, _, _ => none
    | n + 1, m, p =>
      if p = 0 then some m
      else match m.link p with
        | none => none
        | some (_, q) => go n (m.free p) q

/-- `alpm_list_free_inner`, for a deallocator of one record. -/
def alpmListFreeInner (m : Mem) (list : Ptr) (f : Ptr → Mem → Mem) : Option Mem := go m.fuel m list
where
  go : ℕ → Mem → Ptr → Option Mem
    | 0, _, _ => none
    | n + 1, m, p =>
      if p = 0 then some m
      else match m.link p with
        | none => none
        | some (d, q) => go n (if d = 0 then m else f d m) q

theorem alpmListFree_chain {m : Mem} {p : Ptr} {ns : List (Ptr × Ptr)} (h : Chain m.link 0 p ns) :
    ∃ m', alpmListFree m p = some m' ∧ m'.cell = m.cell ∧
      ∀ q, m'.freed q = m.freed q + (ns.map Prod.fst).count q := by
  suffices hgo : ∀ k, ns.length < k → ∃ m', alpmListFree.go k m p = some m' ∧ m'.cell = m.cell ∧
      ∀ q, m'.freed q = m.freed q + (ns.map Prod.fst).count q from
    hgo _ (Mem.length_lt_fuel h)
  intro k hk
  have hnd := h.nodup
  induction ns generalizing m p k with
  | nil =>
    cases h
    cases k with
    | zero => omega
    | succ k => exact ⟨m, rfl, rfl, fun q => by simp⟩
  | cons n ns ih =>
    cases h with
    | cons hp hl rest =>
      rename_i q d
      cases k with
      | zero => omega
      | succ k =>
        rw [List.map_cons, List.nodup_cons] at hnd
        have hrest : Chain (m.free p).link 0 q ns := by
          refine rest.congr fun x hx => Mem.link_congr (Mem.read_free ?_)
          rintro rfl
          exact hnd.1 (List.mem_map.mpr ⟨x, hx, rfl⟩)
        obtain ⟨m', hm', hc, hf⟩ := ih hrest k (Nat.lt_of_succ_lt_succ hk) hnd.2
        refine ⟨m', ?_, hc, fun r => ?_⟩
        · simpa [alpmListFree.go, hp, hl] using hm'
        · rw [hf r, List.map_cons, List.count_cons]
          by_cases hr : r = p
          · subst hr
            simp [Mem.free]
            omega
          · simp [Mem.free, Function.update_of_ne hr, Ne.symm hr]

/-- Freeing the records of a chain frees each of them once for every node that holds it. -/
theorem alpmListFreeInner_chain {m : Mem} {p : Ptr} {ns : List (Ptr × Ptr)}
    (h : Chain m.link 0 p ns) (hd : ∀ n ∈ ns, n.2 ≠ 0) (hn : ∀ n ∈ ns, ∀ x ∈ ns, x.1 ≠ n.2) :
    ∃ m', alpmListFreeInner m p (fun r m => m.free r) = some m' ∧ m'.cell = m.cell ∧
      ∀ q, m'.freed q = m.freed q + (ns.map Prod.snd).count q := by
  suffices hgo : ∀ k, ns.length < k → ∃ m',
      alpmListFreeInner.go (fun r m => m.free r) k m p = some m' ∧ m'.cell = m.cell ∧
      ∀ q, m'.freed q = m.freed q + (ns.map Prod.snd).count q from
    hgo _ (Mem.length_lt_fuel h)
  intro k hk
  induction ns generalizing m p k with
  | nil =>
    cases h
    cases k with
    | zero => omega
    | succ k => exact ⟨m, rfl, rfl, fun q => by simp⟩
  | cons n ns ih =>
    cases h with
    | cons hp hl rest =>
      rename_i q d
      cases k with
      | zero => omega
      | succ k =>
        have hmem := List.mem_cons_self (a := (p, d)) (l := ns)
        have hrest : Chain (m.free d).link 0 q ns := by
          refine rest.congr fun x hx => Mem.link_congr (Mem.read_free ?_)
          exact hn _ hmem x (List.mem_cons_of_mem _ hx)
        obtain ⟨m', hm', hc, hf⟩ := ih hrest (fun x hx => hd x (List.mem_cons_of_mem _ hx))
          (fun x hx y hy => hn x (List.mem_cons_of_mem _ hx) y (List.mem_cons_of_mem _ hy)) k
          (Nat.lt_of_succ_lt_succ hk)
        refine ⟨m', ?_, hc, fun r => ?_⟩
        · have hd0 : d ≠ 0 := hd _ hmem
          simpa [alpmListFreeInner.go, hp, hl, hd0] using hm'
        · rw [hf r, List.map_cons, List.count_cons]
          by_cases hr : r = d
          · subst hr
            simp [Mem.free]
            omega
          · simp [Mem.free, Function.update_of_ne hr, Ne.symm hr]

end Nyx.Memory
