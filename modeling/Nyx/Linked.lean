import Mathlib.Tactic

/-! Null-terminated chains of linked nodes, over any memory that tells what a node holds
and where it leads. -/
namespace Nyx.Linked

variable {P D α : Type}

/-- The nodes met from a pointer to the null pointer, each with what it holds. -/
inductive Chain (link : P → Option (D × P)) (null : P) : P → List (P × D) → Prop
  | nil : Chain link null null []
  | cons {p q : P} {d : D} {ns : List (P × D)} (live : p ≠ null) (step : link p = some (d, q))
      (rest : Chain link null q ns) : Chain link null p ((p, d) :: ns)

section Chain
variable {link link' : P → Option (D × P)} {null p : P} {ns ms : List (P × D)}

theorem Chain.null_iff (h : Chain link null p ns) : p = null ↔ ns = [] := by
  cases h with
  | nil => simp
  | cons hp => simp [hp]

theorem Chain.unique (h : Chain link null p ns) (h' : Chain link null p ms) : ns = ms := by
  induction h generalizing ms with
  | nil =>
    cases h' with
    | nil => rfl
    | cons hp => exact absurd rfl hp
  | cons hp hl _ ih =>
    cases h' with
    | nil => exact absurd rfl hp
    | cons _ hl' rest' =>
      have heq := Option.some.inj (hl.symm.trans hl')
      obtain ⟨rfl, rfl⟩ := Prod.mk.inj heq
      rw [ih rest']

theorem Chain.from_mem (h : Chain link null p ns) {n : P × D} (hn : n ∈ ns) :
    ∃ ms, ms <:+ ns ∧ Chain link null n.1 ms := by
  induction h with
  | nil => cases hn
  | cons hp hl rest ih =>
    rcases List.mem_cons.mp hn with rfl | hn
    · exact ⟨_, List.suffix_refl _, .cons hp hl rest⟩
    · obtain ⟨ms, hms, hc⟩ := ih hn
      exact ⟨ms, hms.trans (List.suffix_cons _ _), hc⟩

/-- A chain that ends passes no node twice. -/
theorem Chain.nodup (h : Chain link null p ns) : (ns.map Prod.fst).Nodup := by
  induction h with
  | nil => exact List.nodup_nil
  | @cons p q d ns hp hl rest ih =>
    rw [List.map_cons, List.nodup_cons]
    refine ⟨fun hmem => ?_, ih⟩
    obtain ⟨n, hn, hnp⟩ := List.mem_map.mp hmem
    obtain ⟨ms, hms, hc⟩ := rest.from_mem hn
    have heq := Chain.unique (hnp ▸ hc) (.cons hp hl rest)
    have hlen := hms.length_le
    rw [heq, List.length_cons] at hlen
    omega

theorem Chain.congr (h : Chain link null p ns) (hl : ∀ n ∈ ns, link' n.1 = link n.1) :
    Chain link' null p ns := by
  induction h with
  | nil => exact .nil
  | cons hp hstep _ ih =>
    refine .cons hp ?_ (ih fun n hn => hl n (List.mem_cons_of_mem _ hn))
    rw [hl _ List.mem_cons_self, hstep]

theorem Chain.link_mem (h : Chain link null p ns) {n : P × D} (hn : n ∈ ns) :
    ∃ q, link n.1 = some (n.2, q) := by
  induction h with
  | nil => cases hn
  | @cons p q d ns hp hl rest ih =>
    rcases List.mem_cons.mp hn with rfl | hn
    · exact ⟨q, hl⟩
    · exact ih hn

theorem Chain.length_le {link : ℕ → Option (D × ℕ)} {null p : ℕ} {ns : List (ℕ × D)}
    (h : Chain link null p ns) {k : ℕ} (hk : ∀ n ∈ ns, n.1 < k) : ns.length ≤ k := by
  have hsub : ns.map Prod.fst ⊆ List.range k := by
    intro q hq
    obtain ⟨n, hn, rfl⟩ := List.mem_map.mp hq
    exact List.mem_range.mpr (hk n hn)
  have hlen := (h.nodup.subperm hsub).length_le
  rwa [List.length_map, List.length_range] at hlen

end Chain

section Walk
variable [DecidableEq P]

/-- Follows the nodes from a pointer, doing something with each; none when a node cannot be
read or the walk takes more steps than there is fuel. -/
def walk (link : P → Option (D × P)) (null : P) (f : D → Option α) : ℕ → P → Option (List α)
  | 0, _ => none
  | n + 1, p =>
    if p = null then some []
    else match link p with
      | none => none
      | some (d, q) =>
        match f d with
        | none => none
        | some x => (walk link null f n q).map (x :: ·)

theorem Chain.walk {link : P → Option (D × P)} {null p : P} {f : D → Option α}
    {ns : List (P × D)} (h : Chain link null p ns) {xs : List α}
    (hf : List.Forall₂ (fun n x => f n.2 = some x) ns xs) {k : ℕ} (hk : ns.length < k) :
    walk link null f k p = some xs := by
  induction h generalizing k xs with
  | nil =>
    cases hf
    cases k with
    | zero => omega
    | succ k => simp [Linked.walk]
  | cons hp hl _ ih =>
    cases hf with
    | cons hx hxs =>
      cases k with
      | zero => omega
      | succ k =>
        have hrest := ih hxs (Nat.lt_of_succ_lt_succ hk)
        simp only at hx
        simp [Linked.walk, hp, hl, hx, hrest]

/-- A walk succeeds exactly where the nodes end and each of them holds something to read. -/
theorem walk_eq_some {link : P → Option (D × P)} {null p : P} {f : D → Option α} {k : ℕ}
    {xs : List α} : walk link null f k p = some xs ↔
      ∃ ns, Chain link null p ns ∧ List.Forall₂ (fun n x => f n.2 = some x) ns xs ∧
        ns.length < k := by
  constructor
  · intro h
    induction k generalizing p xs with
    | zero => cases h
    | succ k ih =>
      rw [Linked.walk] at h
      split_ifs at h with hp
      · obtain rfl := Option.some.inj h
        exact ⟨[], hp ▸ .nil, .nil, Nat.succ_pos _⟩
      · cases hl : link p with
        | none => simp [hl] at h
        | some d =>
          cases hx : f d.1 with
          | none => simp [hl, hx] at h
          | some x =>
            simp only [hl, hx] at h
            obtain ⟨ys, hys, rfl⟩ := Option.map_eq_some_iff.mp h
            obtain ⟨ns, hc, hf, hlen⟩ := ih hys
            exact ⟨(p, d.1) :: ns, .cons hp hl hc, .cons hx hf, Nat.succ_lt_succ hlen⟩
  · rintro ⟨ns, hc, hf, hk⟩
    exact hc.walk hf hk

end Walk

section Doubly
variable {next next' prev prev' : P → Option P} {null : P} {nodes : List P}

/-- Consecutive nodes know each other, the last one leads nowhere, and the first one knows
the last. -/
structure Doubly (next prev : P → Option P) (null : P) (nodes : List P) : Prop where
  linked : ∀ i (h : i + 1 < nodes.length),
    next nodes[i] = some nodes[i + 1] ∧ prev nodes[i + 1] = some nodes[i]
  last : ∀ a ∈ nodes.getLast?, next a = some null
  head : ∀ a ∈ nodes.head?, prev a = nodes.getLast?

/-- Every node leads to the one after it, and none leads back. -/
structure Forward (next prev : P → Option P) (null : P) (nodes : List P) : Prop where
  live : ∀ a ∈ nodes, a ≠ null
  linked : ∀ i (h : i + 1 < nodes.length), next nodes[i] = some nodes[i + 1]
  last : ∀ a ∈ nodes.getLast?, next a = some null
  back : ∀ a ∈ nodes, prev a = some null

theorem Forward.not_doubly (h : Forward next prev null nodes) (hne : nodes ≠ []) :
    ¬ Doubly next prev null nodes := by
  intro hd
  have hback := h.back _ (List.head_mem hne)
  have hhead := hd.head _ (List.head?_eq_some_head hne)
  rw [hback, List.getLast?_eq_some_getLast hne] at hhead
  exact h.live _ (List.getLast_mem hne) (Option.some.inj hhead).symm

theorem Forward.congr (h : Forward next prev null nodes)
    (hn : ∀ a ∈ nodes, next' a = next a ∧ prev' a = prev a) :
    Forward next' prev' null nodes where
  live := h.live
  linked i hi := by rw [(hn _ (List.getElem_mem _)).1, h.linked i hi]
  last a ha := by rw [(hn a (List.mem_of_getLast? ha)).1, h.last a ha]
  back a ha := by rw [(hn a ha).2, h.back a ha]

end Doubly

end Nyx.Linked
