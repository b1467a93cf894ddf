import Mathlib.Data.Nat.Notation
import Mathlib.Logic.Function.Basic

/-! Programs that run against an environment by requests and replies. A program is
given by its continuations, so every point between two requests is a value of its
stage type, and being killed there is simply taking no further step. -/
namespace Nyx.Interaction

/-- The request a stage issues (none once it has returned), and the stage a reply leads to. -/
structure Program (ρ ω π : Type*) where
  issue : π → Option ρ
  resume : π → ω → π

/-- The environment: its choice, the request and the world fix the reply and the next world. -/
abbrev Kernel (κ ρ ω σ : Type*) := κ → ρ → σ → ω × σ

variable {κ ρ ω σ π τ ι : Type*}

/-- One program in its world, with the requests answered so far, latest first. -/
structure Config (κ ρ ω σ π : Type*) where
  world : σ
  stage : π
  log : List (ρ × κ × ω)

def advance (P : Program ρ ω π) (K : Kernel κ ρ ω σ) (c : Config κ ρ ω σ π) (k : κ) :
    Config κ ρ ω σ π :=
  match P.issue c.stage with
  | none => c
  | some r =>
    let a := K k r c.world
    ⟨a.2, P.resume c.stage a.1, (r, k, a.1) :: c.log⟩

/-- The choices are consumed one a request; running out of them is being killed. -/
def run (P : Program ρ ω π) (K : Kernel κ ρ ω σ) (c : Config κ ρ ω σ π) (ks : List κ) :
    Config κ ρ ω σ π :=
  ks.foldl (advance P K) c

@[simp] theorem run_nil (P : Program ρ ω π) (K : Kernel κ ρ ω σ) (c : Config κ ρ ω σ π) :
    run P K c [] = c := rfl

@[simp] theorem run_cons (P : Program ρ ω π) (K : Kernel κ ρ ω σ) (c : Config κ ρ ω σ π)
    (k : κ) (ks : List κ) : run P K c (k :: ks) = run P K (advance P K c k) ks := rfl

theorem run_append (P : Program ρ ω π) (K : Kernel κ ρ ω σ) (c : Config κ ρ ω σ π)
    (ks ls : List κ) : run P K c (ks ++ ls) = run P K (run P K c ks) ls :=
  List.foldl_append

theorem advance_returned {P : Program ρ ω π} {K : Kernel κ ρ ω σ} {c : Config κ ρ ω σ π}
    (h : P.issue c.stage = none) (k : κ) : advance P K c k = c := by
  simp [advance, h]

theorem run_returned {P : Program ρ ω π} {K : Kernel κ ρ ω σ} {c : Config κ ρ ω σ π}
    (h : P.issue c.stage = none) (ks : List κ) : run P K c ks = c := by
  induction ks with
  | nil => rfl
  | cons k ks ih => rw [run_cons, advance_returned h, ih]

theorem advance_issued {P : Program ρ ω π} {K : Kernel κ ρ ω σ} {c : Config κ ρ ω σ π} {r : ρ}
    (h : P.issue c.stage = some r) (k : κ) :
    advance P K c k = ⟨(K k r c.world).2, P.resume c.stage (K k r c.world).1,
      (r, k, (K k r c.world).1) :: c.log⟩ := by
  simp [advance, h]

/-- What every answered request preserves holds at every instant of a run. -/
theorem run_invariant {P : Program ρ ω π} {K : Kernel κ ρ ω σ} (I : Config κ ρ ω σ π → Prop)
    (step : ∀ c k r, P.issue c.stage = some r → I c → I (advance P K c k))
    (c : Config κ ρ ω σ π) (ks : List κ) (h : I c) : I (run P K c ks) := by
  induction ks generalizing c with
  | nil => exact h
  | cons k ks ih =>
    apply ih
    cases hr : P.issue c.stage with
    | none => rwa [advance_returned hr]
    | some r => exact step c k r hr h

/-- What a request preserves where a guard is met holds at the end of a run that meets the
guard before each request. -/
theorem run_along {P : Program ρ ω π} {K : Kernel κ ρ ω σ} {G : Config κ ρ ω σ π → Prop}
    (I : Config κ ρ ω σ π → Prop)
    (step : ∀ c k r, P.issue c.stage = some r → G c → I c → I (advance P K c k))
    (c : Config κ ρ ω σ π) (ks : List κ) (hG : ∀ n < ks.length, G (run P K c (ks.take n)))
    (h : I c) : I (run P K c ks) := by
  induction ks generalizing c with
  | nil => exact h
  | cons k ks ih =>
    have hfirst : G c := hG 0 (Nat.zero_lt_succ _)
    refine ih _ (fun n hn => hG (n + 1) (Nat.succ_lt_succ hn)) ?_
    cases hr : P.issue c.stage with
    | none => rwa [advance_returned hr]
    | some r => exact step c k r hr hfirst h

theorem run_take (P : Program ρ ω π) (K : Kernel κ ρ ω σ) (c : Config κ ρ ω σ π) (ks : List κ)
    {m n : ℕ} (h : m ≤ n) : run P K c (ks.take n) =
      run P K (run P K c (ks.take m)) ((ks.drop m).take (n - m)) := by
  rw [← run_append, ← List.take_add, Nat.add_sub_cancel' h]

/-- A run whose every answered request brings the return nearer returns once it has been
given choices enough, and what its requests preserve under those choices holds of it. -/
theorem run_returns {P : Program ρ ω π} {K : Kernel κ ρ ω σ} (cost : π → ℕ) (Q : κ → Prop)
    (I : Config κ ρ ω σ π → Prop) (open_cost : ∀ s r, P.issue s = some r → 0 < cost s)
    (step : ∀ c k r, P.issue c.stage = some r → Q k → I c →
      I (advance P K c k) ∧ cost (advance P K c k).stage < cost c.stage)
    (c : Config κ ρ ω σ π) (ks : List κ) (hQ : ∀ k ∈ ks, Q k) (h : I c)
    (hcost : cost c.stage ≤ ks.length) :
    P.issue (run P K c ks).stage = none ∧ I (run P K c ks) := by
  induction ks generalizing c with
  | nil =>
    refine ⟨?_, h⟩
    cases hr : P.issue c.stage with
    | none => exact hr
    | some r =>
      have hpos := open_cost _ _ hr
      rw [List.length_nil] at hcost
      omega
  | cons k ks ih =>
    have hrest : ∀ l ∈ ks, Q l := fun l hl => hQ l (List.mem_cons_of_mem _ hl)
    rw [List.length_cons] at hcost
    cases hr : P.issue c.stage with
    | none =>
      rw [run_returned hr]
      exact ⟨hr, h⟩
    | some r =>
      obtain ⟨hI, hlt⟩ := step c k r hr (hQ k List.mem_cons_self) h
      exact ih _ hrest hI (by omega)

def Config.map (f : σ → τ) (c : Config κ ρ ω σ π) : Config κ ρ ω τ π := ⟨f c.world, c.stage, c.log⟩

theorem advance_map {P : Program ρ ω π} {K : Kernel κ ρ ω σ} {L : Kernel κ ρ ω τ} {f : σ → τ}
    (h : ∀ k r w, L k r (f w) = ((K k r w).1, f (K k r w).2))
    (c : Config κ ρ ω σ π) (k : κ) : advance P L (c.map f) k = (advance P K c k).map f := by
  cases hr : P.issue c.stage with
  | none => simp [advance, Config.map, hr]
  | some r => simp [advance, Config.map, hr, h]

/-- Kernels that reply alike, in worlds that f keeps related, run alike. -/
theorem run_map {P : Program ρ ω π} {K : Kernel κ ρ ω σ} {L : Kernel κ ρ ω τ} {f : σ → τ}
    (h : ∀ k r w, L k r (f w) = ((K k r w).1, f (K k r w).2))
    (c : Config κ ρ ω σ π) (ks : List κ) : run P L (c.map f) ks = (run P K c ks).map f := by
  induction ks generalizing c with
  | nil => rfl
  | cons k ks ih => rw [run_cons, run_cons, advance_map h, ih]

/-- Kernels that answer alike whatever a program comes to ask for run it alike. -/
theorem run_congr {P : Program ρ ω π} {K L : Kernel κ ρ ω σ} (I : π → Prop)
    (same : ∀ s r, I s → P.issue s = some r → ∀ k w, K k r w = L k r w)
    (step : ∀ s a, I s → I (P.resume s a)) (c : Config κ ρ ω σ π) (ks : List κ)
    (h : I c.stage) : run P K c ks = run P L c ks := by
  induction ks generalizing c with
  | nil => rfl
  | cons k ks ih =>
    rw [run_cons, run_cons]
    cases hr : P.issue c.stage with
    | none => rw [advance_returned hr, advance_returned hr, ih c h]
    | some r =>
      rw [advance_issued hr, advance_issued hr, same _ r h hr]
      exact ih _ (step _ _ h)

/-- Any number of programs over one world; a killed one has no stage. -/
structure Pool (ι σ π : Type*) where
  world : σ
  stage : ι → Option π

inductive Move (ι κ : Type*)
  | act (i : ι) (k : κ)
  | kill (i : ι)

section Pool
variable [DecidableEq ι] (P : ι → Program ρ ω π) (K : ι → Kernel κ ρ ω σ)

def move (s : Pool ι σ π) : Move ι κ → Pool ι σ π
  | .kill i => ⟨s.world, Function.update s.stage i none⟩
  | .act i k =>
    match s.stage i with
    | none => s
    | some p =>
      let c := advance (P i) (K i) ⟨s.world, p, []⟩ k
      ⟨c.world, Function.update s.stage i (some c.stage)⟩

def interleave (s : Pool ι σ π) (ms : List (Move ι κ)) : Pool ι σ π := ms.foldl (move P K) s

def Guarded (G : Pool ι σ π → Move ι κ → Prop) : Pool ι σ π → List (Move ι κ) → Prop
  | _, [] => True
  | s, m :: ms => G s m ∧ Guarded G (move P K s m) ms

/-- What every guarded move preserves holds in every state a guarded schedule reaches. -/
theorem interleave_invariant {G : Pool ι σ π → Move ι κ → Prop} (I : Pool ι σ π → Prop)
    (step : ∀ s m, G s m → I s → I (move P K s m)) (s : Pool ι σ π) (ms : List (Move ι κ))
    (hg : Guarded P K G s ms) (h : I s) : I (interleave P K s ms) := by
  induction ms generalizing s with
  | nil => exact h
  | cons m ms ih => exact ih _ hg.2 (step s m hg.1 h)

/-- A guard that an invariant gives is met all along any schedule. -/
theorem guarded_of_invariant {G : Pool ι σ π → Move ι κ → Prop} (I : Pool ι σ π → Prop)
    (step : ∀ s m, I s → G s m ∧ I (move P K s m)) (s : Pool ι σ π) (ms : List (Move ι κ))
    (h : I s) : Guarded P K G s ms := by
  induction ms generalizing s with
  | nil => trivial
  | cons m ms ih => exact ⟨(step s m h).1, ih _ (step s m h).2⟩

theorem move_act {s : Pool ι σ π} {i : ι} {p : π} {r : ρ} (hp : s.stage i = some p)
    (hr : (P i).issue p = some r) (k : κ) :
    move P K s (.act i k) = ⟨(K i k r s.world).2,
      Function.update s.stage i (some ((P i).resume p (K i k r s.world).1))⟩ := by
  simp only [move, hp]
  rw [advance_issued hr]

theorem move_idle {s : Pool ι σ π} {i : ι} (h : ∀ p, s.stage i = some p → (P i).issue p = none)
    (k : κ) : move P K s (.act i k) = s := by
  cases hp : s.stage i with
  | none => simp [move, hp]
  | some p =>
    simp only [move, hp]
    rw [advance_returned (h p hp), ← hp, Function.update_eq_self]

omit [DecidableEq ι] in
/-- A program is killed or has returned, or its stage issues a request. -/
theorem idle_or_issues (s : Pool ι σ π) (i : ι) :
    (∀ p, s.stage i = some p → (P i).issue p = none) ∨
      ∃ p r, s.stage i = some p ∧ (P i).issue p = some r := by
  by_cases h : ∀ p, s.stage i = some p → (P i).issue p = none
  · exact Or.inl h
  · simp only [not_forall] at h
    obtain ⟨p, hp, hi⟩ := h
    obtain ⟨r, hr⟩ := Option.ne_none_iff_exists'.mp hi
    exact Or.inr ⟨p, r, hp, hr⟩

end Pool

end Nyx.Interaction
