import Mathlib.Data.List.Induction
import Nyx.Interaction

/-! Schedules of a pool of programs: what holds of a schedule and the state it leads to, what
is noted on the way, and how many turns a program is given before it returns. -/
namespace Nyx.Interaction

variable {κ ρ ω σ π ι β : Type*} [DecidableEq ι] {P : ι → Program ρ ω π}
  {K : ι → Kernel κ ρ ω σ} {G : Pool ι σ π → Move ι κ → Prop}

theorem interleave_append (s : Pool ι σ π) (ms ns : List (Move ι κ)) :
    interleave P K s (ms ++ ns) = interleave P K (interleave P K s ms) ns :=
  List.foldl_append

theorem guarded_append {s : Pool ι σ π} {ms ns : List (Move ι κ)} :
    Guarded P K G s (ms ++ ns) ↔
      Guarded P K G s ms ∧ Guarded P K G (interleave P K s ms) ns := by
  induction ms generalizing s with
  | nil => simp [Guarded, interleave]
  | cons m ms ih =>
    rw [List.cons_append, Guarded, Guarded, ih, and_assoc]
    rfl

theorem guarded_of_forall {Q : Move ι κ → Prop} {ms : List (Move ι κ)} (h : ∀ m ∈ ms, Q m)
    (s : Pool ι σ π) : Guarded P K (fun _ m => Q m) s ms := by
  induction ms generalizing s with
  | nil => trivial
  | cons m ms ih =>
    obtain ⟨hm, hms⟩ := List.forall_mem_cons.mp h
    exact ⟨hm, ih hms _⟩

/-- What every guarded move preserves, of the schedule so far and the state it leads to. -/
theorem interleave_history (I : List (Move ι κ) → Pool ι σ π → Prop) (s : Pool ι σ π)
    (step : ∀ ms m, G (interleave P K s ms) m → I ms (interleave P K s ms) →
      I (ms ++ [m]) (move P K (interleave P K s ms) m))
    (ms : List (Move ι κ)) (hg : Guarded P K G s ms) (h : I [] s) :
    I ms (interleave P K s ms) := by
  induction ms using List.reverseRecOn with
  | nil => exact h
  | append_singleton ms m ih =>
    obtain ⟨hms, hm, -⟩ := guarded_append.mp hg
    rw [interleave_append]
    exact step ms m hm (ih hms)

/-- The moves of a schedule that are noted, in order. -/
def events (P : ι → Program ρ ω π) (K : ι → Kernel κ ρ ω σ)
    (note : Pool ι σ π → Move ι κ → Option β) : Pool ι σ π → List (Move ι κ) → List β
  | _, [] => []
  | s, m :: ms => (note s m).toList ++ events P K note (move P K s m) ms

theorem events_append (note : Pool ι σ π → Move ι κ → Option β) (s : Pool ι σ π)
    (ms ns : List (Move ι κ)) : events P K note s (ms ++ ns) =
      events P K note s ms ++ events P K note (interleave P K s ms) ns := by
  induction ms generalizing s with
  | nil => rfl
  | cons m ms ih =>
    rw [List.cons_append, events, events, ih, List.append_assoc]
    rfl

theorem events_snoc (note : Pool ι σ π → Move ι κ → Option β) (s : Pool ι σ π)
    (ms : List (Move ι κ)) (m : Move ι κ) : events P K note s (ms ++ [m]) =
      events P K note s ms ++ (note (interleave P K s ms) m).toList := by
  rw [events_append, events, events, List.append_nil]

def Pool.map {τ : Type*} (f : σ → τ) (s : Pool ι σ π) : Pool ι τ π := ⟨f s.world, s.stage⟩

section Map
variable {τ : Type*} {L : ι → Kernel κ ρ ω τ} {f : σ → τ}

theorem move_map (h : ∀ i k r w, L i k r (f w) = ((K i k r w).1, f (K i k r w).2))
    (s : Pool ι σ π) (m : Move ι κ) : move P L (s.map f) m = (move P K s m).map f := by
  cases m with
  | kill i => rfl
  | act i k =>
    rcases idle_or_issues P s i with hidle | ⟨p, r, hp, hr⟩
    · rw [move_idle P K hidle, move_idle P L hidle]
    · rw [move_act P K hp hr, move_act (s := s.map f) P L hp hr]
      simp only [Pool.map, h]

/-- Kernels that reply alike, in worlds that f keeps related, run a pool alike. -/
theorem interleave_map (h : ∀ i k r w, L i k r (f w) = ((K i k r w).1, f (K i k r w).2))
    (s : Pool ι σ π) (ms : List (Move ι κ)) :
    interleave P L (s.map f) ms = (interleave P K s ms).map f := by
  induction ms generalizing s with
  | nil => rfl
  | cons m ms ih => exact (congrArg (interleave P L · ms) (move_map h s m)).trans (ih _)

end Map

/-- The turns a schedule gives a program, of those whose choice counts. -/
def turns (Q : κ → Bool) (i : ι) : List (Move ι κ) → ℕ
  | [] => 0
  | .kill _ :: ms => turns Q i ms
  | .act j k :: ms => (if j = i ∧ Q k then 1 else 0) + turns Q i ms

/-- A move is a turn of a program that has not returned, or its stage is what it was. -/
theorem move_stage {s : Pool ι σ π} {m : Move ι κ} {i : ι} {q : π}
    (h : (move P K s m).stage i = some q) :
    (s.stage i = some q ∧ ∀ k, m = .act i k → (P i).issue q = none) ∨
      ∃ k p r, m = .act i k ∧ s.stage i = some p ∧ (P i).issue p = some r ∧
        q = (P i).resume p (K i k r s.world).1 := by
  cases m with
  | kill j =>
    by_cases hij : i = j
    · subst hij
      simp [move] at h
    · exact Or.inl ⟨by simpa [move, Function.update_of_ne hij] using h, by simp⟩
  | act j k =>
    rcases idle_or_issues P s j with hidle | ⟨p, r, hp, hr⟩
    · rw [move_idle P K hidle] at h
      refine Or.inl ⟨h, fun l hl => ?_⟩
      obtain ⟨rfl, -⟩ := Move.act.inj hl
      exact hidle q h
    · rw [move_act P K hp hr] at h
      by_cases hij : i = j
      · subst hij
        exact Or.inr ⟨k, p, r, rfl, hp, hr, by simpa using h.symm⟩
      · refine Or.inl ⟨by simpa [Function.update_of_ne hij] using h, fun l hl => ?_⟩
        exact absurd (Move.act.inj hl).1.symm hij

/-- A program that no move kills stays at some stage. -/
theorem interleave_alive {s : Pool ι σ π} {i : ι} (hp : s.stage i ≠ none) {ms : List (Move ι κ)}
    (hms : Move.kill i ∉ ms) : ∃ q, (interleave P K s ms).stage i = some q := by
  suffices h : (interleave P K s ms).stage i ≠ none from Option.ne_none_iff_exists'.mp h
  induction ms generalizing s with
  | nil => exact hp
  | cons m ms ih =>
    obtain ⟨hm, hms⟩ := List.ne_and_not_mem_of_not_mem_cons hms
    refine ih ?_ hms
    cases m with
    | kill j =>
      have hij : i ≠ j := by
        rintro rfl
        exact hm rfl
      simpa [move, Function.update_of_ne hij] using hp
    | act j k =>
      rcases idle_or_issues P s j with hidle | ⟨p, r, hj, hr⟩
      · rwa [move_idle P K hidle]
      · rw [move_act P K hj hr]
        by_cases hij : i = j
        · subst hij
          simp
        · simpa [Function.update_of_ne hij] using hp

/-- A program that has returned is left as it is, unless it is killed. -/
theorem interleave_returned {s : Pool ι σ π} {i : ι} {p q : π} (hp : s.stage i = some p)
    (hr : (P i).issue p = none) {ms : List (Move ι κ)}
    (h : (interleave P K s ms).stage i = some q) : q = p := by
  induction ms using List.reverseRecOn generalizing q with
  | nil => exact Option.some.inj (h.symm.trans hp)
  | append_singleton ms m ih =>
    rw [interleave_append] at h
    rcases move_stage h with ⟨h, -⟩ | ⟨k, u, r, -, hu, hr', -⟩
    · exact ih h
    · obtain rfl := ih hu
      rw [hr] at hr'
      cases hr'

theorem turns_append (Q : κ → Bool) (i : ι) (ms ns : List (Move ι κ)) :
    turns Q i (ms ++ ns) = turns Q i ms + turns Q i ns := by
  induction ms with
  | nil => simp [turns]
  | cons m ms ih => cases m <;> simp [turns, ih, Nat.add_assoc]

/-- Where no turn takes a program farther from its return, and those that count bring it
nearer, what it still has to go and the turns it was given come to no more than it had to go
at first. The turns are those it is given in the states that the schedule leads to. -/
theorem turns_bounded_along {Q : κ → Bool} {i : ι} (cost : π → ℕ) {s : Pool ι σ π} {p : π}
    (hp : s.stage i = some p) (ms : List (Move ι κ))
    (step : ∀ ls k ns u r, ms = ls ++ .act i k :: ns → (interleave P K s ls).stage i = some u →
      (P i).issue u = some r → cost ((P i).resume u (K i k r (interleave P K s ls).world).1) +
        (if Q k then 1 else 0) ≤ cost u) {q : π}
    (hq : (interleave P K s ms).stage i = some q) (hopen : (P i).issue q ≠ none) :
    cost q + turns Q i ms ≤ cost p := by
  induction ms using List.reverseRecOn generalizing q with
  | nil =>
    obtain rfl := Option.some.inj (hq.symm.trans hp)
    exact Nat.le_refl _
  | append_singleton ms m ih =>
    have hbefore := @ih fun ls k ns u r hms => step ls k (ns ++ [m]) u r (by simp [hms])
    rw [interleave_append] at hq
    rw [turns_append]
    rcases move_stage hq with ⟨h, hturn⟩ | ⟨k, u, r, rfl, hu, hr, rfl⟩
    · have hrest := hbefore h hopen
      have hm : turns Q i [m] = 0 := by
        cases m with
        | kill j => rfl
        | act j k =>
          have hji : j ≠ i := by
            rintro rfl
            exact hopen (hturn k rfl)
          simp [turns, hji]
      omega
    · have hrest := hbefore hu (by rw [hr]; exact Option.some_ne_none _)
      have hstep := step ms k [] u r rfl hu hr
      simp only [turns, true_and, Nat.add_zero]
      omega

/-- The same where every turn does so, whatever the other programs do. -/
theorem turns_bounded {Q : κ → Bool} {i : ι} (cost : π → ℕ)
    (step : ∀ p r k w, (P i).issue p = some r →
      cost ((P i).resume p (K i k r w).1) + (if Q k then 1 else 0) ≤ cost p)
    {s : Pool ι σ π} {p : π} (hp : s.stage i = some p) (ms : List (Move ι κ)) {q : π}
    (hq : (interleave P K s ms).stage i = some q) (hopen : (P i).issue q ≠ none) :
    cost q + turns Q i ms ≤ cost p :=
  turns_bounded_along cost hp ms (fun _ k _ u r _ _ hr => step u r k _ hr) hq hopen

/-- A schedule up to the first turn of a program. -/
def before (i : ι) (ms : List (Move ι κ)) : List (Move ι κ) :=
  ms.takeWhile fun m =>
    match m with
    | .act j _ => j ≠ i
    | .kill _ => true

theorem before_eq {i : ι} {ls : List (Move ι κ)} (h : ∀ k, .act i k ∉ ls) (k : κ)
    (ns : List (Move ι κ)) : before i (ls ++ .act i k :: ns) = ls := by
  rw [before, List.takeWhile_append_of_pos, List.takeWhile_cons_of_neg, List.append_nil]
  · simp
  · intro m hm
    cases m with
    | kill j => rfl
    | act j l =>
      have hji : j ≠ i := by
        rintro rfl
        exact h l hm
      simpa using hji

end Nyx.Interaction
