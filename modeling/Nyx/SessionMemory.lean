import Nyx.SessionHandles

/-! What a session leaves in the memory it shares with libalpm: what libalpm put there and has
not taken away, and nothing else. -/
namespace Nyx.Session
open Memory Text Alpm

/-- Whether libalpm put a cell there, or took one away, if it did either. -/
def effect (p : Ptr) (before after : Mem) : Option Bool :=
  if before.cell p = none then if after.cell p = none then none else some true
  else if after.cell p = none then some false else none

def Happening.effect (p : Ptr) : Happening → Option Bool
  | .called ev => Session.effect p ev.before ev.after
  | .read _ => none
  | .released _ before after => Session.effect p before after

/-- A cell is there if libalpm put it there last, or it was there at first and was left alone. -/
def Left (m : Mem) (p : Ptr) : List Happening → Prop
  | [] => m.cell p ≠ none
  | x :: tr =>
    match x.effect p with
    | some b => b = true
    | none => Left m p tr

section Step
variable {σ : Type} {L : Libalpm σ} {release : Ptr → Mem → σ → Mem × σ} {s s' : State σ} {p : Ptr}

/-- What libalpm finds, it leaves unless it takes it, and what it did not find it has put. -/
theorem left_effect {m before after : Mem} {x : Happening} {tr : List Happening}
    (hx : x.effect p = effect p before after) (h : before.cell p ≠ none ↔ Left m p tr) :
    after.cell p ≠ none ↔ Left m p (x :: tr) := by
  rw [Left, hx]
  unfold effect
  split_ifs with hb ha ha
  · rw [← h]
    simp [hb, ha]
  · simpa using ha
  · simpa using ha
  · rw [← h]
    simp [hb, ha]

/-- A cell that libalpm finds without having put it there, it has not put there afterwards. -/
theorem not_left {m before after : Mem} {x : Happening} {tr : List Happening}
    (hx : x.effect p = effect p before after) (hb : before.cell p ≠ none) (h : ¬ Left m p tr) :
    ¬ Left m p (x :: tr) := by
  rw [Left, hx, effect, if_neg hb]
  split_ifs
  · simp
  · exact h

/-- The cells of its own that an operation puts in memory make no difference to what is left. -/
theorem left_calls {m : Mem} {on : Receiver} {w w' : World σ} {tr : List Happening}
    (h : Footprint L on w w') (hw : w.mem.cell p ≠ none ↔ Left m p tr) :
    w'.mem.cell p ≠ none ↔ Left m p (calls w w' ++ tr) := by
  cases h with
  | idle lib log cell => simpa [calls, log, cell] using hw
  | called c v ps own made answered cell =>
    have hcalls : calls w w' = [.called ⟨c, v, (L.call c v w.lib).1, (L.call c v w.lib).2.1⟩] := by
      simp [calls, answered.log]
    rw [hcalls, cell]
    by_cases hp : p ∈ ps
    · have hnone : w.mem.cell p = none := by
        by_contra hne
        exact Nat.not_lt.mpr ((own.mem p).mp hp).1 (w.mem.bound hne)
      have hleft : ¬ Left m p tr := fun hl => hw.mpr hl hnone
      have hdrop : ((L.call c v w.lib).2.1.drop ps).cell p = none := if_pos hp
      rw [hdrop]
      exact iff_of_false (fun hne => hne rfl) (not_left rfl (own.held p hp) hleft)
    · have hv : v.cell p ≠ none ↔ Left m p tr := by
        by_cases hlt : p < w.mem.next
        · rw [own.cell p hlt, hw]
        · have hge : ¬ p < v.next := fun hvlt =>
            hp ((own.mem p).mpr ⟨Nat.le_of_not_lt hlt, hvlt⟩)
          have hw0 : w.mem.cell p = none := by
            by_contra hne
            exact hlt (w.mem.bound hne)
          have hv0 : v.cell p = none := by
            by_contra hne
            exact hge (v.bound hne)
          rw [hv0, ← hw, hw0]
      have hdrop : ((L.call c v w.lib).2.1.drop ps).cell p = (L.call c v w.lib).2.1.cell p :=
        if_neg hp
      rw [hdrop]
      exact left_effect rfl hv

theorem left_step {m : Mem} {a : Action} (h : step L release s a = some s')
    (hs : s.world.mem.cell p ≠ none ↔ Left m p s.trace) :
    s'.world.mem.cell p ≠ none ↔ Left m p s'.trace := by
  obtain ⟨x, g, w, hperf, hx, rfl⟩ := step_cases h
  replace hs : (s.take a.takes).world.mem.cell p ≠ none ↔ Left m p (s.take a.takes).trace := hs
  replace hx : x (s.take a.takes).world = some (g, w) := hx
  generalize s.take a.takes = u at hs hx hperf
  cases hperf with
  | init root dbpath =>
    have hcalls := left_calls ((tidy_init root dbpath).map _ _ _ _ hx) hs
    simpa [State.after, seen] using hcalls
  | drop k hd isOpen =>
    obtain ⟨rfl, rfl⟩ := Prod.mk.inj (Option.some.inj hx)
    have hrelease : (release hd.raw u.world.mem u.world.lib).1.cell p ≠ none ↔ Left m p
        (.released hd.raw u.world.mem (release hd.raw u.world.mem u.world.lib).1 :: u.trace) :=
      left_effect rfl hs
    simpa [State.after, seen, calls, isOpen] using hrelease
  | handle a x k hd keeps taken isOpen tidy opens =>
    have hcalls := left_calls (tidy _ _ _ hx) hs
    rw [State.after, List.append_assoc]
    rcases seen_taken keeps taken isOpen with hnone | hread
    · rwa [hnone]
    · rw [hread]
      exact hcalls
  | db a x i d free arg held tidy opens =>
    have hcalls := left_calls (tidy _ _ _ hx) hs
    rwa [State.after, seen_free free, List.nil_append]
  | value i v held =>
    obtain ⟨rfl, rfl⟩ := Prod.mk.inj (Option.some.inj hx)
    simpa [State.after, seen, calls] using hs

end Step

/-- A session whose library puts four cells in memory for each of its answers. -/
def answering : List Action :=
  [.init (bytes "/") (bytes "/db"), .checkDeps 0 [] [] [] false, .drop 0]

end Nyx.Session
