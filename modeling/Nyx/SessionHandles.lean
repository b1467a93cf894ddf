import Nyx.Session

/-! The life of a handle as libalpm sees it: opened, used while it is open, and released as
often as it was opened. -/
namespace Nyx.Session
open Memory Text Alpm

namespace Happening

def opens : Happening → Option Ptr
  | .called ⟨.alpmInitialize .., _, r, _⟩ => if r.ptr = 0 then none else some r.ptr
  | .called _ | .read _ | .released .. => none

def closes : Happening → Option Ptr
  | .released p .. => some p
  | .called _ | .read _ => none

def uses : Happening → Option Ptr
  | .called ev =>
    match ev.call.receiver with
    | .handle p => some p
    | .library | .db _ => none
  | .read p | .released p .. => some p

end Happening

/-- How often a handle was opened, and how often released. -/
def opened (p : Ptr) (tr : List Happening) : ℕ := tr.countP fun x => x.opens = some p

def closed (p : Ptr) (tr : List Happening) : ℕ := tr.countP fun x => x.closes = some p

theorem opened_cons (p : Ptr) (x : Happening) (tr : List Happening) :
    opened p (x :: tr) = opened p tr + if x.opens = some p then 1 else 0 := by
  simp [opened, List.countP_cons]

theorem closed_cons (p : Ptr) (x : Happening) (tr : List Happening) :
    closed p (x :: tr) = closed p tr + if x.closes = some p then 1 else 0 := by
  simp [closed, List.countP_cons]

/-- A handle is used, and released, only while it is open. -/
def Disciplined : List Happening → Prop
  | [] => True
  | x :: tr => (∀ p, x.uses = some p → closed p tr < opened p tr) ∧ Disciplined tr

/-- The handles that libalpm has open are those of the program. -/
structure Balanced (tr : List Happening) (handles : List (Option Handle)) : Prop where
  disciplined : Disciplined tr
  opened : ∀ p, opened p tr = closed p tr + handles.count (some ⟨p⟩)

section Balanced
variable {tr : List Happening} {handles : List (Option Handle)}

theorem Balanced.lt (h : Balanced tr handles) {p : Ptr} (hp : some ⟨p⟩ ∈ handles) :
    closed p tr < Session.opened p tr := by
  have hpos := List.count_pos_iff.mpr hp
  rw [h.opened p]
  omega

/-- Handles may be used that are open. -/
theorem Balanced.use (h : Balanced tr handles) {x : Happening} (hopens : x.opens = none)
    (hcloses : x.closes = none) (huses : ∀ p, x.uses = some p → some ⟨p⟩ ∈ handles) :
    Balanced (x :: tr) handles := by
  refine ⟨⟨fun p hp => h.lt (huses p hp), h.disciplined⟩, fun p => ?_⟩
  simpa [Session.opened, closed, hopens, hcloses] using h.opened p

theorem Balanced.init (h : Balanced tr handles) {x : Happening} {p : Ptr}
    (hopens : x.opens = some p) (hcloses : x.closes = none) (huses : x.uses = none) :
    Balanced (x :: tr) (handles ++ [some ⟨p⟩]) := by
  refine ⟨⟨fun q hq => ?_, h.disciplined⟩, fun q => ?_⟩
  · rw [huses] at hq
    cases hq
  · have hold := h.opened q
    rw [opened_cons, closed_cons, hopens, hcloses, List.count_append]
    by_cases hqp : p = q
    · subst hqp
      simp only [if_true, reduceCtorEq, if_false, List.count_singleton_self]
      omega
    · simpa [hqp] using hold

theorem Balanced.drop (h : Balanced tr handles) {k : ℕ} {hd : Handle}
    (hk : handles[k]? = some (some hd)) (m m' : Mem) :
    Balanced (.released hd.raw m m' :: tr) (handles.set k none) := by
  have hmem := List.mem_of_getElem? hk
  refine ⟨⟨fun p hp => ?_, h.disciplined⟩, fun q => ?_⟩
  · obtain rfl := Option.some.inj hp
    exact h.lt hmem
  · obtain ⟨hlt, hget⟩ := List.getElem?_eq_some_iff.mp hk
    have hold := h.opened q
    have hcount := List.count_set (a := none) (b := some (⟨q⟩ : Handle)) hlt
    rw [hget] at hcount
    rw [opened_cons, closed_cons, hcount]
    by_cases hqp : hd = ⟨q⟩
    · subst hqp
      have hpos := List.count_pos_iff.mpr hmem
      simp [Happening.opens, Happening.closes]
      omega
    · have hne : hd.raw ≠ q := by
        rintro rfl
        exact hqp rfl
      simpa [Happening.opens, Happening.closes, hqp, hne] using hold

end Balanced

/-- What `Handle::initialize` gives is what libalpm opened for it, or nothing. -/
theorem init_opens {σ : Type} {L : Libalpm σ} {w w' : World σ} {root dbpath : OsStr}
    {r : Except AlpmError Handle} (h : Handle.init L root dbpath w = some (r, w')) :
    (w'.log = w.log ∧ ∃ e, r = .error e) ∨ ∃ ev p q, w'.log = ev :: w.log ∧
      ev.call = .alpmInitialize p q ∧
      (ev.reply.ptr = 0 ∧ (∃ e, r = .error e) ∨ ev.reply.ptr ≠ 0 ∧ r = .ok ⟨ev.reply.ptr⟩) := by
  unfold Handle.init at h
  cases hr : pathToCstring root with
  | error e =>
    simp only [hr, Ffi.pure_apply, Option.some.injEq, Prod.mk.injEq] at h
    obtain ⟨rfl, rfl⟩ := h
    exact Or.inl ⟨rfl, e, rfl⟩
  | ok rootC =>
    cases hd : pathToCstring dbpath with
    | error e =>
      simp only [hr, hd, Ffi.pure_apply, Option.some.injEq, Prod.mk.injEq] at h
      obtain ⟨rfl, rfl⟩ := h
      exact Or.inl ⟨rfl, e, rfl⟩
    | ok dbpathC =>
      simp only [hr, hd, Ffi.bind_apply, asPtr_apply, Ffi.call_apply, Ffi.drop_apply,
        Ffi.pure_apply, Option.bind_some, Option.some.injEq, Prod.mk.injEq] at h
      obtain ⟨rfl, rfl⟩ := h
      refine Or.inr ⟨_, _, _, rfl, rfl, ?_⟩
      split_ifs with hnull
      · exact Or.inl ⟨hnull, _, rfl⟩
      · exact Or.inr ⟨hnull, rfl⟩

section Step
variable {σ : Type} {L : Libalpm σ} {release : Ptr → Mem → σ → Mem × σ} {s s' : State σ}

theorem mem_handles {h : ℕ} {hd : Handle} (hs : s.handle h = some hd) :
    s.handles[h]? = some (some hd) :=
  Option.join_eq_some_iff.mp hs

/-- A call more in the log is a call more that libalpm has seen. -/
theorem calls_of_footprint {w w' : World σ} {on : Receiver} (h : Footprint L on w w') :
    calls w w' = [] ∨ ∃ ev, ev.call.receiver = on ∧ calls w w' = [.called ev] := by
  cases h with
  | idle lib log cell => exact Or.inl (by simp [calls, log])
  | called c m ps own made answered cell =>
    exact Or.inr ⟨⟨c, m, (L.call c m w.lib).1, (L.call c m w.lib).2.1⟩, made,
      by simp [calls, answered.log]⟩

theorem Balanced.calls {tr : List Happening} {handles : List (Option Handle)}
    (h : Balanced tr handles) {w w' : World σ} {on : Receiver} (hw : Footprint L on w w')
    (hon : on ≠ .library) (hopen : ∀ p, on = .handle p → some ⟨p⟩ ∈ handles) :
    Balanced (calls w w' ++ tr) handles := by
  rcases calls_of_footprint hw with hnone | ⟨ev, rfl, hone⟩
  · rwa [hnone]
  · rw [hone]
    refine h.use ?_ rfl fun p hp => hopen p ?_
    · obtain ⟨c, m, r, m'⟩ := ev
      cases c <;> first | rfl | exact absurd rfl hon
    · cases hc : ev.call.receiver with
      | library => exact absurd hc hon
      | handle q =>
        simp only [Happening.uses, hc] at hp
        rw [Option.some.inj hp]
      | db q =>
        simp only [Happening.uses, hc] at hp
        cases hp

theorem balanced_init {root dbpath : OsStr} {g : Gain} {w : World σ}
    (h : Balanced s.trace s.handles)
    (hx : (do return gained (fun h => ⟨[h], []⟩) (← Handle.init L root dbpath)) s.world =
      some (g, w)) :
    Balanced (s.after release (.init root dbpath) g w).trace
      (s.after release (.init root dbpath) g w).handles := by
  obtain ⟨r, v, hr, hg⟩ := Ffi.bind_inv hx
  obtain ⟨rfl, rfl⟩ := Prod.mk.inj (Option.some.inj hg)
  rcases init_opens hr with ⟨hlog, e, rfl⟩ | ⟨⟨c, m, a, m'⟩, p, q, hlog, rfl, hres⟩
  · simpa [State.after, State.keeps, seen, calls, hlog, gained, Gain.nothing] using h
  · rcases hres with ⟨hnull, e, rfl⟩ | ⟨hptr, rfl⟩
    · have hstep := h.use (x := .called ⟨.alpmInitialize p q, m, a, m'⟩) (if_pos hnull) rfl
        fun p hp => by cases hp
      simpa [State.after, State.keeps, seen, calls, hlog, gained, Gain.nothing] using hstep
    · have hstep := h.init (x := .called ⟨.alpmInitialize p q, m, a, m'⟩) (if_neg hptr) rfl rfl
      simpa [State.after, State.keeps, seen, calls, hlog, gained] using hstep

/-- Besides its call, an action that is given a handle is seen to read it at most. -/
theorem seen_taken {a : Action} {k : Loan} {hd : Handle} (hkeeps : ∀ h, a ≠ .drop h)
    (hk : a.takes = some k) (hopen : s.handle k.handle = some hd) :
    seen release s a = [] ∨ seen release s a = [.read hd.raw] := by
  cases a with
  | drop h => exact absurd rfl (hkeeps h)
  | readHandle h =>
    obtain rfl := Option.some.inj hk
    exact Or.inr (by simp [seen, hopen])
  | _ => exact Or.inl rfl

theorem seen_free {a : Action} (h : a.takes = none) : seen release s a = [] := by
  cases a <;> first | rfl | cases h

theorem balanced_step {a : Action} (h : step L release s a = some s')
    (hs : Balanced s.trace s.handles) : Balanced s'.trace s'.handles := by
  obtain ⟨x, g, w, hperf, hx, rfl⟩ := step_cases h
  replace hs : Balanced (s.take a.takes).trace (s.take a.takes).handles := hs
  replace hx : x (s.take a.takes).world = some (g, w) := hx
  generalize s.take a.takes = u at hs hx hperf
  cases hperf with
  | init root dbpath => exact balanced_init hs hx
  | drop k hd isOpen =>
    obtain ⟨rfl, rfl⟩ := Prod.mk.inj (Option.some.inj hx)
    have hstep := hs.drop (mem_handles isOpen) u.world.mem
      (release hd.raw u.world.mem u.world.lib).1
    simpa [State.after, State.keeps, seen, calls, isOpen, Gain.nothing] using hstep
  | handle a x k hd keeps taken isOpen tidy opens =>
    have hmem : some hd ∈ u.handles := List.mem_of_getElem? (mem_handles isOpen)
    have hcalls := hs.calls (tidy _ _ _ hx) (by simp) fun p hp => by
      obtain rfl := Receiver.handle.inj hp
      exact hmem
    rw [State.after, opens _ _ _ hx, keeps_eq keeps, List.map_nil, List.append_nil, List.append_assoc]
    rcases seen_taken keeps taken isOpen with hnone | hread
    · rwa [hnone]
    · rw [hread]
      refine hcalls.use rfl rfl fun p hp => ?_
      obtain rfl := Option.some.inj hp
      exact hmem
  | db a x i d free arg held tidy opens =>
    have hkeeps : ∀ h, a ≠ .drop h := by
      rintro h rfl
      cases free
    have hcalls := hs.calls (tidy _ _ _ hx) (by simp) (by simp)
    rwa [State.after, opens _ _ _ hx, keeps_eq hkeeps, seen_free free, List.map_nil,
      List.append_nil, List.nil_append]
  | value i v held =>
    obtain ⟨rfl, rfl⟩ := Prod.mk.inj (Option.some.inj hx)
    simpa [State.after, State.keeps, seen, calls, Gain.nothing] using hs

end Step

/-- A library with one handle, one database and one package, that finds nothing when it is asked
for a list. -/
def depot : Libalpm Unit where
  call c m s := (⟨match c with
    | .alpmInitialize .. => 1
    | .alpmGetLocaldb _ | .alpmRegisterSyncdb .. => 2
    | .alpmDbGetPkg .. | .alpmFindDbsSatisfier .. => 3
    | _ => 0, 0, 0⟩, m, s)
  errno _ _ := 0
  strerror _ := none
  pkgGetName _ _ _ := 0

/-- The handle is opened once more when it has been dropped. -/
def reopened : List Action :=
  [.init (bytes "/") (bytes "/db"), .localDb 0, .getPkg 0 "a", .checkConflicts 0 [1], .drop 0,
    .init (bytes "/") (bytes "/db"), .registerSyncdb 1 "core" 0, .search 2 ["a"], .drop 1]

end Nyx.Session
