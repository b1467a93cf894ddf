import Nyx.SessionHandles

/-! What the lifetimes of databases and packages are good for: a value in use is borrowed from
handles that are open, and nothing has been done with them since that its borrows exclude. -/
namespace Nyx.Session
open Memory Text Alpm

variable {σ : Type} {L : Libalpm σ} {release : Ptr → Mem → σ → Mem × σ} {w : World σ}

/-- The value came to be in one of these actions, and none since then takes a handle that the
value borrows in a way that excludes it. -/
def Undisturbed (L : Libalpm σ) (release : Ptr → Mem → σ → Mem × σ) (w : World σ)
    (as : List Action) (i : ℕ) (v : Value) : Prop :=
  ∃ ls b ns u u', as = ls ++ b :: ns ∧ run L release w ls = some u ∧ step L release u b = some u' ∧
    u.values.length ≤ i ∧ i < u'.values.length ∧
    ∀ a ∈ ns, ∀ k, a.takes = some k → ∀ l ∈ v.loans, k.conflicts l = false

/-- What a value has to be of use. -/
structure Lives (L : Libalpm σ) (release : Ptr → Mem → σ → Mem × σ) (w : World σ)
    (as : List Action) (s : State σ) (i : ℕ) (v : Value) : Prop where
  borrowed : v.loans ≠ []
  isOpen : ∀ l ∈ v.loans, (s.handle l.handle).isSome
  since : Undisturbed L release w as i v

section Take
variable {s : State σ} {a : Action} {i : ℕ} {v : Value}

theorem value_take {k : Option Loan} (h : (s.take k).value i = some v) :
    s.value i = some v ∧ ∀ j, k = some j → ∀ l ∈ v.loans, j.conflicts l = false := by
  obtain ⟨u, hu, hv⟩ : ∃ u, s.values[i]? = some u ∧
      u.filter (fun v => !v.loans.any fun l => (k.map (·.conflicts l)).getD false) = some v := by
    simpa [State.value, State.take, Option.join_eq_some_iff] using h
  obtain ⟨rfl, hfree⟩ := Option.filter_eq_some_iff.mp hv
  refine ⟨Option.join_eq_some_iff.mpr hu, ?_⟩
  rintro j rfl
  simpa using hfree

theorem take_value {k : Option Loan} (h : s.value i = some v)
    (hfree : ∀ j, k = some j → ∀ l ∈ v.loans, j.conflicts l = false) :
    (s.take k).value i = some v := by
  have hu := Option.join_eq_some_iff.mp h
  cases k with
  | none => simp [State.value, State.take, hu]
  | some j =>
    have hj : ∀ l ∈ v.loans, j.conflicts l = false := hfree j rfl
    simpa [State.value, State.take, hu, Option.filter] using hj

/-- A handle stays open, unless it is the one that is dropped. -/
theorem handle_after {g : Gain} {w' : World σ} {h : ℕ} (hopen : (s.handle h).isSome)
    (hdrop : a ≠ .drop h) : ((s.after release a g w').handle h).isSome := by
  obtain ⟨hd, hhd⟩ := Option.isSome_iff_exists.mp hopen
  have hget := mem_handles hhd
  obtain ⟨hlt, -⟩ := List.getElem?_eq_some_iff.mp hget
  have hkeep : (s.keeps a)[h]? = some (some hd) := by
    cases a with
    | drop k =>
      have hne : k ≠ h := by
        rintro rfl
        exact hdrop rfl
      simp [State.keeps, List.getElem?_set_ne hne, hget]
    | _ => exact hget
  have hlt' : h < (s.keeps a).length := (List.getElem?_eq_some_iff.mp hkeep).1
  simp [State.handle, State.after, List.getElem?_append_left hlt', hkeep]

theorem value_after {g : Gain} {w' : World σ} (h : (s.after release a g w').value i = some v) :
    s.value i = some v ∧ i < s.values.length ∨ v.loans = s.lends a ∧ s.values.length ≤ i ∧
      i < (s.after release a g w').values.length ∧ g.items ≠ [] := by
  have hget := Option.join_eq_some_iff.mp h
  obtain ⟨hlt, -⟩ := List.getElem?_eq_some_iff.mp hget
  by_cases hi : i < s.values.length
  · left
    simp only [State.after, List.getElem?_append_left hi] at hget
    exact ⟨Option.join_eq_some_iff.mpr hget, hi⟩
  · right
    simp only [State.after, List.getElem?_append_right (Nat.le_of_not_lt hi)] at hget
    have hmem := List.mem_of_getElem? hget
    obtain ⟨item, hitem, hv⟩ := List.mem_map.mp hmem
    obtain rfl := Option.some.inj hv
    exact ⟨rfl, Nat.le_of_not_lt hi, hlt, List.ne_nil_of_mem hitem⟩

end Take

section Args
variable {s : State σ} {a : Action} {i : ℕ}

theorem mapM_live {α : Type} {f : ℕ → Option α} (hf : ∀ i, (f i).isSome → (s.value i).isSome)
    {is : List ℕ} {xs : List α} (h : is.mapM f = some xs) : ∀ i ∈ is, (s.value i).isSome := by
  induction is generalizing xs with
  | nil => exact fun i hi => absurd hi List.not_mem_nil
  | cons j is ih =>
    rw [List.mapM_cons] at h
    obtain ⟨x, hx, h⟩ := Option.bind_eq_some_iff.mp h
    obtain ⟨ys, hys, -⟩ := Option.bind_eq_some_iff.mp h
    refine List.forall_mem_cons.mpr ⟨hf j ?_, ih hys⟩
    rw [hx]
    rfl

theorem db_live (h : (s.db i).isSome) : (s.value i).isSome := by
  unfold State.db at h
  split at h
  · rename_i hv
    rw [hv]
    rfl
  · cases h

theorem pkg_live (h : (s.pkg i).isSome) : (s.value i).isSome := by
  unfold State.pkg at h
  split at h
  · rename_i hv
    rw [hv]
    rfl
  · cases h

/-- No action is accepted that is given a value which is no more. -/
theorem args_live {x : Ffi σ Gain} (h : perform L release s a = some x) :
    ∀ i ∈ a.args, (s.value i).isSome := by
  cases a with
  | updateDbs k dbs force | findDbsSatisfier k dbs depstring =>
    simp only [perform, Option.bind_eq_bind, Option.bind_eq_some_iff] at h
    obtain ⟨hd, -, ds, hds, -⟩ := h
    exact mapM_live (fun _ => db_live) hds
  | checkDeps k pkglist remove upgrade reverseDeps =>
    simp only [perform, Option.bind_eq_bind, Option.bind_eq_some_iff] at h
    obtain ⟨hd, -, ps, hps, rs, hrs, us, hus, -⟩ := h
    exact List.forall_mem_append.mpr ⟨List.forall_mem_append.mpr
      ⟨mapM_live (fun _ => pkg_live) hps, mapM_live (fun _ => pkg_live) hrs⟩,
      mapM_live (fun _ => pkg_live) hus⟩
  | checkConflicts k pkglist =>
    simp only [perform, Option.bind_eq_bind, Option.bind_eq_some_iff] at h
    obtain ⟨hd, -, ps, hps, -⟩ := h
    exact mapM_live (fun _ => pkg_live) hps
  | getPkg j name | packages j | search j needles =>
    obtain ⟨d, hd, -⟩ := Option.map_eq_some_iff.mp h
    exact List.forall_mem_singleton.mpr (db_live (by rw [hd]; rfl))
  | readValue j =>
    obtain ⟨v, hv, -⟩ := Option.map_eq_some_iff.mp h
    exact List.forall_mem_singleton.mpr (by rw [hv]; rfl)
  | _ => exact fun i hi => absurd hi List.not_mem_nil

end Args

section Lives
variable {as : List Action} {a : Action} {s : State σ}

/-- What an action lends is borrowed, from handles that are open. -/
theorem lends_open (h : ∀ i v, s.value i = some v → Lives L release w as s i v) {x : Ffi σ Gain}
    (hperf : Performs L release (s.take a.takes) a x) {g : Gain} {v : World σ}
    (hx : x s.world = some (g, v)) (hitems : g.items ≠ []) :
    (s.take a.takes).lends a ≠ [] ∧ (∀ k, a ≠ .drop k) ∧
      ∀ l ∈ (s.take a.takes).lends a, ((s.take a.takes).handle l.handle).isSome := by
  have hargs : ∀ l ∈ a.args.flatMap fun i =>
      (((s.take a.takes).value i).map Value.loans).getD [],
      ((s.take a.takes).handle l.handle).isSome := by
    intro l hl
    obtain ⟨i, -, hl⟩ := List.mem_flatMap.mp hl
    cases hv : (s.take a.takes).value i with
    | none => simp [hv] at hl
    | some v =>
      rw [hv] at hl
      exact (h i v (value_take hv).1).isOpen l hl
  cases hperf with
  | init root dbpath =>
    obtain ⟨r, u, -, hg⟩ := Ffi.bind_inv hx
    obtain ⟨rfl, -⟩ := Prod.mk.inj (Option.some.inj hg)
    cases r <;> exact absurd rfl hitems
  | drop k hd isOpen =>
    obtain ⟨rfl, -⟩ := Prod.mk.inj (Option.some.inj hx)
    exact absurd rfl hitems
  | handle a x k hd keeps taken isOpen tidy opens =>
    refine ⟨?_, keeps, fun l hl => ?_⟩
    · rw [State.lends, taken]
      exact List.cons_ne_nil _ _
    · rcases List.mem_append.mp hl with hl | hl
      · rw [taken] at hl
        obtain rfl := List.mem_singleton.mp hl
        rw [isOpen]
        rfl
      · exact hargs l hl
  | db a x i d free arg held tidy opens =>
    have hkeeps : ∀ k, a ≠ .drop k := by
      rintro k rfl
      cases free
    obtain ⟨v, hv⟩ := Option.isSome_iff_exists.mp (db_live (by rw [held]; rfl))
    refine ⟨?_, hkeeps, fun l hl => ?_⟩
    · have hlends : (s.take a.takes).lends a = v.loans := by
        rw [State.lends, arg, List.flatMap_singleton, hv, free]
        rfl
      rw [hlends]
      exact (h i v (value_take hv).1).borrowed
    · rcases List.mem_append.mp hl with hl | hl
      · simp [free] at hl
      · exact hargs l hl
  | value i v held =>
    obtain ⟨rfl, -⟩ := Prod.mk.inj (Option.some.inj hx)
    exact absurd rfl hitems

theorem lives_step {s' : State σ} (hrun : run L release w as = some s)
    (hstep : step L release s a = some s')
    (h : ∀ i v, s.value i = some v → Lives L release w as s i v) (i : ℕ) (v : Value)
    (hv : s'.value i = some v) : Lives L release w (as ++ [a]) s' i v := by
  have hstep' := hstep
  obtain ⟨x, g, u, hperf, hx, rfl⟩ := step_cases hstep
  rcases value_after hv with ⟨hold, -⟩ | ⟨hloans, hfrom, hto, hitems⟩
  · obtain ⟨hs, hfree⟩ := value_take hold
    obtain ⟨hborrowed, hopen, ls, b, ns, t, t', rfl, hls, hb, hlo, hhi, hsince⟩ := h i v hs
    refine ⟨hborrowed, fun l hl => handle_after (hopen l hl) ?_, ls, b, ns ++ [a], t, t', by simp,
      hls, hb, hlo, hhi, List.forall_mem_append.mpr ⟨hsince, List.forall_mem_singleton.mpr hfree⟩⟩
    -- what is borrowed is not dropped
    rintro rfl
    have hconflict := hfree _ rfl l hl
    simp [Loan.conflicts] at hconflict
  · obtain ⟨hborrowed, hkeeps, hopen⟩ := lends_open h hperf hx hitems
    rw [← hloans] at hborrowed hopen
    have hlen : s.values.length ≤ i := by simpa [State.take] using hfrom
    exact ⟨hborrowed, fun l hl => handle_after (hopen l hl) (hkeeps _),
      as, a, [], s, _, rfl, hrun, hstep', hlen, hto, fun b hb => absurd hb List.not_mem_nil⟩

theorem lives_run (hrun : run L release w as = some s) :
    ∀ i v, s.value i = some v → Lives L release w as s i v :=
  run_history (fun as s => ∀ i v, s.value i = some v → Lives L release w as s i v)
    (fun i v hv => by simp [State.value, State.start] at hv)
    (fun _ _ _ _ hs hstep h => lives_step hs hstep h) hrun

end Lives

/-- In every session, each database or package that an action is given is borrowed from handles
that are all open, the one that libalpm owns it through among them; since it was made no
action has dropped one of these handles or taken it with `&mut self`, nor taken it at all where
the value holds it so itself, and nor does this action. -/
theorem values_guarded {σ : Type} (L : Libalpm σ) (release : Ptr → Mem → σ → Mem × σ) (w : World σ)
    (as : List Action) (a : Action) (s : State σ) (hs : run L release w as = some s)
    (ha : (step L release s a).isSome) (i : ℕ) (hi : i ∈ a.args) :
    ∃ v, s.value i = some v ∧ v.loans ≠ [] ∧ (∀ l ∈ v.loans, (s.handle l.handle).isSome) ∧
      Undisturbed L release w as i v ∧
      ∀ k, a.takes = some k → ∀ l ∈ v.loans, k.conflicts l = false := by
  obtain ⟨s', hs'⟩ := Option.isSome_iff_exists.mp ha
  obtain ⟨x, hx, -⟩ := Option.bind_eq_some_iff.mp hs'
  obtain ⟨v, hv⟩ := Option.isSome_iff_exists.mp (args_live hx i hi)
  obtain ⟨hold, hfree⟩ := value_take hv
  obtain ⟨hborrowed, hopen, hsince⟩ := lives_run hs i v hold
  exact ⟨v, hold, hborrowed, hopen, hsince, hfree⟩

/-- A package that was looked up in the local database. -/
def lookedUp : List Action := [.init (bytes "/") (bytes "/db"), .localDb 0, .getPkg 0 "a"]

theorem run_next (L : Libalpm σ) (release : Ptr → Mem → σ → Mem × σ) (w : World σ)
    (as : List Action) (a : Action) (h : (run L release w (as ++ [a])).isSome) :
    ∃ s s', run L release w as = some s ∧ step L release s a = some s' := by
  obtain ⟨s', hs'⟩ := Option.isSome_iff_exists.mp h
  obtain ⟨s, hs, hstep⟩ := run_snoc.mp hs'
  exact ⟨s, s', hs, hstep⟩

theorem values_guarded_lookedUp : ∃ s v, run depot (fun _ m u => (m, u)) blank lookedUp = some s ∧
    s.value 1 = some v ∧ v.loans ≠ [] ∧ ∀ l ∈ v.loans, (s.handle l.handle).isSome := by
  obtain ⟨s, s', hs, hstep⟩ := run_next depot (fun _ m u => (m, u)) blank lookedUp
    (.checkConflicts 0 [1]) (by decide +kernel)
  obtain ⟨v, hv, hborrowed, hopen, -⟩ := values_guarded depot (fun _ m u => (m, u)) blank lookedUp
    (.checkConflicts 0 [1]) s hs (by rw [hstep]; rfl) 1 (List.mem_singleton_self 1)
  exact ⟨s, v, hs, hv, hborrowed, hopen⟩

/-- `update_dbs` is never given a database of the handle it is called on: its `&mut self` ends
them all. Those it refreshes belong to other handles, and what the program has of them, the
packages of their caches included, it still has afterwards. -/
theorem updates_foreign {σ : Type} (L : Libalpm σ) (release : Ptr → Mem → σ → Mem × σ) (w : World σ)
    (as : List Action) (s s' : State σ) (hs : run L release w as = some s) (h : ℕ) (dbs : List ℕ)
    (force : Bool) (hstep : step L release s (.updateDbs h dbs force) = some s') (i : ℕ)
    (hi : i ∈ dbs) : ∃ v, s.value i = some v ∧ (∃ l ∈ v.loans, l.handle ≠ h) ∧
      (∀ l ∈ v.loans, l.handle ≠ h) ∧
      ∀ j p, s.value j = some p → (∀ l ∈ p.loans, l ∈ v.loans) → s'.value j = some p := by
  obtain ⟨x, hx, hrest⟩ := Option.bind_eq_some_iff.mp hstep
  obtain ⟨r, -, hr⟩ := Option.bind_eq_some_iff.mp hrest
  obtain ⟨v, hv⟩ := Option.isSome_iff_exists.mp (args_live hx i hi)
  obtain ⟨hold, hfree⟩ := value_take hv
  have hother : ∀ l ∈ v.loans, l.handle ≠ h := by
    intro l hl heq
    have hconflict := hfree _ rfl l hl
    simp [Loan.conflicts, heq] at hconflict
  obtain ⟨l, hl⟩ := List.exists_mem_of_ne_nil _ (lives_run hs i v hold).borrowed
  refine ⟨v, hold, ⟨l, hl, hother l hl⟩, hother, fun j p hp hloans => ?_⟩
  obtain rfl := Option.some.inj hr
  have hkept : (s.take (Action.updateDbs h dbs force).takes).value j = some p := by
    refine take_value hp fun k hk l hl => ?_
    obtain rfl := Option.some.inj hk
    have hne := hother l (hloans l hl)
    simp [Loan.conflicts, Ne.symm hne]
  have hget := Option.join_eq_some_iff.mp hkept
  have hlt := (List.getElem?_eq_some_iff.mp hget).1
  simp only [State.value, State.after, List.getElem?_append_left hlt]
  exact hkept

/-- Two handles, and a package of the second one's local database. -/
def twoHandles : List Action :=
  [.init (bytes "/") (bytes "/db"), .init (bytes "/mnt") (bytes "/mnt/db"), .localDb 1,
    .getPkg 0 "a"]

/-- The package outlives the refresh of its database, through a handle it does not borrow. -/
theorem updates_foreign_twoHandles : ∃ s s',
    run depot (fun _ m u => (m, u)) blank twoHandles = some s ∧
      step depot (fun _ m u => (m, u)) s (.updateDbs 0 [0] true) = some s' ∧
      (s'.value 1).map Value.item = some (.pkg ⟨3⟩) := by
  obtain ⟨s, s', hs, hstep⟩ := run_next depot (fun _ m u => (m, u)) blank twoHandles
    (.updateDbs 0 [0] true) (by decide +kernel)
  obtain ⟨v, hv, -, -, hkept⟩ := updates_foreign depot (fun _ m u => (m, u)) blank twoHandles s s' hs
    0 [0] true hstep 0 (List.mem_singleton_self 0)
  have hvalues : (run depot (fun _ m u => (m, u)) blank twoHandles).map (fun s =>
      (s.value 0, s.value 1)) = some (some ⟨.db ⟨2⟩, [⟨1, false⟩]⟩,
        some ⟨.pkg ⟨3⟩, [⟨1, false⟩]⟩) := by decide +kernel
  rw [hs] at hvalues
  obtain ⟨hdb, hpkg⟩ := Prod.mk.inj (Option.some.inj hvalues)
  obtain rfl := Option.some.inj (hv.symm.trans hdb)
  have hstill := hkept 1 _ hpkg fun l hl => hl
  exact ⟨s, s', hs, hstep, by rw [hstill]; rfl⟩

end Nyx.Session
