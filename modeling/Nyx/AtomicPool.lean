import Nyx.AtomicStep

/-! Any number of `write_atomic` calls at once over one tree: their requests interleave in
any order, and any call may be killed at any point. -/
namespace Nyx.Atomic
open FileTree Interaction Text

variable {ι : Type} [DecidableEq ι]

abbrev Writers (ι : Type) := Pool ι (Volume OsStr) Stage

def writers (calls : ι → Call) (t : Volume OsStr) : Writers ι := ⟨t, fun i => some (start (calls i))⟩

def step (calls : ι → Call) : Writers ι → Move ι Choice → Writers ι :=
  move (fun i => program (calls i)) (fun i => Volume.respond (calls i).cwd)

def runAll (calls : ι → Call) : Writers ι → List (Move ι Choice) → Writers ι :=
  interleave (fun i => program (calls i)) (fun i => Volume.respond (calls i).cwd)

/-- A call is between creating its temporary file and renaming it. -/
def Holding (s : Writers ι) (i : ι) : Prop := ∃ p, s.stage i = some p ∧ p.holding = true

/-- No call creates its temporary file while another one holds a file of that name, or
over a file that goes by a second name. -/
def Clear (calls : ι → Call) (s : Writers ι) : Move ι Choice → Prop
  | .kill _ => True
  | .act i _ => s.stage i = some .create →
      (∀ j, j ≠ i → Holding s j → (calls j).tmp ≠ (calls i).tmp) ∧
        Unshared (calls i) s.world .create

abbrev AllClear (calls : ι → Call) (s : Writers ι) (ms : List (Move ι Choice)) : Prop :=
  Guarded (fun i => program (calls i)) (fun i => Volume.respond (calls i).cwd) (Clear calls) s ms

/-- The calls under way hold temporary files of their own, and every target holds its first
content or what one call aimed at it published. -/
structure Apart (calls : ι → Call) (t : Volume OsStr) (s : Writers ι) : Prop where
  holds : ∀ i p, s.stage i = some p → Holds (calls i) s.world p
  apart : ∀ i j, i ≠ j → Holding s i → Holding s j → (calls i).tmp ≠ (calls j).tmp
  content : ∀ i, s.world.content (calls i).target = t.content (calls i).target ∨
    ∃ j, (calls j).target = (calls i).target ∧
      s.world.content (calls i).target = some (calls j).data

section Step
variable {calls : ι → Call} {t : Volume OsStr} {s : Writers ι}

theorem Holding.update {i j : ι} {v : Option Stage} {w : Volume OsStr} (hij : j ≠ i)
    (h : Holding (⟨w, Function.update s.stage i v⟩ : Writers ι) j) : Holding s j := by
  obtain ⟨p, hp, hh⟩ := h
  exact ⟨p, by simpa [Function.update_of_ne hij] using hp, hh⟩

theorem Holding.self {i : ι} {q : Stage} {w : Volume OsStr}
    (h : Holding (⟨w, Function.update s.stage i (some q)⟩ : Writers ι) i) : q.holding = true := by
  obtain ⟨p, hp, hh⟩ := h
  obtain rfl : q = p := by simpa using hp
  exact hh

theorem apart_kill (h : Apart calls t s) (i : ι) : Apart calls t (step calls s (.kill i)) := by
  have back : ∀ j p, (step calls s (.kill i)).stage j = some p → s.stage j = some p := by
    intro j p hp
    by_cases hji : j = i
    · subst hji
      simp [step, move] at hp
    · simpa [step, move, Function.update_of_ne hji] using hp
  refine ⟨fun j p hp => h.holds j p (back j p hp), fun j k hjk hj hk => ?_, h.content⟩
  obtain ⟨p, hp, hh⟩ := hj
  obtain ⟨q, hq, hh'⟩ := hk
  exact h.apart j k hjk ⟨p, back j p hp, hh⟩ ⟨q, back k q hq, hh'⟩

omit [DecidableEq ι] in
theorem unshared_of_clear {i : ι} {k : Choice} {p : Stage} (hc : Clear calls s (.act i k))
    (hp : s.stage i = some p) : Unshared (calls i) s.world p := by
  cases p with
  | create => exact (hc hp).2
  | _ => trivial

omit [DecidableEq ι] in
/-- A call that changes its temporary file shares the name with no other holder. -/
theorem tmp_ne_of_clear (h : Apart calls t s) {i : ι} {k : Choice} {p : Stage}
    (hc : Clear calls s (.act i k)) (hp : s.stage i = some p)
    (hs : p = .create ∨ p.holding = true) {j : ι} (hj : j ≠ i) (hjh : Holding s j) :
    (calls j).tmp ≠ (calls i).tmp := by
  rcases hs with rfl | hs
  · exact (hc hp).1 j hj hjh
  · exact h.apart j i hj hjh ⟨p, hp, hs⟩

theorem apart_act (hn : ∀ i j, (calls j).fileName.isSome → (calls i).target ≠ (calls j).tmp)
    (h : Apart calls t s) {i : ι} {k : Choice} (hc : Clear calls s (.act i k)) :
    Apart calls t (step calls s (.act i k)) := by
  rcases idle_or_issues (fun i => program (calls i)) s i with hidle | ⟨p, r, hp, hr⟩
  · rw [step, move_idle _ _ hidle]
    exact h
  · have hh := h.holds i p hp
    have hu := unshared_of_clear hc hp
    have htouch := issue_touch hr hh hu k
    have hnamed : p = .create ∨ p.holding = true → (calls i).fileName.isSome := by
      intro hs
      rcases hs with rfl | hs
      · exact hh
      · exact (hh.scratch hs).choose_spec.named
    rw [step, move_act _ _ hp hr]
    refine ⟨fun j q hq => ?_, fun j l hjl hj hl => ?_, fun j => ?_⟩
    · by_cases hji : j = i
      · subst hji
        obtain rfl : resume (calls j) p (s.world.outcome (calls j).cwd k r).1 = q := by
          simpa [Volume.respond, program] using hq
        exact resume_holds hr hh hu k
      · replace hq : s.stage j = some q := by simpa [Function.update_of_ne hji] using hq
        have hj := h.holds j q hq
        refine htouch.holds hj fun hqh hx => ⟨tmp_ne_of_clear h hc hp hx hji ⟨q, hq, hqh⟩, ?_⟩
        exact (hn i j (hj.scratch hqh).choose_spec.named).symm
    · -- only the moving call can have become a holder, by creating
      by_cases hji : j = i
      · subst hji
        have hs := holding_resume hj.self
        exact (tmp_ne_of_clear h hc hp hs hjl.symm (hl.update hjl.symm)).symm
      · by_cases hli : l = i
        · subst hli
          exact tmp_ne_of_clear h hc hp (holding_resume hl.self) hji (hj.update hji)
        · exact h.apart j l hjl (hj.update hji) (hl.update hli)
    · have hcont := htouch.content (l := (calls j).target) fun hx => hn j i (hnamed hx)
      simp only [Volume.respond]
      rw [hcont]
      split_ifs with hx
      · exact Or.inr ⟨i, hx.2.symm, rfl⟩
      · exact h.content j

end Step

/-- Distinct temporary names over a tree without hard links are enough for every
interleaving to be clear. -/
theorem allClear_of_distinct {calls : ι → Call} (hd : ∀ i j, i ≠ j → (calls i).tmp ≠ (calls j).tmp)
    (s : Writers ι) (hs : s.world.Linkless) (ms : List (Move ι Choice)) : AllClear calls s ms := by
  refine guarded_of_invariant _ _ (fun s => s.world.Linkless) (fun s m h => ?_) s ms hs
  cases m with
  | kill i => exact ⟨trivial, h⟩
  | act i k =>
    refine ⟨fun _ => ⟨fun j hj _ => hd j i hj, unshared_of_linkless h _⟩, ?_⟩
    rcases idle_or_issues (fun i => program (calls i)) s i with hidle | ⟨p, r, hp, hr⟩
    · rw [move_idle _ _ hidle]
      exact h
    · rw [move_act _ _ hp hr]
      exact Volume.linkless_apply h _

/-- Two threads of one process at one reading of the clock, writing one path. -/
def clash (i : Bool) : Call :=
  ⟨⟨true, [.normal (bytes "manifest.nyx")], false⟩, if i then [1, 2, 3] else [4, 5, 6], 7, some 12, []⟩

/-- The first thread is about to rename when the second empties their common temporary
file and writes one byte of its own. -/
def clashing : List (Move Bool Choice) :=
  List.replicate 6 (.act true (.go 3)) ++ List.replicate 3 (.act false (.go 3)) ++
    [.act false (.go 1), .act true (.go 0)]

def ticking (i : Bool) : Call := { clash i with clock := some (if i then 12 else 13) }

end Nyx.Atomic
