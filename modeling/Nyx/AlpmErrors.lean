import Nyx.AlpmOutcome

/-! The two ways an operation fails, by a check of its own and by libalpm, seen from the
caller: the category of the error, and what the error says about the call. -/
namespace Nyx.Alpm
open Memory Text Nyx.Core

variable {σ : Type}

/-- A library that gives one reply to every call and always holds one errno. -/
def replying (r : AlpmReply) (errno : UInt32) : Libalpm Unit :=
  ⟨fun _ m s => (r, m, s), fun _ _ => errno, fun _ => none, fun _ _ _ => 0⟩

def blank : World Unit :=
  ⟨⟨fun _ => none, fun _ => 0, 1, Nat.one_pos, rfl, fun h => absurd rfl h⟩, (), []⟩

/-- The category of an error, and with it the exit code, marks a condition. -/
def Marks (e : AlpmError) (c : ErrorCategory) (P : Prop) : Prop :=
  (e.toNyxError.category = c ↔ P) ∧ (e.toNyxError.category.exitCode = c.exitCode ↔ P)

/-- The category tells input that was rejected before libalpm was called from a call to
libalpm that failed. -/
def Faithful (L : Libalpm σ) (op : Op) (w : World σ) : Prop :=
  ∀ e w', op.perform L w = some (.error e, w') →
    Marks e .invalidInput (w'.log = w.log) ∧
      Marks e .alpm (∃ ev, w'.log = ev :: w.log ∧ op.failed ev.reply)

theorem category_toNyxError (e : AlpmError) : e.toNyxError.category = .alpm := rfl

theorem marks_iff {e : AlpmError} {c : ErrorCategory} {P : Prop} :
    Marks e c P ↔ (e.toNyxError.category = c ↔ P) := by
  have hcode : e.toNyxError.category.exitCode = c.exitCode ↔ e.toNyxError.category = c :=
    ⟨ErrorCategory.exitCode_injective, fun h => congrArg _ h⟩
  rw [Marks, hcode, and_self_iff]

theorem Op.failed_of_verdict {L : Libalpm σ} {op : Op} {r : AlpmReply} {lib : σ} {e : AlpmError}
    (h : op.verdict L r lib = .error e) : op.failed r := by
  cases op with
  | init | localDb | registerSyncdb | addCachedir | setLogfile | search =>
    simp only [Op.verdict] at h
    split_ifs at h with hf
    exact hf
  | updateDbs =>
    simp only [Op.verdict] at h
    split_ifs at h with hf
    intro h0
    rw [h0] at hf
    exact absurd hf (by decide)

/-- An error category is faithful exactly if nothing was rejected: every error becomes one of
libalpm. -/
theorem category_faithful_iff (L : Libalpm σ) (op : Op) (w : World σ) :
    Faithful L op w ↔ op.Accepted := by
  constructor
  · intro h
    by_contra hrej
    obtain ⟨e, he, -⟩ := Op.rejected L w hrej
    have hcat := ((h e w he).1.1).mpr rfl
    rw [category_toNyxError] at hcat
    cases hcat
  · intro hacc e w' hrun
    rcases (Op.runs L w hacc).cases with hv | ⟨c, m, v, hans, hv⟩
    · rw [hv] at hrun
      cases hrun
    · obtain ⟨hverdict, rfl⟩ := Prod.mk.inj (Option.some.inj (hv.symm.trans hrun))
      have hlog : v.log ≠ w.log := by
        rw [hans.log]
        exact List.cons_ne_self _ _
      have hfail : ∃ ev, v.log = ev :: w.log ∧ op.failed ev.reply :=
        ⟨_, hans.log, Op.failed_of_verdict hverdict⟩
      have hinput : e.toNyxError.category ≠ .invalidInput := by
        rw [category_toNyxError]
        decide
      exact ⟨marks_iff.mpr (iff_of_false hinput hlog), marks_iff.mpr (iff_of_true rfl hfail)⟩

/-- A repository name with a NUL in it is rejected, as a failure of libalpm. -/
theorem rejected_name_unfaithful :
    let op := Op.registerSyncdb ⟨1⟩ "co\x00re" 0
    (∃ e, op.perform (replying ⟨0, 0, 0⟩ 0) blank = some (.error e, blank) ∧
        e.toNyxError.category = .alpm ∧ e.toNyxError.category.exitCode = 13) ∧
      ¬ Faithful (replying ⟨0, 0, 0⟩ 0) op blank := by
  have hrej : ¬ (Op.registerSyncdb ⟨1⟩ "co\x00re" 0).Accepted := by
    unfold Op.Accepted NameOk
    decide +kernel
  constructor
  · obtain ⟨e, he, -⟩ := Op.rejected (replying ⟨0, 0, 0⟩ 0) blank hrej
    exact ⟨e, he, rfl, rfl⟩
  · intro h
    obtain ⟨e, he, -⟩ := Op.rejected (replying ⟨0, 0, 0⟩ 0) blank hrej
    have hcat := ((h e blank he).1.1).mpr rfl
    cases hcat

/-- What an operation reports is libalpm's own verdict: an error exactly for a failed call,
with the errno and the message of the handle the call was made on. -/
def Reports (L : Libalpm σ) (op : Op) (r : Except AlpmError Unit) (reply : AlpmReply) (lib : σ) :
    Prop :=
  ((∃ e, r = .error e) ↔ op.failed reply) ∧
    ∀ e, r = .error e → e = .fromErrno L (op.errno L reply lib)

/-- Positive codes of an update are no failures to the code, and a failed search reports an
error of its own, which is libalpm's if that happens to be the same. -/
def Op.Agrees (L : Libalpm σ) (reply : AlpmReply) (lib : σ) : Op → Prop
  | .updateDbs .. => reply.rc ≤ 0
  | .search owner _ _ => reply.rc = 0 ∨
      AlpmError.fromErrno L (L.errno owner.raw lib) = ⟨-1, "alpm_db_search failed"⟩
  | _ => True

theorem neg_iff_ne_zero {rc : Int32} : (rc < 0 ↔ rc ≠ 0) ↔ rc ≤ 0 := by
  have hne : rc ≠ 0 ↔ rc.toInt ≠ 0 := by
    rw [not_iff_not, ← Int32.toInt_inj]
    rfl
  rw [Int32.lt_iff_toInt_lt, Int32.le_iff_toInt_le, hne]
  simp only [Int32.toInt_zero]
  omega

theorem ite_error {P : Prop} [Decidable P] {x : AlpmError} :
    (∃ e, (if P then Except.error x else .ok ()) = Except.error (α := Unit) e) ↔ P := by
  split_ifs with h <;> simp [h]

theorem eq_of_ite_error {P : Prop} [Decidable P] {x e : AlpmError}
    (h : (if P then Except.error x else .ok ()) = Except.error (α := Unit) e) : e = x ∧ P := by
  split_ifs at h with hP
  exact ⟨(Except.error.inj h).symm, hP⟩

theorem verdict_reports (L : Libalpm σ) (op : Op) (reply : AlpmReply) (lib : σ) :
    Reports L op (op.verdict L reply lib) reply lib ↔ op.Agrees L reply lib := by
  cases op with
  | init | addCachedir | setLogfile | localDb | registerSyncdb =>
    exact iff_of_true ⟨ite_error, fun e he => (eq_of_ite_error he).1⟩ trivial
  | updateDbs h dbs force =>
    have herr := ite_error (P := reply.rc < 0) (x := .fromErrno L (L.errno h.raw lib))
    rw [Op.Agrees, ← neg_iff_ne_zero]
    constructor
    · intro hr
      exact herr.symm.trans hr.1
    · intro hiff
      exact ⟨herr.trans hiff, fun e he => (eq_of_ite_error he).1⟩
  | search owner db needles =>
    have herr := ite_error (P := reply.rc ≠ 0) (x := ⟨-1, "alpm_db_search failed"⟩)
    constructor
    · intro hr
      by_cases h0 : reply.rc = 0
      · exact Or.inl h0
      · exact Or.inr (hr.2 _ (if_pos h0)).symm
    · intro hagree
      refine ⟨herr, fun e he => ?_⟩
      obtain ⟨rfl, hne⟩ := eq_of_ite_error he
      exact (hagree.resolve_left hne).symm

/-- Once libalpm is called, what an operation returns is libalpm's own verdict exactly when
an update is not answered with a positive code and a failed search leaves just the error
the code makes up. -/
theorem reports_verdict_iff (L : Libalpm σ) (op : Op) (w w' : World σ) (r : Except AlpmError Unit)
    (ev : Event) (hrun : op.perform L w = some (r, w')) (hlog : w'.log = ev :: w.log) :
    Reports L op r ev.reply w'.lib ↔ op.Agrees L ev.reply w'.lib := by
  by_cases hacc : op.Accepted
  · rcases (Op.runs L w hacc).cases with hv | ⟨c, m, v, hans, hv⟩
    · rw [hv] at hrun
      cases hrun
    · obtain ⟨rfl, rfl⟩ := Prod.mk.inj (Option.some.inj (hv.symm.trans hrun))
      have hev := hans.log.symm.trans hlog
      obtain rfl := (List.cons.inj hev).1
      exact verdict_reports L op _ _
  · obtain ⟨e, he, -⟩ := Op.rejected L w hacc
    obtain ⟨-, rfl⟩ := Prod.mk.inj (Option.some.inj (he.symm.trans hrun))
    exact absurd hlog.symm (List.cons_ne_self _ _)

theorem reports_verdict_localDb :
    let r := Except.error (AlpmError.fromErrno (replying ⟨0, 0, 0⟩ 3) 3)
    Reports (replying ⟨0, 0, 0⟩ 3) (.localDb ⟨1⟩) r ⟨0, 0, 0⟩ () ↔
      (Op.localDb ⟨1⟩).Agrees (replying ⟨0, 0, 0⟩ 3) ⟨0, 0, 0⟩ () :=
  reports_verdict_iff (replying ⟨0, 0, 0⟩ 3) (.localDb ⟨1⟩) blank _ _
    ⟨.alpmGetLocaldb 1, blank.mem, ⟨0, 0, 0⟩, blank.mem⟩ rfl rfl

/-- An update answered with 1 succeeds, and a search that fails with errno 3 reports −1. -/
theorem verdict_misreported :
    (((Op.updateDbs ⟨1⟩ [] false).perform (replying ⟨0, 1, 0⟩ 3) blank).map Prod.fst =
        some (.ok ()) ∧
      ¬ Reports (replying ⟨0, 1, 0⟩ 3) (.updateDbs ⟨1⟩ [] false) (.ok ()) ⟨0, 1, 0⟩ ()) ∧
    ((Op.search ⟨1⟩ ⟨2⟩ []).perform (replying ⟨0, -1, 0⟩ 3) blank).map Prod.fst =
        some (.error ⟨-1, "alpm_db_search failed"⟩) ∧
      ¬ Reports (replying ⟨0, -1, 0⟩ 3) (.search ⟨1⟩ ⟨2⟩ [])
        (.error ⟨-1, "alpm_db_search failed"⟩) ⟨0, -1, 0⟩ () := by
  refine ⟨⟨rfl, fun h => ?_⟩, rfl, fun h => ?_⟩
  · obtain ⟨e, he⟩ := h.1.mpr (by simp [Op.failed])
    cases he
  · have herrno := congrArg AlpmError.errno (h.2 _ rfl)
    exact absurd herrno (by decide)

end Nyx.Alpm
