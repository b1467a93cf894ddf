import Mathlib.Data.List.TakeWhile
import Nyx.AlpmStrings
import Nyx.PkgLists

/-! Dependency specs: how Nyx renders an entry, how libalpm does, and how a spec is read
back into the constraint it asks for. -/
namespace Nyx.Alpm
open Linked Memory Text

def DepMod.asStr : DepMod → String
  | .any => ""
  | .eq => "="
  | .ge => ">="
  | .le => "<="
  | .gt => ">"
  | .lt => "<"

namespace Dependency

def toDisplayString (d : Dependency) : String :=
  match d.version, d.modifier with
  | some v, m => if m ≠ .any then d.name ++ m.asStr ++ v else d.name
  | none, _ => d.name

/-- `alpm_dep_compute_string`, the rendering `to_display_string` is documented to be. -/
def alpmDepComputeString (d : Dependency) : String :=
  d.name ++ d.modifier.asStr ++
    (if d.modifier ≠ .any then d.version.getD "" else "") ++
    (match d.desc with
      | none => ""
      | some desc => ": " ++ desc)

/-- What an entry asks of a version, if it asks anything. -/
def constraint (d : Dependency) : Option (DepMod × String) :=
  match d.version with
  | none => none
  | some v => if d.modifier = .any then none else some (d.modifier, v)

theorem toDisplayString_eq (d : Dependency) :
    d.toDisplayString = d.name ++
      match d.constraint with
      | none => ""
      | some (m, v) => m.asStr ++ v := by
  obtain ⟨name, version, desc, modifier⟩ := d
  cases version with
  | none => simp [toDisplayString, constraint]
  | some v =>
    by_cases hm : modifier = .any
    · simp [toDisplayString, constraint, hm]
    · simp [toDisplayString, constraint, hm, String.append_assoc]

end Dependency

theorem asStr_eq_empty {m : DepMod} : m.asStr = "" ↔ m = .any := by
  cases m <;> decide

theorem eq_append_self {s t : String} : s = s ++ t ↔ t = "" := by
  rw [← String.toList_inj, String.toList_append]
  simp

theorem eq_append_desc {s : String} {desc : Option String} :
    s = s ++ (match desc with | none => "" | some e => ": " ++ e) ↔ desc = none := by
  rw [eq_append_self]
  cases desc with
  | none => simp
  | some e => simp

/-- Nyx renders an entry as libalpm does exactly when it has no description, and no
modifier without a version. -/
theorem display_eq_computed_iff (d : Dependency) :
    d.toDisplayString = d.alpmDepComputeString ↔
      d.desc = none ∧ (d.modifier = .any ∨ d.version.isSome) := by
  obtain ⟨name, version, desc, modifier⟩ := d
  simp only [Dependency.toDisplayString, Dependency.alpmDepComputeString]
  by_cases hm : modifier = .any
  · subst hm
    cases version <;> simpa [DepMod.asStr] using eq_append_desc
  · cases version with
    | none =>
      have hop : modifier.asStr ≠ "" := fun h => hm (asStr_eq_empty.mp h)
      simp [hm, hop, String.append_assoc, eq_append_self]
    | some v => simpa [hm] using eq_append_desc

/-- The getters of a library whose packages all have one optional dependency. -/
def suggesting (optdepends : Ptr) : PkgGetters Unit :=
  { PkgGetters.empty Unit with optdepends := fun _ _ _ => optdepends }

/-- An optional dependency in memory, as its package describes it: `python: for scripts`. -/
def suggestion : Mem :=
  (blank.mem.allocAll [.chars (bytes "python" ++ [0]), .chars (bytes "for scripts" ++ [0]),
    .depend 1 0 2 .any, .node 3 0 0]).2

theorem description_not_displayed :
    Package.optdepends (suggesting 4) () suggestion ⟨5⟩ =
        some [⟨"python", none, some "for scripts", .any⟩] ∧
      (⟨"python", none, some "for scripts", .any⟩ : Dependency).toDisplayString = "python" ∧
      (⟨"python", none, some "for scripts", .any⟩ : Dependency).alpmDepComputeString =
        "python: for scripts" ∧
      ¬ ∀ d : Dependency, d.toDisplayString = d.alpmDepComputeString := by
  refine ⟨by decide +kernel, by decide +kernel, by decide +kernel, fun h => ?_⟩
  have hd := h ⟨"python", none, some "for scripts", .any⟩
  revert hd
  decide +kernel

def isOperator (c : Char) : Bool := c = '<' || c = '>' || c = '='

/-- The longest operator at the front, and what follows it. -/
def takeOperator : List Char → DepMod × List Char
  | '>' :: '=' :: cs => (.ge, cs)
  | '<' :: '=' :: cs => (.le, cs)
  | '=' :: cs => (.eq, cs)
  | '>' :: cs => (.gt, cs)
  | '<' :: cs => (.lt, cs)
  | cs => (.any, cs)

/-- A spec split at its first operator character. -/
def splitSpec (s : String) : String × Option (DepMod × String) :=
  let rest := s.toList.dropWhile (!isOperator ·)
  (String.ofList (s.toList.takeWhile (!isOperator ·)),
    if rest = [] then none
    else some ((takeOperator rest).1, String.ofList (takeOperator rest).2))

/-- No operator character in the name, and no version that would lengthen its operator. -/
structure Dependency.Splittable (d : Dependency) : Prop where
  name : ∀ c ∈ d.name.toList, isOperator c = false
  version : ∀ v, d.version = some v → v.toList.head? ≠ some '='

theorem takeOperator_single {c : Char} (hc : c = '>' ∨ c = '<') {cs : List Char}
    (h : cs.head? ≠ some '=') : takeOperator (c :: cs) = (if c = '>' then .gt else .lt, cs) := by
  cases cs with
  | nil => rcases hc with rfl | rfl <;> rfl
  | cons e cs =>
    have he : e ≠ '=' := fun he => h (congrArg some he)
    rcases hc with rfl | rfl <;> simp [takeOperator, he]

/-- The operator written is the operator read back. -/
theorem takeOperator_asStr {m : DepMod} (hm : m ≠ .any) {cs : List Char}
    (h : cs.head? ≠ some '=') : takeOperator (m.asStr.toList ++ cs) = (m, cs) := by
  cases m with
  | any => exact absurd rfl hm
  | eq | ge | le => rfl
  | gt => exact takeOperator_single (Or.inl rfl) h
  | lt => exact takeOperator_single (Or.inr rfl) h

theorem asStr_head {m : DepMod} (hm : m ≠ .any) :
    ∃ c cs, m.asStr.toList = c :: cs ∧ isOperator c = true := by
  cases m with
  | any => exact absurd rfl hm
  | eq => exact ⟨'=', [], rfl, rfl⟩
  | ge => exact ⟨'>', ['='], rfl, rfl⟩
  | le => exact ⟨'<', ['='], rfl, rfl⟩
  | gt => exact ⟨'>', [], rfl, rfl⟩
  | lt => exact ⟨'<', [], rfl, rfl⟩

/-- Splitting a rendered entry gives back its name and what it asks. -/
theorem splitSpec_display {d : Dependency} (hd : d.Splittable) :
    splitSpec d.toDisplayString = (d.name, d.constraint) := by
  have hname : ∀ c ∈ d.name.toList, (!isOperator c) = true := fun c hc => by
    rw [hd.name c hc, Bool.not_false]
  rw [Dependency.toDisplayString_eq]
  cases hk : d.constraint with
  | none =>
    have htake := List.takeWhile_eq_self_iff.mpr hname
    have hdrop := List.dropWhile_eq_nil_iff.mpr hname
    simp [splitSpec, htake, hdrop]
  | some mv =>
    obtain ⟨m, v⟩ := mv
    unfold Dependency.constraint at hk
    split at hk
    · cases hk
    · rename_i v' hv
      split_ifs at hk with hm
      obtain ⟨rfl, rfl⟩ := Prod.mk.inj (Option.some.inj hk)
      obtain ⟨c, cs, hop, hc⟩ := asStr_head hm
      have htake : (d.name.toList ++ (d.modifier.asStr.toList ++ v'.toList)).takeWhile
          (!isOperator ·) = d.name.toList := by
        rw [List.takeWhile_append_of_pos hname, hop]
        simp [hc]
      have hdrop : (d.name.toList ++ (d.modifier.asStr.toList ++ v'.toList)).dropWhile
          (!isOperator ·) = d.modifier.asStr.toList ++ v'.toList := by
        rw [List.dropWhile_append_of_pos hname, hop]
        simp [hc]
      have hne : d.modifier.asStr.toList ++ v'.toList ≠ [] := by simp [hop]
      simp only [splitSpec, String.toList_append, htake, hdrop, if_neg hne,
        takeOperator_asStr hm (hd.version v' hv), String.ofList_toList]

/-- A rendered entry can be split in one way only, so entries that render alike ask the same
of the same name; and libalpm is asked just that when the entry is looked up, unless there
is a NUL in it and nothing is asked. -/
theorem specs_unambiguous {σ : Type} (L : Libalpm σ) (w : World σ) :
    (∀ d : Dependency, d.Splittable → splitSpec d.toDisplayString = (d.name, d.constraint)) ∧
    (∀ d e : Dependency, d.Splittable → e.Splittable → d.toDisplayString = e.toDisplayString →
      d.name = e.name ∧ d.constraint = e.constraint) ∧
    ∀ (h : Handle) (dbs : List Db) (d : Dependency), d.Splittable →
      (¬ NameOk d.toDisplayString → ∃ w', h.findDbsSatisfier L dbs d.toDisplayString w =
        some (none, w') ∧ w'.lib = w.lib ∧ w'.log = w.log) ∧
      (NameOk d.toDisplayString → ∃ c m w' p q spec, Answered L w w' c m ∧
        c = .alpmFindDbsSatisfier h.raw q p ∧ FindsAll m q (dbs.map Db.raw) ∧ Finds m p spec ∧
        splitSpec spec = (d.name, d.constraint) ∧
        (h.findDbsSatisfier L dbs d.toDisplayString w).map Prod.snd = some w') := by
  refine ⟨fun d hd => splitSpec_display hd, fun d e hd he heq => ?_, fun h dbs d hd => ⟨?_, ?_⟩⟩
  · have hde : (d.name, d.constraint) = (e.name, e.constraint) := by
      rw [← splitSpec_display hd, ← splitSpec_display he, heq]
    exact Prod.mk.inj hde
  · exact findDbsSatisfier_rejected L w h dbs
  · intro hn
    obtain ⟨c, m, w', p, q, ha, hc, hall, hfind, hrun⟩ := findDbsSatisfier_delivers L w h dbs hn
    exact ⟨c, m, w', p, q, d.toDisplayString, ha, hc, hall, hfind, splitSpec_display hd, hrun⟩

/-- A versioned entry, with and without a description. -/
def foo (desc : Option String) : Dependency := ⟨"foo", some "1.2", desc, .ge⟩

theorem plain_name {s : String} (h : (s.toList.all (!isOperator ·)) = true) :
    ∀ c ∈ s.toList, isOperator c = false := by
  intro c hc
  simpa using List.all_eq_true.mp h c hc

theorem foo_splittable (desc : Option String) : (foo desc).Splittable := by
  have hname : ("foo".toList.all (!isOperator ·)) = true := by decide +kernel
  refine ⟨plain_name hname, fun v hv => ?_⟩
  obtain rfl : "1.2" = v := Option.some.inj hv
  decide +kernel

theorem specs_unambiguous_foo :
    splitSpec (foo none).toDisplayString = ("foo", some (.ge, "1.2")) ∧
      ((foo none).name = (foo (some "bar")).name ∧
        (foo none).constraint = (foo (some "bar")).constraint) ∧
      (∃ w', Handle.findDbsSatisfier (replying ⟨0, 0, 0⟩ 0) ⟨1⟩ []
        { foo none with name := "f\x00o" }.toDisplayString blank = some (none, w') ∧
          w'.lib = blank.lib ∧ w'.log = blank.log) ∧
      ∃ c m w' p q spec, Answered (replying ⟨0, 0, 0⟩ 0) blank w' c m ∧
        c = .alpmFindDbsSatisfier 1 q p ∧ FindsAll m q [] ∧ Finds m p spec ∧
        splitSpec spec = ("foo", some (.ge, "1.2")) ∧
        (Handle.findDbsSatisfier (replying ⟨0, 0, 0⟩ 0) ⟨1⟩ [] (foo none).toDisplayString
          blank).map Prod.snd = some w' := by
  obtain ⟨hsplit, heq, hask⟩ := specs_unambiguous (replying ⟨0, 0, 0⟩ 0) blank
  have hnul : ({ foo none with name := "f\x00o" } : Dependency).Splittable :=
    ⟨plain_name (by decide +kernel), (foo_splittable none).version⟩
  refine ⟨hsplit _ (foo_splittable none),
    heq _ _ (foo_splittable none) (foo_splittable (some "bar")) (by decide +kernel),
    (hask ⟨1⟩ [] _ hnul).1 ?_, (hask ⟨1⟩ [] _ (foo_splittable none)).2 ?_⟩
  · unfold NameOk
    decide +kernel
  · unfold NameOk
    decide +kernel

end Nyx.Alpm
