import Nyx.FileTree
import Nyx.Text

/-! `std::path::PathBuf` on Unix: a path as the bytes it is written with, how another path is
pushed onto it, and the components it is read as. -/
namespace Nyx.PathBuf
open FileTree Text

def sep : UInt8 := 0x2F

/-- `Path::is_absolute` -/
def isAbsolute (p : OsStr) : Bool := p.head? = some sep

/-- `PathBuf::push`: an absolute path replaces what was there. -/
def push (p q : OsStr) : OsStr :=
  if isAbsolute q then q
  else if p = [] ∨ p.getLast? = some sep then p ++ q
  else p ++ sep :: q

/-- What stands between two separators. -/
def pieces (p : OsStr) : List OsStr := p.splitOn sep

def component (x : OsStr) : Option (Component OsStr) :=
  if x = [] ∨ x = bytes "." then none
  else if x = bytes ".." then some .parentDir
  else some (.normal x)

/-- `Path::components`: a dot counts where it starts the path, and nowhere else. -/
def components (p : OsStr) : List (Component OsStr) :=
  (if (pieces p).head? = some (bytes ".") then [.curDir] else []) ++
    (pieces p).filterMap component

def parse (p : OsStr) : Path OsStr where
  rooted := isAbsolute p
  comps := (components p).reverse
  trailing := !(components p).isEmpty && (pieces p).tail.getLast?.any fun x => (component x).isNone

/-- Every piece is the name of an entry. -/
def Plain (q : OsStr) : Prop := ∀ x ∈ pieces q, component x = some (.normal x)

theorem component_eq_normal {x : OsStr} :
    component x = some (.normal x) ↔ x ≠ [] ∧ x ≠ bytes "." ∧ x ≠ bytes ".." := by
  unfold component
  split_ifs with h₁ h₂
  · simp only [false_iff]
    tauto
  · simp [h₂]
  · push Not at h₁
    simp [h₁, h₂]

theorem pieces_name {x : OsStr} (h : sep ∉ x) : pieces x = [x] := List.splitOn_eq_singleton h

theorem pieces_append (p q : OsStr) : pieces (p ++ sep :: q) = pieces p ++ pieces q :=
  List.splitOn_append_cons_self p q

theorem pieces_ne_nil (p : OsStr) : pieces p ≠ [] := List.splitOn_ne_nil _ _

theorem plain_name {x : OsStr} (hs : sep ∉ x) (hx : component x = some (.normal x)) : Plain x := by
  intro y hy
  rw [pieces_name hs, List.mem_singleton] at hy
  rwa [hy]

theorem Plain.relative {q : OsStr} (h : Plain q) : isAbsolute q = false := by
  rw [isAbsolute, decide_eq_false_iff_not]
  intro hq
  obtain ⟨r, rfl⟩ : ∃ r, q = [] ++ sep :: r := by
    cases q with
    | nil => cases hq
    | cons b r => exact ⟨r, by rw [List.nil_append, Option.some.inj hq]⟩
  have hempty := h [] (by rw [pieces_append]; exact List.mem_append_left _ (List.mem_singleton_self _))
  cases hempty

theorem isAbsolute_append {p : OsStr} (h : p ≠ []) (q : OsStr) :
    isAbsolute (p ++ q) = isAbsolute p := by
  rw [isAbsolute, isAbsolute, List.head?_append_of_ne_nil p h]

theorem isAbsolute_push (p q : OsStr) :
    isAbsolute (push p q) = (isAbsolute q || isAbsolute p) := by
  unfold push
  by_cases hq : isAbsolute q
  · rw [if_pos hq, hq, Bool.true_or]
  · rw [if_neg hq, Bool.eq_false_of_not_eq_true hq, Bool.false_or]
    by_cases hp : p = []
    · subst hp
      rw [if_pos (Or.inl rfl), List.nil_append, Bool.eq_false_of_not_eq_true hq]
      rfl
    · split_ifs
      · exact isAbsolute_append hp q
      · exact isAbsolute_append hp _

/-- Where a relative path is pushed, its pieces come after all that makes components. -/
theorem pieces_push (p : OsStr) {q : OsStr} (hq : isAbsolute q = false) :
    ∃ before, pieces (push p q) = before ++ pieces q ∧
      before.filterMap component = (pieces p).filterMap component ∧
      (before = [] ∧ p = [] ∨ before ≠ [] ∧ before.head? = (pieces p).head?) := by
  unfold push
  rw [if_neg (by simp [hq])]
  by_cases hp : p = []
  · subst hp
    exact ⟨[], by simp, rfl, Or.inl ⟨rfl, rfl⟩⟩
  · by_cases hl : p.getLast? = some sep
    · rw [if_pos (Or.inr hl)]
      obtain ⟨p, rfl⟩ : ∃ p', p = p' ++ [sep] := List.getLast?_eq_some_iff.mp hl
      refine ⟨pieces p, ?_, ?_, Or.inr ⟨pieces_ne_nil p, ?_⟩⟩
      · rw [List.append_assoc]
        exact pieces_append p q
      · rw [pieces_append p [], List.filterMap_append]
        exact (List.append_nil _).symm
      · rw [pieces_append p [], List.head?_append_of_ne_nil _ (pieces_ne_nil p)]
    · rw [if_neg (by tauto)]
      exact ⟨pieces p, pieces_append p q, rfl, Or.inr ⟨pieces_ne_nil p, rfl⟩⟩

theorem filterMap_plain {xs : List OsStr} (h : ∀ x ∈ xs, component x = some (.normal x)) :
    xs.filterMap component = xs.map .normal := by
  induction xs with
  | nil => rfl
  | cons x xs ih =>
    rw [List.filterMap_cons_some (h x List.mem_cons_self), List.map_cons,
      ih fun y hy => h y (List.mem_cons_of_mem _ hy)]

theorem Plain.head_ne_dot {q : OsStr} (h : Plain q) : (pieces q).head? ≠ some (bytes ".") := by
  intro hdot
  have hnone := h _ (List.mem_of_head? hdot)
  cases hnone

theorem components_push (p : OsStr) {q : OsStr} (hq : Plain q) :
    components (push p q) = components p ++ (pieces q).map .normal := by
  obtain ⟨before, hpush, hmap, hhead⟩ := pieces_push p hq.relative
  unfold components
  rw [hpush, List.filterMap_append, hmap, filterMap_plain hq, ← List.append_assoc]
  congr 2
  rcases hhead with ⟨rfl, rfl⟩ | ⟨hne, hhead⟩
  · rw [List.nil_append, if_neg hq.head_ne_dot, if_neg (by decide)]
  · rw [List.head?_append_of_ne_nil _ hne, hhead]

theorem foldl_join {xs : List OsStr} (hx : xs ≠ []) (p : Path OsStr) :
    xs.foldl Path.join p = ⟨p.rooted, (xs.map .normal).reverse ++ p.comps, false⟩ := by
  induction xs generalizing p with
  | nil => exact absurd rfl hx
  | cons x xs ih =>
    cases xs with
    | nil => rfl
    | cons y xs =>
      rw [List.foldl_cons, ih (List.cons_ne_nil y xs)]
      simp [Path.join]

/-- A plain path that is pushed adds its pieces to the path, one after the other. -/
theorem parse_push (p : OsStr) {q : OsStr} (hq : Plain q) :
    parse (push p q) = (pieces q).foldl Path.join (parse p) := by
  have hlast : ((pieces (push p q)).tail.getLast?.any fun x => (component x).isNone) = false := by
    obtain ⟨before, hpush, -, -⟩ := pieces_push p hq.relative
    obtain ⟨y, hy⟩ := Option.isSome_iff_exists.mp (List.getLast?_isSome.mpr (pieces_ne_nil q))
    have hplain := hq y (List.mem_of_getLast? hy)
    rw [hpush, List.getLast?_tail, List.getLast?_append, hy, Option.some_or]
    split_ifs
    · rfl
    · rw [Option.any_some, hplain]
      rfl
  rw [foldl_join (pieces_ne_nil q)]
  simp only [parse, isAbsolute_push, hq.relative, Bool.false_or, components_push p hq, hlast,
    Bool.and_false, List.reverse_append]

/-- An absolute path leads to one place from everywhere. -/
theorem loc_of_isAbsolute {p : OsStr} (h : isAbsolute p) (cwd cwd' : Loc OsStr) :
    (parse p).loc cwd = (parse p).loc cwd' := by
  have hrooted : (parse p).rooted = true := h
  simp only [Path.loc, Path.start, hrooted, if_true]

theorem parse_push_name (p : OsStr) {x : OsStr} (hs : sep ∉ x)
    (hx : component x = some (.normal x)) : parse (push p x) = (parse p).join x := by
  rw [parse_push p (plain_name hs hx), pieces_name hs]
  rfl

end Nyx.PathBuf
