import Nyx.LinkTree
import Nyx.Interaction

/-! A tree without links, seen as one that may hold them. The kernel that follows links
answers over it as the one that knows none. -/
namespace Nyx.FileTree
open Interaction

variable {N : Type}

def Node.item : Node → Item N
  | .dir => .dir
  | .file i => .file i

theorem Node.item_file {n : Node} {i : ℕ} (h : (n.item : Item N) = .file i) : n = .file i := by
  cases n with
  | dir => cases h
  | file j => rw [Item.file.inj h]

def Volume.plain (t : Volume N) : LinkTree N where
  item l := (t.entry l).map Node.item
  data := t.data
  next := t.next
  fresh := fun {l i} h => by
    obtain ⟨n, hn, hi⟩ := Option.map_eq_some_iff.mp h
    exact t.fresh (hn.trans (congrArg some (Node.item_file hi)))

namespace LinkTree
variable (t : Volume N)

theorem plain_item (l : Loc N) : t.plain.item l = (t.entry l).map Node.item := rfl

theorem plain_link (l : Loc N) (p : Path N) : t.plain.item l ≠ some (.link p) := by
  rw [plain_item]
  cases t.entry l with
  | none => simp
  | some n => cases n <;> simp [Node.item]

theorem plain_dir {t : Volume N} {l : Loc N} :
    t.plain.item l = some .dir ↔ t.entry l = some .dir := by
  rw [plain_item]
  cases t.entry l with
  | none => simp
  | some n => cases n <;> simp [Node.item]

theorem plain_file {t : Volume N} {l : Loc N} {i : ℕ} :
    t.plain.item l = some (.file i) ↔ t.entry l = some (.file i) := by
  rw [plain_item]
  cases t.entry l with
  | none => simp
  | some n => cases n <;> simp [Node.item]

/-- Why a walk cannot end at a place or go on from it. -/
theorem barred_plain (l : Loc N) : t.plain.barred l =
    match t.entry l with
    | some .dir => none
    | some (.file _) => some .notADirectory
    | none => some .notFound := by
  rw [barred, plain_item]
  cases t.entry l with
  | none => rfl
  | some n => cases n <;> rfl

theorem resolve_cons_plain (n : ℕ) (l : Loc N) (c : Component N) (rest : List (Component N)) :
    t.plain.resolve n l (c :: rest) =
      match t.plain.barred l with
      | some e => .error e
      | none => t.plain.resolve n (Path.stepTo l c) rest := by
  rw [resolve_cons]
  cases t.plain.barred l with
  | some e => rfl
  | none =>
    dsimp only
    split
    · exact absurd ‹_› (plain_link t _ _)
    · rfl

/-- The last component is looked up in the directory the others lead to. -/
theorem resolve_concat_plain (n : ℕ) (l : Loc N) (cs : List (Component N)) (c : Component N) :
    t.plain.resolve n l (cs ++ [c]) =
      (t.plain.settle (t.plain.resolve n l cs)).map fun m => Path.stepTo m c := by
  induction cs generalizing l with
  | nil =>
    rw [List.nil_append, resolve_cons_plain, resolve_nil (l := l), settle]
    cases t.plain.barred l with
    | some e => rfl
    | none => exact resolve_nil
  | cons b cs ih =>
    rw [List.cons_append, resolve_cons_plain, resolve_cons_plain]
    cases t.plain.barred l with
    | some e => rfl
    | none => exact ih _

theorem settle_ok_plain (l : Loc N) : t.plain.settle (.ok l) =
    match t.entry l with
    | some .dir => .ok l
    | some (.file _) => .error .notADirectory
    | none => .error .notFound := by
  rw [settle, barred_plain]
  cases t.entry l with
  | none => rfl
  | some n => cases n <;> rfl

/-- From a directory, the outside-in walk gets as far as the inside-out one says. -/
theorem settle_plain {base : Loc N} (hbase : t.entry base = some .dir) (n : ℕ)
    (comps : List (Component N)) : t.plain.settle (t.plain.resolve n base comps.reverse) =
      match t.walk base comps with
      | some e => .error e
      | none => .ok (Path.locate base comps) := by
  induction comps with
  | nil => simp [settle_ok_plain, Image.walk, hbase, Path.locate]
  | cons c up ih =>
    rw [List.reverse_cons, resolve_concat_plain, ih, Image.walk]
    cases t.walk base up with
    | some e => rfl
    | none =>
      dsimp only [Except.map]
      rw [settle_ok_plain, Path.locate_cons]
      cases t.entry (Path.stepTo (Path.locate base up) c) with
      | none => rfl
      | some v => cases v <;> rfl

theorem walk_of_base {base : Loc N} (hbase : t.entry base ≠ some .dir)
    (comps : List (Component N)) : t.walk base comps = some .notFound := by
  induction comps with
  | nil => rw [Image.walk, if_neg hbase]
  | cons c up ih => rw [Image.walk, ih]

section Paths
variable [DecidableEq N] (cwd : Loc N) (p : Path N)

theorem settle_lead_plain (comps : List (Component N)) :
    t.plain.settle (t.plain.lead cwd p comps.reverse) =
      match if p.isEmpty then some .notFound else t.walk (p.start cwd) comps with
      | some e => .error e
      | none => .ok (Path.locate (p.start cwd) comps) := by
  unfold lead
  by_cases hempty : p.isEmpty
  · simp [hempty, settle]
  · by_cases hbase : t.entry (p.start cwd) = some .dir
    · rw [if_neg (by simp [hempty, plain_dir, hbase]), if_neg hempty, settle_plain t hbase]
    · rw [if_pos (Or.inr (plain_dir.not.mpr hbase)), if_neg hempty, walk_of_base t hbase, settle]

theorem enter_plain : t.plain.enter cwd p =
    match t.enter cwd p with
    | some e => .error e
    | none => .ok (Path.locate (p.start cwd) p.comps.tail) :=
  settle_lead_plain t cwd p p.comps.tail

theorem place_plain : t.plain.place cwd p =
    match t.enter cwd p with
    | some e => .error e
    | none => .ok (p.loc cwd) := by
  rw [place, enter_plain, Path.loc]
  cases hc : p.comps with
  | nil => rfl
  | cons c up =>
    dsimp only [List.tail_cons]
    rw [Path.locate_cons]
    cases t.enter cwd p <;> rfl

theorem reach_plain : t.plain.reach cwd p =
    match t.enter cwd p with
    | some e => .error e
    | none => .ok (p.loc cwd) := by
  cases hc : p.comps with
  | nil =>
    unfold reach lead Image.enter Path.loc
    rw [hc, List.tail_nil, List.reverse_nil, resolve_nil, Image.walk, Path.locate]
    by_cases hempty : p.isEmpty
    · simp [hempty]
    · by_cases hbase : t.entry (p.start cwd) = some .dir <;> simp [hempty, plain_dir, hbase]
  | cons c up =>
    have hup := settle_lead_plain t cwd p up
    rw [reach, hc, List.reverse_cons, Path.loc, hc, Path.locate_cons, Image.enter, hc,
      List.tail_cons]
    unfold lead at hup ⊢
    split_ifs at hup ⊢ with h1 h2 h2
    · rfl
    · rw [settle] at hup
      cases hw : t.walk (p.start cwd) up with
      | none =>
        rw [hw] at hup
        cases hup
      | some e =>
        rw [hw] at hup
        exact hup
    · exact absurd (Or.inl h2) h1
    · rw [resolve_concat_plain, hup]
      cases t.walk (p.start cwd) up <;> rfl

end Paths

section Respond
variable [DecidableEq N] (cwd : Loc N)

theorem plan_plain (n : ℕ) (r : Request N) : t.plain.plan cwd n r = t.plan cwd n r := by
  cases r with
  | mkdir p =>
    simp only [plan, Volume.plan, place_plain, plain_item]
    cases t.enter cwd p with
    | some e => rfl
    | none =>
      dsimp only
      cases p.fileName <;> cases t.entry (p.loc cwd) <;> rfl
  | isDir p =>
    simp only [plan, Volume.plan]
    rw [reach, settle_lead_plain]
    by_cases hempty : p.isEmpty
    · simp [hempty]
    · simp only [hempty, Bool.false_eq_true, if_false]
      cases t.walk (p.start cwd) p.comps <;> rfl
  | create p =>
    simp only [plan, Volume.plan, reach_plain, plain_item]
    cases t.enter cwd p with
    | some e => rfl
    | none =>
      dsimp only
      cases p.fileName with
      | none => rfl
      | some x =>
        cases t.entry (p.loc cwd) with
        | none => rfl
        | some v => cases v <;> rfl
  | write i off buf => rfl
  | flush i => rfl
  | fsync h => cases h <;> rfl
  | rename a b =>
    simp only [plan, Volume.plan, place_plain, plain_item]
    cases t.enter cwd a with
    | some e => rfl
    | none =>
      cases t.enter cwd b with
      | some e => rfl
      | none =>
        dsimp only
        cases ha : t.entry (a.loc cwd) with
        | none => rfl
        | some v =>
          cases v with
          | dir => rfl
          | file i =>
            have hdir : (t.entry (b.loc cwd)).map (Node.item (N := N)) = some .dir ↔
                t.entry (b.loc cwd) = some .dir := plain_dir
            have hfile : a.loc cwd = b.loc cwd ∨ (Item.file i : Item N).isFile ∧
                (t.entry (b.loc cwd)).map (Node.item (N := N)) = some (.file i) ↔
                  t.entry (b.loc cwd) = some (.file i) := by
              constructor
              · rintro (hsame | ⟨-, hb⟩)
                · rw [← hsame, ha]
                · exact plain_file.mp hb
              · exact fun hb => Or.inr ⟨rfl, plain_file.mpr hb⟩
            dsimp only [Option.map_some, Node.item]
            simp only [hdir, hfile]
  | openFile p =>
    simp only [plan, Volume.plan, reach_plain, plain_item]
    cases t.enter cwd p with
    | some e => rfl
    | none =>
      dsimp only
      cases t.entry (p.loc cwd) with
      | none => rfl
      | some v => cases v <;> rfl

theorem outcome_plain (ch : Choice) (r : Request N) :
    t.plain.outcome cwd ch r = t.outcome cwd ch r := by
  cases ch with
  | fail e => rfl
  | go n => exact plan_plain t cwd n r

theorem apply_plain (δ : Change N) : t.plain.apply δ = (t.apply δ).plain := by
  have hupdate : ∀ (e : Loc N → Option Node) l v, Function.update
      (fun k => (e k).map Node.item) l (v.map Node.item) =
        fun k => (Function.update e l v k).map (Node.item (N := N)) :=
    fun e l v => (Function.comp_update (Option.map Node.item) e l v).symm
  cases δ with
  | none | syncFile | syncDir | write => rfl
  | mkdir l =>
    simp only [apply, Volume.apply, Volume.plain, mk.injEq, and_true]
    exact hupdate t.entry l (some .dir)
  | create l =>
    simp only [apply, Volume.apply, Volume.plain, mk.injEq, and_true]
    exact hupdate t.entry l (some (.file t.next))
  | rename a b =>
    simp only [apply, Volume.apply, Volume.plain, mk.injEq, and_true, hupdate]
    exact hupdate _ a none

/-- Over a tree without links the two kernels answer alike, and leave the same tree. -/
theorem respond_plain (ch : Choice) (r : Request N) :
    respond cwd ch r t.plain = ((t.respond cwd ch r).1, (t.respond cwd ch r).2.plain) := by
  rw [respond, outcome_plain, apply_plain]
  rfl

end Respond

end LinkTree

end Nyx.FileTree
