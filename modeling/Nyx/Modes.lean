import Nyx.FileTree

/-! Directories with permissions: what one is made with, and how it goes down a chain of
directories made one in the other. -/
namespace Nyx.FileTree

/-- The special bits of a directory, and what user, group and others may do. -/
structure Mode where
  setuid : Bool
  setgid : Bool
  sticky : Bool
  perm : BitVec 9
  deriving DecidableEq, Repr

/-- The mode of a directory asked for with 0777: the umask takes bits away, and the group bit
is that of the directory it is made in. -/
def Mode.inherited (umask : BitVec 9) (parent : Mode) : Mode :=
  ⟨false, parent.setgid, false, 0o777#9 &&& ~~~umask⟩

theorem Mode.inherited_inherited (umask : BitVec 9) (m : Mode) :
    (m.inherited umask).inherited umask = m.inherited umask := rfl

theorem Mode.inherited_eq {umask : BitVec 9} {m : Mode} {perm : BitVec 9} :
    m.inherited umask = ⟨false, false, false, perm⟩ ↔ umask = ~~~perm ∧ m.setgid = false := by
  have hall : 0o777#9 = BitVec.allOnes 9 := rfl
  simp only [inherited, Mode.mk.injEq, true_and, hall, BitVec.allOnes_and]
  rw [BitVec.not_eq_comm, and_comm]

/-- The innermost place at or above this one that has an entry. -/
def Image.nearest {N : Type} (t : Image N) : Loc N → Loc N
  | [] => []
  | x :: l => if t.entry (x :: l) = none then t.nearest l else x :: l

/-- A tree with the mode of every directory. -/
structure Moded (N : Type) where
  tree : Volume N
  mode : Loc N → Mode

namespace Moded
variable {N : Type} [DecidableEq N]

def apply (umask : BitVec 9) (w : Moded N) (δ : Change N) : Moded N :=
  ⟨w.tree.apply δ,
    match δ with
    | .mkdir l => Function.update w.mode l ((w.mode l.tail).inherited umask)
    | _ => w.mode⟩

def respond (cwd : Loc N) (umask : BitVec 9) (ch : Choice) (r : Request N) (w : Moded N) :
    Reply N × Moded N :=
  ((w.tree.outcome cwd ch r).1, w.apply umask (w.tree.outcome cwd ch r).2)

/-- A tree with modes replies as the tree alone does. -/
theorem respond_tree (cwd : Loc N) (umask : BitVec 9) (ch : Choice) (r : Request N) (w : Moded N) :
    Volume.respond cwd ch r w.tree =
      ((w.respond cwd umask ch r).1, (w.respond cwd umask ch r).2.tree) := rfl

/-- What was there keeps its mode; what is new has the one that comes down to it from the
innermost directory that was there. -/
def Inherits (umask : BitVec 9) (t w : Moded N) : Prop :=
  ∀ l, w.tree.entry l ≠ none → w.mode l =
    if t.tree.entry l = none then (t.mode (t.tree.nearest l)).inherited umask else t.mode l

omit [DecidableEq N] in
theorem inherits_refl (umask : BitVec 9) (t : Moded N) : Inherits umask t t := by
  intro l hl
  rw [if_neg hl]

theorem Inherits.mkdir {umask : BitVec 9} {t w : Moded N} (h : Inherits umask t w) {x : N}
    {l : Loc N} (hl : w.tree.entry l ≠ none) (hx : t.tree.entry (x :: l) = none) :
    Inherits umask t (w.apply umask (.mkdir (x :: l))) := by
  intro k hk
  by_cases hkl : k = x :: l
  · subst hkl
    have hmode : (w.apply umask (.mkdir (x :: l))).mode (x :: l) =
        (w.mode l).inherited umask := Function.update_self _ _ _
    rw [hmode, if_pos hx, Image.nearest, if_pos hx, h l hl]
    split_ifs with hbefore
    · exact Mode.inherited_inherited _ _
    · cases l with
      | nil => rfl
      | cons y l => rw [Image.nearest, if_neg hbefore]
  · have hmode : (w.apply umask (.mkdir (x :: l))).mode k = w.mode k :=
      Function.update_of_ne hkl _ _
    have hentry : (w.apply umask (.mkdir (x :: l))).tree.entry k = w.tree.entry k :=
      Function.update_of_ne hkl _ _
    rw [hentry] at hk
    rw [hmode, h k hk]

end Moded

end Nyx.FileTree
