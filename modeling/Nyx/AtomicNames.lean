import Nyx.AtomicPool
import Nyx.PathBuf

/-! The names of temporary files: a name reads back from its right end, whatever the file name
in it looks like. -/
namespace Nyx.Atomic
open FileTree Interaction Text PathBuf

def dot : UInt8 := 0x2E

/-- A byte below the digits is none of them; a dot is one, and so is a separator. -/
theorem not_mem_decimal {b : UInt8} (hb : b < 0x30) (n : ℕ) : b ∉ decimal n := by
  intro h
  exact absurd (decimal_digit h).1 (UInt8.not_le.mpr hb)

theorem tmpName_eq (f : OsStr) (pid : UInt32) (nanos : ℕ) :
    tmpName f pid nanos =
      ((dot :: f ++ dot :: decimal pid.toNat) ++ dot :: decimal nanos) ++ bytes ".tmp" := by
  have hdot : bytes "." = [dot] := by decide +kernel
  simp [tmpName, hdot]

/-- A list is cut in one way at the last place where a given element stands. -/
theorem last_cut {α : Type} {s : α} {a b x y : List α} (hx : s ∉ x) (hy : s ∉ y)
    (h : a ++ s :: x = b ++ s :: y) : a = b ∧ x = y := by
  rcases List.append_eq_append_iff.mp h with ⟨c, rfl, hc⟩ | ⟨c, rfl, hc⟩
  · cases c with
    | nil => exact ⟨(List.append_nil a).symm, (List.cons.inj hc).2⟩
    | cons d c =>
      rw [(List.cons.inj hc).2] at hx
      exact absurd (List.mem_append_right c List.mem_cons_self) hx
  · cases c with
    | nil => exact ⟨List.append_nil b, (List.cons.inj hc).2.symm⟩
    | cons d c =>
      rw [(List.cons.inj hc).2] at hy
      exact absurd (List.mem_append_right c List.mem_cons_self) hy

theorem tmpName_injective {f₁ f₂ : OsStr} {p₁ p₂ : UInt32} {n₁ n₂ : ℕ}
    (h : tmpName f₁ p₁ n₁ = tmpName f₂ p₂ n₂) : f₁ = f₂ ∧ p₁ = p₂ ∧ n₁ = n₂ := by
  rw [tmpName_eq, tmpName_eq] at h
  have hdot : ∀ n, dot ∉ decimal n := not_mem_decimal (by decide)
  obtain ⟨hfront, hn⟩ := last_cut (hdot n₁) (hdot n₂) (List.append_cancel_right h)
  obtain ⟨hf, hp⟩ := last_cut (hdot _) (hdot _) hfront
  exact ⟨(List.cons.inj hf).2, UInt32.toNat_inj.mp (decimal_injective hp), decimal_injective hn⟩

theorem tmpName_width (f : OsStr) (pid : UInt32) (nanos : ℕ) :
    (tmpName f pid nanos).length =
      f.length + (decimal pid.toNat).length + (decimal nanos).length + 7 := by
  have htmp : (bytes ".tmp").length = 4 := by decide +kernel
  simp only [tmpName_eq, List.length_append, List.length_cons, htmp]
  omega

theorem tmpName_plain (f : OsStr) (pid : UInt32) (nanos : ℕ) :
    component (tmpName f pid nanos) = some (.normal (tmpName f pid nanos)) := by
  have hwidth := tmpName_width f pid nanos
  have hshort : ∀ x : OsStr, x.length < 7 → tmpName f pid nanos ≠ x := by
    rintro x hx rfl
    omega
  exact component_eq_normal.mpr ⟨hshort _ (by decide), hshort _ (by decide), hshort _ (by decide)⟩

theorem tmpName_no_sep {f : OsStr} (h : sep ∉ f) (pid : UInt32) (nanos : ℕ) :
    sep ∉ tmpName f pid nanos := by
  have hdot : sep ≠ dot := by decide
  have htmp : sep ∉ bytes ".tmp" := by decide +kernel
  have hdigit : ∀ n, sep ∉ decimal n := not_mem_decimal (by decide)
  simp [tmpName_eq, h, hdot, htmp, hdigit]

/-- Where the temporary file lies, as the path is written and as the call has it. -/
theorem parse_tmpName (dir : OsStr) {f : OsStr} (h : sep ∉ f) (pid : UInt32) (nanos : ℕ) :
    parse (push dir (tmpName f pid nanos)) = (parse dir).join (tmpName f pid nanos) :=
  parse_push_name dir (tmpName_no_sep h pid nanos) (tmpName_plain f pid nanos)

theorem Call.tmp_eq_of_fileName {c : Call} {f : OsStr} (h : c.fileName = some f) :
    c.tmp = tmpName f c.pid c.nanos :: c.target.tail := by
  rw [Call.tmp_eq, Call.target_eq h, h]
  rfl

theorem tmp_ne_of_target_ne {c₁ c₂ : Call} (h₁ : c₁.fileName.isSome) (h₂ : c₂.fileName.isSome)
    (h : c₁.target ≠ c₂.target) : c₁.tmp ≠ c₂.tmp := by
  obtain ⟨f₁, hf₁⟩ := Option.isSome_iff_exists.mp h₁
  obtain ⟨f₂, hf₂⟩ := Option.isSome_iff_exists.mp h₂
  intro he
  rw [Call.tmp_eq, Call.tmp_eq, hf₁, hf₂] at he
  obtain ⟨hname, hdir⟩ := List.cons.inj he
  have hf : f₁ = f₂ := (tmpName_injective hname).1
  exact h (by rw [Call.target_eq hf₁, Call.target_eq hf₂, hf, hdir])

/-- A temporary name says which file, process and time it was made for; it is never the file's
own name and names an entry of the file's directory. Writers to different files, in one
directory or not, have different temporary files. -/
theorem tmpName_unambiguous :
    (∀ f₁ f₂ p₁ p₂ n₁ n₂, tmpName f₁ p₁ n₁ = tmpName f₂ p₂ n₂ → f₁ = f₂ ∧ p₁ = p₂ ∧ n₁ = n₂) ∧
    (∀ f p n, tmpName f p n ≠ f ∧ tmpName f p n ≠ bytes "." ∧ tmpName f p n ≠ bytes "..") ∧
    (∀ f p n dir, sep ∉ f →
      parse (push dir (tmpName f p n)) = (parse dir).join (tmpName f p n)) ∧
    (∀ (c : Call) f, c.fileName = some f →
      c.tmp = tmpName f c.pid c.nanos :: c.target.tail ∧ c.tmp ≠ c.target) ∧
    ∀ c₁ c₂ : Call, c₁.fileName.isSome → c₂.fileName.isSome → c₁.target ≠ c₂.target →
      c₁.tmp ≠ c₂.tmp := by
  refine ⟨fun _ _ _ _ _ _ => tmpName_injective, fun f p n => ?_,
    fun f p n dir h => parse_tmpName dir h p n, fun c f h => ?_, fun c₁ c₂ => tmp_ne_of_target_ne⟩
  · have hwidth := tmpName_length f p n
    have hplain := component_eq_normal.mp (tmpName_plain f p n)
    exact ⟨fun h => hwidth.ne (congrArg List.length h).symm, hplain.2⟩
  · exact ⟨Call.tmp_eq_of_fileName h, Call.tmp_ne_target (by simp [h])⟩

/-- A file name that looks like a temporary name itself. -/
example : tmpName (tmpName (bytes "a") 1 2) 3 4 = bytes "..a.1.2.tmp.3.4.tmp" := by decide +kernel

/-- Over a tree without hard links, writers to different files never get in each other's way. -/
theorem allClear_of_targets {ι : Type} [DecidableEq ι] {calls : ι → Call}
    (hf : ∀ i, (calls i).fileName.isSome)
    (ht : ∀ i j, i ≠ j → (calls i).target ≠ (calls j).target) (s : Writers ι)
    (hs : s.world.Linkless) (ms : List (Move ι Choice)) : AllClear calls s ms :=
  allClear_of_distinct (fun i j hij => tmp_ne_of_target_ne (hf i) (hf j) (ht i j hij)) s hs ms

end Nyx.Atomic
