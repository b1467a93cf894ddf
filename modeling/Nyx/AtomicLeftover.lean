import Nyx.AtomicHistory
import Nyx.AtomicLinks

/-! What a failed `write_atomic` leaves behind. Each `?` after `File::create` returns without
removing the temporary file. -/
namespace Nyx.Atomic
open FileTree Interaction Text
open CreateDirAll (IoError)

/-- The target's directory holds what it held, apart from directories made in it. -/
def DirKept (c : Call) (t u : LinkTree OsStr) : Prop :=
  ∀ d, u.enter c.cwd c.path = .ok d → ∀ x,
    (u.item (x :: d) = t.item (x :: d) ∨
      t.item (x :: d) = none ∧ u.item (x :: d) = some .dir) ∧
    ∀ i, t.item (x :: d) = some (.file i) → u.data i = t.data i

/-- The file about to be opened does not belong to the target's directory, or it holds the
bytes already that will be in it when the call fails. -/
def Harmless (c : Call) (w : LinkTree OsStr) (b : Bytes) : Prop :=
  ∀ d l, w.enter c.cwd c.path = .ok d → w.reach c.cwd c.tmpPath = .ok l →
    match w.item l with
    | none => ∀ x, l ≠ x :: d
    | some (.file i) => w.data i = b ∨ ∀ x, w.item (x :: d) ≠ some (.file i)
    | _ => True

theorem dirKept_grown {c : Call} {t u : LinkTree OsStr} (h : t.Grown u) : DirKept c t u :=
  fun _ _ _ => ⟨h.item _, fun _ _ => congrFun h.data _⟩

theorem dirKept_written {c : Call} {t w : LinkTree OsStr} {l : Loc OsStr} {i : ℕ}
    (hgrown : t.Grown w) (file : Opens c w l i) (b : Bytes) :
    DirKept c t (written w l i b) ↔ Harmless c w b := by
  obtain ⟨d, hd, -⟩ := file.dir
  have hfile : ∀ k j, w.item k = some (.file j) ↔ t.item k = some (.file j) := by
    intro k j
    refine ⟨fun h => ?_, fun h => hgrown.keep h⟩
    rw [← hgrown.before (by simp [h]), h]
  constructor
  · intro hkept d' l' hd' hl'
    obtain rfl : d = d' := Except.ok.inj (hd.symm.trans hd')
    obtain rfl : l = l' := Except.ok.inj (file.reach.symm.trans hl')
    have hdir := hkept d (file.enter b hd)
    obtain ⟨hn, -⟩ | hi := file.inode
    · rw [hn]
      rintro x rfl
      have hx := (hdir x).1
      rw [file.item, if_pos rfl, ← hgrown.before (by simp [hn]), hn] at hx
      simp at hx
    · rw [hi]
      by_cases hb : w.data i = b
      · exact Or.inl hb
      · refine Or.inr fun x hx => hb ?_
        have hdata := (hdir x).2 i ((hfile _ _).mp hx)
        rw [file.data, if_pos rfl, ← hgrown.data] at hdata
        exact hdata.symm
  · intro hharm d' hd' x
    obtain rfl : d = d' := Except.ok.inj ((file.enter b hd).symm.trans hd')
    have hcase := hharm d l hd file.reach
    obtain ⟨hn, rfl⟩ | hi := file.inode
    · rw [hn] at hcase
      refine ⟨?_, fun j hj => ?_⟩
      · rw [file.item, if_neg (hcase x).symm]
        exact hgrown.item _
      · have hlt := w.fresh ((hfile _ _).mpr hj)
        rw [file.data, if_neg hlt.ne, hgrown.data]
    · rw [hi] at hcase
      refine ⟨?_, fun j hj => ?_⟩
      · rw [file.item]
        split_ifs with hx
        · rw [hx]
          exact Or.inl ((hfile _ _).mp hi).symm
        · exact hgrown.item _
      · rw [file.data]
        split_ifs with hji
        · subst hji
          rw [← hgrown.data]
          exact (hcase.resolve_right fun h => h x ((hfile _ _).mpr hj)).symm
        · rw [hgrown.data]

/-- When a call fails, the target's directory holds what it held if and only if the call failed
before its temporary file was open, or the file it opened was harmless there: a file that
existed, and has no name in that directory or held what it holds now, or one made outside that
directory through a link. -/
theorem failed_leaves (c : Call) (ks : List Choice) (t : LinkTree OsStr) (e : IoError)
    (h : (linkCall c ks t).stage = .done (.error e)) :
    DirKept c t (linkCall c ks t).world ↔
      (opened (linkCall c ks t).log = true →
        ∀ n, (linkCall c (ks.take n) t).stage = .create →
          Harmless c (linkCall c (ks.take n) t).world
            (c.data.take (accepted (linkCall c ks t).log))) := by
  rcases linkCall_parts c ks t with ⟨hearly, hno⟩ | ⟨w, hgrown, hnamed, ⟨m, hm⟩, hw, hlate⟩
  · exact iff_of_true (dirKept_grown hearly.grown) fun _ n hn => absurd hn (hno n)
  · rw [h] at hlate
    generalize (linkCall c ks t).world = u at hlate
    generalize opened (linkCall c ks t).log = o at hlate
    generalize accepted (linkCall c ks t).log = a at hlate
    cases hlate with
    | refused => exact iff_of_true (dirKept_grown hgrown) fun ho => nomatch ho
    | failed file =>
      rw [dirKept_written hgrown file]
      constructor
      · intro hharm _ n hn
        rwa [hw n hn]
      · intro hall
        rw [← hw m hm]
        exact hall rfl m hm
    | working file stage => cases stage
    | same file stage => cases stage
    | renamed file stage => cases stage

/-- The call of the manifest, refused its temporary file. -/
theorem failed_leaves_refused : DirKept manifest Volume.empty.plain
    (linkCall manifest [.go 0, .go 0, .fail .other] Volume.empty.plain).world :=
  (failed_leaves manifest _ _ (.os .other) (by decide +kernel)).mpr
    fun ho => absurd ho (by decide +kernel)

/-- A disk that is full when the data is written leaves the temporary file in the directory. -/
theorem full_disk_leaves_tmp :
    (linkCall manifest [.go 0, .go 0, .go 0, .fail .other] Volume.empty.plain).stage =
        .done (.error (.os .other)) ∧
      ¬ DirKept manifest Volume.empty.plain
        (linkCall manifest [.go 0, .go 0, .go 0, .fail .other] Volume.empty.plain).world := by
  refine ⟨by decide +kernel, fun h => ?_⟩
  have hitem := (h [] (by decide +kernel) (tmpName (bytes "manifest.nyx") 7 12)).1
  have hthere : (linkCall manifest [.go 0, .go 0, .go 0, .fail .other] Volume.empty.plain).world.item
      [tmpName (bytes "manifest.nyx") 7 12] = some (.file 0) := by decide +kernel
  have hbefore : Volume.empty.plain.item [tmpName (bytes "manifest.nyx") 7 12] = none := by
    decide +kernel
  rw [hthere, hbefore] at hitem
  simp at hitem

end Nyx.Atomic
