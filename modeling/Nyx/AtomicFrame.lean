import Nyx.AtomicHistory
import Nyx.AtomicLinks

/-! What `write_atomic` leaves alone. `File::create` takes whatever it finds under the name of
the temporary file: it empties a file, and follows a link. -/
namespace Nyx.Atomic
open FileTree Interaction Text
open CreateDirAll (IoError)

/-- No file and no link goes by the name of the temporary file. -/
def NameFree (c : Call) (w : LinkTree OsStr) : Prop :=
  ∀ l, w.place c.cwd c.tmpPath = .ok l → w.item l = none ∨ w.item l = some .dir

/-- The entry is what it was, and holds what it held if it is a file. -/
def Untouched (t u : LinkTree OsStr) (l : Loc OsStr) : Prop :=
  u.item l = t.item l ∧ ∀ i, t.item l = some (.file i) → u.data i = t.data i

section Frame
variable {c : Call} {t w u : LinkTree OsStr} {l k : Loc OsStr} {i : ℕ}

theorem untouched_grown (h : t.Grown u) (hl : t.item l ≠ none) : Untouched t u l := by
  obtain ⟨v, hv⟩ := Option.ne_none_iff_exists'.mp hl
  exact ⟨(h.keep hv).trans hv.symm, fun i _ => congrFun h.data i⟩

/-- Where the name is free the file opened is a new one, under that name. -/
theorem Opens.new (file : Opens c w k i) (hfree : NameFree c w) :
    w.place c.cwd c.tmpPath = .ok k ∧ w.item k = none ∧ i = w.next := by
  obtain ⟨d, hd, hk⟩ := file.dir
  have hplace : w.place c.cwd c.tmpPath =
      .ok (tmpName (c.fileName.getD []) c.pid c.nanos :: d) := by
    rw [place_tmpPath]
    exact ⟨d, (enter_tmpPath file.named w).trans hd, rfl⟩
  have hnone := hfree _ hplace
  rcases hk with rfl | ⟨q, hq⟩
  · obtain ⟨hn, hi⟩ | hi := file.inode
    · exact ⟨hplace, hn, hi⟩
    · rw [hi] at hnone
      simp at hnone
  · rw [hq] at hnone
    simp at hnone

theorem untouched_written (hgrown : t.Grown w) (file : Opens c w k i) (hfree : NameFree c w)
    (hl : t.item l ≠ none) (b : Bytes) : Untouched t (written w k i b) l ∧ l ≠ k := by
  obtain ⟨-, hn, hi⟩ := file.new hfree
  obtain ⟨hitem, hdata⟩ := untouched_grown hgrown hl
  have hne : l ≠ k := by
    rintro rfl
    rw [hn] at hitem
    exact hl hitem.symm
  refine ⟨⟨by rw [file.item, if_neg hne, hitem], fun j hj => ?_⟩, hne⟩
  have hlt := w.fresh (hitem.trans hj)
  rw [file.data, if_neg (by omega), hdata j hj]

/-- The rename moves the new file from its name to the name of the path. -/
theorem Opens.source (file : Opens c w k i) (hfree : NameFree c w) {b : Bytes} {a : Loc OsStr}
    (ha : (written w k i b).place c.cwd c.tmpPath = .ok a) : a = k := by
  obtain ⟨hplace, -⟩ := file.new hfree
  obtain ⟨d, hd, rfl⟩ := place_tmpPath.mp hplace
  obtain ⟨d', hd', rfl⟩ := place_tmpPath.mp ha
  rw [Except.ok.inj (hd'.symm.trans (file.enter b hd))]

theorem Opens.target (file : Opens c w k i) {b : Bytes} {a : Loc OsStr}
    (ha : (written w k i b).place c.cwd c.path = .ok a) : w.place c.cwd c.path = .ok a := by
  obtain ⟨x, hx⟩ := Option.isSome_iff_exists.mp file.named
  have hfile := Call.fileName_path hx
  obtain ⟨d, hd, -⟩ := file.dir
  obtain ⟨d', hd', rfl⟩ := (LinkTree.place_ok hfile).mp ha
  refine (LinkTree.place_ok hfile).mpr ⟨d, hd, ?_⟩
  rw [Except.ok.inj (hd'.symm.trans (file.enter b hd))]

theorem untouched_late (hgrown : t.Grown w) (hfree : NameFree c w) (hl : t.item l ≠ none)
    (hpath : w.place c.cwd c.path ≠ .ok l) {s : Stage} {o : Bool} {n : ℕ}
    (h : Late c w s u o n) : Untouched t u l := by
  cases h with
  | waiting => exact untouched_grown hgrown hl
  | refused => exact untouched_grown hgrown hl
  | working file => exact (untouched_written hgrown file hfree hl _).1
  | failed file => exact (untouched_written hgrown file hfree hl _).1
  | same file => exact (untouched_written hgrown file hfree hl _).1
  | @renamed s k i n a b file stage source target =>
    obtain ⟨⟨hitem, hdata⟩, hne⟩ := untouched_written hgrown file hfree hl (c.data.take n)
    have hla : l ≠ a := by rwa [file.source hfree source]
    have hlb : l ≠ b := by
      rintro rfl
      exact hpath (file.target target)
    refine ⟨?_, hdata⟩
    rw [← hitem]
    exact (Function.update_of_ne hla _ _).trans (Function.update_of_ne hlb _ _)

/-- If the directory is there from the start, it can be seen then whether the name is free. -/
theorem NameFree.grown (h : NameFree c t) {d : Loc OsStr} (hd : t.enter c.cwd c.tmpPath = .ok d)
    (hgrown : t.Grown w) : NameFree c w := by
  intro l hl
  obtain ⟨d', hd', rfl⟩ := place_tmpPath.mp hl
  have hdw : w.enter c.cwd c.tmpPath = .ok d :=
    LinkTree.enter_mono hd (fun m => hgrown.keep) fun m q => hgrown.keep
  obtain rfl : d = d' := Except.ok.inj (hdw.symm.trans hd')
  have ht := h _ (place_tmpPath.mpr ⟨d, hd, rfl⟩)
  rcases hgrown.item (tmpName (c.fileName.getD []) c.pid c.nanos :: d) with h1 | ⟨-, h1⟩
  · rwa [h1]
  · exact Or.inr h1

theorem grown_create {ks : List Choice} (h : (linkCall c ks t).stage = .create) :
    t.Grown (linkCall c ks t).world := by
  rcases linkCall_parts c ks t with ⟨hearly, -⟩ | ⟨w, hgrown, -, -, -, hlate⟩
  · exact hearly.grown
  · rw [h] at hlate
    rwa [late_create hlate]

end Frame

/-- If no file and no link goes by the name of the temporary file when the call comes to open
it, then at every instant everything that was there is as it was, the file at the path apart. -/
theorem others_kept (c : Call) (ks : List Choice) (t : LinkTree OsStr)
    (hfree : ∀ n, (linkCall c (ks.take n) t).stage = .create →
      NameFree c (linkCall c (ks.take n) t).world) (l : Loc OsStr) (hl : t.item l ≠ none)
    (hpath : ∀ n, (linkCall c (ks.take n) t).stage = .create →
      (linkCall c (ks.take n) t).world.place c.cwd c.path ≠ .ok l) (n : ℕ) :
    Untouched t (linkCall c (ks.take n) t).world l := by
  rcases linkCall_parts c (ks.take n) t with ⟨hearly, -⟩ | ⟨w, hgrown, -, ⟨m, hm⟩, hw, hlate⟩
  · exact untouched_grown hearly.grown hl
  · have hwm := hw m hm
    rw [List.take_take] at hm hwm
    have hfreew := hfree _ hm
    have hpathw := hpath _ hm
    rw [hwm] at hfreew hpathw
    exact untouched_late hgrown hfreew hl hpathw hlate

/-- A file of another program. -/
def shared : Volume OsStr := (Volume.empty.apply (.create [bytes "shared"])).apply (.write 0 [9])

theorem others_kept_shared :
    Untouched shared.plain (linkCall manifest ((List.replicate 9 (.go 5)).take 9) shared.plain).world
      [bytes "shared"] := by
  have hfree : NameFree manifest shared.plain := by
    intro l hl
    have hplace : shared.plain.place manifest.cwd manifest.tmpPath =
        .ok [tmpName (bytes "manifest.nyx") 7 12] := by decide +kernel
    obtain rfl := Except.ok.inj (hplace.symm.trans hl)
    exact Or.inl (by decide +kernel)
  refine others_kept manifest _ _ (fun n hn => hfree.grown (d := []) (by decide +kernel)
    (grown_create hn)) _ (by decide +kernel) (fun n _ hplace => ?_) 9
  obtain ⟨d, -, hd⟩ := (LinkTree.place_ok (x := bytes "manifest.nyx") rfl).mp hplace
  exact absurd (List.cons.inj hd).1 (by decide +kernel)

/-- The same tree, with a link to the file under the name of the temporary file. -/
def planted : LinkTree OsStr where
  item := Function.update shared.plain.item [tmpName (bytes "manifest.nyx") 7 12]
    (some (.link ⟨true, [.normal (bytes "shared")], false⟩))
  data := shared.data
  next := shared.next
  fresh := fun h => fresh_update shared.plain.fresh le_rfl (by simp) h

/-- The data of the manifest is written to the file the link leads to. -/
theorem planted_link_followed :
    (linkCall manifest (List.replicate 9 (.go 5)) planted).stage = .done (.ok ()) ∧
      planted.place manifest.cwd manifest.path ≠ .ok [bytes "shared"] ∧
      planted.item [bytes "shared"] = some (.file 0) ∧ planted.data 0 = [9] ∧
      (linkCall manifest (List.replicate 9 (.go 5)) planted).world.data 0 = [1, 2, 3] ∧
      ¬ Untouched planted (linkCall manifest (List.replicate 9 (.go 5)) planted).world
        [bytes "shared"] := by
  have hitem : planted.item [bytes "shared"] = some (.file 0) := by decide +kernel
  have hdata : (linkCall manifest (List.replicate 9 (.go 5)) planted).world.data 0 = [1, 2, 3] := by
    decide +kernel
  refine ⟨by decide +kernel, by decide +kernel, hitem, by decide +kernel, hdata, fun h => ?_⟩
  have huntouched := h.2 0 hitem
  rw [hdata] at huntouched
  exact absurd huntouched (by decide +kernel)

end Nyx.Atomic
