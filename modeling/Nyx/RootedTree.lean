import Nyx.FileTree

/-! What a request can do to a tree, whichever request it is and whoever makes it: directories
stay, and everything stays inside one. -/
namespace Nyx.FileTree
variable {N : Type}

/-- A change that a request makes: what is new is new inside a directory, and what is moved is a
file. -/
inductive Effect (t : Volume N) : Change N → Prop
  | quiet {δ} (h : δ.quiet = true) : Effect t δ
  | mkdir {x l} (inside : t.entry l = some .dir) (absent : t.entry (x :: l) = none) :
      Effect t (.mkdir (x :: l))
  | create {x l} (inside : t.entry l = some .dir) (absent : t.entry (x :: l) = none) :
      Effect t (.create (x :: l))
  | write (i d) : Effect t (.write i d)
  | rename {a i x l} (file : t.entry a = some (.file i)) (inside : t.entry l = some .dir)
      (plain : t.entry (x :: l) ≠ some .dir) : Effect t (.rename a (x :: l))

/-- A walk that comes to the last component of a path has met the directory it lies in. -/
theorem Image.inside_of_enter {t : Image N} {cwd : Loc N} {p : Path N} (he : t.enter cwd p = none)
    (hf : p.fileName.isSome) : ∃ x l, p.loc cwd = x :: l ∧ t.entry l = some .dir := by
  obtain ⟨x, hx⟩ := Option.isSome_iff_exists.mp hf
  refine ⟨x, _, Path.loc_of_fileName hx (Path.parent_of_fileName hf), ?_⟩
  unfold Image.enter at he
  split_ifs at he
  exact Image.walk_eq_none.mp he _ (List.suffix_refl _)

section Effect
variable (t : Volume N) (cwd : Loc N) (ch : Choice)

theorem effect_create (p : Path N) : Effect t (t.outcome cwd ch (.create p)).2 := by
  cases ch with
  | fail e => exact .quiet rfl
  | go n =>
    simp only [Volume.outcome, Volume.plan]
    split
    · exact .quiet rfl
    · rename_i he
      split
      · rename_i x hx hnone
        split_ifs
        · exact .quiet rfl
        · obtain ⟨y, l, hl, hdir⟩ := Image.inside_of_enter he (by simp [hx])
          rw [hl] at hnone ⊢
          exact .create hdir hnone
      · split_ifs
        · exact .quiet rfl
        · exact .write _ _
      · exact .quiet rfl

theorem outcome_effect (r : Request N) : Effect t (t.outcome cwd ch r).2 := by
  cases r with
  | mkdir p =>
    rcases t.outcome_mkdir cwd ch p with ⟨e, h⟩ | ⟨h, hnone, he, hf⟩
    · rw [h]
      exact .quiet rfl
    · obtain ⟨x, l, hl, hdir⟩ := Image.inside_of_enter he hf
      rw [h, hl]
      exact .mkdir hdir (hl ▸ hnone)
  | isDir p =>
    rcases t.outcome_isDir cwd ch p with ⟨e, h⟩ | ⟨h, -⟩ <;>
    · rw [h]
      exact .quiet rfl
  | create p => exact effect_create t cwd ch p
  | write i off buf =>
    rcases t.outcome_write cwd ch i off buf with ⟨e, h⟩ | h | ⟨n, -, -, h⟩
    · rw [h]
      exact .quiet rfl
    · rw [h]
      exact .quiet rfl
    · rw [h]
      exact .write _ _
  | flush i => cases ch <;> exact .quiet rfl
  | fsync hd =>
    cases ch with
    | fail e => exact .quiet rfl
    | go n => cases hd <;> exact .quiet rfl
  | rename a b =>
    rcases t.outcome_rename cwd ch a b with
      ⟨e, h⟩ | ⟨i, hfile, he, hf, -, hplain, ⟨h, -⟩ | ⟨h, -⟩⟩
    · rw [h]
      exact .quiet rfl
    · rw [h]
      exact .quiet rfl
    · obtain ⟨x, l, hl, hdir⟩ := Image.inside_of_enter he hf
      rw [h, hl]
      exact .rename hfile hdir (hl ▸ hplain)
  | openFile p =>
    rcases t.outcome_openFile cwd ch p with ⟨e, h⟩ | ⟨-, ⟨h, -⟩ | ⟨i, h, -⟩⟩ <;>
    · rw [h]
      exact .quiet rfl

end Effect

section Apply
variable [DecidableEq N] {t : Volume N} {δ : Change N}

omit [DecidableEq N] in
theorem Effect.not_mem_of_dir (h : Effect t δ) {l : Loc N} (hl : t.entry l = some .dir) :
    l ∉ δ.touches := by
  cases h with
  | quiet h => simp [Change.touches_quiet h]
  | mkdir inside absent | create inside absent =>
    rw [Change.touches, List.mem_singleton]
    rintro rfl
    rw [hl] at absent
    cases absent
  | write i d => simp [Change.touches]
  | @rename a i x m file inside plain =>
    have hla : l ≠ a := by
      rintro rfl
      rw [hl] at file
      cases file
    have hlx : l ≠ x :: m := by
      rintro rfl
      exact plain hl
    simp [Change.touches, hla, hlx]

theorem Effect.dir (h : Effect t δ) {l : Loc N} (hl : t.entry l = some .dir) :
    (t.apply δ).entry l = some .dir := by
  rw [Volume.entry_apply (h.not_mem_of_dir hl), hl]

/-- What has an entry after a change had one before, or lies in a directory. -/
theorem Effect.inside (h : Effect t δ) {y : N} {k : Loc N}
    (hk : (t.apply δ).entry (y :: k) ≠ none) : t.entry (y :: k) ≠ none ∨ t.entry k = some .dir := by
  by_cases hmem : y :: k ∈ δ.touches
  · cases h with
    | quiet h => simp [Change.touches_quiet h] at hmem
    | mkdir inside absent | create inside absent =>
      obtain ⟨-, rfl⟩ := List.cons.inj (List.mem_singleton.mp hmem)
      exact Or.inr inside
    | write i d => cases hmem
    | rename file inside plain =>
      rcases List.mem_cons.mp hmem with rfl | hmem
      · exact Or.inl (by rw [file]; exact Option.some_ne_none _)
      · obtain ⟨-, rfl⟩ := List.cons.inj (List.mem_singleton.mp hmem)
        exact Or.inr inside
  · rw [Volume.entry_apply hmem] at hk
    exact Or.inl hk

theorem Effect.rooted (h : Effect t δ) (ht : t.Rooted) : (t.apply δ).Rooted := by
  refine ⟨h.dir ht.root, fun y k hk => h.dir ?_⟩
  rcases h.inside hk with hbefore | hdir
  · exact ht.inside y k hbefore
  · exact hdir

end Apply

end Nyx.FileTree
