import Mathlib.Data.List.TakeWhile
import Nyx.AlpmStrings
import Nyx.PkgLists

/-! Names read from libalpm: what decoding them may lose, and which of them still find what
they name. -/
namespace Nyx.Alpm
open Linked Memory Text

variable {σ : Type}

/-- Decoding keeps the two apart for certain: both are well-formed, or one of them shows no
replacement character. -/
def Legible (s t : Bytes) : Prop :=
  ((toStr s).isSome ∧ (toStr t).isSome) ∨ Char.ofNat 0xFFFD ∉ (fromUtf8Lossy s).toList ∨
    Char.ofNat 0xFFFD ∉ (fromUtf8Lossy t).toList

theorem Legible.eq {s t : Bytes} (h : Legible s t) (heq : fromUtf8Lossy s = fromUtf8Lossy t) :
    s = t := by
  have hvalid : (toStr s).isSome ∧ (toStr t).isSome := by
    rcases h with h | hs | ht
    · exact h
    · exact ⟨toStr_of_fromUtf8Lossy hs, toStr_of_fromUtf8Lossy (heq ▸ hs)⟩
    · exact ⟨toStr_of_fromUtf8Lossy (heq ▸ ht), toStr_of_fromUtf8Lossy ht⟩
  obtain ⟨a, ha⟩ := Option.isSome_iff_exists.mp hvalid.1
  obtain ⟨b, hb⟩ := Option.isSome_iff_exists.mp hvalid.2
  rw [fromUtf8Lossy_of_toStr ha, fromUtf8Lossy_of_toStr hb] at heq
  rw [← bytes_of_toStr ha, ← bytes_of_toStr hb, heq]

theorem optCstr_str {m : Mem} {p : Ptr} {s : Bytes} (h : m.str p = some s) :
    optCstr m p = some (some (fromUtf8Lossy s)) := by
  have hp : p ≠ 0 := by
    rintro rfl
    simp [Mem.str, Mem.read, m.null] at h
  simp [optCstr, hp, h]

theorem cstr_str {m : Mem} {p : Ptr} {s : Bytes} (h : m.str p = some s) :
    cstr m p = some (fromUtf8Lossy s) := by
  simp [cstr, optCstr_str h]

/-- The packages libalpm keeps for a database, whose list it has handed out: each has a name
of its own, and a lookup compares names byte by byte. -/
structure Catalogue (L : Libalpm σ) (db : Db) (w : World σ) (pkgcache : Ptr) (ps : List Ptr)
    (stored : Ptr → Bytes) : Prop where
  listed : FindsAll w.mem pkgcache ps
  live : ∀ p ∈ ps, p ≠ 0
  unique : ∀ p ∈ ps, ∀ q ∈ ps, stored p = stored q → p = q
  named : ∀ p ∈ ps, w.mem.str (L.pkgGetName w.mem w.lib p) = some (stored p)
  found : ∀ m q s, m.str q = some s → (L.call (.alpmDbGetPkg db.raw q) m w.lib).1.ptr =
    (ps.find? fun p => stored p = s).getD 0

theorem packages_listed {L : Libalpm σ} {db : Db} {w : World σ} {ps : List Ptr}
    (h : FindsAll (w.answered L (.alpmDbGetPkgcache db.raw)).mem
      (L.call (.alpmDbGetPkgcache db.raw) w.mem w.lib).1.ptr ps) :
    db.packages L w =
      some (ps.map Package.fromRaw, w.answered L (.alpmDbGetPkgcache db.raw)) := by
  obtain ⟨ns, hc, hps⟩ := h
  have hf : List.Forall₂ (fun n x => some (Package.fromRaw n.2) = some x) ns
      (ps.map Package.fromRaw) := by
    rw [← hps, List.map_map, List.forall₂_map_right_iff]
    exact List.forall₂_same.mpr fun n _ => rfl
  simp only [Db.packages, AlpmList.fromRaw, Ffi.bind_apply, Ffi.call_apply, Option.bind_some,
    Ffi.collect_apply]
  rw [collect_chain (l := ⟨(L.call (.alpmDbGetPkgcache db.raw) w.mem w.lib).1.ptr⟩) hc hf]
  rfl

theorem getPkg_answers (L : Libalpm σ) (db : Db) {name : String} (hn : NameOk name) (w : World σ) :
    ∃ m q w', m.str q = some (bytes name) ∧ db.getPkg L name w = some
      (if (L.call (.alpmDbGetPkg db.raw q) m w.lib).1.ptr = 0 then none
        else some (Package.fromRaw (L.call (.alpmDbGetPkg db.raw q) m w.lib).1.ptr), w') := by
  obtain ⟨c, hc, hb⟩ := new_ok hn
  have hstr := str_buffer (Mem.read_alloc_self w.mem c.buffer)
  rw [hb] at hstr
  refine ⟨_, _, World.drop (World.answered L { w with mem := (w.mem.alloc c.buffer).2 }
    (.alpmDbGetPkg db.raw w.mem.next)) [w.mem.next], hstr, ?_⟩
  simp only [Db.getPkg, hc, Ffi.bind_apply, asPtr_apply, Ffi.call_apply, Ffi.drop_apply,
    Ffi.pure_apply, Option.bind_some]

theorem str_noNul {m : Mem} {p : Ptr} {s : Bytes} (h : m.str p = some s) : 0 ∉ s := by
  unfold Mem.str at h
  split at h
  · split_ifs at h
    obtain rfl := Option.some.inj h
    intro h0
    simpa using List.mem_takeWhile_imp h0
  · cases h

section Catalogue
variable {L : Libalpm σ} {db : Db} {w : World σ} {pkgcache p : Ptr} {ps : List Ptr}
  {stored : Ptr → Bytes}

theorem Catalogue.find (h : Catalogue L db w pkgcache ps stored) (hp : p ∈ ps) :
    ps.find? (fun q => stored q = stored p) = some p := by
  cases hq : ps.find? fun q => stored q = stored p with
  | none =>
    have hno := List.find?_eq_none.mp hq p hp
    simp at hno
  | some q =>
    have heq := List.find?_some hq
    rw [h.unique q (List.mem_of_find?_eq_some hq) p hp (by simpa using heq)]

/-- A package is found again under the name it shows exactly when its stored name is
well-formed. -/
theorem Catalogue.getPkg_name (h : Catalogue L db w pkgcache ps stored) (hp : p ∈ ps) :
    ∃ r w', db.getPkg L (fromUtf8Lossy (stored p)) w = some (r, w') ∧
      (r = some (Package.fromRaw p) ↔ (toStr (stored p)).isSome) := by
  by_cases hn : NameOk (fromUtf8Lossy (stored p))
  · obtain ⟨m, q, w', hq, hget⟩ := getPkg_answers L db hn w
    refine ⟨_, w', hget, ?_⟩
    rw [h.found m q _ hq]
    constructor
    · intro hr
      split_ifs at hr with h0
      have hfound : (ps.find? fun x => stored x = bytes (fromUtf8Lossy (stored p))).getD 0 = p :=
        Package.mk.inj (Option.some.inj hr)
      cases hx : ps.find? fun x => stored x = bytes (fromUtf8Lossy (stored p)) with
      | none =>
        rw [hx] at h0
        exact absurd rfl h0
      | some x =>
        rw [hx] at hfound
        obtain rfl : x = p := hfound
        have hstored := List.find?_some hx
        rw [decide_eq_true_eq] at hstored
        rw [hstored, toStr_bytes]
        rfl
    · intro hvalid
      obtain ⟨s, hs⟩ := Option.isSome_iff_exists.mp hvalid
      rw [fromUtf8Lossy_of_toStr hs, bytes_of_toStr hs, h.find hp, Option.getD_some,
        if_neg (h.live p hp)]
  · refine ⟨none, w, getPkg_rejected L w db hn, ?_⟩
    constructor
    · intro hr
      cases hr
    · intro hvalid
      obtain ⟨s, hs⟩ := Option.isSome_iff_exists.mp hvalid
      rw [fromUtf8Lossy_of_toStr hs, NameOk, bytes_of_toStr hs] at hn
      exact absurd (str_noNul (h.named p hp)) hn

end Catalogue

/-- Two names that differ are told apart when they are legible, and so are two files by
their names; a package is looked up by the name it shows with success exactly when the
name libalpm keeps is well-formed. -/
theorem names_identify (L : Libalpm σ) (G : PkgGetters σ) :
    (∀ (m m' : Mem) (p q : Ptr) (s t : Bytes), m.str p = some s → m'.str q = some t → s ≠ t →
      Legible s t → optCstr m p ≠ optCstr m' q ∧ cstr m p ≠ cstr m' q) ∧
    (∀ (lib : σ) (m : Mem) (p : Package) (filelist : List AlpmFile) (fs : List PackageFile),
      G.files m lib p.raw = some filelist → p.files G lib m = some fs →
      ∀ x ∈ filelist.zip fs, ∀ y ∈ filelist.zip fs, ∀ s t, m.str x.1.name = some s →
        m.str y.1.name = some t → s ≠ t → Legible s t → x.2.name ≠ y.2.name) ∧
    ∀ (db : Db) (w : World σ) (ps : List Ptr) (stored : Ptr → Bytes),
      Catalogue L db (w.answered L (.alpmDbGetPkgcache db.raw))
        (L.call (.alpmDbGetPkgcache db.raw) w.mem w.lib).1.ptr ps stored →
      ∃ w', db.packages L w = some (ps.map Package.fromRaw, w') ∧
        ∀ p ∈ ps, ∃ n r w'', Package.name L w'.lib w'.mem (.fromRaw p) = some n ∧
          db.getPkg L n w' = some (r, w'') ∧
          (r = some (Package.fromRaw p) ↔ (toStr (stored p)).isSome) := by
  refine ⟨?_, ?_, ?_⟩
  · intro m m' p q s t hs ht hne hleg
    have hdec : fromUtf8Lossy s ≠ fromUtf8Lossy t := fun heq => hne (hleg.eq heq)
    rw [optCstr_str hs, optCstr_str ht, cstr_str hs, cstr_str ht]
    simpa using hdec
  · intro lib m p filelist fs hraw hfs x hx y hy s t hs ht hne hleg heq
    have hread := List.forall₂_iff_zip.mp (files_forall₂ hraw hfs)
    have hname : ∀ z ∈ filelist.zip fs, ∀ b, m.str z.1.name = some b →
        z.2.name = fromUtf8Lossy b := by
      intro z hz b hb
      have hz' := hread.2 hz
      rw [PackageFile.fromRaw, cstr_str hb] at hz'
      rw [← Option.some.inj hz']
    rw [hname x hx s hs, hname y hy t ht] at heq
    exact hne (hleg.eq heq)
  · intro db w ps stored h
    refine ⟨_, packages_listed h.listed, fun p hp => ?_⟩
    obtain ⟨r, w'', hget, hiff⟩ := h.getPkg_name hp
    exact ⟨_, r, w'', cstr_str (h.named p hp), hget, hiff⟩

/-- Three names, two of them of one byte that starts no character, and the list of two
packages that go by the first and the second name. -/
def shelf : World Unit :=
  ⟨(blank.mem.allocAll [.chars (bytes "foo" ++ [0]), .chars [0xFF, 0], .chars [0xFE, 0],
    .node 8 0 5, .node 9 0 0]).2, (), []⟩

def shelved (p : Ptr) : Bytes := if p = 8 then bytes "foo" else [0xFF]

/-- A library that keeps the two packages. -/
def shelving : Libalpm Unit where
  call c m s :=
    match c with
    | .alpmDbGetPkgcache _ => (⟨4, 0, 0⟩, m, s)
    | .alpmDbGetPkg _ q =>
      (⟨((([8, 9] : List Ptr).find? fun p => m.str q = some (shelved p)).getD 0), 0, 0⟩, m, s)
    | _ => (⟨0, 0, 0⟩, m, s)
  errno _ _ := 0
  strerror _ := none
  pkgGetName _ _ p := if p = 8 then 1 else 2

/-- The getters of a library whose packages all own the files of these names. -/
def owning (names : List Ptr) : PkgGetters Unit :=
  { PkgGetters.empty Unit with files := fun _ _ _ => some (names.map fun p => ⟨p, 0, 0⟩) }

theorem catalogue_shelf :
    Catalogue shelving ⟨1⟩ (shelf.answered shelving (.alpmDbGetPkgcache 1)) 4 [8, 9] shelved where
  listed := by
    refine ⟨[(4, 8), (5, 9)], .cons (by decide) (q := 5) ?_ (.cons (by decide) (q := 0) ?_ .nil), rfl⟩
    · decide +kernel
    · decide +kernel
  live := by decide
  unique := by decide +kernel
  named := by decide +kernel
  found m q s hs := by simp [shelving, hs, eq_comm]

theorem names_identify_shelf :
    (optCstr shelf.mem 1 ≠ optCstr shelf.mem 2 ∧ cstr shelf.mem 1 ≠ cstr shelf.mem 2) ∧
      (⟨"foo", 0, 0⟩ : PackageFile).name ≠ (⟨"\uFFFD", 0, 0⟩ : PackageFile).name ∧
      ∃ w', Db.packages shelving ⟨1⟩ shelf = some ([⟨8⟩, ⟨9⟩], w') ∧
        ∀ p ∈ ([8, 9] : List Ptr), ∃ n r w'',
          Package.name shelving w'.lib w'.mem ⟨p⟩ = some n ∧
            Db.getPkg shelving ⟨1⟩ n w' = some (r, w'') ∧
            (r = some ⟨p⟩ ↔ (toStr (shelved p)).isSome) := by
  obtain ⟨hstr, hfiles, hpkg⟩ := names_identify shelving (owning [1, 2])
  have hfoo : shelf.mem.str 1 = some (bytes "foo") := by decide +kernel
  have hbad : shelf.mem.str 2 = some [0xFF] := by decide +kernel
  have hne : bytes "foo" ≠ [0xFF] := by decide +kernel
  have hleg : Legible (bytes "foo") [0xFF] := Or.inr (Or.inl (by decide +kernel))
  refine ⟨hstr _ _ _ _ _ _ hfoo hbad hne hleg, ?_, hpkg ⟨1⟩ shelf [8, 9] shelved catalogue_shelf⟩
  exact hfiles () shelf.mem ⟨8⟩ [⟨1, 0, 0⟩, ⟨2, 0, 0⟩] [⟨"foo", 0, 0⟩, ⟨"\uFFFD", 0, 0⟩] rfl
    (by decide +kernel) (⟨1, 0, 0⟩, ⟨"foo", 0, 0⟩) (.head _) (⟨2, 0, 0⟩, ⟨"\uFFFD", 0, 0⟩)
    (.tail _ (.head _)) _ _ hfoo hbad hne hleg

theorem undecodable_names_collide :
    (shelf.mem.str 2 = some [0xFF] ∧ shelf.mem.str 3 = some [0xFE] ∧
      optCstr shelf.mem 2 = optCstr shelf.mem 3 ∧ cstr shelf.mem 2 = cstr shelf.mem 3) ∧
    Package.files (owning [2, 3]) () shelf.mem ⟨8⟩ =
      some [⟨"\uFFFD", 0, 0⟩, ⟨"\uFFFD", 0, 0⟩] ∧
    (Db.packages shelving ⟨1⟩ shelf).map Prod.fst = some [⟨8⟩, ⟨9⟩] ∧
    Package.name shelving () shelf.mem ⟨9⟩ = some "\uFFFD" ∧
    (Db.getPkg shelving ⟨1⟩ "\uFFFD" shelf).map Prod.fst = some none := by
  refine ⟨⟨?_, ?_, ?_, ?_⟩, ?_, ?_, ?_, ?_⟩ <;> decide +kernel

end Nyx.Alpm
