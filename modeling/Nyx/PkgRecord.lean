import Nyx.PkgLists

/-! The rest of what a package shows: its strings, dates and sizes, why it is installed, and the
lists of its licenses, groups and backup files. A list is shown exactly where libalpm's ends and
everything in it can be read. -/
namespace Nyx.Alpm
open Linked Memory

/-- The values of `alpm_pkgreason_t`, and any other integer found in their place. -/
inductive AlpmPkgreason
  | explicit
  | depend
  | unknown
  deriving DecidableEq

inductive PkgReason
  | explicit
  | depend
  | unknown
  deriving DecidableEq

def PkgReason.fromRaw : AlpmPkgreason → PkgReason
  | .explicit => .explicit
  | .depend => .depend
  | _ => .unknown

/-- libalpm's other getters, and where an `alpm_backup_t` has its name and its hash. -/
structure RecordGetters (σ : Type) where
  version : Mem → σ → Ptr → Ptr
  desc : Mem → σ → Ptr → Ptr
  url : Mem → σ → Ptr → Ptr
  packager : Mem → σ → Ptr → Ptr
  arch : Mem → σ → Ptr → Ptr
  base : Mem → σ → Ptr → Ptr
  filename : Mem → σ → Ptr → Ptr
  builddate : Mem → σ → Ptr → Int64
  installdate : Mem → σ → Ptr → Int64
  size : Mem → σ → Ptr → Int64
  isize : Mem → σ → Ptr → Int64
  reason : Mem → σ → Ptr → AlpmPkgreason
  licenses : Mem → σ → Ptr → Ptr
  groups : Mem → σ → Ptr → Ptr
  backup : Mem → σ → Ptr → Ptr
  backupAt : Mem → Ptr → Option (Ptr × Ptr)

structure BackupEntry where
  name : String
  hash : String
  deriving DecidableEq

def BackupEntry.fromRaw {σ : Type} (R : RecordGetters σ) (m : Mem) (p : Ptr) :
    Option BackupEntry := do
  let b ← R.backupAt m p
  let name ← cstr m b.1
  let hash ← cstr m b.2
  return ⟨name, hash⟩

/-- The entry has the fields of the record. -/
def BackupEntry.CopyOf {σ : Type} (R : RecordGetters σ) (m : Mem) (p : Ptr) (e : BackupEntry) :
    Prop :=
  ∃ name hash, R.backupAt m p = some (name, hash) ∧ cstr m name = some e.name ∧
    cstr m hash = some e.hash

theorem BackupEntry.fromRaw_eq_some {σ : Type} {R : RecordGetters σ} {m : Mem} {p : Ptr}
    {e : BackupEntry} : BackupEntry.fromRaw R m p = some e ↔ e.CopyOf R m p := by
  simp only [BackupEntry.fromRaw, Option.bind_eq_bind, Option.bind_eq_some_iff, Option.pure_def,
    Option.some.injEq]
  constructor
  · rintro ⟨⟨n, g⟩, hb, name, hn, hash, hg, rfl⟩
    exact ⟨n, g, hb, hn, hg⟩
  · rintro ⟨n, g, hb, hn, hg⟩
    exact ⟨(n, g), hb, e.name, hn, e.hash, hg, rfl⟩

namespace Package
variable {σ : Type} (R : RecordGetters σ) (lib : σ) (m : Mem) (p : Package)

def version : Option String := cstr m (R.version m lib p.raw)

def desc : Option (Option String) := optCstr m (R.desc m lib p.raw)

def url : Option (Option String) := optCstr m (R.url m lib p.raw)

def packager : Option (Option String) := optCstr m (R.packager m lib p.raw)

def arch : Option (Option String) := optCstr m (R.arch m lib p.raw)

def base : Option (Option String) := optCstr m (R.base m lib p.raw)

def filename : Option (Option String) := optCstr m (R.filename m lib p.raw)

def buildDate : Int64 := R.builddate m lib p.raw

def installDate : Int64 := R.installdate m lib p.raw

def size : Int64 := R.size m lib p.raw

def installedSize : Int64 := R.isize m lib p.raw

def reason : PkgReason := .fromRaw (R.reason m lib p.raw)

def licenses : Option (List String) :=
  ((AlpmList.fromRaw (R.licenses m lib p.raw)).collect m cstr).map Prod.fst

def groups : Option (List String) :=
  ((AlpmList.fromRaw (R.groups m lib p.raw)).collect m cstr).map Prod.fst

def backup : Option (List BackupEntry) :=
  ((AlpmList.fromRaw (R.backup m lib p.raw)).collect m (BackupEntry.fromRaw R)).map Prod.fst

end Package

/-- The list at a pointer ends, and its nodes hold these items, in order. -/
def Shows {α : Type} (m : Mem) (raw : Ptr) (item : Ptr → α → Prop) (xs : List α) : Prop :=
  ∃ ns, Chain m.link 0 raw ns ∧ List.Forall₂ (fun n x => item n.2 x) ns xs

section Shows
variable {α : Type} {m : Mem} {raw : Ptr} {f : Mem → Ptr → Option α} {item : Ptr → α → Prop}

theorem collect_shows (hf : ∀ q x, f m q = some x ↔ item q x) (xs : List α) :
    ((AlpmList.fromRaw raw).collect m f).map Prod.fst = some xs ↔ Shows m raw item xs := by
  have hitem : ∀ ns : List (Ptr × Ptr),
      List.Forall₂ (fun n x => f m n.2 = some x) ns xs ↔
        List.Forall₂ (fun n x => item n.2 x) ns xs := fun ns => by simp only [hf]
  constructor
  · intro h
    obtain ⟨⟨ys, m'⟩, hys, rfl⟩ := Option.map_eq_some_iff.mp h
    obtain ⟨-, ns, hc, hns⟩ := collect_eq_some.mp hys
    exact ⟨ns, hc, (hitem ns).mp hns⟩
  · rintro ⟨ns, hc, hns⟩
    have hcollect := collect_eq_some.mpr ⟨rfl, ns, hc, (hitem ns).mpr hns⟩
    exact Option.map_eq_some_iff.mpr ⟨_, hcollect, rfl⟩

/-- What is shown is counted alike. -/
theorem Shows.len {xs : List α} (h : Shows m raw item xs) :
    (AlpmList.fromRaw raw).len m = some xs.length := by
  obtain ⟨ns, hc, hns⟩ := h
  have hitems : List.Forall₂ (fun n x => some n.2 = some x) ns (ns.map Prod.snd) := by
    rw [List.forall₂_map_right_iff]
    exact List.forall₂_same.mpr fun n _ => rfl
  have hwalk := hc.walk hitems (Mem.length_lt_fuel hc)
  rw [AlpmList.len, AlpmList.fromRaw, alpmListCount, hwalk, Option.map_some, List.length_map,
    hns.length_eq]

end Shows

theorem dependList_shows {m : Mem} {raw : Ptr} (ds : List Dependency) :
    dependList m raw = some ds ↔ Shows m raw (fun q d => d.CopyOf m q) ds :=
  collect_shows (fun _ _ => Dependency.fromRaw_eq_some) ds

/-- Whatever libalpm hands out as a package's list, the list is shown exactly where its nodes
come to an end and every one of them holds a record that can be read: entry by entry, in order,
each with the fields of its record, and as many as `len` counts. A list that goes round or leads
astray is never shown in part. The files, which are no list but an array, are shown alike. -/
theorem lists_exact {σ : Type} (G : PkgGetters σ) (R : RecordGetters σ) (lib : σ) (m : Mem)
    (p : Package) :
    (∀ xs, p.licenses R lib m = some xs ↔
      Shows m (R.licenses m lib p.raw) (fun q x => cstr m q = some x) xs) ∧
    (∀ xs, p.groups R lib m = some xs ↔
      Shows m (R.groups m lib p.raw) (fun q x => cstr m q = some x) xs) ∧
    (∀ xs, p.backup R lib m = some xs ↔
      Shows m (R.backup m lib p.raw) (fun q e => e.CopyOf R m q) xs) ∧
    (∀ getter ∈ [(p.depends G lib m, G.depends), (p.optdepends G lib m, G.optdepends),
        (p.conflicts G lib m, G.conflicts), (p.provides G lib m, G.provides),
        (p.replaces G lib m, G.replaces)],
      ∀ ds, getter.1 = some ds ↔
        Shows m (getter.2 m lib p.raw) (fun q d => d.CopyOf m q) ds) ∧
    (∀ fs, p.files G lib m = some fs ↔
      List.Forall₂ (fun f file => file.CopyOf m f) ((G.files m lib p.raw).getD []) fs) ∧
    ∀ (α : Type) (raw : Ptr) (item : Ptr → α → Prop) (xs : List α), Shows m raw item xs →
      (AlpmList.fromRaw raw).len m = some xs.length := by
  refine ⟨collect_shows fun _ _ => Iff.rfl, collect_shows fun _ _ => Iff.rfl,
    collect_shows fun _ _ => BackupEntry.fromRaw_eq_some, fun getter hg ds => ?_,
    fun _ => files_eq_some, fun α raw item xs h => h.len⟩
  simp only [List.mem_cons, List.not_mem_nil, or_false] at hg
  rcases hg with rfl | rfl | rfl | rfl | rfl <;> exact dependList_shows ds

end Nyx.Alpm
