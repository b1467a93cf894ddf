import Nyx.Pkg

/-! What a package lists: its five kinds of dependency entries, and the files it owns. -/
namespace Nyx.Alpm
open Linked Memory

/-- `alpm_file_t` -/
structure AlpmFile where
  name : Ptr
  size : Int64
  mode : UInt32

/-- libalpm's list getters. A file list is an array: null, or as many files as it counts. -/
structure PkgGetters (σ : Type) where
  depends : Mem → σ → Ptr → Ptr
  optdepends : Mem → σ → Ptr → Ptr
  conflicts : Mem → σ → Ptr → Ptr
  provides : Mem → σ → Ptr → Ptr
  replaces : Mem → σ → Ptr → Ptr
  files : Mem → σ → Ptr → Option (List AlpmFile)

/-- A library whose packages list nothing. -/
def PkgGetters.empty (σ : Type) : PkgGetters σ where
  depends _ _ _ := 0
  optdepends _ _ _ := 0
  conflicts _ _ _ := 0
  provides _ _ _ := 0
  replaces _ _ _ := 0
  files _ _ _ := none

structure PackageFile where
  name : String
  size : Int64
  mode : UInt32
  deriving DecidableEq

def PackageFile.fromRaw (m : Mem) (f : AlpmFile) : Option PackageFile :=
  (cstr m f.name).map fun name => ⟨name, f.size, f.mode⟩

def dependList (m : Mem) (raw : Ptr) : Option (List Dependency) :=
  ((AlpmList.fromRaw raw).collect m Dependency.fromRaw).map Prod.fst

namespace Package
variable {σ : Type} (G : PkgGetters σ) (lib : σ) (m : Mem) (p : Package)

def depends : Option (List Dependency) := dependList m (G.depends m lib p.raw)

def optdepends : Option (List Dependency) := dependList m (G.optdepends m lib p.raw)

def conflicts : Option (List Dependency) := dependList m (G.conflicts m lib p.raw)

def provides : Option (List Dependency) := dependList m (G.provides m lib p.raw)

def replaces : Option (List Dependency) := dependList m (G.replaces m lib p.raw)

def files : Option (List PackageFile) :=
  match G.files m lib p.raw with
  | none => some []
  | some filelist => filelist.mapM (PackageFile.fromRaw m)

end Package

theorem mapM_eq_some {α β : Type} {f : α → Option β} {xs : List α} {ys : List β} :
    xs.mapM f = some ys ↔ List.Forall₂ (fun x y => f x = some y) xs ys := by
  induction xs generalizing ys with
  | nil =>
    rw [List.mapM_nil, List.forall₂_nil_left_iff, Option.pure_def, Option.some.injEq]
    exact eq_comm
  | cons x xs ih =>
    simp only [List.mapM_cons, Option.bind_eq_bind, Option.bind_eq_some_iff, Option.pure_def,
      Option.some.injEq, List.forall₂_cons_left_iff]
    constructor
    · rintro ⟨y, hy, ys, hys, rfl⟩
      exact ⟨y, ys, hy, ih.mp hys, rfl⟩
    · rintro ⟨y, ys, hy, hys, rfl⟩
      exact ⟨y, hy, ys, ih.mpr hys, rfl⟩

/-- The file has the fields of the record. -/
def PackageFile.CopyOf (m : Mem) (f : AlpmFile) (file : PackageFile) : Prop :=
  cstr m f.name = some file.name ∧ file.size = f.size ∧ file.mode = f.mode

theorem PackageFile.fromRaw_eq_some {m : Mem} {f : AlpmFile} {file : PackageFile} :
    PackageFile.fromRaw m f = some file ↔ file.CopyOf m f := by
  rw [PackageFile.fromRaw, Option.map_eq_some_iff]
  constructor
  · rintro ⟨name, hname, rfl⟩
    exact ⟨hname, rfl, rfl⟩
  · rintro ⟨hname, hsize, hmode⟩
    exact ⟨file.name, hname, by rw [← hsize, ← hmode]⟩

/-- Every file of an array is read, and they come in its order. -/
theorem files_forall₂ {σ : Type} {G : PkgGetters σ} {lib : σ} {m : Mem} {p : Package}
    {filelist : List AlpmFile} {fs : List PackageFile} (h : G.files m lib p.raw = some filelist)
    (hfs : p.files G lib m = some fs) :
    List.Forall₂ (fun f file => PackageFile.fromRaw m f = some file) filelist fs := by
  simp only [Package.files, h] at hfs
  exact mapM_eq_some.mp hfs

/-- Where there is no array, there are no files. -/
theorem files_eq_some {σ : Type} {G : PkgGetters σ} {lib : σ} {m : Mem} {p : Package}
    {fs : List PackageFile} : p.files G lib m = some fs ↔
      List.Forall₂ (fun f file => file.CopyOf m f) ((G.files m lib p.raw).getD []) fs := by
  have hcopy : ∀ filelist : List AlpmFile, filelist.mapM (PackageFile.fromRaw m) = some fs ↔
      List.Forall₂ (fun f file => file.CopyOf m f) filelist fs := by
    intro filelist
    simp only [mapM_eq_some, PackageFile.fromRaw_eq_some]
  rw [Package.files]
  split
  · rename_i hnull
    rw [hnull]
    exact hcopy []
  · rename_i filelist hfiles
    rw [hfiles]
    exact hcopy filelist

end Nyx.Alpm
