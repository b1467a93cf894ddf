import Nyx.Cstr

/-! Packages borrowed from libalpm, and the records of its queries copied out field by field. -/
namespace Nyx.Alpm
open Memory

structure Package where
  raw : Ptr
  deriving DecidableEq

inductive DepMod
  | any
  | eq
  | ge
  | le
  | gt
  | lt
  deriving DecidableEq

def DepMod.fromRaw : AlpmDepmod → DepMod
  | .eq => .eq
  | .ge => .ge
  | .le => .le
  | .gt => .gt
  | .lt => .lt
  | _ => .any

structure Dependency where
  name : String
  version : Option String
  desc : Option String
  modifier : DepMod
  deriving DecidableEq

structure DepMissing where
  target : String
  depend : Dependency
  causingPkg : Option String
  deriving DecidableEq

structure Conflict where
  package1 : String
  package2 : String
  reason : Dependency
  deriving DecidableEq

variable {σ : Type}

def Package.fromRaw (raw : Ptr) : Package := ⟨raw⟩

def Package.name (L : Libalpm σ) (lib : σ) (m : Mem) (p : Package) : Option String :=
  cstr m (L.pkgGetName m lib p.raw)

def Dependency.fromRaw (m : Mem) (raw : Ptr) : Option Dependency :=
  match m.read raw with
  | some (.depend name version desc mod_) => do
    let name ← cstr m name
    let version ← optCstr m version
    let desc ← optCstr m desc
    return ⟨name, version, desc, DepMod.fromRaw mod_⟩
  | _ => none

/-- The dependency has the fields of the record, field by field. -/
def Dependency.CopyOf (m : Mem) (raw : Ptr) (d : Dependency) : Prop :=
  ∃ name version desc mod_, m.read raw = some (.depend name version desc mod_) ∧
    cstr m name = some d.name ∧ optCstr m version = some d.version ∧
    optCstr m desc = some d.desc ∧ DepMod.fromRaw mod_ = d.modifier

theorem Dependency.fromRaw_of_copyOf {m : Mem} {raw : Ptr} {d : Dependency}
    (h : d.CopyOf m raw) : Dependency.fromRaw m raw = some d := by
  obtain ⟨n, v, e, k, hread, hn, hv, he, hk⟩ := h
  simp [Dependency.fromRaw, hread, hn, hv, he, hk]

/-- A record is read exactly as it is. -/
theorem Dependency.fromRaw_eq_some {m : Mem} {raw : Ptr} {d : Dependency} :
    Dependency.fromRaw m raw = some d ↔ d.CopyOf m raw := by
  constructor
  · intro h
    unfold Dependency.fromRaw at h
    split at h
    · rename_i name version desc mod_ hread
      simp only [Option.bind_eq_bind, Option.bind_eq_some_iff, Option.pure_def, Option.some.injEq] at h
      obtain ⟨n, hn, v, hv, e, he, rfl⟩ := h
      exact ⟨name, version, desc, mod_, hread, hn, hv, he, rfl⟩
    · cases h
  · exact Dependency.fromRaw_of_copyOf

def DepMissing.fromRaw (m : Mem) (raw : Ptr) : Option DepMissing :=
  match m.read raw with
  | some (.depmissing target depend causingpkg) => do
    let target ← cstr m target
    let depend ← Dependency.fromRaw m depend
    let causingPkg ← optCstr m causingpkg
    return ⟨target, depend, causingPkg⟩
  | _ => none

def DepMissing.CopyOf (m : Mem) (raw : Ptr) (d : DepMissing) : Prop :=
  ∃ target depend causingpkg, m.read raw = some (.depmissing target depend causingpkg) ∧
    cstr m target = some d.target ∧ d.depend.CopyOf m depend ∧
    optCstr m causingpkg = some d.causingPkg

theorem DepMissing.fromRaw_of_copyOf {m : Mem} {raw : Ptr} {d : DepMissing}
    (h : d.CopyOf m raw) : DepMissing.fromRaw m raw = some d := by
  obtain ⟨t, dep, c, hread, ht, hdep, hc⟩ := h
  simp [DepMissing.fromRaw, hread, ht, Dependency.fromRaw_of_copyOf hdep, hc]

def Conflict.fromRaw (L : Libalpm σ) (lib : σ) (m : Mem) (raw : Ptr) : Option Conflict :=
  match m.read raw with
  | some (.conflict package1 package2 reason) => do
    let package1 ← Package.name L lib m (.fromRaw package1)
    let package2 ← Package.name L lib m (.fromRaw package2)
    let reason ← Dependency.fromRaw m reason
    return ⟨package1, package2, reason⟩
  | _ => none

def Conflict.CopyOf (L : Libalpm σ) (lib : σ) (m : Mem) (raw : Ptr) (c : Conflict) : Prop :=
  ∃ package1 package2 reason, m.read raw = some (.conflict package1 package2 reason) ∧
    Package.name L lib m ⟨package1⟩ = some c.package1 ∧
    Package.name L lib m ⟨package2⟩ = some c.package2 ∧ c.reason.CopyOf m reason

theorem Conflict.fromRaw_of_copyOf {L : Libalpm σ} {lib : σ} {m : Mem} {raw : Ptr} {c : Conflict}
    (h : c.CopyOf L lib m raw) : Conflict.fromRaw L lib m raw = some c := by
  obtain ⟨p, q, r, hread, hp, hq, hr⟩ := h
  simp [Conflict.fromRaw, hread, Package.fromRaw, hp, hq, Dependency.fromRaw_of_copyOf hr]

end Nyx.Alpm
