import Nyx.Pkg

/-! `Db`: the queries on one package database. -/
namespace Nyx.Alpm
open Memory Text

structure Db where
  raw : Ptr
  deriving DecidableEq

namespace Db
variable {σ : Type} (L : Libalpm σ)

def fromRaw (raw : Ptr) : Db := ⟨raw⟩

def getPkg (db : Db) (name : String) : Ffi σ (Option Package) :=
  match CString.new (bytes name) with
  | none => return none
  | some nameC => do
    let nameP ← nameC.asPtr
    let r ← Ffi.call L (.alpmDbGetPkg db.raw nameP)
    Ffi.drop [nameP]
    return if r.ptr = 0 then none else some (Package.fromRaw r.ptr)

def packages (db : Db) : Ffi σ (List Package) := do
  let r ← Ffi.call L (.alpmDbGetPkgcache db.raw)
  Ffi.collect (AlpmList.fromRaw r.ptr) fun _ _ p => some (Package.fromRaw p)

/-- What `search` makes of the reply: the nodes of a result are freed once its packages are
copied out, and nothing of a failed call is looked at. -/
def takeResult (r : AlpmReply) : Ffi σ (Except AlpmError (List Package)) :=
  if r.rc ≠ 0 then return .error ⟨-1, "alpm_db_search failed"⟩
  else do
    let packages ← Ffi.collect (AlpmList.fromRaw r.ptr) fun _ _ p => some (Package.fromRaw p)
    Ffi.alpmListFree r.ptr
    return .ok packages

/-- The needles are all converted before the first of them is put into a chain. -/
def search (db : Db) (needles : List String) : Ffi σ (Except AlpmError (List Package)) :=
  match needles.mapM fun s => CString.new (bytes s) with
  | none => return .error ⟨-1, "search needle contains an interior NUL byte"⟩
  | some needleCstrings => do
    let ptrs ← Ffi.act fun m => some (m.allocAll (needleCstrings.map CString.buffer))
    let chain ← Ffi.fromPtrs ptrs
    let r ← Ffi.call L (.alpmDbSearch db.raw chain.asRaw)
    let v ← takeResult r
    Ffi.drop (ptrs ++ chain.nodes)
    return v

end Db

end Nyx.Alpm
