import Nyx.Db

/-! `Handle`: an open libalpm context, its options, its databases and its queries. -/
namespace Nyx.Alpm
open Memory Text

structure Handle where
  raw : Ptr
  deriving DecidableEq

def pathToCstring (path : OsStr) : Except AlpmError CString :=
  match toStr path with
  | none => .error ⟨-1, "path is not valid UTF-8: " ++ fromUtf8Lossy path⟩
  | some s =>
    match CString.new (bytes s) with
    | none => .error ⟨-1, "path contains an interior NUL byte"⟩
    | some c => .ok c

/-- `free_depmissing`: the record and the strings it owns go back to libalpm together. -/
def freeDepmissing (item : Ptr) (m : Mem) : Mem := m.free item

/-- `free_conflict` -/
def freeConflict (item : Ptr) (m : Mem) : Mem := m.free item

namespace Handle
variable {σ : Type} (L : Libalpm σ)

/-- `Handle::initialize` -/
def init (root dbpath : OsStr) : Ffi σ (Except AlpmError Handle) :=
  match pathToCstring root with
  | .error e => return .error e
  | .ok rootC =>
    match pathToCstring dbpath with
    | .error e => return .error e
    | .ok dbpathC => do
      let rootP ← rootC.asPtr
      let dbpathP ← dbpathC.asPtr
      let r ← Ffi.call L (.alpmInitialize rootP dbpathP)
      Ffi.drop [rootP, dbpathP]
      return if r.ptr = 0 then .error (.fromErrno L r.err) else .ok ⟨r.ptr⟩

def lastError (h : Handle) : Ffi σ AlpmError := fun w =>
  some (.fromErrno L (L.errno h.raw w.lib), w)

def checkRc (h : Handle) (rc : Int32) : Ffi σ (Except AlpmError Unit) := do
  if rc < 0 then
    let e ← h.lastError L
    return .error e
  else return .ok ()

/-- The setters that take a path differ in the call they make only. -/
def setPath (h : Handle) (c : Ptr → AlpmCall) (path : OsStr) : Ffi σ (Except AlpmError Unit) :=
  match pathToCstring path with
  | .error e => return .error e
  | .ok pathC => do
    let p ← pathC.asPtr
    let r ← Ffi.call L (c p)
    let v ← h.checkRc L r.rc
    Ffi.drop [p]
    return v

def addCachedir (h : Handle) (path : OsStr) : Ffi σ (Except AlpmError Unit) :=
  h.setPath L (.alpmOptionAddCachedir h.raw) path

def setLogfile (h : Handle) (path : OsStr) : Ffi σ (Except AlpmError Unit) :=
  h.setPath L (.alpmOptionSetLogfile h.raw) path

def dbOrError (h : Handle) (raw : Ptr) : Ffi σ (Except AlpmError Db) := do
  if raw = 0 then
    let e ← h.lastError L
    return .error e
  else return .ok (Db.fromRaw raw)

def localDb (h : Handle) : Ffi σ (Except AlpmError Db) := do
  let r ← Ffi.call L (.alpmGetLocaldb h.raw)
  h.dbOrError L r.ptr

def registerSyncdb (h : Handle) (name : String) (siglevel : Int32) : Ffi σ (Except AlpmError Db) :=
  match CString.new (bytes name) with
  | none => return .error ⟨-1, "repository name contains NUL"⟩
  | some nameC => do
    let p ← nameC.asPtr
    let r ← Ffi.call L (.alpmRegisterSyncdb h.raw p siglevel)
    let v ← h.dbOrError L r.ptr
    Ffi.drop [p]
    return v

def syncDbs (h : Handle) : Ffi σ (List Db) := do
  let r ← Ffi.call L (.alpmGetSyncdbs h.raw)
  Ffi.collect (AlpmList.fromRaw r.ptr) fun _ _ p => some (Db.fromRaw p)

def updateDbs (h : Handle) (dbs : List Db) (force : Bool) : Ffi σ (Except AlpmError Unit) := do
  let chain ← Ffi.fromPtrs (dbs.map Db.raw)
  let r ← Ffi.call L (.alpmDbUpdate h.raw chain.asRaw force)
  let v ← h.checkRc L r.rc
  Ffi.drop chain.nodes
  return v

/-- Copies every record of a list out, then frees the records and the nodes. -/
def takeOwned {α : Type} (raw : Ptr) (f : σ → Mem → Ptr → Option α) (free : Ptr → Mem → Mem) :
    Ffi σ (List α) := do
  let out ← Ffi.collect (AlpmList.fromRaw raw) f
  Ffi.alpmListFreeInner raw free
  Ffi.alpmListFree raw
  return out

def checkDeps (h : Handle) (pkglist remove upgrade : List Package) (reverseDeps : Bool) :
    Ffi σ (List DepMissing) := do
  let pkglistChain ← Ffi.fromPtrs (pkglist.map Package.raw)
  let removeChain ← Ffi.fromPtrs (remove.map Package.raw)
  let upgradeChain ← Ffi.fromPtrs (upgrade.map Package.raw)
  let r ← Ffi.call L (.alpmCheckdeps h.raw pkglistChain.asRaw removeChain.asRaw
    upgradeChain.asRaw reverseDeps)
  let out ← takeOwned r.ptr (fun _ => DepMissing.fromRaw) freeDepmissing
  Ffi.drop (pkglistChain.nodes ++ removeChain.nodes ++ upgradeChain.nodes)
  return out

def checkConflicts (h : Handle) (pkglist : List Package) : Ffi σ (List Conflict) := do
  let pkglistChain ← Ffi.fromPtrs (pkglist.map Package.raw)
  let r ← Ffi.call L (.alpmCheckconflicts h.raw pkglistChain.asRaw)
  let out ← takeOwned r.ptr (Conflict.fromRaw L) freeConflict
  Ffi.drop pkglistChain.nodes
  return out

/-- The chain is built before the dependency string is looked at. -/
def findDbsSatisfier (h : Handle) (dbs : List Db) (depstring : String) :
    Ffi σ (Option Package) := do
  let dbsChain ← Ffi.fromPtrs (dbs.map Db.raw)
  match CString.new (bytes depstring) with
  | none =>
    Ffi.drop dbsChain.nodes
    return none
  | some depstringC =>
    let p ← depstringC.asPtr
    let r ← Ffi.call L (.alpmFindDbsSatisfier h.raw dbsChain.asRaw p)
    Ffi.drop (p :: dbsChain.nodes)
    return if r.ptr = 0 then none else some (Package.fromRaw r.ptr)

end Handle

end Nyx.Alpm
