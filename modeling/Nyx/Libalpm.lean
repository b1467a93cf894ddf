import Nyx.AlpmList
import Nyx.NyxError
import Nyx.Text

/-! libalpm as Nyx sees it through its C interface: a library with a state of its own that
answers calls over the shared memory. What it does is a parameter. -/
namespace Nyx.Alpm
open Memory Text Nyx.Core

/-- The calls that act on a handle or a database, by their C names and arguments. -/
inductive AlpmCall
  | alpmInitialize (root dbpath : Ptr)
  | alpmOptionAddCachedir (handle path : Ptr)
  | alpmOptionSetLogfile (handle path : Ptr)
  | alpmGetLocaldb (handle : Ptr)
  | alpmRegisterSyncdb (handle name : Ptr) (level : Int32)
  | alpmGetSyncdbs (handle : Ptr)
  | alpmDbUpdate (handle dbs : Ptr) (force : Bool)
  | alpmCheckdeps (handle pkglist remove upgrade : Ptr) (reversedeps : Bool)
  | alpmCheckconflicts (handle pkglist : Ptr)
  | alpmFindDbsSatisfier (handle dbs depstring : Ptr)
  | alpmDbGetPkg (db name : Ptr)
  | alpmDbGetPkgcache (db : Ptr)
  | alpmDbSearch (db needles : Ptr)
  deriving DecidableEq

/-- What comes back: a pointer returned or stored in an out parameter, a return code, and
the errno `alpm_initialize` stores. -/
structure AlpmReply where
  ptr : Ptr
  rc : Int32
  err : UInt32

/-- An answered call, with the memory it was made in and the memory it left. -/
structure Event where
  call : AlpmCall
  before : Mem
  reply : AlpmReply
  after : Mem

structure Libalpm (σ : Type) where
  call : AlpmCall → Mem → σ → AlpmReply × Mem × σ
  /-- `alpm_errno` of a handle -/
  errno : Ptr → σ → UInt32
  /-- `alpm_strerror`: the bytes of a static string, or null -/
  strerror : UInt32 → Option Bytes
  /-- `alpm_pkg_get_name` -/
  pkgGetName : Mem → σ → Ptr → Ptr

/-- The memory, the state of the library, and the calls answered so far, latest first. -/
structure World (σ : Type) where
  mem : Mem
  lib : σ
  log : List Event

def World.answered {σ : Type} (L : Libalpm σ) (w : World σ) (c : AlpmCall) : World σ :=
  ⟨(L.call c w.mem w.lib).2.1, (L.call c w.mem w.lib).2.2,
    ⟨c, w.mem, (L.call c w.mem w.lib).1, (L.call c w.mem w.lib).2.1⟩ :: w.log⟩

/-- Rust drops what a function owns when it returns. -/
def World.drop {σ : Type} (w : World σ) (ps : List Ptr) : World σ := { w with mem := w.mem.drop ps }

/-- Code that shares the world with libalpm; none is undefined behaviour. -/
abbrev Ffi (σ : Type) := StateT (World σ) Option

namespace Ffi
variable {σ α β : Type}

def call (L : Libalpm σ) (c : AlpmCall) : Ffi σ AlpmReply := fun w =>
  some ((L.call c w.mem w.lib).1, w.answered L c)

def act (f : Mem → Option (α × Mem)) : Ffi σ α := fun w =>
  (f w.mem).map fun r => (r.1, { w with mem := r.2 })

/-- `BorrowedList::from_ptrs` -/
def fromPtrs (ptrs : List Ptr) : Ffi σ BorrowedList :=
  act fun m => some (BorrowedList.fromPtrs m ptrs)

/-- `list.iter().map(f).collect()`, where f may ask the library for what it reads. -/
def collect (l : AlpmList) (f : σ → Mem → Ptr → Option α) : Ffi σ (List α) := fun w =>
  (l.collect w.mem (f w.lib)).map fun r => (r.1, { w with mem := r.2 })

/-- `alpm_list_free` -/
def alpmListFree (list : Ptr) : Ffi σ Unit := act fun m => (Memory.alpmListFree m list).map ((), ·)

/-- `alpm_list_free_inner` -/
def alpmListFreeInner (list : Ptr) (f : Ptr → Mem → Mem) : Ffi σ Unit :=
  act fun m => (Memory.alpmListFreeInner m list f).map ((), ·)

def drop (ps : List Ptr) : Ffi σ Unit := fun w => some ((), w.drop ps)

@[simp] theorem bind_apply (x : Ffi σ α) (f : α → Ffi σ β) (w : World σ) :
    (x >>= f) w = (x w).bind fun p => f p.1 p.2 := rfl

@[simp] theorem pure_apply (a : α) (w : World σ) : (pure a : Ffi σ α) w = some (a, w) := rfl

@[simp] theorem call_apply (L : Libalpm σ) (c : AlpmCall) (w : World σ) :
    call L c w = some ((L.call c w.mem w.lib).1, w.answered L c) := rfl

@[simp] theorem act_apply (f : Mem → Option (α × Mem)) (w : World σ) :
    act f w = (f w.mem).map fun r => (r.1, { w with mem := r.2 }) := rfl

@[simp] theorem fromPtrs_apply (ptrs : List Ptr) (w : World σ) :
    (fromPtrs ptrs : Ffi σ BorrowedList) w = some ((BorrowedList.fromPtrs w.mem ptrs).1,
      { w with mem := (BorrowedList.fromPtrs w.mem ptrs).2 }) := rfl

@[simp] theorem collect_apply (l : AlpmList) (f : σ → Mem → Ptr → Option α) (w : World σ) :
    collect l f w = (l.collect w.mem (f w.lib)).map fun r => (r.1, { w with mem := r.2 }) := rfl

@[simp] theorem drop_apply (ps : List Ptr) (w : World σ) :
    (drop ps : Ffi σ Unit) w = some ((), w.drop ps) := rfl

theorem bind_of_some {x : Ffi σ α} {f : α → Ffi σ β} {w v : World σ} {a : α}
    (h : x w = some (a, v)) : (x >>= f) w = f a v := by
  rw [bind_apply, h, Option.bind_some]

theorem bind_inv {x : Ffi σ α} {f : α → Ffi σ β} {w w' : World σ} {b : β}
    (h : (x >>= f) w = some (b, w')) : ∃ a v, x w = some (a, v) ∧ f a v = some (b, w') := by
  rw [bind_apply] at h
  cases hx : x w with
  | none =>
    rw [hx] at h
    cases h
  | some r =>
    rw [hx] at h
    exact ⟨r.1, r.2, rfl, h⟩

/-- Code that works on the shared memory only, and makes no call. -/
def Silent (x : Ffi σ α) : Prop :=
  ∀ {w w' : World σ} {a : α}, x w = some (a, w') → w'.lib = w.lib ∧ w'.log = w.log

theorem silent_pure (a : α) : Silent (pure a : Ffi σ α) := by
  intro w w' b h
  obtain ⟨-, rfl⟩ := Prod.mk.inj (Option.some.inj h)
  exact ⟨rfl, rfl⟩

theorem silent_bind {x : Ffi σ α} {f : α → Ffi σ β} (hx : Silent x) (hf : ∀ a, Silent (f a)) :
    Silent (x >>= f) := by
  intro w w' b h
  obtain ⟨a, v, hv, hb⟩ := bind_inv h
  have h1 := hx hv
  have h2 := hf a hb
  exact ⟨h2.1.trans h1.1, h2.2.trans h1.2⟩

theorem silent_act (f : Mem → Option (α × Mem)) : Silent (act f : Ffi σ α) := by
  intro w w' a h
  obtain ⟨r, -, hr⟩ := Option.map_eq_some_iff.mp h
  obtain ⟨-, rfl⟩ := Prod.mk.inj hr
  exact ⟨rfl, rfl⟩

theorem silent_collect (l : AlpmList) (f : σ → Mem → Ptr → Option α) : Silent (collect l f) := by
  intro w w' a h
  exact silent_act (fun m => l.collect m (f w.lib)) h

theorem silent_drop (ps : List Ptr) : Silent (drop ps : Ffi σ Unit) := by
  intro w w' a h
  obtain ⟨-, rfl⟩ := Prod.mk.inj (Option.some.inj h)
  exact ⟨rfl, rfl⟩

end Ffi

/-- A failure of libalpm, or of the checks made before it is called. -/
structure AlpmError where
  errno : Int32
  message : String
  deriving DecidableEq

namespace AlpmError
variable {σ : Type}

def fromErrno (L : Libalpm σ) (errno : UInt32) : AlpmError :=
  let message := match L.strerror errno with
    | none => "unknown libalpm error (errno " ++ toString errno.toNat ++ ")"
    | some s => fromUtf8Lossy s
  ⟨errno.toInt32, message⟩

/-- `impl From<AlpmError> for nyx_core::NyxError` -/
def toNyxError (err : AlpmError) : NyxError AlpmError :=
  NyxError.withSource .alpm err.message err

end AlpmError

end Nyx.Alpm
