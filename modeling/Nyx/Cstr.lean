import Nyx.Libalpm

/-! Strings on their way to and from libalpm: `CString` on the way in, `opt_cstr` and `cstr`
on the way out. -/
namespace Nyx.Alpm
open Memory Text

/-- A C string that Rust owns: its bytes without the terminating NUL. -/
structure CString where
  bytes : Bytes
  noNul : 0 ∉ bytes

namespace CString

/-- `CString::new`; the error carries no more than that there was a NUL. -/
def new (s : Bytes) : Option CString := if h : 0 ∈ s then none else some ⟨s, h⟩

def buffer (c : CString) : Cell := .chars (c.bytes ++ [0])

/-- `as_ptr`, for a string whose buffer is put into the shared memory there. -/
def asPtr {σ : Type} (c : CString) : Ffi σ Ptr := Ffi.act fun m => some (m.alloc c.buffer)

theorem new_eq_none {s : Bytes} : new s = none ↔ 0 ∈ s := by
  unfold new
  split_ifs with hs <;> simp [hs]

end CString

/-- `opt_cstr` -/
def optCstr (m : Mem) (ptr : Ptr) : Option (Option String) :=
  if ptr = 0 then some none else (m.str ptr).map fun s => some (fromUtf8Lossy s)

/-- `cstr`: a null pointer reads as the empty string. -/
def cstr (m : Mem) (ptr : Ptr) : Option String := (optCstr m ptr).map (·.getD "")

theorem optCstr_congr {m m' : Mem} {p : Ptr} (h : m'.read p = m.read p) :
    optCstr m' p = optCstr m p := by
  simp [optCstr, Mem.str_congr h]

/-- A C string is read back up to its terminating NUL, which is its only one. -/
theorem str_buffer {m : Mem} {p : Ptr} {c : CString} (h : m.read p = some c.buffer) :
    m.str p = some c.bytes := by
  have htake : (c.bytes ++ [0]).takeWhile (· ≠ 0) = c.bytes := by
    rw [List.takeWhile_append_of_pos]
    · simp
    · intro b hb
      exact decide_eq_true fun h0 => c.noNul (h0 ▸ hb)
  simp only [Mem.str, h, CString.buffer]
  rw [if_pos (by simp), htake]

theorem optCstr_buffer {m : Mem} {p : Ptr} {c : CString} {s : String} (hs : c.bytes = bytes s)
    (h : m.read p = some c.buffer) : optCstr m p = some (some s) := by
  have hp := (Mem.read_lt h).1
  simp [optCstr, hp, str_buffer h, hs, fromUtf8Lossy_bytes]

end Nyx.Alpm
