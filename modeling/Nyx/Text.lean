import Nyx.Utf8

/-! Rust's string types over one another: `String` is well-formed UTF-8, an `OsStr` any
bytes, decimal numbers are what `format!` prints, and the environment maps names to values. -/
namespace Nyx.Text

abbrev OsStr := List UInt8

/-- `str::as_bytes` -/
def bytes (s : String) : OsStr := Utf8.encode s.toList

/-- `OsStr::to_str` -/
def toStr (n : OsStr) : Option String := (Utf8.strict n).map String.ofList

/-- `String::from_utf8_lossy` -/
def fromUtf8Lossy (n : OsStr) : String := String.ofList (Utf8.lossy n)

def decimal (n : ℕ) : OsStr := Utf8.encode (Nat.toDigits 10 n)

/-- `str::is_char_boundary` -/
def isCharBoundary (s : OsStr) (i : ℕ) : Prop :=
  i = 0 ∨ i = s.length ∨ (s[i]?.any fun b => ¬Utf8.Continues b)
  deriving Decidable

/-- `&s[i..j]`; none where it panics. -/
def slice (s : String) (i j : ℕ) : Option String :=
  if i ≤ j ∧ isCharBoundary (bytes s) i ∧ isCharBoundary (bytes s) j then
    toStr (((bytes s).take j).drop i)
  else none

abbrev Env := String → Option OsStr

inductive VarError
  | notPresent
  | notUnicode (value : OsStr)
  deriving DecidableEq

/-- `std::env::var_os` -/
def varOs (env : Env) (key : String) : Option OsStr := env key

/-- `std::env::var` -/
def var (env : Env) (key : String) : Except VarError String :=
  match varOs env key with
  | none => .error .notPresent
  | some v =>
    match toStr v with
    | none => .error (.notUnicode v)
    | some s => .ok s

theorem toStr_bytes (s : String) : toStr (bytes s) = some s := by
  simp [toStr, bytes, Utf8.strict_encode]

theorem fromUtf8Lossy_bytes (s : String) : fromUtf8Lossy (bytes s) = s := by
  simp [fromUtf8Lossy, bytes, Utf8.lossy_encode]

theorem bytes_of_toStr {n : OsStr} {s : String} (h : toStr n = some s) : bytes s = n := by
  obtain ⟨l, hl, rfl⟩ := Option.map_eq_some_iff.mp h
  rw [bytes, String.toList_ofList, Utf8.encode_strict hl]

theorem fromUtf8Lossy_of_toStr {n : OsStr} {s : String} (h : toStr n = some s) :
    fromUtf8Lossy n = s := by
  rw [← bytes_of_toStr h, fromUtf8Lossy_bytes]

/-- Ill-formed input shows as a replacement character. -/
theorem toStr_of_fromUtf8Lossy {n : OsStr} (h : Char.ofNat 0xFFFD ∉ (fromUtf8Lossy n).toList) :
    (toStr n).isSome := by
  have hall : (Utf8.chunks n).all Option.isSome := by
    rw [List.all_eq_true]
    intro c hc
    cases c with
    | some c => rfl
    | none =>
      refine absurd ?_ h
      rw [fromUtf8Lossy, String.toList_ofList]
      exact List.mem_map_of_mem (f := (·.getD (Char.ofNat 0xFFFD))) hc
  simp [toStr, Utf8.strict, hall]

theorem var_eq_ok {env : Env} {key s : String} :
    var env key = .ok s ↔ env key = some (bytes s) := by
  unfold var varOs
  cases hv : env key with
  | none => simp
  | some v =>
    cases hs : toStr v with
    | none =>
      have hne : v ≠ bytes s := by
        rintro rfl
        simp [toStr_bytes] at hs
      simp [hs, hne]
    | some u =>
      have hu : bytes u = v := bytes_of_toStr hs
      subst hu
      have hinj : u = s ↔ bytes u = bytes s :=
        ⟨congrArg bytes, fun h => Option.some.inj (by rw [← toStr_bytes u, h, toStr_bytes])⟩
      simp [toStr_bytes, hinj]

theorem decimal_injective {m n : ℕ} (h : decimal m = decimal n) : m = n := by
  have hd : Nat.toDigits 10 m = Nat.toDigits 10 n := by
    have hs := congrArg Utf8.strict h
    rwa [decimal, decimal, Utf8.strict_encode, Utf8.strict_encode, Option.some.injEq] at hs
  calc
    m = Nat.ofDigitChars 10 (Nat.toDigits 10 m) 0 := Nat.ofDigitChars_ten_toDigits.symm
    _ = Nat.ofDigitChars 10 (Nat.toDigits 10 n) 0 := by rw [hd]
    _ = n := Nat.ofDigitChars_ten_toDigits

theorem decimal_digit {n : ℕ} {b : UInt8} (h : b ∈ decimal n) : 0x30 ≤ b ∧ b ≤ 0x39 := by
  obtain ⟨c, hc, hb⟩ := List.mem_flatMap.mp h
  have hd := Nat.isDigit_of_mem_toDigits (by decide) (by decide) hc
  simp only [Char.isDigit, Bool.and_eq_true, decide_eq_true_eq] at hd
  have hlo : 0x30 ≤ c.toNat := UInt32.le_iff_toNat_le.mp hd.1
  have hhi : c.toNat ≤ 0x39 := UInt32.le_iff_toNat_le.mp hd.2
  rw [Utf8.encodeChar_ascii (by omega), List.mem_singleton] at hb
  subst hb
  have hval : (UInt8.ofNat c.toNat).toNat = c.toNat := Utf8.toNat_byte (by omega)
  rw [UInt8.le_iff_toNat_le, UInt8.le_iff_toNat_le, hval]
  exact ⟨hlo, hhi⟩

section Slice
variable {s : String} (hs : ∀ c ∈ s.toList, c.toNat < 0x80)
include hs

theorem bytes_length_ascii : (bytes s).length = s.toList.length := by
  rw [bytes, Utf8.encode_ascii hs, List.length_map]

theorem isCharBoundary_ascii {i : ℕ} (hi : i ≤ s.toList.length) : isCharBoundary (bytes s) i := by
  rcases hi.eq_or_lt with rfl | hlt
  · exact Or.inr (Or.inl (bytes_length_ascii hs).symm)
  · refine Or.inr (Or.inr ?_)
    have hc := hs _ (List.getElem_mem hlt)
    have hval := Utf8.toNat_byte (n := s.toList[i].toNat) (by omega)
    rw [bytes, Utf8.encode_ascii hs, List.getElem?_map, List.getElem?_eq_getElem hlt]
    simp only [Option.map_some, Option.any_some, decide_eq_true_eq, Utf8.Continues, hval]
    omega

/-- No place in ASCII text is inside a character. -/
theorem slice_ascii {i j : ℕ} (hij : i ≤ j) (hj : j ≤ s.toList.length) :
    slice s i j = some (String.ofList ((s.toList.take j).drop i)) := by
  have hcut : ((bytes s).take j).drop i = bytes (String.ofList ((s.toList.take j).drop i)) := by
    have hpart : ∀ c ∈ (s.toList.take j).drop i, c.toNat < 0x80 := fun c hc =>
      hs c (List.mem_of_mem_take (List.mem_of_mem_drop hc))
    rw [bytes, bytes, String.toList_ofList, Utf8.encode_ascii hs, Utf8.encode_ascii hpart,
      List.map_drop, List.map_take]
  rw [slice, if_pos ⟨hij, isCharBoundary_ascii hs (hij.trans hj), isCharBoundary_ascii hs hj⟩, hcut,
    toStr_bytes]

end Slice

end Nyx.Text
