import Mathlib.Tactic

/-! Bytes as lower-case hexadecimal digits, two for each byte, and the bytes read back. -/
namespace Nyx.Hex

/-- One of `0123456789abcdef`. -/
def IsDigit (c : Char) : Prop := ('0' ≤ c ∧ c ≤ '9') ∨ ('a' ≤ c ∧ c ≤ 'f')
  deriving Decidable

def value (c : Char) : Option ℕ :=
  if '0' ≤ c ∧ c ≤ '9' then some (c.toNat - '0'.toNat)
  else if 'a' ≤ c ∧ c ≤ 'f' then some (c.toNat - 'a'.toNat + 10)
  else none

/-- `format!("{b:02x}")` -/
def encodeByte (b : UInt8) : List Char := (Nat.toDigits 16 b.toNat).leftpad 2 '0'

def encode (bs : List UInt8) : List Char := bs.flatMap encodeByte

/-- Two digits at a time. -/
def decode : List Char → Option (List UInt8)
  | [] => some []
  | [_] => none
  | a :: b :: rest => do
    let hi ← value a
    let lo ← value b
    let bs ← decode rest
    return UInt8.ofNat (16 * hi + lo) :: bs

theorem isDigit_digitChar {n : ℕ} (h : n < 16) : IsDigit n.digitChar := by
  revert n
  decide

theorem value_digitChar {n : ℕ} (h : n < 16) : value n.digitChar = some n := by
  revert n
  decide

theorem exists_digitChar {c : Char} (h : IsDigit c) : ∃ n < 16, n.digitChar = c := by
  rcases h with ⟨hlo, hhi⟩ | ⟨hlo, hhi⟩
  · have hlo' : 48 ≤ c.toNat := UInt32.le_iff_toNat_le.mp hlo
    have hhi' : c.toNat ≤ 57 := UInt32.le_iff_toNat_le.mp hhi
    refine ⟨c.toNat - 48, by omega, ?_⟩
    rw [← Char.ofNat_toNat c]
    interval_cases c.toNat <;> rfl
  · have hlo' : 97 ≤ c.toNat := UInt32.le_iff_toNat_le.mp hlo
    have hhi' : c.toNat ≤ 102 := UInt32.le_iff_toNat_le.mp hhi
    refine ⟨c.toNat - 87, by omega, ?_⟩
    rw [← Char.ofNat_toNat c]
    interval_cases c.toNat <;> rfl

/-- A byte below 16 keeps its leading zero. -/
theorem encodeByte_eq (b : UInt8) :
    encodeByte b = [(b.toNat / 16).digitChar, (b.toNat % 16).digitChar] := by
  have hb := b.toNat_lt
  unfold encodeByte
  by_cases h : b.toNat < 16
  · rw [Nat.toDigits_of_lt_base h, Nat.div_eq_of_lt h, Nat.mod_eq_of_lt h]
    rfl
  · rw [Nat.toDigits_of_base_le (by decide) (by omega), Nat.toDigits_of_lt_base (by omega)]
    rfl

theorem encodeByte_ofNat {hi lo : ℕ} (hhi : hi < 16) (hlo : lo < 16) :
    encodeByte (UInt8.ofNat (16 * hi + lo)) = [hi.digitChar, lo.digitChar] := by
  have hval : (UInt8.ofNat (16 * hi + lo)).toNat = 16 * hi + lo := by
    simp only [UInt8.toNat_ofNat']
    omega
  rw [encodeByte_eq, hval, show (16 * hi + lo) / 16 = hi by omega,
    show (16 * hi + lo) % 16 = lo by omega]

theorem encode_cons (b : UInt8) (bs : List UInt8) :
    encode (b :: bs) = (b.toNat / 16).digitChar :: (b.toNat % 16).digitChar :: encode bs := by
  rw [encode, List.flatMap_cons, encodeByte_eq]
  rfl

theorem encode_length (bs : List UInt8) : (encode bs).length = 2 * bs.length := by
  induction bs with
  | nil => rfl
  | cons b bs ih =>
    rw [encode_cons, List.length_cons, List.length_cons, List.length_cons, ih]
    omega

theorem isDigit_encode {bs : List UInt8} : ∀ c ∈ encode bs, IsDigit c := by
  induction bs with
  | nil => exact fun c hc => absurd hc List.not_mem_nil
  | cons b bs ih =>
    have hb := b.toNat_lt
    rw [encode_cons, List.forall_mem_cons, List.forall_mem_cons]
    exact ⟨isDigit_digitChar (by omega), isDigit_digitChar (by omega), ih⟩

theorem decode_encode (bs : List UInt8) : decode (encode bs) = some bs := by
  induction bs with
  | nil => rfl
  | cons b bs ih =>
    have hb := b.toNat_lt
    have hval : 16 * (b.toNat / 16) + b.toNat % 16 = b.toNat := by omega
    rw [encode_cons, decode, value_digitChar (by omega), value_digitChar (by omega), ih]
    simp only [Option.bind_eq_bind, Option.bind_some, hval, UInt8.ofNat_toNat]
    rfl

theorem encode_injective {bs bs' : List UInt8} (h : encode bs = encode bs') : bs = bs' := by
  have hd := congrArg decode h
  rwa [decode_encode, decode_encode, Option.some.injEq] at hd

/-- Every even number of digits encodes some bytes. -/
theorem exists_encode {n : ℕ} {l : List Char} (hl : l.length = 2 * n) (h : ∀ c ∈ l, IsDigit c) :
    ∃ bs, bs.length = n ∧ encode bs = l := by
  induction n generalizing l with
  | zero => exact ⟨[], rfl, (List.eq_nil_of_length_eq_zero hl).symm⟩
  | succ n ih =>
    match l with
    | [] => simp at hl
    | [c] => simp at hl; omega
    | a :: b :: rest =>
      rw [List.forall_mem_cons, List.forall_mem_cons] at h
      obtain ⟨hi, hhi, rfl⟩ := exists_digitChar h.1
      obtain ⟨lo, hlo, rfl⟩ := exists_digitChar h.2.1
      obtain ⟨bs, hbs, rfl⟩ := ih (l := rest) (by simp at hl; omega) h.2.2
      refine ⟨UInt8.ofNat (16 * hi + lo) :: bs, by rw [List.length_cons, hbs], ?_⟩
      rw [encode, List.flatMap_cons, encodeByte_ofNat hhi hlo]
      rfl

end Nyx.Hex
