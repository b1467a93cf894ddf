import Mathlib.Tactic

/-! UTF-8 over byte lists: a decoder that marks every maximal ill-formed piece, and its
laws against the encoder of the core library. -/
namespace Nyx.Utf8

/-- Length announced by a lead byte; 0 for a byte no sequence starts with. -/
def width (a : UInt8) : ℕ :=
  if a.toNat < 0x80 then 1 else if a.toNat < 0xC2 then 0 else if a.toNat < 0xE0 then 2
  else if a.toNat < 0xF0 then 3 else if a.toNat < 0xF5 then 4 else 0

def Continues (b : UInt8) : Prop := 0x80 ≤ b.toNat ∧ b.toNat ≤ 0xBF
  deriving Decidable

/-- The second byte excludes overlong forms, surrogates and values past U+10FFFF. -/
def Second (a b : UInt8) : Prop :=
  Continues b ∧ (a.toNat = 0xE0 → 0xA0 ≤ b.toNat) ∧ (a.toNat = 0xED → b.toNat ≤ 0x9F) ∧
    (a.toNat = 0xF0 → 0x90 ≤ b.toNat) ∧ (a.toNat = 0xF4 → b.toNat ≤ 0x8F)
  deriving Decidable

def low (b : UInt8) : ℕ := b.toNat % 64

/-- The characters of a byte string, with none for each maximal piece that starts no
well-formed sequence; decoding resumes right after such a piece. -/
def chunks : List UInt8 → List (Option Char)
  | [] => []
  | a :: s =>
    if width a = 0 then none :: chunks s
    else if width a = 1 then some (Char.ofNat a.toNat) :: chunks s
    else match s with
      | [] => [none]
      | b :: s' =>
        if ¬Second a b then none :: chunks (b :: s')
        else if width a = 2 then some (Char.ofNat (a.toNat % 32 * 64 + low b)) :: chunks s'
        else match s' with
          | [] => [none]
          | c :: s'' =>
            if ¬Continues c then none :: chunks (c :: s'')
            else if width a = 3 then
              some (Char.ofNat (a.toNat % 16 * 4096 + low b * 64 + low c)) :: chunks s''
            else match s'' with
              | [] => [none]
              | d :: s''' =>
                if ¬Continues d then none :: chunks (d :: s''')
                else some (Char.ofNat (a.toNat % 8 * 262144 + low b * 4096 + low c * 64 + low d)) :: chunks s'''

theorem chunks_one {a : UInt8} (h : width a = 1) (s : List UInt8) :
    chunks (a :: s) = some (Char.ofNat a.toNat) :: chunks s := by
  rw [chunks.eq_def]
  simp [h]

theorem chunks_two {a b : UInt8} (h : width a = 2) (hb : Second a b) (s : List UInt8) :
    chunks (a :: b :: s) = some (Char.ofNat (a.toNat % 32 * 64 + low b)) :: chunks s := by
  rw [chunks.eq_def]
  simp [h, hb]

theorem chunks_three {a b c : UInt8} (h : width a = 3) (hb : Second a b) (hc : Continues c)
    (s : List UInt8) : chunks (a :: b :: c :: s) =
      some (Char.ofNat (a.toNat % 16 * 4096 + low b * 64 + low c)) :: chunks s := by
  rw [chunks.eq_def]
  simp [h, hb, hc]

theorem chunks_four {a b c d : UInt8} (h : width a = 4) (hb : Second a b) (hc : Continues c)
    (hd : Continues d) (s : List UInt8) : chunks (a :: b :: c :: d :: s) =
      some (Char.ofNat (a.toNat % 8 * 262144 + low b * 4096 + low c * 64 + low d)) :: chunks s := by
  rw [chunks.eq_def]
  simp [h, hb, hc, hd]

theorem toNat_byte {n : ℕ} (h : n < 256) : (UInt8.ofNat n).toNat = n := by
  simp only [UInt8.toNat_ofNat']
  omega

theorem width_one {a : UInt8} : width a = 1 ↔ a.toNat < 0x80 := by
  unfold width
  constructor
  · intro h
    split_ifs at h <;> omega
  · intro h
    rw [if_pos h]

theorem width_two {a : UInt8} : width a = 2 ↔ 0xC2 ≤ a.toNat ∧ a.toNat < 0xE0 := by
  unfold width
  constructor
  · intro h
    split_ifs at h <;> omega
  · intro h
    split_ifs <;> omega

theorem width_three {a : UInt8} : width a = 3 ↔ 0xE0 ≤ a.toNat ∧ a.toNat < 0xF0 := by
  unfold width
  constructor
  · intro h
    split_ifs at h <;> omega
  · intro h
    split_ifs <;> omega

theorem width_four {a : UInt8} : width a = 4 ↔ 0xF0 ≤ a.toNat ∧ a.toNat < 0xF5 := by
  unfold width
  constructor
  · intro h
    split_ifs at h <;> omega
  · intro h
    split_ifs <;> omega

theorem width_le {a : UInt8} : width a ≤ 4 := by
  unfold width
  split_ifs <;> omega

/-- The decoder reads back one encoded character, whatever follows it. -/
theorem chunks_encodeChar (c : Char) (s : List UInt8) :
    chunks (String.utf8EncodeChar c ++ s) = some c :: chunks s := by
  have hc : Char.ofNat c.val.toNat = c := Char.ofNat_toNat c
  have hv : c.val.toNat < 0xD800 ∨ 0xDFFF < c.val.toNat ∧ c.val.toNat < 0x110000 := c.valid
  unfold String.utf8EncodeChar
  generalize c.val.toNat = v at hc hv
  simp only
  split_ifs with h1 h2 h3
  · have ha := @toNat_byte v (by omega)
    rw [List.singleton_append, chunks_one (width_one.mpr (by omega)), ha, hc]
  · have ha := @toNat_byte (v / 64 % 32 + 192) (by omega)
    have hb := @toNat_byte (v % 64 + 128) (by omega)
    have hsecond : Second (UInt8.ofNat (v / 64 % 32 + 192)) (UInt8.ofNat (v % 64 + 128)) := by
      simp only [Second, Continues, ha, hb]
      omega
    have hval : v = (v / 64 % 32 + 192) % 32 * 64 + (v % 64 + 128) % 64 := by omega
    simp only [List.cons_append, List.nil_append]
    rw [chunks_two (width_two.mpr (by omega)) hsecond, low, ha, hb, ← hval, hc]
  · have ha := @toNat_byte (v / 4096 % 16 + 224) (by omega)
    have hb := @toNat_byte (v / 64 % 64 + 128) (by omega)
    have hd := @toNat_byte (v % 64 + 128) (by omega)
    have hsecond : Second (UInt8.ofNat (v / 4096 % 16 + 224)) (UInt8.ofNat (v / 64 % 64 + 128)) := by
      simp only [Second, Continues, ha, hb]
      omega
    have hthird : Continues (UInt8.ofNat (v % 64 + 128)) := by
      simp only [Continues, hd]
      omega
    have hval : v = (v / 4096 % 16 + 224) % 16 * 4096 + (v / 64 % 64 + 128) % 64 * 64 +
        (v % 64 + 128) % 64 := by omega
    simp only [List.cons_append, List.nil_append]
    rw [chunks_three (width_three.mpr (by omega)) hsecond hthird, low, low, ha, hb, hd, ← hval, hc]
  · have ha := @toNat_byte (v / 262144 % 8 + 240) (by omega)
    have hb := @toNat_byte (v / 4096 % 64 + 128) (by omega)
    have hd := @toNat_byte (v / 64 % 64 + 128) (by omega)
    have he := @toNat_byte (v % 64 + 128) (by omega)
    have hsecond : Second (UInt8.ofNat (v / 262144 % 8 + 240))
        (UInt8.ofNat (v / 4096 % 64 + 128)) := by
      simp only [Second, Continues, ha, hb]
      omega
    have hthird : Continues (UInt8.ofNat (v / 64 % 64 + 128)) := by
      simp only [Continues, hd]
      omega
    have hfourth : Continues (UInt8.ofNat (v % 64 + 128)) := by
      simp only [Continues, he]
      omega
    have hval : v = (v / 262144 % 8 + 240) % 8 * 262144 + (v / 4096 % 64 + 128) % 64 * 4096 +
        (v / 64 % 64 + 128) % 64 * 64 + (v % 64 + 128) % 64 := by omega
    simp only [List.cons_append, List.nil_append]
    rw [chunks_four (width_four.mpr (by omega)) hsecond hthird hfourth, low, low, low, ha, hb, hd, he,
      ← hval, hc]

def encode (l : List Char) : List UInt8 := l.flatMap String.utf8EncodeChar

/-- Ill-formed pieces become U+FFFD. -/
def lossy (s : List UInt8) : List Char := (chunks s).map (·.getD (Char.ofNat 0xFFFD))

/-- Decoding that accepts well-formed input only. -/
def strict (s : List UInt8) : Option (List Char) :=
  if (chunks s).all Option.isSome then some (lossy s) else none

theorem ofNat_val {v : ℕ} (h : v < 0xD800 ∨ 0xDFFF < v ∧ v < 0x110000) :
    (Char.ofNat v).val.toNat = v := by
  have hv : v.isValidChar := h
  rw [Char.ofNat, dif_pos hv]
  rfl

theorem byte_eq {n : ℕ} (a : UInt8) (h : n = a.toNat) : UInt8.ofNat n = a := by
  rw [h, UInt8.ofNat_toNat]

theorem encodeChar_one {a : UInt8} (h : width a = 1) :
    String.utf8EncodeChar (Char.ofNat a.toNat) = [a] := by
  have ha := width_one.mp h
  unfold String.utf8EncodeChar
  rw [ofNat_val (by omega), if_pos (by omega), byte_eq a rfl]

theorem encodeChar_two {a b : UInt8} (h : width a = 2) (hb : Second a b) :
    String.utf8EncodeChar (Char.ofNat (a.toNat % 32 * 64 + low b)) = [a, b] := by
  have ha := width_two.mp h
  obtain ⟨⟨hb1, hb2⟩, -⟩ := hb
  unfold String.utf8EncodeChar low
  rw [ofNat_val (by omega), if_neg (by omega), if_pos (by omega), byte_eq a (by omega),
    byte_eq b (by omega)]

theorem encodeChar_three {a b c : UInt8} (h : width a = 3) (hb : Second a b) (hc : Continues c) :
    String.utf8EncodeChar (Char.ofNat (a.toNat % 16 * 4096 + low b * 64 + low c)) = [a, b, c] := by
  have ha := width_three.mp h
  obtain ⟨⟨hb1, hb2⟩, he0, hed, -⟩ := hb
  obtain ⟨hc1, hc2⟩ := hc
  unfold String.utf8EncodeChar low
  rw [ofNat_val (by omega), if_neg (by omega), if_neg (by omega), if_pos (by omega),
    byte_eq a (by omega), byte_eq b (by omega), byte_eq c (by omega)]

theorem encodeChar_four {a b c d : UInt8} (h : width a = 4) (hb : Second a b) (hc : Continues c)
    (hd : Continues d) :
    String.utf8EncodeChar
      (Char.ofNat (a.toNat % 8 * 262144 + low b * 4096 + low c * 64 + low d)) = [a, b, c, d] := by
  have ha := width_four.mp h
  obtain ⟨⟨hb1, hb2⟩, -, -, hf0, hf4⟩ := hb
  obtain ⟨hc1, hc2⟩ := hc
  obtain ⟨hd1, hd2⟩ := hd
  unfold String.utf8EncodeChar low
  rw [ofNat_val (by omega), if_neg (by omega), if_neg (by omega), if_neg (by omega),
    byte_eq a (by omega), byte_eq b (by omega), byte_eq c (by omega), byte_eq d (by omega)]

theorem chunks_encode (l : List Char) : chunks (encode l) = l.map some := by
  induction l with
  | nil => rfl
  | cons c l ih => rw [encode, List.flatMap_cons, chunks_encodeChar, List.map_cons, ← ih, encode]

theorem lossy_encode (l : List Char) : lossy (encode l) = l := by
  simp [lossy, chunks_encode, List.map_map, Function.comp_def]

theorem strict_encode (l : List Char) : strict (encode l) = some l := by
  simp [strict, chunks_encode, lossy_encode]

theorem encode_lossy (s : List UInt8) (h : (chunks s).all Option.isSome) : encode (lossy s) = s := by
  unfold lossy encode
  fun_induction chunks s with
  | case1 => rfl
  | case3 a s _ h1 ih =>
    rw [List.map_cons, List.flatMap_cons, Option.getD_some, encodeChar_one h1, ih (by simpa using h)]
    rfl
  | case6 a _ _ b s hb h2 ih =>
    rw [List.map_cons, List.flatMap_cons, Option.getD_some, encodeChar_two h2 (not_not.mp hb), ih (by simpa using h)]
    rfl
  | case9 a _ _ b hb _ c s hc h3 ih =>
    rw [List.map_cons, List.flatMap_cons, Option.getD_some,
      encodeChar_three h3 (not_not.mp hb) (not_not.mp hc), ih (by simpa using h)]
    rfl
  | case12 a h0 h1 b hb h2 c hc h3 d s hd ih =>
    have h4 : width a = 4 := by
      have hle := @width_le a
      omega
    rw [List.map_cons, List.flatMap_cons, Option.getD_some,
      encodeChar_four h4 (not_not.mp hb) (not_not.mp hc) (not_not.mp hd), ih (by simpa using h)]
    rfl
  | _ => simp at h

theorem encode_strict {s : List UInt8} {l : List Char} (h : strict s = some l) : encode l = s := by
  unfold strict at h
  split_ifs at h with hs
  rw [← Option.some.inj h, encode_lossy s hs]

theorem encodeChar_ascii {c : Char} (h : c.toNat < 0x80) :
    String.utf8EncodeChar c = [UInt8.ofNat c.toNat] := by
  have hc : c.val.toNat < 0x80 := h
  unfold String.utf8EncodeChar
  rw [if_pos (by omega)]
  rfl

/-- ASCII text has one byte for each character. -/
theorem encode_ascii {l : List Char} (h : ∀ c ∈ l, c.toNat < 0x80) :
    encode l = l.map fun c => UInt8.ofNat c.toNat := by
  induction l with
  | nil => rfl
  | cons c l ih =>
    rw [encode, List.flatMap_cons, encodeChar_ascii (h c List.mem_cons_self), List.map_cons,
      ← ih fun d hd => h d (List.mem_cons_of_mem c hd)]
    rfl

end Nyx.Utf8
