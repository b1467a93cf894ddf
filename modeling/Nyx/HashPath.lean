import Nyx.Hash
import Nyx.Hex

/-! `Blake3Hash::to_hex` and `Blake3Hash::shard_path`: the name of a hash, and where the cache
keeps what the hash belongs to. -/
namespace Nyx.Hash
open Text Hex

namespace Blake3Hash

/-- The loop that writes one byte after the other. -/
def toHex (h : Blake3Hash) : String :=
  h.bytes.toList.foldl (fun s b => s ++ String.ofList (encodeByte b)) ""

/-- None is a slice that panics. -/
def shardPath (h : Blake3Hash) : Option (String × String × String) := do
  let hex := h.toHex
  let a ← slice hex 0 2
  let b ← slice hex 2 4
  return (a, b, hex)

theorem toList_foldl (bs : List UInt8) (s : String) :
    (bs.foldl (fun s b => s ++ String.ofList (encodeByte b)) s).toList = s.toList ++ encode bs := by
  induction bs generalizing s with
  | nil => simp [encode]
  | cons b bs ih =>
    rw [List.foldl_cons, ih, String.toList_append, String.toList_ofList, List.append_assoc]
    rfl

theorem toHex_toList (h : Blake3Hash) : h.toHex.toList = encode h.bytes.toList := by
  rw [toHex, toList_foldl]
  rfl

theorem toHex_length (h : Blake3Hash) : h.toHex.toList.length = 64 := by
  rw [toHex_toList, encode_length, Vector.length_toList]

theorem toHex_digits (h : Blake3Hash) : ∀ c ∈ h.toHex.toList, IsDigit c := by
  rw [toHex_toList]
  exact isDigit_encode

theorem toHex_injective {h h' : Blake3Hash} (he : h.toHex = h'.toHex) : h = h' := by
  have hl := congrArg String.toList he
  rw [toHex_toList, toHex_toList] at hl
  have hb := Vector.toList_inj.mp (encode_injective hl)
  cases h
  exact congrArg Blake3Hash.mk hb

theorem ascii_of_isDigit {c : Char} (h : IsDigit c) : c.toNat < 0x80 := by
  obtain ⟨n, hn, rfl⟩ := exists_digitChar h
  revert n
  decide

/-- Neither slice panics: hexadecimal digits are one byte each, and there are enough of them. -/
theorem shardPath_eq (h : Blake3Hash) :
    h.shardPath = some (String.ofList (h.toHex.toList.take 2),
      String.ofList ((h.toHex.toList.take 4).drop 2), h.toHex) := by
  have hascii : ∀ c ∈ h.toHex.toList, c.toNat < 0x80 := fun c hc =>
    ascii_of_isDigit (h.toHex_digits c hc)
  have hlen := h.toHex_length
  have ha := slice_ascii hascii (i := 0) (j := 2) (by omega) (by omega)
  have hb := slice_ascii hascii (i := 2) (j := 4) (by omega) (by omega)
  simp [shardPath, ha, hb]

theorem take_shards {α : Type} (l : List α) : l.take 2 ++ (l.take 4).drop 2 = l.take 4 := by
  have htake : (l.take 4).take 2 = l.take 2 := List.take_take
  rw [← htake, List.take_append_drop]

/-- The shards are the first two pairs of digits. -/
theorem shardPath_spec (h : Blake3Hash) :
    ∃ a b, h.shardPath = some (a, b, h.toHex) ∧ a.length = 2 ∧ b.length = 2 ∧
      (a ++ b).toList <+: h.toHex.toList := by
  refine ⟨_, _, h.shardPath_eq, ?_, ?_, ?_⟩
  · simp [h.toHex_length]
  · simp [h.toHex_length]
  · rw [String.toList_append, String.toList_ofList, String.toList_ofList, take_shards]
    exact List.take_prefix 4 _

theorem shardPath_injective {h h' : Blake3Hash} (he : h.shardPath = h'.shardPath) : h = h' := by
  rw [h.shardPath_eq, h'.shardPath_eq] at he
  obtain ⟨-, -, hx⟩ : _ ∧ _ ∧ h.toHex = h'.toHex := by simpa using he
  exact toHex_injective hx

theorem exists_toHex {s : String} (hl : s.length = 64) (hs : ∀ c ∈ s.toList, IsDigit c) :
    ∃ h : Blake3Hash, h.toHex = s := by
  obtain ⟨bs, hbs, he⟩ := exists_encode (n := 32) (by rw [String.length_toList, hl]) hs
  refine ⟨⟨⟨bs.toArray, by simp [hbs]⟩⟩, String.toList_inj.mp ?_⟩
  rw [toHex_toList, ← he]
  rfl

end Blake3Hash

/-- A hash and its hexadecimal name determine each other, and the name is cut without fail into
the two shards and the whole. -/
theorem hash_path_faithful :
    (∀ h : Blake3Hash, h.toHex.length = 64 ∧ (∀ c ∈ h.toHex.toList, IsDigit c) ∧
      decode h.toHex.toList = some h.bytes.toList) ∧
    (∀ h : Blake3Hash, ∃ a b, h.shardPath = some (a, b, h.toHex) ∧ a.length = 2 ∧ b.length = 2 ∧
      (a ++ b).toList <+: h.toHex.toList) ∧
    (∀ h h' : Blake3Hash, h.toHex = h'.toHex → h = h') ∧
    (∀ h h' : Blake3Hash, h.shardPath = h'.shardPath → h = h') ∧
    ∀ s : String, s.length = 64 → (∀ c ∈ s.toList, IsDigit c) → ∃! h : Blake3Hash, h.toHex = s := by
  refine ⟨fun h => ⟨?_, h.toHex_digits, ?_⟩, Blake3Hash.shardPath_spec,
    fun h h' => Blake3Hash.toHex_injective, fun h h' => Blake3Hash.shardPath_injective,
    fun s hl hs => ?_⟩
  · rw [← String.length_toList, h.toHex_length]
  · rw [h.toHex_toList, decode_encode]
  · obtain ⟨h, hh⟩ := Blake3Hash.exists_toHex hl hs
    exact ⟨h, hh, fun h' hh' => Blake3Hash.toHex_injective (hh'.trans hh.symm)⟩

example : (Blake3Hash.mk abcHash).shardPath.map (fun p => (p.1, p.2.1)) = some ("64", "37") := by
  decide +kernel

end Nyx.Hash
