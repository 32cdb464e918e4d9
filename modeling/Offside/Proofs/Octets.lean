import Mathlib.Tactic.IntervalCases
import Mathlib.Tactic.SplitIfs
import Offside.Text.Utf8

/-!
# Octets of a text

What is encoded is decoded again.

- `begin?_two`, `begin?_three`, `begin?_four`: what the first octet of an encoding begins.
- `decodeFrom_owed`: an octet that an encoding is owed.
- `decodeFrom_encodeChar`: the octets of one character.
- `decode_encode`: the octets of a text.
-/
namespace Offside.Text.Utf8

set_option autoImplicit false

theorem toNat_octet {n : Nat} (h : n < 256) : (UInt8.ofNat n).toNat = n := by
  rw [UInt8.toNat_ofNat']
  omega

theorem not_lt_octet {n : Nat} (hlo : 128 ≤ n) (hhi : n < 256) : ¬ UInt8.ofNat n < 0x80 := by
  rw [UInt8.lt_iff_toNat_lt, toNat_octet hhi]
  exact Nat.not_lt.mpr hlo

/-! ## The first octet -/

theorem begin?_two (place : Nat) {n : Nat} (hlo : 2 ≤ n) (hhi : n < 32) :
    Partial.begin? place (UInt8.ofNat (n + 192)) =
      some ⟨place, UInt8.ofNat (n + 192), 1, 0x80, 0xbf, n⟩ := by
  interval_cases n <;> rfl

theorem begin?_three (place : Nat) {n : Nat} (hhi : n < 16) :
    Partial.begin? place (UInt8.ofNat (n + 224)) =
      some ⟨place, UInt8.ofNat (n + 224), 2, if n = 0 then 0xa0 else 0x80,
        if n = 13 then 0x9f else 0xbf, n⟩ := by
  interval_cases n <;> rfl

theorem begin?_four (place : Nat) {n : Nat} (hhi : n < 5) :
    Partial.begin? place (UInt8.ofNat (n + 240)) =
      some ⟨place, UInt8.ofNat (n + 240), 3, if n = 0 then 0x90 else 0x80,
        if n = 4 then 0x8f else 0xbf, n⟩ := by
  interval_cases n <;> rfl

theorem decodeFrom_begin {place : Nat} {n : Nat} (hlo : 128 ≤ n) (hhi : n < 256) {p : Partial}
    (h : Partial.begin? place (UInt8.ofNat n) = some p) (rest : List UInt8) :
    decodeFrom place none (UInt8.ofNat n :: rest) = decodeFrom (place + 1) (some p) rest := by
  rw [decodeFrom, if_neg (not_lt_octet hlo hhi), h]

/-! ## The octets behind it -/

/-- An octet that an encoding is owed: the last one ends the character. -/
theorem decodeFrom_owed (place : Nat) {p : Partial} {owed : Nat} (h : p.owed = owed + 1) {n : Nat}
    (hn : n < 64) (hlow : p.low.toNat ≤ n + 128) (hhigh : n + 128 ≤ p.high.toNat)
    (rest : List UInt8) :
    decodeFrom place (some p) (UInt8.ofNat (n + 128) :: rest) =
      if owed = 0 then (Char.ofNat (p.bits * 64 + n) :: ·) <$> decodeFrom (place + 1) none rest
      else decodeFrom (place + 1)
        (some ⟨p.start, p.first, owed, 0x80, 0xbf, p.bits * 64 + n⟩) rest := by
  have ho := toNat_octet (show n + 128 < 256 by omega)
  have hfit : p.low ≤ UInt8.ofNat (n + 128) ∧ UInt8.ofNat (n + 128) ≤ p.high := by
    rw [UInt8.le_iff_toNat_le, UInt8.le_iff_toNat_le, ho]
    exact ⟨hlow, hhigh⟩
  have hbits : (UInt8.ofNat (n + 128)).toNat - 0x80 = n := by omega
  rw [decodeFrom, if_pos hfit]
  simp only [hbits, h, Nat.add_sub_cancel]
  cases owed with
  | zero => rfl
  | succ owed => rw [if_neg (by omega), if_neg (by omega)]

/-- An octet that may be any of those that go on an encoding. -/
theorem decodeFrom_free (place start owed bits : Nat) (first : UInt8) {n : Nat} (hn : n < 64)
    (rest : List UInt8) :
    decodeFrom place (some ⟨start, first, owed + 1, 0x80, 0xbf, bits⟩)
        (UInt8.ofNat (n + 128) :: rest) =
      if owed = 0 then (Char.ofNat (bits * 64 + n) :: ·) <$> decodeFrom (place + 1) none rest
      else decodeFrom (place + 1) (some ⟨start, first, owed, 0x80, 0xbf, bits * 64 + n⟩) rest :=
  decodeFrom_owed place (p := ⟨start, first, owed + 1, 0x80, 0xbf, bits⟩) rfl hn
    (Nat.le_add_left 128 n) (show n + 128 ≤ 191 by omega) rest

/-! ## Characters -/

section

variable (place : Nat) {v : Nat} (rest : List UInt8)

theorem decodeFrom_two (hlo : 128 ≤ v) (hhi : v < 2048) :
    decodeFrom place none
        (UInt8.ofNat (v / 64 % 32 + 192) :: UInt8.ofNat (v % 64 + 128) :: rest) =
      (Char.ofNat v :: ·) <$> decodeFrom (place + 1 + 1) none rest := by
  have hhead : v / 64 % 32 = v / 64 := by omega
  have hall : v / 64 * 64 + v % 64 = v := by omega
  rw [hhead, decodeFrom_begin (by omega) (by omega) (begin?_two place (by omega) (by omega)),
    decodeFrom_free _ _ 0 _ _ (Nat.mod_lt v (by omega)), if_pos rfl, hall]

/-- Three octets encode a character that needs them and is no surrogate. -/
theorem decodeFrom_three (hlo : 2048 ≤ v) (hhi : v < 65536) (hs : v < 0xd800 ∨ 0xdfff < v) :
    decodeFrom place none
        (UInt8.ofNat (v / 4096 % 16 + 224) :: UInt8.ofNat (v / 64 % 64 + 128) ::
          UInt8.ofNat (v % 64 + 128) :: rest) =
      (Char.ofNat v :: ·) <$> decodeFrom (place + 1 + 1 + 1) none rest := by
  have hhead : v / 4096 % 16 = v / 4096 := by omega
  have hall : (v / 4096 * 64 + v / 64 % 64) * 64 + v % 64 = v := by omega
  have hlow : (if v / 4096 = 0 then (0xa0 : UInt8) else 0x80).toNat ≤ v / 64 % 64 + 128 := by
    split_ifs
    · show 160 ≤ _
      omega
    · exact Nat.le_add_left 128 _
  have hhigh : v / 64 % 64 + 128 ≤ (if v / 4096 = 13 then (0x9f : UInt8) else 0xbf).toNat := by
    split_ifs
    · show _ ≤ 159
      omega
    · show _ ≤ 191
      omega
  rw [hhead, decodeFrom_begin (by omega) (by omega) (begin?_three place (by omega)),
    decodeFrom_owed _ rfl (Nat.mod_lt _ (by omega)) hlow hhigh, if_neg (by omega),
    decodeFrom_free _ _ 0 _ _ (Nat.mod_lt v (by omega)), if_pos rfl, hall]

theorem decodeFrom_four (hlo : 65536 ≤ v) (hhi : v < 0x110000) :
    decodeFrom place none
        (UInt8.ofNat (v / 262144 % 8 + 240) :: UInt8.ofNat (v / 4096 % 64 + 128) ::
          UInt8.ofNat (v / 64 % 64 + 128) :: UInt8.ofNat (v % 64 + 128) :: rest) =
      (Char.ofNat v :: ·) <$> decodeFrom (place + 1 + 1 + 1 + 1) none rest := by
  have hhead : v / 262144 % 8 = v / 262144 := by omega
  have hall : ((v / 262144 * 64 + v / 4096 % 64) * 64 + v / 64 % 64) * 64 + v % 64 = v := by
    omega
  have hlow : (if v / 262144 = 0 then (0x90 : UInt8) else 0x80).toNat ≤
      v / 4096 % 64 + 128 := by
    split_ifs
    · show 144 ≤ _
      omega
    · exact Nat.le_add_left 128 _
  have hhigh : v / 4096 % 64 + 128 ≤
      (if v / 262144 = 4 then (0x8f : UInt8) else 0xbf).toNat := by
    split_ifs
    · show _ ≤ 143
      omega
    · show _ ≤ 191
      omega
  rw [hhead, decodeFrom_begin (by omega) (by omega) (begin?_four place (by omega)),
    decodeFrom_owed _ rfl (Nat.mod_lt _ (by omega)) hlow hhigh, if_neg (by omega),
    decodeFrom_free _ _ 1 _ _ (Nat.mod_lt _ (by omega)), if_neg (by omega),
    decodeFrom_free _ _ 0 _ _ (Nat.mod_lt v (by omega)), if_pos rfl, hall]

end

/-- The octets of one character are read as it, whatever follows them. -/
theorem decodeFrom_encodeChar (place : Nat) (c : Char) (rest : List UInt8) :
    ∃ next, decodeFrom place none (String.utf8EncodeChar c ++ rest) =
      (c :: ·) <$> decodeFrom next none rest := by
  have hvalid : c.val.toNat < 0xd800 ∨ 0xdfff < c.val.toNat ∧ c.val.toNat < 0x110000 := c.valid
  have hc : Char.ofNat c.val.toNat = c := Char.ofNat_toNat c
  unfold String.utf8EncodeChar
  generalize c.val.toNat = v at hvalid hc
  rw [← hc]
  simp only
  split_ifs with hone htwo hthree
  · have hb := toNat_octet (show v < 256 by omega)
    have hlt : UInt8.ofNat v < 0x80 := by
      rw [UInt8.lt_iff_toNat_lt, hb]
      exact Nat.lt_succ_of_le hone
    exact ⟨place + 1, by rw [List.singleton_append, decodeFrom, if_pos hlt, hb]⟩
  · exact ⟨_, decodeFrom_two place rest (by omega) (by omega)⟩
  · exact ⟨_, decodeFrom_three place rest (by omega) (by omega) (by omega)⟩
  · exact ⟨_, decodeFrom_four place rest (by omega) (by omega)⟩

/-- What is encoded is decoded again. -/
theorem decode_encode (cs : List Char) : decode (encode cs) = .ok cs := by
  suffices h : ∀ place, decodeFrom place none (encode cs) = .ok cs from h 0
  induction cs with
  | nil => exact fun _ => rfl
  | cons c cs ih =>
    intro place
    obtain ⟨next, hnext⟩ := decodeFrom_encodeChar place c (encode cs)
    rw [encode, List.flatMap_cons, ← encode, hnext, ih]
    rfl

end Offside.Text.Utf8
