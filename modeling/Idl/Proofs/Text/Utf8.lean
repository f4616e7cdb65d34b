import Idl.Text.Utf8
import Mathlib.Data.List.Basic

/-!
# Texts survive their bytes

Each character is encoded by a leading byte, which tells how many bytes follow, and by continuation
bytes of six bits each.  Decoding undoes this one character at a time, so that decoding the bytes of
a text gives the text.
-/

namespace Idl.Text

theorem continuation_digit
    {code good n digit : Nat} {lo hi : UInt8} {bs : List UInt8} (hdigit : digit < 64)
    (hlo : lo.toNat ≤ digit + 128) (hhi : digit + 128 ≤ hi.toNat) :
    continuation code good lo hi (n + 1) (UInt8.ofNat (digit + 128) :: bs) =
      continuation (code * 64 + digit) (good + 1) 0x80 0xbf n bs := by
  have hbyte : (UInt8.ofNat (digit + 128)).toNat = digit + 128 :=
    UInt8.toNat_ofNat_of_lt' (by simp only [UInt8.size]; omega)
  have hrange : (lo ≤ UInt8.ofNat (digit + 128) && UInt8.ofNat (digit + 128) ≤ hi) = true := by
    simp only [Bool.and_eq_true, decide_eq_true_eq, UInt8.le_iff_toNat_le, hbyte]
    exact ⟨hlo, hhi⟩
  have hpayload : (digit + 128) % 64 = digit := by omega
  rw [continuation, if_pos hrange, hbyte, hpayload]

theorem leadingByte_ofNat {n : Nat} (hn : n < 256) :
    leadingByte (UInt8.ofNat n) =
      if n < 0x80 then some (1, 0, 0)
      else if n < 0xc2 then none
      else if n < 0xe0 then some (2, 0x80, 0xbf)
      else if n = 0xe0 then some (3, 0xa0, 0xbf)
      else if n = 0xed then some (3, 0x80, 0x9f)
      else if n < 0xf0 then some (3, 0x80, 0xbf)
      else if n = 0xf0 then some (4, 0x90, 0xbf)
      else if n < 0xf4 then some (4, 0x80, 0xbf)
      else if n = 0xf4 then some (4, 0x80, 0x8f)
      else none := by
  have hbyte : (UInt8.ofNat n).toNat = n := UInt8.toNat_ofNat_of_lt' hn
  simp only [leadingByte, UInt8.lt_iff_toNat_lt, ← UInt8.toNat_inj, hbyte]
  rfl

theorem decodeFrom_cons
    {index size code : Nat} {before : List Char} {b lo hi : UInt8} {bs rest : List UInt8}
    (hlead : leadingByte b = some (size, lo, hi))
    (hread : continuation (leadingPayload size b) 1 lo hi (size - 1) bs = .ok (code, rest)) :
    decodeFrom index before (b :: bs) =
      decodeFrom (index + size) (Char.ofNat code :: before) rest := by
  rw [decodeFrom]
  simp only [hlead]
  split
  next hfault => simp [hread] at hfault
  next hfault => simp [hread] at hfault
  next code' rest' hread' =>
    have hsame := Except.ok.inj (hread'.symm.trans hread)
    obtain ⟨rfl, rfl⟩ := Prod.mk.inj hsame
    rfl

theorem not_surrogate (c : Char) :
    c.val.toNat < 0xd800 ∨ (0xdfff < c.val.toNat ∧ c.val.toNat < 0x110000) :=
  c.valid

section Characters

variable {v : Nat}

theorem decodeFrom_one (hv : v < 0x80) (index : Nat) (before : List Char) (rest : List UInt8) :
    decodeFrom index before (UInt8.ofNat v :: rest) =
      decodeFrom (index + 1) (Char.ofNat v :: before) rest := by
  have hbyte : (UInt8.ofNat v).toNat = v :=
    UInt8.toNat_ofNat_of_lt' (by simp only [UInt8.size]; omega)
  have hlead : leadingByte (UInt8.ofNat v) = some (1, 0, 0) := by
    rw [leadingByte_ofNat (by omega), if_pos hv]
  apply decodeFrom_cons hlead
  rw [leadingPayload, hbyte, continuation]

theorem decodeFrom_two
    (hlo : 0x80 ≤ v) (hhi : v < 0x800) (index : Nat) (before : List Char) (rest : List UInt8) :
    decodeFrom index before
        (UInt8.ofNat (v / 64 % 32 + 192) :: UInt8.ofNat (v % 64 + 128) :: rest) =
      decodeFrom (index + 2) (Char.ofNat v :: before) rest := by
  have hbyte : (UInt8.ofNat (v / 64 % 32 + 192)).toNat = v / 64 % 32 + 192 :=
    UInt8.toNat_ofNat_of_lt' (by simp only [UInt8.size]; omega)
  have hlead : leadingByte (UInt8.ofNat (v / 64 % 32 + 192)) = some (2, 0x80, 0xbf) := by
    rw [leadingByte_ofNat (by omega), if_neg (by omega), if_neg (by omega), if_pos (by omega)]
  have hpayload : (v / 64 % 32 + 192) % 32 * 64 + v % 64 = v := by omega
  apply decodeFrom_cons hlead
  rw [continuation_digit (by omega) (by simp) (by simp; omega), continuation, leadingPayload,
    hbyte, hpayload]

/-- Among the characters of three bytes, the first byte tells how far the second may go: neither a
shorter encoding nor a surrogate is possible. -/
theorem leadingByte_three (hlo : 0x800 ≤ v) (hhi : v < 0x10000) (hv : v < 0xd800 ∨ 0xdfff < v) :
    ∃ lo hi : UInt8, leadingByte (UInt8.ofNat (v / 4096 % 16 + 224)) = some (3, lo, hi) ∧
      lo.toNat ≤ v / 64 % 64 + 128 ∧ v / 64 % 64 + 128 ≤ hi.toNat := by
  rw [leadingByte_ofNat (by omega), if_neg (by omega), if_neg (by omega), if_neg (by omega)]
  by_cases hfirst : v / 4096 % 16 + 224 = 0xe0
  · exact ⟨0xa0, 0xbf, by rw [if_pos hfirst], by simp; omega, by simp; omega⟩
  · rw [if_neg hfirst]
    by_cases hsurrogate : v / 4096 % 16 + 224 = 0xed
    · exact ⟨0x80, 0x9f, by rw [if_pos hsurrogate], by simp, by simp; omega⟩
    · rw [if_neg hsurrogate, if_pos (by omega)]
      exact ⟨0x80, 0xbf, rfl, by simp, by simp; omega⟩

theorem decodeFrom_three
    (hlo : 0x800 ≤ v) (hhi : v < 0x10000) (hv : v < 0xd800 ∨ 0xdfff < v) (index : Nat)
    (before : List Char) (rest : List UInt8) :
    decodeFrom index before
        (UInt8.ofNat (v / 4096 % 16 + 224) :: UInt8.ofNat (v / 64 % 64 + 128) ::
          UInt8.ofNat (v % 64 + 128) :: rest) =
      decodeFrom (index + 3) (Char.ofNat v :: before) rest := by
  have hbyte : (UInt8.ofNat (v / 4096 % 16 + 224)).toNat = v / 4096 % 16 + 224 :=
    UInt8.toNat_ofNat_of_lt' (by simp only [UInt8.size]; omega)
  obtain ⟨lo, hi, hlead, hsecond, hsecond'⟩ := leadingByte_three hlo hhi hv
  have hpayload : ((v / 4096 % 16 + 224) % 16 * 64 + v / 64 % 64) * 64 + v % 64 = v := by omega
  apply decodeFrom_cons hlead
  rw [continuation_digit (by omega) hsecond hsecond',
    continuation_digit (by omega) (by simp) (by simp; omega), continuation, leadingPayload,
    hbyte, hpayload]

theorem leadingByte_four (hlo : 0x10000 ≤ v) (hhi : v < 0x110000) :
    ∃ lo hi : UInt8, leadingByte (UInt8.ofNat (v / 262144 % 8 + 240)) = some (4, lo, hi) ∧
      lo.toNat ≤ v / 4096 % 64 + 128 ∧ v / 4096 % 64 + 128 ≤ hi.toNat := by
  rw [leadingByte_ofNat (by omega), if_neg (by omega), if_neg (by omega), if_neg (by omega),
    if_neg (by omega), if_neg (by omega), if_neg (by omega)]
  by_cases hfirst : v / 262144 % 8 + 240 = 0xf0
  · exact ⟨0x90, 0xbf, by rw [if_pos hfirst], by simp; omega, by simp; omega⟩
  · rw [if_neg hfirst]
    by_cases hlast : v / 262144 % 8 + 240 = 0xf4
    · rw [if_neg (by omega), if_pos hlast]
      exact ⟨0x80, 0x8f, rfl, by simp, by simp; omega⟩
    · rw [if_pos (by omega)]
      exact ⟨0x80, 0xbf, rfl, by simp, by simp; omega⟩

theorem decodeFrom_four
    (hlo : 0x10000 ≤ v) (hhi : v < 0x110000) (index : Nat) (before : List Char)
    (rest : List UInt8) :
    decodeFrom index before
        (UInt8.ofNat (v / 262144 % 8 + 240) :: UInt8.ofNat (v / 4096 % 64 + 128) ::
          UInt8.ofNat (v / 64 % 64 + 128) :: UInt8.ofNat (v % 64 + 128) :: rest) =
      decodeFrom (index + 4) (Char.ofNat v :: before) rest := by
  have hbyte : (UInt8.ofNat (v / 262144 % 8 + 240)).toNat = v / 262144 % 8 + 240 :=
    UInt8.toNat_ofNat_of_lt' (by simp only [UInt8.size]; omega)
  obtain ⟨lo, hi, hlead, hsecond, hsecond'⟩ := leadingByte_four hlo hhi
  have hpayload :
      (((v / 262144 % 8 + 240) % 8 * 64 + v / 4096 % 64) * 64 + v / 64 % 64) * 64 + v % 64 = v := by
    omega
  apply decodeFrom_cons hlead
  rw [continuation_digit (by omega) hsecond hsecond',
    continuation_digit (by omega) (by simp) (by simp; omega),
    continuation_digit (by omega) (by simp) (by simp; omega), continuation, leadingPayload,
    hbyte, hpayload]
  · decide
  · decide
  · decide

end Characters

theorem decodeFrom_utf8EncodeChar
    (index : Nat) (before : List Char) (c : Char) (rest : List UInt8) :
    ∃ size, decodeFrom index before (String.utf8EncodeChar c ++ rest) =
      decodeFrom (index + size) (c :: before) rest := by
  have hc := not_surrogate c
  have hback : Char.ofNat c.val.toNat = c := Char.ofNat_toNat c
  unfold String.utf8EncodeChar
  dsimp only
  generalize c.val.toNat = v at hc hback ⊢
  by_cases hone : v ≤ 127
  · rw [if_pos hone, ← hback]
    exact ⟨1, decodeFrom_one (by omega) index before rest⟩
  · rw [if_neg hone]
    by_cases htwo : v ≤ 2047
    · rw [if_pos htwo, ← hback]
      exact ⟨2, decodeFrom_two (by omega) (by omega) index before rest⟩
    · rw [if_neg htwo]
      by_cases hthree : v ≤ 65535
      · rw [if_pos hthree, ← hback]
        exact ⟨3, decodeFrom_three (by omega) (by omega) (by omega) index before rest⟩
      · rw [if_neg hthree, ← hback]
        exact ⟨4, decodeFrom_four (by omega) (by omega) index before rest⟩

theorem decodeFrom_flatMap (index : Nat) (before cs : List Char) :
    decodeFrom index before (cs.flatMap String.utf8EncodeChar) = .ok (before.reverse ++ cs) := by
  induction cs generalizing index before with
  | nil =>
    rw [List.flatMap_nil, decodeFrom, List.append_nil]
  | cons c cs ih =>
    rw [List.flatMap_cons]
    obtain ⟨size, hsize⟩ :=
      decodeFrom_utf8EncodeChar index before c (cs.flatMap String.utf8EncodeChar)
    rw [hsize, ih, List.reverse_cons, List.append_assoc]
    rfl

/-- The bytes of a text are decoded to the text. -/
theorem decodeUtf8_encodeUtf8 (s : String) : decodeUtf8 (encodeUtf8 s) = .ok s := by
  rw [decodeUtf8, encodeUtf8, decodeFrom_flatMap]
  simp [Except.map]

end Idl.Text
