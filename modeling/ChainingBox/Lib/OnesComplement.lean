import ChainingBox.Lib.Bytes

/-!
# Ones'-complement sums

The sum of 16-bit words in which a carry out of the top is added back at the bottom. It is the sum of
the words modulo 65535, with zero only as the sum of zeros, so a checksummed header sums to all ones
if and only if the sum of its words is a positive multiple of 65535 (`onesSum_eq_ones_iff`). Swapping
the bytes of all words swaps those of the sum modulo 65535, so a header has such a sum in both byte
orders or in neither (`onesSum_bswap_eq_ones_iff`).
-/

namespace ChainingBox.Lib

/-- Addition with end-around carry. -/
def onesAdd (a b : BitVec 16) : BitVec 16 :=
  BitVec.ofNat 16 ((a.toNat + b.toNat) % 65536 + (a.toNat + b.toNat) / 65536)

/-- The ones'-complement sum of a list of words. -/
def onesSum : List (BitVec 16) → BitVec 16
  | [] => 0
  | w :: ws => onesAdd w (onesSum ws)

/-- The sum of the words as numbers. -/
def wordSum (ws : List (BitVec 16)) : ℕ := (ws.map BitVec.toNat).sum

theorem wordSum_cons (w : BitVec 16) (ws : List (BitVec 16)) :
    wordSum (w :: ws) = w.toNat + wordSum ws := rfl

/-- An addition is one modulo 65535, and gives zero only for zeros. -/
theorem onesAdd_toNat (a b : BitVec 16) :
    (onesAdd a b).toNat % 65535 = (a.toNat + b.toNat) % 65535 ∧
      ((onesAdd a b).toNat = 0 ↔ a.toNat = 0 ∧ b.toNat = 0) := by
  have ha := a.isLt
  have hb := b.isLt
  rw [onesAdd, BitVec.toNat_ofNat]
  rcases Nat.lt_or_ge (a.toNat + b.toNat) 65536 with hsum | hsum
  · rw [Nat.div_eq_of_lt hsum]
    constructor
    · omega
    · omega
  · have hcarry : (a.toNat + b.toNat) / 65536 = 1 := by omega
    rw [hcarry]
    constructor
    · omega
    · omega

theorem onesSum_toNat (ws : List (BitVec 16)) :
    (onesSum ws).toNat % 65535 = wordSum ws % 65535 ∧
      ((onesSum ws).toNat = 0 ↔ wordSum ws = 0) := by
  induction ws with
  | nil => exact ⟨rfl, Iff.rfl⟩
  | cons w ws ih =>
    obtain ⟨hmod, hzero⟩ := onesAdd_toNat w (onesSum ws)
    rw [onesSum, wordSum_cons]
    constructor
    · omega
    · omega

/-- The sum is all ones exactly if the words sum up to a positive multiple of 65535. -/
theorem onesSum_eq_ones_iff (ws : List (BitVec 16)) :
    onesSum ws = 0xFFFF ↔ 0 < wordSum ws ∧ 65535 ∣ wordSum ws := by
  obtain ⟨hmod, hzero⟩ := onesSum_toNat ws
  have hlt := (onesSum ws).isLt
  have hones : onesSum ws = 0xFFFF ↔ (onesSum ws).toNat = 65535 := BitVec.toNat_inj.symm
  rw [hones, Nat.dvd_iff_mod_eq_zero]
  omega

/-! ## Byte order -/

theorem bswap16_toNat (x : BitVec 16) :
    (bswap16 x).toNat = 256 * (x.toNat % 256) + x.toNat / 256 := by
  have hx := x.isLt
  rw [bswap16, BitVec.toNat_append, ← Nat.shiftLeft_add_eq_or_of_lt (BitVec.isLt _), byteOf, byteOf,
    BitVec.extractLsb'_toNat, BitVec.extractLsb'_toNat, Nat.shiftLeft_eq, Nat.shiftRight_eq_div_pow,
    Nat.shiftRight_eq_div_pow]
  omega

/-- Swapped words sum up to 256 times as much modulo 65535. -/
theorem wordSum_bswap (ws : List (BitVec 16)) :
    wordSum (ws.map bswap16) % 65535 = 256 * wordSum ws % 65535 ∧
      (wordSum (ws.map bswap16) = 0 ↔ wordSum ws = 0) := by
  induction ws with
  | nil => exact ⟨rfl, Iff.rfl⟩
  | cons w ws ih =>
    have hw := bswap16_toNat w
    have hlt := w.isLt
    rw [List.map_cons, wordSum_cons, wordSum_cons]
    constructor
    · omega
    · omega

/-- A sum of all ones does not depend on the byte order. -/
theorem onesSum_bswap_eq_ones_iff (ws : List (BitVec 16)) :
    onesSum (ws.map bswap16) = 0xFFFF ↔ onesSum ws = 0xFFFF := by
  obtain ⟨hmod, hzero⟩ := wordSum_bswap ws
  rw [onesSum_eq_ones_iff, onesSum_eq_ones_iff, Nat.dvd_iff_mod_eq_zero, Nat.dvd_iff_mod_eq_zero]
  omega

/-! ## The sum as a program computes it -/

/-- A loop that adds up words in 32 bits does not overflow on less than 65537 of them. -/
theorem foldl_add_toNat {ι : Type} (f : ι → BitVec 16) (l : List ι) (s : BitVec 32)
    (h : s.toNat + wordSum (l.map f) < 2 ^ 32) :
    (l.foldl (fun csum i => csum + (f i).setWidth 32) s).toNat = s.toNat + wordSum (l.map f) := by
  induction l generalizing s with
  | nil => rfl
  | cons i l ih =>
    rw [List.map_cons, wordSum_cons] at h ⊢
    have hi := (f i).isLt
    have hstep : (s + (f i).setWidth 32).toNat = s.toNat + (f i).toNat := by
      rw [BitVec.toNat_add, BitVec.toNat_setWidth]
      omega
    rw [List.foldl_cons, ih _ (by omega), hstep, Nat.add_assoc]

/-- The checksum of a sum that is folded once. -/
theorem fold_not_toNat (csum : BitVec 32) :
    ((~~~((csum &&& 0xFFFF) + (csum >>> 16))).setWidth 16).toNat =
      65535 - (csum.toNat % 65536 + csum.toNat / 65536) % 65536 := by
  have hlt := csum.isLt
  have hand : (csum &&& ((0xFFFF : ℕ) : BitVec 32)).toNat = csum.toNat % 65536 := by
    rw [BitVec.toNat_and]
    exact Nat.and_two_pow_sub_one_eq_mod csum.toNat 16
  have hshift : (csum >>> 16).toNat = csum.toNat / 65536 := by
    rw [BitVec.toNat_ushiftRight, Nat.shiftRight_eq_div_pow]
  rw [BitVec.toNat_setWidth, BitVec.toNat_not, BitVec.toNat_add, hand, hshift]
  omega

end ChainingBox.Lib
