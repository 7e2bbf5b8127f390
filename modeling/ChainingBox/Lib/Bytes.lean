import Mathlib

/-!
# Byte buffers

A packet is a list of bytes. Programs read fields from it at fixed offsets on a little-endian
machine, and write fields by overwriting bytes in place. `load8`, `load16`, and `load32` are the
reads, `le16` and `le32` give the bytes of a word in memory order, and `store` is the write. A field
kept in network byte order is converted by a byte swap, `bswap16` or `bswap32`, as the source does.

The lemmas say what a load, a slice, or a suffix of a buffer is when the buffer is written as a
concatenation of its fields. `store_mid` is the one that proofs about a sequence of writes use: a
write that covers exactly one field of the concatenation replaces that field.
-/

namespace ChainingBox.Lib

/-- A byte of memory. -/
abbrev Byte := BitVec 8

/-- A byte buffer, in memory order. -/
abbrev Bytes := List Byte

/-- A buffer of exactly `n` bytes. -/
abbrev ByteVec (n : ℕ) := { b : Bytes // b.length = n }

/-! ## Loads -/

/-- The byte at offset `o`. -/
def load8 (b : Bytes) (o : ℕ) : Byte := b.getD o 0

/-- The 16-bit word at offset `o`, on a little-endian machine. -/
def load16 (b : Bytes) (o : ℕ) : BitVec 16 := load8 b (o + 1) ++ load8 b o

/-- The 32-bit word at offset `o`, on a little-endian machine. -/
def load32 (b : Bytes) (o : ℕ) : BitVec 32 :=
  load8 b (o + 3) ++ load8 b (o + 2) ++ load8 b (o + 1) ++ load8 b o

/-- The 64-bit word at offset `o`, on a little-endian machine. -/
def load64 (b : Bytes) (o : ℕ) : BitVec 64 := load32 b (o + 4) ++ load32 b o

/-- The `n` bytes from offset `o` on, as a copy of a fixed-size object reads them. -/
def slice (b : Bytes) (o n : ℕ) : ByteVec n := ⟨(b.drop o).takeD n 0, List.takeD_length _ _ _⟩

theorem load8_append_left {a b : Bytes} {o : ℕ} (h : o < a.length) :
    load8 (a ++ b) o = load8 a o := by
  simp [load8, List.getElem?_append_left h]

theorem load8_append_right (a b : Bytes) (o : ℕ) : load8 (a ++ b) (a.length + o) = load8 b o := by
  simp [load8, List.getElem?_append_right]

/-- Byte strings of one length are equal if they have the same bytes. -/
theorem ext_load8_iff {a b : Bytes} (hl : a.length = b.length) :
    a = b ↔ ∀ i < a.length, load8 a i = load8 b i := by
  constructor
  · rintro rfl i -
    rfl
  · intro h
    refine List.ext_getElem hl fun i hi hi' => ?_
    simpa [load8, hi, hi'] using h i hi

theorem load8_drop (b : Bytes) (o i : ℕ) : load8 (b.drop o) i = load8 b (o + i) := by
  simp [load8]

theorem load16_drop (b : Bytes) (o i : ℕ) : load16 (b.drop o) i = load16 b (o + i) := by
  simp [load16, load8_drop, Nat.add_assoc]

theorem load32_drop (b : Bytes) (o i : ℕ) : load32 (b.drop o) i = load32 b (o + i) := by
  simp [load32, load8_drop, Nat.add_assoc]

/-- The slice that a concatenation has in the middle. -/
theorem slice_mid {a v c : Bytes} {o n : ℕ} (ha : a.length = o) (hv : v.length = n) :
    (slice (a ++ (v ++ c)) o n).1 = v := by
  subst ha hv
  simp [slice, List.takeD_eq_take]

/-- A slice inside the buffer is the bytes at that place. -/
theorem slice_eq_take {b : Bytes} {o n : ℕ} (h : o + n ≤ b.length) :
    (slice b o n).1 = (b.drop o).take n := by
  show (b.drop o).takeD n 0 = _
  rw [List.takeD_eq_take]
  simp only [List.length_drop]
  omega

/-- A load in a slice reads the buffer at the shifted offset. -/
theorem load8_slice {b : Bytes} {o n i : ℕ} (h : o + n ≤ b.length) (hi : i < n) :
    load8 (slice b o n).1 i = load8 b (o + i) := by
  rw [slice_eq_take h]
  simp [load8, hi]

theorem load32_slice {b : Bytes} {o n i : ℕ} (h : o + n ≤ b.length) (hi : i + 3 < n) :
    load32 (slice b o n).1 i = load32 b (o + i) := by
  unfold load32
  rw [load8_slice h (by omega), load8_slice h (by omega), load8_slice h (by omega),
    load8_slice h (by omega)]
  simp only [Nat.add_assoc]

/-! ## Words as bytes -/

/-- The `k`-th byte of a word, the least significant first. -/
def byteOf {w : ℕ} (x : BitVec w) (k : ℕ) : Byte := x.extractLsb' (8 * k) 8

/-- The bytes of a 16-bit word in memory order. -/
def le16 (x : BitVec 16) : Bytes := [byteOf x 0, byteOf x 1]

/-- The bytes of a 32-bit word in memory order. -/
def le32 (x : BitVec 32) : Bytes := [byteOf x 0, byteOf x 1, byteOf x 2, byteOf x 3]

/-- The bytes of a 64-bit word in memory order. -/
def le64 (x : BitVec 64) : Bytes :=
  [byteOf x 0, byteOf x 1, byteOf x 2, byteOf x 3, byteOf x 4, byteOf x 5, byteOf x 6, byteOf x 7]

/-- Swap the two bytes of a 16-bit word. -/
def bswap16 (x : BitVec 16) : BitVec 16 := byteOf x 0 ++ byteOf x 1

/-- Reverse the four bytes of a 32-bit word. -/
def bswap32 (x : BitVec 32) : BitVec 32 := byteOf x 0 ++ byteOf x 1 ++ byteOf x 2 ++ byteOf x 3

@[simp] theorem le16_length (x : BitVec 16) : (le16 x).length = 2 := rfl

@[simp] theorem le32_length (x : BitVec 32) : (le32 x).length = 4 := rfl

@[simp] theorem le64_length (x : BitVec 64) : (le64 x).length = 8 := rfl

/-- The bytes of an XOR are the XORs of the bytes. -/
theorem byteOf_xor {w : ℕ} (x y : BitVec w) (k : ℕ) :
    byteOf (x ^^^ y) k = byteOf x k ^^^ byteOf y k := BitVec.extractLsb'_xor

/-- A 16-bit word is its two bytes. -/
theorem bytes_append16 (x : BitVec 16) : (byteOf x 1 ++ byteOf x 0 : BitVec 16) = x := by
  unfold byteOf
  rw [BitVec.extractLsb'_append_extractLsb'_eq_extractLsb' (by rfl)]
  simp

/-- A 32-bit word is its four bytes. -/
theorem bytes_append32 (x : BitVec 32) :
    (byteOf x 3 ++ byteOf x 2 ++ byteOf x 1 ++ byteOf x 0 : BitVec 32) = x := by
  unfold byteOf
  rw [BitVec.extractLsb'_append_extractLsb'_eq_extractLsb' (by rfl),
    BitVec.extractLsb'_append_extractLsb'_eq_extractLsb' (by rfl),
    BitVec.extractLsb'_append_extractLsb'_eq_extractLsb' (by rfl)]
  simp

/-- The bytes of a 16-bit word built from two bytes. -/
theorem byteOf_append16 (a b : Byte) :
    byteOf (a ++ b : BitVec 16) 0 = b ∧ byteOf (a ++ b : BitVec 16) 1 = a := by
  unfold byteOf
  constructor
  all_goals
    ext i hi
    simp only [BitVec.getElem_extractLsb', BitVec.getLsbD_append]
    grind

/-- The bytes of a 32-bit word built from four bytes. -/
theorem byteOf_append32 (a b c d : Byte) :
    byteOf (a ++ b ++ c ++ d : BitVec 32) 0 = d ∧ byteOf (a ++ b ++ c ++ d : BitVec 32) 1 = c ∧
      byteOf (a ++ b ++ c ++ d : BitVec 32) 2 = b ∧
      byteOf (a ++ b ++ c ++ d : BitVec 32) 3 = a := by
  unfold byteOf
  refine ⟨?_, ?_, ?_, ?_⟩
  all_goals
    ext i hi
    simp only [BitVec.getElem_extractLsb', BitVec.getLsbD_append]
    grind

/-- The bytes of a 64-bit word built from two halves. -/
theorem byteOf_append64 (hi lo : BitVec 32) {k : ℕ} (hk : k < 4) :
    byteOf (hi ++ lo : BitVec 64) k = byteOf lo k ∧
      byteOf (hi ++ lo : BitVec 64) (4 + k) = byteOf hi k := by
  unfold byteOf
  constructor
  all_goals
    ext i hi
    simp only [BitVec.getElem_extractLsb', BitVec.getLsbD_append]
    grind

@[simp] theorem bswap16_bswap16 (x : BitVec 16) : bswap16 (bswap16 x) = x := by
  unfold bswap16
  simp only [byteOf_append16]
  exact bytes_append16 x

@[simp] theorem bswap32_bswap32 (x : BitVec 32) : bswap32 (bswap32 x) = x := by
  unfold bswap32
  simp only [byteOf_append32]
  exact bytes_append32 x

theorem bswap16_injective : Function.Injective bswap16 :=
  Function.LeftInverse.injective bswap16_bswap16

theorem bswap32_injective : Function.Injective bswap32 :=
  Function.LeftInverse.injective bswap32_bswap32

@[simp] theorem load16_le16 (x : BitVec 16) (b : Bytes) : load16 (le16 x ++ b) 0 = x :=
  bytes_append16 x

@[simp] theorem load32_le32 (x : BitVec 32) (b : Bytes) : load32 (le32 x ++ b) 0 = x :=
  bytes_append32 x

/-- The bytes of the 16-bit word at offset `o` are the two bytes there. -/
theorem le16_load16 {b : Bytes} {o : ℕ} (h : o + 2 ≤ b.length) :
    le16 (load16 b o) = (b.drop o).take 2 := by
  have hb := byteOf_append16 (load8 b (o + 1)) (load8 b o)
  have hload (j : ℕ) (hj : o + j < b.length) : load8 b (o + j) = b[o + j] := by simp [load8, hj]
  apply List.ext_getElem
  · simp; omega
  · intro i hi _
    simp only [le16_length] at hi
    rw [List.getElem_take, List.getElem_drop]
    interval_cases i
    · exact hb.1.trans (hload 0 (by omega))
    · exact hb.2.trans (hload 1 (by omega))

/-- The bytes of the 32-bit word at offset `o` are the four bytes there. -/
theorem le32_load32 {b : Bytes} {o : ℕ} (h : o + 4 ≤ b.length) :
    le32 (load32 b o) = (b.drop o).take 4 := by
  have hb := byteOf_append32 (load8 b (o + 3)) (load8 b (o + 2)) (load8 b (o + 1)) (load8 b o)
  have hload (j : ℕ) (hj : o + j < b.length) : load8 b (o + j) = b[o + j] := by simp [load8, hj]
  apply List.ext_getElem
  · simp; omega
  · intro i hi _
    simp only [le32_length] at hi
    rw [List.getElem_take, List.getElem_drop]
    interval_cases i
    · exact hb.1.trans (hload 0 (by omega))
    · exact hb.2.1.trans (hload 1 (by omega))
    · exact hb.2.2.1.trans (hload 2 (by omega))
    · exact hb.2.2.2.trans (hload 3 (by omega))

/-- The bytes of the 32-bit word at offset `o`. -/
theorem byteOf_load32 (b : Bytes) (o : ℕ) {k : ℕ} (hk : k < 4) :
    byteOf (load32 b o) k = load8 b (o + k) := by
  obtain ⟨h0, h1, h2, h3⟩ :=
    byteOf_append32 (load8 b (o + 3)) (load8 b (o + 2)) (load8 b (o + 1)) (load8 b o)
  interval_cases k
  · exact h0
  · exact h1
  · exact h2
  · exact h3

/-- The bytes of the 64-bit word at offset `o`. -/
theorem byteOf_load64 (b : Bytes) (o : ℕ) {k : ℕ} (hk : k < 8) :
    byteOf (load64 b o) k = load8 b (o + k) := by
  by_cases hlow : k < 4
  · exact (byteOf_append64 _ _ hlow).1.trans (byteOf_load32 b o hlow)
  · obtain ⟨j, rfl⟩ := Nat.exists_eq_add_of_le (Nat.le_of_not_lt hlow)
    rw [← Nat.add_assoc]
    exact (byteOf_append64 _ _ (by omega)).2.trans (byteOf_load32 b (o + 4) (by omega))

/-- The bytes of a 64-bit word, read back one at a time. -/
theorem load8_le64 (x : BitVec 64) {k : ℕ} (hk : k < 8) : load8 (le64 x) k = byteOf x k := by
  interval_cases k <;> rfl

/-- Decrementing a word whose low byte is not zero decrements that byte and keeps the others. -/
theorem byteOf_sub_one {x : BitVec 32} (h : byteOf x 0 ≠ 0) :
    byteOf (x - 1) 0 = byteOf x 0 - 1 ∧ byteOf (x - 1) 1 = byteOf x 1 ∧
      byteOf (x - 1) 2 = byteOf x 2 ∧ byteOf (x - 1) 3 = byteOf x 3 := by
  have hlow : x.toNat % 256 ≠ 0 := by
    intro h0
    apply h
    apply BitVec.eq_of_toNat_eq
    simpa [byteOf, BitVec.extractLsb'_toNat] using h0
  refine ⟨?_, ?_, ?_, ?_⟩
  all_goals
    apply BitVec.eq_of_toNat_eq
    simp [byteOf, Nat.shiftRight_eq_div_pow, BitVec.toNat_sub]
    omega

/-- A word shifted left by a byte and combined with another one, by the bytes of both. -/
theorem toNat_or_shift (id x : BitVec 32) :
    (id <<< 8 ||| x).toNat =
      256 * (id.toNat % 2 ^ 24 ||| x.toNat / 256) + x.toNat % 256 := by
  have hid : (id <<< 8).toNat = 256 * (id.toNat % 2 ^ 24) := by
    rw [BitVec.toNat_shiftLeft, Nat.shiftLeft_eq]
    omega
  have hdiv : ((id <<< 8 ||| x).toNat) / 2 ^ 8 = id.toNat % 2 ^ 24 ||| x.toNat / 256 := by
    rw [BitVec.toNat_or, hid, Nat.or_div_two_pow]
    congr 1
    omega
  have hmod : ((id <<< 8 ||| x).toNat) % 2 ^ 8 = x.toNat % 256 := by
    rw [BitVec.toNat_or, hid, Nat.or_mod_two_pow]
    have hzero : 256 * (id.toNat % 2 ^ 24) % 2 ^ 8 = 0 := by omega
    rw [hzero, Nat.zero_or]
  omega

/-! ## Stores -/

/-- Overwrite the bytes from offset `o` on with `v`. -/
def store (b : Bytes) (o : ℕ) (v : Bytes) : Bytes := b.take o ++ v ++ b.drop (o + v.length)

/-- A write inside the buffer keeps its length. -/
theorem store_length {b v : Bytes} {o : ℕ} (h : o + v.length ≤ b.length) :
    (store b o v).length = b.length := by
  simp [store]
  omega

/-- A write that covers exactly the middle field of a concatenation replaces it. -/
theorem store_mid {a v c v' : Bytes} {o : ℕ} (ha : a.length = o) (hv : v.length = v'.length) :
    store (a ++ (v ++ c)) o v' = a ++ (v' ++ c) := by
  subst ha
  have hd : List.drop (a.length + v'.length) (a ++ (v ++ c)) = c := by
    rw [← hv, ← List.append_assoc, ← List.length_append, List.drop_left]
  rw [store, hd, List.take_left, List.append_assoc]

/-- A write inside the middle field of a concatenation is a write to that field. -/
theorem store_append_mid {a b c v : Bytes} {o n : ℕ} (ha : a.length = n)
    (h : o + v.length ≤ b.length) :
    store (a ++ (b ++ c)) (n + o) v = a ++ (store b o v ++ c) := by
  have hb : b = b.take o ++ ((b.drop o).take v.length ++ b.drop (o + v.length)) := by
    rw [← List.drop_drop, List.take_append_drop, List.take_append_drop]
  have hpre : (a ++ b.take o).length = n + o := by
    rw [List.length_append, ha, List.length_take]
    omega
  have hfield : ((b.drop o).take v.length).length = v.length := by
    rw [List.length_take, List.length_drop]
    omega
  have hst := store_mid (c := b.drop (o + v.length) ++ c) hpre hfield
  conv_lhs => rw [hb]
  simp only [store, List.append_assoc] at hst ⊢
  exact hst

/-- The byte just written. -/
theorem load8_store_self {b : Bytes} {o : ℕ} (x : Byte) (h : o < b.length) :
    load8 (store b o [x]) o = x := by
  have hl : (b.take o).length = o := by
    rw [List.length_take]
    omega
  have hr := load8_append_right (b.take o) ([x] ++ b.drop (o + 1)) 0
  rw [hl] at hr
  rw [store, List.append_assoc]
  exact hr

/-- A byte of the buffer after a write inside it. -/
theorem load8_store {b v : Bytes} {o i : ℕ} (h : o + v.length ≤ b.length) :
    load8 (store b o v) i =
      if o ≤ i ∧ i < o + v.length then load8 v (i - o) else load8 b i := by
  have hl : (b.take o).length = o := by
    rw [List.length_take]
    omega
  rw [store, List.append_assoc]
  by_cases hbefore : i < o
  · have htake : load8 (b.take o) i = load8 b i := by simp [load8, hbefore]
    rw [load8_append_left (by omega), if_neg (by omega), htake]
  · obtain ⟨j, rfl⟩ := Nat.exists_eq_add_of_le (Nat.le_of_not_lt hbefore)
    have hin := load8_append_right (b.take o) (v ++ b.drop (o + v.length)) j
    rw [hl] at hin
    rw [hin, Nat.add_sub_cancel_left]
    by_cases hmid : j < v.length
    · rw [load8_append_left hmid, if_pos (by omega)]
    · obtain ⟨m, rfl⟩ := Nat.exists_eq_add_of_le (Nat.le_of_not_lt hmid)
      rw [load8_append_right, load8_drop, if_neg (by omega), Nat.add_assoc]

/-- The bytes after a write are those of the buffer. -/
theorem drop_store {b v : Bytes} {o n : ℕ} (h : o + v.length ≤ n) (hb : o + v.length ≤ b.length) :
    (store b o v).drop n = b.drop n := by
  have hl : (b.take o ++ v).length = o + v.length := by simp; omega
  rw [store, List.drop_append, hl, List.drop_eq_nil_of_le (by omega), List.nil_append,
    List.drop_drop]
  congr 1
  omega

/-- The bytes before a write are those of the buffer. -/
theorem take_store {b v : Bytes} {o n : ℕ} (h : n ≤ o) (hb : o ≤ b.length) :
    (store b o v).take n = b.take n := by
  rw [store, List.append_assoc, List.take_append_of_le_length (by simp; omega), List.take_take,
    Nat.min_eq_left h]

/-! ## Swapped fields -/

/-- Exchange the field of `n` bytes at offset `o` and the one right behind it. -/
def swapFields (b : Bytes) (o n : ℕ) : Bytes :=
  store (store b o ((b.drop (o + n)).take n)) (o + n) ((b.drop o).take n)

/-- The place whose byte comes to a place. -/
def swapPlace (o n i : ℕ) : ℕ :=
  if o ≤ i ∧ i < o + n then i + n else if o + n ≤ i ∧ i < o + n + n then i - n else i

theorem swapPlace_swapPlace (o n i : ℕ) : swapPlace o n (swapPlace o n i) = i := by
  unfold swapPlace
  split_ifs <;> omega

/-- The bytes of a field. -/
theorem load8_take_drop (b : Bytes) (o : ℕ) {n i : ℕ} (h : i < n) :
    load8 ((b.drop o).take n) i = load8 b (o + i) := by
  simp [load8, h]

variable {b : Bytes} {o n : ℕ}

theorem length_field (h : o + n ≤ b.length) : ((b.drop o).take n).length = n := by
  rw [List.length_take, List.length_drop]
  omega

theorem swapFields_length (h : o + n + n ≤ b.length) : (swapFields b o n).length = b.length := by
  have hfirst : ((b.drop o).take n).length = n := length_field (by omega)
  have hsecond : ((b.drop (o + n)).take n).length = n := length_field h
  have hin := @store_length b _ o (show o + ((b.drop (o + n)).take n).length ≤ b.length by omega)
  rw [swapFields, store_length (by omega), hin]

theorem load8_swapFields (h : o + n + n ≤ b.length) (i : ℕ) :
    load8 (swapFields b o n) i = load8 b (swapPlace o n i) := by
  have hfirst : ((b.drop o).take n).length = n := length_field (by omega)
  have hsecond : ((b.drop (o + n)).take n).length = n := length_field h
  have hin := @store_length b _ o (show o + ((b.drop (o + n)).take n).length ≤ b.length by omega)
  rw [swapFields, load8_store (by omega), load8_store (by omega), hfirst, hsecond]
  unfold swapPlace
  by_cases hbehind : o + n ≤ i ∧ i < o + n + n
  · rw [if_pos hbehind, if_neg (by omega), if_pos hbehind, load8_take_drop _ _ (by omega)]
    congr 1
    omega
  · rw [if_neg hbehind, if_neg hbehind]
    split_ifs with hat
    · rw [load8_take_drop _ _ (by omega)]
      congr 1
      omega
    · rfl

theorem swapFields_swapFields (h : o + n + n ≤ b.length) :
    swapFields (swapFields b o n) o n = b := by
  have hlen := swapFields_length h
  have htwice := @swapFields_length (swapFields b o n) o n (by omega)
  rw [ext_load8_iff (htwice.trans hlen)]
  intro i _
  rw [load8_swapFields (by omega), load8_swapFields h, swapPlace_swapPlace]

/-- Exchanges at places that do not meet can be made in either order. -/
theorem swapFields_comm {o' m : ℕ} (hapart : o + n + n ≤ o') (h : o' + m + m ≤ b.length) :
    swapFields (swapFields b o' m) o n = swapFields (swapFields b o n) o' m := by
  have hlen := @swapFields_length b o n (by omega)
  have hlen' := swapFields_length h
  have hleft := @swapFields_length (swapFields b o' m) o n (by omega)
  have hright := @swapFields_length (swapFields b o n) o' m (by omega)
  have hplace (i : ℕ) : swapPlace o' m (swapPlace o n i) = swapPlace o n (swapPlace o' m i) := by
    unfold swapPlace
    split_ifs <;> omega
  rw [ext_load8_iff (by omega)]
  intro i _
  rw [load8_swapFields (by omega), load8_swapFields h, load8_swapFields (by omega),
    load8_swapFields (by omega), hplace]

end ChainingBox.Lib
