import ChainingBox.Functions.Keystream
import ChainingBox.Lib.ChaCha

/-!
# The cipher of the encrypting function is ChaCha8

`doublerounds` has the rounds unrolled into quarter-rounds on an array of sixteen words. Each of them
works on four places, and the places of a round's four are the columns, or the diagonals, of the
array as a matrix; so a double round of the code is one of ChaCha (`mat_doubleround`). `init` and the
counter of `next` give the matrix of each block in turn (`state_count`), so the keystream is that of
ChaCha8 (`keystream_init`).

`next` XORs the block in place, in eight words of 64 bits (`nextWords`), which is the XOR of its
bytes (`nextWords_eq`). What the loop of `parse_ip` does to the bytes of a frame then depends on
their positions alone, and the same loop once more takes it back (`crypt_crypt`).
-/

namespace ChainingBox

open Lib
open Lib.ChaCha (Mat InPlace quarter columnRound diagonalRound doubleRound)

namespace Chacha

/-! ## The source's own writing -/

/-- `init_ctx`. -/
def initCtx (rounds : ℕ) : Ctx where
  state := Vector.replicate 16 0
  rounds := rounds

/-- `init`, on a context: it writes the sixteen words. -/
def Ctx.init (x : Ctx) (key iv : Bytes) : Ctx :=
  let state := x.state
  let state := state.setIfInBounds 0 (load32 TAU 0)
  let state := state.setIfInBounds 1 (load32 TAU 4)
  let state := state.setIfInBounds 2 (load32 TAU 8)
  let state := state.setIfInBounds 3 (load32 TAU 12)
  let state := state.setIfInBounds 4 (load32 key 0)
  let state := state.setIfInBounds 5 (load32 key 4)
  let state := state.setIfInBounds 6 (load32 key 8)
  let state := state.setIfInBounds 7 (load32 key 12)
  let state := state.setIfInBounds 8 (load32 key 0)
  let state := state.setIfInBounds 9 (load32 key 4)
  let state := state.setIfInBounds 10 (load32 key 8)
  let state := state.setIfInBounds 11 (load32 key 12)
  let state := state.setIfInBounds 12 0
  let state := state.setIfInBounds 13 0
  let state := state.setIfInBounds 14 (load32 iv 0)
  { x with state := state.setIfInBounds 15 (load32 iv 4) }

/-- One of the eight words of `next`: `*m_pos ^= *x_pos`. -/
def xorWord (m : ℕ) (x frame : Bytes) (i : ℕ) : Bytes :=
  store frame (m + 8 * i) (le64 (load64 frame (m + 8 * i) ^^^ load64 x (8 * i)))

/-- `next`, in words of 64 bits. -/
def nextWords (ctx : Ctx) (frame : Bytes) (m : ℕ) : Ctx × Bytes :=
  let x := doublerounds ctx.state ctx.rounds
  (ctx.count, (List.range 8).foldl (xorWord m x) frame)

/-- The loop of `parse_ip`, over at most `n` blocks. -/
def cryptBlocks : ℕ → Ctx → Bytes → ℕ → Bytes
  | 0, _, frame, _ => frame
  | n + 1, ctx, frame, pkt_data =>
    if frame.length < pkt_data + 64 then frame
    else
      let (ctx, frame) := nextWords ctx frame pkt_data
      cryptBlocks n ctx frame (pkt_data + 64)

/-- The encryption in `parse_ip`, from `init_ctx` to the end of the loop. -/
def crypt (key : ByteVec 32) (iv : ByteVec 8) (frame : Bytes) (pkt_data : ℕ) : Bytes :=
  cryptBlocks 24 ((initCtx CHACHA_ROUNDS).init key.1 iv.1) frame pkt_data

/-- The key and the IV of the program: `t_key` and `t_iv`. -/
def tKey : ByteVec 32 := ⟨List.replicate 32 0, List.length_replicate⟩

def tIv : ByteVec 8 := ⟨List.replicate 8 0, List.length_replicate⟩

/-- `init` leaves nothing of what the context held before. -/
theorem init_eq (x : Ctx) (key iv : Bytes) : x.init key iv = init key iv x.rounds := by
  obtain ⟨state, rounds⟩ := x
  have hstate : (Ctx.init ⟨state, rounds⟩ key iv).state = (init key iv rounds).state := by
    apply Vector.ext
    intro i hi
    interval_cases i
    all_goals simp [Ctx.init, init]
  exact congrArg (fun s => (⟨s, rounds⟩ : Ctx)) hstate

/-! ## The rounds -/

/-- The word of a state at a place. -/
def word (x : Vector (BitVec 32) 16) (i : Fin 16) : BitVec 32 := x.get i

/-- The place of a word of the matrix. -/
def place (i j : Fin 4) : Fin 16 := ⟨4 * i + j, by omega⟩

/-- The matrix that the words of a state make, by rows. -/
def mat (x : Vector (BitVec 32) 16) : Mat := fun i j => word x (place i j)

/-- The places of the quarter-rounds in the first half of a double round. -/
def columns (j r : Fin 4) : Fin 16 := place r j

/-- The places of those in the second half. -/
def diagonals (j r : Fin 4) : Fin 16 := place r (j + r)

theorem word_set (x : Vector (BitVec 32) 16) (a i : Fin 16) (v : BitVec 32) (h : a.1 < 16) :
    word (x.set a v h) i = if a = i then v else word x i := by
  simp only [word, Vector.get_eq_getElem, Vector.getElem_set, Fin.ext_iff]

/-- A write to one of four places. -/
theorem inPlace_set {p : Fin 4 → Fin 16} (hp : Function.Injective p) (r : Fin 4)
    (v : (Fin 4 → BitVec 32) → BitVec 32) (x : Vector (BitVec 32) 16) :
    InPlace (fun w => Function.update w r (v w)) p (word x)
      (word (x.set (p r) (v fun s => word x (p s)))) where
  places s := by
    rw [word_set, Function.update_apply]
    exact if_congr (hp.eq_iff.trans eq_comm) rfl rfl
  others i hi := by rw [word_set, if_neg (hi r).symm]

/-- `QUARTERROUND` on four different places is the quarter-round in place. -/
theorem inPlace_quarterround {p : Fin 4 → Fin 16} (hp : Function.Injective p)
    (x : Vector (BitVec 32) 16) :
    InPlace quarter p (word x) (word (ChaCha.atPlaces (quarterround x) p)) := by
  unfold ChaCha.atPlaces quarterround
  extract_lets x1 x2 x3 x4 x5 x6 x7
  have h1 := inPlace_set hp 0 (fun w => w 0 + w 1) x
  have h2 := inPlace_set hp 3 (fun w => (w 3 ^^^ w 0).rotateLeft 16) x1
  have h3 := inPlace_set hp 2 (fun w => w 2 + w 3) x2
  have h4 := inPlace_set hp 1 (fun w => (w 1 ^^^ w 2).rotateLeft 12) x3
  have h5 := inPlace_set hp 0 (fun w => w 0 + w 1) x4
  have h6 := inPlace_set hp 3 (fun w => (w 3 ^^^ w 0).rotateLeft 8) x5
  have h7 := inPlace_set hp 2 (fun w => w 2 + w 3) x6
  have h8 := inPlace_set hp 1 (fun w => (w 1 ^^^ w 2).rotateLeft 7) x7
  rw [ChaCha.quarter_eq]
  exact ((((((h1.comp h2).comp h3).comp h4).comp h5).comp h6).comp h7).comp h8

/-- The quarter-rounds of one round. -/
def quarterrounds (P : Fin 4 → Fin 4 → Fin 16) (x : Vector (BitVec 32) 16) :
    Vector (BitVec 32) 16 :=
  (List.finRange 4).foldl (fun x j => ChaCha.atPlaces (quarterround x) (P j)) x

theorem word_quarterrounds {P : Fin 4 → Fin 4 → Fin 16} (hP : Function.Injective2 P)
    (x : Vector (BitVec 32) 16) (j r : Fin 4) :
    word (quarterrounds P x) (P j r) = quarter (fun s => word x (P j s)) r := by
  have hstep (x : Vector (BitVec 32) 16) (j : Fin 4) : InPlace quarter (P j) (word x)
      (word (ChaCha.atPlaces (quarterround x) (P j))) :=
    inPlace_quarterround (fun r s h => (hP h).2) x
  exact (ChaCha.get_foldl hP hstep x (List.nodup_finRange 4) j r).trans
    (if_pos (List.mem_finRange j))

theorem columns_injective : Function.Injective2 columns := by
  unfold Function.Injective2
  decide

theorem diagonals_injective : Function.Injective2 diagonals := by
  unfold Function.Injective2
  decide

theorem mat_columns (x : Vector (BitVec 32) 16) :
    mat (quarterrounds columns x) = columnRound (mat x) := by
  funext i j
  exact word_quarterrounds columns_injective x j i

theorem mat_diagonals (x : Vector (BitVec 32) 16) :
    mat (quarterrounds diagonals x) = diagonalRound (mat x) := by
  funext i j
  have hword := word_quarterrounds diagonals_injective x (j - i) i
  rw [diagonals, sub_add_cancel] at hword
  exact hword

/-- The unrolled round is a double round of ChaCha. -/
theorem mat_doubleround (x : Vector (BitVec 32) 16) :
    mat (doubleround x) = doubleRound (mat x) := by
  have hquarters (P : Fin 4 → Fin 4 → Fin 16) (x : Vector (BitVec 32) 16) : quarterrounds P x =
      quarterround (quarterround (quarterround (quarterround x (P 0 0) (P 0 1) (P 0 2) (P 0 3))
        (P 1 0) (P 1 1) (P 1 2) (P 1 3)) (P 2 0) (P 2 1) (P 2 2) (P 2 3))
        (P 3 0) (P 3 1) (P 3 2) (P 3 3) := by
    have hlist : List.finRange 4 = [0, 1, 2, 3] := rfl
    rw [quarterrounds, hlist]
    simp only [List.foldl_cons, List.foldl_nil, ChaCha.atPlaces]
  have hcolumns (j r : Fin 4) : columns j r =
      ![![0, 4, 8, 12], ![1, 5, 9, 13], ![2, 6, 10, 14], ![3, 7, 11, 15]] j r := by
    revert j r
    decide
  have hdiagonals (j r : Fin 4) : diagonals j r =
      ![![0, 5, 10, 15], ![1, 6, 11, 12], ![2, 7, 8, 13], ![3, 4, 9, 14]] j r := by
    revert j r
    decide
  -- The places that the source writes out are those of the columns and the diagonals.
  have hrounds : doubleround x = quarterrounds diagonals (quarterrounds columns x) := by
    rw [hquarters, hquarters]
    simp only [doubleround, hcolumns, hdiagonals, Matrix.cons_val]
  rw [hrounds, mat_diagonals, mat_columns, doubleRound]

theorem mat_iterate (n : ℕ) (x : Vector (BitVec 32) 16) :
    mat (doubleround^[n] x) = doubleRound^[n] (mat x) :=
  Function.Semiconj.iterate_right mat_doubleround n x

/-! ## The blocks -/

/-- The words of a state, row by row. -/
theorem toList_eq (x : Vector (BitVec 32) 16) :
    x.toList = (List.ofFn (mat x)).flatMap List.ofFn :=
  calc x.toList = (Vector.ofFn (word x)).toList := congrArg Vector.toList Vector.ofFn_getElem.symm
    _ = List.ofFn (word x) := Vector.toList_ofFn
    _ = (List.ofFn (mat x)).flatMap List.ofFn := rfl

/-- `doublerounds` is the block of the state. -/
theorem doublerounds_eq (input : Vector (BitVec 32) 16) (rounds : ℕ) :
    doublerounds input rounds = ChaCha.block ((rounds + 1) / 2) (mat input) := by
  have hsum (x : Vector (BitVec 32) 16) : mat (x.zipWith (· + ·) input) = mat x + mat input := by
    funext i j
    exact Vector.getElem_zipWith _
  unfold doublerounds
  dsimp only
  rw [toList_eq, hsum, mat_iterate, List.flatMap_assoc]
  rfl

/-- The key of 128 bits in the first half of `t_key`. -/
def key128 (key : ByteVec 32) : ByteVec 16 := slice key.1 0 16

theorem load32_key128 (key : ByteVec 32) {i : ℕ} (hi : i + 3 < 16) :
    load32 (key128 key).1 i = load32 key.1 i := by
  have hslice : load32 (slice key.1 0 16).1 i = load32 key.1 (0 + i) :=
    load32_slice (by rw [key.2]; omega) hi
  rwa [Nat.zero_add] at hslice

/-- `init` makes the matrix of the first block. -/
theorem mat_init (key : ByteVec 32) (iv : ByteVec 8) (rounds : ℕ) :
    mat (init key.1 iv.1 rounds).state = ChaCha.input (key128 key) iv 0 := by
  have htau : ChaCha.constants = TAU := by decide
  have hkey (j : Fin 4) : load32 (key128 key).1 (4 * j) = load32 key.1 (4 * j) :=
    load32_key128 key (by omega)
  funext i j
  unfold ChaCha.input
  simp only [hkey, htau]
  fin_cases i
  all_goals fin_cases j <;> rfl

/-- The counter makes the matrix of the next one. -/
theorem mat_count (ctx : Ctx) : mat ctx.count.state = ChaCha.increment (mat ctx.state) := by
  have hset12 (x : Vector (BitVec 32) 16) (v : BitVec 32) (i : Fin 16) :
      word (x.set 12 v) i = if 12 = i then v else word x i := word_set x 12 i v _
  have hset13 (x : Vector (BitVec 32) 16) (v : BitVec 32) (i : Fin 16) :
      word (x.set 13 v) i = if 13 = i then v else word x i := word_set x 13 i v _
  have hstate : ctx.count.state =
      if word ctx.state 12 + 1 = 0 then
        (ctx.state.set 12 (word ctx.state 12 + 1)).set 13 (word ctx.state 13 + 1)
      else ctx.state.set 12 (word ctx.state 12 + 1) := by
    have h12 : (ctx.state.set 12 (ctx.state[12] + 1))[12] = ctx.state[12] + 1 :=
      Vector.getElem_set_self _
    have h13 : (ctx.state.set 12 (ctx.state[12] + 1))[13] = ctx.state[13] :=
      Vector.getElem_set_ne _ _ (by decide)
    unfold Ctx.count
    dsimp only
    rw [h12, h13, apply_ite Ctx.state]
    rfl
  have hlow : mat ctx.state 3 0 = word ctx.state 12 := rfl
  have hhigh : mat ctx.state 3 1 = word ctx.state 13 := rfl
  funext i j
  rw [hstate, ChaCha.increment, Function.update_apply, hlow, hhigh, mat]
  by_cases hrow : i = 3
  · -- Both words of the counter are in the last row.
    subst hrow
    rw [if_pos rfl]
    split_ifs with hcarry
    · rw [hset13, hset12]
      fin_cases j <;> rfl
    · rw [hset12]
      fin_cases j <;> rfl
  · have hplace : 12 ≠ place i j ∧ 13 ≠ place i j := by
      revert i j
      decide
    rw [if_neg hrow]
    split_ifs with hcarry
    · rw [hset13, if_neg hplace.2, hset12, if_neg hplace.1]
      rfl
    · rw [hset12, if_neg hplace.1]
      rfl

/-- The state of the `j`-th block. -/
theorem state_count (key : ByteVec 32) (iv : ByteVec 8) (rounds j : ℕ) :
    mat (Ctx.count^[j] (init key.1 iv.1 rounds)).state =
        ChaCha.input (key128 key) iv (BitVec.ofNat 64 j) ∧
      (Ctx.count^[j] (init key.1 iv.1 rounds)).rounds = rounds := by
  have hrounds (ctx : Ctx) : ctx.count.rounds = ctx.rounds := by
    unfold Ctx.count
    dsimp only
    split_ifs <;> rfl
  induction j with
  | zero => exact ⟨mat_init key iv rounds, rfl⟩
  | succ j ih =>
    rw [Function.iterate_succ_apply', mat_count, hrounds, ih.1, ChaCha.increment_input]
    refine ⟨?_, ih.2⟩
    rw [BitVec.ofNat_add]
    rfl

/-- The keystream is that of ChaCha8: it has nothing of the data in it. -/
theorem keystream_init (key : ByteVec 32) (iv : ByteVec 8) (i : ℕ) :
    keystream (init key.1 iv.1 CHACHA_ROUNDS) i =
      load8 (ChaCha.chacha8 (key128 key) iv (BitVec.ofNat 64 (i / 64))) (i % 64) := by
  obtain ⟨hstate, hrounds⟩ := state_count key iv CHACHA_ROUNDS (i / 64)
  rw [keystream, doublerounds_eq, hstate, hrounds]
  rfl

example : (doublerounds (init tKey.1 tIv.1 CHACHA_ROUNDS).state CHACHA_ROUNDS).take 8 =
    [0xE2, 0x8A, 0x5F, 0xA4, 0xA6, 0x7F, 0x8C, 0x5D] := by decide +kernel

/-! ## The XOR in place -/

/-- The bytes of a frame after one of the words. -/
theorem load8_xorWord {m i : ℕ} {frame : Bytes} (x : Bytes) (h : m + 8 * i + 8 ≤ frame.length)
    (o : ℕ) :
    load8 (xorWord m x frame i) o =
      if m + 8 * i ≤ o ∧ o < m + 8 * i + 8 then load8 frame o ^^^ load8 x (o - m)
      else load8 frame o := by
  rw [xorWord, load8_store (by rwa [le64_length]), le64_length]
  split_ifs with ho
  · obtain ⟨k, rfl⟩ := Nat.exists_eq_add_of_le ho.1
    have hk : k < 8 := by omega
    have hpos : m + 8 * i + k - m = 8 * i + k := by omega
    rw [Nat.add_sub_cancel_left, load8_le64 _ hk, byteOf_xor, byteOf_load64 _ _ hk,
      byteOf_load64 _ _ hk, hpos]
  · rfl

theorem length_xorWord {m i : ℕ} {frame : Bytes} (x : Bytes) (h : m + 8 * i + 8 ≤ frame.length) :
    (xorWord m x frame i).length = frame.length := store_length (by rwa [le64_length])

/-- The first `n` words of a block. -/
theorem xorWords_spec {m n : ℕ} {frame : Bytes} (x : Bytes) (h : m + 8 * n ≤ frame.length) :
    ((List.range n).foldl (xorWord m x) frame).length = frame.length ∧
      ∀ o, load8 ((List.range n).foldl (xorWord m x) frame) o =
        if m ≤ o ∧ o < m + 8 * n then load8 frame o ^^^ load8 x (o - m) else load8 frame o := by
  induction n with
  | zero => exact ⟨rfl, fun o => (if_neg (by omega)).symm⟩
  | succ n ih =>
    obtain ⟨hlen, hbytes⟩ := ih (by omega)
    have hword : m + 8 * n + 8 ≤ ((List.range n).foldl (xorWord m x) frame).length := by
      rw [hlen]
      omega
    rw [List.range_succ, List.foldl_append, List.foldl_cons, List.foldl_nil, length_xorWord x hword]
    refine ⟨hlen, fun o => ?_⟩
    rw [load8_xorWord x hword, hbytes]
    split_ifs with h1 h2 h3 h4 h5
    all_goals first | rfl | omega

/-- The XOR in eight words is that of the bytes. -/
theorem nextWords_eq {m : ℕ} {frame : Bytes} (hm : m + 64 ≤ frame.length) (ctx : Ctx) :
    nextWords ctx frame m = next ctx frame m := by
  obtain ⟨hlen, hbytes⟩ := xorWords_spec (doublerounds ctx.state ctx.rounds)
    (show m + 8 * 8 ≤ frame.length from hm)
  refine Prod.ext rfl ((ext_load8_iff (hlen.trans (length_next hm ctx).symm)).2 fun o _ => ?_)
  rw [load8_next hm]
  refine (hbytes o).trans ?_
  split_ifs with ho
  · rw [keystream_lt ctx (by omega)]
  · rfl

theorem cryptBlocks_eq (n : ℕ) (ctx : Ctx) (frame : Bytes) (off : ℕ) :
    cryptBlocks n ctx frame off = encrypt n ctx frame off := by
  induction n generalizing ctx frame off with
  | zero => rfl
  | succ n ih =>
    rw [cryptBlocks, encrypt]
    split_ifs with hend
    · rfl
    · rw [nextWords_eq (by omega)]
      exact ih _ _ _

theorem crypt_eq (key : ByteVec 32) (iv : ByteVec 8) (frame : Bytes) (off : ℕ) :
    crypt key iv frame off = encrypt 24 (init key.1 iv.1 CHACHA_ROUNDS) frame off := by
  rw [crypt, cryptBlocks_eq, init_eq]
  rfl

/-! ## The transformation of a payload -/

/-- How many blocks the loop transforms. -/
def wholeBlocks (frame : Bytes) (off : ℕ) : ℕ := min 24 ((frame.length - off) / 64)

/-- They are those that end inside the frame, of the first 24. -/
theorem lt_wholeBlocks_iff {frame : Bytes} {off j : ℕ} :
    j < wholeBlocks frame off ↔ j < 24 ∧ off + 64 * (j + 1) ≤ frame.length := by
  unfold wholeBlocks
  omega

theorem length_crypt (key : ByteVec 32) (iv : ByteVec 8) (frame : Bytes) (off : ℕ) :
    (crypt key iv frame off).length = frame.length := by
  rw [crypt_eq]
  exact (encrypt_spec _ _ _ _).1

/-- Every byte of a transformed frame. -/
theorem load8_crypt (key : ByteVec 32) (iv : ByteVec 8) (frame : Bytes) (off i : ℕ) :
    load8 (crypt key iv frame off) i =
      if off ≤ i ∧ i < off + 64 * wholeBlocks frame off then
        load8 frame i ^^^ keystream (init key.1 iv.1 CHACHA_ROUNDS) (i - off)
      else load8 frame i := by
  rw [crypt_eq]
  exact load8_encrypt _ _ _ _ _

/-- The second run takes the first one back: both XOR the same bytes to the same places. -/
theorem crypt_crypt (key : ByteVec 32) (iv : ByteVec 8) (frame : Bytes) (off : ℕ) :
    crypt key iv (crypt key iv frame off) off = frame := by
  have hlen := length_crypt key iv frame off
  -- The second run has as many blocks, for the length is the same.
  have hblocks : wholeBlocks (crypt key iv frame off) off = wholeBlocks frame off := by
    rw [wholeBlocks, hlen, wholeBlocks]
  refine (ext_load8_iff ((length_crypt _ _ _ _).trans hlen)).2 fun i _ => ?_
  rw [load8_crypt, hblocks, load8_crypt]
  split_ifs with hin
  · rw [BitVec.xor_assoc, BitVec.xor_self, BitVec.xor_zero]
  · rfl

/-- The XOR of two byte strings of one length. -/
theorem load8_zipWith_xor {a b : Bytes} (h : a.length = b.length) (i : ℕ) :
    load8 (List.zipWith (· ^^^ ·) a b) i = load8 a i ^^^ load8 b i := by
  by_cases hi : i < a.length
  · simp [load8, hi, h ▸ hi]
  · simp [load8, Nat.le_of_not_lt hi, h ▸ Nat.le_of_not_lt hi]

/-- A whole block is XORed with the ChaCha8 block of its number. -/
theorem slice_crypt (key : ByteVec 32) (iv : ByteVec 8) {frame : Bytes} {off j : ℕ}
    (hj : j < wholeBlocks frame off) :
    (slice (crypt key iv frame off) (off + 64 * j) 64).1 =
      List.zipWith (· ^^^ ·) (slice frame (off + 64 * j) 64).1
        (ChaCha.chacha8 (key128 key) iv (BitVec.ofNat 64 j)) := by
  have hfit := (lt_wholeBlocks_iff.1 hj).2
  have hlen := length_crypt key iv frame off
  have hblock := ChaCha.length_chacha8 (key128 key) iv (BitVec.ofNat 64 j)
  have hslice : (slice frame (off + 64 * j) 64).1.length = 64 := (slice _ _ _).2
  have hout : (slice (crypt key iv frame off) (off + 64 * j) 64).1.length = 64 := (slice _ _ _).2
  have hxor : (List.zipWith (· ^^^ ·) (slice frame (off + 64 * j) 64).1
      (ChaCha.chacha8 (key128 key) iv (BitVec.ofNat 64 j))).length = 64 := by
    rw [List.length_zipWith, hslice, hblock, Nat.min_self]
  refine (ext_load8_iff (hout.trans hxor.symm)).2 fun i hi => ?_
  have hi' : i < 64 := lt_of_lt_of_eq hi hout
  -- Byte `i` of block `j` is byte `64 * j + i` of the keystream.
  have hpos : off + 64 * j + i - off = 64 * j + i := by omega
  have hdiv : (64 * j + i) / 64 = j := by omega
  have hmod : (64 * j + i) % 64 = i := by omega
  rw [load8_zipWith_xor (hslice.trans hblock.symm), load8_slice (by omega) hi',
    load8_slice (by omega) hi', load8_crypt, if_pos (by omega), hpos, keystream_init, hdiv, hmod]

/-- The encryption of a payload with a key and an IV takes itself back, keeps all bytes before the
offset and behind the last whole block, and XORs each block with the one of ChaCha8. -/
theorem crypt_spec (key : ByteVec 32) (iv : ByteVec 8) (frame : Bytes) (off : ℕ) :
    crypt key iv (crypt key iv frame off) off = frame ∧
      (crypt key iv frame off).length = frame.length ∧
      (crypt key iv frame off).take off = frame.take off ∧
      (crypt key iv frame off).drop (off + 64 * wholeBlocks frame off) =
        frame.drop (off + 64 * wholeBlocks frame off) ∧
      ∀ j < wholeBlocks frame off,
        (slice (crypt key iv frame off) (off + 64 * j) 64).1 =
          List.zipWith (· ^^^ ·) (slice frame (off + 64 * j) 64).1
            (ChaCha.chacha8 (key128 key) iv (BitVec.ofNat 64 j)) := by
  have hlen := length_crypt key iv frame off
  refine ⟨crypt_crypt key iv frame off, hlen, ?_, ?_, fun j hj => slice_crypt key iv hj⟩
  · rw [crypt_eq]
    exact (encrypt_spec _ _ _ _).2
  · have hdrop : ((crypt key iv frame off).drop (off + 64 * wholeBlocks frame off)).length =
        (frame.drop (off + 64 * wholeBlocks frame off)).length := by
      rw [List.length_drop, List.length_drop, hlen]
    refine (ext_load8_iff hdrop).2 fun i _ => ?_
    rw [load8_drop, load8_drop, load8_crypt, if_neg (by omega)]

/-! ## The redirected frame -/

/-- The same transformation gives a receiver the encapsulated packet back. -/
theorem crypt_redirect {k : Kernel} {eg : ChachaEgress} {frame : Bytes}
    (h : (cha k eg frame).ret = .redirect) :
    crypt tKey tIv (cha k eg frame).frame (encryptedFrom frame + 20) =
      withOuter (outerIph (htons (load16 frame 16)) (load32 frame 26) (load32 frame 30)) frame := by
  have hout := (redirected h).out
  have hcrypt : (cha k eg frame).frame = crypt tKey tIv
      (withOuter (outerIph (htons (load16 frame 16)) (load32 frame 26) (load32 frame 30)) frame)
      (encryptedFrom frame + 20) := hout.trans (crypt_eq tKey tIv _ _).symm
  rw [hcrypt, crypt_crypt]

end Chacha

end ChainingBox
