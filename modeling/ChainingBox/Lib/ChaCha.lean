import ChainingBox.Lib.Bytes

/-!
# The ChaCha core

ChaCha permutes a matrix of four rows of four words. One round applies the quarter-round to each
column, the next one to each diagonal: to the columns of the matrix whose row `i` is turned left by
`i` places (`diagonalRound`). The block of a matrix is the sum of the matrix and its image under a
number of double rounds, in little-endian words (`block`); `input` is the matrix for a key, an IV,
and the number of the block.

An implementation has the matrix in an array, and works on four places of it at a time (`InPlace`).
When no place is in two of the quadruples, they may be done one after another on the same array:
`get_foldl` says what all of them together leave there.
-/

namespace ChainingBox.Lib.ChaCha

abbrev Word := BitVec 32

/-- Four rows of four words. -/
abbrev Mat := Fin 4 → Fin 4 → Word

/-! ## The rounds -/

/-- The quarter-round. -/
def quarter (v : Fin 4 → Word) : Fin 4 → Word :=
  let a := v 0 + v 1
  let d := (v 3 ^^^ a).rotateLeft 16
  let c := v 2 + d
  let b := (v 1 ^^^ c).rotateLeft 12
  let a := a + b
  let d := (d ^^^ a).rotateLeft 8
  let c := c + d
  let b := (b ^^^ c).rotateLeft 7
  ![a, b, c, d]

/-- The steps of the quarter-round, on one word each. -/
theorem quarter_eq : quarter =
    (fun v => Function.update v 1 ((v 1 ^^^ v 2).rotateLeft 7)) ∘
      (fun v => Function.update v 2 (v 2 + v 3)) ∘
      (fun v => Function.update v 3 ((v 3 ^^^ v 0).rotateLeft 8)) ∘
      (fun v => Function.update v 0 (v 0 + v 1)) ∘
      (fun v => Function.update v 1 ((v 1 ^^^ v 2).rotateLeft 12)) ∘
      (fun v => Function.update v 2 (v 2 + v 3)) ∘
      (fun v => Function.update v 3 ((v 3 ^^^ v 0).rotateLeft 16)) ∘
      fun v => Function.update v 0 (v 0 + v 1) := by
  funext v r
  fin_cases r <;> rfl

/-- The quarter-round of each column. -/
def columnRound (m : Mat) : Mat := fun i j => quarter (fun r => m r j) i

/-- Row `i` turned left by `i` places: the diagonals become columns. -/
def turn (m : Mat) : Mat := fun i j => m i (j + i)

def turnBack (m : Mat) : Mat := fun i j => m i (j - i)

/-- The quarter-round of each diagonal. -/
def diagonalRound (m : Mat) : Mat := turnBack (columnRound (turn m))

def doubleRound (m : Mat) : Mat := diagonalRound (columnRound m)

/-! ## Blocks -/

/-- The words of a matrix, by rows, in little-endian bytes. -/
def serialize (m : Mat) : Bytes :=
  (List.ofFn m).flatMap fun row => (List.ofFn row).flatMap le32

/-- The block of a matrix, by `n` double rounds. -/
def block (n : ℕ) (m : Mat) : Bytes := serialize (doubleRound^[n] m + m)

/-- The characters of the constants, for a key of 16 bytes. -/
def constants : Bytes := "expand 16-byte k".toList.map fun c => BitVec.ofNat 8 c.toNat

/-- The matrix of block `n`: the constants, the key twice, the number of the block in 64 bits, and
the IV. -/
def input (key : ByteVec 16) (iv : ByteVec 8) (n : BitVec 64) : Mat :=
  ![fun j => load32 constants (4 * j), fun j => load32 key.1 (4 * j), fun j => load32 key.1 (4 * j),
    ![n.extractLsb' 0 32, n.extractLsb' 32 32, load32 iv.1 0, load32 iv.1 4]]

/-- A block of ChaCha8. -/
def chacha8 (key : ByteVec 16) (iv : ByteVec 8) (n : BitVec 64) : Bytes := block 4 (input key iv n)

theorem length_serialize (m : Mat) : (serialize m).length = 64 := by
  simp [serialize, List.ofFn_succ]

theorem length_chacha8 (key : ByteVec 16) (iv : ByteVec 8) (n : BitVec 64) :
    (chacha8 key iv n).length = 64 := length_serialize _

/-- The number of the block, in the first two words of the last row, grows by one. -/
def increment (m : Mat) : Mat :=
  Function.update m 3
    ![m 3 0 + 1, if m 3 0 + 1 = 0 then m 3 1 + 1 else m 3 1, m 3 2, m 3 3]

theorem toNat_low (n : BitVec 64) : (n.extractLsb' 0 32).toNat = n.toNat % 2 ^ 32 := by
  rw [BitVec.extractLsb'_toNat, Nat.shiftRight_zero]

theorem toNat_high (n : BitVec 64) : (n.extractLsb' 32 32).toNat = n.toNat / 2 ^ 32 := by
  have hn := n.isLt
  rw [BitVec.extractLsb'_toNat, Nat.shiftRight_eq_div_pow]
  omega

theorem toNat_add_one {w : ℕ} (x : BitVec (w + 1)) : (x + 1).toNat = (x.toNat + 1) % 2 ^ (w + 1) := by
  have hone : (1 : BitVec (w + 1)).toNat = 1 := BitVec.toNat_one (Nat.succ_pos w)
  rw [BitVec.toNat_add, hone]

/-- The low half of a counter. -/
theorem low_add_one (n : BitVec 64) :
    (n + 1).extractLsb' 0 32 = n.extractLsb' 0 32 + 1 := by
  apply BitVec.eq_of_toNat_eq
  rw [toNat_low, toNat_add_one, toNat_add_one, toNat_low]
  omega

/-- The high half of a counter, with the carry. -/
theorem high_add_one (n : BitVec 64) :
    (n + 1).extractLsb' 32 32 =
      if n.extractLsb' 0 32 + 1 = 0 then n.extractLsb' 32 32 + 1 else n.extractLsb' 32 32 := by
  have hn := n.isLt
  have hcarry : n.extractLsb' 0 32 + 1 = 0 ↔ (n.toNat % 2 ^ 32 + 1) % 2 ^ 32 = 0 := by
    rw [← BitVec.toNat_inj, toNat_add_one, toNat_low]
    rfl
  apply BitVec.eq_of_toNat_eq
  rw [toNat_high, toNat_add_one]
  split_ifs with h
  · have hzero := hcarry.1 h
    rw [toNat_add_one, toNat_high]
    omega
  · have hnot := mt hcarry.2 h
    rw [toNat_high]
    omega

theorem increment_input (key : ByteVec 16) (iv : ByteVec 8) (n : BitVec 64) :
    increment (input key iv n) = input key iv (n + 1) := by
  have hlow := low_add_one n
  have hhigh := high_add_one n
  funext i
  fin_cases i
  · rfl
  · rfl
  · rfl
  · simp only [increment, input]
    rw [hlow, hhigh]
    rfl

/-! ## Operations in place -/

section InPlace

variable {α ι κ W : Type} {f g : (Fin 4 → W) → Fin 4 → W} {p : Fin 4 → ι} {x y z : ι → W}

/-- `y` is `x` after the operation `f` on the four words at the places `p`. -/
structure InPlace (f : (Fin 4 → W) → Fin 4 → W) (p : Fin 4 → ι) (x y : ι → W) : Prop where
  places : ∀ r, y (p r) = f (fun s => x (p s)) r
  others : ∀ i, (∀ r, i ≠ p r) → y i = x i

/-- An operation that takes its four places one by one. -/
def atPlaces (op : ι → ι → ι → ι → α) (p : Fin 4 → ι) : α := op (p 0) (p 1) (p 2) (p 3)

/-- Two operations on the same places. -/
theorem InPlace.comp (hf : InPlace f p x y) (hg : InPlace g p y z) : InPlace (g ∘ f) p x z where
  places r := by
    rw [hg.places, Function.comp_apply]
    exact congrArg (fun v => g v r) (funext hf.places)
  others i hi := (hg.others i hi).trans (hf.others i hi)

/-- Operations on disjoint places, one after another. -/
theorem get_foldl [DecidableEq κ] {P : κ → Fin 4 → ι} (hP : Function.Injective2 P)
    {get : α → ι → W} {step : α → κ → α}
    (hstep : ∀ x j, InPlace f (P j) (get x) (get (step x j))) (x : α) {js : List κ}
    (hjs : js.Nodup) (j : κ) (r : Fin 4) :
    get (js.foldl step x) (P j r) =
      if j ∈ js then f (fun s => get x (P j s)) r else get x (P j r) := by
  induction js generalizing x with
  | nil => rfl
  | cons k js ih =>
    obtain ⟨hk, hjs⟩ := List.nodup_cons.1 hjs
    rw [List.foldl_cons, ih (step x k) hjs]
    by_cases hkj : j = k
    · -- The places of `k` are not touched again.
      subst hkj
      rw [if_neg hk, if_pos List.mem_cons_self]
      exact (hstep x j).places r
    · have hkeep (s : Fin 4) : get (step x k) (P j s) = get x (P j s) :=
        (hstep x k).others _ fun r' heq => hkj (hP heq).1
      simp only [hkeep, List.mem_cons, hkj, false_or]

end InPlace

end ChainingBox.Lib.ChaCha
