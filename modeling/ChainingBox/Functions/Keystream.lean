import ChainingBox.Functions.Chacha

/-!
# The keystream, and what is left in the clear

The blocks that the cipher gives one after another are its keystream. The loop of `parse_ip` XORs it
to the payload in whole blocks of 64 bytes, and to at most 24 of them (`load8_encrypt`): the bytes
behind the last whole block, and all bytes behind the 24th, stay as they are. So the payload of a
redirected frame is encrypted to its end only if the blocks end where the frame ends, or if the
keystream happens to be zero at each of the positions that are left (`payloadEncrypted_iff`).
-/

namespace ChainingBox

open Lib

namespace Chacha

variable {k : Kernel} {eg : ChachaEgress} {frame : Bytes}

/-- The byte of the keystream at a position. -/
def keystream (ctx : Ctx) (j : ℕ) : Byte :=
  let block := Ctx.count^[j / 64] ctx
  load8 (doublerounds block.state block.rounds) (j % 64)

/-- The keystream from the next block on. -/
theorem keystream_count (ctx : Ctx) (j : ℕ) : keystream ctx.count j = keystream ctx (j + 64) := by
  have hdiv : (j + 64) / 64 = j / 64 + 1 := by omega
  have hmod : (j + 64) % 64 = j % 64 := by omega
  rw [keystream, keystream, hdiv, hmod, Function.iterate_succ_apply]

/-- The bytes of the first block. -/
theorem keystream_lt (ctx : Ctx) {j : ℕ} (hj : j < 64) :
    keystream ctx j = load8 (doublerounds ctx.state ctx.rounds) j := by
  rw [keystream, Nat.div_eq_of_lt hj, Nat.mod_eq_of_lt hj]
  rfl

/-! ## What the loop encrypts -/

/-- One block: its bytes are XOR-ed with those of the keystream, and all others are kept. -/
theorem load8_next {m : ℕ} (hm : m + 64 ≤ frame.length) (ctx : Ctx) (i : ℕ) :
    load8 (next ctx frame m).2 i =
      if m ≤ i ∧ i < m + 64 then load8 frame i ^^^ keystream ctx (i - m) else load8 frame i := by
  unfold next
  rw [load8_store (by rwa [List.length_map, List.length_range]), List.length_map, List.length_range]
  split_ifs with hi
  · have hlt : i - m < 64 := by omega
    have hget : m + (i - m) = i := by omega
    rw [keystream_lt ctx hlt]
    simp [load8, hlt, hget]
  · rfl

theorem length_next {m : ℕ} (hm : m + 64 ≤ frame.length) (ctx : Ctx) :
    (next ctx frame m).2.length = frame.length :=
  store_length (by rwa [List.length_map, List.length_range])

/-- The whole blocks are encrypted, `n` of them at most, and nothing else. -/
theorem load8_encrypt (n : ℕ) (ctx : Ctx) (frame : Bytes) (off i : ℕ) :
    load8 (encrypt n ctx frame off) i =
      if off ≤ i ∧ i < off + 64 * min n ((frame.length - off) / 64) then
        load8 frame i ^^^ keystream ctx (i - off)
      else load8 frame i := by
  induction n generalizing ctx frame off with
  | zero => rw [encrypt, if_neg (by omega)]
  | succ n ih =>
    rw [encrypt]
    split_ifs with hend hin hin
    · omega
    · rfl
    all_goals
      have hm : off + 64 ≤ frame.length := by omega
      have hlen := length_next hm ctx
      have hnext := load8_next hm ctx i
      have hrest := ih ctx.count (next ctx frame off).2 (off + 64)
      rw [hlen] at hrest
    · by_cases hfirst : i < off + 64
      · -- The byte is in this block, and the next ones leave it alone.
        rw [if_neg (by omega), hnext, if_pos ⟨hin.1, hfirst⟩] at hrest
        exact hrest
      · -- The byte is in a later block.
        have hpos : i - (off + 64) + 64 = i - off := by omega
        rw [if_pos (by omega), hnext, if_neg (by omega), keystream_count, hpos] at hrest
        exact hrest
    · rw [if_neg (by omega), hnext, if_neg (by omega)] at hrest
      exact hrest

/-! ## The payload of a redirected frame -/

/-- Where the encryption of a received frame ends: behind the last whole block, of at most 24. -/
def encryptedTo (frame : Bytes) : ℕ :=
  encryptedFrom frame + 64 * min 24 ((frame.length - encryptedFrom frame) / 64)

/-- Where the payload of a received frame begins: behind the transport header, which has at least
five words for TCP, and behind the time that a ping request carries. -/
def payloadFrom (frame : Bytes) : ℕ :=
  if load8 frame 23 = IPPROTO_TCP then 34 + max 20 (4 * (load8 frame 46 >>> 4).toNat)
  else encryptedFrom frame

/-- Every payload byte goes out XOR-ed with the keystream at its position, counted from where the
encryption begins. -/
def PayloadEncrypted (k : Kernel) (eg : ChachaEgress) (frame : Bytes) : Prop :=
  ∀ i, payloadFrom frame ≤ i → i + 20 < (cha k eg frame).frame.length →
    load8 (cha k eg frame).frame (i + 20) =
      load8 frame i ^^^ keystream chaCtx (i - encryptedFrom frame)

/-- The bytes of a packet behind the outer header. -/
theorem load8_withOuter {outer : Bytes} (hlen : outer.length = 20) {i : ℕ} (hi : 14 ≤ i)
    (hl : 14 ≤ frame.length) : load8 (withOuter outer frame) (i + 20) = load8 frame i := by
  have hplace : i + 20 = 34 + (i - 14) := by omega
  have hback : 14 + (i - 14) = i := by omega
  rw [hplace, ← load8_drop, drop34_withOuter hlen hl, load8_drop, hback]

/-- Every byte of the packet that goes out. -/
theorem load8_redirect (h : (cha k eg frame).ret = .redirect) {i : ℕ} (hi : 14 ≤ i) :
    load8 (cha k eg frame).frame (i + 20) =
      if encryptedFrom frame ≤ i ∧ i < encryptedTo frame then
        load8 frame i ^^^ keystream chaCtx (i - encryptedFrom frame)
      else load8 frame i := by
  have hr := redirected h
  have hl : 14 ≤ frame.length := le_trans (by omega) hr.transport
  rw [hr.out, load8_encrypt, withOuter_length (outerIph_length _ _ _) hl,
    load8_withOuter (outerIph_length _ _ _) hi hl]
  have hlen : frame.length + 20 - (encryptedFrom frame + 20) =
      frame.length - encryptedFrom frame := by omega
  have hpos : i + 20 - (encryptedFrom frame + 20) = i - encryptedFrom frame := by omega
  rw [hlen, hpos, encryptedTo]
  refine if_congr ?_ rfl rfl
  constructor
  · rintro ⟨hfrom, hto⟩
    exact ⟨by omega, by omega⟩
  · rintro ⟨hfrom, hto⟩
    exact ⟨by omega, by omega⟩

/-- The payload does not begin before the encryption. -/
theorem encryptedFrom_le_payloadFrom (frame : Bytes) : encryptedFrom frame ≤ payloadFrom frame := by
  unfold payloadFrom
  split_ifs with htcp
  · rw [encryptedFrom, if_pos htcp]
    omega
  · exact le_refl _

/-- A byte that the XOR leaves alone has met a zero. -/
theorem self_eq_xor_iff {a b : Byte} : a = a ^^^ b ↔ b = 0 :=
  calc a = a ^^^ b ↔ a ^^^ 0#8 = a ^^^ b := by rw [BitVec.xor_zero]
    _ ↔ 0#8 = b := BitVec.xor_right_inj a
    _ ↔ b = 0 := eq_comm

/-- The payload of a redirected frame is encrypted to its end exactly if the keystream is zero at
every position of it behind the last block. -/
theorem payloadEncrypted_iff (k : Kernel) (eg : ChachaEgress) (frame : Bytes)
    (h : (cha k eg frame).ret = .redirect) :
    PayloadEncrypted k eg frame ↔
      ∀ i, payloadFrom frame ≤ i → encryptedTo frame ≤ i → i < frame.length →
        keystream chaCtx (i - encryptedFrom frame) = 0 := by
  obtain ⟨outer, -, -, hlen, -, -, hl, -⟩ := cha_redirect h
  have hfrom := encryptedFrom_le_payloadFrom frame
  have hge := encryptedFrom_ge frame
  constructor
  · intro henc i hi hto hlt
    have hbyte := henc i hi (by omega)
    rw [load8_redirect h (by omega), if_neg (by omega)] at hbyte
    exact self_eq_xor_iff.1 hbyte
  · intro hzero i hi hlt
    rw [load8_redirect h (by omega)]
    split_ifs with hin
    · rfl
    · exact self_eq_xor_iff.2 (hzero i hi (by omega) (by omega))

/-- A payload of whole blocks, not more than 24. -/
theorem payloadEncrypted_of_blocks (h : (cha k eg frame).ret = .redirect)
    (hblocks : 64 ∣ frame.length - encryptedFrom frame)
    (hmax : frame.length - encryptedFrom frame ≤ 24 * 64) : PayloadEncrypted k eg frame := by
  refine (payloadEncrypted_iff k eg frame h).2 fun i hi hto hlt => ?_
  obtain ⟨n, hn⟩ := hblocks
  have hpayload := (redirected h).payload
  rw [encryptedTo, hn] at hto
  omega

/-- A UDP packet from 10.0.0.1:1000 to 10.0.0.2:2000 with one byte of payload. -/
def letterFrame : Bytes :=
  [0x02, 0, 0, 0, 0, 2, 0x02, 0, 0, 0, 0, 1, 0x08, 0x00,
    0x45, 0, 0, 29, 0, 0, 0, 0, 64, 17, 0, 0, 10, 0, 0, 1, 10, 0, 0, 2,
    0x03, 0xE8, 0x07, 0xD0, 0, 9, 0, 0, 0x41]

theorem payloadEncrypted_iff_letter :
    PayloadEncrypted roomyKernel ⟨3⟩ letterFrame ↔
      ∀ i, payloadFrom letterFrame ≤ i → encryptedTo letterFrame ≤ i → i < letterFrame.length →
        keystream chaCtx (i - encryptedFrom letterFrame) = 0 :=
  payloadEncrypted_iff roomyKernel ⟨3⟩ letterFrame (by decide)

/-- The byte goes out in the clear. -/
theorem not_payloadEncrypted_letter :
    (cha roomyKernel ⟨3⟩ letterFrame).ret = .redirect ∧
      ¬ PayloadEncrypted roomyKernel ⟨3⟩ letterFrame := by
  refine ⟨by decide, fun henc => ?_⟩
  have hbyte := henc 42 (by decide) (by decide)
  have hclear : load8 (cha roomyKernel ⟨3⟩ letterFrame).frame (42 + 20) = 0x41 := by decide
  have hkey : (0x41 : Byte) ≠ load8 letterFrame 42 ^^^
      keystream chaCtx (42 - encryptedFrom letterFrame) := by decide +kernel
  exact hkey (hclear.symm.trans hbyte)

end Chacha

end ChainingBox
