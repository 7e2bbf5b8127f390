import ChainingBox.Functions.Keystream

/-!
# The removal of the outer header

`remove-ipip.c`, an XDP program for the node behind the function that encrypts. It moves the Ethernet
header over the end of the outer IPv4 header and cuts the 20 bytes in front of it. A ping request is
answered on the spot, and everything else is passed on.

`remove_ipip_undoes` says that it undoes the encapsulation of `parse_ip`: what it passes on is the
frame that the function received, with the encrypted blocks in place.
-/

namespace ChainingBox

open Lib

namespace RemoveIpip

/-! ## The program -/

def ICMP_ECHOREPLY : Byte := 0

/-- What the program does with a frame. -/
structure Out where
  ret : XdpAction
  frame : Bytes

/-- `set_src_mac`: the hardcoded addresses of both ends. -/
def setSrcMac (frame : Bytes) : Bytes :=
  store (store frame 6 [0xAA, 0xBB, 0xCC, 0xDD, 0xEE, 0xFF]) 0 [0x00, 0x15, 0x4D, 0x13, 0x81, 0x7F]

/-- The reply to a ping request, with the checksum ignored. -/
def pingReply (frame : Bytes) : Bytes :=
  let frame := store (setSrcMac frame) 34 [ICMP_ECHOREPLY]
  let aux := load32 frame 26
  let frame := store frame 26 (le32 (load32 frame 30))
  let frame := store frame 30 (le32 aux)
  store frame 36 (le16 0)

/-- `decap_ipip`. -/
def decapIpip (frame : Bytes) : Out :=
  if frame.length < 14 then ⟨.pass, frame⟩
  -- Only interested in IPv4 packets.
  else if htons (load16 frame 12) ≠ ETH_P_IP then ⟨.pass, frame⟩
  else if frame.length < 14 + 20 then ⟨.pass, frame⟩
  else if load8 frame 23 ≠ IPPROTO_IPIP then ⟨.pass, frame⟩
  else
    -- Move the Ethernet header inside.
    let frame := store frame (14 + 20 - 14) (frame.take 14)
    match bpfXdpAdjustHead frame 20 with
    | none => ⟨.drop, frame⟩
    | some frame =>
      if frame.length < 14 then ⟨.pass, frame⟩
      else if frame.length < 14 + 20 then ⟨.pass, frame⟩
      else if load8 frame 23 ≠ IPPROTO_ICMP then ⟨.pass, frame⟩
      else if frame.length < 14 + 20 + 8 then ⟨.pass, frame⟩
      else if load8 frame 34 ≠ Chacha.ICMP_ECHO then ⟨.pass, frame⟩
      else ⟨.tx, pingReply frame⟩

/-! ## What it takes away -/

variable {frame : Bytes}

/-- The frame without the 20 bytes behind its Ethernet header. -/
def withoutOuter (frame : Bytes) : Bytes := frame.take 14 ++ frame.drop 34

/-- The move and the cut take away the outer header. -/
theorem adjustHead_move (hl : 34 ≤ frame.length) :
    bpfXdpAdjustHead (store frame (14 + 20 - 14) (frame.take 14)) 20 = some (withoutOuter frame) := by
  have htake : (frame.take 14).length = 14 := by
    rw [List.length_take]
    omega
  have hlen : (store frame (14 + 20 - 14) (frame.take 14)).length = frame.length :=
    store_length (by omega)
  have hfront : (frame.take 20).length = 20 := by
    rw [List.length_take]
    omega
  rw [bpfXdpAdjustHead, hlen, if_neg (by omega), store, List.append_assoc, List.drop_left' hfront,
    htake, withoutOuter]

theorem withoutOuter_length (hl : 34 ≤ frame.length) :
    (withoutOuter frame).length + 20 = frame.length := by
  rw [withoutOuter, List.length_append, List.length_take, List.length_drop]
  omega

theorem load8_withoutOuter (hl : 34 ≤ frame.length) (i : ℕ) :
    load8 (withoutOuter frame) i = if i < 14 then load8 frame i else load8 frame (i + 20) := by
  have htake : (frame.take 14).length = 14 := by
    rw [List.length_take]
    omega
  unfold withoutOuter
  split_ifs with hi
  · rw [load8_append_left (by omega)]
    simp [load8, hi]
  · have hplace : i = (frame.take 14).length + (i - 14) := by omega
    have hback : 34 + (i - 14) = i + 20 := by omega
    conv_lhs => rw [hplace]
    rw [load8_append_right, load8_drop, hback]

/-- A packet of IP-in-IP that is no ping request inside is passed on without its outer header. -/
theorem decapIpip_eq (hl : 34 ≤ frame.length) (hip : load16 frame 12 = htons ETH_P_IP)
    (hipip : load8 frame 23 = IPPROTO_IPIP)
    (hping : ¬ (load8 (withoutOuter frame) 23 = IPPROTO_ICMP ∧
      load8 (withoutOuter frame) 34 = Chacha.ICMP_ECHO)) :
    decapIpip frame = ⟨.pass, withoutOuter frame⟩ := by
  have htype : htons (load16 frame 12) = ETH_P_IP := by rw [hip, htons, htons, bswap16_bswap16]
  unfold decapIpip
  rw [if_neg (by omega), if_neg (not_not.2 htype), if_neg (by omega), if_neg (not_not.2 hipip)]
  simp only [adjustHead_move hl]
  split_ifs with h14 h34 hicmp h42 hecho
  · rfl
  · rfl
  · rfl
  · rfl
  · rfl
  · exact absurd ⟨not_not.1 hicmp, not_not.1 hecho⟩ hping

/-! ## The function that encrypts, undone -/

section Undo

open Chacha

variable {k : Kernel} {eg : ChachaEgress}

/-- The bytes of a redirected frame without its outer header. -/
theorem load8_withoutOuter_redirect (h : (cha k eg frame).ret = .redirect) (i : ℕ) :
    load8 (withoutOuter (cha k eg frame).frame) i =
      if encryptedFrom frame ≤ i ∧ i < encryptedTo frame then
        load8 frame i ^^^ keystream chaCtx (i - encryptedFrom frame)
      else load8 frame i := by
  obtain ⟨hl, -⟩ := ethertype_redirect h
  have hge := encryptedFrom_ge frame
  rw [load8_withoutOuter hl]
  split_ifs with hi hin hin
  · omega
  · obtain ⟨outer, -, -, -, htake, -, hlen, -⟩ := cha_redirect h
    -- The Ethernet header is that of the received frame.
    have hcut := congrArg (List.take 14) htake
    have hmin : min 14 62 = 14 := rfl
    rw [List.take_take, List.take_take, hmin, take_withOuter outer (by omega)] at hcut
    have hload (b : Bytes) : load8 (b.take 14) i = load8 b i := by simp [load8, hi]
    rw [← hload (cha k eg frame).frame, hcut, hload]
  · rw [load8_redirect h (by omega), if_pos hin]
  · rw [load8_redirect h (by omega), if_neg hin]

/-- What comes out behind both programs, if it is not a ping request: the frame that came in, except
in the encrypted blocks. -/
theorem remove_ipip_undoes (k : Kernel) (eg : ChachaEgress) (frame : Bytes)
    (h : (cha k eg frame).ret = .redirect)
    (hping : ¬ (load8 frame 23 = IPPROTO_ICMP ∧ load8 frame 34 = ICMP_ECHO)) :
    (decapIpip (cha k eg frame).frame).ret = .pass ∧
      (decapIpip (cha k eg frame).frame).frame.length = frame.length ∧
      ∀ i < frame.length, ¬ (encryptedFrom frame ≤ i ∧ i < encryptedTo frame) →
        load8 (decapIpip (cha k eg frame).frame).frame i = load8 frame i := by
  obtain ⟨hl, hip⟩ := ethertype_redirect h
  obtain ⟨outer, hlen, hipip, hout, htake, -, hframe, -⟩ := cha_redirect h
  have hge := encryptedFrom_ge frame
  have hbyte := load8_withoutOuter_redirect h
  -- The outer header is one of IP-in-IP.
  have h23 : load8 (cha k eg frame).frame 23 = IPPROTO_IPIP := by
    have hload (b : Bytes) : load8 (b.take 62) 23 = load8 b 23 := by simp [load8]
    calc load8 (cha k eg frame).frame 23 = load8 ((withOuter outer frame).drop 14) 9 := by
          rw [← hload, htake, hload, load8_drop]
      _ = load8 outer 9 := by
          rw [drop_withOuter outer (by omega), load8_append_left (by omega)]
      _ = IPPROTO_IPIP := hipip
  have hdecap := decapIpip_eq hl hip h23 (by
    rw [hbyte, hbyte, if_neg (by omega), if_neg (by omega)]
    exact hping)
  have hwithout := withoutOuter_length hl
  rw [hdecap]
  refine ⟨rfl, Nat.add_right_cancel (hwithout.trans hout), fun i _ hi => ?_⟩
  exact (hbyte i).trans (if_neg hi)

/-- A UDP packet from 10.0.0.1:1000 to 10.0.0.2:2000 with a payload of 70 bytes: a block, and six
bytes behind it. -/
def blockFrame : Bytes :=
  [0x02, 0, 0, 0, 0, 2, 0x02, 0, 0, 0, 0, 1, 0x08, 0x00,
    0x45, 0, 0, 98, 0, 0, 0, 0, 64, 17, 0, 0, 10, 0, 0, 1, 10, 0, 0, 2,
    0x03, 0xE8, 0x07, 0xD0, 0, 78, 0, 0] ++ List.replicate 70 0x41

/-- The packet comes out with its block encrypted, and as it was in front of the block and behind
it. -/
theorem remove_ipip_undoes_block :
    (encryptedFrom blockFrame = 42 ∧ encryptedTo blockFrame = 106 ∧ blockFrame.length = 112) ∧
    load8 (decapIpip (cha roomyKernel ⟨3⟩ blockFrame).frame).frame 42 ≠ load8 blockFrame 42 ∧
    (decapIpip (cha roomyKernel ⟨3⟩ blockFrame).frame).ret = .pass ∧
      (decapIpip (cha roomyKernel ⟨3⟩ blockFrame).frame).frame.length = blockFrame.length ∧
      ∀ i < blockFrame.length, ¬ (encryptedFrom blockFrame ≤ i ∧ i < encryptedTo blockFrame) →
        load8 (decapIpip (cha roomyKernel ⟨3⟩ blockFrame).frame).frame i = load8 blockFrame i :=
  ⟨by decide, by decide +kernel,
    remove_ipip_undoes roomyKernel ⟨3⟩ blockFrame (by decide +kernel) (by decide)⟩

end Undo

end RemoveIpip

end ChainingBox
