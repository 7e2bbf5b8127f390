import ChainingBox.Functions.Chacha
import ChainingBox.Lib.OnesComplement

/-!
# The checksum of the outer header

`parse_ip` sums up the ten words of the outer header in 32 bits, adds the carries back in a single
step, and stores the complement of the low 16 bits. The single step can carry once more. Then the
carry is lost, and the checksum is one too large. `outer_checksum_iff` says that the checksum is
valid exactly if the step does not carry.
-/

namespace ChainingBox

open Lib

namespace Chacha

/-- The ten words of an IPv4 header, as the machine loads them. -/
def headerWords (iph : Bytes) : List (BitVec 16) := (List.range 10).map fun i => load16 iph (2 * i)

/-- The words of an IPv4 header in network byte order sum up to all ones. -/
def ValidChecksum (iph : Bytes) : Prop := onesSum ((headerWords iph).map htons) = 0xFFFF

/-- The two words of an address. -/
def addressWords (addr : BitVec 32) : List (BitVec 16) :=
  [byteOf addr 1 ++ byteOf addr 0, byteOf addr 3 ++ byteOf addr 2]

theorem headerWords_tunnelIph (payload_len : BitVec 16) (saddr daddr : BitVec 32)
    (check : BitVec 16) : headerWords (tunnelIph payload_len saddr daddr check) =
      [0x0045, htons (payload_len + 20), 0, 0, 0x0408, check] ++
        (addressWords saddr ++ addressWords daddr) := by
  have hfront : ((0 : Byte) ++ (0x45 : Byte) : BitVec 16) = 0x0045 := by decide
  have hproto : (IPPROTO_IPIP ++ (8 : Byte) : BitVec 16) = 0x0408 := by decide
  have hwords : headerWords (tunnelIph payload_len saddr daddr check) =
      [(0 : Byte) ++ (0x45 : Byte),
        byteOf (htons (payload_len + 20)) 1 ++ byteOf (htons (payload_len + 20)) 0,
        byteOf (0 : BitVec 16) 1 ++ byteOf (0 : BitVec 16) 0,
        byteOf (0 : BitVec 16) 1 ++ byteOf (0 : BitVec 16) 0, IPPROTO_IPIP ++ (8 : Byte),
        byteOf check 1 ++ byteOf check 0] ++ (addressWords saddr ++ addressWords daddr) := rfl
  rw [hwords, bytes_append16, bytes_append16, bytes_append16, hfront, hproto]

theorem wordSum_addressWords (addr : BitVec 32) :
    wordSum (addressWords addr) = addr.toNat % 65536 + addr.toNat / 65536 := by
  have hlt := addr.isLt
  have hbyte (i : ℕ) : (byteOf addr i).toNat = addr.toNat / 2 ^ (8 * i) % 256 := by
    rw [byteOf, BitVec.extractLsb'_toNat, Nat.shiftRight_eq_div_pow]
  have hword (x y : Byte) : (x ++ y : BitVec 16).toNat = 256 * x.toNat + y.toNat := by
    rw [BitVec.toNat_append, ← Nat.shiftLeft_add_eq_or_of_lt y.isLt, Nat.shiftLeft_eq, Nat.mul_comm]
  calc wordSum (addressWords addr)
      = (byteOf addr 1 ++ byteOf addr 0 : BitVec 16).toNat +
          ((byteOf addr 3 ++ byteOf addr 2 : BitVec 16).toNat + 0) := rfl
    _ = addr.toNat % 65536 + addr.toNat / 65536 := by
        rw [hword, hword, hbyte, hbyte, hbyte, hbyte]
        omega

/-- The sum of the outer header without its checksum. -/
def outerSum (payload_len : BitVec 16) (saddr daddr : BitVec 32) : ℕ :=
  0x0045 + (htons (payload_len + 20)).toNat + 0x0408 +
    (saddr.toNat % 65536 + saddr.toNat / 65536) + (daddr.toNat % 65536 + daddr.toNat / 65536)

/-- The carries, added back once, do not carry again. -/
def FoldsOnce (sum : ℕ) : Prop := sum % 65536 + sum / 65536 < 65536

instance (sum : ℕ) : Decidable (FoldsOnce sum) := inferInstanceAs (Decidable (_ < _))

theorem wordSum_tunnelIph (payload_len : BitVec 16) (saddr daddr : BitVec 32) (check : BitVec 16) :
    wordSum (headerWords (tunnelIph payload_len saddr daddr check)) =
      outerSum payload_len saddr daddr + check.toNat := by
  have hsaddr := wordSum_addressWords saddr
  have hdaddr := wordSum_addressWords daddr
  have happ (ws vs : List (BitVec 16)) : wordSum (ws ++ vs) = wordSum ws + wordSum vs := by
    rw [wordSum, List.map_append, List.sum_append]
    rfl
  have hconst : wordSum [0x0045, htons (payload_len + 20), 0, 0, 0x0408, check] =
      0x0045 + ((htons (payload_len + 20)).toNat + (0 + (0 + (0x0408 + (check.toNat + 0))))) := rfl
  rw [headerWords_tunnelIph, happ, happ, hsaddr, hdaddr, hconst, outerSum]
  omega

/-- No sum of a header comes near the 32 bits of the accumulator. -/
theorem outerSum_lt (payload_len : BitVec 16) (saddr daddr : BitVec 32) :
    outerSum payload_len saddr daddr < 10 * 65536 := by
  have hlen := (htons (payload_len + 20)).isLt
  have hsaddr := saddr.isLt
  have hdaddr := daddr.isLt
  rw [outerSum]
  omega

theorem headerChecksum_toNat (payload_len : BitVec 16) (saddr daddr : BitVec 32) :
    (headerChecksum (tunnelIph payload_len saddr daddr 0)).toNat =
      65535 - (outerSum payload_len saddr daddr % 65536 +
        outerSum payload_len saddr daddr / 65536) % 65536 := by
  have hlt := outerSum_lt payload_len saddr daddr
  have hzero : (0 : BitVec 16).toNat = 0 := rfl
  have hzero' : (0 : BitVec 32).toNat = 0 := rfl
  have hsum : wordSum (headerWords (tunnelIph payload_len saddr daddr 0)) =
      outerSum payload_len saddr daddr := by
    rw [wordSum_tunnelIph, hzero, Nat.add_zero]
  have hloop := foldl_add_toNat (fun i => load16 (tunnelIph payload_len saddr daddr 0) (2 * i))
    (List.range 10) 0 (by
      change _ + wordSum (headerWords _) < _
      rw [hsum]
      omega)
  change _ = _ + wordSum (headerWords _) at hloop
  rw [hsum, hzero', Nat.zero_add] at hloop
  rw [headerChecksum, fold_not_toNat, hloop]

/-- The checksum of the outer header is valid exactly if the sum folds in one step. -/
theorem validChecksum_outerIph (payload_len : BitVec 16) (saddr daddr : BitVec 32) :
    ValidChecksum (outerIph payload_len saddr daddr) ↔
      FoldsOnce (outerSum payload_len saddr daddr) := by
  have hlt := outerSum_lt payload_len saddr daddr
  have hpos : 0 < outerSum payload_len saddr daddr := by
    rw [outerSum]
    omega
  have hcheck := headerChecksum_toNat payload_len saddr daddr
  rw [ValidChecksum, onesSum_bswap_eq_ones_iff, onesSum_eq_ones_iff, outerIph, wordSum_tunnelIph,
    hcheck, FoldsOnce, Nat.dvd_iff_mod_eq_zero]
  generalize outerSum payload_len saddr daddr = sum at hlt hpos
  rcases Nat.lt_or_ge (sum % 65536 + sum / 65536) 65536 with hfold | hfold
  · -- The complement makes up for what the fold has taken away.
    have htotal : sum + (65535 - (sum % 65536 + sum / 65536)) = 65535 * (sum / 65536 + 1) := by
      omega
    rw [Nat.mod_eq_of_lt hfold, htotal, Nat.mul_mod_right]
    exact iff_of_true ⟨by omega, rfl⟩ hfold
  · have hlow : (sum % 65536 + sum / 65536) % 65536 = sum % 65536 + sum / 65536 - 65536 := by omega
    have htotal : sum + (65535 - (sum % 65536 + sum / 65536 - 65536)) =
        65535 * (sum / 65536 + 2) + 1 := by omega
    rw [hlow, htotal, Nat.mul_add_mod]
    exact iff_of_false (fun hand => absurd hand.2 (by decide)) (by omega)

/-- The 20 bytes behind the Ethernet header of a redirected frame. -/
theorem slice_redirect {k : Kernel} {eg : ChachaEgress} {frame : Bytes}
    (h : (cha k eg frame).ret = .redirect) : (slice (cha k eg frame).frame 14 20).1 =
      outerIph (htons (load16 frame 16)) (load32 frame 26) (load32 frame 30) := by
  have hr := redirected h
  have hl := hr.transport
  have hfrom := encryptedFrom_ge frame
  have hlen := outerIph_length (htons (load16 frame 16)) (load32 frame 26) (load32 frame 30)
  generalize houter : outerIph (htons (load16 frame 16)) (load32 frame 26) (load32 frame 30) = outer
    at hlen
  obtain ⟨helen, hetake⟩ := encrypt_spec 24 chaCtx (withOuter outer frame) (encryptedFrom frame + 20)
  have hout := hr.out
  rw [houter] at hout
  rw [← hout] at helen hetake
  rw [withOuter_length hlen (by omega)] at helen
  have h14 : (frame.take 14).length = 14 := by
    rw [List.length_take]
    omega
  -- The outer header lies in front of the encryption.
  have hshort := congrArg (fun b => (b.take 34).drop 14) hetake
  simp only [List.take_take] at hshort
  rw [Nat.min_eq_left (by omega)] at hshort
  have hmid : ((withOuter outer frame).take 34).drop 14 = outer := by
    rw [List.drop_take, drop_withOuter outer (by omega)]
    exact List.take_left' hlen
  rw [slice_eq_take (by omega)]
  rw [List.drop_take, hmid] at hshort
  exact hshort

/-- The outer header that a redirected frame goes out with has a valid checksum exactly if its sum
folds in one step. -/
theorem outer_checksum_iff (k : Kernel) (eg : ChachaEgress) (frame : Bytes)
    (h : (cha k eg frame).ret = .redirect) :
    ValidChecksum (slice (cha k eg frame).frame 14 20).1 ↔
      FoldsOnce (outerSum (htons (load16 frame 16)) (load32 frame 26) (load32 frame 30)) := by
  rw [slice_redirect h]
  exact validChecksum_outerIph _ _ _

/-- An empty UDP packet from 192.168.200.200:1000 to 10.80.32.10:2000. -/
def carryFrame : Bytes :=
  [0x02, 0, 0, 0, 0, 2, 0x02, 0, 0, 0, 0, 1, 0x08, 0x00,
    0x45, 0, 0, 28, 0, 0, 0, 0, 64, 17, 0, 0, 192, 168, 200, 200, 10, 80, 32, 10,
    0x03, 0xE8, 0x07, 0xD0, 0, 8, 0, 0]

theorem outer_checksum_iff_carry :
    ValidChecksum (slice (cha roomyKernel ⟨3⟩ carryFrame).frame 14 20).1 ↔
      FoldsOnce (outerSum (htons (load16 carryFrame 16)) (load32 carryFrame 26)
        (load32 carryFrame 30)) :=
  outer_checksum_iff roomyKernel ⟨3⟩ carryFrame (by decide)

/-- The sum is 0x1FFFF: the checksum is stored as 0xFFFF, and should be 0xFFFE. -/
theorem not_validChecksum_carry :
    (cha roomyKernel ⟨3⟩ carryFrame).ret = .redirect ∧
      ¬ ValidChecksum (slice (cha roomyKernel ⟨3⟩ carryFrame).frame 14 20).1 := by
  have hret : (cha roomyKernel ⟨3⟩ carryFrame).ret = .redirect := by decide
  refine ⟨hret, ?_⟩
  rw [slice_redirect hret, validChecksum_outerIph]
  decide

/-- For the empty UDP packet from 10.0.0.1 to 10.0.0.2 the sum folds in one step. -/
example : FoldsOnce (outerSum (htons (load16 udpFrame 16)) (load32 udpFrame 26)
    (load32 udpFrame 30)) := by decide

end Chacha

end ChainingBox
