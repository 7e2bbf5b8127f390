import ChainingBox.Dataplane.Stages

/-!
# What the stages do

`Accepts` describes the frames that Dec strips, by their bytes alone, and `decapNsh_cases` is the
inversion of `decapNsh`: it strips and saves exactly the frames that some `Accepts` describes, and
leaves every other frame and the table as they were. `egress_saved` is the specification of the two
egress stages for a frame whose flow has a saved NSH, and `egress_unsaved` and `egress_not_ip` are
the two ways in which a frame is passed along without one. Nothing else in the development unfolds
the stages.

An encapsulated frame is written `nshFrame dst src nsh inner`: outer Ethernet header, NSH, and the
inner frame. `Nsh.path` is the service path header of an NSH in host order.
-/

namespace ChainingBox

open Lib

/-! ## Network service headers -/

/-- The service path header, in host order: 24 bits of SPI and 8 bits of SI. -/
def Nsh.path (h : Nsh) : BitVec 32 := htonl (load32 h.1 4)

/-- The service index of a service path header. -/
def siOf (sph : BitVec 32) : BitVec 32 := sph &&& 0x000000FF

theorem siOf_toNat (sph : BitVec 32) : (siOf sph).toNat = sph.toNat % 256 := by
  rw [siOf, BitVec.toNat_and]
  exact Nat.and_two_pow_sub_one_eq_mod sph.toNat 8

/-- The header with some of its bytes overwritten. -/
def Nsh.write (h : Nsh) (o : ℕ) (v : Bytes) (hv : o + v.length ≤ 24) : Nsh :=
  ⟨store h.1 o v, by rw [store_length (by rw [h.2]; exact hv), h.2]⟩

/-- The header with another service path header. -/
def Nsh.withPath (h : Nsh) (sph : BitVec 32) : Nsh :=
  h.write 4 (le32 (htonl sph)) (by rw [le32_length]; omega)

/-- A header is its first four bytes, its service path header, and its context. -/
theorem Nsh.eq_append (h : Nsh) :
    h.1 = h.1.take 4 ++ (le32 (load32 h.1 4) ++ h.1.drop 8) := by
  have hlen := h.2
  have htail : h.1.drop 4 = (h.1.drop 4).take 4 ++ h.1.drop 8 := by
    rw [← List.drop_drop (i := 4) (j := 4), List.take_append_drop]
  rw [le32_load32 (by omega), ← htail, List.take_append_drop]

theorem Nsh.withPath_eq (h : Nsh) (sph : BitVec 32) :
    (h.withPath sph).1 = h.1.take 4 ++ (le32 (htonl sph) ++ h.1.drop 8) := by
  have hlen : (h.1.take 4).length = 4 := by rw [List.length_take, h.2]; rfl
  show store h.1 4 _ = _
  conv_lhs => rw [h.eq_append]
  exact store_mid hlen ((le32_length _).trans (le32_length _).symm)

@[simp] theorem Nsh.path_withPath (h : Nsh) (sph : BitVec 32) : (h.withPath sph).path = sph := by
  have hlen : (h.1.take 4).length = 4 := by rw [List.length_take, h.2]; rfl
  have hd : (h.withPath sph).1.drop 4 = le32 (htonl sph) ++ h.1.drop 8 := by
    rw [h.withPath_eq, List.drop_left' hlen]
  calc (h.withPath sph).path = htonl (load32 ((h.withPath sph).1.drop 4) 0) := by
        rw [load32_drop]
        rfl
    _ = htonl (htonl sph) := by rw [hd, load32_le32]
    _ = sph := bswap32_bswap32 sph

/-- The type and next protocol of a header do not change with its path. -/
theorem Nsh.load8_withPath (h : Nsh) (sph : BitVec 32) : load8 (h.withPath sph).1 3 = load8 h.1 3 := by
  have hlen : (h.1.take 4).length = 4 := by rw [List.length_take, h.2]; rfl
  rw [h.withPath_eq, load8_append_left (by omega)]
  conv_rhs => rw [h.eq_append]
  rw [load8_append_left (by omega)]

/-! ## Encapsulated frames -/

/-- A frame encapsulated in an outer Ethernet header and an NSH. -/
def nshFrame (dst src : Mac) (nsh : Nsh) (inner : Bytes) : Bytes :=
  dst.1 ++ (src.1 ++ (le16 (htons ETH_P_NSH) ++ (nsh.1 ++ inner)))

section nshFrame

variable (dst src : Mac) (nsh : Nsh) (inner : Bytes)

theorem nshFrame_length : (nshFrame dst src nsh inner).length = 38 + inner.length := by
  simp only [nshFrame, List.length_append, dst.2, src.2, nsh.2, le16_length]
  omega

theorem drop_nshFrame_12 :
    (nshFrame dst src nsh inner).drop 12 = le16 (htons ETH_P_NSH) ++ (nsh.1 ++ inner) := by
  have hlen : (dst.1 ++ src.1).length = 12 := by rw [List.length_append, dst.2, src.2]
  rw [nshFrame, ← List.append_assoc, List.drop_left' hlen]

theorem drop_nshFrame_14 : (nshFrame dst src nsh inner).drop 14 = nsh.1 ++ inner := by
  have h := congrArg (List.drop 2) (drop_nshFrame_12 dst src nsh inner)
  rwa [List.drop_drop, List.drop_left' (le16_length _)] at h

theorem drop_nshFrame_38 : (nshFrame dst src nsh inner).drop 38 = inner := by
  have h := congrArg (List.drop 24) (drop_nshFrame_14 dst src nsh inner)
  rwa [List.drop_drop, List.drop_left' nsh.2] at h

theorem load16_nshFrame : load16 (nshFrame dst src nsh inner) 12 = htons ETH_P_NSH := by
  calc load16 (nshFrame dst src nsh inner) 12
      = load16 ((nshFrame dst src nsh inner).drop 12) 0 := (load16_drop _ 12 0).symm
    _ = load16 (le16 (htons ETH_P_NSH) ++ (nsh.1 ++ inner)) 0 := by rw [drop_nshFrame_12]
    _ = htons ETH_P_NSH := load16_le16 _ _

/-- A byte of the NSH. -/
theorem load8_nshFrame_nsh {i : ℕ} (hi : i < 24) :
    load8 (nshFrame dst src nsh inner) (14 + i) = load8 nsh.1 i := by
  calc load8 (nshFrame dst src nsh inner) (14 + i)
      = load8 ((nshFrame dst src nsh inner).drop 14) i := (load8_drop _ 14 i).symm
    _ = load8 (nsh.1 ++ inner) i := by rw [drop_nshFrame_14]
    _ = load8 nsh.1 i := load8_append_left (by rw [nsh.2]; exact hi)

theorem load8_nshFrame : load8 (nshFrame dst src nsh inner) 17 = load8 nsh.1 3 :=
  load8_nshFrame_nsh dst src nsh inner (i := 3) (by omega)

theorem slice_nshFrame : slice (nshFrame dst src nsh inner) 14 24 = nsh := by
  apply Subtype.ext
  rw [slice_eq_take (by rw [nshFrame_length]; omega), drop_nshFrame_14, List.take_left' nsh.2]

theorem load32_nshFrame : load32 (nshFrame dst src nsh inner) 18 = htonl nsh.path := by
  have hlen := nshFrame_length dst src nsh inner
  have hslice := load32_slice (b := nshFrame dst src nsh inner) (o := 14) (n := 24) (i := 4)
    (by omega) (by omega)
  calc load32 (nshFrame dst src nsh inner) 18
      = load32 (slice (nshFrame dst src nsh inner) 14 24).1 4 := hslice.symm
    _ = load32 nsh.1 4 := by rw [slice_nshFrame]
    _ = htonl nsh.path := (bswap32_bswap32 _).symm

theorem slice_nshFrame_dst : slice (nshFrame dst src nsh inner) 0 6 = dst := by
  apply Subtype.ext
  rw [slice_eq_take (by rw [nshFrame_length]; omega), List.drop_zero, nshFrame,
    List.take_left' dst.2]

/-- Overwriting the destination address of an encapsulated frame. -/
theorem store_nshFrame_dst (dst' : Mac) :
    store (nshFrame dst src nsh inner) 0 dst'.1 = nshFrame dst' src nsh inner := by
  have hlen : dst.1.length = dst'.1.length := by rw [dst.2, dst'.2]
  have h := store_mid (a := []) (o := 0)
    (c := src.1 ++ (le16 (htons ETH_P_NSH) ++ (nsh.1 ++ inner))) rfl hlen
  simpa [nshFrame] using h

/-- Overwriting the source address of an encapsulated frame. -/
theorem store_nshFrame_src (src' : Mac) :
    store (nshFrame dst src nsh inner) 6 src'.1 = nshFrame dst src' nsh inner :=
  store_mid dst.2 (by rw [src.2, src'.2])

/-- Overwriting bytes of the NSH of an encapsulated frame. -/
theorem store_nshFrame_nsh {o : ℕ} {v : Bytes} (hv : o + v.length ≤ 24) :
    store (nshFrame dst src nsh inner) (14 + o) v =
      nshFrame dst src (nsh.write o v hv) inner := by
  have hpre : (dst.1 ++ (src.1 ++ le16 (htons ETH_P_NSH))).length = 14 := by
    rw [List.length_append, List.length_append, dst.2, src.2, le16_length]
  have hin : o + v.length ≤ nsh.1.length := by rw [nsh.2]; exact hv
  have hst := store_append_mid (c := inner) hpre hin
  simpa only [nshFrame, Nsh.write, List.append_assoc] using hst

variable {inner} in
/-- Overwriting the inner EtherType with its value changes nothing. -/
theorem store_nshFrame_proto (h : 14 ≤ inner.length) :
    store (nshFrame dst src nsh inner) (38 + 12) (le16 (load16 inner 12)) =
      nshFrame dst src nsh inner := by
  have hinner : inner.take 12 ++ (le16 (load16 inner 12) ++ inner.drop 14) = inner := by
    rw [le16_load16 (by omega), ← List.append_assoc, ← List.take_add, List.take_append_drop]
  have hpre : (dst.1 ++ (src.1 ++ (le16 (htons ETH_P_NSH) ++ (nsh.1 ++ inner.take 12)))).length =
      38 + 12 := by
    simp only [List.length_append, dst.2, src.2, nsh.2, le16_length, List.length_take]
    omega
  have hsame : (le16 (load16 inner 12)).length = (le16 (load16 inner 12)).length := rfl
  have hst := store_mid (c := inner.drop 14) hpre hsame
  simpa only [nshFrame, List.append_assoc, hinner] using hst

end nshFrame

/-! ## Dec -/

/-- The address comparison finds a difference exactly when the frame's first six bytes are not the
address. -/
theorem macDiffers_eq_false {mac : Mac} {frame : Bytes} (h : 6 ≤ frame.length) :
    macDiffers mac frame = false ↔ frame.take 6 = mac.1 := by
  have hload (i : ℕ) (hi : i < 6) : load8 (frame.take 6) i = load8 frame i := by
    simp [load8, hi]
  have hlen : (frame.take 6).length = 6 := by rw [List.length_take]; omega
  have hlen' : (frame.take 6).length = mac.1.length := hlen.trans mac.2.symm
  have hsame (i : ℕ) : (load8 mac.1 i ^^^ load8 frame i ≠ 0) ↔ load8 frame i ≠ load8 mac.1 i :=
    (not_congr BitVec.xor_eq_zero_iff).trans ne_comm
  rw [macDiffers, List.any_eq_false, ext_load8_iff hlen', hlen]
  constructor
  · intro hno i hi
    have := hno i (by simp; omega)
    rw [decide_eq_true_iff, hsame, not_ne_iff] at this
    rw [hload i hi, this]
  · intro heq i hi
    have hlt : i < 6 := by simp at hi; omega
    rw [decide_eq_true_iff, hsame, not_ne_iff, ← hload i hlt]
    exact heq i hlt

/-- The frames that Dec strips: `off` is where the NSH starts, and `key` is the 5-tuple of the inner
packet. -/
structure Accepts (mac : Mac) (frame : Bytes) (off : ℕ) (key : Ip5tuple) : Prop where
  /-- The destination address is not a multicast address. -/
  unicast : load8 frame 0 &&& 1 = 0
  /-- The destination address is the node's. -/
  dst : macDiffers mac frame = false
  /-- The EtherType is NSH, after at most one 802.1Q tag. -/
  place : htons (load16 frame 12) = ETH_P_NSH ∧ off = 14 ∨
    htons (load16 frame 12) = ETH_P_8021Q ∧ htons (load16 frame 16) = ETH_P_NSH ∧ off = 18
  /-- The NSH carries an Ethernet frame. -/
  next_proto : load8 frame (off + 3) = NSH_NEXT_PROTO_ETHER
  /-- The frame reaches the end of the inner IPv4 header. -/
  room : off + 58 ≤ frame.length
  /-- The inner packet has a 5-tuple. -/
  tuple : getTuple (frame.drop (off + 38)) = some key

theorem ETH_P_NSH_ne : ETH_P_NSH ≠ ETH_P_8021Q := by decide

/-- The NSH of a frame is behind the 802.1Q tag, if there is one. -/
theorem nsh_place {frame : Bytes} {off : ℕ}
    (h : htons (load16 frame 12) = ETH_P_NSH ∧ off = 14 ∨
      htons (load16 frame 12) = ETH_P_8021Q ∧ htons (load16 frame 16) = ETH_P_NSH ∧ off = 18) :
    off = if htons (load16 frame 12) = ETH_P_8021Q then 18 else 14 := by
  rcases h with ⟨hp, rfl⟩ | ⟨hp, -, rfl⟩
  · rw [hp, if_neg ETH_P_NSH_ne]
  · rw [if_pos hp]

/-- A frame is accepted in one way only. -/
theorem Accepts.unique {mac : Mac} {frame : Bytes} {off off' : ℕ} {key key' : Ip5tuple}
    (h : Accepts mac frame off key) (h' : Accepts mac frame off' key') :
    off = off' ∧ key = key' := by
  obtain rfl : off = off' := (nsh_place h.place).trans (nsh_place h'.place).symm
  exact ⟨rfl, Option.some.inj (h.tuple.symm.trans h'.tuple)⟩

/-- The 5-tuple of the inner packet is that of the stripped frame. -/
theorem Accepts.stripped_tuple {mac : Mac} {frame : Bytes} {off : ℕ} {key : Ip5tuple}
    (h : Accepts mac frame off key) : getTuple ((frame.drop (off + 24)).drop 14) = some key := by
  rw [List.drop_drop]
  exact h.tuple

/-- The lengths of the received frame and of the stripped one tell where the NSH was. -/
theorem Accepts.off_eq {mac : Mac} {frame : Bytes} {off : ℕ} {key : Ip5tuple}
    (h : Accepts mac frame off key) :
    frame.length - (frame.drop (off + 24)).length - 24 = off := by
  have hroom := h.room
  rw [List.length_drop]
  omega

/-- A stripped frame is not the received one. -/
theorem Accepts.stripped_ne {mac : Mac} {frame : Bytes} {off : ℕ} {key : Ip5tuple}
    (h : Accepts mac frame off key) : frame.drop (off + 24) ≠ frame := by
  intro heq
  have hroom := h.room
  have hlen := congrArg List.length heq
  rw [List.length_drop] at hlen
  omega

/-- Dec on a frame that it accepts. -/
theorem decapNsh_of_accepts {sm : SrcMac} {frame : Bytes} {off : ℕ} {key : Ip5tuple}
    (h : Accepts sm.ingress frame off key) (nd : NshData) :
    decapNsh sm nd frame =
      ⟨cbRetok .pass, frame.drop (off + 24), nd.put key (slice frame off 24)⟩ := by
  have hroom := h.room
  have hoff : off = 14 ∨ off = 18 := by rcases h.place with ⟨-, h⟩ | ⟨-, -, h⟩ <;> omega
  have hcut : (bpfXdpAdjustHead frame (off + 24)).getD frame = frame.drop (off + 24) := by
    rw [bpfXdpAdjustHead, if_neg (by omega), Option.getD_some]
  have hmac : sm.lookup SrcmacIdx.ingressMac.key = some sm.ingress := rfl
  unfold decapNsh
  rw [if_neg (by omega), hmac]
  dsimp only
  rw [if_neg (not_not.2 h.unicast), if_neg (by simp [h.dst])]
  rcases h.place with ⟨hp, rfl⟩ | ⟨hp, hv, rfl⟩
  · have hnt : htons (load16 frame 12) ≠ ETH_P_8021Q := by rw [hp]; exact ETH_P_NSH_ne
    rw [if_neg (fun hc => hnt hc.1), if_neg hnt, if_neg hnt, if_neg (not_not.2 hp),
      if_neg (by omega), if_neg (not_not.2 h.next_proto), if_neg (by omega), h.tuple]
    simp only [hcut]
  · rw [if_neg (fun hc => absurd hc.2 (by omega)), if_pos hp, if_pos hp, if_neg (not_not.2 hv),
      if_neg (by omega), if_neg (not_not.2 h.next_proto), if_neg (by omega), h.tuple]
    simp only [hcut]

/-- Dec on any other frame leaves the frame and the table. -/
theorem decapNsh_of_not_accepts {sm : SrcMac} {frame : Bytes}
    (h : ∀ off key, ¬ Accepts sm.ingress frame off key) (nd : NshData) :
    ∃ code, decapNsh sm nd frame = ⟨cbRetother code, frame, nd⟩ := by
  have hmac : sm.lookup SrcmacIdx.ingressMac.key = some sm.ingress := rfl
  unfold decapNsh
  rw [hmac]
  dsimp only
  by_cases hlen : frame.length < 14
  · exact ⟨_, if_pos hlen⟩
  rw [if_neg hlen]
  by_cases hmulti : load8 frame 0 &&& 1 ≠ 0
  · exact ⟨_, if_pos hmulti⟩
  rw [if_neg hmulti]
  by_cases hdst : macDiffers sm.ingress frame
  · exact ⟨_, if_pos hdst⟩
  rw [if_neg hdst]
  by_cases hshort : htons (load16 frame 12) = ETH_P_8021Q ∧ frame.length < 14 + 4
  · exact ⟨_, if_pos hshort⟩
  rw [if_neg hshort]
  -- The NSH would have to be at `off`.
  generalize hoff : (if htons (load16 frame 12) = ETH_P_8021Q then 14 + 4 else 14) = off
  by_cases hproto : (if htons (load16 frame 12) = ETH_P_8021Q then htons (load16 frame 16)
      else htons (load16 frame 12)) ≠ ETH_P_NSH
  · exact ⟨_, if_pos hproto⟩
  rw [if_neg hproto]
  by_cases hnsh : frame.length < off + 24
  · exact ⟨_, if_pos hnsh⟩
  rw [if_neg hnsh]
  by_cases hnext : load8 frame (off + 3) ≠ NSH_NEXT_PROTO_ETHER
  · exact ⟨_, if_pos hnext⟩
  rw [if_neg hnext]
  by_cases hroom : frame.length < off + 24 + 14 + 20
  · exact ⟨_, if_pos hroom⟩
  rw [if_neg hroom]
  cases ht : getTuple (frame.drop (off + 24 + 14)) with
  | none => exact ⟨_, rfl⟩
  | some key =>
    -- The frame passed every check.
    have hplace : htons (load16 frame 12) = ETH_P_NSH ∧ off = 14 ∨
        htons (load16 frame 12) = ETH_P_8021Q ∧ htons (load16 frame 16) = ETH_P_NSH ∧
          off = 18 := by
      by_cases htag : htons (load16 frame 12) = ETH_P_8021Q
      · rw [if_pos htag] at hoff hproto
        exact Or.inr ⟨htag, not_not.1 hproto, hoff.symm⟩
      · rw [if_neg htag] at hoff hproto
        exact Or.inl ⟨not_not.1 hproto, hoff.symm⟩
    exact absurd ⟨not_not.1 hmulti, Bool.eq_false_of_not_eq_true hdst, hplace, not_not.1 hnext,
      by omega, ht⟩ (h off key)

/-- The inversion of Dec. -/
theorem decapNsh_cases (sm : SrcMac) (nd : NshData) (frame : Bytes) :
    (∃ off key, Accepts sm.ingress frame off key ∧ decapNsh sm nd frame =
      ⟨cbRetok .pass, frame.drop (off + 24), nd.put key (slice frame off 24)⟩) ∨
    ((∀ off key, ¬ Accepts sm.ingress frame off key) ∧
      ∃ code, decapNsh sm nd frame = ⟨cbRetother code, frame, nd⟩) := by
  by_cases h : ∃ off key, Accepts sm.ingress frame off key
  · obtain ⟨off, key, ha⟩ := h
    exact Or.inl ⟨off, key, ha, decapNsh_of_accepts ha nd⟩
  · push Not at h
    exact Or.inr ⟨h, decapNsh_of_not_accepts h nd⟩

/-- A frame encapsulated for the node is accepted when its inner packet has a 5-tuple. -/
theorem accepts_nshFrame {dst src : Mac} {nsh : Nsh} {inner : Bytes} {key : Ip5tuple}
    (hu : load8 dst.1 0 &&& 1 = 0) (hn : load8 nsh.1 3 = NSH_NEXT_PROTO_ETHER)
    (hl : 34 ≤ inner.length) (ht : getTuple (inner.drop 14) = some key) :
    Accepts dst (nshFrame dst src nsh inner) 14 key where
  unicast := by
    rw [nshFrame, load8_append_left (by rw [dst.2]; omega)]
    exact hu
  dst := by
    rw [macDiffers_eq_false (by rw [nshFrame_length]; omega), nshFrame, List.take_left' dst.2]
  place := Or.inl ⟨by rw [load16_nshFrame]; exact bswap16_bswap16 _, rfl⟩
  next_proto := by rw [load8_nshFrame]; exact hn
  room := by rw [nshFrame_length]; omega
  tuple := by
    rw [show 14 + 38 = 38 + 14 by rfl, ← List.drop_drop, drop_nshFrame_38]
    exact ht

/-! ## Enc and Fwd -/

/-- The two Ethernet headers that Enc writes in the room it obtained, around an NSH of zeros: the
original header is copied to the inside, its EtherType is overwritten outside and put back inside. -/
theorem header_stores (frame : Bytes) (h : 14 ≤ frame.length) :
    let room := frame.take 14 ++ (List.replicate 38 0 ++ frame.drop 14)
    store (store (store room 38 (slice room 0 14).1) 12 (le16 (htons ETH_P_NSH)))
      (38 + 12) (le16 (load16 frame 12)) =
      nshFrame (slice frame 0 6) (slice frame 6 6) ⟨List.replicate 24 0, rfl⟩ frame := by
  intro room
  have he : (frame.take 14).length = 14 := by rw [List.length_take]; omega
  have hd : (frame.take 12).length = 12 := by rw [List.length_take]; omega
  -- The Ethernet header is the two addresses and the EtherType.
  have heth : frame.take 14 = frame.take 12 ++ le16 (load16 frame 12) := by
    rw [le16_load16 (by omega), ← List.take_add]
  have haddr : frame.take 12 = (slice frame 0 6).1 ++ (slice frame 6 6).1 := by
    rw [slice_eq_take (by omega), slice_eq_take (by omega), List.drop_zero, ← List.take_add]
  have hsrc : (slice room 0 14).1 = frame.take 14 := by
    rw [slice_eq_take (by rw [List.length_append, he]; omega), List.drop_zero, List.take_left' he]
  -- The copy of the header completes a copy of the frame behind the room for header and NSH.
  have h1 : store room 38 (slice room 0 14).1 =
      frame.take 12 ++ (le16 (load16 frame 12) ++ (List.replicate 24 0 ++ frame)) := by
    have hroom : room =
        (frame.take 14 ++ List.replicate 24 0) ++ (List.replicate 14 0 ++ frame.drop 14) := by
      simp only [room, List.append_assoc]
      rw [← List.append_assoc (List.replicate 24 0), ← List.replicate_add]
    rw [hsrc, hroom, store_mid (by rw [List.length_append, he, List.length_replicate])
      (by rw [he, List.length_replicate]), List.take_append_drop, heth]
    simp only [List.append_assoc]
  have hproto : (le16 (load16 frame 12)).length = (le16 (htons ETH_P_NSH)).length :=
    (le16_length _).trans (le16_length _).symm
  rw [h1, store_mid hd hproto, haddr]
  have hframe := store_nshFrame_proto (slice frame 0 6) (slice frame 6 6)
    ⟨List.replicate 24 0, rfl⟩ h
  simpa only [nshFrame, List.append_assoc] using hframe

/-- The bytes that Enc leaves in the room it obtained: the whole received frame behind an outer
Ethernet header, with the saved NSH and the new service path header between them. -/
theorem encap_frame (frame : Bytes) (nsh : Nsh) (sph : BitVec 32) (h : 14 ≤ frame.length) :
    let room := frame.take 14 ++ (List.replicate 38 0 ++ frame.drop 14)
    store (store (store (store (store room 38 (slice room 0 14).1) 12 (le16 (htons ETH_P_NSH)))
      (38 + 12) (le16 (load16 frame 12))) 14 nsh.1) (14 + 4) (le32 (htonl sph)) =
      nshFrame (slice frame 0 6) (slice frame 6 6) (nsh.withPath sph) frame := by
  intro room
  have hall : 0 + nsh.1.length ≤ 24 := by rw [nsh.2]
  rw [header_stores frame h]
  have hnsh := store_nshFrame_nsh (slice frame 0 6) (slice frame 6 6)
    ⟨List.replicate 24 0, rfl⟩ frame hall
  -- The saved NSH covers the zeros.
  have hcover : Nsh.write ⟨List.replicate 24 0, rfl⟩ 0 nsh.1 hall = nsh := by
    apply Subtype.ext
    show store _ 0 nsh.1 = nsh.1
    rw [store, List.take_zero, List.nil_append, List.drop_eq_nil_of_le (by simp [nsh.2]),
      List.append_nil]
  rw [hcover] at hnsh
  rw [hnsh]
  exact store_nshFrame_nsh _ _ nsh frame (by rw [le32_length]; omega)

/-- Enc passes a frame along whose EtherType is not IPv4. -/
theorem encapNsh_not_ip {k : Kernel} {m : NodeMaps} {frame : Bytes}
    (h : load16 frame 12 ≠ htons ETH_P_IP) : encapNsh k m frame = ⟨cbRetok .ok, frame⟩ := by
  unfold encapNsh
  split_ifs <;> rfl

/-- Enc passes a frame along, from the egress address, whose flow has no saved NSH. -/
theorem encapNsh_unsaved {k : Kernel} {m : NodeMaps} {frame : Bytes} {key : Ip5tuple}
    (hl : 34 ≤ frame.length) (hip : load16 frame 12 = htons ETH_P_IP)
    (ht : getTuple (frame.drop 14) = some key) (hn : m.nsh_data.lookup key = none) :
    encapNsh k m frame = ⟨cbRetok .ok, store frame 6 m.src_mac.egress.1⟩ := by
  unfold encapNsh
  rw [if_neg (by omega), if_neg (not_not.2 hip), ht]
  simp only [hn]
  rfl

/-- A frame whose EtherType is not IPv4 is passed along. -/
theorem egress_not_ip {k : Kernel} {m : NodeMaps} {frame : Bytes}
    (h : load16 frame 12 ≠ htons ETH_P_IP) : egress k m frame = .plain frame := by
  rw [egress, encapNsh_not_ip h]
  rfl

/-- A frame of a flow without a saved NSH is sent without one, from the egress address. -/
theorem egress_unsaved {k : Kernel} {m : NodeMaps} {frame : Bytes} {key : Ip5tuple}
    (hl : 34 ≤ frame.length) (hip : load16 frame 12 = htons ETH_P_IP)
    (ht : getTuple (frame.drop 14) = some key) (hn : m.nsh_data.lookup key = none) :
    egress k m frame = .plain (store frame 6 m.src_mac.egress.1) := by
  rw [egress, encapNsh_unsaved hl hip ht hn]
  rfl

/-- Fwd on a frame that Enc re-encapsulated. -/
theorem sfcForwarding_nshFrame (m : NodeMaps) (dst src : Mac) (nsh : Nsh) (inner : Bytes) :
    sfcForwarding m (nshFrame dst src nsh inner) =
      match m.fwd_table.lookup (htonl nsh.path) with
      | none => ⟨cbRetother .shot, nshFrame dst src nsh inner⟩
      | some e =>
        if e.isEnd then ⟨cbRetok .shot, nshFrame dst src nsh inner⟩
        else ⟨cbRetok .ok, nshFrame e.address m.src_mac.egress nsh inner⟩ := by
  have hl := nshFrame_length dst src nsh inner
  unfold sfcForwarding
  rw [if_neg (by omega), if_neg (by omega), load32_nshFrame]
  have hset : setSrcMac m.src_mac (nshFrame dst src nsh inner) .egressMac =
      some (nshFrame dst m.src_mac.egress nsh inner) := by
    show some _ = some _
    rw [store_nshFrame_src]
  cases m.fwd_table.lookup (htonl nsh.path) with
  | none => rfl
  | some e =>
    dsimp only
    split_ifs with he
    · rfl
    · rw [hset]
      dsimp only
      rw [store_nshFrame_dst]

/-- Enc on an IPv4 frame of a flow with a saved NSH. -/
theorem encapNsh_saved {k : Kernel} {m : NodeMaps} {frame : Bytes} {key : Ip5tuple} {nsh : Nsh}
    (hl : 34 ≤ frame.length) (hip : load16 frame 12 = htons ETH_P_IP)
    (ht : getTuple (frame.drop 14) = some key) (hn : m.nsh_data.lookup key = some nsh) :
    encapNsh k m frame =
      if siOf nsh.path = 0 then ⟨cbRetother .shot, frame⟩
      else if (m.fwd_table.lookup (htonl (nsh.path - 1))).any FwdEntry.isEnd then
        ⟨cbRetok .ok, store frame 6 m.src_mac.egress.1⟩
      else if k.grantsRoom frame then
        ⟨cbRetok .unspec, nshFrame (slice frame 0 6) (slice frame 6 6)
          (nsh.withPath (nsh.path - 1)) frame⟩
      else ⟨cbRetother .shot, frame⟩ := by
  unfold encapNsh
  rw [if_neg (by omega), if_neg (not_not.2 hip), ht]
  simp only [hn]
  by_cases hsi : siOf nsh.path = 0
  · rw [if_pos hsi]
    exact if_pos hsi
  rw [if_neg hsi]
  refine (if_neg hsi).trans ?_
  by_cases hend : (m.fwd_table.lookup (htonl (nsh.path - 1))).any FwdEntry.isEnd
  · rw [if_pos hend]
    exact if_pos hend
  rw [if_neg hend]
  refine (if_neg hend).trans ?_
  by_cases hk : k.grantsRoom frame
  · -- The room is for the outer Ethernet header and the NSH.
    have hroom : bpfSkbAdjustRoom k frame (14 + 24) =
        some (frame.take 14 ++ (List.replicate 38 0 ++ frame.drop 14)) := by
      rw [bpfSkbAdjustRoom, if_pos hk]
    rw [hroom, if_pos hk]
    dsimp only
    rw [if_neg (by simp; omega), encap_frame frame nsh _ (by omega)]
    rfl
  · rw [bpfSkbAdjustRoom, if_neg hk, if_neg hk]

/-- What the egress stages do with a frame of a flow whose saved NSH is `nsh`: the decision is that
of the forwarding entry of the decremented service path header. -/
def egressSpec (k : Kernel) (m : NodeMaps) (nsh : Nsh) (frame : Bytes) : Egress :=
  if siOf nsh.path = 0 then .dropped
  else match m.fwd_table.lookup (htonl (nsh.path - 1)) with
  | none => .dropped
  | some e =>
    if e.isEnd then .plain (store frame 6 m.src_mac.egress.1)
    else if k.grantsRoom frame then
      .chained (nshFrame e.address m.src_mac.egress (nsh.withPath (nsh.path - 1)) frame)
    else .dropped

/-- The egress stages on an IPv4 frame of a flow with a saved NSH. -/
theorem egress_saved {k : Kernel} {m : NodeMaps} {frame : Bytes} {key : Ip5tuple} {nsh : Nsh}
    (hl : 34 ≤ frame.length) (hip : load16 frame 12 = htons ETH_P_IP)
    (ht : getTuple (frame.drop 14) = some key) (hn : m.nsh_data.lookup key = some nsh) :
    egress k m frame = egressSpec k m nsh frame := by
  have henc := @encapNsh_saved k m _ _ _ hl hip ht hn
  have hfwd := sfcForwarding_nshFrame m (slice frame 0 6) (slice frame 6 6)
    (nsh.withPath (nsh.path - 1)) frame
  rw [Nsh.path_withPath] at hfwd
  unfold egress egressSpec
  rw [henc]
  by_cases hsi : siOf nsh.path = 0
  · rw [if_pos hsi, if_pos hsi]
    rfl
  rw [if_neg hsi, if_neg hsi]
  -- Enc and Fwd look the same key up, so one entry decides both.
  cases hf : m.fwd_table.lookup (htonl (nsh.path - 1)) with
  | none =>
    rw [hf] at hfwd
    by_cases hk : k.grantsRoom frame
    · simp only [Option.any_none, Bool.false_eq_true, if_false, hk, if_true, cbRetok_code, hfwd,
        cbRetother_code]
    · simp [hk]
  | some e =>
    rw [hf] at hfwd
    by_cases he : e.isEnd
    · simp [he]
    · simp only [he, Bool.false_eq_true, if_false] at hfwd
      by_cases hk : k.grantsRoom frame
      · simp only [Option.any_some, he, Bool.false_eq_true, if_false, hk, if_true, cbRetok_code,
          hfwd]
      · simp [he, hk]

end ChainingBox
