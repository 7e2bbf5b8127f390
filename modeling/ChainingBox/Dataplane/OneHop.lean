import ChainingBox.Dataplane.SavedHeaders

/-!
# One hop through a node

Dec, a service function that returns the frame as it is, and Enc and Fwd. For a frame with an inner
IPv4 packet this is the received frame with its 802.1Q tag removed, its outer addresses rewritten,
and its service index decremented (`hopFrame`), as the forwarding entry says.

Dec reads a 5-tuple from the inner frame without looking at its EtherType, and Enc passes along every
frame whose EtherType is not IPv4. So a stripped frame that is not IPv4 leaves the node bare, and
`hop_identity_iff` says that this is the only way in which the two disagree.
-/

namespace ChainingBox

open Lib

/-- The frame with its 802.1Q tag removed, if it has one. -/
def untag (frame : Bytes) : Bytes :=
  if htons (load16 frame 12) = ETH_P_8021Q then frame.take 12 ++ frame.drop 16 else frame

/-- The received frame after one hop: no tag, new outer addresses, and a service index that is one
less. Bytes 0 to 11 are the addresses and byte 21 is the service index. -/
def hopFrame (src dst : Mac) (frame : Bytes) : Bytes :=
  let u := untag frame
  store (store (store u 0 dst.1) 6 src.1) 21 [load8 u 21 - 1]

/-- The bytes 8 to 15 of an NSH frame behind its tag are those of an untagged frame. -/
theorem untag_of_accepts {mac : Mac} {frame : Bytes} {off : ℕ} {key : Ip5tuple}
    (h : Accepts mac frame off key) :
    untag frame = nshFrame (slice frame 0 6) (slice frame 6 6) (slice frame off 24)
      (frame.drop (off + 24)) := by
  have hroom := h.room
  have haddr : frame.take 12 = (slice frame 0 6).1 ++ (slice frame 6 6).1 := by
    have h6 := hroom
    rw [slice_eq_take (by omega), slice_eq_take (by omega), List.drop_zero, ← List.take_add]
  -- Behind the EtherType field, at offset `o`, are the NSH and the inner frame.
  have htail : ∀ o, o + 2 = off → htons (load16 frame o) = ETH_P_NSH →
      frame.drop o = le16 (htons ETH_P_NSH) ++ ((slice frame off 24).1 ++ frame.drop (off + 24)) := by
    intro o ho hp
    have hproto : load16 frame o = htons ETH_P_NSH := by
      rw [← hp]
      exact (bswap16_bswap16 _).symm
    rw [← hproto, le16_load16 (by omega), slice_eq_take (by omega), ← List.drop_drop (j := off),
      List.take_append_drop, ← ho, ← List.drop_drop, List.take_append_drop]
  rcases h.place with ⟨hp, rfl⟩ | ⟨hp, hv, rfl⟩
  · rw [untag, if_neg (by rw [hp]; exact ETH_P_NSH_ne)]
    conv_lhs => rw [← List.take_append_drop 12 frame]
    rw [haddr, htail 12 rfl hp, nshFrame, List.append_assoc]
  · rw [untag, if_pos hp, haddr, htail 16 rfl hv, nshFrame, List.append_assoc]

/-- A service index of zero is a low byte of zero. -/
theorem siOf_eq_zero_iff (sph : BitVec 32) : siOf sph = 0 ↔ byteOf sph 0 = 0 := by
  have hb : (byteOf sph 0).toNat = sph.toNat % 256 := by
    simp [byteOf, BitVec.extractLsb'_toNat]
  rw [← BitVec.toNat_inj, ← BitVec.toNat_inj, siOf_toNat, hb]
  rfl

/-- Decrementing the service path header of an NSH changes only its eighth byte. -/
theorem withPath_sub_one {nsh : Nsh} (h : siOf nsh.path ≠ 0) :
    (nsh.withPath (nsh.path - 1)).1 = store nsh.1 7 [load8 nsh.1 7 - 1] := by
  have hlen := nsh.2
  have hb := byteOf_append32 (load8 nsh.1 4) (load8 nsh.1 5) (load8 nsh.1 6) (load8 nsh.1 7)
  have hpath : nsh.path =
      load8 nsh.1 4 ++ load8 nsh.1 5 ++ load8 nsh.1 6 ++ load8 nsh.1 7 := by
    have := byteOf_append32 (load8 nsh.1 7) (load8 nsh.1 6) (load8 nsh.1 5) (load8 nsh.1 4)
    rw [Nsh.path, htonl, bswap32, load32, this.1, this.2.1, this.2.2.1, this.2.2.2]
  rw [← hpath] at hb
  have hlow : byteOf nsh.path 0 ≠ 0 := fun h0 => h ((siOf_eq_zero_iff _).2 h0)
  obtain ⟨d0, d1, d2, d3⟩ := byteOf_sub_one hlow
  have hswap := byteOf_append32 (byteOf (nsh.path - 1) 0) (byteOf (nsh.path - 1) 1)
    (byteOf (nsh.path - 1) 2) (byteOf (nsh.path - 1) 3)
  -- The four bytes of the new header in network order.
  have hbytes : le32 (htonl (nsh.path - 1)) =
      [load8 nsh.1 4, load8 nsh.1 5, load8 nsh.1 6, load8 nsh.1 7 - 1] := by
    rw [le32, htonl, bswap32, hswap.1, hswap.2.1, hswap.2.2.1, hswap.2.2.2, d0, d1, d2, d3, hb.1,
      hb.2.1, hb.2.2.1, hb.2.2.2]
  -- The bytes of the old header, in the same order.
  have hold : le32 (load32 nsh.1 4) =
      [load8 nsh.1 4, load8 nsh.1 5, load8 nsh.1 6, load8 nsh.1 7] := by
    have hw := byteOf_append32 (load8 nsh.1 7) (load8 nsh.1 6) (load8 nsh.1 5) (load8 nsh.1 4)
    rw [le32, load32, hw.1, hw.2.1, hw.2.2.1, hw.2.2.2]
  have h4 : (nsh.1.take 4).length = 4 := by rw [List.length_take, hlen]; rfl
  have htake : nsh.1.take 7 = nsh.1.take 4 ++ [load8 nsh.1 4, load8 nsh.1 5, load8 nsh.1 6] := by
    conv_lhs => rw [nsh.eq_append, hold]
    rw [List.take_append, h4, List.take_of_length_le (by omega)]
    rfl
  rw [nsh.withPath_eq, hbytes, store, htake]
  simp

/-- The hop of an accepted frame, as an encapsulated frame. -/
theorem hopFrame_of_accepts {mac : Mac} {frame : Bytes} {off : ℕ} {key : Ip5tuple} (src dst : Mac)
    (h : Accepts mac frame off key) (hsi : siOf (Nsh.path (slice frame off 24)) ≠ 0) :
    hopFrame src dst frame = nshFrame dst src
      (Nsh.withPath (slice frame off 24) (Nsh.path (slice frame off 24) - 1))
      (frame.drop (off + 24)) := by
  rw [hopFrame, untag_of_accepts h]
  generalize slice frame off 24 = nsh at hsi ⊢
  generalize frame.drop (off + 24) = inner
  generalize slice frame 0 6 = d
  generalize slice frame 6 6 = s
  rw [store_nshFrame_dst, store_nshFrame_src]
  have hsi21 : load8 (nshFrame d s nsh inner) 21 = load8 nsh.1 7 :=
    load8_nshFrame_nsh d s nsh inner (i := 7) (by omega)
  -- Byte 21 of the frame is the eighth byte of the NSH.
  have hbyte : 7 + [load8 nsh.1 7 - 1].length ≤ 24 := by simp
  have hwrite : Nsh.write nsh 7 [load8 nsh.1 7 - 1] hbyte =
      Nsh.withPath nsh (Nsh.path nsh - 1) :=
    Subtype.ext (withPath_sub_one hsi).symm
  rw [hsi21, ← hwrite]
  exact store_nshFrame_nsh dst src nsh inner hbyte

/-! ## The law of one hop -/

/-- Dec strips the frame and passes it up. -/
def Strips (sm : SrcMac) (nd : NshData) (frame : Bytes) : Prop :=
  (decapNsh sm nd frame).ret.code = .pass ∧ (decapNsh sm nd frame).frame ≠ frame

theorem accepts_of_strips {sm : SrcMac} {nd : NshData} {frame : Bytes} (h : Strips sm nd frame) :
    ∃ off key, Accepts sm.ingress frame off key := by
  rcases decapNsh_cases sm nd frame with ⟨off, key, ha, -⟩ | ⟨-, code, hout⟩
  · exact ⟨off, key, ha⟩
  · exact absurd (by rw [hout]) h.2

/-- The forwarding entry of the NSH's path, one hop on, is an end of chain. -/
def EndEntry (m : NodeMaps) (nsh : Nsh) : Prop :=
  siOf nsh.path ≠ 0 ∧ ∃ e, m.fwd_table.lookup (htonl (nsh.path - 1)) = some e ∧ e.isEnd

/-- A node takes a frame it strips one hop on: with a forwarding entry that is not an end, it emits
the received frame after one hop; and it emits a bare frame only at an end of chain. The NSH is the
last 24 bytes of what Dec removed. -/
def HopIdentity (k : Kernel) (m : NodeMaps) (frame : Bytes) : Prop :=
  let out := decapNsh m.src_mac m.nsh_data frame
  let nsh : Nsh := slice frame (frame.length - out.frame.length - 24) 24
  let sent := egress k { m with nsh_data := out.nsh_data } out.frame
  (∀ e, siOf nsh.path ≠ 0 → m.fwd_table.lookup (htonl (nsh.path - 1)) = some e → ¬ e.isEnd →
    sent = .chained (hopFrame m.src_mac.egress e.address frame)) ∧
  (∀ f, sent = .plain f → EndEntry m nsh)

/-- What Dec removes from a frame that it accepts ends with the NSH at `off`. -/
theorem hopIdentity_of_accepts {k : Kernel} {m : NodeMaps} {frame : Bytes} {off : ℕ}
    {key : Ip5tuple} (ha : Accepts m.src_mac.ingress frame off key) :
    HopIdentity k m frame ↔
      (∀ e, siOf (Nsh.path (slice frame off 24)) ≠ 0 →
        m.fwd_table.lookup (htonl (Nsh.path (slice frame off 24) - 1)) = some e → ¬ e.isEnd →
        egress k { m with nsh_data := m.nsh_data.put key (slice frame off 24) }
          (frame.drop (off + 24)) = .chained (hopFrame m.src_mac.egress e.address frame)) ∧
      (∀ f, egress k { m with nsh_data := m.nsh_data.put key (slice frame off 24) }
          (frame.drop (off + 24)) = .plain f → EndEntry m (slice frame off 24)) := by
  unfold HopIdentity
  rw [decapNsh_of_accepts ha]
  dsimp only
  rw [ha.off_eq]

/-- An accepted frame with an inner IPv4 packet goes one hop on: Enc finds the NSH that Dec has just
saved. -/
theorem hopIdentity_of_ip {k : Kernel} (hk : ∀ f, k.grantsRoom f = true) {m : NodeMaps}
    {frame : Bytes} {off : ℕ} {key : Ip5tuple} (ha : Accepts m.src_mac.ingress frame off key)
    (hfit : m.nsh_data.Room key) (hip : load16 frame (off + 36) = htons ETH_P_IP) :
    HopIdentity k m frame := by
  have hlook := BoundedMap.lookup_put_self (slice frame off 24) hfit
  have hproto : load16 (frame.drop (off + 24)) 12 = load16 frame (off + 36) := load16_drop _ _ _
  have htup := ha.stripped_tuple
  have hsent := @egress_saved k { m with nsh_data := m.nsh_data.put key (slice frame off 24) } _ _ _
    (header_of_getTuple htup) (hproto.trans hip) htup hlook
  rw [hopIdentity_of_accepts ha, hsent]
  unfold egressSpec EndEntry
  simp only [hk, if_true]
  by_cases hsi : siOf (Nsh.path (slice frame off 24)) = 0
  · -- Enc drops a frame whose service index is zero.
    rw [if_pos hsi]
    refine ⟨fun _ hne => absurd hsi hne, fun f hf => ?_⟩
    simp only [reduceCtorEq] at hf
  rw [if_neg hsi]
  constructor
  · intro e _ he hend
    rw [he]
    simp only [hend, Bool.false_eq_true, if_false]
    rw [hopFrame_of_accepts _ _ ha hsi]
  · intro f hf
    refine ⟨hsi, ?_⟩
    cases he : m.fwd_table.lookup (htonl (Nsh.path (slice frame off 24) - 1)) with
    | none =>
      rw [he] at hf
      simp only [reduceCtorEq] at hf
    | some e =>
      by_cases hend : e.isEnd
      · exact ⟨e, rfl, hend⟩
      · rw [he] at hf
        simp only [hend, Bool.false_eq_true, if_false, reduceCtorEq] at hf

/-- An accepted frame with another inner EtherType leaves the node bare, which is right at an end of
chain only. -/
theorem hopIdentity_iff_of_not_ip {k : Kernel} {m : NodeMaps} {frame : Bytes} {off : ℕ}
    {key : Ip5tuple} (ha : Accepts m.src_mac.ingress frame off key)
    (hip : load16 frame (off + 36) ≠ htons ETH_P_IP) :
    HopIdentity k m frame ↔ EndEntry m (slice frame off 24) := by
  have hproto : load16 (frame.drop (off + 24)) 12 = load16 frame (off + 36) := load16_drop _ _ _
  have hinner : load16 (frame.drop (off + 24)) 12 ≠ htons ETH_P_IP := by
    rw [hproto]
    exact hip
  have hbare := @egress_not_ip k { m with nsh_data := m.nsh_data.put key (slice frame off 24) } _
    hinner
  rw [hopIdentity_of_accepts ha, hbare]
  constructor
  · exact fun h => h.2 _ rfl
  · intro hend
    refine ⟨fun e _ he hne => ?_, fun _ _ => hend⟩
    obtain ⟨-, e', he', hend'⟩ := hend
    rw [he] at he'
    exact absurd (Option.some.inj he' ▸ hend') hne

/-- A frame that Dec strips, while `nsh_data` has room for its flow and the kernel grants the room
that Enc asks for, goes one hop on exactly when its inner frame is IPv4, or is sent to an end of
chain anyway. -/
theorem hop_identity_iff (k : Kernel) (hk : ∀ f, k.grantsRoom f = true) (m : NodeMaps)
    (frame : Bytes) (hs : Strips m.src_mac m.nsh_data frame)
    (hfit : FlowFits m.src_mac m.nsh_data frame) :
    HopIdentity k m frame ↔ ∀ off key, Accepts m.src_mac.ingress frame off key →
      load16 frame (off + 36) = htons ETH_P_IP ∨ EndEntry m (slice frame off 24) := by
  obtain ⟨off, key, ha⟩ := accepts_of_strips hs
  constructor
  · intro h off' key' ha'
    obtain ⟨rfl, -⟩ := ha.unique ha'
    by_cases hip : load16 frame (off + 36) = htons ETH_P_IP
    · exact Or.inl hip
    · exact Or.inr ((hopIdentity_iff_of_not_ip ha hip).1 h)
  · intro h
    by_cases hip : load16 frame (off + 36) = htons ETH_P_IP
    · exact hopIdentity_of_ip hk ha (hfit off key ha) hip
    · exact (hopIdentity_iff_of_not_ip ha hip).2 ((h off key ha).resolve_left hip)

/-! ## Two frames -/

/-- A kernel that grants room in every frame. -/
def grantingKernel : Kernel := ⟨fun _ => true, fun _ => none⟩

/-- A node in the middle of chain 1: position 0 is forwarded to `nodeMac'`. -/
def middleNode : NodeMaps where
  src_mac := ⟨nodeMac, nodeMac'⟩
  nsh_data := .empty
  fwd_table := BoundedMap.empty.put (htonl 0x1FE) ⟨0, nodeMac'⟩

/-- The node forwards position 0 of chain 1 to an entry that is no end. -/
theorem middleNode_not_end : ¬ EndEntry middleNode (proxyNsh 0x1FF noContext) := by
  rintro ⟨-, e, he, hend⟩
  have hentry : middleNode.fwd_table.lookup (htonl ((proxyNsh 0x1FF noContext).path - 1)) =
      some ⟨0, nodeMac'⟩ := rfl
  rw [hentry] at he
  rw [← Option.some.inj he] at hend
  exact absurd hend (by decide)

/-- The frame of an ICMP packet on chain 1 goes one hop on. -/
theorem hop_identity_ping :
    HopIdentity grantingKernel middleNode
      (nshFrame nodeMac zeroMac (proxyNsh 0x1FF noContext) pingFrame) := by
  have hacc : Accepts nodeMac (nshFrame nodeMac zeroMac (proxyNsh 0x1FF noContext) pingFrame) 14
      ⟨0x0100000A, 0x0200000A, 0, 0, IPPROTO_ICMP⟩ :=
    accepts_nshFrame rfl rfl (by decide) (by decide)
  refine (hop_identity_iff grantingKernel (fun _ => rfl) middleNode _ ⟨?_, ?_⟩ ?_).2 ?_
  · rw [decapNsh_of_accepts hacc]
    rfl
  · rw [decapNsh_of_accepts hacc]
    decide
  · exact fun off key _ => Or.inr (by decide)
  · intro off key ha
    obtain ⟨rfl, -⟩ := hacc.unique ha
    exact Or.inl rfl

/-- An IPv6 packet from 2001:db8::1 to 2001:db8::2 without payload. The tenth byte of its header,
where an IPv4 header has the protocol, is the second byte of the source address. -/
def ipv6Frame : Bytes :=
  [0x02, 0, 0, 0, 0, 2, 0x02, 0, 0, 0, 0, 1, 0x86, 0xDD,
    0x60, 0, 0, 0, 0, 0, 0x3B, 64, 0x20, 0x01, 0x0D, 0xB8, 0, 0, 0, 0, 0, 0, 0, 0, 0, 0, 0, 1,
    0x20, 0x01, 0x0D, 0xB8, 0, 0, 0, 0, 0, 0, 0, 0, 0, 0, 0, 2]

/-- The frame of an IPv6 packet on chain 1 is stripped and leaves the chain, although its entry is
no end of chain. -/
theorem not_hop_identity_ipv6 :
    let frame := nshFrame nodeMac zeroMac (proxyNsh 0x1FF noContext) ipv6Frame
    Strips middleNode.src_mac middleNode.nsh_data frame ∧
      FlowFits middleNode.src_mac middleNode.nsh_data frame ∧
      ¬ HopIdentity grantingKernel middleNode frame := by
  have hacc : Accepts nodeMac (nshFrame nodeMac zeroMac (proxyNsh 0x1FF noContext) ipv6Frame) 14
      ⟨0, 0, 0, 0, IPPROTO_ICMP⟩ :=
    accepts_nshFrame rfl rfl (by decide) (by decide)
  refine ⟨⟨?_, ?_⟩, fun off key _ => Or.inr (by decide), fun h => ?_⟩
  · rw [decapNsh_of_accepts hacc]
    rfl
  · rw [decapNsh_of_accepts hacc]
    decide
  · have hend := (hopIdentity_iff_of_not_ip hacc (by decide)).1 h
    rw [slice_nshFrame] at hend
    exact middleNode_not_end hend

end ChainingBox
