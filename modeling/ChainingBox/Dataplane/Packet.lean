import ChainingBox.Control.Agent

/-!
# Plain IPv4 packets and their flows

`PlainPacket` describes the Ethernet frames of unfragmented IPv4 packets whose header has no options
and is followed by a complete TCP, UDP, or ICMP header. `flowOf` reads the 5-tuple of such a packet,
in host byte order and with the ports of ICMP taken as 0, and `getTuple_of_plainPacket` says that
`get_tuple` finds the same flow, in network byte order. Every flow of these protocols has a packet
(`flowOf_packetOf`).
-/

namespace ChainingBox

open Lib

/-- A flow that a packet can have. -/
structure PacketFlow (f : Ip5tuple) : Prop where
  /-- The protocol is one of the three. -/
  proto : f.proto = IPPROTO_TCP ∨ f.proto = IPPROTO_UDP ∨ f.proto = IPPROTO_ICMP
  /-- ICMP has no ports. -/
  icmp : f.proto = IPPROTO_ICMP → f.sport = 0 ∧ f.dport = 0

/-- The bytes that a transport header takes at least. -/
def transportLength (proto : Byte) : ℕ := if proto = IPPROTO_TCP then 20 else 8

/-- The frame of an unfragmented IPv4 packet with a 20-byte header and a complete transport
header. -/
structure PlainPacket (frame : Bytes) : Prop where
  ethertype : load16 frame 12 = htons ETH_P_IP
  /-- Version 4, and a header of five words. -/
  version : load8 frame 14 = 0x45
  /-- The flag for more fragments and the fragment offset are zero. -/
  unfragmented : load8 frame 20 &&& 0x3F = 0 ∧ load8 frame 21 = 0
  proto : load8 frame 23 = IPPROTO_TCP ∨ load8 frame 23 = IPPROTO_UDP ∨
    load8 frame 23 = IPPROTO_ICMP
  complete : 34 + transportLength (load8 frame 23) ≤ frame.length

/-- A plain packet has an Ethernet and an IPv4 header. -/
theorem PlainPacket.header {frame : Bytes} (h : PlainPacket frame) : 34 ≤ frame.length :=
  (Nat.le_add_right 34 _).trans h.complete

/-- The 5-tuple of a plain packet, in host byte order. -/
def flowOf (frame : Bytes) : Ip5tuple where
  ip_src := load8 frame 26 ++ load8 frame 27 ++ load8 frame 28 ++ load8 frame 29
  ip_dst := load8 frame 30 ++ load8 frame 31 ++ load8 frame 32 ++ load8 frame 33
  sport := if load8 frame 23 = IPPROTO_ICMP then 0 else load8 frame 34 ++ load8 frame 35
  dport := if load8 frame 23 = IPPROTO_ICMP then 0 else load8 frame 36 ++ load8 frame 37
  proto := load8 frame 23

/-- A word in network byte order, swapped, is the word that the machine loads. -/
theorem htonl_append (a b c d : Byte) : htonl (a ++ b ++ c ++ d) = d ++ c ++ b ++ a := by
  obtain ⟨h0, h1, h2, h3⟩ := byteOf_append32 a b c d
  rw [htonl, bswap32, h0, h1, h2, h3]

theorem htons_append (a b : Byte) : htons (a ++ b) = b ++ a := by
  obtain ⟨h0, h1⟩ := byteOf_append16 a b
  rw [htons, bswap16, h0, h1]

theorem packetFlow_flowOf {frame : Bytes} (h : PlainPacket frame) : PacketFlow (flowOf frame) where
  proto := h.proto
  icmp := fun hi => ⟨if_pos hi, if_pos hi⟩

/-- `get_tuple` finds the flow of an IPv4 packet of one of the three protocols, if the packet has its
IP header and, for TCP and UDP, its transport header. -/
theorem getTuple_of_transport {frame : Bytes} (hheader : 34 ≤ frame.length)
    (hproto : load8 frame 23 = IPPROTO_TCP ∨ load8 frame 23 = IPPROTO_UDP ∨
      load8 frame 23 = IPPROTO_ICMP)
    (hcomplete : load8 frame 23 = IPPROTO_TCP ∨ load8 frame 23 = IPPROTO_UDP →
      34 + transportLength (load8 frame 23) ≤ frame.length) :
    getTuple (frame.drop 14) = some (flowOf frame).toNetwork := by
  have hlen : (frame.drop 14).length = frame.length - 14 := List.length_drop
  have h8 (i : ℕ) : load8 (frame.drop 14) i = load8 frame (14 + i) := load8_drop _ _ _
  have h32 (i : ℕ) : load32 (frame.drop 14) i = load32 frame (14 + i) := load32_drop _ _ _
  have h16 (i : ℕ) : load16 (frame.drop 14) i = load16 frame (14 + i) := load16_drop _ _ _
  -- The protocol is none that `get_tuple` skips a header for.
  have hipip : load8 frame (14 + 9) ≠ IPPROTO_IPIP := by
    rcases hproto with hp | hp | hp <;> rw [hp] <;> decide
  have hports : load8 frame 23 = IPPROTO_TCP ∧ 54 ≤ frame.length ∨
      load8 frame 23 = IPPROTO_UDP ∧ 42 ≤ frame.length ∨ load8 frame 23 = IPPROTO_ICMP := by
    unfold transportLength at hcomplete
    rcases hproto with hp | hp | hp
    · have hl := hcomplete (Or.inl hp)
      rw [if_pos hp] at hl
      exact Or.inl ⟨hp, hl⟩
    · have hne : IPPROTO_UDP ≠ IPPROTO_TCP := by decide
      have hl := hcomplete (Or.inr hp)
      rw [hp, if_neg hne] at hl
      exact Or.inr (Or.inl ⟨hp, hl⟩)
    · exact Or.inr (Or.inr hp)
  have hfound := @getTuple_eq (frame.drop 14) 0 (by rw [h8, if_neg hipip]) (by omega) (by
    rw [h8, hlen]
    exact hports.imp (And.imp_right fun _ => by omega)
      (Or.imp_left (And.imp_right fun _ => by omega)))
  have hzero : htons 0 = 0 := by decide
  rw [hfound]
  simp only [h8, h32, h16, Nat.zero_add, flowOf, Ip5tuple.toNetwork, htonl_append, htons_append,
    apply_ite htons, hzero]
  rfl

/-- `get_tuple` finds the flow of a plain packet. -/
theorem getTuple_of_plainPacket {frame : Bytes} (h : PlainPacket frame) :
    getTuple (frame.drop 14) = some (flowOf frame).toNetwork :=
  getTuple_of_transport h.header h.proto fun _ => h.complete

/-- What the stages need of a packet: it is IPv4, and `get_tuple` finds a flow. -/
structure Keyed (frame : Bytes) (key : Ip5tuple) : Prop where
  header : 34 ≤ frame.length
  ethertype : load16 frame 12 = htons ETH_P_IP
  tuple : getTuple (frame.drop 14) = some key

/-- A plain packet has its flow. -/
theorem PlainPacket.keyed {frame : Bytes} (h : PlainPacket frame) :
    Keyed frame (flowOf frame).toNetwork :=
  ⟨h.header, h.ethertype, getTuple_of_plainPacket h⟩

/-- Without a saved header it leaves. -/
theorem Keyed.egress_unsaved {k : Kernel} {m : NodeMaps} {frame : Bytes} {key : Ip5tuple}
    (h : Keyed frame key) (hn : m.nsh_data.lookup key = none) :
    egress k m frame = .plain (store frame 6 m.src_mac.egress.1) :=
  ChainingBox.egress_unsaved h.header h.ethertype h.tuple hn

/-- With a saved header that decides. -/
theorem Keyed.egress_saved {k : Kernel} {m : NodeMaps} {frame : Bytes} {key : Ip5tuple} {nsh : Nsh}
    (h : Keyed frame key) (hn : m.nsh_data.lookup key = some nsh) :
    egress k m frame = egressSpec k m nsh frame :=
  ChainingBox.egress_saved h.header h.ethertype h.tuple hn

/-- A packet of a flow. -/
def packetOf (f : Ip5tuple) : Bytes :=
  [0x02, 0, 0, 0, 0, 2, 0x02, 0, 0, 0, 0, 1, 0x08, 0x00,
    0x45, 0, 0, 40, 0, 0, 0, 0, 64, f.proto, 0, 0,
    byteOf f.ip_src 3, byteOf f.ip_src 2, byteOf f.ip_src 1, byteOf f.ip_src 0,
    byteOf f.ip_dst 3, byteOf f.ip_dst 2, byteOf f.ip_dst 1, byteOf f.ip_dst 0,
    byteOf f.sport 1, byteOf f.sport 0, byteOf f.dport 1, byteOf f.dport 0,
    0, 0, 0, 0, 0, 0, 0, 0, 0x50, 0, 0, 0, 0, 0, 0, 0]

theorem plainPacket_packetOf {f : Ip5tuple} (hf : PacketFlow f) : PlainPacket (packetOf f) where
  ethertype := rfl
  version := rfl
  unfragmented := by
    show (0 : Byte) &&& 0x3F = 0 ∧ (0 : Byte) = 0
    decide
  proto := hf.proto
  complete := by
    have hlen : (packetOf f).length = 54 := rfl
    unfold transportLength
    split_ifs <;> omega

/-- Every flow of the three protocols has a packet. -/
theorem flowOf_packetOf {f : Ip5tuple} (hf : PacketFlow f) : flowOf (packetOf f) = f := by
  have hsrc := bytes_append32 f.ip_src
  have hdst := bytes_append32 f.ip_dst
  have hsport := bytes_append16 f.sport
  have hdport := bytes_append16 f.dport
  have hproto : load8 (packetOf f) 23 = f.proto := rfl
  have h34 : load8 (packetOf f) 34 ++ load8 (packetOf f) 35 = f.sport := hsport
  have h36 : load8 (packetOf f) 36 ++ load8 (packetOf f) 37 = f.dport := hdport
  obtain ⟨s, d, sp, dp, p⟩ := f
  unfold flowOf
  rw [hproto, h34, h36]
  simp only [Ip5tuple.mk.injEq, and_true]
  refine ⟨hsrc, hdst, ?_, ?_⟩
  · split_ifs with hi
    · exact (hf.icmp hi).1.symm
    · rfl
  · split_ifs with hi
    · exact (hf.icmp hi).2.symm
    · rfl

end ChainingBox
