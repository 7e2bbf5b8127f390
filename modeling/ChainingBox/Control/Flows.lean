import ChainingBox.Dataplane.Packet
import ChainingBox.Control.Install

/-!
# The flows of a configuration

A flow of the configuration file is a pair of addresses in text, two ports, and a protocol. `Parse`
turns it into numbers, the Install message carries them to the agent, the agent reads the Go structure
as the packed C one, and `add_proxy_rule` swaps the bytes: `agentKey` is the key that arrives in
`nsh_data`.

`flow_selects_iff` says which of the flows that `Parse` accepts select exactly the packets they
describe. `Parse` looks at the addresses only, and takes IPv6 ones as well, of which `ip2int` keeps
the last four bytes; so some of the flows it accepts select packets of other addresses, and some
describe no packet at all.
-/

namespace ChainingBox

open Lib

/-! ## From the file to the table -/

/-- The memory of a Go `Ip_5tuple`: its fields in order, and the padding behind the last one. -/
def Ip5tuple.goBytes (t : Ip5tuple) (pad : ByteVec 3) : Bytes :=
  le32 t.ip_src ++ (le32 t.ip_dst ++ (le16 t.sport ++ (le16 t.dport ++ (t.proto :: pad.1))))

/-- The packed C `struct ip_5tuple` at an address. -/
def cIp5tuple (b : Bytes) : Ip5tuple :=
  ⟨load32 b 0, load32 b 4, load16 b 8, load16 b 10, load8 b 12⟩

/-- The cast of `handleInstall` keeps every field. -/
theorem cIp5tuple_goBytes (t : Ip5tuple) (pad : ByteVec 3) : cIp5tuple (t.goBytes pad) = t := by
  obtain ⟨src, dst, sport, dport, proto⟩ := t
  have hsrc := bytes_append32 src
  have hdst := bytes_append32 dst
  have hsport := bytes_append16 sport
  have hdport := bytes_append16 dport
  unfold cIp5tuple
  congr 1

/-- The key of a parsed flow in `nsh_data`. -/
def agentKey (pad : ByteVec 3) (t : Ip5tuple) : Ip5tuple := (cIp5tuple (t.goBytes pad)).toNetwork

/-! ## Addresses in text -/

/-- An IPv4 address in the form of 16 bytes that `net.ParseIP` returns. -/
def v4Mapped (a : BitVec 32) : ByteVec 16 :=
  ⟨[0, 0, 0, 0, 0, 0, 0, 0, 0, 0, 0xFF, 0xFF, byteOf a 3, byteOf a 2, byteOf a 1, byteOf a 0], rfl⟩

theorem ip2int_v4Mapped (a : BitVec 32) : ip2int (v4Mapped a) = a := bytes_append32 a

/-- An accepted flow has two addresses, and keeps its other fields. -/
theorem parse_eq_some {parseIP : ParseIP} {tstr : Ip5tuplestr} {t : Ip5tuple} :
    tstr.parse parseIP = some t ↔ ∃ s d, parseIP tstr.Ipsrc = some s ∧
      parseIP tstr.Ipdst = some d ∧
      t = ⟨ip2int s, ip2int d, tstr.Sport, tstr.Dport, tstr.Proto⟩ := by
  unfold Ip5tuplestr.parse
  cases parseIP tstr.Ipsrc with
  | none => simp
  | some s =>
    cases parseIP tstr.Ipdst with
    | none => simp
    | some d =>
      simp only [Option.bind_eq_bind, Option.bind_some, Option.pure_def, Option.some.injEq,
        exists_and_left, exists_eq_left']
      exact eq_comm

/-! ## Packets -/

/-- The frame of an IPv4 packet with a 20-byte header that is no tunnel. A packet of TCP or UDP has
its ports: it is no later fragment of a datagram, and its transport header is complete. -/
structure Ipv4Packet (frame : Bytes) : Prop where
  ethertype : load16 frame 12 = htons ETH_P_IP
  version : load8 frame 14 = 0x45
  header : 34 ≤ frame.length
  not_ipip : load8 frame 23 ≠ IPPROTO_IPIP
  /-- The fragment offset is zero. -/
  first : load8 frame 23 = IPPROTO_TCP ∨ load8 frame 23 = IPPROTO_UDP →
    load8 frame 20 &&& 0x1F = 0 ∧ load8 frame 21 = 0
  complete : load8 frame 23 = IPPROTO_TCP ∨ load8 frame 23 = IPPROTO_UDP →
    34 + transportLength (load8 frame 23) ≤ frame.length

/-- A packet has the addresses of a flow of the file, its protocol, and, for TCP and UDP, its
ports. -/
structure Matches (parseIP : ParseIP) (tstr : Ip5tuplestr) (frame : Bytes) : Prop where
  src : parseIP tstr.Ipsrc = some (v4Mapped (flowOf frame).ip_src)
  dst : parseIP tstr.Ipdst = some (v4Mapped (flowOf frame).ip_dst)
  proto : (flowOf frame).proto = tstr.Proto
  ports : tstr.Proto = IPPROTO_TCP ∨ tstr.Proto = IPPROTO_UDP →
    (flowOf frame).sport = tstr.Sport ∧ (flowOf frame).dport = tstr.Dport

/-- A flow, if `Parse` accepts it, selects exactly the packets that match it, and there is one. -/
def SelectsExactly (parseIP : ParseIP) (tstr : Ip5tuplestr) : Prop :=
  ∀ t, tstr.parse parseIP = some t →
    (∀ pad frame, Ipv4Packet frame →
      (getTuple (frame.drop 14) = some (agentKey pad t) ↔ Matches parseIP tstr frame)) ∧
    ∃ frame, Ipv4Packet frame ∧ Matches parseIP tstr frame

/-- A flow that some packet can have: both addresses are IPv4 ones, the protocol is one of the three,
and ICMP comes without ports. -/
structure Selectable (parseIP : ParseIP) (tstr : Ip5tuplestr) : Prop where
  src : ∃ a, parseIP tstr.Ipsrc = some (v4Mapped a)
  dst : ∃ a, parseIP tstr.Ipdst = some (v4Mapped a)
  proto : tstr.Proto = IPPROTO_TCP ∨ tstr.Proto = IPPROTO_UDP ∨ tstr.Proto = IPPROTO_ICMP
  icmp : tstr.Proto = IPPROTO_ICMP → tstr.Sport = 0 ∧ tstr.Dport = 0

/-- `get_tuple` finds the flow of a packet of one of the three protocols. -/
theorem Ipv4Packet.getTuple_some {frame : Bytes} (h : Ipv4Packet frame)
    (hproto : load8 frame 23 = IPPROTO_TCP ∨ load8 frame 23 = IPPROTO_UDP ∨
      load8 frame 23 = IPPROTO_ICMP) :
    getTuple (frame.drop 14) = some (flowOf frame).toNetwork :=
  getTuple_of_transport h.header hproto h.complete

/-- It finds none in a packet of another protocol. -/
theorem Ipv4Packet.getTuple_none {frame : Bytes} (h : Ipv4Packet frame)
    (hproto : ¬ (load8 frame 23 = IPPROTO_TCP ∨ load8 frame 23 = IPPROTO_UDP ∨
      load8 frame 23 = IPPROTO_ICMP)) :
    getTuple (frame.drop 14) = none := by
  push Not at hproto
  obtain ⟨htcp, hudp, hicmp⟩ := hproto
  have h9 : load8 (frame.drop 14) 9 = load8 frame 23 := load8_drop frame 14 9
  unfold getTuple
  simp only [h9, h.not_ipip, if_false, false_and, Nat.zero_add, htcp, hudp, hicmp, ite_self]

theorem ipv4Packet_packetOf {f : Ip5tuple} (hf : PacketFlow f) : Ipv4Packet (packetOf f) := by
  have hplain := plainPacket_packetOf hf
  have hcomplete := hplain.complete
  have hfirst : load8 (packetOf f) 20 &&& 0x1F = 0 ∧ load8 (packetOf f) 21 = 0 := by
    show (0 : Byte) &&& 0x1F = 0 ∧ (0 : Byte) = 0
    decide
  refine ⟨hplain.ethertype, hplain.version, by omega, ?_, fun _ => hfirst, fun _ => hcomplete⟩
  rcases hplain.proto with hp | hp | hp <;> rw [hp] <;> decide

/-! ## The law of selection -/

/-- A packet has the key of an accepted flow exactly when it matches it, if some packet can. -/
theorem Selectable.key_iff {parseIP : ParseIP} {tstr : Ip5tuplestr} (h : Selectable parseIP tstr)
    {t : Ip5tuple} (ht : tstr.parse parseIP = some t) (pad : ByteVec 3) {frame : Bytes}
    (hf : Ipv4Packet frame) :
    getTuple (frame.drop 14) = some (agentKey pad t) ↔ Matches parseIP tstr frame := by
  obtain ⟨a, ha⟩ := h.src
  obtain ⟨b, hb⟩ := h.dst
  obtain ⟨s, d, hs, hd, rfl⟩ := parse_eq_some.1 ht
  obtain rfl : v4Mapped a = s := Option.some.inj (ha.symm.trans hs)
  obtain rfl : v4Mapped b = d := Option.some.inj (hb.symm.trans hd)
  rw [agentKey, cIp5tuple_goBytes, ip2int_v4Mapped, ip2int_v4Mapped]
  by_cases hproto : load8 frame 23 = IPPROTO_TCP ∨ load8 frame 23 = IPPROTO_UDP ∨
      load8 frame 23 = IPPROTO_ICMP
  · rw [hf.getTuple_some hproto, Option.some.injEq, Ip5tuple.toNetwork_injective.eq_iff]
    constructor
    · intro heq
      refine ⟨by rw [heq]; exact ha, by rw [heq]; exact hb, by rw [heq], fun _ => ?_⟩
      rw [heq]
      exact ⟨rfl, rfl⟩
    · intro hm
      have hsrc := congrArg ip2int (Option.some.inj (ha.symm.trans hm.src))
      have hdst := congrArg ip2int (Option.some.inj (hb.symm.trans hm.dst))
      rw [ip2int_v4Mapped, ip2int_v4Mapped] at hsrc hdst
      -- The ports of ICMP are zero on both sides.
      have hports : (flowOf frame).sport = tstr.Sport ∧ (flowOf frame).dport = tstr.Dport := by
        rcases h.proto with hp | hp | hp
        · exact hm.ports (Or.inl hp)
        · exact hm.ports (Or.inr hp)
        · have hzero : load8 frame 23 = IPPROTO_ICMP := hm.proto.trans hp
          obtain ⟨hsp, hdp⟩ := h.icmp hp
          rw [hsp, hdp]
          exact ⟨if_pos hzero, if_pos hzero⟩
      obtain ⟨hsp, hdp⟩ := hports
      calc flowOf frame = ⟨(flowOf frame).ip_src, (flowOf frame).ip_dst, (flowOf frame).sport,
            (flowOf frame).dport, (flowOf frame).proto⟩ := rfl
        _ = ⟨a, b, tstr.Sport, tstr.Dport, tstr.Proto⟩ := by rw [← hsrc, ← hdst, hsp, hdp, hm.proto]
  · rw [hf.getTuple_none hproto]
    constructor
    · intro hnone
      simp at hnone
    · intro hm
      have hsame : load8 frame 23 = tstr.Proto := hm.proto
      rw [hsame] at hproto
      exact absurd h.proto hproto

/-- A flow that some packet can have is had by one. -/
theorem Selectable.exists_packet {parseIP : ParseIP} {tstr : Ip5tuplestr}
    (h : Selectable parseIP tstr) : ∃ frame, Ipv4Packet frame ∧ Matches parseIP tstr frame := by
  obtain ⟨a, ha⟩ := h.src
  obtain ⟨b, hb⟩ := h.dst
  have hflow : PacketFlow ⟨a, b, tstr.Sport, tstr.Dport, tstr.Proto⟩ := ⟨h.proto, h.icmp⟩
  refine ⟨_, ipv4Packet_packetOf hflow, ?_⟩
  have heq := flowOf_packetOf hflow
  exact ⟨by rw [heq, ha], by rw [heq, hb], by rw [heq], fun _ => by rw [heq]; exact ⟨rfl, rfl⟩⟩

/-- A flow that selects exactly its packets is one that some packet can have. -/
theorem selectable_of_selectsExactly {parseIP : ParseIP} {tstr : Ip5tuplestr}
    (hacc : (tstr.parse parseIP).isSome) (h : SelectsExactly parseIP tstr) :
    Selectable parseIP tstr := by
  obtain ⟨t, ht⟩ := Option.isSome_iff_exists.1 hacc
  obtain ⟨hiff, frame, hf, hm⟩ := h t ht
  obtain ⟨s, d, -, -, rfl⟩ := parse_eq_some.1 ht
  have hkey := (hiff ⟨[0, 0, 0], rfl⟩ frame hf).2 hm
  have hproto : load8 frame 23 = IPPROTO_TCP ∨ load8 frame 23 = IPPROTO_UDP ∨
      load8 frame 23 = IPPROTO_ICMP := by
    by_contra hnot
    rw [hf.getTuple_none hnot] at hkey
    simp at hkey
  rw [hf.getTuple_some hproto, agentKey, cIp5tuple_goBytes, Option.some.injEq,
    Ip5tuple.toNetwork_injective.eq_iff] at hkey
  have hsame : load8 frame 23 = tstr.Proto := hm.proto
  rw [hsame] at hproto
  refine ⟨⟨_, hm.src⟩, ⟨_, hm.dst⟩, hproto, fun hicmp => ?_⟩
  -- `get_tuple` gives the packet the ports zero.
  have hzero : (flowOf frame).sport = 0 ∧ (flowOf frame).dport = 0 :=
    ⟨if_pos (hsame.trans hicmp), if_pos (hsame.trans hicmp)⟩
  rw [hkey] at hzero
  exact hzero

/-- A flow that `Parse` accepts selects exactly the packets that it describes, and describes some, if
and only if both of its addresses are IPv4 addresses, its protocol is TCP, UDP, or ICMP, and its ports
are zero if it is ICMP. -/
theorem flow_selects_iff (parseIP : ParseIP) (tstr : Ip5tuplestr)
    (hacc : (tstr.parse parseIP).isSome) :
    SelectsExactly parseIP tstr ↔ Selectable parseIP tstr :=
  ⟨selectable_of_selectsExactly hacc,
    fun h _ ht => ⟨fun pad _ hf => h.key_iff ht pad hf, h.exists_packet⟩⟩

/-! ## Two flows -/

theorem flow_selects_ping : SelectsExactly parsePing pingFlow ↔ Selectable parsePing pingFlow :=
  flow_selects_iff parsePing pingFlow (by decide)

/-- `net.ParseIP` on an IPv6 address as well. -/
def parsePing6 : ParseIP := fun s =>
  if s = "2001:db8::a00:1" then
    some ⟨[0x20, 0x01, 0x0D, 0xB8, 0, 0, 0, 0, 0, 0, 0, 0, 10, 0, 0, 1], rfl⟩
  else parsePing s

/-- A flow of ICMP from the IPv6 address to 10.0.0.2. -/
def mixedFlow : Ip5tuplestr := ⟨"2001:db8::a00:1", "10.0.0.2", 0, 0, IPPROTO_ICMP⟩

/-- `Parse` accepts the flow, and it selects the packets from 10.0.0.1. -/
theorem not_selectsExactly_mixed :
    (mixedFlow.parse parsePing6).map (agentKey ⟨[0, 0, 0], rfl⟩) =
      some ⟨0x0100000A, 0x0200000A, 0, 0, IPPROTO_ICMP⟩ ∧
    ¬ SelectsExactly parsePing6 mixedFlow := by
  refine ⟨by decide, fun h => ?_⟩
  obtain ⟨a, ha⟩ := (selectable_of_selectsExactly (by decide) h).src
  have hbyte : some (0x20 : Byte) = some 0 :=
    congrArg (fun ip => ip.map fun ip => load8 ip.1 0) ha
  exact absurd hbyte (by decide)

end ChainingBox
