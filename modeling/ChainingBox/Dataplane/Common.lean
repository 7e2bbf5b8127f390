import ChainingBox.Lib.Bytes
import ChainingBox.Lib.BoundedMap

/-!
# Headers, tables, and helpers shared by the eBPF programs

The definitions of `cb_common.h`, `cb_helpers.h`, and `nsh.h`, with the kernel helpers that the
programs call. Sizes and offsets are those of the C structures: an Ethernet header is 14 bytes with
its EtherType at 12, an 802.1Q tag is 4 bytes, an IPv4 header without options is 20 bytes with the
protocol at 9 and the addresses at 12 and 16, and `nshhdr_md1` is 24 bytes with `next_proto` at 3
and `serv_path` at 4. The programs run on a little-endian host, so a field in network byte order
loads as the byte swap of its value.

`get_tuple` reads from the IPv4 header to the end of the packet, so `getTuple` takes that suffix of
the frame.
-/

namespace ChainingBox

open Lib

/-! ## Constants -/

/-- EtherType of IPv4. -/
def ETH_P_IP : BitVec 16 := 0x0800

/-- EtherType of an 802.1Q tag. -/
def ETH_P_8021Q : BitVec 16 := 0x8100

/-- EtherType of NSH. -/
def ETH_P_NSH : BitVec 16 := 0x894F

def IPPROTO_ICMP : Byte := 1
def IPPROTO_IPIP : Byte := 4
def IPPROTO_TCP : Byte := 6
def IPPROTO_UDP : Byte := 17

def NSH_TTL_DEFAULT : BitVec 16 := 0x0FC0
def NSH_BASE_LENGHT_MD_TYPE_2 : BitVec 16 := 0x0002
def NSH_MD_TYPE_2 : Byte := 0x02
def NSH_NEXT_PROTO_ETHER : Byte := 0x03

/-- `htons` and `ntohs` on a little-endian host. -/
abbrev htons (x : BitVec 16) : BitVec 16 := bswap16 x

/-- `htonl` and `ntohl` on a little-endian host. -/
abbrev htonl (x : BitVec 32) : BitVec 32 := bswap32 x

/-! ## Return codes and statistics -/

/-- The actions an XDP program returns here. -/
inductive XdpAction
  | pass
  | drop
  | tx
  deriving DecidableEq, Repr

/-- The actions a TC program returns here. `BPF_DROP` is the number of `TC_ACT_SHOT`. -/
inductive TcAct
  | unspec
  | ok
  | shot
  | redirect
  deriving DecidableEq, Repr

/-- The counter of `prog_stats` that a program's exit increments in a build with statistics. -/
inductive Counter
  | tx
  | txOther
  deriving DecidableEq, Repr

/-- A return code, with the counter of the exit it was returned through. -/
structure Ret (α : Type) where
  code : α
  counter : Counter
  deriving DecidableEq, Repr

/-- Return and count as OK. -/
def cbRetok {α : Type} (code : α) : Ret α := ⟨code, .tx⟩

/-- Return and count as exited for another purpose. -/
def cbRetother {α : Type} (code : α) : Ret α := ⟨code, .txOther⟩

@[simp] theorem cbRetok_code {α : Type} (c : α) : (cbRetok c).code = c := rfl

@[simp] theorem cbRetother_code {α : Type} (c : α) : (cbRetother c).code = c := rfl

/-! ## Structures and tables -/

/-- A MAC address. -/
abbrev Mac := ByteVec 6

/-- The address of six bytes. -/
def Mac.of (a b c d e f : Byte) : Mac := ⟨[a, b, c, d, e, f], rfl⟩

/-- The all-zeros MAC address. -/
def zeroMac : Mac := ⟨[0, 0, 0, 0, 0, 0], rfl⟩

/-- The 24 bytes of a `struct nshhdr_md1`. -/
abbrev Nsh := ByteVec 24

/-- `struct ip_5tuple`. -/
structure Ip5tuple where
  ip_src : BitVec 32
  ip_dst : BitVec 32
  sport : BitVec 16
  dport : BitVec 16
  proto : Byte
  deriving DecidableEq, Repr

/-- `struct fwd_entry`. -/
structure FwdEntry where
  flags : Byte
  address : Mac
  deriving DecidableEq

/-- `enum srcmac_idx`. -/
inductive SrcmacIdx
  | ingressMac
  | egressMac

/-- The array map `src_mac`, with its two entries. -/
structure SrcMac where
  ingress : Mac
  egress : Mac

/-- A lookup in the array map, by its 32-bit index. -/
def SrcMac.lookup (m : SrcMac) : ℕ → Option Mac
  | 0 => some m.ingress
  | 1 => some m.egress
  | _ => none

/-- The index of an entry of `src_mac`. -/
def SrcmacIdx.key : SrcmacIdx → ℕ
  | .ingressMac => 0
  | .egressMac => 1

/-- The hash map `nsh_data`: the NSH of each flow. -/
abbrev NshData := BoundedMap Ip5tuple Nsh 2048

/-- The hash map `fwd_table`, keyed by the service path header in network byte order. -/
abbrev FwdTable := BoundedMap (BitVec 32) FwdEntry 2048

/-- The pinned maps of one node. -/
structure NodeMaps where
  src_mac : SrcMac
  nsh_data : NshData
  fwd_table : FwdTable

/-! ## Kernel helpers -/

/-- What a run depends on outside the programs: whether `bpf_skb_adjust_room` grants room in a
frame, and the bytes that `bpf_xdp_adjust_head` exposes in front of a frame when it can grow. -/
structure Kernel where
  grantsRoom : Bytes → Bool
  headroom : Bytes → Option (ByteVec 38)

/-- `bpf_xdp_adjust_head` with a positive delta: it cuts the front of the frame, and refuses to
leave less than an Ethernet header. -/
def bpfXdpAdjustHead (frame : Bytes) (delta : ℕ) : Option Bytes :=
  if frame.length < delta + 14 then none else some (frame.drop delta)

/-- `bpf_skb_adjust_room` with `BPF_ADJ_ROOM_MAC`: zero bytes right after the Ethernet header. -/
def bpfSkbAdjustRoom (k : Kernel) (frame : Bytes) (len : ℕ) : Option Bytes :=
  if k.grantsRoom frame then
    some (frame.take 14 ++ (List.replicate len 0 ++ frame.drop 14))
  else none

/-! ## `get_tuple` -/

/-- `get_tuple` on the bytes from the IPv4 header to the end of the packet. -/
def getTuple (p : Bytes) : Option Ip5tuple :=
  if p.length < 20 then none
  else
    -- If using IP-in-IP encapsulation, skip the first IP header.
    let ip := if load8 p 9 = IPPROTO_IPIP then 20 else 0
    if load8 p 9 = IPPROTO_IPIP ∧ p.length < 40 then none
    else
      let ip_src := load32 p (ip + 12)
      let ip_dst := load32 p (ip + 16)
      let proto := load8 p (ip + 9)
      -- The transport header is taken right after the first IP header in every case.
      if proto = IPPROTO_UDP then
        if p.length < 20 + 8 then none
        else some ⟨ip_src, ip_dst, load16 p 20, load16 p 22, proto⟩
      else if proto = IPPROTO_TCP then
        if p.length < 20 + 20 then none
        else some ⟨ip_src, ip_dst, load16 p 20, load16 p 22, proto⟩
      else if proto = IPPROTO_ICMP then some ⟨ip_src, ip_dst, 0, 0, proto⟩
      else none

/-- `get_tuple` finds a 5-tuple behind at most one outer header, if the IPv4 header at `ip` is in the
packet and 20 bytes or 8 are behind the first one for TCP and UDP. -/
theorem getTuple_eq {p : Bytes} {ip : ℕ} (hip : (if load8 p 9 = IPPROTO_IPIP then 20 else 0) = ip)
    (hlen : ip + 20 ≤ p.length)
    (hproto : load8 p (ip + 9) = IPPROTO_TCP ∧ 40 ≤ p.length ∨
      load8 p (ip + 9) = IPPROTO_UDP ∧ 28 ≤ p.length ∨ load8 p (ip + 9) = IPPROTO_ICMP) :
    getTuple p = some
      { ip_src := load32 p (ip + 12)
        ip_dst := load32 p (ip + 16)
        sport := if load8 p (ip + 9) = IPPROTO_ICMP then 0 else load16 p 20
        dport := if load8 p (ip + 9) = IPPROTO_ICMP then 0 else load16 p 22
        proto := load8 p (ip + 9) } := by
  have hinner : ¬ (load8 p 9 = IPPROTO_IPIP ∧ p.length < 40) := by
    rintro ⟨h9, hl⟩
    rw [if_pos h9] at hip
    omega
  unfold getTuple
  rw [if_neg (by omega), if_neg hinner]
  simp only [hip]
  -- The ports are read from the same place for TCP and UDP.
  rcases hproto with ⟨hp, hl⟩ | ⟨hp, hl⟩ | hp
  · have hne : IPPROTO_TCP ≠ IPPROTO_UDP := by decide
    have hni : IPPROTO_TCP ≠ IPPROTO_ICMP := by decide
    rw [hp, if_neg hne, if_pos rfl, if_neg (by omega), if_neg hni, if_neg hni]
  · have hni : IPPROTO_UDP ≠ IPPROTO_ICMP := by decide
    rw [hp, if_pos rfl, if_neg (by omega), if_neg hni, if_neg hni]
  · have hnu : IPPROTO_ICMP ≠ IPPROTO_UDP := by decide
    have hnt : IPPROTO_ICMP ≠ IPPROTO_TCP := by decide
    rw [hp, if_neg hnu, if_neg hnt, if_pos rfl, if_pos rfl, if_pos rfl]

/-- `get_tuple` needs an IPv4 header. -/
theorem length_of_getTuple {p : Bytes} {t : Ip5tuple} (h : getTuple p = some t) :
    20 ≤ p.length := by
  by_contra hlt
  rw [getTuple, if_pos (by omega)] at h
  exact absurd h (by simp)

/-- A frame with a 5-tuple has an Ethernet and an IPv4 header. -/
theorem header_of_getTuple {frame : Bytes} {t : Ip5tuple} (h : getTuple (frame.drop 14) = some t) :
    34 ≤ frame.length := by
  have hip4 := length_of_getTuple h
  rw [List.length_drop] at hip4
  omega

end ChainingBox
