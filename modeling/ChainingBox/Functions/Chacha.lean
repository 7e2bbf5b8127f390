import ChainingBox.Dataplane.SavedHeaders

/-!
# The encrypting function

`chacha_kern.c`, a service function on TC. It puts an IPv4 packet of TCP, UDP, or ICMP into an outer
IPv4 header with the same addresses (IP-in-IP), encrypts the payload behind the transport header with
ChaCha in place, in whole blocks of 64 bytes, and redirects the frame to its egress interface.

`get_tuple` skips the outer header when it reads the addresses and the protocol of the inner packet,
but it reads the ports right behind the first header in every case, which is where the inner header
now is. `chacha_keeps_flow_iff` says for which packets it finds the same flow all the same: those of
ICMP, and those whose ports happen to be the first four bytes of their IPv4 header.
-/

namespace ChainingBox

open Lib

namespace Chacha

/-! ## The cipher -/

/-- `chacha_ctx`. -/
structure Ctx where
  state : Vector (BitVec 32) 16
  rounds : ℕ

def CHACHA_ROUNDS : ℕ := 8

/-- The characters of "expand 16-byte k". -/
def TAU : Bytes :=
  [0x65, 0x78, 0x70, 0x61, 0x6E, 0x64, 0x20, 0x31, 0x36, 0x2D, 0x62, 0x79, 0x74, 0x65, 0x20, 0x6B]

/-- `QUARTERROUND`. -/
def quarterround (x : Vector (BitVec 32) 16) (a b c d : Fin 16) : Vector (BitVec 32) 16 :=
  let x := x.set a (x[a] + x[b])
  let x := x.set d ((x[d] ^^^ x[a]).rotateLeft 16)
  let x := x.set c (x[c] + x[d])
  let x := x.set b ((x[b] ^^^ x[c]).rotateLeft 12)
  let x := x.set a (x[a] + x[b])
  let x := x.set d ((x[d] ^^^ x[a]).rotateLeft 8)
  let x := x.set c (x[c] + x[d])
  x.set b ((x[b] ^^^ x[c]).rotateLeft 7)

/-- The round of the loop of `doublerounds`: the columns and the diagonals. -/
def doubleround (x : Vector (BitVec 32) 16) : Vector (BitVec 32) 16 :=
  let x := quarterround x 0 4 8 12
  let x := quarterround x 1 5 9 13
  let x := quarterround x 2 6 10 14
  let x := quarterround x 3 7 11 15
  let x := quarterround x 0 5 10 15
  let x := quarterround x 1 6 11 12
  let x := quarterround x 2 7 8 13
  quarterround x 3 4 9 14

/-- `doublerounds`: the 64 bytes of the output. -/
def doublerounds (input : Vector (BitVec 32) 16) (rounds : ℕ) : Bytes :=
  let x := doubleround^[(rounds + 1) / 2] input
  (x.zipWith (· + ·) input).toList.flatMap le32

/-- `init`, with a key of 128 bits, and the block counter at zero. -/
def init (key : Bytes) (iv : Bytes) (rounds : ℕ) : Ctx where
  state := ⟨#[load32 TAU 0, load32 TAU 4, load32 TAU 8, load32 TAU 12,
    load32 key 0, load32 key 4, load32 key 8, load32 key 12,
    load32 key 0, load32 key 4, load32 key 8, load32 key 12,
    0, 0, load32 iv 0, load32 iv 4], rfl⟩
  rounds := rounds

/-- The counter of blocks is the words 12 and 13. -/
def Ctx.count (ctx : Ctx) : Ctx :=
  let state := ctx.state.set 12 (ctx.state[12] + 1)
  if state[12] = 0 then { ctx with state := state.set 13 (state[13] + 1) }
  else { ctx with state := state }

/-- `next`: the block of 64 bytes at `m`, transformed in place. -/
def next (ctx : Ctx) (frame : Bytes) (m : ℕ) : Ctx × Bytes :=
  let x := doublerounds ctx.state ctx.rounds
  let block := (List.range 64).map fun i => load8 frame (m + i) ^^^ load8 x i
  (ctx.count, store frame m block)

/-- The loop over at most `n` blocks; it stops at the first that is not whole. -/
def encrypt : ℕ → Ctx → Bytes → ℕ → Bytes
  | 0, _, frame, _ => frame
  | n + 1, ctx, frame, pkt_data =>
    if frame.length < pkt_data + 64 then frame
    else
      let (ctx, frame) := next ctx frame pkt_data
      encrypt n ctx frame (pkt_data + 64)

/-! ## The program -/

/-- The bits of the fragment field, as the host loads it, that a fragment has set. -/
def IP_FRAGMENTED : BitVec 16 := 65343

def ICMP_ECHO : Byte := 8

/-- The array map `chacha_egress`, with its one entry. -/
structure ChachaEgress where
  ifindex : BitVec 32

/-- A lookup in the array map. -/
def ChachaEgress.lookup (m : ChachaEgress) : ℕ → Option (BitVec 32)
  | 0 => some m.ifindex
  | _ => none

/-- `parse_transport`: there are the eight bytes of a UDP header. -/
def parseTransport (frame : Bytes) (off : ℕ) : Bool := off + 8 ≤ frame.length

/-- Where the bytes to be encrypted begin, behind the transport header at `nf_off`, or the action of
the exit. The payload of a ping request keeps the `struct timeval` at its front. -/
def payloadOff (frame : Bytes) (nf_off : ℕ) (ip_protocol : Byte) : Except TcAct ℕ :=
  if ip_protocol = IPPROTO_TCP then
    if !parseTransport frame nf_off then .error .shot else .ok (nf_off + 20)
  else if ip_protocol = IPPROTO_UDP then
    if !parseTransport frame nf_off then .error .shot else .ok (nf_off + 8)
  else if ip_protocol = IPPROTO_ICMP then
    if frame.length < nf_off + 8 then .error .shot
    else if load8 frame nf_off = ICMP_ECHO then
      if frame.length < nf_off + 8 + 16 then .error .shot else .ok (nf_off + 8 + 16)
    else .ok (nf_off + 8)
  else .error .ok

/-- The fields of `iph_tnl` in memory order. -/
def tunnelIph (payload_len : BitVec 16) (saddr daddr : BitVec 32) (check : BitVec 16) : Bytes :=
  [0x45, 0] ++ (le16 (htons (payload_len + 20)) ++ (le16 0 ++ (le16 0 ++ ([8, IPPROTO_IPIP] ++
    (le16 check ++ (le32 saddr ++ le32 daddr))))))

/-- The checksum of a header, from the sum of its ten words. -/
def headerChecksum (iph : Bytes) : BitVec 16 :=
  let csum := (List.range 10).foldl (fun csum i => csum + (load16 iph (2 * i)).setWidth 32) 0
  (~~~((csum &&& 0xFFFF) + (csum >>> 16))).setWidth 16

/-- The outer header: the checksum is that of the header with a zero in its place. -/
def outerIph (payload_len : BitVec 16) (saddr daddr : BitVec 32) : Bytes :=
  tunnelIph payload_len saddr daddr (headerChecksum (tunnelIph payload_len saddr daddr 0))

/-- What the function does with a frame; a redirected one goes out on an interface. -/
structure Out where
  ret : TcAct
  frame : Bytes
  ifindex : Option (BitVec 32) := none

/-- `parse_ip`. -/
def parseIp (k : Kernel) (chacha_egress : ChachaEgress) (frame : Bytes) (nf_off : ℕ) : Out :=
  if frame.length < nf_off + 20 then { ret := .shot, frame }
  else if load8 frame nf_off &&& 0xF ≠ 5 then { ret := .shot, frame }
  else
    let payload_len := htons (load16 frame (nf_off + 2))
    let ip_protocol := load8 frame (nf_off + 9)
    if load16 frame (nf_off + 6) &&& IP_FRAGMENTED ≠ 0 then { ret := .shot, frame }
    else match payloadOff frame (nf_off + 20) ip_protocol with
    | .error ret => { ret, frame }
    | .ok nf_off =>
      -- Extend the packet for the encapsulation.
      match bpfSkbAdjustRoom k frame 20 with
      | none => { ret := .shot, frame }
      | some frame =>
        if frame.length < nf_off + 20 then { ret := .shot, frame }
        else if frame.length < 14 + 20 + 20 then { ret := .shot, frame }
        else
          let saddr := load32 frame (14 + 20 + 12)
          let daddr := load32 frame (14 + 20 + 16)
          let frame := store frame 14 (outerIph payload_len saddr daddr)
          let zeros := List.replicate 32 0
          let frame := encrypt 24 (init zeros zeros CHACHA_ROUNDS) frame (nf_off + 20)
          match chacha_egress.lookup 0 with
          | none => { ret := .shot, frame }
          | some tx_port => { ret := .redirect, frame, ifindex := some tx_port }

/-- `cha`. -/
def cha (k : Kernel) (chacha_egress : ChachaEgress) (frame : Bytes) : Out :=
  if frame.length < 14 then { ret := .ok, frame }
  else if load16 frame 12 = htons ETH_P_IP then parseIp k chacha_egress frame 14
  else { ret := .ok, frame }

/-! ## What it emits -/

theorem tunnelIph_length (payload_len : BitVec 16) (saddr daddr : BitVec 32) (check : BitVec 16) :
    (tunnelIph payload_len saddr daddr check).length = 20 := rfl

theorem outerIph_length (payload_len : BitVec 16) (saddr daddr : BitVec 32) :
    (outerIph payload_len saddr daddr).length = 20 := tunnelIph_length _ _ _ _

theorem tunnelIph_proto (payload_len : BitVec 16) (saddr daddr : BitVec 32) (check : BitVec 16) :
    load8 (tunnelIph payload_len saddr daddr check) 9 = IPPROTO_IPIP := rfl

/-- The encryption keeps the length of the frame, and everything before the payload. -/
theorem encrypt_spec (n : ℕ) (ctx : Ctx) (frame : Bytes) (off : ℕ) :
    (encrypt n ctx frame off).length = frame.length ∧
      (encrypt n ctx frame off).take off = frame.take off := by
  induction n generalizing ctx frame off with
  | zero => exact ⟨rfl, rfl⟩
  | succ n ih =>
    rw [encrypt]
    split_ifs with hend
    · exact ⟨rfl, rfl⟩
    · obtain ⟨hlen, htake⟩ := ih (next ctx frame off).1 (next ctx frame off).2 (off + 64)
      have hblock : (next ctx frame off).2.length = frame.length := by
        refine store_length ?_
        rw [List.length_map, List.length_range]
        omega
      have hpre : (next ctx frame off).2.take off = frame.take off :=
        take_store (le_refl off) (by omega)
      -- What is kept before the next block is kept before this one.
      have hshort := congrArg (List.take off) htake
      rw [List.take_take, List.take_take, Nat.min_eq_left (by omega)] at hshort
      exact ⟨hlen.trans hblock, hshort.trans hpre⟩

/-- The packets that the function lets through to the encapsulation have a complete transport
header, and their payload begins at least 28 bytes behind the start of the IPv4 header. -/
theorem payloadOff_ok {frame : Bytes} {nf_off off : ℕ} {proto : Byte}
    (h : payloadOff frame nf_off proto = .ok off) :
    nf_off + 8 ≤ off ∧ nf_off + 8 ≤ frame.length ∧
      (proto = IPPROTO_TCP ∧ off = nf_off + 20 ∨ proto = IPPROTO_UDP ∨ proto = IPPROTO_ICMP) := by
  have hparse (hp : ¬ (!parseTransport frame nf_off) = true) : nf_off + 8 ≤ frame.length := by
    simpa [parseTransport] using hp
  unfold payloadOff at h
  split_ifs at h with h1 h2 h3 h4 h5 h6 h7 h8
  · obtain rfl := Except.ok.inj h
    exact ⟨by omega, hparse h2, Or.inl ⟨h1, rfl⟩⟩
  · obtain rfl := Except.ok.inj h
    exact ⟨le_refl _, hparse h4, Or.inr (Or.inl h3)⟩
  · obtain rfl := Except.ok.inj h
    exact ⟨by omega, by omega, Or.inr (Or.inr h5)⟩
  · obtain rfl := Except.ok.inj h
    exact ⟨le_refl _, by omega, Or.inr (Or.inr h5)⟩

/-- The frame with 20 bytes behind its Ethernet header. -/
def withOuter (outer frame : Bytes) : Bytes := frame.take 14 ++ (outer ++ frame.drop 14)

theorem withOuter_length {outer frame : Bytes} (hlen : outer.length = 20) (hl : 14 ≤ frame.length) :
    (withOuter outer frame).length = frame.length + 20 := by
  rw [withOuter, List.length_append, List.length_append, List.length_take, hlen, List.length_drop]
  omega

/-- The outer header takes the place of the room. -/
theorem store_withOuter {outer zeros frame : Bytes} (hlen : outer.length = 20)
    (hzeros : zeros.length = 20) (hl : 14 ≤ frame.length) :
    store (withOuter zeros frame) 14 outer = withOuter outer frame := by
  have htake : (frame.take 14).length = 14 := by
    rw [List.length_take]
    omega
  exact store_mid htake (hzeros.trans hlen.symm)

theorem take_withOuter (outer : Bytes) {frame : Bytes} (hl : 14 ≤ frame.length) :
    (withOuter outer frame).take 14 = frame.take 14 :=
  List.take_left' (by rw [List.length_take]; omega)

theorem drop_withOuter (outer : Bytes) {frame : Bytes} (hl : 14 ≤ frame.length) :
    (withOuter outer frame).drop 14 = outer ++ frame.drop 14 :=
  List.drop_left' (by rw [List.length_take]; omega)

/-- Behind the outer header stands the packet. -/
theorem drop34_withOuter {outer frame : Bytes} (hlen : outer.length = 20) (hl : 14 ≤ frame.length) :
    (withOuter outer frame).drop 34 = frame.drop 14 := by
  have hpre : (frame.take 14 ++ outer).length = 34 := by
    rw [List.length_append, List.length_take, hlen]
    omega
  rw [withOuter, ← List.append_assoc]
  exact List.drop_left' hpre

/-- A load from the packet behind the outer header. -/
theorem load32_withOuter {outer frame : Bytes} (hlen : outer.length = 20) (hl : 14 ≤ frame.length)
    (i : ℕ) : load32 (withOuter outer frame) (34 + i) = load32 frame (14 + i) := by
  rw [← load32_drop, drop34_withOuter hlen hl, load32_drop]

/-- The state of the cipher before the first block. -/
def chaCtx : Ctx := init (List.replicate 32 0) (List.replicate 32 0) CHACHA_ROUNDS

/-- Where the encryption begins in a received frame. -/
def encryptedFrom (frame : Bytes) : ℕ :=
  if load8 frame 23 = IPPROTO_TCP then 54
  else if load8 frame 23 = IPPROTO_ICMP ∧ load8 frame 34 = ICMP_ECHO then 58
  else 42

theorem payloadOff_eq {frame : Bytes} {off : ℕ}
    (h : payloadOff frame 34 (load8 frame 23) = .ok off) : off = encryptedFrom frame := by
  unfold payloadOff at h
  unfold encryptedFrom
  split_ifs at h with h1 h2 h3 h4 h5 h6 h7 h8
  all_goals
    obtain rfl := Except.ok.inj h
  · rw [if_pos h1]
  · have hicmp : load8 frame 23 ≠ IPPROTO_ICMP := by rw [h3]; decide
    rw [if_neg h1, if_neg (fun hand => hicmp hand.1)]
  · rw [if_neg h1, if_pos ⟨h5, h7⟩]
  · rw [if_neg h1, if_neg (fun hand => h7 hand.2)]

/-- A frame that the function encapsulates and redirects, and what becomes of it. -/
structure Redirected (k : Kernel) (eg : ChachaEgress) (frame : Bytes) : Prop where
  ethertype : load16 frame 12 = htons ETH_P_IP
  transport : 42 ≤ frame.length
  proto : load8 frame 23 = IPPROTO_TCP ∨ load8 frame 23 = IPPROTO_UDP ∨
    load8 frame 23 = IPPROTO_ICMP
  payload : encryptedFrom frame ≤ frame.length
  out : (cha k eg frame).frame = encrypt 24 chaCtx
    (withOuter (outerIph (htons (load16 frame 16)) (load32 frame 26) (load32 frame 30)) frame)
    (encryptedFrom frame + 20)

theorem redirected {k : Kernel} {eg : ChachaEgress} {frame : Bytes}
    (h : (cha k eg frame).ret = .redirect) : Redirected k eg frame := by
  have hout : (cha k eg frame).frame = (cha k eg frame).frame := rfl
  unfold cha at h
  conv_rhs at hout => unfold cha
  split_ifs at h hout with hl hip
  unfold parseIp at h
  conv_rhs at hout => unfold parseIp
  split_ifs at h hout with hhead hihl hfrag
  cases hoff : payloadOff frame (14 + 20) (load8 frame (14 + 9)) with
  | error ret =>
    simp only [hoff] at h
    -- The exits of the transport headers do not redirect.
    unfold payloadOff at hoff
    split_ifs at hoff
    all_goals
      obtain rfl := Except.error.inj hoff
      simp at h
  | ok off =>
  obtain ⟨-, hlen8, hproto⟩ := payloadOff_ok hoff
  obtain rfl := payloadOff_eq hoff
  simp only [hoff] at h hout
  by_cases hk : k.grantsRoom frame
  · have hadjust : bpfSkbAdjustRoom k frame 20 = some (withOuter (List.replicate 20 0) frame) := by
      rw [bpfSkbAdjustRoom, if_pos hk, withOuter]
    have hroom : (withOuter (List.replicate 20 0) frame).length = frame.length + 20 :=
      withOuter_length List.length_replicate (by omega)
    have hload (i : ℕ) : load32 (withOuter (List.replicate 20 0) frame) (34 + i) =
        load32 frame (14 + i) := load32_withOuter List.length_replicate (by omega) i
    simp only [hadjust] at h hout
    split_ifs at h hout with hpayload hiph
    rw [hload 12, hload 16, store_withOuter (outerIph_length _ _ _) List.length_replicate (by omega)]
      at hout
    exact
      { ethertype := hip
        transport := hlen8
        proto := hproto.imp_left And.left
        payload := by omega
        out := hout }
  · have hadjust : bpfSkbAdjustRoom k frame 20 = none := by
      rw [bpfSkbAdjustRoom, if_neg hk]
    simp [hadjust] at h

/-- The encryption begins behind 28 bytes of the packet, and behind 40 for TCP. -/
theorem encryptedFrom_ge (frame : Bytes) : 42 ≤ encryptedFrom frame := by
  unfold encryptedFrom
  split_ifs <;> omega

/-- A frame that is redirected: up to its payload, it is the received frame with an outer header of
IP-in-IP behind its Ethernet header. -/
theorem cha_redirect {k : Kernel} {eg : ChachaEgress} {frame : Bytes}
    (h : (cha k eg frame).ret = .redirect) :
    ∃ outer : Bytes, outer.length = 20 ∧ load8 outer 9 = IPPROTO_IPIP ∧
      (cha k eg frame).frame.length = frame.length + 20 ∧
      (cha k eg frame).frame.take 62 = (withOuter outer frame).take 62 ∧
      load16 frame 12 = htons ETH_P_IP ∧ 42 ≤ frame.length ∧
      (load8 frame 23 = IPPROTO_TCP ∧ 54 ≤ frame.length ∨ load8 frame 23 = IPPROTO_UDP ∨
        load8 frame 23 = IPPROTO_ICMP) := by
  have hr := redirected h
  have hl := hr.transport
  set outer := outerIph (htons (load16 frame 16)) (load32 frame 26) (load32 frame 30) with houter
  have hlen : outer.length = 20 := outerIph_length _ _ _
  obtain ⟨helen, hetake⟩ := encrypt_spec 24 chaCtx (withOuter outer frame) (encryptedFrom frame + 20)
  -- The payload begins behind the 62 bytes of the headers.
  have hshort := congrArg (List.take 62) hetake
  have hfrom := encryptedFrom_ge frame
  rw [List.take_take, List.take_take, Nat.min_eq_left (by omega), ← hr.out] at hshort
  refine ⟨outer, hlen, tunnelIph_proto _ _ _ _, ?_, hshort, hr.ethertype, hl, ?_⟩
  · rw [hr.out, helen, withOuter_length hlen (by omega)]
  · refine hr.proto.imp_left fun hp => ⟨hp, ?_⟩
    have hpayload := hr.payload
    rwa [encryptedFrom, if_pos hp] at hpayload

/-! ## The flow of what it emits -/

/-- `get_tuple` reads the length of a packet and its first 40 bytes. -/
theorem getTuple_congr {p q : Bytes} (hlen : p.length = q.length) (h : p.take 40 = q.take 40) :
    getTuple p = getTuple q := by
  have h8 (i : ℕ) (hi : i < 40) : load8 p i = load8 q i := by
    have hp : load8 (p.take 40) i = load8 p i := by simp [load8, hi]
    have hq : load8 (q.take 40) i = load8 q i := by simp [load8, hi]
    rw [← hp, h, hq]
  have h16 (i : ℕ) (hi : i + 2 ≤ 40) : load16 p i = load16 q i := by
    rw [load16, load16, h8 i (by omega), h8 (i + 1) (by omega)]
  have h32 (i : ℕ) (hi : i + 4 ≤ 40) : load32 p i = load32 q i := by
    rw [load32, load32, h8 i (by omega), h8 (i + 1) (by omega), h8 (i + 2) (by omega),
      h8 (i + 3) (by omega)]
  unfold getTuple
  dsimp only
  rw [hlen, h8 9 (by omega), h16 20 (by omega), h16 22 (by omega)]
  by_cases hip : load8 q 9 = IPPROTO_IPIP
  · rw [if_pos hip, h32 (20 + 12) (by omega), h32 (20 + 16) (by omega), h8 (20 + 9) (by omega)]
  · rw [if_neg hip, h32 (0 + 12) (by omega), h32 (0 + 16) (by omega), h8 (0 + 9) (by omega)]

/-- The 5-tuple that `get_tuple` reads with the ports at an offset. -/
def tupleAt (q : Bytes) (ports : ℕ) : Ip5tuple :=
  if load8 q 9 = IPPROTO_ICMP then ⟨load32 q 12, load32 q 16, 0, 0, load8 q 9⟩
  else ⟨load32 q 12, load32 q 16, load16 q ports, load16 q (ports + 2), load8 q 9⟩

/-- The transport protocols, each with a complete header. -/
def Transport (q : Bytes) : Prop :=
  28 ≤ q.length ∧ (load8 q 9 = IPPROTO_TCP ∧ 40 ≤ q.length ∨ load8 q 9 = IPPROTO_UDP ∨
    load8 q 9 = IPPROTO_ICMP)

theorem tupleAt_eq (q : Bytes) (ports : ℕ) : tupleAt q ports =
    { ip_src := load32 q 12
      ip_dst := load32 q 16
      sport := if load8 q 9 = IPPROTO_ICMP then 0 else load16 q ports
      dport := if load8 q 9 = IPPROTO_ICMP then 0 else load16 q (ports + 2)
      proto := load8 q 9 } := by
  unfold tupleAt
  split_ifs <;> rfl

/-- Without an outer header the ports are those behind the IPv4 header. -/
theorem getTuple_transport {q : Bytes} (h : Transport q) : getTuple q = some (tupleAt q 20) := by
  obtain ⟨hlen, hproto⟩ := h
  have hipip : load8 q 9 ≠ IPPROTO_IPIP := by
    rcases hproto with ⟨hp, -⟩ | hp | hp <;> rw [hp] <;> decide
  have hfound := @getTuple_eq q 0 (if_neg hipip) (by omega) (by
    rw [Nat.zero_add]
    exact hproto.imp_right (Or.imp_left fun hp => ⟨hp, hlen⟩))
  rw [hfound, tupleAt_eq]

/-- Behind an outer header the ports are read from the front of the inner IPv4 header. -/
theorem getTuple_ipip {outer q : Bytes} (hlen : outer.length = 20)
    (hipip : load8 outer 9 = IPPROTO_IPIP) (h : Transport q) :
    getTuple (outer ++ q) = some (tupleAt q 0) := by
  obtain ⟨hl, hproto⟩ := h
  have h9 : load8 (outer ++ q) 9 = IPPROTO_IPIP := by rw [load8_append_left (by omega), hipip]
  have htail : (outer ++ q).drop 20 = q := List.drop_left' hlen
  have h8 (i : ℕ) : load8 (outer ++ q) (20 + i) = load8 q i := by rw [← load8_drop, htail]
  have h16 (i : ℕ) : load16 (outer ++ q) (20 + i) = load16 q i := by rw [← load16_drop, htail]
  have h32 (i : ℕ) : load32 (outer ++ q) (20 + i) = load32 q i := by rw [← load32_drop, htail]
  have hl' : (outer ++ q).length = 20 + q.length := by rw [List.length_append, hlen]
  have hfound := @getTuple_eq (outer ++ q) 20 (if_pos h9) (by omega) (by
    rw [h8, hl']
    exact hproto.imp (And.imp_right fun _ => by omega) (Or.imp_left fun hp => ⟨hp, by omega⟩))
  rw [hfound, tupleAt_eq, h8, h32, h32, h16 0, h16 2]

/-- A frame keeps its flow through the function: `get_tuple` finds a 5-tuple in what comes in, and
the same one in what goes out. -/
def KeepsFlow (k : Kernel) (eg : ChachaEgress) (frame : Bytes) : Prop :=
  ∃ t, getTuple (frame.drop 14) = some t ∧ getTuple ((cha k eg frame).frame.drop 14) = some t

/-- The 5-tuples of a redirected frame, before and after. -/
theorem getTuple_redirect {k : Kernel} {eg : ChachaEgress} {frame : Bytes}
    (h : (cha k eg frame).ret = .redirect) :
    getTuple (frame.drop 14) = some (tupleAt (frame.drop 14) 20) ∧
      getTuple ((cha k eg frame).frame.drop 14) = some (tupleAt (frame.drop 14) 0) := by
  obtain ⟨outer, hlen, hipip, hout, htake, -, hl, hproto⟩ := cha_redirect h
  have h9 : load8 (frame.drop 14) 9 = load8 frame 23 := load8_drop frame 14 9
  have htrans : Transport (frame.drop 14) := by
    rw [Transport, h9, List.length_drop]
    refine ⟨by omega, hproto.imp_left fun ⟨hp, hl'⟩ => ⟨hp, by omega⟩⟩
  -- What `get_tuple` reads is before the payload.
  have hsame : ((cha k eg frame).frame.drop 14).take 40 = (outer ++ frame.drop 14).take 40 := by
    have hcut := congrArg (List.drop 14) htake
    rw [List.drop_take, List.drop_take, drop_withOuter outer (by omega)] at hcut
    have h40 := congrArg (List.take 40) hcut
    rwa [List.take_take, List.take_take] at h40
  have hsamelen : ((cha k eg frame).frame.drop 14).length = (outer ++ frame.drop 14).length := by
    rw [List.length_drop, hout, List.length_append, hlen, List.length_drop]
    omega
  refine ⟨getTuple_transport htrans, ?_⟩
  rw [getTuple_congr hsamelen hsame, getTuple_ipip hlen hipip htrans]

/-- A redirected frame is an IPv4 frame as well. -/
theorem ethertype_redirect {k : Kernel} {eg : ChachaEgress} {frame : Bytes}
    (h : (cha k eg frame).ret = .redirect) :
    34 ≤ (cha k eg frame).frame.length ∧ load16 (cha k eg frame).frame 12 = htons ETH_P_IP := by
  obtain ⟨outer, -, -, hout, htake, hip, hl, -⟩ := cha_redirect h
  -- The Ethernet header is that of the received frame.
  have h14 : (cha k eg frame).frame.take 14 = frame.take 14 := by
    have hcut := congrArg (List.take 14) htake
    have hmin : min 14 62 = 14 := rfl
    rwa [List.take_take, List.take_take, hmin, take_withOuter outer (by omega)] at hcut
  have hload (i : ℕ) (hi : i < 14) : load8 (cha k eg frame).frame i = load8 frame i := by
    calc load8 (cha k eg frame).frame i = load8 ((cha k eg frame).frame.take 14) i := by
          simp [load8, hi]
      _ = load8 (frame.take 14) i := by rw [h14]
      _ = load8 frame i := by simp [load8, hi]
  refine ⟨by omega, ?_⟩
  rw [← hip, load16, load16, hload 12 (by omega), hload (12 + 1) (by omega)]

/-- A packet that the function encapsulates and redirects keeps its flow exactly when it is one of
ICMP, or its source and destination port happen to have the bytes of its version and type of service
and of its total length. If it keeps it, the egress stages find the NSH that is saved for the packet
that came in. -/
theorem chacha_keeps_flow_iff (k : Kernel) (eg : ChachaEgress) (frame : Bytes)
    (h : (cha k eg frame).ret = .redirect) :
    (KeepsFlow k eg frame ↔ load8 frame 23 = IPPROTO_ICMP ∨
      load16 frame 34 = load16 frame 14 ∧ load16 frame 36 = load16 frame 16) ∧
    (KeepsFlow k eg frame → ∀ (m : NodeMaps) key nsh, getTuple (frame.drop 14) = some key →
      m.nsh_data.lookup key = some nsh →
      egress k m (cha k eg frame).frame = egressSpec k m nsh (cha k eg frame).frame) := by
  obtain ⟨hin, hout⟩ := getTuple_redirect h
  constructor
  · have h9 : load8 (frame.drop 14) 9 = load8 frame 23 := load8_drop frame 14 9
    have h16 (i : ℕ) : load16 (frame.drop 14) i = load16 frame (14 + i) := load16_drop frame 14 i
    have hkeep : KeepsFlow k eg frame ↔
        tupleAt (frame.drop 14) 20 = tupleAt (frame.drop 14) 0 := by
      rw [KeepsFlow, hin, hout]
      simp only [Option.some.injEq, exists_eq_left']
      exact eq_comm
    -- The addresses and the protocol are copied to the outer header, the ports are not.
    rw [hkeep, tupleAt, tupleAt, h9]
    by_cases hicmp : load8 frame 23 = IPPROTO_ICMP
    · simp only [hicmp, if_true, true_or]
    · rw [if_neg hicmp, if_neg hicmp]
      simp only [Ip5tuple.mk.injEq, h16, hicmp, false_or, true_and, and_true]
  · rintro ⟨t, ht, ht'⟩ m key nsh hkey hsaved
    obtain rfl : t = key := Option.some.inj (ht.symm.trans hkey)
    obtain ⟨hl, hip⟩ := ethertype_redirect h
    exact egress_saved hl hip ht' hsaved

/-! ## Two packets -/

/-- A kernel that grants room in every frame. -/
def roomyKernel : Kernel := ⟨fun _ => true, fun _ => none⟩

/-- An ICMP echo reply from 10.0.0.1 to 10.0.0.2 without payload. -/
def echoReply : Bytes := pingFrame ++ [0, 0, 0, 0, 0, 0, 0, 0]

/-- An empty UDP packet from 10.0.0.1:1000 to 10.0.0.2:2000. -/
def udpFrame : Bytes :=
  [0x02, 0, 0, 0, 0, 2, 0x02, 0, 0, 0, 0, 1, 0x08, 0x00,
    0x45, 0, 0, 28, 0, 0, 0, 0, 64, 17, 0, 0, 10, 0, 0, 1, 10, 0, 0, 2,
    0x03, 0xE8, 0x07, 0xD0, 0, 8, 0, 0]

/-- A ping, as in the tests with real functions. -/
theorem chacha_keeps_flow_echo :
    (KeepsFlow roomyKernel ⟨3⟩ echoReply ↔ load8 echoReply 23 = IPPROTO_ICMP ∨
      load16 echoReply 34 = load16 echoReply 14 ∧ load16 echoReply 36 = load16 echoReply 16) ∧
    (KeepsFlow roomyKernel ⟨3⟩ echoReply → ∀ (m : NodeMaps) key nsh,
      getTuple (echoReply.drop 14) = some key → m.nsh_data.lookup key = some nsh →
      egress roomyKernel m (cha roomyKernel ⟨3⟩ echoReply).frame =
        egressSpec roomyKernel m nsh (cha roomyKernel ⟨3⟩ echoReply).frame) :=
  chacha_keeps_flow_iff roomyKernel ⟨3⟩ echoReply (by decide)

/-- A UDP packet is redirected, and gets the ports 0x4500 and 28. -/
theorem not_keepsFlow_udp :
    (cha roomyKernel ⟨3⟩ udpFrame).ret = .redirect ∧ ¬ KeepsFlow roomyKernel ⟨3⟩ udpFrame := by
  have hret : (cha roomyKernel ⟨3⟩ udpFrame).ret = .redirect := by decide
  refine ⟨hret, ?_⟩
  obtain ⟨hin, hout⟩ := getTuple_redirect hret
  rintro ⟨t, ht, ht'⟩
  have hsame := (hin.symm.trans ht).trans (hout.symm.trans ht').symm
  exact absurd hsame (by decide)

end Chacha

end ChainingBox
