import ChainingBox.Dataplane.FlowKey

/-!
# The load balancer

`l4lb_kern.c`, a service function on TC. It hashes the source address and the ports of a packet to one
of 512 keys, and redirects the packet to the port that the hash map `l4lb_egress` has for the key, or
else to the one that it has for key 0.

A flow keeps its port if the hash gets nothing of a packet but its flow. It does for plain packets, and
for ICMP. For TCP and UDP in IP-in-IP `get_tuple` takes the ports from the first four bytes of the
inner IPv4 header, so the type of service and the total length choose the port.
`same_port_of_sameInnerStart` says that two packets of one flow go to the same port if nothing else
of them differs there. If something does, they go to the same port only where their hashes lead to
one entry (`port_eq_iff`).
-/

namespace ChainingBox

open Lib

namespace LoadBalancer

/-! ## The hash -/

def JHASH_INITVAL : BitVec 32 := 0xDEADBEEF

/-- `__jhash_final`, with its result in the third word. -/
def jhashFinal (a b c : BitVec 32) : BitVec 32 :=
  let c := (c ^^^ b) - b.rotateLeft 14
  let a := (a ^^^ c) - c.rotateLeft 11
  let b := (b ^^^ a) - a.rotateLeft 25
  let c := (c ^^^ b) - b.rotateLeft 16
  let a := (a ^^^ c) - c.rotateLeft 4
  let b := (b ^^^ a) - a.rotateLeft 14
  (c ^^^ b) - b.rotateLeft 24

/-- `__jhash_nwords`. -/
def jhashNwords (a b c initval : BitVec 32) : BitVec 32 :=
  jhashFinal (a + initval) (b + initval) (c + initval)

/-- `jhash_2words`. -/
def jhash2words (a b initval : BitVec 32) : BitVec 32 :=
  jhashNwords a b 0 (initval + JHASH_INITVAL + (2 <<< 2))

/-! ## The program -/

def MAX_SERVERS : BitVec 32 := 512

/-- The bits of the fragment field, as the host loads it, that a fragment has set. -/
def IP_FRAGMENTED : BitVec 16 := 65343

/-- The hash map `l4lb_egress`. -/
abbrev L4lbEgress := BoundedMap (BitVec 32) (BitVec 32) 512

/-- The key that a source address and ports hash to. -/
def destKey (ip_src : BitVec 32) (sport dport : BitVec 16) : BitVec 32 :=
  let ports := (sport.setWidth 32 <<< 16) + dport.setWidth 32
  jhash2words ip_src ports MAX_SERVERS % MAX_SERVERS

/-- The entry of a key; without one, that of key 0. -/
def entryOf (m : L4lbEgress) (key : BitVec 32) : Option (BitVec 32) :=
  match m.lookup key with
  | some tnl => some tnl
  | none => m.lookup 0

/-- `hash_get_dest`. -/
def hashGetDest (m : L4lbEgress) (tuple : Ip5tuple) : Option (BitVec 32) :=
  entryOf m (destKey tuple.ip_src tuple.sport tuple.dport)

/-- What the program does with a frame; a redirected one goes out on a port. -/
structure Out where
  ret : TcAct
  port : Option (BitVec 32) := none

/-- `process_packet`. -/
def processPacket (m : L4lbEgress) (frame : Bytes) (off : ℕ) : Out :=
  if frame.length < off + 20 then { ret := .shot }
  else if load8 frame off &&& 0xF ≠ 5 then { ret := .shot }
  -- Do not support fragmented packets as L4 headers may be missing.
  else if load16 frame (off + 6) &&& IP_FRAGMENTED ≠ 0 then { ret := .shot }
  else match getTuple (frame.drop off) with
  | none => { ret := .shot }
  | some tuple =>
    match hashGetDest m tuple with
    | none => { ret := .shot }
    | some tx_port => { ret := .redirect, port := some tx_port }

/-- `loadbal`. -/
def loadbal (m : L4lbEgress) (frame : Bytes) : Out :=
  if frame.length < 14 then { ret := .shot }
  else if load16 frame 12 = htons ETH_P_IP then processPacket m frame 14
  else { ret := .ok }

/-! ## What reaches the hash -/

/-- A frame that passes the checks has a header of 20 bytes and a tuple, and its port depends on that
tuple alone. -/
theorem loadbal_redirect {m : L4lbEgress} {frame : Bytes} (h : (loadbal m frame).ret = .redirect) :
    ihlBytes (frame.drop 14) 0 = 20 ∧ ∃ tuple, getTuple (frame.drop 14) = some tuple ∧
      ∀ m', (loadbal m' frame).port = hashGetDest m' tuple ∧
        ((loadbal m' frame).ret = .redirect ↔ (hashGetDest m' tuple).isSome) := by
  unfold loadbal at h
  split_ifs at h with hl hip
  unfold processPacket at h
  split_ifs at h with hhead hihl hfrag
  cases htuple : getTuple (frame.drop 14) with
  | none =>
    rw [htuple] at h
    exact absurd h (by simp)
  | some tuple =>
    have hbyte : load8 (frame.drop 14) 0 = load8 frame 14 := load8_drop frame 14 0
    refine ⟨?_, tuple, rfl, fun m' => ?_⟩
    · rw [ihlBytes, hbyte, not_not.1 hihl]
      rfl
    · unfold loadbal processPacket
      rw [if_neg hl, if_pos hip, if_neg hhead, if_neg hihl, if_neg hfrag, htuple]
      dsimp only
      cases hashGetDest m' tuple with
      | none => exact ⟨rfl, by simp⟩
      | some tx_port => exact ⟨rfl, by simp⟩

/-- Two frames belong to the same flow: the innermost packets have one flow, and both are plain or
both come from one sender in IP-in-IP. -/
structure SameFlow (f g : Bytes) : Prop where
  flow : ∃ t, InnermostFlow (f.drop 14) t ∧ InnermostFlow (g.drop 14) t
  encap : load8 f 23 = IPPROTO_IPIP ↔ load8 g 23 = IPPROTO_IPIP
  sender : load8 f 23 = IPPROTO_IPIP → load32 f 26 = load32 g 26

/-- A frame whose ports are those that `get_tuple` reads: a plain one, or one of ICMP. -/
def PortsRead (frame : Bytes) : Prop :=
  load8 frame 23 ≠ IPPROTO_IPIP ∨ load8 frame 43 = IPPROTO_ICMP

instance (frame : Bytes) : Decidable (PortsRead frame) := inferInstanceAs (Decidable (_ ∨ _))

/-- The inner headers begin with the same version, header length and type of service, and with the
same total length. -/
def SameInnerStart (f g : Bytes) : Prop :=
  load16 f 34 = load16 g 34 ∧ load16 f 36 = load16 g 36

instance (f g : Bytes) : Decidable (SameInnerStart f g) := inferInstanceAs (Decidable (_ ∧ _))

/-- The key of a frame in IP-in-IP: the first four bytes of the inner header are in the place of the
ports. -/
def innerKey (frame : Bytes) : BitVec 32 :=
  destKey (load32 frame 46) (load16 frame 34) (load16 frame 36)

variable {frame : Bytes}

/-- With a header of 20 bytes `get_tuple` skips to the innermost one. -/
theorem skipped_eq_innermost {p : Bytes} (hihl : ihlBytes p 0 = 20) : skipped p = innermost p := by
  unfold skipped innermost
  rw [hihl]

/-- If the ports are those of the flow, the tuple is the flow. -/
theorem tuple_of_portsRead {t tuple : Ip5tuple} (hihl : ihlBytes (frame.drop 14) 0 = 20)
    (htuple : getTuple (frame.drop 14) = some tuple) (hflow : InnermostFlow (frame.drop 14) t)
    (hread : PortsRead frame) : tuple = t := by
  have hpass := passesChecks_of_getTuple htuple
  have hskip := skipped_eq_innermost hihl
  have h9 : load8 (frame.drop 14) 9 = load8 frame 23 := load8_drop frame 14 9
  have h29 : load8 (frame.drop 14) 29 = load8 frame 43 := load8_drop frame 14 29
  have hproto := hpass.2
  have hsame : SameFields (frame.drop 14) := by
    by_cases hicmp : load8 (frame.drop 14) (innermost (frame.drop 14) + 9) = IPPROTO_ICMP
    · exact sameFields_icmp (fun _ => hihl) hicmp hflow.header
    · rw [← hskip] at hicmp
      -- A packet of IP-in-IP whose ports are read is one of ICMP.
      have hipip : load8 (frame.drop 14) 9 ≠ IPPROTO_IPIP := by
        intro hipip
        have h20 : skipped (frame.drop 14) = 20 := if_pos hipip
        rcases hread with hplain | hinner
        · exact hplain (h9.symm.trans hipip)
        · rw [h20, h29] at hicmp
          exact hicmp hinner
      refine sameFields_single hihl hipip ?_
      rcases hproto with ⟨-, hl⟩ | ⟨-, hl⟩ | hp
      · omega
      · omega
      · exact absurd hp hicmp
  have hfound := (innermostFlow_skippedTuple hpass).2 hsame
  rw [eq_skippedTuple htuple]
  refine hfound.unique hflow ?_
  rcases hproto with ⟨hp, -⟩ | ⟨hp, -⟩ | hp
  · exact Or.inl hp
  · exact Or.inr (Or.inl hp)
  · exact Or.inr (Or.inr hp)

/-- Otherwise the tuple has the key of the inner header. -/
theorem destKey_of_not_portsRead {tuple : Ip5tuple}
    (htuple : getTuple (frame.drop 14) = some tuple) (hread : ¬ PortsRead frame) :
    destKey tuple.ip_src tuple.sport tuple.dport = innerKey frame := by
  obtain ⟨hipip, hicmp⟩ := not_or.1 hread
  have h9 : load8 (frame.drop 14) 9 = load8 frame 23 := load8_drop frame 14 9
  have h20 : skipped (frame.drop 14) = 20 := if_pos (h9.trans (not_not.1 hipip))
  have h29 : load8 (frame.drop 14) 29 ≠ IPPROTO_ICMP := by
    rw [load8_drop]
    exact hicmp
  rw [eq_skippedTuple htuple]
  simp only [skippedTuple, h20, h29, if_false, load32_drop, load16_drop]
  rfl

/-! ## Two packets of one flow -/

/-- In IP-in-IP, the innermost header is the one behind the outer header of 20 bytes. -/
theorem innermost_of_ipip (hihl : ihlBytes (frame.drop 14) 0 = 20)
    (hipip : load8 frame 23 = IPPROTO_IPIP) : innermost (frame.drop 14) = 20 :=
  (if_pos ((load8_drop frame 14 9).trans hipip)).trans hihl

/-- The ports are read in both frames of a flow, or in neither. -/
theorem SameFlow.portsRead_iff {f g : Bytes} (h : SameFlow f g)
    (hf : ihlBytes (f.drop 14) 0 = 20) (hg : ihlBytes (g.drop 14) 0 = 20) :
    PortsRead f ↔ PortsRead g := by
  obtain ⟨t, htf, htg⟩ := h.flow
  have hinner {b : Bytes} (hb : ihlBytes (b.drop 14) 0 = 20) (hipip : load8 b 23 = IPPROTO_IPIP)
      (ht : InnermostFlow (b.drop 14) t) : t.proto = load8 b 43 := by
    have hproto := ht.proto
    rw [innermost_of_ipip hb hipip, load8_drop] at hproto
    exact hproto
  unfold PortsRead
  by_cases hipip : load8 f 23 = IPPROTO_IPIP
  · have hipip' := h.encap.1 hipip
    have hproto := (hinner hf hipip htf).symm.trans (hinner hg hipip' htg)
    simp only [hipip, hipip', hproto]
  · have hipip' := (not_congr h.encap).1 hipip
    exact iff_of_true (Or.inl hipip) (Or.inl hipip')

theorem entryOf_of_lookup {m : L4lbEgress} {key tnl : BitVec 32} (h : m.lookup key = some tnl) :
    entryOf m key = some tnl := by
  unfold entryOf
  rw [h]

/-- There is a table with different ports for different keys. -/
theorem exists_table {key key' : BitVec 32} (h : key ≠ key') :
    ∃ m : L4lbEgress, entryOf m key = some 1 ∧ entryOf m key' = some 2 := by
  have hroom : (BoundedMap.empty : L4lbEgress).Room key := by
    refine Or.inr ?_
    rw [BoundedMap.size_empty]
    omega
  have hroom' : ((BoundedMap.empty : L4lbEgress).put key 1).Room key' := by
    refine Or.inr ?_
    rw [BoundedMap.size_put, if_neg (BoundedMap.not_mem_empty _), BoundedMap.size_empty]
    omega
  refine ⟨((BoundedMap.empty : L4lbEgress).put key 1).put key' 2, ?_, ?_⟩
  · refine entryOf_of_lookup ?_
    rw [BoundedMap.lookup_put_ne _ h, BoundedMap.lookup_put_self _ hroom]
  · exact entryOf_of_lookup (BoundedMap.lookup_put_self _ hroom')

/-- Two redirected frames of one flow have the same port exactly if the ports are read, or if the
first four bytes of their inner headers hash to keys with the same entry; and they have the same port
for all contents of the table exactly if they hash to the same key. -/
theorem port_eq_iff (m : L4lbEgress) (f g : Bytes) (hf : (loadbal m f).ret = .redirect)
    (hg : (loadbal m g).ret = .redirect) (hflow : SameFlow f g) :
    ((loadbal m f).port = (loadbal m g).port ↔
      PortsRead f ∨ entryOf m (innerKey f) = entryOf m (innerKey g)) ∧
    ((∀ m', (loadbal m' f).ret = .redirect → (loadbal m' g).ret = .redirect →
        (loadbal m' f).port = (loadbal m' g).port) ↔
      PortsRead f ∨ innerKey f = innerKey g) := by
  obtain ⟨hihlf, tf, htf, hportf⟩ := loadbal_redirect hf
  obtain ⟨hihlg, tg, htg, hportg⟩ := loadbal_redirect hg
  obtain ⟨t, hinf, hing⟩ := hflow.flow
  have hiff := hflow.portsRead_iff hihlf hihlg
  by_cases hread : PortsRead f
  · -- Both tuples are the flow.
    have hsame : tf = tg := (tuple_of_portsRead hihlf htf hinf hread).trans
      (tuple_of_portsRead hihlg htg hing (hiff.1 hread)).symm
    have hport (m' : L4lbEgress) : (loadbal m' f).port = (loadbal m' g).port := by
      rw [(hportf m').1, (hportg m').1, hsame]
    exact ⟨iff_of_true (hport m) (Or.inl hread), iff_of_true (fun m' _ _ => hport m') (Or.inl hread)⟩
  · have hkeyf := destKey_of_not_portsRead htf hread
    have hkeyg := destKey_of_not_portsRead htg ((not_congr hiff).1 hread)
    have hentryf (m' : L4lbEgress) : hashGetDest m' tf = entryOf m' (innerKey f) := by
      rw [hashGetDest, hkeyf]
    have hentryg (m' : L4lbEgress) : hashGetDest m' tg = entryOf m' (innerKey g) := by
      rw [hashGetDest, hkeyg]
    simp only [hportf, hportg, hentryf, hentryg, hread, false_or]
    refine ⟨trivial, fun hall => ?_, fun hkey m' _ _ => by rw [hkey]⟩
    -- A table with different ports for different keys tells them apart.
    by_contra hne
    obtain ⟨m', h1, h2⟩ := exists_table hne
    have hfound := hall m'
    rw [h1, h2] at hfound
    exact absurd (hfound rfl rfl) (by decide)

/-- Frames of one sender with the same first four bytes of their inner headers have the same key. -/
theorem SameFlow.innerKey_eq {f g : Bytes} (h : SameFlow f g)
    (hf : ihlBytes (f.drop 14) 0 = 20) (hg : ihlBytes (g.drop 14) 0 = 20)
    (hread : ¬ PortsRead f) (hsame : SameInnerStart f g) : innerKey f = innerKey g := by
  obtain ⟨t, htf, htg⟩ := h.flow
  have hsrc {b : Bytes} (hb : ihlBytes (b.drop 14) 0 = 20) (hipip : load8 b 23 = IPPROTO_IPIP)
      (ht : InnermostFlow (b.drop 14) t) : t.ip_src = load32 b 46 := by
    have hsource := ht.ip_src
    rw [innermost_of_ipip hb hipip, load32_drop] at hsource
    exact hsource
  have hipip : load8 f 23 = IPPROTO_IPIP := not_not.1 (not_or.1 hread).1
  have hsource := (hsrc hf hipip htf).symm.trans (hsrc hg (h.encap.1 hipip) htg)
  rw [innerKey, innerKey, hsource, hsame.1, hsame.2]

/-- Two redirected frames of one flow have the same port if the ports are read, or if their inner
headers begin with the same four bytes. -/
theorem same_port_of_sameInnerStart (m : L4lbEgress) (f g : Bytes)
    (hf : (loadbal m f).ret = .redirect) (hg : (loadbal m g).ret = .redirect)
    (hflow : SameFlow f g) (hbytes : PortsRead f ∨ SameInnerStart f g) :
    (loadbal m f).port = (loadbal m g).port := by
  obtain ⟨hihlf, -⟩ := loadbal_redirect hf
  obtain ⟨hihlg, -⟩ := loadbal_redirect hg
  refine (port_eq_iff m f g hf hg hflow).1.2 ?_
  by_cases hread : PortsRead f
  · exact Or.inl hread
  · right
    rw [hflow.innerKey_eq hihlf hihlg hread (hbytes.resolve_left hread)]

/-! ## Two encapsulated packets -/

/-- UDP packets of 10.0.0.1:1000 to 10.0.0.2:2000 with an outer header of IP-in-IP. -/
def tunneled (payload : Bytes) : Bytes :=
  [0x02, 0, 0, 0, 0, 2, 0x02, 0, 0, 0, 0, 1, 0x08, 0x00,
    0x45, 0, 0, 48 + BitVec.ofNat 8 payload.length, 0, 0, 0, 0, 8, 4, 0, 0, 10, 0, 0, 1, 10, 0, 0, 2,
    0x45, 0, 0, 28 + BitVec.ofNat 8 payload.length, 0, 0, 0, 0, 64, 17, 0, 0, 10, 0, 0, 1, 10, 0, 0,
    2, 0x03, 0xE8, 0x07, 0xD0, 0, 8 + BitVec.ofNat 8 payload.length, 0, 0] ++ payload

theorem innermostFlow_tunneled {payload : Bytes}
    (h : payload = [] ∨ payload = [0x41] ∨ payload = [0x42]) :
    InnermostFlow ((tunneled payload).drop 14) ⟨0x0100000A, 0x0200000A, 0xE803, 0xD007, 17⟩ := by
  rcases h with rfl | rfl | rfl
  all_goals exact
    { header := by decide
      ip_src := rfl
      ip_dst := rfl
      proto := rfl
      ports := fun _ => by decide
      icmp := fun hp => absurd hp (by decide) }

theorem sameFlow_tunneled {payload payload' : Bytes}
    (h : payload = [] ∨ payload = [0x41] ∨ payload = [0x42])
    (h' : payload' = [] ∨ payload' = [0x41] ∨ payload' = [0x42]) :
    SameFlow (tunneled payload) (tunneled payload') where
  flow := ⟨_, innermostFlow_tunneled h, innermostFlow_tunneled h'⟩
  encap := iff_of_true rfl rfl
  sender := fun _ => rfl

/-- Ports for the keys of the two packets. -/
def twoPorts : L4lbEgress := ((BoundedMap.empty : L4lbEgress).put 130 1).put 167 2

theorem port_tunneled : (loadbal twoPorts (tunneled [])).ret = .redirect ∧
    (loadbal twoPorts (tunneled [0x41])).ret = .redirect ∧
    (loadbal twoPorts (tunneled [])).port = some 1 ∧
    (loadbal twoPorts (tunneled [0x41])).port = some 2 := by decide +kernel

/-- Two packets of one length go to one port, whatever their payload. -/
theorem same_port_of_sameInnerStart_tunneled :
    (loadbal twoPorts (tunneled [0x41])).port = (loadbal twoPorts (tunneled [0x42])).port :=
  same_port_of_sameInnerStart twoPorts (tunneled [0x41]) (tunneled [0x42]) port_tunneled.2.1
    (by decide +kernel) (sameFlow_tunneled (Or.inr (Or.inl rfl)) (Or.inr (Or.inr rfl)))
    (Or.inr (by decide))

/-- One byte of payload more, and the packet goes to another port. -/
theorem not_same_port_tunneled :
    (loadbal twoPorts (tunneled [])).ret = .redirect ∧
      (loadbal twoPorts (tunneled [0x41])).ret = .redirect ∧
      SameFlow (tunneled []) (tunneled [0x41]) ∧
      (loadbal twoPorts (tunneled [])).port ≠ (loadbal twoPorts (tunneled [0x41])).port := by
  obtain ⟨hf, hg, h1, h2⟩ := port_tunneled
  refine ⟨hf, hg, sameFlow_tunneled (Or.inl rfl) (Or.inr (Or.inl rfl)), ?_⟩
  rw [h1, h2]
  decide

end LoadBalancer

end ChainingBox
