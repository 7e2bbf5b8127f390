import ChainingBox.Dataplane.Crowd
import ChainingBox.Dataplane.Packet
import ChainingBox.Functions.OuterHeader

/-!
# The redirecting program on `tc`

`tc_bench01_redirect_kern.c` sends the frames of one interface out on another one, all of them or
those of one IPv4 source address. On the way it can exchange the IP addresses, exchange the MAC
addresses, and set the destination MAC address. An exchange of addresses keeps every sum over both of
them, so no checksum has to be updated (`ingressRedirect_plain`); but the flow is another one.
-/

namespace ChainingBox

open Lib

namespace TcRedirect

/-! ## The program -/

/-- `struct info`. -/
structure Info where
  srcip : BitVec 32
  dstmac : Mac
  ops : Byte

def ETH_P_ARP : BitVec 16 := 0x0806

def SET_DST_MAC : Byte := 0x1
def SWAP_IP : Byte := 0x2
def SWAP_MAC : Byte := 0x4

/-- A lookup in an array map with one entry. -/
def lookupArray {α : Type} (entry : α) : ℕ → Option α
  | 0 => some entry
  | _ + 1 => none

/-- Write a word. -/
def setWord (p : Bytes) (o : ℕ) (w : BitVec 16) : Bytes := store p o (le16 w)

/-- `swap_src_dst_mac`. -/
def swapSrcDstMac (p : Bytes) : Bytes :=
  let dst0 := load16 p 0
  let dst1 := load16 p 2
  let dst2 := load16 p 4
  let p := setWord p 0 (load16 p 6)
  let p := setWord p 2 (load16 p 8)
  let p := setWord p 4 (load16 p 10)
  let p := setWord p 6 dst0
  let p := setWord p 8 dst1
  setWord p 10 dst2

/-- `set_dst_mac`. -/
def setDstMac (dst p : Bytes) : Bytes :=
  setWord (setWord (setWord dst 0 (load16 p 0)) 2 (load16 p 2)) 4 (load16 p 4)

/-- `swap_src_dst_ip`, on the header behind the Ethernet header. -/
def swapSrcDstIp (frame : Bytes) : Bytes :=
  let aux := load32 frame (14 + 12)
  let frame := store frame (14 + 12) (le32 (load32 frame (14 + 16)))
  store frame (14 + 16) (le32 aux)

/-- What the program does with a frame; a redirected one goes out on an interface. -/
structure Out where
  ret : TcAct
  frame : Bytes
  ifindex : Option (BitVec 32) := none

/-- What it changes in a frame that it redirects. -/
def edit (info : Info) (frame : Bytes) : Bytes :=
  let frame := if info.ops &&& SWAP_IP ≠ 0 then swapSrcDstIp frame else frame
  let frame := if info.ops &&& SWAP_MAC ≠ 0 then swapSrcDstMac frame else frame
  if info.ops &&& SET_DST_MAC ≠ 0 then setDstMac frame info.dstmac.1 else frame

/-- `_ingress_redirect`. -/
def ingressRedirect (egress_ifindex : BitVec 32) (infomap : Info) (frame : Bytes) : Out :=
  if frame.length < 14 then { ret := .ok, frame }
  -- Keep ARP resolution working.
  else if load16 frame 12 = htons ETH_P_ARP then { ret := .ok, frame }
  else match lookupArray egress_ifindex 0 with
  | none => { ret := .ok, frame }
  | some ifindex =>
    if frame.length < 14 + 20 then { ret := .ok, frame }
    else match lookupArray infomap 0 with
    | none => { ret := .ok, frame }
    | some info =>
      if info.srcip ≠ 0 ∧ info.srcip ≠ load32 frame (14 + 12) then { ret := .ok, frame }
      else { ret := .redirect, frame := edit info frame, ifindex := some ifindex }

/-! ## The exchanges -/

theorem load8_setWord {p : Bytes} {o : ℕ} (h : o + 2 ≤ p.length) (w : BitVec 16) (i : ℕ) :
    load8 (setWord p o w) i =
      if i = o then byteOf w 0 else if i = o + 1 then byteOf w 1 else load8 p i := by
  rw [setWord, load8_store h]
  obtain rfl | hne := eq_or_ne i o
  · rw [if_pos rfl, if_pos ⟨le_rfl, by simp⟩, Nat.sub_self]
    rfl
  obtain rfl | hne' := eq_or_ne i (o + 1)
  · rw [if_neg hne, if_pos rfl, if_pos ⟨by omega, by simp⟩, Nat.add_sub_cancel_left]
    rfl
  · rw [if_neg hne, if_neg hne', if_neg]
    rw [le16_length]
    omega

theorem setWord_length {p : Bytes} {o : ℕ} (h : o + 2 ≤ p.length) (w : BitVec 16) :
    (setWord p o w).length = p.length := store_length h

theorem byteOf_load16 (p : Bytes) (o : ℕ) :
    byteOf (load16 p o) 0 = load8 p o ∧ byteOf (load16 p o) 1 = load8 p (o + 1) :=
  byteOf_append16 _ _

/-- Three words copied are six bytes copied. -/
theorem setWord_three {b c : Bytes} {o q : ℕ} (hb : o + 6 ≤ b.length) (hc : q + 6 ≤ c.length) :
    setWord (setWord (setWord b o (load16 c q)) (o + 2) (load16 c (q + 2))) (o + 4)
      (load16 c (q + 4)) = store b o ((c.drop q).take 6) := by
  have hfield : ((c.drop q).take 6).length = 6 := length_field hc
  have hone := @setWord_length b o (by omega) (load16 c q)
  have htwo := @setWord_length _ (o + 2) (by omega : o + 2 + 2 ≤ (setWord b o (load16 c q)).length)
    (load16 c (q + 2))
  rw [ext_load8_iff (by rw [setWord_length (by omega), htwo, hone, store_length (by omega)])]
  intro i _
  rw [load8_setWord (by omega), load8_setWord (by omega), load8_setWord (by omega),
    load8_store (by omega), hfield]
  simp only [byteOf_load16]
  by_cases hin : o ≤ i ∧ i < o + 6
  · obtain ⟨j, rfl⟩ := Nat.exists_eq_add_of_le hin.1
    have hj : j < 6 := by omega
    rw [if_pos hin, Nat.add_sub_cancel_left, load8_take_drop _ _ hj]
    interval_cases j <;> simp [Nat.add_assoc]
  · rw [if_neg hin]
    iterate 6 rw [if_neg (by omega)]

theorem load16_setWord_of_ne {p : Bytes} {o i : ℕ} (h : o + 2 ≤ p.length) (hi : o + 2 ≤ i)
    (w : BitVec 16) : load16 (setWord p o w) i = load16 p i := by
  unfold load16
  rw [load8_setWord h, load8_setWord h, if_neg (by omega), if_neg (by omega), if_neg (by omega),
    if_neg (by omega)]

/-- Word by word, the MAC addresses are exchanged. -/
theorem swapSrcDstMac_eq {p : Bytes} (h : 12 ≤ p.length) : swapSrcDstMac p = swapFields p 0 6 := by
  have hone := @setWord_length p 0 (by omega) (load16 p 6)
  have hfield : ((p.drop 6).take 6).length = 6 := length_field h
  have hsrc := @store_length p ((p.drop 6).take 6) 0 (by omega)
  have hread (w : BitVec 16) : load16 (setWord p 0 w) 8 = load16 p 8 :=
    load16_setWord_of_ne (by omega) (by omega) w
  have hread' (w v : BitVec 16) : load16 (setWord (setWord p 0 w) 2 v) 10 = load16 p 10 := by
    rw [load16_setWord_of_ne (by rw [setWord_length (by omega)]; omega) (by omega),
      load16_setWord_of_ne (by omega) (by omega)]
  have hfirst := @setWord_three p p 0 6 (by omega) (by omega)
  have hsecond := @setWord_three (store p 0 ((p.drop 6).take 6)) p 6 0 (by omega) (by omega)
  unfold swapSrcDstMac
  dsimp only
  rw [hread, hread']
  exact (congrArg (fun b => setWord (setWord (setWord b 6 (load16 p 0)) 8 (load16 p 2)) 10
    (load16 p 4)) hfirst).trans hsecond

/-- The destination MAC address is written. -/
theorem setDstMac_eq {p : Bytes} (h : 6 ≤ p.length) (mac : Mac) :
    setDstMac p mac.1 = store p 0 mac.1 := by
  have hmac := mac.2
  have hcopy := @setWord_three p mac.1 0 0 h (by omega)
  rw [List.drop_zero, List.take_of_length_le (by omega)] at hcopy
  exact hcopy

/-- The IP addresses are exchanged. -/
theorem swapSrcDstIp_eq {frame : Bytes} (h : 34 ≤ frame.length) :
    swapSrcDstIp frame = swapFields frame 26 4 := by
  unfold swapSrcDstIp swapFields
  dsimp only
  rw [le32_load32 (by omega), le32_load32 (by omega)]

/-! ## What the program changes in a frame -/

/-- The frame is the same from the EtherType on. -/
structure SameInside (p q : Bytes) : Prop where
  length : q.length = p.length
  drop : q.drop 12 = p.drop 12

theorem SameInside.refl (p : Bytes) : SameInside p p := ⟨rfl, rfl⟩

theorem SameInside.trans {p q r : Bytes} (h : SameInside p q) (h' : SameInside q r) :
    SameInside p r := ⟨h'.length.trans h.length, h'.drop.trans h.drop⟩

theorem sameInside_swapSrcDstMac {p : Bytes} (h : 12 ≤ p.length) :
    SameInside p (swapSrcDstMac p) := by
  have hfirst : ((p.drop 0).take 6).length = 6 := length_field (by omega)
  have hsecond : ((p.drop (0 + 6)).take 6).length = 6 := length_field h
  have hin := @store_length p ((p.drop (0 + 6)).take 6) 0 (by omega)
  rw [swapSrcDstMac_eq h]
  refine ⟨swapFields_length h, ?_⟩
  rw [swapFields, drop_store (by omega) (by omega), drop_store (by omega) (by omega)]

theorem sameInside_setDstMac {p : Bytes} (h : 12 ≤ p.length) (mac : Mac) :
    SameInside p (setDstMac p mac.1) := by
  have hmac := mac.2
  rw [setDstMac_eq (by omega)]
  exact ⟨store_length (by omega), drop_store (by omega) (by omega)⟩

/-- The frame with its IP addresses exchanged, if the program is to do that. -/
def Info.swapped (info : Info) (frame : Bytes) : Bytes :=
  if info.ops &&& SWAP_IP ≠ 0 then swapFields frame 26 4 else frame

variable {info : Info} {frame : Bytes}

theorem swapped_length (h : 34 ≤ frame.length) : (info.swapped frame).length = frame.length := by
  unfold Info.swapped
  split_ifs
  · exact swapFields_length h
  · rfl

/-- From the EtherType on, the program does not change more than that. -/
theorem sameInside_edit (h : 34 ≤ frame.length) :
    SameInside (info.swapped frame) (edit info frame) := by
  have hlen := @swapped_length info frame h
  have hip : (if info.ops &&& SWAP_IP ≠ 0 then swapSrcDstIp frame else frame) =
      info.swapped frame := by rw [Info.swapped, swapSrcDstIp_eq h]
  have hmac : SameInside (info.swapped frame) (if info.ops &&& SWAP_MAC ≠ 0 then
      swapSrcDstMac (info.swapped frame) else info.swapped frame) := by
    split_ifs
    · exact sameInside_swapSrcDstMac (by omega)
    · exact SameInside.refl _
  have hset {p : Bytes} (hp : 12 ≤ p.length) : SameInside p
      (if info.ops &&& SET_DST_MAC ≠ 0 then setDstMac p info.dstmac.1 else p) := by
    split_ifs
    · exact sameInside_setDstMac hp _
    · exact SameInside.refl _
  unfold edit
  rw [hip]
  exact hmac.trans (hset (by rw [hmac.length]; omega))

/-- A byte behind the MAC addresses. -/
theorem load8_edit (h : 34 ≤ frame.length) {i : ℕ} (hi : 12 ≤ i) :
    load8 (edit info frame) i = load8 (info.swapped frame) i := by
  obtain ⟨j, rfl⟩ := Nat.exists_eq_add_of_le hi
  rw [← load8_drop, (sameInside_edit h).drop, load8_drop]

theorem edit_length (h : 34 ≤ frame.length) : (edit info frame).length = frame.length :=
  (sameInside_edit h).length.trans (swapped_length h)

/-- A byte that is neither in a MAC nor in an IP address. -/
theorem load8_edit_of_ne (h : 34 ≤ frame.length) {i : ℕ} (hi : 12 ≤ i) (hip : i < 26 ∨ 34 ≤ i) :
    load8 (edit info frame) i = load8 frame i := by
  rw [load8_edit h hi, Info.swapped]
  split_ifs
  · rw [load8_swapFields h, swapPlace, if_neg (by omega), if_neg (by omega)]
  · rfl

/-- The packet is as plain as it was. -/
theorem plainPacket_edit (hplain : PlainPacket frame) : PlainPacket (edit info frame) := by
  have hlen := hplain.header
  have hbyte (i : ℕ) (hi : 12 ≤ i) (hip : i < 26) : load8 (edit info frame) i = load8 frame i :=
    load8_edit_of_ne hlen hi (Or.inl hip)
  refine ⟨?_, ?_, ?_, ?_, ?_⟩
  · rw [load16, hbyte 13 (by omega) (by omega), hbyte 12 (by omega) (by omega)]
    exact hplain.ethertype
  · rw [hbyte 14 (by omega) (by omega)]
    exact hplain.version
  · rw [hbyte 20 (by omega) (by omega), hbyte 21 (by omega) (by omega)]
    exact hplain.unfragmented
  · rw [hbyte 23 (by omega) (by omega)]
    exact hplain.proto
  · rw [hbyte 23 (by omega) (by omega), edit_length hlen]
    exact hplain.complete

/-- The flow with its addresses exchanged; the ports stay where they are. -/
def swapAddresses (f : Ip5tuple) : Ip5tuple := { f with ip_src := f.ip_dst, ip_dst := f.ip_src }

/-- The flow of the packet that goes out. -/
theorem flowOf_edit (h : 34 ≤ frame.length) : flowOf (edit info frame) =
    if info.ops &&& SWAP_IP ≠ 0 then swapAddresses (flowOf frame) else flowOf frame := by
  have hbyte (i : ℕ) (hi : 12 ≤ i) (hip : i < 26 ∨ 34 ≤ i) :
      load8 (edit info frame) i = load8 frame i := load8_edit_of_ne h hi hip
  have haddr (i : ℕ) (hi : 12 ≤ i) : load8 (edit info frame) i = load8 (info.swapped frame) i :=
    load8_edit h hi
  have hswap (i : ℕ) : load8 (swapFields frame 26 4) i = load8 frame (swapPlace 26 4 i) :=
    load8_swapFields h i
  unfold flowOf
  rw [hbyte 23 (by omega) (by omega), hbyte 34 (by omega) (by omega),
    hbyte 35 (by omega) (by omega), hbyte 36 (by omega) (by omega), hbyte 37 (by omega) (by omega)]
  simp only [haddr 26 (by omega), haddr 27 (by omega), haddr 28 (by omega), haddr 29 (by omega),
    haddr 30 (by omega), haddr 31 (by omega), haddr 32 (by omega), haddr 33 (by omega)]
  by_cases hops : info.ops &&& SWAP_IP ≠ 0
  · rw [Info.swapped, if_pos hops, if_pos hops]
    simp only [hswap]
    rfl
  · rw [Info.swapped, if_neg hops, if_neg hops]

/-- Without an exchange of IP addresses, the frame keeps its key. -/
theorem ipKey_edit (h : 34 ≤ frame.length) (hops : info.ops &&& SWAP_IP = 0) :
    ipKey (edit info frame) = ipKey frame := by
  have hdrop : (edit info frame).drop 12 = frame.drop 12 := by
    rw [(sameInside_edit h).drop, Info.swapped, if_neg (not_not_intro hops)]
  have htype : load16 (edit info frame) 12 = load16 frame 12 := by
    have hload := load16_drop (edit info frame) 12 0
    rw [hdrop, load16_drop] at hload
    exact hload.symm
  have hip : (edit info frame).drop 14 = frame.drop 14 := by
    have hload := List.drop_drop (i := 2) (j := 12) (l := edit info frame)
    rw [hdrop, List.drop_drop] at hload
    exact hload.symm
  rw [ipKey, ipKey, htype, hip]

/-- The frames that the program redirects. -/
def Info.Selects (info : Info) (frame : Bytes) : Prop :=
  34 ≤ frame.length ∧ load16 frame 12 ≠ htons ETH_P_ARP ∧
    (info.srcip = 0 ∨ info.srcip = load32 frame 26)

instance (info : Info) (frame : Bytes) : Decidable (info.Selects frame) :=
  inferInstanceAs (Decidable (_ ∧ _))

/-- It redirects these, with its changes, and passes all others on as they are. -/
theorem ingressRedirect_eq (egress_ifindex : BitVec 32) (info : Info) (frame : Bytes) :
    ingressRedirect egress_ifindex info frame =
      if info.Selects frame then
        { ret := .redirect, frame := edit info frame, ifindex := some egress_ifindex }
      else { ret := .ok, frame } := by
  have hlong (hsel : info.Selects frame) : 34 ≤ frame.length := hsel.1
  unfold ingressRedirect lookupArray
  by_cases hshort : frame.length < 14
  · rw [if_pos hshort, if_neg fun hsel => absurd (hlong hsel) (by omega)]
  by_cases harp : load16 frame 12 = htons ETH_P_ARP
  · rw [if_neg hshort, if_pos harp, if_neg fun hsel : info.Selects frame => hsel.2.1 harp]
  rw [if_neg hshort, if_neg harp]
  dsimp only
  by_cases hip : frame.length < 14 + 20
  · rw [if_pos hip, if_neg fun hsel => absurd (hlong hsel) (by omega)]
  rw [if_neg hip]
  by_cases hsrc : info.srcip ≠ 0 ∧ info.srcip ≠ load32 frame (14 + 12)
  · rw [if_pos hsrc, if_neg fun hsel : info.Selects frame => hsel.2.2.elim hsrc.1 hsrc.2]
  · rw [if_neg hsrc, if_pos]
    exact ⟨by omega, harp, (not_and_or.1 hsrc).imp not_not.1 not_not.1⟩

theorem selects_iff (hplain : PlainPacket frame) :
    info.Selects frame ↔ info.srcip = 0 ∨ info.srcip = load32 frame 26 := by
  have harp : htons ETH_P_IP ≠ htons ETH_P_ARP := by decide
  exact ⟨fun hsel => hsel.2.2, fun hsrc => ⟨hplain.header, hplain.ethertype.trans_ne harp, hsrc⟩⟩

/-! ## Checksums -/

/-- The sum of the words at these places. -/
def sumAt (frame : Bytes) (places : List ℕ) : ℕ := wordSum (places.map fun o => load16 frame o)

theorem sumAt_append (frame : Bytes) (places places' : List ℕ) :
    sumAt frame (places ++ places') = sumAt frame places + sumAt frame places' := by
  simp [sumAt, wordSum]

/-- A sum over both addresses, and over nothing else that changes, is as it was. -/
theorem sumAt_edit (h : 34 ≤ frame.length) {places : List ℕ}
    (hplaces : ∀ o ∈ places, 12 ≤ o ∧ (o + 2 ≤ 26 ∨ 34 ≤ o)) :
    sumAt (edit info frame) ([26, 28, 30, 32] ++ places) =
      sumAt frame ([26, 28, 30, 32] ++ places) := by
  have hrest : sumAt (edit info frame) places = sumAt frame places := by
    refine congrArg wordSum (List.map_congr_left fun o ho => ?_)
    obtain ⟨hlow, hfield⟩ := hplaces o ho
    rw [load16, load8_edit_of_ne h (by omega) (by omega), load8_edit_of_ne h hlow (by omega)]
    rfl
  have haddr : sumAt (edit info frame) [26, 28, 30, 32] = sumAt frame [26, 28, 30, 32] := by
    have hbyte (i : ℕ) (hi : 12 ≤ i) : load8 (edit info frame) i = load8 (info.swapped frame) i :=
      load8_edit h hi
    have hswap (i : ℕ) : load8 (swapFields frame 26 4) i = load8 frame (swapPlace 26 4 i) :=
      load8_swapFields h i
    simp only [sumAt, wordSum, load16, List.map_cons, List.map_nil, List.sum_cons, List.sum_nil,
      hbyte 26 (by omega), hbyte 27 (by omega), hbyte 28 (by omega), hbyte 29 (by omega),
      hbyte 30 (by omega), hbyte 31 (by omega), hbyte 32 (by omega), hbyte 33 (by omega)]
    unfold Info.swapped
    split_ifs
    · simp only [hswap]
      show _ + (_ + (_ + (_ + 0))) = _ + (_ + (_ + (_ + 0)))
      simp only [swapPlace]
      simp
      omega
    · rfl
  rw [sumAt_append, sumAt_append, hrest, haddr]

theorem load8_edit_drop (h : 34 ≤ frame.length) (i : ℕ) :
    load8 ((edit info frame).drop 34) i = load8 (frame.drop 34) i := by
  rw [load8_drop, load8_drop, load8_edit_of_ne h (by omega) (by omega)]

/-- What is behind the IP header is as it was. -/
theorem drop_edit (h : 34 ≤ frame.length) : (edit info frame).drop 34 = frame.drop 34 := by
  rw [ext_load8_iff (by rw [List.length_drop, List.length_drop, edit_length h])]
  exact fun i _ => load8_edit_drop h i

/-- The sum over the IP header: its words from the identification on are at even places, and the
addresses are among them. -/
theorem wordSum_headerWords (frame : Bytes) : wordSum (Chacha.headerWords (frame.drop 14)) =
    sumAt frame ([26, 28, 30, 32] ++ [14, 16, 18, 20, 22, 24]) := by
  have hword (o : ℕ) : load16 (frame.drop 14) o = load16 frame (14 + o) := load16_drop _ _ _
  simp only [Chacha.headerWords, sumAt, wordSum, List.range, List.range.loop, List.map_cons,
    List.map_nil, List.cons_append, List.nil_append, List.sum_cons, List.sum_nil, hword,
    Nat.reduceMul, Nat.reduceAdd]
  omega

/-- The checksum of the IP header is as valid as it was. -/
theorem validChecksum_edit (h : 34 ≤ frame.length) :
    Chacha.ValidChecksum ((edit info frame).drop 14) ↔ Chacha.ValidChecksum (frame.drop 14) := by
  have hsum : wordSum (Chacha.headerWords ((edit info frame).drop 14)) =
      wordSum (Chacha.headerWords (frame.drop 14)) := by
    rw [wordSum_headerWords, wordSum_headerWords, sumAt_edit h]
    decide
  unfold Chacha.ValidChecksum htons
  rw [onesSum_bswap_eq_ones_iff, onesSum_bswap_eq_ones_iff, onesSum_eq_ones_iff,
    onesSum_eq_ones_iff, hsum]

/-- The segment behind the IP header. -/
def segment (frame : Bytes) : Bytes := (frame.drop 34).take ((htons (load16 frame 16)).toNat - 20)

/-- The words that the checksum of TCP or UDP covers: the addresses, the protocol and the length of
the segment, and the segment, with a zero behind it if the length is odd. -/
def coveredWords (frame : Bytes) : List (BitVec 16) :=
  [26, 28, 30, 32].map (fun o => load16 frame o) ++
    ([load8 frame 23 ++ (0 : Byte), htons (BitVec.ofNat 16 (segment frame).length)] ++
      (List.range (((segment frame).length + 1) / 2)).map fun i => load16 (segment frame) (2 * i))

/-- The checksum of the segment is valid. -/
def ValidSegment (frame : Bytes) : Prop := onesSum ((coveredWords frame).map htons) = 0xFFFF

theorem validSegment_edit (h : 34 ≤ frame.length) :
    ValidSegment (edit info frame) ↔ ValidSegment frame := by
  have haddr : sumAt (edit info frame) [26, 28, 30, 32] = sumAt frame [26, 28, 30, 32] :=
    @sumAt_edit info frame h [] fun _ ho => absurd ho List.not_mem_nil
  have hseg : segment (edit info frame) = segment frame := by
    rw [segment, segment, drop_edit h, load16, load8_edit_of_ne h (by omega) (by omega),
      load8_edit_of_ne h (by omega) (by omega)]
    rfl
  have hsum : wordSum (coveredWords (edit info frame)) = wordSum (coveredWords frame) := by
    have happend (ws ws' : List (BitVec 16)) : wordSum (ws ++ ws') = wordSum ws + wordSum ws' := by
      simp [wordSum]
    rw [coveredWords, coveredWords, hseg, load8_edit_of_ne h (by omega) (by omega)]
    exact (happend _ _).trans ((congrArg (· + _) haddr).trans (happend _ _).symm)
  unfold ValidSegment htons
  rw [onesSum_bswap_eq_ones_iff, onesSum_bswap_eq_ones_iff, onesSum_eq_ones_iff,
    onesSum_eq_ones_iff, hsum]

/-! ## There and back -/

/-- Two programs with the same exchanges undo each other. -/
theorem edit_edit (h : 34 ≤ frame.length) (hset : info.ops &&& SET_DST_MAC = 0) :
    edit info (edit info frame) = frame := by
  have hedit {p : Bytes} (hp : 34 ≤ p.length) : edit info p =
      if info.ops &&& SWAP_MAC ≠ 0 then swapFields (info.swapped p) 0 6 else info.swapped p := by
    have hlen := @swapped_length info p hp
    unfold edit
    rw [if_neg (not_not_intro hset), swapSrcDstIp_eq hp, ← Info.swapped,
      swapSrcDstMac_eq (by omega)]
  have hlen := @swapped_length info frame h
  have hmac {p : Bytes} (hp : 34 ≤ p.length) : (swapFields p 0 6).length = p.length :=
    swapFields_length (by omega)
  have hip {p : Bytes} (hp : 34 ≤ p.length) : info.swapped (info.swapped p) = p := by
    unfold Info.swapped
    split_ifs
    · exact swapFields_swapFields hp
    · rfl
  have hcomm {p : Bytes} (hp : 34 ≤ p.length) :
      info.swapped (swapFields p 0 6) = swapFields (info.swapped p) 0 6 := by
    unfold Info.swapped
    split_ifs
    · exact (swapFields_comm (by omega) hp).symm
    · rfl
  rw [hedit (by rw [edit_length h]; exact h), hedit h]
  split_ifs
  · have hinner := @swapped_length info (info.swapped frame) (by omega)
    rw [hcomm (by omega), swapFields_swapFields (by omega), hip h]
  · exact hip h

/-! ## What becomes of a packet -/

/-- The packet goes out as it was, up to its addresses, with all checksums as valid as before. -/
structure Redirected (egress_ifindex : BitVec 32) (info : Info) (frame : Bytes) (out : Out) :
    Prop where
  ret : out.ret = .redirect
  ifindex : out.ifindex = some egress_ifindex
  plain : PlainPacket out.frame
  flow : flowOf out.frame =
    if info.ops &&& SWAP_IP ≠ 0 then swapAddresses (flowOf frame) else flowOf frame
  behind : out.frame.drop 34 = frame.drop 34
  checksum : Chacha.ValidChecksum (out.frame.drop 14) ↔ Chacha.ValidChecksum (frame.drop 14)
  segment : ValidSegment out.frame ↔ ValidSegment frame

/-- A plain packet of the configured source address, or of any if there is none, goes out without a
checksum to update, and in a flow that is known from its options; another one goes to the stack as it
is. Without a destination to set, what goes out of two such programs is what came in. -/
theorem ingressRedirect_plain (egress_ifindex : BitVec 32) (info : Info) (frame : Bytes)
    (hplain : PlainPacket frame) :
    (info.srcip = 0 ∨ info.srcip = load32 frame 26 →
        Redirected egress_ifindex info frame (ingressRedirect egress_ifindex info frame)) ∧
      (¬ (info.srcip = 0 ∨ info.srcip = load32 frame 26) →
        ingressRedirect egress_ifindex info frame = { ret := .ok, frame }) ∧
      (info.srcip = 0 → info.ops &&& SET_DST_MAC = 0 → ∀ ifindex,
        (ingressRedirect ifindex info (ingressRedirect egress_ifindex info frame).frame).frame =
          frame) := by
  have hlen := hplain.header
  refine ⟨fun hsrc => ?_, fun hsrc => ?_, fun hzero hset ifindex => ?_⟩
  · rw [ingressRedirect_eq, if_pos ((selects_iff hplain).2 hsrc)]
    exact ⟨rfl, rfl, plainPacket_edit hplain, flowOf_edit hlen, drop_edit hlen,
      validChecksum_edit hlen, validSegment_edit hlen⟩
  · rw [ingressRedirect_eq, if_neg fun hsel => hsrc ((selects_iff hplain).1 hsel)]
  · rw [ingressRedirect_eq egress_ifindex, if_pos ((selects_iff hplain).2 (Or.inl hzero)),
      ingressRedirect_eq, if_pos ((selects_iff (plainPacket_edit hplain)).2 (Or.inl hzero))]
    exact edit_edit hlen hset

/-- A ping from 10.0.0.1 to 10.0.0.2. -/
def pingFlow : Ip5tuple := ⟨0x0A000001, 0x0A000002, 0, 0, IPPROTO_ICMP⟩

/-- With all addresses exchanged, it goes out as one from 10.0.0.2 to 10.0.0.1. -/
theorem ingressRedirect_plain_ping :
    flowOf (ingressRedirect 3 ⟨0, zeroMac, SWAP_IP ||| SWAP_MAC⟩ (packetOf pingFlow)).frame =
      ⟨0x0A000002, 0x0A000001, 0, 0, IPPROTO_ICMP⟩ := by
  have hplain : PlainPacket (packetOf pingFlow) :=
    plainPacket_packetOf ⟨Or.inr (Or.inr rfl), fun _ => ⟨rfl, rfl⟩⟩
  have hflow := ((ingressRedirect_plain 3 ⟨0, zeroMac, SWAP_IP ||| SWAP_MAC⟩ (packetOf pingFlow)
    hplain).1 (Or.inl rfl)).flow
  exact hflow.trans (by decide)

end TcRedirect

end ChainingBox
