import ChainingBox.Dataplane.SavedHeaders

/-!
# The classifier

The program of `sfc_classifier_kern.c`, which encapsulates the frames of known flows, in its two
builds. On TC the kernel inserts room right after the Ethernet header, so the program copies the
header to the inside; on XDP the kernel prepends room, and the original header is already inside.

`classifyTc_frame` is what both builds emit: the whole original frame behind an outer Ethernet header
and an NSH, whose context is whatever bytes were there. `decap_classifyTc` is the round trip through
Dec.
-/

namespace ChainingBox

open Lib

/-- `struct cls_entry`; `sph` is in network byte order. -/
structure ClsEntry where
  sph : BitVec 32
  next_hop : Mac
  deriving DecidableEq

/-- The hash map `cls_table`. -/
abbrev ClsTable := BoundedMap Ip5tuple ClsEntry 2048

/-- The program is built for XDP or for TC. -/
inductive Build
  | tc
  | xdp
  deriving DecidableEq

/-- The `RET_` macros, which stand for an XDP action or a TC action. -/
inductive ClsRet
  | RET_OK
  | RET_TX
  | RET_DROP
  deriving DecidableEq, Repr

/-- What a run of the classifier leaves. -/
structure ClsOut where
  ret : Ret ClsRet
  frame : Bytes

/-- The classifier's own `set_src_mac`, with the index of the egress address. -/
def clsSetSrcMac (m : SrcMac) (frame : Bytes) : Option Bytes := setSrcMac m frame .egressMac

/-- `bpf_xdp_adjust_head` with a negative delta: it prepends bytes with arbitrary contents. -/
def bpfXdpGrowHead (k : Kernel) (frame : Bytes) : Option Bytes :=
  (k.headroom frame).map fun b => b.1 ++ frame

/-- The room for the outer encapsulation. -/
def clsAdjust (build : Build) (k : Kernel) (frame : Bytes) : Option Bytes :=
  match build with
  | .tc => bpfSkbAdjustRoom k frame (14 + 24)
  | .xdp => bpfXdpGrowHead k frame

/-- On XDP the room is in front of the Ethernet header, on TC right after it: only there the
original header is outside, and is copied to the inside. -/
def clsCopyHeader (build : Build) (frame : Bytes) : Bytes :=
  match build with
  | .tc => store frame 38 (slice frame 0 14).1
  | .xdp => frame

/-- `classify_tc`. -/
def classifyTc (build : Build) (k : Kernel) (src_mac : SrcMac) (cls_table : ClsTable)
    (frame : Bytes) : ClsOut :=
  if frame.length < 14 + 20 then ⟨cbRetother .RET_OK, frame⟩
  else if htons (load16 frame 12) ≠ ETH_P_IP then ⟨cbRetother .RET_OK, frame⟩
  else match getTuple (frame.drop 14) with
  | none => ⟨cbRetother .RET_OK, frame⟩
  | some key =>
    match cls_table.lookup key with
    | none =>
      match clsSetSrcMac src_mac frame with
      | none => ⟨cbRetother .RET_DROP, frame⟩
      | some frame => ⟨cbRetother .RET_OK, frame⟩
    | some cls =>
      let prev_proto := load16 frame 12
      match clsAdjust build k frame with
      | none => ⟨cbRetother .RET_DROP, frame⟩
      | some frame =>
        if frame.length < 2 * 14 + 24 then ⟨cbRetother .RET_OK, frame⟩
        else
          let frame := store (clsCopyHeader build frame) 12 (le16 (htons ETH_P_NSH))
          let frame := store frame (38 + 12) (le16 prev_proto)
          match clsSetSrcMac src_mac frame with
          | none => ⟨cbRetother .RET_DROP, frame⟩
          | some frame =>
            let frame := store frame 0 cls.next_hop.1
            let frame := store frame 14
              (le16 (htons (NSH_TTL_DEFAULT ||| NSH_BASE_LENGHT_MD_TYPE_2)))
            let frame := store frame (14 + 2) [NSH_MD_TYPE_2]
            let frame := store frame (14 + 3) [NSH_NEXT_PROTO_ETHER]
            -- No conversion: the entry is in network byte order already.
            let frame := store frame (14 + 4) (le32 cls.sph)
            ⟨cbRetok .RET_TX, frame⟩

/-! ## What the classifier emits -/

/-- The 24 bytes that a build finds behind the outer Ethernet header in the room it obtained: zeros
on TC, and what the headroom held on XDP. -/
def roomNsh (build : Build) (k : Kernel) (frame : Bytes) : Nsh :=
  match build with
  | .tc => ⟨List.replicate 24 0, rfl⟩
  | .xdp => slice (((k.headroom frame).map Subtype.val).getD []) 14 24

/-- The Ethernet headers of both builds: some outer addresses, the EtherType of NSH, the room for
it, and the original frame. -/
theorem clsAdjust_headers {build : Build} {k : Kernel} {frame room : Bytes}
    (hl : 14 ≤ frame.length) (h : clsAdjust build k frame = some room) :
    52 ≤ room.length ∧ ∃ dst src : Mac,
      store (store (clsCopyHeader build room) 12 (le16 (htons ETH_P_NSH))) (38 + 12)
        (le16 (load16 frame 12)) = nshFrame dst src (roomNsh build k frame) frame := by
  cases build with
  | tc =>
    simp only [clsAdjust, bpfSkbAdjustRoom, Option.ite_none_right_eq_some, Option.some.injEq] at h
    obtain ⟨-, rfl⟩ := h
    refine ⟨?_, _, _, header_stores frame hl⟩
    simp only [List.length_append, List.length_take, List.length_replicate, List.length_drop]
    omega
  | xdp =>
    obtain ⟨b, hhead, rfl⟩ := Option.map_eq_some_iff.1 h
    have hb := b.2
    have hnsh : roomNsh .xdp k frame = slice b.1 14 24 := by
      rw [roomNsh, hhead]
      rfl
    refine ⟨by rw [List.length_append, hb]; omega, slice b.1 0 6, slice b.1 6 6, ?_⟩
    -- The prepended bytes are two addresses, an EtherType, and 24 bytes.
    have hparts : b.1 = b.1.take 12 ++ ((b.1.drop 12).take 2 ++ (slice b.1 14 24).1) := by
      have htail : (b.1.drop 14).take 24 = b.1.drop 14 :=
        List.take_of_length_le (by rw [List.length_drop, hb])
      have hrest : b.1.drop 14 = (b.1.drop 12).drop 2 := by rw [List.drop_drop]
      rw [slice_eq_take (by omega), htail, hrest, List.take_append_drop, List.take_append_drop]
    have haddr : b.1.take 12 = (slice b.1 0 6).1 ++ (slice b.1 6 6).1 := by
      rw [slice_eq_take (by omega), slice_eq_take (by omega), List.drop_zero, ← List.take_add]
    have hd : (b.1.take 12).length = 12 := by rw [List.length_take, hb]; rfl
    have hp : ((b.1.drop 12).take 2).length = (le16 (htons ETH_P_NSH)).length := by
      rw [List.length_take, List.length_drop, hb]
      rfl
    have h12 : store (b.1 ++ frame) 12 (le16 (htons ETH_P_NSH)) =
        nshFrame (slice b.1 0 6) (slice b.1 6 6) (slice b.1 14 24) frame := by
      conv_lhs => rw [hparts]
      have hst := store_mid (c := (slice b.1 14 24).1 ++ frame) hd hp
      simp only [List.append_assoc] at hst ⊢
      rw [hst, haddr, nshFrame]
      simp only [List.append_assoc]
    show store (store (b.1 ++ frame) _ _) _ _ = _
    rw [h12, hnsh]
    exact store_nshFrame_proto _ _ _ hl

/-- The first two fields of the NSH, written over 24 bytes of room. -/
def clsNshBase (room : Nsh) : Nsh :=
  (room.write 0 (le16 (htons (NSH_TTL_DEFAULT ||| NSH_BASE_LENGHT_MD_TYPE_2))) (by decide)).write
    2 [NSH_MD_TYPE_2] (by decide)

/-- The NSH that the classifier writes over 24 bytes of room. -/
def clsNsh (room : Nsh) (sph : BitVec 32) : Nsh :=
  ((clsNshBase room).write 3 [NSH_NEXT_PROTO_ETHER] (by decide)).withPath (htonl sph)

theorem clsNsh_path (room : Nsh) (sph : BitVec 32) : (clsNsh room sph).path = htonl sph :=
  Nsh.path_withPath _ _

theorem clsNsh_next_proto (room : Nsh) (sph : BitVec 32) :
    load8 (clsNsh room sph).1 3 = NSH_NEXT_PROTO_ETHER := by
  rw [clsNsh, Nsh.load8_withPath]
  exact load8_store_self _ (by rw [(clsNshBase room).2]; decide)

/-- The context bytes of a header, behind its service path header. -/
def Nsh.context (h : Nsh) : ByteVec 16 := ⟨h.1.drop 8, by rw [List.length_drop, h.2]⟩

/-- The classifier writes the header that a proxy rule has, with the room's bytes as its context. -/
theorem clsNsh_eq (room : Nsh) (sph : BitVec 32) :
    clsNsh room sph = proxyNsh (htonl sph) room.context := by
  obtain ⟨bytes, hlen⟩ := room
  match bytes, hlen with
  | _ :: _ :: _ :: _ :: _, _ => rfl

/-- The classifier on an IPv4 frame of a flow with an entry, once it has obtained its room: the frame
is emitted whole, behind an outer Ethernet header for the entry's next hop and an NSH with the
entry's service path header. -/
theorem classifyTc_of_entry {build : Build} {k : Kernel} {src_mac : SrcMac} {cls_table : ClsTable}
    {frame room : Bytes} {key : Ip5tuple} {cls : ClsEntry} (hl : 34 ≤ frame.length)
    (hip : htons (load16 frame 12) = ETH_P_IP) (ht : getTuple (frame.drop 14) = some key)
    (hc : cls_table.lookup key = some cls) (hr : clsAdjust build k frame = some room) :
    classifyTc build k src_mac cls_table frame =
      ⟨cbRetok .RET_TX,
        nshFrame cls.next_hop src_mac.egress (clsNsh (roomNsh build k frame) cls.sph) frame⟩ := by
  have hset (f : Bytes) : clsSetSrcMac src_mac f = some (store f 6 src_mac.egress.1) := rfl
  obtain ⟨hroom, dst, src, hhead⟩ := clsAdjust_headers (by omega) hr
  rw [classifyTc, if_neg (by omega), if_neg (not_not.2 hip), ht]
  simp only [hc, hr]
  rw [if_neg (by omega)]
  simp only [hhead, hset]
  -- Each remaining write is to one field of the encapsulated frame.
  rw [store_nshFrame_src, store_nshFrame_dst]
  have h0 := store_nshFrame_nsh cls.next_hop src_mac.egress (roomNsh build k frame) frame (o := 0)
    (v := le16 (htons (NSH_TTL_DEFAULT ||| NSH_BASE_LENGHT_MD_TYPE_2))) (by decide)
  rw [Nat.add_zero] at h0
  rw [h0, store_nshFrame_nsh _ _ _ _ (by decide), store_nshFrame_nsh _ _ _ _ (by decide),
    store_nshFrame_nsh _ _ _ _ (by rw [le32_length]; omega)]
  congr 2
  apply Subtype.ext
  show store _ 4 (le32 cls.sph) = store _ 4 (le32 (htonl (htonl cls.sph)))
  rw [show htonl (htonl cls.sph) = cls.sph from bswap32_bswap32 _]
  rfl

/-- The frames that the classifier is to encapsulate: IPv4 frames of a flow with an entry. -/
def Classified (cls_table : ClsTable) (frame : Bytes) : Prop :=
  34 ≤ frame.length ∧ htons (load16 frame 12) = ETH_P_IP ∧
    ∃ key cls, getTuple (frame.drop 14) = some key ∧ cls_table.lookup key = some cls

/-- On every other frame the two builds do the same, whatever the kernel does. -/
theorem classifyTc_of_not_classified {src_mac : SrcMac} {cls_table : ClsTable} {frame : Bytes}
    (h : ¬ Classified cls_table frame) : ∃ code f, ∀ build k,
      classifyTc build k src_mac cls_table frame = ⟨cbRetother code, f⟩ := by
  have hset (f : Bytes) : clsSetSrcMac src_mac f = some (store f 6 src_mac.egress.1) := rfl
  by_cases hl : frame.length < 14 + 20
  · exact ⟨.RET_OK, frame, fun build k => by rw [classifyTc, if_pos hl]⟩
  by_cases hip : htons (load16 frame 12) ≠ ETH_P_IP
  · exact ⟨.RET_OK, frame, fun build k => by rw [classifyTc, if_neg hl, if_pos hip]⟩
  cases ht : getTuple (frame.drop 14) with
  | none => exact ⟨.RET_OK, frame, fun build k => by rw [classifyTc, if_neg hl, if_neg hip, ht]⟩
  | some key =>
  cases hc : cls_table.lookup key with
  | none =>
    refine ⟨.RET_OK, store frame 6 src_mac.egress.1, fun build k => ?_⟩
    rw [classifyTc, if_neg hl, if_neg hip, ht]
    simp only [hc, hset]
  | some cls => exact absurd ⟨by omega, not_not.1 hip, key, cls, ht, hc⟩ h

/-- A frame that the classifier encapsulates is an IPv4 frame of a flow with an entry, and is emitted
behind the entry's headers. -/
theorem classifyTc_frame {build : Build} {k : Kernel} {src_mac : SrcMac} {cls_table : ClsTable}
    {frame : Bytes} (h : (classifyTc build k src_mac cls_table frame).ret = cbRetok .RET_TX) :
    34 ≤ frame.length ∧ ∃ key cls, getTuple (frame.drop 14) = some key ∧
      cls_table.lookup key = some cls ∧ (classifyTc build k src_mac cls_table frame).frame =
        nshFrame cls.next_hop src_mac.egress (clsNsh (roomNsh build k frame) cls.sph) frame := by
  have hother (c : ClsRet) : cbRetother c ≠ cbRetok .RET_TX := by simp [cbRetother, cbRetok]
  by_cases hcls : Classified cls_table frame
  · obtain ⟨hl, hip, key, cls, ht, hc⟩ := hcls
    cases hr : clsAdjust build k frame with
    | none =>
      rw [classifyTc, if_neg (by omega), if_neg (not_not.2 hip), ht] at h
      simp only [hc, hr] at h
      exact absurd h (hother _)
    | some room =>
      exact ⟨hl, key, cls, ht, hc, by rw [classifyTc_of_entry hl hip ht hc hr]⟩
  · obtain ⟨code, f, hall⟩ := @classifyTc_of_not_classified src_mac _ _ hcls
    rw [hall] at h
    exact absurd h (hother _)

/-! ## Through Dec -/

/-- Dec undoes the classifier. A frame that either build encapsulates for a node's unicast address,
received while `nsh_data` is not full, is passed up as it was before the classifier, and the NSH
saved under the flow that the classifier matched has the service path header of its entry. -/
theorem decap_classifyTc (build : Build) (k : Kernel) (src_mac : SrcMac) (cls_table : ClsTable)
    (frame : Bytes) (key : Ip5tuple) (cls : ClsEntry) (sm : SrcMac) (nd : NshData)
    (hkey : getTuple (frame.drop 14) = some key) (hcls : cls_table.lookup key = some cls)
    (henc : (classifyTc build k src_mac cls_table frame).ret = cbRetok .RET_TX)
    (hmac : sm.ingress = cls.next_hop) (hunicast : load8 cls.next_hop.1 0 &&& 1 = 0)
    (hfull : nd.size < 2048) :
    let out := decapNsh sm nd (classifyTc build k src_mac cls_table frame).frame
    out.ret.code = .pass ∧ out.frame = frame ∧
      ∃ nsh, out.nsh_data.lookup key = some nsh ∧ load32 nsh.1 4 = cls.sph := by
  obtain ⟨hl, key', cls', hkey', hcls', hframe⟩ := classifyTc_frame henc
  obtain rfl : key = key' := Option.some.inj (hkey.symm.trans hkey')
  obtain rfl : cls = cls' := Option.some.inj (hcls.symm.trans hcls')
  have hacc : Accepts sm.ingress
      (nshFrame cls.next_hop src_mac.egress (clsNsh (roomNsh build k frame) cls.sph) frame) 14
      key := by
    rw [hmac]
    exact accepts_nshFrame hunicast (clsNsh_next_proto _ cls.sph) hl hkey
  rw [hframe, decapNsh_of_accepts hacc, slice_nshFrame, drop_nshFrame_38]
  refine ⟨rfl, rfl, _, BoundedMap.lookup_put_self _ (Or.inr hfull), ?_⟩
  have hpath := congrArg htonl (clsNsh_path (roomNsh build k frame) cls.sph)
  rwa [Nsh.path, show ∀ x, htonl (htonl x) = x from bswap32_bswap32,
    show ∀ x, htonl (htonl x) = x from bswap32_bswap32] at hpath

/-- A kernel that grants all room, and has arbitrary bytes in the headroom. -/
def dirtyKernel : Kernel := ⟨fun _ => true, fun _ => some ⟨List.replicate 38 0xA5, rfl⟩⟩

/-- A table that sends the flow of `pingFrame` to the first node of chain 1. -/
def pingTable : ClsTable :=
  BoundedMap.empty.put ⟨0x0100000A, 0x0200000A, 0, 0, IPPROTO_ICMP⟩ ⟨htonl 0x1FF, nodeMac⟩

/-- The XDP build on an ICMP packet. -/
theorem decap_classifyTc_ping :
    let out := decapNsh ⟨nodeMac, zeroMac⟩ .empty
      (classifyTc .xdp dirtyKernel ⟨zeroMac, nodeMac'⟩ pingTable pingFrame).frame
    out.ret.code = .pass ∧ out.frame = pingFrame ∧
      ∃ nsh, out.nsh_data.lookup ⟨0x0100000A, 0x0200000A, 0, 0, IPPROTO_ICMP⟩ = some nsh ∧
        load32 nsh.1 4 = htonl 0x1FF :=
  decap_classifyTc .xdp dirtyKernel ⟨zeroMac, nodeMac'⟩ pingTable pingFrame _
    ⟨htonl 0x1FF, nodeMac⟩ ⟨nodeMac, zeroMac⟩ .empty (by decide) (by decide)
    (by decide) rfl (by decide) (by decide)

end ChainingBox
