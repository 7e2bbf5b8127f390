import ChainingBox.Dataplane.Builds
import ChainingBox.Dataplane.Egress

/-!
# The headers that are written, and their length

An NSH comes from one of three places: the classifier writes it, an agent installs it with a proxy
rule, or it was received and is replayed. All programs take it for a `struct nshhdr_md1` of 24 bytes.

The agent fills only the first eight of them, and hands over whatever is behind them in its memory.
`proxy_entry_iff` compares an entry that it installs with the one that Dec would save from the
classifier's frame: they go out alike exactly when those 16 bytes are zero, or no header goes out.

The Length field of a header counts it in words of four bytes. The classifier and the agent write 2
there, the length of a header without context, and Dec and Enc never look at the field.
`framing_iff` says when the field is true all the same.
-/

namespace ChainingBox

open Lib

/-! ## Two entries for a flow -/

/-- Enc re-encapsulates a frame of a flow with a saved header: the service index is not zero, the
entry of the next one is no end of chain, and the kernel grants the room. -/
def PutsBack (k : Kernel) (m : NodeMaps) (sph : BitVec 32) (frame : Bytes) : Prop :=
  siOf sph ≠ 0 ∧ ¬ (m.fwd_table.lookup (htonl (sph - 1))).any FwdEntry.isEnd ∧ k.grantsRoom frame

/-- The header of a proxy rule on another path. -/
theorem withPath_proxyNsh (sph sph' : BitVec 32) (junk : ByteVec 16) :
    (proxyNsh sph junk).withPath sph' = proxyNsh sph' junk := by
  apply Subtype.ext
  rw [Nsh.withPath_eq]
  rfl

/-- Enc under two headers of one path that differ in their context: it does the same exactly when the
contexts are equal or no header is put back. -/
theorem encapNsh_proxyNsh_iff {k : Kernel} {m : NodeMaps} {nd nd' : NshData} {frame : Bytes}
    {key : Ip5tuple} {sph : BitVec 32} {junk junk' : ByteVec 16}
    (hip : load16 frame 12 = htons ETH_P_IP) (hkey : getTuple (frame.drop 14) = some key)
    (hn : nd.lookup key = some (proxyNsh sph junk))
    (hn' : nd'.lookup key = some (proxyNsh sph junk')) :
    encapNsh k { m with nsh_data := nd } frame = encapNsh k { m with nsh_data := nd' } frame ↔
      junk = junk' ∨ ¬ PutsBack k m sph frame := by
  have hl := header_of_getTuple hkey
  rw [@encapNsh_saved k { m with nsh_data := nd } _ _ _ hl hip hkey hn,
    @encapNsh_saved k { m with nsh_data := nd' } _ _ _ hl hip hkey hn']
  simp only [proxyNsh_path, withPath_proxyNsh]
  unfold PutsBack
  by_cases hsi : siOf sph = 0
  · simp [hsi]
  by_cases hend : (m.fwd_table.lookup (htonl (sph - 1))).any FwdEntry.isEnd
  · rw [if_neg hsi, if_neg hsi, if_pos hend, if_pos hend]
    simp only [hend, not_true_eq_false, false_and, and_false, not_false_eq_true, or_true]
  by_cases hroom : k.grantsRoom frame
  · -- The two headers are put back, with the same new path.
    rw [if_neg hsi, if_neg hsi, if_neg hend, if_neg hend, if_pos hroom, if_pos hroom,
      TcOut.mk.injEq, nshFrame_inj, proxyNsh_inj]
    simp only [hsi, hend, hroom, true_and, ne_eq, not_false_eq_true, not_true_eq_false, or_false,
      Bool.false_eq_true, and_self]
  · rw [if_neg hsi, if_neg hsi, if_neg hend, if_neg hend, if_neg hroom, if_neg hroom]
    simp only [hroom, and_false, not_false_eq_true, or_true, Bool.false_eq_true]

/-- A packet of a flow under the entry that a proxy rule installs, and under the entry that Dec saves
from the frame in which the classifier sent it: Enc does the same with it. -/
def LikeLearned (k k' : Kernel) (m : NodeMaps) (src_mac : SrcMac) (cls_table : ClsTable)
    (key : Ip5tuple) (sph : BitVec 32) (junk : ByteVec 16) (frame : Bytes) : Prop :=
  let proxied := (addProxyRule m.nsh_data key sph junk).getD m.nsh_data
  let learned := (decapNsh m.src_mac m.nsh_data
    (classifyTc .tc k' src_mac cls_table frame).frame).nsh_data
  encapNsh k { m with nsh_data := proxied } frame = encapNsh k { m with nsh_data := learned } frame

/-- A packet of a flow that the TC classifier sends to the node with a service path header, while the
node has room for the flow. -/
structure SentTo (k' : Kernel) (m : NodeMaps) (src_mac : SrcMac) (cls_table : ClsTable)
    (key : Ip5tuple) (sph : BitVec 32) (frame : Bytes) : Prop where
  ethertype : load16 frame 12 = htons ETH_P_IP
  tuple : getTuple (frame.drop 14) = some key.toNetwork
  entry : cls_table.lookup key.toNetwork = some ⟨htonl sph, m.src_mac.ingress⟩
  unicast : load8 m.src_mac.ingress.1 0 &&& 1 = 0
  sent : (classifyTc .tc k' src_mac cls_table frame).ret = cbRetok .RET_TX
  room : m.nsh_data.Room key.toNetwork

/-- What Dec saves from the classifier's frame is the header of a proxy rule without context. -/
theorem SentTo.learned {k' : Kernel} {m : NodeMaps} {src_mac : SrcMac} {cls_table : ClsTable}
    {key : Ip5tuple} {sph : BitVec 32} {frame : Bytes}
    (h : SentTo k' m src_mac cls_table key sph frame) :
    (decapNsh m.src_mac m.nsh_data (classifyTc .tc k' src_mac cls_table frame).frame).nsh_data =
      m.nsh_data.put key.toNetwork (proxyNsh sph noContext) := by
  obtain ⟨hl, key', cls, htup, hentry, hframe⟩ := classifyTc_frame h.sent
  obtain rfl : key.toNetwork = key' := Option.some.inj (h.tuple.symm.trans htup)
  obtain rfl : (⟨htonl sph, m.src_mac.ingress⟩ : ClsEntry) = cls :=
    Option.some.inj (h.entry.symm.trans hentry)
  have hpath : htonl (htonl sph) = sph := bswap32_bswap32 sph
  have hacc := @accepts_nshFrame m.src_mac.ingress src_mac.egress
    (clsNsh (roomNsh .tc k' frame) (htonl sph)) frame key.toNetwork h.unicast
    (clsNsh_next_proto _ _) hl h.tuple
  rw [hframe, decapNsh_of_accepts hacc, slice_nshFrame, clsNsh_eq, hpath, context_roomNsh_tc]

/-- The two entries have the same path, and the context of the learned one is zero. -/
theorem SentTo.likeLearned_iff {k k' : Kernel} {m : NodeMaps} {src_mac : SrcMac}
    {cls_table : ClsTable} {key : Ip5tuple} {sph : BitVec 32} {frame : Bytes}
    (h : SentTo k' m src_mac cls_table key sph frame) (junk : ByteVec 16) :
    LikeLearned k k' m src_mac cls_table key sph junk frame ↔
      junk = noContext ∨ ¬ PutsBack k m sph frame := by
  unfold LikeLearned
  rw [h.learned]
  exact encapNsh_proxyNsh_iff h.ethertype h.tuple
    (BoundedMap.lookup_put_self (proxyNsh sph junk) h.room)
    (BoundedMap.lookup_put_self (proxyNsh sph noContext) h.room)

/-- An artificial proxy entry works like the one that Dec would save from the classifier's frame
exactly when the 16 bytes behind the agent's `nshhdr` are zero, or Enc does not put the header
back. -/
theorem proxy_entry_iff (k k' : Kernel) (m : NodeMaps) (src_mac : SrcMac) (cls_table : ClsTable)
    (key : Ip5tuple) (sph : BitVec 32) (junk : ByteVec 16) (frame : Bytes)
    (hsent : SentTo k' m src_mac cls_table key sph frame) :
    LikeLearned k k' m src_mac cls_table key sph junk frame ↔
      junk.1 = List.replicate 16 0 ∨ ¬ PutsBack k m sph frame := by
  have hzero : junk = noContext ↔ junk.1 = List.replicate 16 0 :=
    ⟨congrArg Subtype.val, fun h => Subtype.ext h⟩
  rw [hsent.likeLearned_iff, hzero]

/-- The flow of `pingFrame`, in host byte order. -/
def pingHostKey : Ip5tuple := ⟨0x0A000001, 0x0A000002, 0, 0, IPPROTO_ICMP⟩

/-- The classifier sends the ICMP packet to the middle node of chain 1. -/
theorem sentTo_ping : SentTo grantingKernel middleNode ⟨zeroMac, nodeMac'⟩ pingTable pingHostKey
    0x1FF pingFrame :=
  ⟨by decide, by decide, by decide, by decide, by decide, Or.inr (by decide)⟩

/-- With zeros in the agent's memory the two entries are alike. -/
theorem proxy_entry_ping :
    LikeLearned grantingKernel grantingKernel middleNode ⟨zeroMac, nodeMac'⟩ pingTable pingHostKey
        0x1FF noContext pingFrame ↔
      noContext.1 = List.replicate 16 0 ∨ ¬ PutsBack grantingKernel middleNode 0x1FF pingFrame :=
  proxy_entry_iff grantingKernel grantingKernel middleNode ⟨zeroMac, nodeMac'⟩ pingTable pingHostKey
    0x1FF noContext pingFrame sentTo_ping

/-- With other bytes in it they are not. -/
theorem not_like_learned_dirty :
    ¬ LikeLearned grantingKernel grantingKernel middleNode ⟨zeroMac, nodeMac'⟩ pingTable pingHostKey
      0x1FF ⟨List.replicate 16 0xA5, rfl⟩ pingFrame := by
  rw [sentTo_ping.likeLearned_iff]
  rintro (h | h)
  · exact absurd h (by decide)
  · exact h ⟨by decide, by decide, rfl⟩

/-! ## The Length field -/

/-- The Length of the NSH at an offset: the low six bits of its first word in network order. -/
def lengthField (b : Bytes) (o : ℕ) : ℕ := (htons (load16 b o) &&& 0x3F).toNat

/-- The inner frame starts where the Length of the NSH behind the outer Ethernet header says. -/
def InnerAtLength (inner out : Bytes) : Prop := out.drop (14 + 4 * lengthField out 14) = inner

instance (inner out : Bytes) : Decidable (InnerAtLength inner out) :=
  inferInstanceAs (Decidable (_ = _))

/-- A received NSH frame that carries an Ethernet frame, with its NSH at `off` and a Length of at
least 2 that fits in it. -/
structure ReceivedNsh (frame : Bytes) (off : ℕ) : Prop where
  place : htons (load16 frame 12) = ETH_P_NSH ∧ off = 14 ∨
    htons (load16 frame 12) = ETH_P_8021Q ∧ htons (load16 frame 16) = ETH_P_NSH ∧ off = 18
  next_proto : load8 frame (off + 3) = NSH_NEXT_PROTO_ETHER
  length : 2 ≤ lengthField frame off
  fits : off + 4 * lengthField frame off ≤ frame.length

/-- The headers of the classifier and of proxy rules say 2. -/
theorem lengthField_proxyNsh (sph : BitVec 32) (junk : ByteVec 16) :
    lengthField (proxyNsh sph junk).1 0 = 2 := by
  rw [lengthField, proxyNsh, load16_le16]
  decide

theorem lengthField_nshFrame (dst src : Mac) (nsh : Nsh) (inner : Bytes) :
    lengthField (nshFrame dst src nsh inner) 14 = lengthField nsh.1 0 := by
  have h0 := load8_nshFrame_nsh dst src nsh inner (i := 0) (by omega)
  have h1 := load8_nshFrame_nsh dst src nsh inner (i := 1) (by omega)
  rw [lengthField, lengthField, load16, load16]
  exact congrArg₂ (fun a b : Byte => (htons (a ++ b) &&& 0x3F).toNat) h1 h0

/-- The Length does not change with the path. -/
theorem lengthField_withPath (nsh : Nsh) (sph : BitVec 32) :
    lengthField (nsh.withPath sph).1 0 = lengthField nsh.1 0 := by
  have hlen : (nsh.1.take 4).length = 4 := by rw [List.length_take, nsh.2]; rfl
  have hload (i : ℕ) (hi : i < 4) : load8 (nsh.withPath sph).1 i = load8 nsh.1 i := by
    rw [nsh.withPath_eq, load8_append_left (by omega)]
    conv_rhs => rw [nsh.eq_append]
    rw [load8_append_left (by omega)]
  rw [lengthField, lengthField, load16, load16, hload 0 (by omega), hload (0 + 1) (by omega)]

/-- An encapsulated frame is consistent exactly when the Length says 6: the NSH takes 24 bytes. -/
theorem innerAtLength_iff (dst src : Mac) (nsh : Nsh) {inner : Bytes} (hl : 0 < inner.length) :
    InnerAtLength inner (nshFrame dst src nsh inner) ↔ lengthField nsh.1 0 = 6 := by
  rw [InnerAtLength, lengthField_nshFrame]
  constructor
  · intro h
    have hlen := congrArg List.length h
    rw [List.length_drop, nshFrame_length] at hlen
    omega
  · intro h
    rw [h]
    exact drop_nshFrame_38 dst src nsh inner

/-- Dec strips what the Length says from exactly the frames it accepts whose Length is 6. -/
theorem strips_length_iff {sm : SrcMac} {nd : NshData} {frame : Bytes} {off : ℕ}
    (h : ReceivedNsh frame off) :
    (decapNsh sm nd frame).frame = frame.drop (off + 4 * lengthField frame off) ↔
      (∃ key, Accepts sm.ingress frame off key) ∧ lengthField frame off = 6 := by
  have hfits := h.fits
  have hlength := h.length
  rcases decapNsh_cases sm nd frame with ⟨off', key, ha, hout⟩ | ⟨hna, code, hout⟩
  · have hroom := ha.room
    -- The NSH is in one place only.
    obtain rfl : off = off' := (nsh_place h.place).trans (nsh_place ha.place).symm
    rw [hout]
    dsimp only
    constructor
    · intro heq
      have hlen := congrArg List.length heq
      rw [List.length_drop, List.length_drop] at hlen
      exact ⟨⟨key, ha⟩, by omega⟩
    · rintro ⟨-, h6⟩
      rw [h6]
  · rw [hout]
    dsimp only
    constructor
    · intro heq
      have hlen := congrArg List.length heq
      rw [List.length_drop] at hlen
      omega
    · rintro ⟨⟨key, ha⟩, -⟩
      exact absurd ha (hna off key)

/-- When the framing of a frame agrees with the Length field. If the classifier emits it, then never.
If Enc re-encapsulates it, then exactly when the saved header says 6, which no header of a proxy rule
does. If it is received, then Dec strips what the field says exactly when it accepts the frame and the
field says 6. -/
theorem framing_iff (build : Build) (k : Kernel) (src_mac : SrcMac)
    (cls_table : ClsTable) (m : NodeMaps) (frame : Bytes) :
    ((classifyTc build k src_mac cls_table frame).ret = cbRetok .RET_TX →
      ¬ InnerAtLength frame (classifyTc build k src_mac cls_table frame).frame) ∧
    (∀ key nsh, load16 frame 12 = htons ETH_P_IP →
      getTuple (frame.drop 14) = some key → m.nsh_data.lookup key = some nsh →
      (encapNsh k m frame).ret.code = .unspec →
      (InnerAtLength frame (encapNsh k m frame).frame ↔ lengthField nsh.1 0 = 6)) ∧
    (∀ sph junk, lengthField (proxyNsh sph junk).1 0 = 2) ∧
    (∀ off, ReceivedNsh frame off →
      ((decapNsh m.src_mac m.nsh_data frame).frame = frame.drop (off + 4 * lengthField frame off) ↔
        (∃ key, Accepts m.src_mac.ingress frame off key) ∧ lengthField frame off = 6)) := by
  refine ⟨fun htx => ?_, fun key nsh hip hkey hn hcode => ?_, lengthField_proxyNsh,
    fun off h => strips_length_iff h⟩
  · obtain ⟨hl, key, cls, -, -, hframe⟩ := classifyTc_frame htx
    rw [hframe, innerAtLength_iff _ _ _ (by omega), clsNsh_eq, lengthField_proxyNsh]
    omega
  · have hl := header_of_getTuple hkey
    rw [encapNsh_saved hl hip hkey hn] at hcode ⊢
    -- Only the exit of a re-encapsulation has the code.
    split_ifs at hcode ⊢
    · simp at hcode
    · simp at hcode
    · rw [innerAtLength_iff _ _ _ (by omega), lengthField_withPath]
    · simp at hcode

/-- An NSH of chain 1 whose Length is that of its 24 bytes. -/
def sixNsh : Nsh := ⟨[0x0F, 0xC6, 0x01, 0x03, 0, 0, 0x01, 0xFF] ++ List.replicate 16 0, rfl⟩

/-- The middle node with a header for the ICMP packet. -/
def nodeWith (nsh : Nsh) : NodeMaps :=
  { middleNode with nsh_data := BoundedMap.empty.put pingHostKey.toNetwork nsh }

/-- The ICMP packet at the middle node: with a header that says 6, Enc and Dec agree with the Length,
and with one that says 2, neither of them does. -/
theorem framing_iff_ping :
    (InnerAtLength pingFrame (encapNsh grantingKernel (nodeWith sixNsh) pingFrame).frame ∧
      ¬ InnerAtLength pingFrame
        (encapNsh grantingKernel (nodeWith (proxyNsh 0x1FF noContext)) pingFrame).frame) ∧
    (decapNsh middleNode.src_mac middleNode.nsh_data
        (nshFrame nodeMac nodeMac' sixNsh pingFrame)).frame =
      (nshFrame nodeMac nodeMac' sixNsh pingFrame).drop
        (14 + 4 * lengthField (nshFrame nodeMac nodeMac' sixNsh pingFrame) 14) ∧
    (decapNsh middleNode.src_mac middleNode.nsh_data
        (nshFrame nodeMac nodeMac' (proxyNsh 0x1FF noContext) pingFrame)).frame ≠
      (nshFrame nodeMac nodeMac' (proxyNsh 0x1FF noContext) pingFrame).drop
        (14 + 4 * lengthField (nshFrame nodeMac nodeMac' (proxyNsh 0x1FF noContext) pingFrame) 14) := by
  have hsent (nsh : Nsh) := (framing_iff .tc grantingKernel ⟨zeroMac, nodeMac'⟩ pingTable
    (nodeWith nsh) pingFrame).2.1 pingHostKey.toNetwork nsh (by decide) (by decide)
    (BoundedMap.lookup_put_self nsh (Or.inr (by decide)))
  have hreceived (nsh : Nsh) := (framing_iff .tc grantingKernel ⟨zeroMac, nodeMac'⟩ pingTable
    middleNode (nshFrame nodeMac nodeMac' nsh pingFrame)).2.2.2 14
  refine ⟨⟨(hsent sixNsh (by decide)).2 (by decide), fun h => ?_⟩, ?_, fun h => ?_⟩
  · exact absurd ((hsent _ (by decide)).1 h) (by decide)
  · -- The frame is addressed to the node, and `get_tuple` reads its inner packet.
    have haccepts : Accepts middleNode.src_mac.ingress
        (nshFrame nodeMac nodeMac' sixNsh pingFrame) 14 pingHostKey.toNetwork :=
      accepts_nshFrame (by decide) (by decide) (by decide) (by decide)
    exact (hreceived sixNsh ⟨by decide, by decide, by decide, by decide⟩).2
      ⟨⟨_, haccepts⟩, by decide⟩
  · exact absurd ((hreceived _ ⟨by decide, by decide, by decide, by decide⟩).1 h).2 (by decide)

/-- An ICMP packet of a known flow. -/
theorem not_innerAtLength_ping :
    (classifyTc .tc grantingKernel ⟨zeroMac, nodeMac'⟩ pingTable pingFrame).ret = cbRetok .RET_TX ∧
      ¬ InnerAtLength pingFrame
        (classifyTc .tc grantingKernel ⟨zeroMac, nodeMac'⟩ pingTable pingFrame).frame := by
  decide

end ChainingBox
