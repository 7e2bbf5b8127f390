import ChainingBox.Dataplane.ServicePath

/-!
# The egress pipeline

The decision about a frame that leaves a service function is spread over two programs: `encap_nsh`
looks up the forwarding entry of the decremented service path header, and if it re-encapsulates the
frame, `sfc_forwarding` looks up the header it finds in the frame. `egress_complete` puts the two
together: what is sent depends only on the SI of the saved NSH and on the entry of the SPI and the
next SI, the two lookups never disagree, and an encapsulated frame leaves only under an entry for
the header it carries.

`Readdressed` and `ReEncapsulated` say what is sent by the bytes of the frame.
-/

namespace ChainingBox

open Lib

/-- The service path header of an SPI and an SI. -/
def pathOf (spi si : BitVec 32) : BitVec 32 := spi <<< 8 ||| si

/-- A service path header is that of its SPI and its SI. -/
theorem pathOf_spiOf_siOf (sph : BitVec 32) : pathOf (spiOf sph) (siOf sph) = sph := by
  have hlt := sph.isLt
  have hlow : (siOf sph).toNat / 256 = 0 := by
    rw [siOf_toNat]
    omega
  rw [← BitVec.toNat_inj, pathOf, toNat_or_shift, hlow, Nat.or_zero, siOf_toNat, spiOf,
    BitVec.toNat_ushiftRight, Nat.shiftRight_eq_div_pow]
  omega

/-- Decrementing a service path header whose SI is not zero decrements the SI. -/
theorem pathOf_sub_one {sph : BitVec 32} (h : siOf sph ≠ 0) :
    pathOf (spiOf sph) (siOf sph - 1) = sph - 1 := by
  obtain ⟨hspi, hsi⟩ := path_sub_one h
  calc pathOf (spiOf sph) (siOf sph - 1) = pathOf (spiOf (sph - 1)) (siOf (sph - 1)) := by
        rw [hspi, hsi]
    _ = sph - 1 := pathOf_spiOf_siOf _

/-- The forwarding entry for an SPI and an SI. -/
def FwdTable.entry (t : FwdTable) (spi si : BitVec 32) : Option FwdEntry :=
  t.lookup (htonl (pathOf spi si))

/-- `out` is `frame` with the source address `src`, and otherwise unchanged. -/
structure Readdressed (src : Mac) (frame out : Bytes) : Prop where
  dst : out.take 6 = frame.take 6
  src : slice out 6 6 = src
  rest : out.drop 12 = frame.drop 12

/-- `out` is `frame` in an outer Ethernet header and an NSH. -/
structure ReEncapsulated (src dst : Mac) (spi si : BitVec 32) (frame out : Bytes) : Prop where
  dst : slice out 0 6 = dst
  src : slice out 6 6 = src
  ethertype : load16 out 12 = htons ETH_P_NSH
  spi : spiOf (Nsh.path (slice out 14 24)) = spi
  si : siOf (Nsh.path (slice out 14 24)) = si
  inner : out.drop 38 = frame

/-- Overwriting the source address. -/
theorem readdressed_store (src : Mac) {frame : Bytes} (h : 12 ≤ frame.length) :
    Readdressed src frame (store frame 6 src.1) := by
  have hsrc : src.1.length = 6 := src.2
  have hpre : (frame.take 6).length = 6 := by
    rw [List.length_take]
    omega
  refine ⟨take_store (le_refl 6) (by omega), ?_, drop_store (by omega) (by omega)⟩
  apply Subtype.ext
  rw [store, List.append_assoc]
  exact slice_mid hpre hsrc

/-- The source address of an encapsulated frame. -/
theorem slice_nshFrame_src (dst src : Mac) (nsh : Nsh) (inner : Bytes) :
    slice (nshFrame dst src nsh inner) 6 6 = src :=
  Subtype.ext (slice_mid dst.2 src.2)

theorem reEncapsulated_nshFrame (dst src : Mac) (nsh : Nsh) (inner : Bytes) :
    ReEncapsulated src dst (spiOf nsh.path) (siOf nsh.path) inner
      (nshFrame dst src nsh inner) where
  dst := slice_nshFrame_dst dst src nsh inner
  src := slice_nshFrame_src dst src nsh inner
  ethertype := load16_nshFrame dst src nsh inner
  spi := by rw [slice_nshFrame]
  si := by rw [slice_nshFrame]
  inner := drop_nshFrame_38 dst src nsh inner

/-- The decision of the egress stages about a frame whose saved NSH has the SPI `spi` and the SI
`si`. -/
structure EgressDecision (m : NodeMaps) (spi si : BitVec 32) (frame : Bytes) (out : Egress) :
    Prop where
  /-- At the end of the service index the frame is dropped. -/
  exhausted : si = 0 → out = .dropped
  /-- At an end of chain only the source address changes. -/
  last : ∀ e, si ≠ 0 → m.fwd_table.entry spi (si - 1) = some e → e.isEnd →
    ∃ f, out = .plain f ∧ Readdressed m.src_mac.egress frame f
  /-- Before it the whole frame is encapsulated for the next hop, on the same path. -/
  next : ∀ e, si ≠ 0 → m.fwd_table.entry spi (si - 1) = some e → ¬ e.isEnd →
    ∃ f, out = .chained f ∧
      ReEncapsulated m.src_mac.egress e.address spi (si - 1) frame f
  /-- Without an entry the frame is dropped. -/
  unknown : si ≠ 0 → m.fwd_table.entry spi (si - 1) = none → out = .dropped

/-- The specification of the two stages decides so. -/
theorem egressDecision_egressSpec {k : Kernel} {m : NodeMaps} {nsh : Nsh} {frame : Bytes}
    (hl : 12 ≤ frame.length) (hk : k.grantsRoom frame) :
    EgressDecision m (spiOf nsh.path) (siOf nsh.path) frame (egressSpec k m nsh frame) := by
  -- The entry is looked up under the decremented header.
  have hentry (hsi : siOf nsh.path ≠ 0) :
      m.fwd_table.entry (spiOf nsh.path) (siOf nsh.path - 1) =
        m.fwd_table.lookup (htonl (nsh.path - 1)) := by
    rw [FwdTable.entry, pathOf_sub_one hsi]
  constructor
  · intro hsi
    rw [egressSpec, if_pos hsi]
  · intro e hsi he hend
    rw [hentry hsi] at he
    refine ⟨_, ?_, readdressed_store m.src_mac.egress hl⟩
    rw [egressSpec, if_neg hsi, he]
    exact if_pos hend
  · intro e hsi he hend
    rw [hentry hsi] at he
    have hsent := reEncapsulated_nshFrame e.address m.src_mac.egress
      (nsh.withPath (nsh.path - 1)) frame
    obtain ⟨hspi, hsi'⟩ := path_sub_one hsi
    rw [Nsh.path_withPath, hspi, hsi'] at hsent
    refine ⟨_, ?_, hsent⟩
    rw [egressSpec, if_neg hsi, he]
    exact (if_neg hend).trans (if_pos hk)
  · intro hsi he
    rw [hentry hsi] at he
    rw [egressSpec, if_neg hsi, he]

/-- When Enc hands a frame on to Fwd, the header it wrote has no end entry. -/
theorem not_isEnd_of_unspec {k : Kernel} {m : NodeMaps} {frame : Bytes} {key : Ip5tuple} {nsh : Nsh}
    (hl : 34 ≤ frame.length) (hip : load16 frame 12 = htons ETH_P_IP)
    (ht : getTuple (frame.drop 14) = some key) (hn : m.nsh_data.lookup key = some nsh)
    (hcode : (encapNsh k m frame).ret.code = .unspec) :
    ∀ e, m.fwd_table.lookup (load32 (encapNsh k m frame).frame (14 + 4)) = some e → ¬ e.isEnd := by
  rw [encapNsh_saved hl hip ht hn] at hcode ⊢
  by_cases hsi : siOf nsh.path = 0
  · simp [hsi] at hcode
  by_cases hany : (m.fwd_table.lookup (htonl (nsh.path - 1))).any FwdEntry.isEnd
  · simp only [hsi, if_false, hany, if_true, cbRetok_code, reduceCtorEq] at hcode
  by_cases hroom : k.grantsRoom frame
  · -- The header in the frame is the one that Enc has just looked up.
    rw [if_neg hsi, if_neg hany, if_pos hroom, load32_nshFrame, Nsh.path_withPath]
    intro e he hend
    rw [he] at hany
    exact hany hend
  · simp only [hsi, hany, hroom, if_false, cbRetother_code, reduceCtorEq] at hcode

/-- A frame that leaves encapsulated has an entry for the header it carries, and not an end. -/
theorem entry_of_chained {k : Kernel} {m : NodeMaps} {nsh : Nsh} {frame f : Bytes}
    (h : egressSpec k m nsh frame = .chained f) :
    ∃ e, m.fwd_table.lookup (load32 f (14 + 4)) = some e ∧ ¬ e.isEnd := by
  unfold egressSpec at h
  by_cases hsi : siOf nsh.path = 0
  · rw [if_pos hsi] at h
    simp at h
  rw [if_neg hsi] at h
  cases he : m.fwd_table.lookup (htonl (nsh.path - 1)) with
  | none =>
    rw [he] at h
    simp at h
  | some e =>
    rw [he] at h
    dsimp only at h
    split_ifs at h with hend
    refine ⟨e, ?_, hend⟩
    rw [← Egress.chained.inj h, load32_nshFrame, Nsh.path_withPath, he]

/-- The egress pipeline on an IPv4 frame whose flow has a saved NSH, at a node whose tables do not
change between the two stages and whose kernel grants the room: the decision is that of the entry
for the SPI and the next SI, Fwd never finds an end of chain, and no encapsulated frame leaves
without an entry for its header. -/
theorem egress_complete (k : Kernel) (m : NodeMaps) (frame : Bytes) (key : Ip5tuple) (nsh : Nsh)
    (hip : load16 frame 12 = htons ETH_P_IP) (hkey : getTuple (frame.drop 14) = some key)
    (hsaved : m.nsh_data.lookup key = some nsh) (hroom : k.grantsRoom frame) :
    EgressDecision m (spiOf nsh.path) (siOf nsh.path) frame (egress k m frame) ∧
    ((encapNsh k m frame).ret.code = .unspec →
      ∀ e, m.fwd_table.lookup (load32 (encapNsh k m frame).frame (14 + 4)) = some e →
        ¬ e.isEnd) ∧
    (∀ f, egress k m frame = .chained f →
      ∃ e, m.fwd_table.lookup (load32 f (14 + 4)) = some e ∧ ¬ e.isEnd) := by
  have hl := header_of_getTuple hkey
  have hsent := egress_saved (k := k) hl hip hkey hsaved
  refine ⟨?_, not_isEnd_of_unspec hl hip hkey hsaved, fun f hf => ?_⟩
  · rw [hsent]
    exact egressDecision_egressSpec (by omega) hroom
  · rw [hsent] at hf
    exact entry_of_chained hf

/-- The middle node of chain 1, with an NSH saved for the flow of `pingFrame`. -/
def savedNode : NodeMaps :=
  { middleNode with nsh_data := BoundedMap.empty.put pingKey (proxyNsh 0x1FF noContext) }

theorem egress_complete_ping :
    EgressDecision savedNode (spiOf (proxyNsh 0x1FF noContext).path)
      (siOf (proxyNsh 0x1FF noContext).path) pingFrame (egress grantingKernel savedNode pingFrame) ∧
    ((encapNsh grantingKernel savedNode pingFrame).ret.code = .unspec →
      ∀ e, savedNode.fwd_table.lookup
        (load32 (encapNsh grantingKernel savedNode pingFrame).frame (14 + 4)) = some e →
        ¬ e.isEnd) ∧
    (∀ f, egress grantingKernel savedNode pingFrame = .chained f →
      ∃ e, savedNode.fwd_table.lookup (load32 f (14 + 4)) = some e ∧ ¬ e.isEnd) :=
  egress_complete grantingKernel savedNode pingFrame pingKey _ (by decide) (by decide)
    (BoundedMap.lookup_put_self _ (Or.inr (by decide))) rfl

end ChainingBox
