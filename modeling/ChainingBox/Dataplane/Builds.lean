import ChainingBox.Dataplane.Classifier

/-!
# The two builds of the classifier

On TC the kernel fills the room for the encapsulation with zeros; on XDP it exposes whatever bytes
were in front of the frame. The classifier writes 22 of the 38 bytes: both addresses, the EtherType,
and the first eight bytes of the NSH. The other 16 are the context of the NSH, and on XDP they go
out as they were found. `builds_agree_iff` says that nothing else is different.
-/

namespace ChainingBox

open Lib

/-- A kernel that grants all room, and exposes these bytes in front of a frame. -/
def roomKernel (old : ByteVec 38) : Kernel := ⟨fun _ => true, fun _ => some old⟩

/-- The builds agree on a frame, whatever was in front of it: the XDP build does what the TC build
does, and does the same over other old bytes. -/
def BuildsAgree (src_mac : SrcMac) (cls_table : ClsTable) (frame : Bytes) (old old' : ByteVec 38) :
    Prop :=
  let tc := classifyTc .tc (roomKernel old) src_mac cls_table frame
  let xdp := classifyTc .xdp (roomKernel old) src_mac cls_table frame
  let xdp' := classifyTc .xdp (roomKernel old') src_mac cls_table frame
  xdp.ret = tc.ret ∧ xdp.frame = tc.frame ∧ xdp'.ret = xdp.ret ∧ xdp'.frame = xdp.frame

/-- The old bytes that come to lie in the context of the NSH are zero. -/
def CleanContext (old : ByteVec 38) : Prop := old.1.drop 22 = List.replicate 16 0

instance (old : ByteVec 38) : Decidable (CleanContext old) :=
  inferInstanceAs (Decidable (_ = _))

/-- The headers of proxy rules with one path differ in their context only. -/
theorem proxyNsh_inj {sph : BitVec 32} {junk junk' : ByteVec 16} :
    proxyNsh sph junk = proxyNsh sph junk' ↔ junk = junk' := by
  constructor
  · intro h
    have hcontext := congrArg (fun n : Nsh => n.1.drop 8) h
    exact Subtype.ext hcontext
  · exact congrArg (proxyNsh sph)

/-- Encapsulated frames that differ in the NSH only. -/
theorem nshFrame_inj {dst src : Mac} {nsh nsh' : Nsh} {inner : Bytes} :
    nshFrame dst src nsh inner = nshFrame dst src nsh' inner ↔ nsh = nsh' := by
  constructor
  · intro h
    calc nsh = slice (nshFrame dst src nsh inner) 14 24 := (slice_nshFrame _ _ _ _).symm
      _ = slice (nshFrame dst src nsh' inner) 14 24 := by rw [h]
      _ = nsh' := slice_nshFrame _ _ _ _
  · exact fun h => by rw [h]

/-- The context that the TC build finds in its room. -/
theorem context_roomNsh_tc (k : Kernel) (frame : Bytes) :
    (roomNsh .tc k frame).context = noContext := rfl

/-- The context that the XDP build finds in its room. -/
theorem context_roomNsh_xdp (old : ByteVec 38) (frame : Bytes) :
    (roomNsh .xdp (roomKernel old) frame).context.1 = old.1.drop 22 := by
  have hold := old.2
  have hall : (old.1.drop 14).take 24 = old.1.drop 14 :=
    List.take_of_length_le (by rw [List.length_drop, hold])
  show (slice old.1 14 24).1.drop 8 = _
  rw [slice_eq_take (by omega), hall, List.drop_drop]

/-- On a frame that the classifier encapsulates, each build emits the entry's headers with the context
it found. -/
theorem classifyTc_of_classified {src_mac : SrcMac} {cls_table : ClsTable} {frame : Bytes}
    (h : Classified cls_table frame) : ∃ cls : ClsEntry, ∀ build old,
      classifyTc build (roomKernel old) src_mac cls_table frame =
        ⟨cbRetok .RET_TX, nshFrame cls.next_hop src_mac.egress
          (proxyNsh (htonl cls.sph) (roomNsh build (roomKernel old) frame).context) frame⟩ := by
  obtain ⟨hl, hip, key, cls, ht, hc⟩ := h
  refine ⟨cls, fun build old => ?_⟩
  have hroom : ∃ room, clsAdjust build (roomKernel old) frame = some room := by
    cases build with
    | tc =>
      rw [clsAdjust, bpfSkbAdjustRoom, roomKernel, if_pos rfl]
      exact ⟨_, rfl⟩
    | xdp => exact ⟨old.1 ++ frame, rfl⟩
  obtain ⟨room, hr⟩ := hroom
  rw [classifyTc_of_entry hl hip ht hc hr, clsNsh_eq]

/-- On a frame that the classifier encapsulates, the builds agree exactly over clean contexts. -/
theorem buildsAgree_of_classified {src_mac : SrcMac} {cls_table : ClsTable} {frame : Bytes}
    (h : Classified cls_table frame) (old old' : ByteVec 38) :
    BuildsAgree src_mac cls_table frame old old' ↔ CleanContext old ∧ CleanContext old' := by
  obtain ⟨cls, hout⟩ := @classifyTc_of_classified src_mac _ _ h
  have hx := context_roomNsh_xdp old frame
  have hx' := context_roomNsh_xdp old' frame
  unfold BuildsAgree CleanContext
  rw [hout, hout, hout, ← hx, ← hx', context_roomNsh_tc]
  dsimp only
  simp only [nshFrame_inj, proxyNsh_inj, true_and]
  have hzero : (noContext : ByteVec 16).1 = List.replicate 16 0 := rfl
  rw [← hzero]
  constructor
  · rintro ⟨h1, h2⟩
    rw [h1] at h2
    exact ⟨congrArg Subtype.val h1, congrArg Subtype.val h2⟩
  · rintro ⟨h1, h2⟩
    have e1 := Subtype.ext h1
    have e2 := Subtype.ext h2
    exact ⟨e1, e2.trans e1.symm⟩

/-- The builds agree on a frame exactly when it is none that the classifier encapsulates, or the old
bytes where the context of the NSH comes to lie are zero. -/
theorem builds_agree_iff (src_mac : SrcMac) (cls_table : ClsTable) (frame : Bytes)
    (old old' : ByteVec 38) :
    BuildsAgree src_mac cls_table frame old old' ↔
      ¬ Classified cls_table frame ∨ CleanContext old ∧ CleanContext old' := by
  by_cases h : Classified cls_table frame
  · rw [buildsAgree_of_classified h]
    tauto
  · obtain ⟨code, f, hall⟩ := @classifyTc_of_not_classified src_mac _ _ h
    have hagree : BuildsAgree src_mac cls_table frame old old' := by
      unfold BuildsAgree
      rw [hall, hall, hall]
      exact ⟨rfl, rfl, rfl, rfl⟩
    simp only [hagree, h, not_false_eq_true, true_or]

/-- An ICMP packet of a known flow, with an old byte in front of it. -/
theorem not_builds_agree_dirty :
    ¬ BuildsAgree ⟨zeroMac, nodeMac'⟩ pingTable pingFrame
      ⟨List.replicate 37 0 ++ [0xA5], rfl⟩ ⟨List.replicate 38 0, rfl⟩ := by
  have hcls : Classified pingTable pingFrame :=
    ⟨by decide, by decide, ⟨0x0100000A, 0x0200000A, 0, 0, IPPROTO_ICMP⟩, ⟨htonl 0x1FF, nodeMac⟩,
      by decide, by decide⟩
  rw [buildsAgree_of_classified hcls]
  decide

end ChainingBox
