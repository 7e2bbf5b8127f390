import ChainingBox.Dataplane.Egress

/-!
# The service index bounds a packet's travel

A packet is followed from node to node, under any forwarding tables: the rules may be inconsistent,
or send it around in a circle. At each node Dec saves its NSH, the service function returns it as it
is, and the egress stages re-encapsulate it or do not. Whatever entry for its flow a node held
before, Enc finds the NSH that Dec has just written, or none at all when the table was full. So each
re-encapsulation is on the path that the packet came with and takes one from its service index
(`nodeVisit_spec`), and there are at most as many as the index it started with (`travel_bounded`).
-/

namespace ChainingBox

open Lib

/-- The service path header that a frame carries behind its EtherType, or behind an 802.1Q tag. -/
def arrivalPath (frame : Bytes) : BitVec 32 :=
  Nsh.path (slice frame (if htons (load16 frame 12) = ETH_P_8021Q then 18 else 14) 24)

/-- The header of a frame that Dec accepts is the one that it saves. -/
theorem arrivalPath_of_accepts {mac : Mac} {frame : Bytes} {off : ℕ} {key : Ip5tuple}
    (h : Accepts mac frame off key) : arrivalPath frame = Nsh.path (slice frame off 24) := by
  rw [arrivalPath, ← nsh_place h.place]

theorem arrivalPath_nshFrame (dst src : Mac) (nsh : Nsh) (inner : Bytes) :
    arrivalPath (nshFrame dst src nsh inner) = nsh.path := by
  have hproto : htons (htons ETH_P_NSH) = ETH_P_NSH := bswap16_bswap16 _
  rw [arrivalPath, load16_nshFrame, hproto, if_neg ETH_P_NSH_ne, slice_nshFrame]

/-- What a visit of the packet to a node leaves: the table, the frame that Enc re-encapsulated, and
the encapsulated frame that left the node. -/
structure NodeVisit where
  nsh_data : NshData
  reencapsulated : Option Bytes
  sent : Option Bytes

/-- A visit: Dec, and if it passed the packet up decapsulated, a service function that returns it
as it is, Enc, and Fwd. -/
def nodeVisit (k : Kernel) (m : NodeMaps) (frame : Bytes) : NodeVisit :=
  let dec := decapNsh m.src_mac m.nsh_data frame
  if dec.ret.code = .pass ∧ dec.frame ≠ frame then
    let m := { m with nsh_data := dec.nsh_data }
    let enc := encapNsh k m dec.frame
    { nsh_data := dec.nsh_data
      reencapsulated := if enc.ret.code = .unspec then some enc.frame else none
      sent := match egress k m dec.frame with
        | .chained f => some f
        | _ => none }
  else ⟨dec.nsh_data, none, none⟩

/-- The nodes with another `nsh_data` at one of them. -/
def withNshData {ι : Type} [DecidableEq ι] (net : ι → NodeMaps) (n : ι) (nsh_data : NshData) :
    ι → NodeMaps :=
  Function.update net n { net n with nsh_data := nsh_data }

/-- The re-encapsulations of the packet along a route, each with the frame that arrived. The packet
goes on from a node while an encapsulated frame leaves it, to whatever node is next. -/
def travel {ι : Type} [DecidableEq ι] (k : ι → Kernel) :
    (ι → NodeMaps) → Bytes → List ι → List (Bytes × Bytes)
  | _, _, [] => []
  | net, frame, n :: route =>
    let v := nodeVisit (k n) (net n) frame
    v.reencapsulated.toList.map (frame, ·) ++
      match v.sent with
      | none => []
      | some f => travel k (withNshData net n v.nsh_data) f route

/-! ## One visit -/

/-- A header is one hop behind another: the same SPI, and a service index that is one less. -/
def OneHopOn (arrived next : BitVec 32) : Prop :=
  siOf arrived ≠ 0 ∧ spiOf next = spiOf arrived ∧ siOf next = siOf arrived - 1

/-- The service index of a header one hop on, as a number. -/
theorem OneHopOn.toNat {arrived next : BitVec 32} (h : OneHopOn arrived next) :
    (siOf next).toNat + 1 = (siOf arrived).toNat := by
  obtain ⟨hne, -, hsi⟩ := h
  have hpos : 0 < (siOf arrived).toNat :=
    Nat.pos_of_ne_zero fun h0 => hne (BitVec.eq_of_toNat_eq h0)
  have hlt := (siOf arrived).isLt
  have hone : (1 : BitVec 32).toNat = 1 := rfl
  rw [hsi, BitVec.toNat_sub, hone]
  omega

/-- A frame that Enc re-encapsulates under an NSH carries its path, one hop on. -/
theorem oneHopOn_nshFrame (dst src : Mac) {nsh : Nsh} (inner : Bytes) (h : siOf nsh.path ≠ 0) :
    OneHopOn nsh.path (arrivalPath (nshFrame dst src (nsh.withPath (nsh.path - 1)) inner)) := by
  rw [arrivalPath_nshFrame, Nsh.path_withPath]
  exact ⟨h, path_sub_one h⟩

/-- Enc and Fwd on a frame under a saved NSH: what Enc re-encapsulates, and what leaves, carries the
saved path one hop on; and nothing leaves that Enc has not re-encapsulated. -/
theorem egress_oneHopOn {k : Kernel} {m : NodeMaps} {frame : Bytes} {key : Ip5tuple} {nsh : Nsh}
    (hl : 34 ≤ frame.length) (hip : load16 frame 12 = htons ETH_P_IP)
    (ht : getTuple (frame.drop 14) = some key) (hn : m.nsh_data.lookup key = some nsh) :
    ((encapNsh k m frame).ret.code = .unspec →
      OneHopOn nsh.path (arrivalPath (encapNsh k m frame).frame)) ∧
    (∀ f, egress k m frame = .chained f → (encapNsh k m frame).ret.code = .unspec ∧
      OneHopOn nsh.path (arrivalPath f)) := by
  rw [egress_saved hl hip ht hn, encapNsh_saved hl hip ht hn, egressSpec]
  by_cases hsi : siOf nsh.path = 0
  · simp [hsi]
  rw [if_neg hsi, if_neg hsi]
  constructor
  · intro hcode
    split_ifs at hcode ⊢
    · simp at hcode
    · exact oneHopOn_nshFrame _ _ frame hsi
    · simp at hcode
  · -- The frame leaves under an entry that is no end of a chain.
    intro f hf
    cases he : m.fwd_table.lookup (htonl (nsh.path - 1)) with
    | none =>
      rw [he] at hf
      simp at hf
    | some e =>
      rw [he] at hf
      dsimp only at hf
      split_ifs at hf with hend hk
      rw [← Egress.chained.inj hf]
      simp only [Option.any_some, hend, Bool.false_eq_true, if_false, hk, if_true, cbRetok_code,
        true_and]
      exact oneHopOn_nshFrame _ _ frame hsi

/-- One visit, under any tables: what Enc re-encapsulates and what leaves the node is one hop on from
what arrived, and nothing leaves encapsulated that Enc has not re-encapsulated. -/
theorem nodeVisit_spec (k : Kernel) (m : NodeMaps) (frame : Bytes) :
    (∀ g, (nodeVisit k m frame).reencapsulated = some g →
      OneHopOn (arrivalPath frame) (arrivalPath g)) ∧
    (∀ f, (nodeVisit k m frame).sent = some f → (nodeVisit k m frame).reencapsulated.isSome ∧
      OneHopOn (arrivalPath frame) (arrivalPath f)) := by
  unfold nodeVisit
  rcases decapNsh_cases m.src_mac m.nsh_data frame with ⟨off, key, ha, hout⟩ | ⟨-, code, hout⟩
  · have htup := ha.stripped_tuple
    have hlen := header_of_getTuple htup
    have hne := ha.stripped_ne
    rw [hout, arrivalPath_of_accepts ha]
    simp only [cbRetok_code, ne_eq, hne, not_false_eq_true, and_self, if_true]
    set m' : NodeMaps := { m with nsh_data := m.nsh_data.put key (slice frame off 24) } with hm'
    by_cases hip : load16 (frame.drop (off + 24)) 12 = htons ETH_P_IP
    · cases hlook : m'.nsh_data.lookup key with
      | none =>
        -- The table was full, and the packet leaves the chain.
        rw [encapNsh_unsaved hlen hip htup hlook, egress_unsaved hlen hip htup hlook]
        simp
      | some nsh =>
        -- What is there is what Dec has just written.
        obtain rfl : nsh = slice frame off 24 := by
          rw [hm'] at hlook
          exact BoundedMap.eq_of_lookup_put_self hlook
        obtain ⟨henc, hsent⟩ := egress_oneHopOn (k := k) hlen hip htup hlook
        constructor
        · intro g hg
          split_ifs at hg with hcode
          rw [← Option.some.inj hg]
          exact henc hcode
        · intro f hf
          split at hf
          · next f' hchained =>
            obtain ⟨hcode, hhop⟩ := hsent f' hchained
            rw [if_pos hcode, ← Option.some.inj hf]
            exact ⟨rfl, hhop⟩
          · simp at hf
    · rw [encapNsh_not_ip hip, egress_not_ip hip]
      simp
  · rw [hout]
    simp

/-! ## A journey -/

/-- A single NSH packet, from node to node under any tables: every re-encapsulation is one hop on
from the frame that arrived, and there are at most as many as the service index of the first
frame. -/
theorem travel_bounded {ι : Type} [DecidableEq ι] (k : ι → Kernel) (net : ι → NodeMaps)
    (frame : Bytes) (route : List ι) :
    (travel k net frame route).length ≤ (siOf (arrivalPath frame)).toNat ∧
      ∀ p ∈ travel k net frame route, OneHopOn (arrivalPath p.1) (arrivalPath p.2) := by
  induction route generalizing net frame with
  | nil => exact ⟨Nat.zero_le _, fun p hp => by simp [travel] at hp⟩
  | cons n route ih =>
    obtain ⟨hre, hsent⟩ := nodeVisit_spec (k n) (net n) frame
    rw [travel]
    cases hr : (nodeVisit (k n) (net n) frame).reencapsulated with
    | none =>
      -- Without a re-encapsulation nothing is sent on.
      have hnone : (nodeVisit (k n) (net n) frame).sent = none := by
        by_contra hne
        obtain ⟨f, hf⟩ := Option.ne_none_iff_exists'.1 hne
        rw [hr] at hsent
        exact absurd (hsent f hf).1 (by simp)
      rw [hnone]
      simp
    | some g =>
      have hhop := hre g hr
      have hless := hhop.toNat
      cases hs : (nodeVisit (k n) (net n) frame).sent with
      | none =>
        refine ⟨?_, fun p hp => ?_⟩
        · show 1 ≤ _
          omega
        · obtain rfl : p = (frame, g) := by simpa using hp
          exact hhop
      | some f =>
        obtain ⟨hlen, hall⟩ := ih (withNshData net n (nodeVisit (k n) (net n) frame).nsh_data) f
        -- What goes on has one less to spend.
        have hnext := (hsent f hs).2.toNat
        refine ⟨?_, fun p hp => ?_⟩
        · simp only [Option.toList_some, List.map_cons, List.map_nil, List.cons_append,
            List.nil_append, List.length_cons]
          omega
        · rcases List.mem_cons.1 hp with rfl | hmem
          · exact hhop
          · exact hall p hmem

end ChainingBox
