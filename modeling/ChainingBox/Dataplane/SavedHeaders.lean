import ChainingBox.Lib.Runs
import ChainingBox.Control.Agent

/-!
# Dec saves what it strips, while the table has room

`nsh_data` is filled by Dec, one entry for each flow it sees, and by the agent's proxy rules, and
entries are never removed. Dec looks at the result of its update only for a debug print, and strips
the frame whatever the result is. `stripsSaved_iff` is the exact condition of a single run of Dec:
the stripped NSH is in the table afterwards if and only if the table had an entry for the flow or
room for one. `decap_saves_iff` states it for every table that a node can come to, and along whole
runs, and `not_stripsSaved_of_full` shows it failing in a table that 2048 proxy rules fill.
-/

namespace ChainingBox

open Lib

/-- What writes to the `nsh_data` of a node: Dec on a received frame, and a proxy rule. -/
inductive NshEvent
  | received (src_mac : SrcMac) (frame : Bytes)
  | proxyRule (key : Ip5tuple) (sph : BitVec 32) (junk : ByteVec 16)

/-- One write. -/
def nshStep (nd : NshData) : NshEvent → NshData
  | .received sm frame => (decapNsh sm nd frame).nsh_data
  | .proxyRule key sph junk => (addProxyRule nd key sph junk).getD nd

/-- A run of Dec strips no NSH that it has not saved. If it passes another frame up than the one
received, then what it removed ends with an NSH, and `nsh_data` maps the 5-tuple of the inner packet
to that NSH; otherwise frame and table are unchanged. -/
def StripsSaved (sm : SrcMac) (nd : NshData) (frame : Bytes) : Prop :=
  let out := decapNsh sm nd frame
  if out.ret.code = .pass ∧ out.frame ≠ frame then
    ∃ (outer : Bytes) (nsh : Nsh) (key : Ip5tuple), frame = outer ++ (nsh.1 ++ out.frame) ∧
      (outer.length = 14 ∨ outer.length = 18) ∧ getTuple (out.frame.drop 14) = some key ∧
      out.nsh_data.lookup key = some nsh
  else out.frame = frame ∧ out.nsh_data = nd

/-- The flow of a frame that Dec accepts has an entry, or the table has room for one. -/
def FlowFits (sm : SrcMac) (nd : NshData) (frame : Bytes) : Prop :=
  ∀ off key, Accepts sm.ingress frame off key → nd.Room key

/-- The exact condition of one run. -/
theorem stripsSaved_iff (sm : SrcMac) (nd : NshData) (frame : Bytes) :
    StripsSaved sm nd frame ↔ FlowFits sm nd frame := by
  unfold StripsSaved
  rcases decapNsh_cases sm nd frame with ⟨off, key, ha, hout⟩ | ⟨hna, code, hout⟩
  · have hroom := ha.room
    have hoff : off = 14 ∨ off = 18 := by rcases ha.place with ⟨-, h⟩ | ⟨-, -, h⟩ <;> omega
    have hne := ha.stripped_ne
    have htup := ha.stripped_tuple
    rw [hout]
    simp only [cbRetok_code, ne_eq, hne, not_false_eq_true, and_self, if_true]
    constructor
    · -- The entry that is there was written by this run, so the write was not refused.
      rintro ⟨outer, nsh, key', hsplit, hlen, htup', hlook⟩ off' key'' ha'
      obtain ⟨-, rfl⟩ := ha.unique ha'
      have hkey : key' = key := Option.some.inj (htup'.symm.trans htup)
      by_contra hfull
      rw [hkey, BoundedMap.put_of_not_room hfull] at hlook
      have hmem : key ∈ nd := BoundedMap.lookup_isSome.1 (by rw [hlook]; rfl)
      exact hfull (Or.inl hmem)
    · intro hfit
      refine ⟨frame.take off, slice frame off 24, key, ?_, ?_, htup,
        BoundedMap.lookup_put_self _ (hfit off key ha)⟩
      · rw [slice_eq_take (by omega), ← List.drop_drop, List.take_append_drop,
          List.take_append_drop]
      · rw [List.length_take]
        omega
  · rw [hout]
    simp only [ne_eq, not_true_eq_false, and_false, if_false, and_self, true_iff]
    exact fun off key ha => absurd ha (hna off key)

/-- In every table that a run of received frames and proxy rules leaves, Dec on any frame strips no
NSH that it has not saved exactly when the frame's flow fits; and along a run every Dec does so
exactly when every flow fits as it comes. -/
theorem decap_saves_iff (es : List NshEvent) :
    (∀ sm frame, StripsSaved sm (run nshStep .empty es) frame ↔
      FlowFits sm (run nshStep .empty es) frame) ∧
    (Along nshStep (fun nd e => ∀ sm frame, e = .received sm frame → StripsSaved sm nd frame)
        .empty es ↔
      Along nshStep (fun nd e => ∀ sm frame, e = .received sm frame → FlowFits sm nd frame)
        .empty es) := by
  refine ⟨fun sm frame => stripsSaved_iff sm _ frame, along_iff (fun nd e => ?_) _ es⟩
  exact forall₃_congr fun sm frame _ => stripsSaved_iff sm nd frame

/-! ## A full table -/

/-- A node's ingress address. -/
def nodeMac : Mac := Mac.of 0x02 0 0 0 0 0x0A

/-- A node's egress address. -/
def nodeMac' : Mac := Mac.of 0x02 0 0 0 0 0x0B

/-- Sixteen zero bytes of context. -/
def noContext : ByteVec 16 := ⟨List.replicate 16 0, rfl⟩

/-- An ICMP packet from 10.0.0.1 to 10.0.0.2. -/
def pingFrame : Bytes :=
  [0x02, 0, 0, 0, 0, 2, 0x02, 0, 0, 0, 0, 1, 0x08, 0x00,
    0x45, 0, 0, 20, 0, 0, 0, 0, 64, 1, 0, 0, 10, 0, 0, 1, 10, 0, 0, 2]

/-- Proxy rules for `n` flows of UDP. -/
def proxyRules (n : ℕ) : List NshEvent :=
  (List.range n).map fun i => .proxyRule ⟨BitVec.ofNat 32 i, 0, 0, 0, IPPROTO_UDP⟩ 0x1FF noContext

/-- Proxy rules are a run of writes under their keys. -/
theorem run_proxyRules (n : ℕ) :
    run nshStep .empty (proxyRules n) = BoundedMap.empty.putAll ((List.range n).map fun i =>
      ((⟨BitVec.ofNat 32 i, 0, 0, 0, IPPROTO_UDP⟩ : Ip5tuple).toNetwork,
        proxyNsh 0x1FF noContext)) := by
  rw [run, proxyRules, List.foldl_map, BoundedMap.putAll, List.foldl_map]
  rfl

/-- The table after proxy rules for 2048 flows is full. -/
theorem size_run_proxyRules : (run nshStep .empty (proxyRules 2048)).size = 2048 := by
  rw [run_proxyRules, BoundedMap.size_putAll_of_nodup, List.length_map, List.length_range,
    Nat.min_self]
  rw [List.map_map]
  refine (List.nodup_range (n := 2048)).map_on ?_
  intro i hi j hj hij
  have hsrc := congrArg Ip5tuple.ip_src (Ip5tuple.toNetwork_injective hij)
  have hval := congrArg BitVec.toNat hsrc
  simp only [BitVec.toNat_ofNat, List.mem_range] at hval hi hj
  omega

/-- Every entry of the full table is one of the UDP flows. -/
theorem not_mem_run_proxyRules {key : Ip5tuple} (hproto : key.proto = IPPROTO_ICMP) (n : ℕ) :
    key ∉ run nshStep .empty (proxyRules n) := by
  intro hmem
  rw [run_proxyRules] at hmem
  obtain ⟨v, hv⟩ := Option.isSome_iff_exists.1 (BoundedMap.lookup_isSome.2 hmem)
  obtain ⟨i, -, hi⟩ := List.mem_map.1 (BoundedMap.mem_of_lookup_putAll_empty hv)
  have hudp : IPPROTO_UDP = key.proto := congrArg (fun p => p.1.proto) hi
  rw [hproto] at hudp
  exact absurd hudp (by decide)

/-- In the full table, Dec strips the NSH of a new flow, and no entry holds it. -/
theorem not_stripsSaved_of_full :
    ¬ StripsSaved ⟨nodeMac, zeroMac⟩ (run nshStep .empty (proxyRules 2048))
      (nshFrame nodeMac zeroMac (proxyNsh 0x1FF noContext) pingFrame) := by
  intro h
  have hacc : Accepts nodeMac (nshFrame nodeMac zeroMac (proxyNsh 0x1FF noContext) pingFrame) 14
      ⟨0x0100000A, 0x0200000A, 0, 0, IPPROTO_ICMP⟩ :=
    accepts_nshFrame rfl rfl (by decide) (by decide)
  rcases (stripsSaved_iff _ _ _).1 h 14 _ hacc with hmem | hlt
  · exact not_mem_run_proxyRules rfl 2048 hmem
  · rw [size_run_proxyRules] at hlt
    exact absurd hlt (lt_irrefl _)

end ChainingBox
