import ChainingBox.Network.Net

/-!
# Hops

What one step of a packet does, in terms of positions. The rules in the maps of a node are those of
its positions, the direct link out of a node is that of its linked position, and the service path
headers of consecutive positions differ by one. `arrive` is a step from the network into a node,
and `depart_spec` a step through the egress stages of one.
-/

namespace ChainingBox

open Lib

/-! ## Service path headers along a chain -/

/-- The header of a packet that enters a chain: service index 255. -/
def entrySph (chain : CBChain) : BitVec 32 := chain.Id <<< 8 ||| 255

/-- Decrementing the second part, while the low byte is not zero, decrements the header. -/
theorem or_shift_sub_one {id x : BitVec 32} (h : siOf (id <<< 8 ||| x) ≠ 0) :
    (id <<< 8 ||| (x - (1 : BitVec 32))) + (1 : BitVec 32) = id <<< 8 ||| x := by
  have hlow : x.toNat % 256 ≠ 0 := by
    intro h0
    apply h
    have hzero : (0 : BitVec 32).toNat = 0 := rfl
    rw [← BitVec.toNat_inj, siOf_toNat, toNat_or_shift, h0, hzero]
    omega
  have hlt := (id <<< 8 ||| x).isLt
  have hone : (1 : BitVec 32).toNat = 1 := rfl
  have hsub : (x - 1).toNat = x.toNat - 1 := by
    rw [BitVec.toNat_sub, hone]
    have := x.isLt
    omega
  have hdiv : (x.toNat - 1) / 256 = x.toNat / 256 := by omega
  rw [toNat_or_shift] at hlt
  rw [← BitVec.toNat_inj, BitVec.toNat_add, toNat_or_shift, toNat_or_shift, hsub, hdiv, hone]
  omega

/-- The header of a position is one more than that of the next, unless its service index is 0. -/
theorem sphAt_succ {chain : CBChain} {i : ℕ} (h : siOf (sphAt chain i) ≠ 0) :
    sphAt chain (i + 1) + 1 = sphAt chain i := by
  have hindex : (254 : BitVec 32) - BitVec.ofNat 32 (i + 1) = 254 - BitVec.ofNat 32 i - 1 := by
    rw [BitVec.ofNat_add, ← BitVec.sub_sub]
    rfl
  rw [sphAt, hindex]
  exact or_shift_sub_one h

/-- A packet enters a chain with the header that belongs to its first position. -/
theorem entrySph_eq (chain : CBChain) : entrySph chain = sphAt chain 0 + 1 := by
  have hne : siOf (entrySph chain) ≠ 0 := by
    intro h
    rw [← BitVec.toNat_inj, siOf_toNat, entrySph, toNat_or_shift] at h
    simp at h
  exact (or_shift_sub_one hne).symm

/-! ## The rules of a node -/

namespace Pos

variable {cfg : CBConfig}

/-- The node after a position, if any. -/
def following (p : Pos cfg) : Option String := p.chain.Nodes[p.i.1 + 1]?

theorem following_eq (p : Pos cfg) (h : p.i.1 + 1 < p.chain.Nodes.length) :
    p.following = some (p.next h).node :=
  (p.next h).getElem?_node

theorem following_eq_none (p : Pos cfg) (h : ¬ p.i.1 + 1 < p.chain.Nodes.length) :
    p.following = none :=
  List.getElem?_eq_none (by omega)

end Pos

/-- The forwarding entry that leads to a node, or out of the chain. -/
def entryTo (cbm : CBManager) : Option String → FwdEntry
  | none => ⟨1, zeroMac⟩
  | some next => ⟨0, cbm.addr next⟩

theorem isEnd_entryTo_none (cbm : CBManager) : (entryTo cbm none).isEnd = true := by
  show decide ((1 : Byte) &&& 0x1 ≠ 0) = true
  decide

theorem isEnd_entryTo_some (cbm : CBManager) (next : String) :
    (entryTo cbm (some next)).isEnd = false := by
  show decide ((0 : Byte) &&& 0x1 ≠ 0) = false
  decide

/-- What is generated for the positions, one by one, is generated for a node at its positions. -/
theorem mem_positions_flatMap {α : Type} {cfg : CBConfig} (f : CBChain → ℕ → List α)
    {node : String} {r : α} :
    (node, r) ∈ (cfg.Chains.flatMap fun chain => chain.Nodes.zipIdx.flatMap fun pos =>
      (f chain pos.2).map (pos.1, ·)) ↔ ∃ p : Pos cfg, p.node = node ∧ r ∈ f p.chain p.i := by
  rw [flatMap_positions, List.mem_flatMap]
  constructor
  · rintro ⟨p, -, hr⟩
    obtain ⟨r', hr', heq⟩ := List.mem_map.1 hr
    obtain ⟨rfl, rfl⟩ := Prod.mk.inj heq
    exact ⟨p, rfl, hr'⟩
  · rintro ⟨p, rfl, hr⟩
    exact ⟨p, mem_allPos p, List.mem_map.2 ⟨r, hr, rfl⟩⟩

/-- The forwarding rules of a position, by the node that follows. -/
theorem mem_fwdRulesAt_iff {cbm : CBManager} {cfg : CBConfig} {p : Pos cfg} {r : FwdRule} :
    r ∈ fwdRulesAt cbm cfg p.chain p.i ↔
      ¬ p.Linked ∧ r = ⟨sphAt p.chain p.i, entryTo cbm p.following⟩ := by
  unfold fwdRulesAt Pos.Linked Pos.following
  by_cases hp : cfg.linked p.chain p.i
  · simp only [hp, if_true, List.not_mem_nil, not_true, false_and]
  · rw [if_neg hp, List.mem_singleton, and_iff_right hp]
    cases p.chain.Nodes[p.i.1 + 1]? <;> rfl

/-- The forwarding rules that a node needs, in the order of its positions. -/
theorem rulesOf_fwd (parseIP : ParseIP) (cbm : CBManager) (cfg : CBConfig) (node : String) :
    (rulesOf parseIP cbm cfg node).Fwd = (allPos cfg).flatMap fun p =>
      if p.node = node then fwdRulesAt cbm cfg p.chain p.i else [] := by
  show (fwdList cbm cfg).get node = _
  rw [fwdList, flatMap_positions fun chain pos => (fwdRulesAt cbm cfg chain pos.2).map (pos.1, ·),
    Appends.get_flatMap]
  simp only [Appends.get_map]

/-- Each of them is that of an unlinked position. -/
theorem mem_rulesOf_fwd {parseIP : ParseIP} {cbm : CBManager} {cfg : CBConfig} {node : String}
    {r : FwdRule} : r ∈ (rulesOf parseIP cbm cfg node).Fwd ↔
      ∃ p : Pos cfg, p.node = node ∧ ¬ p.Linked ∧
        r = ⟨sphAt p.chain p.i, entryTo cbm p.following⟩ := by
  show r ∈ (fwdList cbm cfg).get node ↔ _
  rw [Appends.mem_get, fwdList, mem_positions_flatMap]
  simp only [mem_fwdRulesAt_iff]

/-- The proxy rules that a node needs: at each position where a run of links ends, one for each flow
of the chain. -/
theorem mem_rulesOf_proxy {parseIP : ParseIP} {cbm : CBManager} {cfg : CBConfig} {node : String}
    {r : ProxyRule} : r ∈ (rulesOf parseIP cbm cfg node).Proxy ↔
      ∃ p : Pos cfg, p.node = node ∧ cfg.lastLinked p.chain p.i ∧
        ∃ flow ∈ p.chain.Flows, flow.parse parseIP = some r.Key ∧
          r.Val = sphAt p.chain p.i + 1 := by
  show r ∈ (proxyList parseIP cfg).get node ↔ _
  rw [Appends.mem_get, proxyList, mem_positions_flatMap]
  refine exists_congr fun p => and_congr_right fun _ => ?_
  unfold proxyRulesAt
  by_cases hlast : cfg.lastLinked p.chain p.i
  · simp only [hlast, if_true, List.mem_filterMap, Option.map_eq_some_iff, true_and]
    constructor
    · rintro ⟨flow, hflow, t, ht, rfl⟩
      exact ⟨flow, hflow, ht, rfl⟩
    · rintro ⟨flow, hflow, ht, hval⟩
      exact ⟨flow, hflow, r.Key, ht, by rw [← hval]⟩
  · simp only [hlast, if_false, List.not_mem_nil, false_and]

/-- A run of links ends at a position if the one before is linked and it is not. -/
theorem lastLinked_iff {cfg : CBConfig} {q : Pos cfg} :
    cfg.lastLinked q.chain q.i ↔ ∃ (p : Pos cfg) (h : p.i.1 + 1 < p.chain.Nodes.length),
      p.next h = q ∧ p.Linked ∧ ¬ q.Linked := by
  constructor
  · rintro ⟨hpos, hback, hlast⟩
    obtain ⟨p, h, rfl, -⟩ := q.exists_prev hpos
    exact ⟨p, h, rfl, hback, hlast⟩
  · rintro ⟨p, h, rfl, hp, hlast⟩
    exact ⟨Nat.succ_pos _, hp, hlast⟩

/-! ## The direct links of a node -/

/-- The link out of the node of a linked position leads to the node after it. -/
theorem peer_of_linked {cfg : CBConfig} {t : Topology} (ht : t.Holds (linkList cfg)) {p : Pos cfg}
    (hp : p.Linked) (h : p.i.1 + 1 < p.chain.Nodes.length) :
    t.peer p.node = some (p.next h).node := by
  unfold Topology.peer
  rw [ht.egress]
  refine BoundedMap.lastValue_of_forall (mem_linkList.2 ⟨p, h, hp, rfl⟩) fun l hl hnode => ?_
  obtain ⟨q, h', hq, rfl⟩ := mem_linkList.1 hl
  by_cases hne : q = p
  · rw [Pos.next_congr hne h' h]
  · exact absurd hnode (apart_of_pos ht.apart hne hq hp h' h).1

/-- A link out of a node is that of a linked position. -/
theorem linked_of_peer {cfg : CBConfig} {t : Topology} (ht : t.Holds (linkList cfg))
    {tag tag' : String} (h : t.peer tag = some tag') :
    ∃ p : Pos cfg, p.Linked ∧ p.node = tag := by
  have hmem := BoundedMap.mem_of_lastValue h
  rw [ht.egress] at hmem
  obtain ⟨p, hlt, hp, heq⟩ := mem_linkList.1 hmem
  exact ⟨p, hp, (Prod.mk.inj heq).1.symm⟩

namespace Deployment

variable {d : Deployment} {parseIP : ParseIP} {order : List String → List String}
  {cbm : CBManager}

/-! ## The maps after the installation -/

/-- Every forwarding entry of a node is that of one of its positions, the last one with the key. -/
theorem of_start_fwd_table (hv : d.Valid parseIP order cbm) {tag : String} {key : BitVec 32}
    {e : FwdEntry}
    (h : (d.start parseIP order cbm tag).fwd_table.lookup (htonl key) = some e) :
    ∃ p : Pos d.cfg, p.node = tag ∧ sphAt p.chain p.i = key ∧ e = entryTo cbm p.following ∧
      ∀ q : Pos d.cfg, q.node = tag → ¬ q.Linked → sphAt q.chain q.i = key → q = p ∨ q.Before p := by
  rw [d.start_eq hv, handleInstall_fwd_table] at h
  have hlast := BoundedMap.lastValue_of_lookup_putAll_empty h
  rw [rulesOf_fwd, List.map_flatMap] at hlast
  obtain ⟨p, -, hmem, hall⟩ := BoundedMap.of_lastValue_flatMap (allPos_sorted d.cfg) hlast
  obtain ⟨r, hr, heq⟩ := List.mem_map.1 hmem
  split_ifs at hr with hnode
  · obtain ⟨-, rfl⟩ := mem_fwdRulesAt_iff.1 hr
    obtain ⟨hkey, rfl⟩ := Prod.mk.inj heq
    refine ⟨p, hnode, bswap32_injective hkey, rfl, fun q hq hlinked hsph => ?_⟩
    -- The position writes to the key, so it is among those that the last one is behind.
    refine hall q (mem_allPos q) (List.mem_map.2 ⟨(htonl key, entryTo cbm q.following), ?_, rfl⟩)
    rw [if_pos hq]
    exact List.mem_map.2 ⟨_, mem_fwdRulesAt_iff.2 ⟨hlinked, rfl⟩, by rw [hsph]⟩
  · exact absurd hr List.not_mem_nil

/-- Every entry in `nsh_data` of a node is that of a position where a run of links ends. -/
theorem of_start_nsh_data (hv : d.Valid parseIP order cbm) {tag : String} {key : Ip5tuple}
    {nsh : Nsh} (h : (d.start parseIP order cbm tag).nsh_data.lookup key = some nsh) :
    ∃ p : Pos d.cfg, p.node = tag ∧ d.cfg.lastLinked p.chain p.i ∧
      ∃ junk, nsh = proxyNsh (sphAt p.chain p.i + 1) junk := by
  rw [d.start_eq hv, handleInstall_nsh_data] at h
  obtain ⟨⟨r, i⟩, hr, heq⟩ := List.mem_map.1 (BoundedMap.mem_of_lookup_putAll_empty h)
  have hmem : r ∈ (rulesOf parseIP cbm d.cfg tag).Proxy :=
    List.mem_of_getElem? (List.mk_mem_zipIdx_iff_getElem?.1 hr)
  obtain ⟨p, hnode, hlast, -, -, -, hval⟩ := mem_rulesOf_proxy.1 hmem
  obtain ⟨-, rfl⟩ := Prod.mk.inj heq
  exact ⟨p, hnode, hlast, _, by rw [← hval]⟩

/-- The addresses that a node's stages write and compare. -/
theorem start_src_mac (hv : d.Valid parseIP order cbm) (tag : String) :
    (d.start parseIP order cbm tag).src_mac = (d.boot tag).src_mac := by
  rw [d.start_eq hv]
  rfl

/-! ## From the network into a node -/

/-- A frame with the address of a node of some chain, or with zeros in its place, goes to that node
or nowhere. -/
theorem receiver_cases (hv : d.Valid parseIP order cbm) {chain : CBChain} {tag : String} {dst : Mac}
    {frame : Bytes} (hc : chain ∈ d.cfg.Chains) (htag : tag ∈ chain.Nodes)
    (hdst : dst = d.ingressMac tag ∨ dst = zeroMac) (htake : dst.1 = frame.take 6) :
    d.receiver frame = none ∨
      d.receiver frame = some tag ∧ d.topo.omitIngress tag = false ∧ dst = d.ingressMac tag := by
  cases hr : d.receiver frame with
  | none => exact Or.inl rfl
  | some tag' =>
    have hstage := omitIngress_of_receiver hr
    obtain ⟨f, hf, rfl⟩ := List.mem_map.1 (List.mem_of_find?_eq_some hr)
    have hmac : d.ingressMac f.Tag = dst := by
      have hfound := List.find?_some hr
      rw [Bool.and_eq_true, decide_eq_true_eq] at hfound
      exact Subtype.ext (hfound.2.trans htake.symm)
    rcases hdst with rfl | rfl
    · obtain rfl := hv.distinct f.Tag ⟨f, hf, rfl⟩ chain hc tag htag hmac
      exact Or.inr ⟨rfl, hstage, rfl⟩
    · exact absurd hmac (hv.nonzero _)

/-- The announced address is that of the ingress interface, or zeros. -/
theorem helloAddress_cases (tag : String) :
    helloAddress d.topo d.ingressMac tag = d.ingressMac tag ∨
      helloAddress d.topo d.ingressMac tag = zeroMac := by
  unfold helloAddress
  split_ifs
  · exact Or.inr rfl
  · exact Or.inl rfl

/-- The destination address of an encapsulated frame. -/
theorem take_nshFrame (dst src : Mac) (nsh : Nsh) (inner : Bytes) :
    dst.1 = (nshFrame dst src nsh inner).take 6 := by
  rw [nshFrame, List.take_left' dst.2]

/-- A frame with the address of a declared node with an ingress stage goes to that node. -/
theorem receiver_of_declared (hv : d.Valid parseIP order cbm) {chain : CBChain} {tag : String}
    (hc : chain ∈ d.cfg.Chains) (htag : tag ∈ chain.Nodes) (hdecl : d.cfg.Declared tag)
    (hstage : d.topo.omitIngress tag = false) (src : Mac) (nsh : Nsh) (inner : Bytes) :
    d.receiver (nshFrame (d.ingressMac tag) src nsh inner) = some tag := by
  have htake := take_nshFrame (d.ingressMac tag) src nsh inner
  rcases receiver_cases hv hc htag (Or.inl rfl) htake with hnone | ⟨hsome, -⟩
  · obtain ⟨f, hf, rfl⟩ := hdecl
    have hall := List.find?_eq_none.1 hnone f.Tag (List.mem_map.2 ⟨f, hf, rfl⟩)
    rw [hstage] at hall
    exact absurd htake (by simpa using hall)
  · exact hsome

/-- A node that receives the encapsulated frame of a packet saves the NSH under the packet's flow and
hands the packet to its service function. -/
theorem next_wire (hv : d.Valid parseIP order cbm) {net : Net}
    (hkeeps : d.Keeps (d.start parseIP order cbm) net) {tag : String} {src : Mac} {nsh : Nsh}
    {inner : Bytes} {key : Ip5tuple} (hkeyed : Keyed inner key)
    (hproto : load8 nsh.1 3 = NSH_NEXT_PROTO_ETHER)
    (hr : d.receiver (nshFrame (d.ingressMac tag) src nsh inner) = some tag) :
    d.next ⟨net, .wire (nshFrame (d.ingressMac tag) src nsh inner)⟩ =
      ⟨net.save tag ((net tag).nsh_data.put key nsh), .handed tag inner⟩ := by
  have hmac : (net tag).src_mac.ingress = d.ingressMac tag := by
    rw [hkeeps.src_mac, start_src_mac hv]
    exact helloAddress_eq (omitIngress_of_receiver hr)
  have ha : Accepts (net tag).src_mac.ingress (nshFrame (d.ingressMac tag) src nsh inner) 14 key := by
    rw [hmac]
    exact accepts_nshFrame (hv.unicast tag) hproto hkeyed.header hkeyed.tuple
  have hdrop : (nshFrame (d.ingressMac tag) src nsh inner).drop (14 + 24) = inner :=
    drop_nshFrame_38 ..
  unfold next
  simp only [hr, decapNsh_of_accepts ha, slice_nshFrame, hdrop, cbRetok_code]

/-! ## Out of a node -/

/-- Over the direct link of a node. -/
theorem next_peer {net : Net} {tag peer : String} {frame : Bytes}
    (h : d.topo.peer tag = some peer) :
    d.next ⟨net, .handed tag frame⟩ = ⟨net, .handed peer frame⟩ := by
  simp only [next, h]

/-- Through the egress stages of a node. -/
theorem next_egress {net : Net} {tag : String} {frame : Bytes} (h : d.topo.peer tag = none) :
    d.next ⟨net, .handed tag frame⟩ =
      ⟨net, (egress d.kernel (net tag) frame).place tag⟩ := by
  simp only [next, h]

/-- What the egress stages do with a packet that has the header of a position: the forwarding
entry of the position decides. -/
theorem egress_at (hv : d.Valid parseIP order cbm) {net : Net}
    (hkeeps : d.Keeps (d.start parseIP order cbm) net) {p : Pos d.cfg} {inner : Bytes}
    {key : Ip5tuple} {nsh : Nsh} (hkeyed : Keyed inner key)
    (hsaved : (net p.node).nsh_data.lookup key = some nsh)
    (hpath : nsh.path = sphAt p.chain p.i + 1) (hsi : siOf nsh.path ≠ 0) :
    egress d.kernel (net p.node) inner =
      match (d.start parseIP order cbm p.node).fwd_table.lookup (htonl (sphAt p.chain p.i)) with
      | none => .dropped
      | some e =>
        if e.isEnd then .plain (store inner 6 (d.boot p.node).src_mac.egress.1)
        else if d.kernel.grantsRoom inner then
          .chained (nshFrame e.address (d.boot p.node).src_mac.egress
            (nsh.withPath (sphAt p.chain p.i)) inner)
        else .dropped := by
  have hsub : nsh.path - 1 = sphAt p.chain p.i := by
    rw [hpath]
    exact BitVec.add_sub_cancel _ 1
  have hmac : (net p.node).src_mac = (d.boot p.node).src_mac := by
    rw [hkeeps.src_mac, start_src_mac hv]
  rw [← hmac, ← hsub, ← hkeeps.fwd_table]
  exact (hkeyed.egress_saved hsaved).trans (if_neg hsi)

end Deployment

end ChainingBox
