import ChainingBox.Network.Loops

/-!
# End to end

The chaining as a whole. For a configuration whose keys fit and do not meet, and in which nodes with
direct links occur once (`Chainable`), a packet that enters a chain is handed to the service
functions of the chain's nodes in order, once for each position, and leaves behind the last one as
the frame that it was, with another source address (`end_to_end`). What the tables need for it is
that the rules of the chain's nodes fit in them, and that there is room for the packet's flow.

The proof follows the packet along the chain. `Carried` adds to `AtPos` that the node of an unlinked
position has saved the packet's header, be it from Dec or as a proxy entry, and each hop keeps it.

`not_end_to_end` shows that the capacity of the tables is needed: the 2049th forwarding rule of a
node is refused, and the packets of its chain are dropped.
-/

namespace ChainingBox

open Lib

/-- The Ids of chains are different and fit, the chains have from 1 to 255 nodes, all declared, and
the endpoints of direct links occur at one position only. -/
structure Chainable (cfg : CBConfig) : Prop where
  ids : (cfg.Chains.map CBChain.Id).Nodup
  fits : ∀ chain ∈ cfg.Chains,
    chain.Id.toNat < 2 ^ 24 ∧ 1 ≤ chain.Nodes.length ∧ chain.Nodes.length ≤ 255
  declared : ∀ chain ∈ cfg.Chains, ∀ n ∈ chain.Nodes, cfg.Declared n
  once : EndpointsOnce cfg

/-- The rules of the nodes of a chain fit in their tables. -/
def RulesFit (parseIP : ParseIP) (cbm : CBManager) (cfg : CBConfig) (chain : CBChain) : Prop :=
  ∀ n ∈ chain.Nodes, (rulesOf parseIP cbm cfg n).Fwd.length ≤ 2048 ∧
    (rulesOf parseIP cbm cfg n).Proxy.length ≤ 2048

namespace Chainable

variable {cfg : CBConfig} (hcfg : Chainable cfg)

include hcfg

/-- The Id and the index of a position fit in a service path header. -/
theorem index_le (p : Pos cfg) : p.chain.Id.toNat < 2 ^ 24 ∧ p.i.1 ≤ 254 := by
  obtain ⟨hid, -, hlen⟩ := hcfg.fits p.chain p.chain_mem
  have hlt : p.i.1 < p.chain.Nodes.length := p.i.2
  omega

/-- Different positions have different service path headers. -/
theorem eq_of_sphAt_eq {p q : Pos cfg} (h : sphAt q.chain q.i = sphAt p.chain p.i) : q = p := by
  obtain ⟨hpid, hpi⟩ := hcfg.index_le p
  obtain ⟨hqid, hqi⟩ := hcfg.index_le q
  have hnat : (sphAt q.chain q.i).toNat = (sphAt p.chain p.i).toNat := by rw [h]
  rw [sphAt_toNat hqid hqi, sphAt_toNat hpid hpi] at hnat
  have hid : q.chain.Id = p.chain.Id := BitVec.eq_of_toNat_eq (by omega)
  refine Pos.ext_iff'.2 ⟨?_, by omega⟩
  -- The Ids of the chains are those at their indices.
  have hget (r : Pos cfg) : (cfg.Chains.map CBChain.Id)[r.c.1]? = some r.chain.Id := by
    rw [List.getElem?_map, List.getElem?_eq_getElem r.c.2]
    rfl
  have hlt : q.c.1 < (cfg.Chains.map CBChain.Id).length := by
    rw [List.length_map]
    exact q.c.2
  refine (List.getElem?_inj hlt hcfg.ids).1 ?_
  rw [hget, hget, hid]

/-- Nothing but the chain decides where it goes on. -/
theorem unambiguous (p : Pos cfg) : p.Unambiguous := by
  intro hp
  constructor
  · intro q hnode hq
    obtain ⟨h, -⟩ := Pos.linked_iff'.1 hq
    exact hp ((hcfg.once q h hq p).1 hnode.symm ▸ hq)
  · rintro q ⟨⟨-, hsph⟩, -⟩
    rw [hcfg.eq_of_sphAt_eq hsph]

/-- A packet that comes to a position has a service index. -/
theorem siOf_entry_ne_zero (p : Pos cfg) : siOf (sphAt p.chain p.i + 1) ≠ 0 := by
  obtain ⟨hid, hi⟩ := hcfg.index_le p
  intro h
  have hzero : (0 : BitVec 32).toNat = 0 := rfl
  rw [← BitVec.toNat_inj, siOf_toNat, sphAt_add_one_toNat hid hi, hzero] at h
  omega

end Chainable

/-- While all functions are connected and all flows parse, both programs accept such a
configuration. -/
theorem Chainable.accepted {cfg : CBConfig} (hcfg : Chainable cfg) {parseIP : ParseIP}
    {order : List String → List String} {cbm : CBManager} (horder : ∀ l, (order l).Perm l)
    (haccept : ∀ tag client, cbm tag = some client → client.accepts)
    (hconn : ∀ f ∈ cfg.Functions, (cbm f.Tag).isSome)
    (hparse : ∀ chain ∈ cfg.Chains, ∀ flow ∈ chain.Flows, (flow.parse parseIP).isSome) :
    (∃ t, deployLinks cfg = some t) ∧
      (installConfiguration parseIP order cbm cfg).result = .nil := by
  refine ⟨exists_deployLinks hcfg.declared (apart_of_endpointsOnce hcfg.once), ?_⟩
  rw [installConfiguration_sent horder haccept hconn fun chain hc =>
    ⟨⟨fun _ n hn => declared_iff.1 (hcfg.declared chain hc n hn), fun _ => hparse chain hc⟩,
      fun _ n hn => ?_⟩]
  obtain ⟨f, hf, rfl⟩ := hcfg.declared chain hc n hn
  exact hconn f hf

namespace Deployment

variable {d : Deployment} {parseIP : ParseIP} {order : List String → List String}
  {cbm : CBManager}

/-- The packet is handed to the service functions of these nodes, in order and once each, and to no
others, and leaves behind the last one, with the address of its egress interface as the source
address. -/
def Delivers (d : Deployment) (nodes : List String) (inner : Bytes) (s : Flight) : Prop :=
  ∃ n last, nodes.getLast? = some last ∧
    (d.next^[n] s).place = .left last (store inner 6 (d.egressMac last).1) ∧
    ∀ k, d.handOuts (n + k) s = nodes.map (·, inner)

/-- Handed to one more service function first. -/
theorem delivers_of_next {node : String} {nodes : List String} {inner : Bytes} {s : Flight}
    (hplace : s.place = .handed node inner) (h : d.Delivers nodes inner (d.next s)) :
    d.Delivers (node :: nodes) inner s := by
  obtain ⟨n, last, hlast, hleft, hout⟩ := h
  refine ⟨n + 1, last, ?_, hleft, fun k => ?_⟩
  · rw [List.getLast?_cons, hlast]
    rfl
  · rw [Nat.succ_add, handOuts, collect, hplace]
    exact congrArg _ (hout k)

/-- A step from the network. -/
theorem delivers_of_next_wire {nodes : List String} {inner frame : Bytes} {net : Net}
    (h : d.Delivers nodes inner (d.next ⟨net, .wire frame⟩)) :
    d.Delivers nodes inner ⟨net, .wire frame⟩ := by
  obtain ⟨n, last, hlast, hleft, hout⟩ := h
  refine ⟨n + 1, last, hlast, hleft, fun k => ?_⟩
  rw [Nat.succ_add, handOuts, collect]
  exact hout k

/-- Behind the last service function. -/
theorem delivers_of_left {node : String} {inner : Bytes} {s : Flight}
    (hplace : s.place = .handed node inner)
    (h : (d.next s).place = .left node (store inner 6 (d.egressMac node).1)) :
    d.Delivers [node] inner s := by
  refine ⟨1, node, rfl, h, fun k => ?_⟩
  have hover : (d.next s).place.Over := by
    rw [h]
    trivial
  rw [Nat.add_comm, handOuts, collect, hplace]
  exact congrArg _ (handOuts_of_over hover k)

/-! ## What the tables hold -/

/-- When the rules of its node fit, the forwarding entry of an unlinked position leads on along the
chain. -/
theorem start_fwd_table (hv : d.Valid parseIP order cbm) (hcfg : Chainable d.cfg) {p : Pos d.cfg}
    (hfit : RulesFit parseIP cbm d.cfg p.chain) (hp : ¬ p.Linked) :
    (d.start parseIP order cbm p.node).fwd_table.lookup (htonl (sphAt p.chain p.i)) =
      some (entryTo cbm p.following) := by
  have hmem : (⟨sphAt p.chain p.i, entryTo cbm p.following⟩ : FwdRule) ∈
      (rulesOf parseIP cbm d.cfg p.node).Fwd := mem_rulesOf_fwd.2 ⟨p, rfl, hp, rfl⟩
  obtain ⟨e, he⟩ : ∃ e, (d.start parseIP order cbm p.node).fwd_table.lookup
      (htonl (sphAt p.chain p.i)) = some e := by
    rw [d.start_eq hv, handleInstall_fwd_table]
    refine BoundedMap.exists_lookup_putAll ?_ ?_
    · rw [List.length_map]
      exact (hfit p.node p.node_mem).1
    · rw [List.map_map]
      exact List.mem_map.2 ⟨_, hmem, rfl⟩
  obtain ⟨q, -, hsph, rfl, -⟩ := of_start_fwd_table hv he
  rw [he, hcfg.eq_of_sphAt_eq hsph]

/-- When the rules of its node fit, the node at the end of a run of links has a proxy entry for every
flow of the chain. -/
theorem exists_start_nsh_data (hv : d.Valid parseIP order cbm) {p : Pos d.cfg}
    (hfit : RulesFit parseIP cbm d.cfg p.chain) (hlast : d.cfg.lastLinked p.chain p.i)
    {flow : Ip5tuplestr} {t : Ip5tuple} (hflow : flow ∈ p.chain.Flows)
    (ht : flow.parse parseIP = some t) :
    ∃ nsh, (d.start parseIP order cbm p.node).nsh_data.lookup t.toNetwork = some nsh := by
  have hmem : (⟨t, sphAt p.chain p.i + 1⟩ : ProxyRule) ∈
      (rulesOf parseIP cbm d.cfg p.node).Proxy :=
    mem_rulesOf_proxy.2 ⟨p, rfl, hlast, flow, hflow, ht, rfl⟩
  rw [d.start_eq hv, handleInstall_nsh_data]
  refine BoundedMap.exists_lookup_putAll ?_ ?_
  · rw [List.length_map, List.length_zipIdx]
    exact (hfit p.node p.node_mem).2
  · obtain ⟨i, hi⟩ := List.mem_iff_getElem?.1 hmem
    rw [List.map_map]
    exact List.mem_map.2 ⟨(_, i), List.mk_mem_zipIdx_iff_getElem?.2 hi, rfl⟩

/-! ## Along the chain -/

/-- A packet at a position of its chain: if the position is not linked, its node has saved the
packet's header, and all nodes of the chain that Dec runs on have room for the flow. -/
structure Carried (d : Deployment) (start : Net) (inner : Bytes) (p : Pos d.cfg) (s : Flight) :
    Prop where
  at_pos : d.AtPos start inner p s
  held : ¬ p.Linked → ∃ nsh,
    (s.net p.node).nsh_data.lookup (flowOf inner).toNetwork = some nsh ∧ siOf nsh.path ≠ 0
  room : ∀ n ∈ p.chain.Nodes, d.topo.omitIngress n = false →
    (s.net n).nsh_data.Room (flowOf inner).toNetwork

/-- Over a direct link to the next position. -/
theorem carried_next (hv : d.Valid parseIP order cbm) (hcfg : Chainable d.cfg) {inner : Bytes}
    {p : Pos d.cfg} {s : Flight} (hfit : RulesFit parseIP cbm d.cfg p.chain)
    (hflow : ∃ flow ∈ p.chain.Flows, flow.parse parseIP = some (flowOf inner))
    (hs : d.Carried (d.start parseIP order cbm) inner p s) (hp : p.Linked)
    (h : p.i.1 + 1 < p.chain.Nodes.length) :
    d.Carried (d.start parseIP order cbm) inner (p.next h) (d.next s) := by
  obtain ⟨net, place⟩ := s
  obtain ⟨hat, -, hroom⟩ := hs
  have hnext := atPos_next hv hat hp h
  obtain ⟨rfl, hkeeps, -⟩ := hat
  rw [next_peer (peer_of_linked (of_deployLinks hv.links) hp h)] at hnext ⊢
  refine ⟨hnext, fun hlast => ?_, hroom⟩
  -- The run of links ends here, and the agent has an entry for the flow.
  obtain ⟨flow, hmem, hparse⟩ := hflow
  obtain ⟨nsh, hnsh⟩ := @exists_start_nsh_data d parseIP order cbm hv (p.next h) hfit
    (lastLinked_iff.2 ⟨p, h, rfl, hp, hlast⟩) flow _ hmem hparse
  have homit : d.topo.omitIngress (p.next h).node = true :=
    (omitIngress_iff (of_deployLinks hv.links)).2 ⟨p, h, hp, rfl⟩
  have hsaved : (net (p.next h).node).nsh_data.lookup (flowOf inner).toNetwork = some nsh := by
    rw [hkeeps.nsh_data _ homit]
    exact hnsh
  refine ⟨nsh, hsaved, ?_⟩
  rw [(path_of_linked hv hp h hkeeps hsaved).1]
  exact hcfg.siOf_entry_ne_zero _

/-- Off the network to a position with an ingress stage. -/
theorem carried_arrive (hv : d.Valid parseIP order cbm) (hcfg : Chainable d.cfg) {inner : Bytes}
    (hplain : PlainPacket inner) {net : Net} (hkeeps : d.Keeps (d.start parseIP order cbm) net)
    {q : Pos d.cfg} {src : Mac} {nsh : Nsh}
    (hstage : d.topo.omitIngress q.node = false)
    (hroom : ∀ n ∈ q.chain.Nodes, d.topo.omitIngress n = false →
      (net n).nsh_data.Room (flowOf inner).toNetwork)
    (hpath : nsh.path = sphAt q.chain q.i + 1) (hproto : load8 nsh.1 3 = NSH_NEXT_PROTO_ETHER) :
    d.Carried (d.start parseIP order cbm) inner q
      (d.next ⟨net, .wire (nshFrame (d.ingressMac q.node) src nsh inner)⟩) := by
  have hr := receiver_of_declared hv q.chain_mem q.node_mem
    (hcfg.declared _ q.chain_mem _ q.node_mem) hstage src nsh inner
  have hfits := hroom q.node q.node_mem hstage
  rw [next_wire hv hkeeps hplain.keyed hproto hr]
  have hlook : (net.save q.node ((net q.node).nsh_data.put (flowOf inner).toNetwork nsh)
      q.node).nsh_data.lookup (flowOf inner).toNetwork = some nsh := by
    rw [save_nsh_data_self, BoundedMap.lookup_put_self nsh hfits]
  -- Only the table of this node has changed, and there the header of the frame is saved.
  refine ⟨⟨rfl, keeps_save hkeeps hstage, fun _ key nsh' htuple hsaved => ?_⟩,
    fun _ => ⟨nsh, hlook, ?_⟩, fun n hn homit => ?_⟩
  · obtain rfl := Option.some.inj ((getTuple_of_plainPacket hplain).symm.trans htuple)
    obtain rfl := Option.some.inj (hlook.symm.trans hsaved)
    exact ⟨Or.inl hpath, hproto⟩
  · rw [hpath]
    exact hcfg.siOf_entry_ne_zero q
  · obtain rfl | hne := eq_or_ne n q.node
    · show (net.save q.node _ q.node).nsh_data.Room _
      rw [save_nsh_data_self]
      exact hfits.put nsh
    · show (net.save q.node _ n).nsh_data.Room _
      rw [save_nsh_data_of_ne _ _ _ hne]
      exact hroom n hn homit

/-- The node of an unlinked position has no link out of it. -/
theorem peer_of_not_linked (hv : d.Valid parseIP order cbm) (hcfg : Chainable d.cfg)
    {p : Pos d.cfg} (hp : ¬ p.Linked) : d.topo.peer p.node = none :=
  peer_of_unambiguous hv hp (hcfg.unambiguous p)

/-- It has the address of its egress interface. -/
theorem boot_egress (hv : d.Valid parseIP order cbm) (hcfg : Chainable d.cfg) {p : Pos d.cfg}
    (hp : ¬ p.Linked) : (d.boot p.node).src_mac.egress = d.egressMac p.node := by
  show (if d.topo.omitEgress p.node then _ else _) = _
  rw [omitEgress_of_not_linked (of_deployLinks hv.links) hcfg.once hp]
  rfl

/-- Out of the node of an unlinked position, to the next one or out of the chain. -/
theorem next_of_carried (hv : d.Valid parseIP order cbm) (hcfg : Chainable d.cfg) {inner : Bytes}
    (hplain : PlainPacket inner) (hgrants : d.kernel.grantsRoom inner) {p : Pos d.cfg} {s : Flight}
    (hfit : RulesFit parseIP cbm d.cfg p.chain)
    (hs : d.Carried (d.start parseIP order cbm) inner p s) (hp : ¬ p.Linked) :
    (p.following = none ∧
      (d.next s).place = .left p.node (store inner 6 (d.egressMac p.node).1)) ∨
    ∃ (h : p.i.1 + 1 < p.chain.Nodes.length) (src : Mac) (nsh : Nsh),
      nsh.path = sphAt (p.next h).chain (p.next h).i + 1 ∧
      load8 nsh.1 3 = NSH_NEXT_PROTO_ETHER ∧
      d.topo.omitIngress (p.next h).node = false ∧ d.next s =
        ⟨s.net, .wire (nshFrame (d.ingressMac (p.next h).node) src nsh inner)⟩ := by
  have hholds := of_deployLinks hv.links
  obtain ⟨net, place⟩ := s
  obtain ⟨⟨rfl, hkeeps, hsaved⟩, hheld, -⟩ := hs
  obtain ⟨nsh, hnsh, hsi⟩ := hheld hp
  obtain ⟨hpath, hproto⟩ := hsaved hp _ nsh (getTuple_of_plainPacket hplain) hnsh
  -- The entry that Fwd finds is that of the position, so the cases are those of the chain.
  have hsend := egress_at hv hkeeps hplain.keyed hnsh (hpath.resolve_right hsi) hsi
  rw [start_fwd_table hv hcfg hfit hp] at hsend
  rw [next_egress (peer_of_not_linked hv hcfg hp), hsend]
  by_cases h : p.i.1 + 1 < p.chain.Nodes.length
  · right
    have hstage := omitIngress_next hholds hcfg.once h hp
    -- There is another position, so the index has not run out.
    have hzero : siOf (sphAt p.chain p.i) ≠ 0 := by
      obtain ⟨hid, hi⟩ := hcfg.index_le (p.next h)
      rw [Pos.i_next] at hi
      rw [Pos.chain_next] at hid
      intro h0
      have hnat : (0 : BitVec 32).toNat = 0 := rfl
      rw [← BitVec.toNat_inj, siOf_toNat, sphAt_toNat hid (by omega), hnat] at h0
      omega
    refine ⟨h, (d.boot p.node).src_mac.egress, nsh.withPath (sphAt p.chain p.i), ?_, ?_, hstage, ?_⟩
    · rw [Nsh.path_withPath]
      exact (sphAt_succ hzero).symm
    · rw [Nsh.load8_withPath, hproto]
    · rw [p.following_eq h]
      simp only [isEnd_entryTo_some, Bool.false_eq_true, if_false, hgrants, if_true]
      rw [entryTo, p.addr_next hv.accepted hv.hello h, helloAddress_eq hstage]
      rfl
  · left
    rw [p.following_eq_none h]
    simp only [isEnd_entryTo_none, if_true]
    rw [boot_egress hv hcfg hp]
    exact ⟨trivial, rfl⟩

/-- From a position, the packet is delivered to the rest of the chain. -/
theorem delivers_of_carried (hv : d.Valid parseIP order cbm) (hcfg : Chainable d.cfg)
    {inner : Bytes} (hplain : PlainPacket inner) (hgrants : d.kernel.grantsRoom inner)
    {chain : CBChain} (hfit : RulesFit parseIP cbm d.cfg chain)
    (hflow : ∃ flow ∈ chain.Flows, flow.parse parseIP = some (flowOf inner)) {k : ℕ}
    {p : Pos d.cfg} {s : Flight} (hchain : p.chain = chain)
    (hs : d.Carried (d.start parseIP order cbm) inner p s)
    (hk : p.chain.Nodes.length = p.i.1 + k) :
    d.Delivers (p.chain.Nodes.drop p.i) inner s := by
  -- The induction is on the number of positions that are left.
  induction k generalizing p s with
  | zero =>
    have hlt : p.i.1 < p.chain.Nodes.length := p.i.2
    omega
  | succ k ih =>
    subst hchain
    have hdrop : p.chain.Nodes.drop p.i = p.node :: p.chain.Nodes.drop (p.i.1 + 1) :=
      List.drop_eq_getElem_cons p.i.2
    rw [hdrop]
    by_cases hp : p.Linked
    · obtain ⟨h, -⟩ := Pos.linked_iff'.1 hp
      apply delivers_of_next hs.at_pos.place
      refine @ih (p.next h) _ rfl (carried_next hv hcfg hfit hflow hs hp h) ?_
      rw [Pos.chain_next, Pos.i_next]
      omega
    rcases next_of_carried hv hcfg hplain hgrants hfit hs hp with ⟨hnone, hleft⟩ |
      ⟨h, src, nsh, hpath, hproto, hstage, heq⟩
    · have hnil : p.chain.Nodes.drop (p.i.1 + 1) = [] :=
        List.drop_eq_nil_of_le (List.getElem?_eq_none_iff.1 hnone)
      rw [hnil]
      exact delivers_of_left hs.at_pos.place hleft
    · apply delivers_of_next hs.at_pos.place
      rw [heq]
      apply delivers_of_next_wire
      refine @ih (p.next h) _ rfl
        (carried_arrive hv hcfg hplain hs.at_pos.keeps hstage hs.room hpath hproto) ?_
      rw [Pos.chain_next, Pos.i_next]
      omega

/-- A packet of a flow of a chain that enters the chain, whatever packets came before, is handed to
the service functions of the chain's nodes, in order and once for each position, and leaves behind
the last one without NSH, with only the source address changed. The rules of the chain's nodes must
fit in their tables, the nodes that Dec runs on must have room for the flow, and the kernel must
grant Enc the room that it asks for. -/
theorem end_to_end (d : Deployment) (parseIP : ParseIP) (order : List String → List String)
    (cbm : CBManager) (hv : d.Valid parseIP order cbm) (hcfg : Chainable d.cfg)
    (earlier : List (Bytes × ℕ)) (chain : CBChain) (hc : chain ∈ d.cfg.Chains)
    (hfit : RulesFit parseIP cbm d.cfg chain) (inner : Bytes) (hplain : PlainPacket inner)
    (hflow : ∃ flow ∈ chain.Flows, flow.parse parseIP = some (flowOf inner))
    (hroom : ∀ n ∈ chain.Nodes, d.topo.omitIngress n = false →
      (d.after (d.start parseIP order cbm) earlier n).nsh_data.Room (flowOf inner).toNetwork)
    (hgrants : d.kernel.grantsRoom inner) (first : String)
    (hfirst : chain.Nodes.head? = some first) (src : Mac) (nsh : Nsh)
    (hpath : nsh.path = entrySph chain) (hproto : load8 nsh.1 3 = NSH_NEXT_PROTO_ETHER) :
    d.Delivers chain.Nodes inner ⟨d.after (d.start parseIP order cbm) earlier,
      .wire (nshFrame (d.ingressMac first) src nsh inner)⟩ := by
  obtain ⟨c, hlt, rfl⟩ := List.getElem_of_mem hc
  obtain ⟨-, hpos, -⟩ := hcfg.fits _ hc
  let p : Pos d.cfg := ⟨⟨c, hlt⟩, ⟨0, hpos⟩⟩
  have hnode : p.node = first := Pos.node_of_head rfl hfirst
  have hstage := @omitIngress_first _ _ (of_deployLinks hv.links) hcfg.once p rfl
  have harrive := @carried_arrive d parseIP order cbm hv hcfg inner hplain _ (keeps_after _ earlier)
    p src nsh hstage hroom (hpath.trans (entrySph_eq _)) hproto
  apply delivers_of_next_wire
  rw [← hnode]
  exact delivers_of_carried hv hcfg hplain hgrants hfit hflow rfl harrive (Nat.zero_add _).symm

/-- Without room for the flow, Dec strips a packet whose NSH it cannot save, and from an unlinked
position the packet leaves its chain. -/
theorem left_without_room (hv : d.Valid parseIP order cbm) (hcfg : Chainable d.cfg) {inner : Bytes}
    (hplain : PlainPacket inner) {net : Net} (hkeeps : d.Keeps (d.start parseIP order cbm) net)
    {q : Pos d.cfg} (hq : ¬ q.Linked) {src : Mac} {nsh : Nsh}
    (hstage : d.topo.omitIngress q.node = false)
    (hfull : ¬ (net q.node).nsh_data.Room (flowOf inner).toNetwork)
    (hproto : load8 nsh.1 3 = NSH_NEXT_PROTO_ETHER) :
    (d.next (d.next ⟨net, .wire (nshFrame (d.ingressMac q.node) src nsh inner)⟩)).place =
      .left q.node (store inner 6 (d.egressMac q.node).1) := by
  have hr := receiver_of_declared hv q.chain_mem q.node_mem
    (hcfg.declared _ q.chain_mem _ q.node_mem) hstage src nsh inner
  have hnone : (net.save q.node ((net q.node).nsh_data.put (flowOf inner).toNetwork nsh)
      q.node).nsh_data.lookup (flowOf inner).toNetwork = none := by
    rw [save_nsh_data_self, BoundedMap.put_of_not_room hfull, BoundedMap.lookup_eq_none]
    exact fun hmem => hfull (Or.inl hmem)
  rw [next_wire hv hkeeps hplain.keyed hproto hr, next_egress (peer_of_not_linked hv hcfg hq),
    hplain.keyed.egress_unsaved hnone, save_src_mac,
    hkeeps.src_mac, start_src_mac hv, ← boot_egress hv hcfg hq]
  rfl

end Deployment

/-! ## Two deployments -/

/-- The two chains of local and remote functions share only remote nodes. -/
theorem chainable_mixed : Chainable mixedConfig where
  ids := by decide
  fits := by decide
  declared := fun chain hc n hn => declared_iff.2 (by revert chain n; decide)
  once := by
    unfold EndpointsOnce
    decide

/-- A packet of the chain of five positions is delivered, over a direct link and over the network,
behind packets that have left their headers at the nodes. -/
theorem end_to_end_mixed :
    (sampleDeployment mixedConfig).Delivers ["fw", "nat", "ids", "lb", "ids"] echoFrame
      ⟨(sampleDeployment mixedConfig).after
        ((sampleDeployment mixedConfig).start parsePing id mixedManager) earlierPackets,
        .wire echoEntry⟩ := by
  refine Deployment.end_to_end _ parsePing id mixedManager valid_mixed chainable_mixed
    earlierPackets ⟨1, ["fw", "nat", "ids", "lb", "ids"], [pingFlow]⟩ List.mem_cons_self ?_
    echoFrame plainPacket_echoFrame ⟨pingFlow, List.mem_singleton_self _, by decide⟩ ?_ rfl "fw"
    rfl zeroMac (proxyNsh 0x1FF noContext) (proxyNsh_path _ _) rfl
  · unfold RulesFit
    decide
  · decide +kernel

/-- A chain of one node. -/
def crowdedChain (k : ℕ) : CBChain :=
  ⟨BitVec.ofNat 32 k, ["fw"], if k = 2048 then [pingFlow] else []⟩

/-- So many chains on one node. -/
def crowdedConfig (n : ℕ) : CBConfig where
  Chains := (List.range n).map crowdedChain
  Functions := [⟨"fw", true⟩]

/-- The configuration deployed, without links. -/
def crowdedDeployment (n : ℕ) : Deployment :=
  { sampleDeployment (crowdedConfig n) with topo := ⟨[], []⟩ }

/-- The one node is connected. -/
def crowdedManager : CBManager := fun tag =>
  if tag = "fw" then some ⟨true, sampleIngress "fw"⟩ else none

section crowded

variable {n : ℕ}

theorem mem_crowdedConfig {chain : CBChain} :
    chain ∈ (crowdedConfig n).Chains ↔ ∃ k < n, crowdedChain k = chain := by
  simp only [crowdedConfig, List.mem_map, List.mem_range]

/-- A chain of one node has no links. -/
theorem not_linked_crowded (p : Pos (crowdedConfig n)) : ¬ p.Linked := by
  intro hp
  obtain ⟨h, -⟩ := Pos.linked_iff'.1 hp
  obtain ⟨k, -, hk⟩ := mem_crowdedConfig.1 p.chain_mem
  rw [← hk] at h
  exact absurd h (by simp [crowdedChain])

theorem toNat_crowdedChain {k : ℕ} (hk : k < 2 ^ 24) : (crowdedChain k).Id.toNat = k := by
  show (BitVec.ofNat 32 k).toNat = k
  rw [BitVec.toNat_ofNat]
  omega

/-- The Ids are the numbers of the chains. -/
theorem chainable_crowded (hn : n ≤ 2 ^ 24) : Chainable (crowdedConfig n) where
  ids := by
    rw [crowdedConfig, List.map_map]
    refine List.nodup_range.map_on fun i hi j hj hij => ?_
    rw [List.mem_range] at hi hj
    have hnat := congrArg BitVec.toNat hij
    rwa [Function.comp_apply, Function.comp_apply, toNat_crowdedChain (by omega),
      toNat_crowdedChain (by omega)] at hnat
  fits := by
    intro chain hc
    obtain ⟨k, hk, rfl⟩ := mem_crowdedConfig.1 hc
    have hid : (crowdedChain k).Id.toNat = k := toNat_crowdedChain (by omega)
    exact ⟨by omega, le_rfl, Nat.le_of_ble_eq_true rfl⟩
  declared := by
    intro chain hc n hn
    obtain ⟨k, -, rfl⟩ := mem_crowdedConfig.1 hc
    obtain rfl := List.mem_singleton.1 hn
    exact ⟨⟨"fw", true⟩, List.mem_singleton_self _, rfl⟩
  once := fun p _ hp => absurd hp (not_linked_crowded p)

theorem parse_crowded {chain : CBChain} (hc : chain ∈ (crowdedConfig n).Chains)
    {flow : Ip5tuplestr} (hflow : flow ∈ chain.Flows) : (flow.parse parsePing).isSome := by
  obtain ⟨k, -, rfl⟩ := mem_crowdedConfig.1 hc
  unfold crowdedChain at hflow
  dsimp only at hflow
  split_ifs at hflow
  · obtain rfl := List.mem_singleton.1 hflow
    decide
  · simp at hflow

/-- No link, no topology. -/
theorem deployLinks_crowded {t : Topology} (h : deployLinks (crowdedConfig n) = some t) :
    t = ⟨[], []⟩ := by
  have hnil : linkList (crowdedConfig n) = [] := by
    rw [List.eq_nil_iff_forall_not_mem]
    intro l hl
    obtain ⟨p, -, hp, -⟩ := mem_linkList.1 hl
    exact not_linked_crowded p hp
  have hholds := of_deployLinks h
  rw [hnil] at hholds
  obtain ⟨ingress, egress⟩ := t
  obtain rfl : egress = [] := hholds.egress
  obtain rfl : ingress = [] := hholds.ingress
  rfl

/-- Both programs accept the configuration. -/
theorem valid_crowded (hn : n ≤ 2 ^ 24) :
    (crowdedDeployment n).Valid parsePing id crowdedManager := by
  have hmanager (tag : String) (client : CBClient) (h : crowdedManager tag = some client) :
      client = ⟨true, sampleIngress "fw"⟩ ∧ tag = "fw" := by
    unfold crowdedManager at h
    split_ifs at h with hfw
    exact ⟨(Option.some.inj h).symm, hfw⟩
  have hconn : ∀ f ∈ (crowdedConfig n).Functions, (crowdedManager f.Tag).isSome := by
    intro f hf
    obtain rfl := List.mem_singleton.1 hf
    rfl
  obtain ⟨⟨t, ht⟩, haccepted⟩ := @Chainable.accepted _ (chainable_crowded hn) parsePing id
    crowdedManager List.Perm.refl (fun tag client h => by rw [(hmanager tag client h).1]) hconn
    (fun _ hc _ hflow => parse_crowded hc hflow)
  obtain rfl := deployLinks_crowded ht
  refine ⟨ht, List.Perm.refl, haccepted, fun tag client h => ?_, valid_pair.unicast,
    valid_pair.nonzero, fun tag hdecl chain hc tag' htag' _ => ?_⟩
  · obtain ⟨rfl, rfl⟩ := hmanager tag client h
    rfl
  · obtain ⟨f, hf, rfl⟩ := hdecl
    obtain rfl := List.mem_singleton.1 hf
    obtain ⟨k, -, rfl⟩ := mem_crowdedConfig.1 hc
    exact (List.mem_singleton.1 htag').symm

/-- The node needs one end of chain for each chain. -/
theorem rulesOf_crowded : (rulesOf parsePing crowdedManager (crowdedConfig n) "fw").Fwd =
    (List.range n).map fun k => ⟨sphAt (crowdedChain k) 0, ⟨1, zeroMac⟩⟩ := by
  have hone (k : ℕ) : ((crowdedChain k).Nodes.zipIdx.flatMap fun pos =>
      (fwdRulesAt crowdedManager (crowdedConfig n) (crowdedChain k) pos.2).map (pos.1, ·)) =
      [("fw", ⟨sphAt (crowdedChain k) 0, ⟨1, zeroMac⟩⟩)] := rfl
  have hchains : (crowdedConfig n).Chains = (List.range n).map crowdedChain := rfl
  show (fwdList crowdedManager (crowdedConfig n)).get "fw" = _
  unfold fwdList
  rw [hchains, List.flatMap_map]
  simp only [hone]
  rw [← List.map_eq_flatMap]
  simp [Appends.get, List.filter_map, Function.comp_def]

/-- The rules from the 2049th on are refused. -/
theorem crowded_full (hn : n ≤ 2 ^ 24) {k : ℕ} (hk : 2048 ≤ k) (hkn : k < n) :
    ((crowdedDeployment n).start parsePing id crowdedManager "fw").fwd_table.lookup
      (htonl (sphAt (crowdedChain k) 0)) = none := by
  have hinj {i j : ℕ} (hi : i < n) (hj : j < n)
      (h : htonl (sphAt (crowdedChain i) 0) = htonl (sphAt (crowdedChain j) 0)) : i = j := by
    have hid := @toNat_crowdedChain i (by omega)
    have hid' := @toNat_crowdedChain j (by omega)
    have hnat := congrArg BitVec.toNat (bswap32_injective h)
    rw [sphAt_toNat (by omega) (by omega), sphAt_toNat (by omega) (by omega)] at hnat
    omega
  have hrules : (rulesOf parsePing crowdedManager (crowdedDeployment n).cfg "fw").Fwd =
      (List.range n).map fun k => ⟨sphAt (crowdedChain k) 0, ⟨1, zeroMac⟩⟩ := rulesOf_crowded
  rw [(crowdedDeployment n).start_eq (valid_crowded hn), handleInstall_fwd_table, hrules,
    List.map_map]
  show (BoundedMap.empty.putAll _).lookup _ = none
  rw [BoundedMap.lookup_putAll_empty, if_neg]
  rw [BoundedMap.firstKeys_of_nodup, List.map_map, ← List.map_take, List.take_range, List.mem_map]
  · rintro ⟨i, hi, heq⟩
    have hlt := List.mem_range.1 hi
    have hsame := hinj (by omega) hkn heq
    omega
  · rw [List.map_map]
    refine List.nodup_range.map_on fun i hi j hj hij => ?_
    exact hinj (List.mem_range.1 hi) (List.mem_range.1 hj) hij

/-- A packet of one of their chains is dropped behind the one node. -/
theorem not_delivers_crowded (hn : n ≤ 2 ^ 24) {k : ℕ} (hk : 2048 ≤ k) (hkn : k < n) {nsh : Nsh}
    (hpath : nsh.path = entrySph (crowdedChain k))
    (hproto : load8 nsh.1 3 = NSH_NEXT_PROTO_ETHER) {inner : Bytes} (hplain : PlainPacket inner) :
    ¬ (crowdedDeployment n).Delivers ["fw"] inner
      ⟨(crowdedDeployment n).start parsePing id crowdedManager,
        .wire (nshFrame (sampleIngress "fw") zeroMac nsh inner)⟩ := by
  have hv := valid_crowded hn
  have hmem : crowdedChain k ∈ (crowdedConfig n).Chains := mem_crowdedConfig.2 ⟨k, hkn, rfl⟩
  set net := (crowdedDeployment n).start parsePing id crowdedManager with hnet
  have hkeeps : (crowdedDeployment n).Keeps net net := Deployment.keeps_refl net
  -- The one node has no proxy entries.
  have hproxy : (rulesOf parsePing crowdedManager (crowdedDeployment n).cfg "fw").Proxy = [] := by
    rw [List.eq_nil_iff_forall_not_mem]
    intro r hr
    obtain ⟨p, -, hlast, -⟩ := mem_rulesOf_proxy.1 hr
    obtain ⟨q, -, -, hq, -⟩ := lastLinked_iff.1 hlast
    exact not_linked_crowded q hq
  have hroom : (net "fw").nsh_data.Room (flowOf inner).toNetwork := by
    rw [hnet, (crowdedDeployment n).start_eq hv, handleInstall_nsh_data, hproxy]
    exact Or.inr (by show 0 < 2048; omega)
  -- It takes the packet, and saves the NSH.
  have htake := @Deployment.next_wire _ _ _ _ hv net hkeeps "fw" zeroMac nsh inner _ hplain.keyed hproto
    (Deployment.receiver_of_declared hv hmem (List.mem_singleton_self _)
      ⟨_, List.mem_singleton_self _, rfl⟩ rfl zeroMac nsh inner)
  set saved := net.save "fw" ((net "fw").nsh_data.put (flowOf inner).toNetwork nsh) with hsaved
  have hlook : (saved "fw").nsh_data.lookup (flowOf inner).toNetwork = some nsh := by
    rw [hsaved, save_nsh_data_self, BoundedMap.lookup_put_self nsh hroom]
  -- But it has no entry for the header, so the packet is dropped.
  have hsub : nsh.path - 1 = sphAt (crowdedChain k) 0 := by
    rw [hpath, entrySph_eq]
    exact BitVec.add_sub_cancel _ 1
  have hdrop : egress (crowdedDeployment n).kernel (saved "fw") inner = .dropped := by
    rw [hplain.keyed.egress_saved hlook, egressSpec, hsub,
      hsaved, save_fwd_table, crowded_full hn hk hkn]
    exact ite_self _
  have hlost : (crowdedDeployment n).next ⟨saved, .handed "fw" inner⟩ = ⟨saved, .lost⟩ := by
    rw [Deployment.next_egress rfl, hdrop]
    rfl
  rintro ⟨m, last, -, hleft, -⟩
  have hentry : (crowdedDeployment n).ingressMac "fw" = sampleIngress "fw" := rfl
  rw [hentry] at htake
  rcases m with _ | _ | m
  · simp at hleft
  · rw [Function.iterate_one, htake] at hleft
    simp at hleft
  · have hover : (⟨saved, .lost⟩ : Flight).place.Over := trivial
    rw [Function.iterate_succ_apply, Function.iterate_succ_apply, htake, hlost,
      Deployment.iterate_of_over hover] at hleft
    simp at hleft

end crowded

/-- With 2049 chains on one node, a packet of the last one, which alone has the packet's flow, is
dropped right after the installation. -/
theorem not_end_to_end :
    (crowdedDeployment 2049).Valid parsePing id crowdedManager ∧ Chainable (crowdedConfig 2049) ∧
      crowdedChain 2048 ∈ (crowdedConfig 2049).Chains ∧
      (∀ chain ∈ (crowdedConfig 2049).Chains, chain ≠ crowdedChain 2048 → chain.Flows = []) ∧
      PlainPacket echoFrame ∧ pingFlow ∈ (crowdedChain 2048).Flows ∧
      pingFlow.parse parsePing = some (flowOf echoFrame) ∧
      ∃ nsh : Nsh, nsh.path = entrySph (crowdedChain 2048) ∧
        load8 nsh.1 3 = NSH_NEXT_PROTO_ETHER ∧
        ¬ (crowdedDeployment 2049).Delivers ["fw"] echoFrame
          ⟨(crowdedDeployment 2049).start parsePing id crowdedManager,
            .wire (nshFrame (sampleIngress "fw") zeroMac nsh echoFrame)⟩ := by
  have hn : 2049 ≤ 2 ^ 24 := by omega
  refine ⟨valid_crowded hn, chainable_crowded hn, mem_crowdedConfig.2 ⟨2048, by omega, rfl⟩, ?_,
    plainPacket_echoFrame, by decide, by decide, proxyNsh (entrySph (crowdedChain 2048)) noContext,
    proxyNsh_path _ _, rfl, not_delivers_crowded hn le_rfl (by omega) (proxyNsh_path _ _) rfl
      plainPacket_echoFrame⟩
  intro chain hc hne
  obtain ⟨k, -, rfl⟩ := mem_crowdedConfig.1 hc
  exact if_neg fun hk => hne (by rw [hk])

end ChainingBox
