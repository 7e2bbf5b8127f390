import ChainingBox.Dataplane.OneHop
import ChainingBox.Network.Hops

/-!
# Journeys end

A packet that enters a chain is handed to service functions until it leaves or is lost. Through the
egress stages its service index decreases, but over a direct link it does not, and the proxy entry
at the end of a run of links starts from the index of that position again. `no_forwarding_loop`
bounds the journey all the same, by the position of the packet in its chain: while nothing but the
chain decides where it goes from a node (`Unambiguous`), one hop takes it to the next position, out,
or nowhere.

A node with a direct link may occur again where the chain is to go on over the network, and then the
link takes the packet back. `not_no_forwarding_loop` is such a chain.
-/

namespace ChainingBox

open Lib

/-- Of the positions of the node of `p` with the same service path header, `q` is the last. Its rule
overwrites those of the others. -/
def Pos.LastWithKey {cfg : CBConfig} (p q : Pos cfg) : Prop :=
  (q.node = p.node ∧ sphAt q.chain q.i = sphAt p.chain p.i) ∧
    ∀ r : Pos cfg, r.node = p.node → sphAt r.chain r.i = sphAt p.chain p.i → r = q ∨ r.Before q

instance {cfg : CBConfig} (p q : Pos cfg) : Decidable (p.LastWithKey q) :=
  inferInstanceAs (Decidable (_ ∧ _))

/-- Where a chain leaves a node over the network, nothing else decides how it goes on: the node has
no linked position, and the last of its positions with the same service path header is followed by
the same node. -/
def Pos.Unambiguous {cfg : CBConfig} (p : Pos cfg) : Prop :=
  ¬ p.Linked → (∀ q : Pos cfg, q.node = p.node → ¬ q.Linked) ∧
    ∀ q : Pos cfg, p.LastWithKey q → q.following = p.following

instance {cfg : CBConfig} (p : Pos cfg) : Decidable p.Unambiguous :=
  inferInstanceAs (Decidable (_ → _))

/-- A saved NSH is that of a packet at a position, or one that Enc drops. -/
structure Suits {cfg : CBConfig} (p : Pos cfg) (nsh : Nsh) : Prop where
  path : nsh.path = sphAt p.chain p.i + 1 ∨ siOf nsh.path = 0
  next_proto : load8 nsh.1 3 = NSH_NEXT_PROTO_ETHER

namespace Deployment

variable {d : Deployment} {parseIP : ParseIP} {order : List String → List String}
  {cbm : CBManager}

/-- The journey ends, and hands out the packet at most `n` times. -/
def Ends (d : Deployment) (n : ℕ) (s : Flight) : Prop :=
  (∃ m, (d.next^[m] s).place.Over) ∧ ∀ m, (d.handOuts m s).length ≤ n

/-! ## Bounds of a journey -/

theorem next_of_over {s : Flight} (h : s.place.Over) : d.next s = s ∧ s.place.handOut = [] := by
  obtain ⟨net, place⟩ := s
  cases place with
  | wire frame => exact h.elim
  | handed tag frame => exact h.elim
  | left tag frame => exact ⟨rfl, rfl⟩
  | lost => exact ⟨rfl, rfl⟩

theorem iterate_of_over {s : Flight} (h : s.place.Over) (n : ℕ) : d.next^[n] s = s :=
  Function.iterate_fixed (next_of_over h).1 n

theorem handOuts_of_over {s : Flight} (h : s.place.Over) (n : ℕ) : d.handOuts n s = [] := by
  induction n with
  | zero => rfl
  | succ n ih =>
    obtain ⟨hnext, hout⟩ := next_of_over h
    rw [handOuts, collect, hout, hnext, List.nil_append]
    exact ih

theorem ends_of_over {s : Flight} (h : s.place.Over) (n : ℕ) : d.Ends n s := by
  refine ⟨⟨0, h⟩, fun m => ?_⟩
  rw [handOuts_of_over h m]
  exact Nat.zero_le n

/-- One step of a journey. -/
theorem ends_of_next {s : Flight} {n : ℕ} (h : d.Ends n (d.next s)) :
    d.Ends (s.place.handOut.length + n) s := by
  obtain ⟨⟨m, hm⟩, hbound⟩ := h
  refine ⟨⟨m + 1, hm⟩, fun m => ?_⟩
  cases m with
  | zero => exact Nat.zero_le _
  | succ m =>
    rw [handOuts, collect, List.length_append]
    exact Nat.add_le_add_left (hbound m) _

/-- A step from the network hands out nothing. -/
theorem ends_of_next_wire {net : Net} {frame : Bytes} {n : ℕ}
    (h : d.Ends n (d.next ⟨net, .wire frame⟩)) : d.Ends n ⟨net, .wire frame⟩ := by
  have hnext := ends_of_next h
  simpa only [Place.handOut, List.length_nil, Nat.zero_add] using hnext

/-! ## A packet at a position -/

/-- The packet is handed to the service function of a position, and if the position is not linked,
what its node has saved for the flow is right for the position. -/
structure AtPos (d : Deployment) (start : Net) (inner : Bytes) (p : Pos d.cfg) (s : Flight) :
    Prop where
  place : s.place = .handed p.node inner
  keeps : d.Keeps start s.net
  saved : ¬ p.Linked → ∀ key nsh, getTuple (inner.drop 14) = some key →
    (s.net p.node).nsh_data.lookup key = some nsh → Suits p nsh

/-- The node after a linked position has saved only what it needs for the position where the run of
links ends. -/
theorem path_of_linked (hv : d.Valid parseIP order cbm) {p : Pos d.cfg} (hp : p.Linked)
    (h : p.i.1 + 1 < p.chain.Nodes.length) {net : Net}
    (hkeeps : d.Keeps (d.start parseIP order cbm) net) {key : Ip5tuple} {nsh : Nsh}
    (hsaved : (net (p.next h).node).nsh_data.lookup key = some nsh) :
    nsh.path = sphAt (p.next h).chain (p.next h).i + 1 ∧
      load8 nsh.1 3 = NSH_NEXT_PROTO_ETHER := by
  have hholds := of_deployLinks hv.links
  have homit : d.topo.omitIngress (p.next h).node = true :=
    (omitIngress_iff hholds).2 ⟨p, h, hp, rfl⟩
  rw [hkeeps.nsh_data _ homit] at hsaved
  obtain ⟨q, hnode, hlast, junk, rfl⟩ := of_start_nsh_data hv hsaved
  obtain ⟨p', h', rfl, hp', -⟩ := lastLinked_iff.1 hlast
  -- Only one link leads into the node.
  have hsame : p' = p := by
    by_contra hne
    exact (apart_of_pos hholds.apart hne hp' hp h' h).2 hnode
  rw [Pos.next_congr hsame h' h]
  exact ⟨proxyNsh_path _ _, proxyNsh_next_proto _ _⟩

/-- Over the direct link of a linked position. -/
theorem atPos_next (hv : d.Valid parseIP order cbm) {inner : Bytes} {p : Pos d.cfg} {s : Flight}
    (hs : d.AtPos (d.start parseIP order cbm) inner p s) (hp : p.Linked)
    (h : p.i.1 + 1 < p.chain.Nodes.length) :
    d.AtPos (d.start parseIP order cbm) inner (p.next h) (d.next s) := by
  obtain ⟨net, place⟩ := s
  obtain ⟨rfl, hkeeps, -⟩ := hs
  rw [next_peer (peer_of_linked (of_deployLinks hv.links) hp h)]
  refine ⟨rfl, hkeeps, fun _ key nsh _ hsaved => ?_⟩
  obtain ⟨hpath, hproto⟩ := path_of_linked hv hp h hkeeps hsaved
  exact ⟨Or.inl hpath, hproto⟩

/-- Off the network to a position. -/
theorem over_or_atPos (hv : d.Valid parseIP order cbm) {net : Net}
    (hkeeps : d.Keeps (d.start parseIP order cbm) net) {q : Pos d.cfg} {dst src : Mac} {nsh : Nsh}
    {inner : Bytes} {key : Ip5tuple} (hdst : dst = d.ingressMac q.node ∨ dst = zeroMac)
    (hkeyed : Keyed inner key) (hsuits : Suits q nsh) :
    (d.next ⟨net, .wire (nshFrame dst src nsh inner)⟩).place.Over ∨
      d.AtPos (d.start parseIP order cbm) inner q
        (d.next ⟨net, .wire (nshFrame dst src nsh inner)⟩) := by
  rcases receiver_cases hv q.chain_mem q.node_mem hdst (take_nshFrame dst src nsh inner) with
    hnone | ⟨hsome, hstage, rfl⟩
  · left
    simp only [next, hnone]
    trivial
  · right
    rw [next_wire hv hkeeps hkeyed hsuits.next_proto hsome]
    refine ⟨rfl, keeps_save hkeeps hstage, fun _ key' nsh' htuple hsaved => ?_⟩
    obtain rfl : key = key' := Option.some.inj (hkeyed.tuple.symm.trans htuple)
    rw [save_nsh_data_self] at hsaved
    rwa [BoundedMap.eq_of_lookup_put_self hsaved]

/-- The node of a position that is not linked has no link out of it. -/
theorem peer_of_unambiguous (hv : d.Valid parseIP order cbm) {p : Pos d.cfg} (hp : ¬ p.Linked)
    (hun : p.Unambiguous) : d.topo.peer p.node = none := by
  rw [Option.eq_none_iff_forall_ne_some]
  intro tag htag
  obtain ⟨q, hq, hnode⟩ := linked_of_peer (of_deployLinks hv.links) htag
  exact (hun hp).1 q hnode hq

/-- Through the egress stages at a position that is not linked: the packet leaves, or is lost, or is
on the network to the next position. -/
theorem next_of_unambiguous (hv : d.Valid parseIP order cbm) {inner : Bytes} {key : Ip5tuple}
    (hkeyed : Keyed inner key) {p : Pos d.cfg} {s : Flight}
    (hs : d.AtPos (d.start parseIP order cbm) inner p s) (hp : ¬ p.Linked)
    (hun : p.Unambiguous) :
    (d.next s).place.Over ∨ ∃ (h : p.i.1 + 1 < p.chain.Nodes.length) (src : Mac) (nsh : Nsh),
      Suits (p.next h) nsh ∧ d.next s = ⟨s.net, .wire (nshFrame
        (helloAddress d.topo d.ingressMac (p.next h).node) src nsh inner)⟩ := by
  obtain ⟨net, place⟩ := s
  obtain ⟨rfl, hkeeps, hsaved⟩ := hs
  rw [next_egress (peer_of_unambiguous hv hp hun)]
  cases hlook : (net p.node).nsh_data.lookup key with
  | none =>
    rw [hkeyed.egress_unsaved hlook]
    exact Or.inl trivial
  | some nsh =>
  obtain ⟨hpath, hproto⟩ := hsaved hp key nsh hkeyed.tuple hlook
  by_cases hsi : siOf nsh.path = 0
  · rw [hkeyed.egress_saved hlook, egressSpec, if_pos hsi]
    exact Or.inl trivial
  rw [egress_at hv hkeeps hkeyed hlook (hpath.resolve_right hsi) hsi]
  cases he : (d.start parseIP order cbm p.node).fwd_table.lookup
      (htonl (sphAt p.chain p.i)) with
  | none => exact Or.inl trivial
  | some e =>
  -- The entry is that of the last position with the key, which continues as this one does.
  obtain ⟨q, hnode, hsph, rfl, hlast⟩ := of_start_fwd_table hv he
  have hfollowing := (hun hp).2 q ⟨⟨hnode, hsph⟩, fun r hr => hlast r hr ((hun hp).1 r hr)⟩
  rw [hfollowing]
  by_cases h : p.i.1 + 1 < p.chain.Nodes.length
  · rw [p.following_eq h]
    simp only [isEnd_entryTo_some, Bool.false_eq_true, if_false]
    by_cases hroom : d.kernel.grantsRoom inner
    · right
      refine ⟨h, (d.boot p.node).src_mac.egress, nsh.withPath (sphAt p.chain p.i), ⟨?_, ?_⟩, ?_⟩
      · -- The header is that of the next position, unless the service index is used up.
        rw [Nsh.path_withPath]
        by_cases hzero : siOf (sphAt p.chain p.i) = 0
        · exact Or.inr hzero
        · exact Or.inl (sphAt_succ hzero).symm
      · rw [Nsh.load8_withPath, hproto]
      · rw [if_pos hroom, entryTo, p.addr_next hv.accepted hv.hello h]
        rfl
    · rw [if_neg hroom]
      exact Or.inl trivial
  · rw [p.following_eq_none h]
    simp only [isEnd_entryTo_none, if_true]
    exact Or.inl trivial

/-- From a position, the packet is handed out at most once for each position that is left. -/
theorem ends_of_atPos (hv : d.Valid parseIP order cbm) {inner : Bytes} {key : Ip5tuple}
    (hkeyed : Keyed inner key) {k : ℕ} {p : Pos d.cfg} {s : Flight} (hun : ∀ q : Pos d.cfg, q.c = p.c → q.Unambiguous)
    (hs : d.AtPos (d.start parseIP order cbm) inner p s)
    (hk : p.chain.Nodes.length = p.i.1 + k) : d.Ends k s := by
  -- The induction is on the number of positions that are left.
  induction k generalizing p s with
  | zero =>
    have hlt : p.i.1 < p.chain.Nodes.length := p.i.2
    omega
  | succ k ih =>
    have hout : s.place.handOut.length = 1 := by rw [hs.place]; rfl
    rw [Nat.add_comm, ← hout]
    apply ends_of_next
    by_cases hp : p.Linked
    · obtain ⟨h, -⟩ := Pos.linked_iff'.1 hp
      refine @ih (p.next h) _ hun (atPos_next hv hs hp h) ?_
      rw [Pos.chain_next, Pos.i_next]
      omega
    rcases next_of_unambiguous hv hkeyed hs hp (hun p rfl) with hover | ⟨h, src, nsh, hsuits, heq⟩
    · exact ends_of_over hover k
    rw [heq]
    -- One more step takes it off the network.
    apply ends_of_next_wire
    rcases over_or_atPos hv hs.keeps (helloAddress_cases _) hkeyed hsuits with hover | hnext
    · exact ends_of_over hover k
    · refine @ih (p.next h) _ hun hnext ?_
      rw [Pos.chain_next, Pos.i_next]
      omega

/-- In the deployment of an accepted configuration, and whatever packets came before, a packet that
enters a chain all of whose positions are unambiguous comes to an end, and is handed to service
functions at most as many times as the chain has nodes. The packet is any in which the stages find a
flow. -/
theorem no_forwarding_loop (d : Deployment) (parseIP : ParseIP)
    (order : List String → List String) (cbm : CBManager) (hv : d.Valid parseIP order cbm)
    (c : Fin d.cfg.Chains.length) (hun : ∀ p : Pos d.cfg, p.c = c → p.Unambiguous)
    (earlier : List (Bytes × ℕ)) (first : String)
    (hfirst : (d.cfg.Chains[c]).Nodes.head? = some first) (src : Mac) (nsh : Nsh)
    (hpath : nsh.path = entrySph d.cfg.Chains[c])
    (hproto : load8 nsh.1 3 = NSH_NEXT_PROTO_ETHER) (inner : Bytes) (key : Ip5tuple)
    (hkeyed : Keyed inner key) :
    d.Ends (d.cfg.Chains[c]).Nodes.length ⟨d.after (d.start parseIP order cbm) earlier,
      .wire (nshFrame (d.ingressMac first) src nsh inner)⟩ := by
  have hpos : 0 < (d.cfg.Chains[c]).Nodes.length := by
    apply List.length_pos_iff.2
    intro hnil
    rw [hnil] at hfirst
    simp at hfirst
  let p : Pos d.cfg := ⟨c, ⟨0, hpos⟩⟩
  have hnode : p.node = first := Pos.node_of_head rfl hfirst
  have hsuits : Suits p nsh := ⟨Or.inl (hpath.trans (entrySph_eq _)), hproto⟩
  apply ends_of_next_wire
  rw [← hnode]
  rcases over_or_atPos hv (keeps_after _ earlier) (Or.inl rfl) hkeyed hsuits with hover | hnext
  · exact ends_of_over hover _
  · exact ends_of_atPos hv hkeyed hun hnext (Nat.zero_add _).symm

end Deployment

/-! ## Two deployments -/

/-- The names of the sample configurations. -/
def sampleNames : List String := ["fw", "nat", "ids", "lb"]

/-- The addresses of their ingress interfaces. -/
def sampleIngress (tag : String) : Mac :=
  if tag = "fw" then Mac.of 0x02 0 0 0 0 0x0C
  else if tag = "nat" then Mac.of 0x02 0 0 0 0 0x0D
  else if tag = "lb" then Mac.of 0x02 0 0 0 0 0x2C
  else Mac.of 0x02 0 0 0 0 0x1C

/-- A configuration with a link from `fw` to `nat`, deployed. -/
def sampleDeployment (cfg : CBConfig) : Deployment where
  cfg := cfg
  topo := pairTopology
  kernel := grantingKernel
  ingressMac := sampleIngress
  egressMac := fun _ => nodeMac'
  junk := fun _ _ => noContext

theorem sampleDeployment_valid {cfg : CBConfig} {cbm : CBManager}
    (hlinks : deployLinks cfg = some pairTopology)
    (haccepted : (installConfiguration parsePing id cbm cfg).result = .nil)
    (hhello : ∀ tag client, cbm tag = some client →
      client.addr = helloAddress pairTopology sampleIngress tag)
    (hfunctions : ∀ f ∈ cfg.Functions, f.Tag ∈ sampleNames)
    (hnodes : ∀ chain ∈ cfg.Chains, ∀ tag ∈ chain.Nodes, tag ∈ sampleNames) :
    (sampleDeployment cfg).Valid parsePing id cbm where
  links := hlinks
  perm := List.Perm.refl
  accepted := haccepted
  hello := hhello
  unicast := by
    intro tag
    show load8 (sampleIngress tag).1 0 &&& 1 = 0
    unfold sampleIngress
    split_ifs <;> rfl
  nonzero := by
    intro tag
    show sampleIngress tag ≠ zeroMac
    unfold sampleIngress
    split_ifs <;> decide
  distinct := by
    have hinj : ∀ a ∈ sampleNames, ∀ b ∈ sampleNames, sampleIngress a = sampleIngress b → a = b := by
      decide
    rintro tag ⟨f, hf, rfl⟩ chain hc tag' htag'
    exact hinj _ (hfunctions f hf) _ (hnodes chain hc tag' htag')

/-- A packet of `pingFlow`. -/
def echoFrame : Bytes := packetOf ⟨0x0A000001, 0x0A000002, 0, 0, IPPROTO_ICMP⟩

/-- The frame with which it enters chain 1 at `fw`. -/
def echoEntry : Bytes := nshFrame (sampleIngress "fw") zeroMac (proxyNsh 0x1FF noContext) echoFrame

/-- A packet of `pongFlow`. -/
def replyFrame : Bytes := packetOf ⟨0x0A000002, 0x0A000001, 0, 0, IPPROTO_ICMP⟩

/-- The frame with which it enters chain 2 at `ids`. -/
def replyEntry : Bytes := nshFrame (sampleIngress "ids") zeroMac (proxyNsh 0x2FF noContext) replyFrame

theorem plainPacket_echoFrame : PlainPacket echoFrame :=
  plainPacket_packetOf ⟨Or.inr (Or.inr rfl), fun _ => ⟨rfl, rfl⟩⟩

theorem plainPacket_replyFrame : PlainPacket replyFrame :=
  plainPacket_packetOf ⟨Or.inr (Or.inr rfl), fun _ => ⟨rfl, rfl⟩⟩

/-- Two local functions, deployed. -/
theorem valid_pair : (sampleDeployment pairConfig).Valid parsePing id pairManager := by
  exact sampleDeployment_valid rfl (by decide) (pairManager_addr rfl rfl) (by decide) (by decide)

/-- The addresses that all four functions have said hello with. -/
theorem mixedManager_addr (tag : String) (client : CBClient) (h : mixedManager tag = some client) :
    client.addr = helloAddress pairTopology sampleIngress tag := by
  unfold mixedManager at h
  split_ifs at h with hfw hnat hids hlb
  · rw [← Option.some.inj h, hfw]
    rfl
  · rw [← Option.some.inj h, hnat]
    rfl
  · rw [← Option.some.inj h, hids]
    rfl
  · rw [← Option.some.inj h, hlb]
    rfl

/-- The two chains of local and remote functions, deployed. -/
theorem valid_mixed : (sampleDeployment mixedConfig).Valid parsePing id mixedManager :=
  sampleDeployment_valid rfl (by decide) mixedManager_addr (by decide) (by decide)

/-- A reply that has left chain 2, and a packet that has come to `nat`. -/
def earlierPackets : List (Bytes × ℕ) := [(replyEntry, 5), (echoEntry, 2)]

/-- In the chain of five positions, over a direct link, over the network, and to a node that occurs
again, a packet behind two others is handed out at most five times. -/
theorem no_forwarding_loop_mixed :
    (sampleDeployment mixedConfig).Ends 5
      ⟨(sampleDeployment mixedConfig).after
        ((sampleDeployment mixedConfig).start parsePing id mixedManager) earlierPackets,
        .wire echoEntry⟩ := by
  have hun : ∀ p : Pos mixedConfig, p.Unambiguous := by decide
  exact Deployment.no_forwarding_loop _ parsePing id mixedManager valid_mixed ⟨0, by decide⟩
    (fun p _ => hun p) earlierPackets "fw" rfl zeroMac (proxyNsh 0x1FF noContext)
    (proxyNsh_path _ _) rfl echoFrame (flowOf echoFrame).toNetwork plainPacket_echoFrame.keyed

/-- The chain that comes back to its first node, deployed. -/
theorem valid_loop : (sampleDeployment loopConfig).Valid parsePing id mixedManager :=
  sampleDeployment_valid rfl (by decide) mixedManager_addr (by decide) (by decide)

/-- A packet of the chain's flow that enters it, the first one after the installation, is handed out
more often than the chain has nodes. -/
theorem not_no_forwarding_loop :
    (sampleDeployment loopConfig).Valid parsePing id mixedManager ∧
      PlainPacket echoFrame ∧ pingFlow.parse parsePing = some (flowOf echoFrame) ∧
      ¬ (sampleDeployment loopConfig).Ends 4
        ⟨(sampleDeployment loopConfig).start parsePing id mixedManager, .wire echoEntry⟩ := by
  refine ⟨valid_loop, plainPacket_echoFrame, by decide, fun h => ?_⟩
  have hlong : ((sampleDeployment loopConfig).handOuts 8
      ⟨(sampleDeployment loopConfig).start parsePing id mixedManager, .wire echoEntry⟩).length = 5 := by
    decide +kernel
  have hbound := h.2 8
  omega

end ChainingBox
