import ChainingBox.Network.Programs

/-!
# Exchanged addresses

A redirecting program that exchanges IP addresses makes a packet of another flow, and the egress
stages know it by that flow. So it does not go on along its chain: if the node has nothing saved for
the other flow, it leaves right there, and if the node has saved the header of a packet of the other
flow, it goes on along the chain of that one (`swap_splices`).
-/

namespace ChainingBox

open Lib

namespace Deployment

variable {d : Deployment} {parseIP : ParseIP} {order : List String → List String} {cbm : CBManager}
  {serve : Services}

/-- A function that returns a packet of another flow, for which the node has nothing saved, lets the
packet out of its chain. -/
theorem serves_unsaved (hv : d.Valid parseIP order cbm) (hcfg : Chainable d.cfg) {p : Pos d.cfg}
    (hp : ¬ p.Linked) {net : Net} (hkeeps : d.Keeps (d.start parseIP order cbm) net)
    {inner out : Bytes} (hserve : serve p.node inner = some out) (hplain : PlainPacket out)
    (hnone : (net p.node).nsh_data.lookup (flowOf out).toNetwork = none) :
    d.Serves serve [p.node] inner ⟨net, .handed p.node inner⟩ := by
  have hsame : (⟨net, .handed p.node inner⟩ : Flight).place = .handed p.node inner := rfl
  refine serves_of_left hsame hserve ?_
  rw [nextBy_some hsame hserve, next_egress (peer_of_not_linked hv hcfg hp),
    hplain.keyed.egress_unsaved hnone, hkeeps.src_mac,
    start_src_mac hv, ← boot_egress hv hcfg hp]
  rfl

/-- If the node has saved a header of another chain for it, it goes on along that chain. -/
theorem serves_saved (hv : d.Valid parseIP order cbm) (hcfg : Chainable d.cfg) {q : Pos d.cfg}
    {net : Net} (hkeeps : d.Keeps (d.start parseIP order cbm) net) {inner out : Bytes} {f : Ip5tuple}
    (hserve : serve q.node inner = some out) (hplain : PlainPacket out) (hf : flowOf out = f)
    (hgrants : ∀ out, flowOf out = f → d.kernel.grantsRoom out)
    (hfit : RulesFit parseIP cbm d.cfg q.chain)
    (hflow : ∃ flow ∈ q.chain.Flows, flow.parse parseIP = some f)
    (hkeep : ∀ tag ∈ q.chain.Nodes.drop (q.i.1 + 1), KeepsFlow (serve tag)) {nsh : Nsh}
    (hsaved : (net q.node).nsh_data.lookup f.toNetwork = some nsh)
    (hpath : nsh.path = sphAt q.chain q.i + 1) (hproto : load8 nsh.1 3 = NSH_NEXT_PROTO_ETHER)
    (hroom : ∀ n ∈ q.chain.Nodes, d.topo.omitIngress n = false → (net n).nsh_data.Room f.toNetwork) :
    d.Serves serve (q.node :: q.chain.Nodes.drop (q.i.1 + 1)) inner
      ⟨net, .handed q.node inner⟩ := by
  subst hf
  have hsame : (⟨net, .handed q.node inner⟩ : Flight).place = .handed q.node inner := rfl
  have hnext := @nextBy_some serve d q.node inner out _ hsame hserve
  have hI (s : Flight) (_ : s.place.key = some (flowOf out).toNetwork) (_ : True) : True := trivial
  have hrest (h : q.i.1 + 1 < q.chain.Nodes.length) (s : Flight)
      (hs : d.Carried (d.start parseIP order cbm) out (q.next h) s) (_ : True) :
      d.Serves serve (q.chain.Nodes.drop (q.i.1 + 1)) out s :=
    @serves_of_carried serve d parseIP order cbm _ hv hcfg hgrants (q.next h) hfit hflow hkeep out
      hplain rfl s hs
  rcases @goes_of_carried serve d parseIP order cbm (fun _ => True) _ hv hcfg hI q out hplain rfl
    (hgrants out rfl) hfit hflow _ hrest _
    (carried_of_saved hcfg hkeeps hplain hsaved hpath hproto hroom) trivial with ⟨hnone, hleft⟩ | hgoes
  · have hnil : q.chain.Nodes.drop (q.i.1 + 1) = [] :=
      List.drop_eq_nil_of_le (List.getElem?_eq_none_iff.1 hnone)
    rw [hnil]
    exact serves_of_left hsame hserve (by rw [hnext, hleft])
  · exact serves_of_next hsame hserve (by rwa [hnext])

end Deployment

/-- A packet that enters its chain, whatever packets came before, where the program at some position
exchanges the IP addresses of what it redirects, and those in front of it do not. It goes through the
programs up to this position. If the node there has nothing saved for the flow with exchanged
addresses, it leaves behind this node; if the node has saved a header that belongs to a position of a
chain of that flow, it goes on through the programs behind that position. -/
theorem swap_splices (d : Deployment) (parseIP : ParseIP) (order : List String → List String)
    (cbm : CBManager) (hv : d.Valid parseIP order cbm) (hcfg : Chainable d.cfg)
    (programs : String → Program) (ifindex : String → BitVec 32) (earlier : List (Bytes × ℕ))
    (e : Entrant) (he : e.Enters d parseIP cbm)
    (hne : TcRedirect.swapAddresses (flowOf e.inner) ≠ flowOf e.inner)
    (hgrants : ∀ out, d.kernel.grantsRoom out)
    (hspare : d.Spare (d.afterBy (Program.services programs ifindex) (d.start parseIP order cbm)
      earlier) [e.key, (TcRedirect.swapAddresses (flowOf e.inner)).toNetwork])
    (p : Pos d.cfg) (hchain : p.chain = e.chain) (hp : ¬ p.Linked)
    (hkeep : ∀ tag ∈ e.chain.Nodes.take p.i, (programs tag).KeepsAddresses)
    (egress_ifindex : BitVec 32) (info : TcRedirect.Info)
    (hprogram : programs p.node = .ingressRedirect egress_ifindex info)
    (hswap : info.ops &&& TcRedirect.SWAP_IP ≠ 0) :
    ((d.afterBy (Program.services programs ifindex) (d.start parseIP order cbm) earlier
          p.node).nsh_data.lookup (TcRedirect.swapAddresses (flowOf e.inner)).toNetwork = none →
        d.Serves (Program.services programs ifindex) (e.chain.Nodes.take p.i ++ [p.node]) e.inner
          ⟨d.afterBy (Program.services programs ifindex) (d.start parseIP order cbm) earlier,
            e.place d⟩) ∧
      ∀ (q : Pos d.cfg) (nsh : Nsh), q.node = p.node →
        (d.afterBy (Program.services programs ifindex) (d.start parseIP order cbm) earlier
          p.node).nsh_data.lookup (TcRedirect.swapAddresses (flowOf e.inner)).toNetwork = some nsh →
        nsh.path = sphAt q.chain q.i + 1 → load8 nsh.1 3 = NSH_NEXT_PROTO_ETHER →
        RulesFit parseIP cbm d.cfg q.chain →
        (∃ flow ∈ q.chain.Flows,
          flow.parse parseIP = some (TcRedirect.swapAddresses (flowOf e.inner))) →
        (∀ tag ∈ q.chain.Nodes.drop (q.i.1 + 1), (programs tag).KeepsAddresses) →
        d.Serves (Program.services programs ifindex)
          (e.chain.Nodes.take p.i ++ p.node :: q.chain.Nodes.drop (q.i.1 + 1)) e.inner
          ⟨d.afterBy (Program.services programs ifindex) (d.start parseIP order cbm) earlier,
            e.place d⟩ := by
  set serve := Program.services programs ifindex with hserves
  set net := d.afterBy serve (d.start parseIP order cbm) earlier with hnet
  set f := flowOf e.inner with hflow
  set f' := TcRedirect.swapAddresses f with hflow'
  have hkeeps : d.Keeps (d.start parseIP order cbm) net := Deployment.keeps_afterBy _ earlier
  have hkeys : e.key ≠ f'.toNetwork := fun h => hne (Ip5tuple.toNetwork_injective h).symm
  -- Until the packet is at the position, nothing is saved for the other flow.
  let I : Net → Prop := fun net' => d.Spare net' [e.key, f'.toNetwork] ∧
    (net' p.node).nsh_data.lookup f'.toNetwork = (net p.node).nsh_data.lookup f'.toNetwork
  have hI (s : Flight) (hkey : s.place.key = some f.toNetwork) (hs : I s.net) : I (d.next s).net := by
    obtain ⟨hroom, hsaved⟩ := Deployment.next_apart hkeys hkey hs.1
    exact ⟨hroom, (hsaved p.node).trans hs.2⟩
  have hroom (tag : String) (homit : d.topo.omitIngress tag = false) :
      (net tag).nsh_data.Room e.key := (hspare tag homit).room List.mem_cons_self
  obtain ⟨p₀, hchain₀, hzero, harrive⟩ := he.arrives hv hcfg hkeeps hroom
  have hstart : p₀.c = p.c := by
    have hpos : 0 < p.chain.Nodes.length := (Nat.zero_le _).trans_lt p.i.2
    have hsame := @Chainable.eq_of_sphAt_eq _ hcfg p₀ ⟨p.c, ⟨0, hpos⟩⟩
      (by rw [hzero, hchain₀, ← hchain]; rfl)
    rw [← hsame]
  have hlater {nodes : List String} (hend : ∀ (out : Bytes) (s : Flight), PlainPacket out →
      flowOf out = f → d.Carried (d.start parseIP order cbm) out p s → I s.net →
        d.Serves serve nodes out s) :
      d.Serves serve (e.chain.Nodes.take p.i ++ nodes) e.inner ⟨net, e.place d⟩ := by
    apply Deployment.serves_of_next_wire
    have hupto := @Deployment.serves_upto serve d parseIP order cbm I f hv hcfg hI
      (fun out _ => hgrants out) p (hchain ▸ he.fits) (hchain ▸ he.flow) nodes hend p.i p₀ hstart
      (by rw [hzero, Nat.zero_add]) (fun tag htag => Program.keepsFlow_services ifindex
        (hkeep tag (hchain ▸ List.mem_of_mem_drop htag))) e.inner he.plain rfl _ harrive
      (hI ⟨net, e.place d⟩ (Entrant.key_place he) ⟨hspare, rfl⟩)
    rwa [hzero, List.drop_zero, hchain] at hupto
  -- What the program at the position returns has the other flow.
  have hreturns {inner out : Bytes} (hplain : PlainPacket inner) (hf : flowOf inner = f)
      (h : serve p.node inner = some out) : PlainPacket out ∧ flowOf out = f' := by
    have hout := (Program.of_returns h).1
    rw [hprogram] at hout
    rw [hout]
    refine ⟨TcRedirect.plainPacket_edit hplain, ?_⟩
    exact (TcRedirect.flowOf_edit hplain.header).trans ((if_pos hswap).trans (by rw [hf]))
  refine ⟨fun hnone => hlater fun inner s hplain hf hs hs' => ?_,
    fun q nsh hnode hsaved hpath hproto hfit hflows hrest => hlater fun inner s hplain hf hs hs' => ?_⟩
  · obtain ⟨net', place⟩ := s
    obtain rfl : place = .handed p.node inner := hs.at_pos.place
    cases hserve : serve p.node inner with
    | none => exact Deployment.serves_of_kept rfl hserve
    | some out =>
      obtain ⟨hplain', hf'⟩ := hreturns hplain hf hserve
      exact Deployment.serves_unsaved hv hcfg hp hs.at_pos.keeps hserve hplain'
        (by rw [hf', hs'.2, hnone])
  · obtain ⟨net', place⟩ := s
    obtain rfl : place = .handed p.node inner := hs.at_pos.place
    cases hserve : serve p.node inner with
    | none => exact Deployment.serves_of_kept rfl hserve
    | some out =>
      obtain ⟨hplain', hf'⟩ := hreturns hplain hf hserve
      rw [← hnode] at hserve ⊢
      refine Deployment.serves_saved hv hcfg hs.at_pos.keeps hserve hplain' hf'
        (fun out _ => hgrants out) hfit hflows
        (fun tag htag => Program.keepsFlow_services ifindex (hrest tag htag)) ?_ hpath hproto
        fun n _ homit => (hs'.1 n homit).room (List.mem_cons_of_mem _ List.mem_cons_self)
      rw [hnode, hs'.2, hsaved]

/-! ## A ping and its reply -/

/-- A redirecting program that exchanges all addresses at `ids`, and one that exchanges none at the
other nodes. -/
def swapPrograms : String → Program := fun tag =>
  if tag = "ids" then .ingressRedirect 3 ⟨0, zeroMac, TcRedirect.SWAP_IP ||| TcRedirect.SWAP_MAC⟩
  else .ingressRedirect 3 ⟨0, zeroMac, 0⟩

/-- The two chains of local and remote functions. -/
def mixedDeployment : Deployment := sampleDeployment mixedConfig

/-- Their maps after the installation. -/
def mixedNet : Net := mixedDeployment.start parsePing id mixedManager

/-- Only `nat` has proxy entries. -/
theorem mixedNet_nsh_data {tag : String} (h : tag ≠ "nat") : (mixedNet tag).nsh_data = .empty := by
  have hends : ∀ p : Pos mixedConfig, mixedConfig.lastLinked p.chain p.i → p.node = "nat" := by decide
  have hproxy : (rulesOf parsePing mixedManager mixedDeployment.cfg tag).Proxy = [] := by
    rw [List.eq_nil_iff_forall_not_mem]
    intro r hr
    obtain ⟨p, hnode, hlast, -⟩ := mem_rulesOf_proxy.1 hr
    exact h (hnode.symm.trans (hends p hlast))
  rw [mixedNet, mixedDeployment.start_eq valid_mixed, handleInstall_nsh_data, hproxy]
  rfl

/-- The maps when a reply has come to `ids`, where it enters its chain. -/
def repliedNet : Net := mixedNet.save "ids"
  ((mixedNet "ids").nsh_data.put (flowOf replyFrame).toNetwork (proxyNsh 0x2FF noContext))

/-- One step of the reply takes it there, whatever the functions do. -/
theorem afterBy_reply (serve : Services) :
    mixedDeployment.afterBy serve mixedNet [(replyEntry, 1)] = repliedNet := by
  have hkeeps : mixedDeployment.Keeps mixedNet mixedNet := Deployment.keeps_refl mixedNet
  have hnext := Deployment.next_wire valid_mixed hkeeps plainPacket_replyFrame.keyed
    (proxyNsh_next_proto 0x2FF noContext) (by decide : mixedDeployment.receiver replyEntry = some "ids")
  exact congrArg Flight.net hnext

/-- A ping enters chain 1. -/
def echoEntrant : Entrant :=
  ⟨⟨1, ["fw", "nat", "ids", "lb", "ids"], [pingFlow]⟩, "fw", zeroMac, proxyNsh 0x1FF noContext,
    echoFrame⟩

/-- It is a packet of the chain's flow. -/
theorem enters_echo : echoEntrant.Enters mixedDeployment parsePing mixedManager where
  mem := List.mem_cons_self
  fits := by
    unfold RulesFit
    decide
  plain := plainPacket_echoFrame
  flow := ⟨pingFlow, List.mem_singleton_self _, by decide⟩
  grants := rfl
  head := rfl
  path := proxyNsh_path _ _
  proto := rfl

/-- There is room for a ping and a reply, before and after the reply. -/
theorem spare_mixed {net : Net} (h : net = mixedNet ∨ net = repliedNet) :
    mixedDeployment.Spare net [echoEntrant.key, (flowOf replyFrame).toNetwork] := by
  intro tag homit
  have hne : tag ≠ "nat" := by
    rintro rfl
    exact absurd homit (by decide)
  rcases h with rfl | rfl
  · rw [mixedNet_nsh_data hne]
    exact Nat.le_of_ble_eq_true rfl
  · obtain rfl | hids := eq_or_ne tag "ids"
    · rw [repliedNet, save_nsh_data_self, mixedNet_nsh_data hne]
      decide +kernel
    · rw [repliedNet, save_nsh_data_of_ne _ _ _ hids, mixedNet_nsh_data hne]
      exact Nat.le_of_ble_eq_true rfl

/-- A ping, whose chain goes on from `ids` to `lb` and to `ids` again, leaves it behind `ids`. When
the reply has come to `ids` before, the ping goes on along the chain of the replies, to `lb`, and
leaves there. -/
theorem swap_splices_mixed :
    mixedDeployment.Serves (Program.services swapPrograms fun _ => 3) ["fw", "nat", "ids"] echoFrame
        ⟨mixedNet, .wire echoEntry⟩ ∧
      mixedDeployment.Serves (Program.services swapPrograms fun _ => 3) ["fw", "nat", "ids", "lb"]
        echoFrame ⟨repliedNet, .wire echoEntry⟩ := by
  have hkeep (tag : String) (h : tag ≠ "ids") : (swapPrograms tag).KeepsAddresses := by
    rw [swapPrograms, if_neg h]
    rfl
  have hfront : ∀ tag ∈ ["fw", "nat"], tag ≠ "ids" := by decide
  have hbehind : ∀ tag ∈ ["lb"], tag ≠ "ids" := by decide
  have hsplice (earlier : List (Bytes × ℕ)) (hspare) :=
    swap_splices mixedDeployment parsePing id mixedManager valid_mixed chainable_mixed swapPrograms
      (fun _ => 3) earlier echoEntrant enters_echo (by decide) (fun _ => rfl) hspare
      ⟨⟨0, by decide⟩, ⟨2, by decide⟩⟩ rfl (by decide) (fun tag htag => hkeep tag (hfront tag htag)) 3
      ⟨0, zeroMac, TcRedirect.SWAP_IP ||| TcRedirect.SWAP_MAC⟩ rfl (by decide)
  have hreply := afterBy_reply (Program.services swapPrograms fun _ => 3)
  constructor
  · have hnone : (mixedNet "ids").nsh_data.lookup (flowOf replyFrame).toNetwork = none := by
      rw [mixedNet_nsh_data (by decide)]
      rfl
    exact (hsplice [] (spare_mixed (Or.inl rfl))).1 hnone
  · have hsaved : (repliedNet "ids").nsh_data.lookup (flowOf replyFrame).toNetwork =
        some (proxyNsh 0x2FF noContext) := by
      rw [repliedNet, save_nsh_data_self, mixedNet_nsh_data (by decide)]
      exact BoundedMap.lookup_put_self _ (Or.inr (by decide))
    rw [← hreply] at hsaved ⊢
    refine (hsplice [(replyEntry, 1)] (spare_mixed (Or.inr hreply))).2
      ⟨⟨1, by decide⟩, ⟨0, by decide⟩⟩ _ rfl hsaved (proxyNsh_path _ _) rfl ?_
      ⟨pongFlow, List.mem_singleton_self _, by decide⟩ fun tag htag => hkeep tag (hbehind tag htag)
    unfold RulesFit
    decide

end ChainingBox
