import ChainingBox.Functions.Redirect
import ChainingBox.Functions.Firewall
import ChainingBox.Functions.FlowMonitor
import ChainingBox.Functions.LoadBalancer
import ChainingBox.Network.Serving

/-!
# The programs of the functions in a chain

The service functions that the repository comes with, as functions of a chain: the firewall, the flow
monitor, the load balancer, and the redirecting program. What they do with a plain packet depends on
its flow alone (`returns_eq`), and as long as no redirecting program exchanges IP addresses, they keep
it. So a packet is delivered if the program of every node passes its flow, with the edits of all of
them, and otherwise it comes as far as the first node whose program does not (`programs_served`).
-/

namespace ChainingBox

open Lib

/-- A program that a node runs as its service function, with its maps. -/
inductive Program
  | fw (rules : RulesMap) (fw_egress : BitVec 32)
  | flowMonitor (cfg : FlowMonitor.Redirect) (tables : FlowMonitor.Tables)
  | loadbal (l4lb_egress : LoadBalancer.L4lbEgress)
  | ingressRedirect (egress_ifindex : BitVec 32) (infomap : TcRedirect.Info)

/-- The interface that the firewall redirects to. -/
def FwVerdict.ifindex : FwVerdict → Option (BitVec 32)
  | .redirect ifindex => some ifindex
  | .ok | .shot => none

namespace Program

theorem linear_ofNat {frame : Bytes} (h : frame.length < 2 ^ 32) :
    frame.length ≤ (BitVec.ofNat 32 frame.length).toNat := by
  rw [BitVec.toNat_ofNat, Nat.mod_eq_of_lt h]

/-- The interface that the program sends a frame out on, and what it sends. -/
def sends : Program → Bytes → Option (BitVec 32 × Bytes)
  | .fw rules fw_egress, frame =>
    (ChainingBox.fw rules fw_egress frame).ifindex.map (·, frame)
  | .flowMonitor cfg tables, frame =>
    if h : frame.length < 2 ^ 32 then
      (FlowMonitor.flowMonitor cfg tables ⟨frame, _, linear_ofNat h⟩).ifindex.map (·, frame)
    else none
  | .loadbal l4lb_egress, frame => (LoadBalancer.loadbal l4lb_egress frame).port.map (·, frame)
  | .ingressRedirect egress_ifindex infomap, frame =>
    let out := TcRedirect.ingressRedirect egress_ifindex infomap frame
    out.ifindex.map (·, out.frame)

/-- The frame that comes back to the chain: it must go out on the egress interface of the node. -/
def returns (p : Program) (ifindex : BitVec 32) (frame : Bytes) : Option Bytes :=
  (p.sends frame).bind fun s => if s.1 = ifindex then some s.2 else none

/-! ## Flows that pass -/

/-- The program sends packets of a flow to the interface. -/
def passes (ifindex : BitVec 32) (f : Ip5tuple) : Program → Bool
  | .fw rules fw_egress =>
    fw_egress = ifindex ∧ ((rules.lookup f.toNetwork).getD FW_ACTION_PASS = FW_ACTION_PASS)
  | .flowMonitor cfg _ => cfg.egress_ifindex = ifindex ∧ cfg.srcip = f.toNetwork.ip_src
  | .loadbal l4lb_egress => LoadBalancer.hashGetDest l4lb_egress f.toNetwork = some ifindex
  | .ingressRedirect egress_ifindex infomap =>
    egress_ifindex = ifindex ∧ (infomap.srcip = 0 ∨ infomap.srcip = f.toNetwork.ip_src)

/-- What it changes in a packet that it sends. -/
def edits : Program → Bytes → Bytes
  | .ingressRedirect _ infomap, frame => TcRedirect.edit infomap frame
  | _, frame => frame

/-- The program does not exchange IP addresses. -/
def KeepsAddresses : Program → Prop
  | .ingressRedirect _ infomap => infomap.ops &&& TcRedirect.SWAP_IP = 0
  | _ => True

variable {frame : Bytes}

/-- The source address as the programs load it. -/
theorem load32_src (frame : Bytes) : load32 frame (14 + 12) = (flowOf frame).toNetwork.ip_src :=
  (htonl_append _ _ _ _).symm

theorem fw_plainPacket (rules : RulesMap) (fw_egress : BitVec 32) (hplain : PlainPacket frame) :
    ChainingBox.fw rules fw_egress frame =
      if (rules.lookup (flowOf frame).toNetwork).getD FW_ACTION_PASS = FW_ACTION_PASS then
        .redirect fw_egress
      else .shot := by
  have hlen := hplain.header
  unfold ChainingBox.fw
  rw [if_neg (by omega), if_neg (not_not_intro hplain.ethertype), getTuple_of_plainPacket hplain]
  dsimp only
  cases rules.lookup (flowOf frame).toNetwork <;> rfl

theorem flowMonitor_plainPacket (cfg : FlowMonitor.Redirect) (tables : FlowMonitor.Tables)
    {skb : FlowMonitor.Skb} (hplain : PlainPacket skb.data) :
    (FlowMonitor.flowMonitor cfg tables skb).ifindex =
      if cfg.srcip = (flowOf skb.data).toNetwork.ip_src then some cfg.egress_ifindex else none := by
  have hlen := hplain.header
  have hip : htons (load16 skb.data 12) = ETH_P_IP := by
    rw [hplain.ethertype]
    exact bswap16_bswap16 _
  have hlook (entry : BitVec 32) : FlowMonitor.lookupArray entry 0 = some entry := rfl
  unfold FlowMonitor.flowMonitor
  rw [if_neg (by omega), if_neg (not_not_intro hip), getTuple_of_plainPacket hplain]
  simp only [hlook, load32_src]
  by_cases hsrc : cfg.srcip = (flowOf skb.data).toNetwork.ip_src
  · rw [if_neg (not_not_intro hsrc), if_pos hsrc]
  · rw [if_pos hsrc, if_neg hsrc]

theorem loadbal_plainPacket (l4lb_egress : LoadBalancer.L4lbEgress) (hplain : PlainPacket frame) :
    (LoadBalancer.loadbal l4lb_egress frame).port =
      LoadBalancer.hashGetDest l4lb_egress (flowOf frame).toNetwork := by
  have hlen := hplain.header
  have hihl : load8 frame 14 &&& 0xF = 5 := by
    rw [hplain.version]
    rfl
  have hfrag : load16 frame (14 + 6) &&& LoadBalancer.IP_FRAGMENTED = 0 := by
    obtain ⟨hflags, hoffset⟩ := hplain.unfragmented
    have hbits : ∀ b : Byte, b &&& 0x3F = 0 →
        ((0 : Byte) ++ b : BitVec 16) &&& LoadBalancer.IP_FRAGMENTED = 0 := by decide
    rw [load16, hoffset]
    exact hbits _ hflags
  unfold LoadBalancer.loadbal LoadBalancer.processPacket
  rw [if_neg (by omega), if_pos hplain.ethertype, if_neg (by omega), if_neg (not_not_intro hihl),
    if_neg (not_not_intro hfrag), getTuple_of_plainPacket hplain]
  dsimp only
  cases LoadBalancer.hashGetDest l4lb_egress (flowOf frame).toNetwork <;> rfl

/-- What comes back of a plain packet. -/
theorem returns_eq (p : Program) (ifindex : BitVec 32) (hplain : PlainPacket frame)
    (hlen : frame.length < 2 ^ 32) : p.returns ifindex frame =
      if p.passes ifindex (flowOf frame) then some (p.edits frame) else none := by
  cases p with
  | fw rules fw_egress =>
    rw [returns, sends, fw_plainPacket rules fw_egress hplain]
    by_cases hpass : (rules.lookup (flowOf frame).toNetwork).getD FW_ACTION_PASS = FW_ACTION_PASS
    · simp [passes, edits, hpass, FwVerdict.ifindex]
    · simp [passes, hpass, FwVerdict.ifindex]
  | flowMonitor cfg tables =>
    rw [returns, sends, dif_pos hlen, flowMonitor_plainPacket _ _ hplain]
    by_cases hsrc : cfg.srcip = (flowOf frame).toNetwork.ip_src
    · simp [passes, edits, hsrc]
    · simp [passes, hsrc]
  | loadbal l4lb_egress =>
    rw [returns, sends, loadbal_plainPacket l4lb_egress hplain]
    cases hdest : LoadBalancer.hashGetDest l4lb_egress (flowOf frame).toNetwork with
    | none => simp [passes, hdest]
    | some port => simp [passes, edits, hdest]
  | ingressRedirect egress_ifindex infomap =>
    have hselects := @TcRedirect.selects_iff infomap frame hplain
    have hsrc := load32_src frame
    rw [hsrc] at hselects
    rw [returns, sends, TcRedirect.ingressRedirect_eq]
    simp only [passes, edits, ← hselects]
    by_cases hsel : infomap.Selects frame
    · simp [hsel]
    · simp [hsel]

/-- A frame that comes back is the one that the program got, with its edits, and it has the key that it
had. -/
theorem of_returns {p : Program} {ifindex : BitVec 32} {out : Bytes}
    (h : p.returns ifindex frame = some out) :
    out = p.edits frame ∧ (p.KeepsAddresses → ipKey out = ipKey frame) := by
  obtain ⟨⟨i, sent⟩, hsent, hout⟩ := Option.bind_eq_some_iff.1 h
  have hsame : sent = out := by
    dsimp only at hout
    split_ifs at hout
    exact Option.some.inj hout
  subst hsame
  cases p with
  | fw rules fw_egress =>
    obtain ⟨j, -, heq⟩ := Option.map_eq_some_iff.1 hsent
    rw [← (Prod.mk.inj heq).2]
    exact ⟨rfl, fun _ => rfl⟩
  | flowMonitor cfg tables =>
    rw [sends] at hsent
    split_ifs at hsent
    obtain ⟨j, -, heq⟩ := Option.map_eq_some_iff.1 hsent
    rw [← (Prod.mk.inj heq).2]
    exact ⟨rfl, fun _ => rfl⟩
  | loadbal l4lb_egress =>
    obtain ⟨j, -, heq⟩ := Option.map_eq_some_iff.1 hsent
    rw [← (Prod.mk.inj heq).2]
    exact ⟨rfl, fun _ => rfl⟩
  | ingressRedirect egress_ifindex infomap =>
    obtain ⟨j, hj, heq⟩ := Option.map_eq_some_iff.1 hsent
    rw [TcRedirect.ingressRedirect_eq] at hj heq
    split_ifs at hj heq with hsel
    rw [← (Prod.mk.inj heq).2]
    exact ⟨rfl, fun hp => TcRedirect.ipKey_edit hsel.1 hp⟩

/-- What a program sends of a plain packet is a plain packet of the same length, and without an exchange
of IP addresses one of the same flow. -/
theorem plainPacket_edits (p : Program) (hplain : PlainPacket frame) :
    PlainPacket (p.edits frame) ∧ (p.edits frame).length = frame.length ∧
      (p.KeepsAddresses → flowOf (p.edits frame) = flowOf frame) := by
  cases p with
  | ingressRedirect egress_ifindex infomap =>
    refine ⟨TcRedirect.plainPacket_edit hplain, TcRedirect.edit_length hplain.header, fun hp => ?_⟩
    exact (TcRedirect.flowOf_edit hplain.header).trans (if_neg (not_not_intro hp))
  | fw rules fw_egress => exact ⟨hplain, rfl, fun _ => rfl⟩
  | flowMonitor cfg tables => exact ⟨hplain, rfl, fun _ => rfl⟩
  | loadbal l4lb_egress => exact ⟨hplain, rfl, fun _ => rfl⟩

/-- Every node runs a program, and has an egress interface. -/
def services (programs : String → Program) (ifindex : String → BitVec 32) : Services :=
  fun tag => (programs tag).returns (ifindex tag)

variable {programs : String → Program} (ifindex : String → BitVec 32)

theorem keepsFlow_services {tag : String} (hkeep : (programs tag).KeepsAddresses) :
    KeepsFlow (services programs ifindex tag) where
  key := by
    intro frame out h key hkey
    rw [← (of_returns h).2 hkeep]
    exact hkey
  plain := by
    intro frame out h hplain
    rw [(of_returns h).1]
    exact ((programs tag).plainPacket_edits hplain).1

/-- A packet goes through the programs of a row of nodes as long as they pass its flow. -/
theorem through_services (hkeep : ∀ tag, (programs tag).KeepsAddresses) (nodes : List String)
    (hplain : PlainPacket frame) (hlen : frame.length < 2 ^ 32) :
    (through (services programs ifindex) nodes frame).1.map Prod.fst = nodes.take ((nodes.takeWhile
        fun tag => (programs tag).passes (ifindex tag) (flowOf frame)).length + 1) ∧
      (through (services programs ifindex) nodes frame).2 =
        if nodes.all fun tag => (programs tag).passes (ifindex tag) (flowOf frame) then
          some (nodes.foldl (fun out tag => (programs tag).edits out) frame) else none := by
  refine @through_of_class _ _ _ (fun out => PlainPacket out ∧ flowOf out = flowOf frame ∧
    out.length < 2 ^ 32) _ (fun tag out => (programs tag).edits out) ?_ ?_ nodes frame
    ⟨hplain, rfl, hlen⟩
  · rintro tag out ⟨hout, hflow, hshort⟩
    rw [services, returns_eq _ _ hout hshort, hflow]
  · rintro tag out ⟨hout, hflow, hshort⟩ -
    obtain ⟨hedits, hsame, hkept⟩ := (programs tag).plainPacket_edits hout
    exact ⟨hedits, (hkept (hkeep tag)).trans hflow, hsame.trans_lt hshort⟩

end Program

/-- Chains of the repository's programs, none of which exchanges IP addresses: packets of different flows
that enter their chains at once, whatever packets came before. Under every schedule, a packet whose flow
all programs of its chain pass leaves behind the last node, as the programs have edited it one after
another. Any other packet is kept by the first node whose program does not pass its flow, and is
handed to no node behind it. -/
theorem programs_served (d : Deployment) (parseIP : ParseIP) (order : List String → List String)
    (cbm : CBManager) (hv : d.Valid parseIP order cbm) (hcfg : Chainable d.cfg)
    (programs : String → Program) (ifindex : String → BitVec 32)
    (hkeep : ∀ tag, (programs tag).KeepsAddresses) (earlier : List (Bytes × ℕ))
    (entrants : List Entrant) (henters : ∀ e ∈ entrants, e.Enters d parseIP cbm)
    (hlen : ∀ e ∈ entrants, e.inner.length < 2 ^ 32)
    (hgrants : ∀ e ∈ entrants, ∀ out, flowOf out = flowOf e.inner → d.kernel.grantsRoom out)
    (hflows : (entrants.map fun e => flowOf e.inner).Nodup)
    (hspare : d.Spare (d.afterBy (Program.services programs ifindex) (d.start parseIP order cbm)
      earlier) (entrants.map Entrant.key)) (i : ℕ) (e : Entrant) (hi : entrants[i]? = some e) :
    ∃ n last, e.chain.Nodes.getLast? = some last ∧ ∀ sched : List ℕ, n ≤ sched.count i →
      (d.swarmBy (Program.services programs ifindex)
          (d.afterBy (Program.services programs ifindex) (d.start parseIP order cbm) earlier)
          (entrants.map (·.place d)) sched).threads[i]? =
        some (d.ending last (if e.chain.Nodes.all fun tag =>
            (programs tag).passes (ifindex tag) (flowOf e.inner) then
          some (e.chain.Nodes.foldl (fun out tag => (programs tag).edits out) e.inner) else none)) ∧
      (d.handOutsOfBy (Program.services programs ifindex) i
          (d.afterBy (Program.services programs ifindex) (d.start parseIP order cbm) earlier)
          (entrants.map (·.place d)) sched).map Prod.fst =
        e.chain.Nodes.take ((e.chain.Nodes.takeWhile fun tag =>
          (programs tag).passes (ifindex tag) (flowOf e.inner)).length + 1) := by
  have hmem := List.mem_of_getElem? hi
  obtain ⟨hgiven, hret⟩ := Program.through_services ifindex hkeep e.chain.Nodes (henters e hmem).plain
    (hlen e hmem)
  obtain ⟨n, last, hlast, hserved⟩ := Entrant.swarm_serves hv hcfg
    (fun tag => Program.keepsFlow_services ifindex (hkeep tag)) (Deployment.keeps_afterBy _ earlier) henters hgrants
    hflows hspare hi
  refine ⟨n, last, hlast, fun sched hn => ?_⟩
  obtain ⟨hthread, hshown⟩ := hserved sched hn
  rw [hret] at hthread
  rw [← hgiven, hshown]
  exact ⟨hthread, rfl⟩

/-- A firewall that blocks the pongs, and a redirecting program that exchanges the MAC addresses. -/
def duplexPrograms : String → Program := fun tag =>
  if tag = "fw" then
    .fw ((BoundedMap.empty : RulesMap).put ⟨0x0200000A, 0x0100000A, 0, 0, IPPROTO_ICMP⟩
      FW_ACTION_BLOCK) 3
  else .ingressRedirect 3 ⟨0, zeroMac, TcRedirect.SWAP_MAC⟩

theorem keepsAddresses_duplex (tag : String) : (duplexPrograms tag).KeepsAddresses := by
  unfold duplexPrograms
  split_ifs
  · trivial
  · show TcRedirect.SWAP_MAC &&& TcRedirect.SWAP_IP = 0
    decide

/-- The pings and the pongs, with these programs. -/
theorem programs_served_duplex :
    ∃ n last, ["fw", "nat"].getLast? = some last ∧ ∀ sched : List ℕ, n ≤ sched.count 1 →
      (duplexDeployment.swarmBy (Program.services duplexPrograms fun _ => 3) duplexNet duplexPlaces
          sched).threads[1]? =
        some (duplexDeployment.ending last (if ["fw", "nat"].all fun tag =>
            (duplexPrograms tag).passes 3
              (flowOf (packetOf ⟨0x0A000002, 0x0A000001, 0, 0, IPPROTO_ICMP⟩)) then
          some (["fw", "nat"].foldl (fun out tag => (duplexPrograms tag).edits out)
            (packetOf ⟨0x0A000002, 0x0A000001, 0, 0, IPPROTO_ICMP⟩)) else none)) ∧
      (duplexDeployment.handOutsOfBy (Program.services duplexPrograms fun _ => 3) 1 duplexNet
          duplexPlaces sched).map Prod.fst =
        ["fw", "nat"].take ((["fw", "nat"].takeWhile fun tag => (duplexPrograms tag).passes 3
          (flowOf (packetOf ⟨0x0A000002, 0x0A000001, 0, 0, IPPROTO_ICMP⟩))).length + 1) :=
  programs_served duplexDeployment parsePing id duplexManager valid_duplex chainable_duplex
    duplexPrograms (fun _ => 3) keepsAddresses_duplex [] duplexEntrants enters_duplex (by decide)
    (fun _ _ _ _ => rfl) (by decide) spare_duplex 1 _ rfl

/-- The firewall keeps the pongs, and passes the pings. -/
example : (duplexPrograms "fw").passes 3 ⟨0x0A000002, 0x0A000001, 0, 0, IPPROTO_ICMP⟩ = false ∧
    (duplexPrograms "fw").passes 3 ⟨0x0A000001, 0x0A000002, 0, 0, IPPROTO_ICMP⟩ = true := by decide

end ChainingBox
