import ChainingBox.Control.Server
import ChainingBox.Network.Swarm

/-!
# From the first agent to the last packet

The whole life of a deployment: agents connect to an empty manager while it installs the
configuration, each agent installs the rules that it is sent, and then packets come. When the
installation has ended without an error, the maps are those of a `Valid` deployment
(`valid_of_server`), and packets of different flows are delivered (`service_delivers`).
-/

namespace ChainingBox

open Lib

/-- The ingress interfaces have unicast addresses, and different ones for different nodes. -/
structure Deployment.Addressed (d : Deployment) : Prop where
  unicast : ∀ tag, load8 (d.ingressMac tag).1 0 &&& 1 = 0
  nonzero : ∀ tag, d.ingressMac tag ≠ zeroMac
  distinct : ∀ tag, d.cfg.Declared tag → ∀ chain ∈ d.cfg.Chains, ∀ tag' ∈ chain.Nodes,
    d.ingressMac tag = d.ingressMac tag' → tag = tag'

/-- Every agent that says Hello announces the address of its ingress interface. -/
def Deployment.Announces (d : Deployment) (es : List ServerEvent) : Prop :=
  ∀ accepts name address, .connection accepts (.hello name address) ∈ es →
    address = helloAddress d.topo d.ingressMac name

section

variable (d : Deployment) (parseIP : ParseIP) (order : List String → List String)

/-- The server after a run that begins with an empty manager. -/
def Deployment.server (es : List ServerEvent) : Server :=
  run (Server.step parseIP order d.cfg) (Server.start d.cfg fun _ => none) es

end

namespace Deployment

variable {d : Deployment} {parseIP : ParseIP} {order : List String → List String}

/-- The map has the addresses that were announced. -/
theorem addr_of_announces {es : List ServerEvent} (h : d.Announces es) {tag : String}
    {client : CBClient} (hclient : (d.server parseIP order es).connectedAgents tag = some client) :
    client.addr = helloAddress d.topo d.ingressMac tag := by
  induction es using List.reverseRecOn with
  | nil => exact absurd hclient (by simp [server, run, Server.start])
  | append_singleton es e ih =>
    have hrest : d.Announces es := fun accepts name address hmem =>
      h accepts name address (List.mem_append_left _ hmem)
    rw [server, run_append] at hclient
    cases e with
    | tick => exact ih hrest hclient
    | connection accepts msg =>
      cases msg with
      | hello name address =>
        by_cases htag : tag = name
        · subst htag
          have hself : some client = some ⟨accepts, address⟩ :=
            hclient.symm.trans (Function.update_self ..)
          rw [Option.some.inj hself]
          exact h accepts tag address (List.mem_append_right _ (List.mem_singleton_self _))
        · exact ih hrest ((Function.update_of_ne htag _ _).symm.trans hclient)
      | install rules => exact ih hrest hclient
      | none => exact ih hrest hclient

/-- When the installation has ended without an error, the maps that it leads to are those of an
installation in one step, with the agents connected at some moment of the run. -/
theorem valid_of_server (horder : ∀ l, (order l).Perm l) (hlinks : deployLinks d.cfg = some d.topo)
    (haddr : d.Addressed) {es : List ServerEvent}
    (hfresh : Along (Server.step parseIP order d.cfg) Server.Fresh
      (Server.start d.cfg fun _ => none) es)
    (hannounces : d.Announces es) (hended : (d.server parseIP order es).phase = .ended .nil) :
    ∃ cbm, d.Valid parseIP order cbm ∧
      d.install (d.server parseIP order es).sent = d.start parseIP order cbm := by
  have hinv : (Server.start d.cfg fun _ => none).Inv parseIP order d.cfg :=
    ⟨rfl, [], rfl, fun f hf => absurd hf List.not_mem_nil⟩
  obtain ⟨es₁, hpart, heq⟩ := Server.of_ended hinv (fun r h => by simp [Server.start] at h) hfresh
    hended
  refine ⟨(d.server parseIP order es₁).connectedAgents,
    ⟨hlinks, horder, congrArg Outcome.result heq.symm, fun tag client hclient => ?_, haddr.unicast,
      haddr.nonzero, haddr.distinct⟩, ?_⟩
  · refine addr_of_announces (fun accepts name address hmem => ?_) hclient
    exact hannounces accepts name address (hpart.subset hmem)
  · exact congrArg (fun out => d.install out.sent) heq

end Deployment

/-- How many forwarding rules a node needs does not depend on the addresses in them. -/
theorem length_rulesOf_fwd (parseIP : ParseIP) (cbm cbm' : CBManager) (cfg : CBConfig)
    (node : String) : (rulesOf parseIP cbm cfg node).Fwd.length =
      (rulesOf parseIP cbm' cfg node).Fwd.length := by
  have hposition (cbm : CBManager) (chain : CBChain) (i : ℕ) :
      (fwdRulesAt cbm cfg chain i).length = if cfg.linked chain i then 0 else 1 := by
    unfold fwdRulesAt
    split_ifs <;> rfl
  have hcount (cbm : CBManager) : (rulesOf parseIP cbm cfg node).Fwd.length =
      (cfg.Chains.map fun chain => (chain.Nodes.zipIdx.map fun pos =>
        if pos.1 = node then if cfg.linked chain pos.2 then 0 else 1 else 0).sum).sum := by
    have hget : (rulesOf parseIP cbm cfg node).Fwd = (fwdList cbm cfg).get node := rfl
    rw [hget, fwdList]
    simp only [Appends.get_flatMap, Appends.get_map, List.length_flatMap, apply_ite List.length,
      hposition, List.length_nil]
  rw [hcount, hcount]

/-- The rules of a chain's nodes fit whatever the addresses in them. -/
theorem RulesFit.congr {parseIP : ParseIP} {cbm : CBManager} {cfg : CBConfig} {chain : CBChain}
    (h : RulesFit parseIP cbm cfg chain) (cbm' : CBManager) : RulesFit parseIP cbm' cfg chain := by
  intro n hn
  obtain ⟨hfwd, hproxy⟩ := h n hn
  exact ⟨by rwa [length_rulesOf_fwd parseIP cbm' cbm], hproxy⟩

theorem Entrant.Enters.congr {d : Deployment} {parseIP : ParseIP} {cbm : CBManager} {e : Entrant}
    (h : e.Enters d parseIP cbm) (cbm' : CBManager) : e.Enters d parseIP cbm' :=
  { h with fits := h.fits.congr cbm' }

/-- Agents connect in any order and while the configuration is being installed, each under its own
name, and the installation ends without an error. Then packets of different flows that enter their
chains at once, whatever packets came before, are delivered under every schedule. -/
theorem service_delivers (d : Deployment) (parseIP : ParseIP) (order : List String → List String)
    (horder : ∀ l, (order l).Perm l) (hlinks : deployLinks d.cfg = some d.topo)
    (haddr : d.Addressed) (hcfg : Chainable d.cfg) (es : List ServerEvent)
    (hfresh : Along (Server.step parseIP order d.cfg) Server.Fresh
      (Server.start d.cfg fun _ => none) es)
    (hannounces : d.Announces es) (hended : (d.server parseIP order es).phase = .ended .nil)
    (earlier : List (Bytes × ℕ)) (entrants : List Entrant)
    (henters : ∀ e ∈ entrants, e.Enters d parseIP (d.server parseIP order es).connectedAgents)
    (hflows : (entrants.map fun e => flowOf e.inner).Nodup)
    (hspare : d.Spare (d.after (d.install (d.server parseIP order es).sent) earlier)
      (entrants.map Entrant.key)) (i : ℕ) (e : Entrant) (hi : entrants[i]? = some e) :
    ∃ n last, e.chain.Nodes.getLast? = some last ∧ ∀ sched : List ℕ, n ≤ sched.count i →
      (d.swarm (d.after (d.install (d.server parseIP order es).sent) earlier)
          (entrants.map (·.place d)) sched).threads[i]? =
        some (.left last (store e.inner 6 (d.egressMac last).1)) ∧
      d.handOutsOf i (d.after (d.install (d.server parseIP order es).sent) earlier)
          (entrants.map (·.place d)) sched = e.chain.Nodes.map (·, e.inner) := by
  obtain ⟨cbm, hv, heq⟩ := Deployment.valid_of_server horder hlinks haddr hfresh hannounces hended
  rw [heq] at hspare ⊢
  exact Entrant.swarm_delivers hv hcfg (Deployment.keeps_after _ earlier)
    (fun e he => (henters e he).congr cbm) hflows hspare hi

/-! ## A run of the server for two directions of one flow -/

theorem addressed_duplex : duplexDeployment.Addressed where
  unicast := valid_duplex.unicast
  nonzero := valid_duplex.nonzero
  distinct := valid_duplex.distinct

/-- One agent connects before the installation and one during its first loop. -/
def duplexRun : List ServerEvent :=
  [.connection true (.hello "fw" (sampleIngress "fw")), .tick,
    .connection true (.hello "nat" (sampleIngress "nat"))] ++ List.replicate 9 .tick

/-- The replies are delivered. -/
theorem service_delivers_duplex :
    ∃ n last, ["fw", "nat"].getLast? = some last ∧ ∀ sched : List ℕ, n ≤ sched.count 1 →
      (duplexDeployment.swarm (duplexDeployment.after
          (duplexDeployment.install (duplexDeployment.server parsePing id duplexRun).sent) [])
          (duplexEntrants.map (·.place duplexDeployment)) sched).threads[1]? =
        some (.left last (store (packetOf ⟨0x0A000002, 0x0A000001, 0, 0, IPPROTO_ICMP⟩) 6
          (duplexDeployment.egressMac last).1)) ∧
      duplexDeployment.handOutsOf 1 (duplexDeployment.after
          (duplexDeployment.install (duplexDeployment.server parsePing id duplexRun).sent) [])
          (duplexEntrants.map (·.place duplexDeployment)) sched =
        ["fw", "nat"].map (·, packetOf ⟨0x0A000002, 0x0A000001, 0, 0, IPPROTO_ICMP⟩) := by
  refine service_delivers duplexDeployment parsePing id List.Perm.refl rfl addressed_duplex
    chainable_duplex duplexRun ?_ ?_ rfl [] duplexEntrants
    (fun e he => (enters_duplex e he).congr _) (by decide) ?_ 1 _ rfl
  · exact ⟨rfl, trivial, rfl, trivial, trivial, trivial, trivial, trivial, trivial, trivial,
      trivial, trivial, trivial⟩
  · intro accepts name address hmem
    simp only [duplexRun, List.mem_append, List.mem_cons, List.mem_replicate, reduceCtorEq,
      List.not_mem_nil, or_false, false_or, and_false, ServerEvent.connection.injEq,
      CBMsg.hello.injEq] at hmem
    rcases hmem with ⟨-, rfl, rfl⟩ | ⟨-, rfl, rfl⟩ <;> rfl
  · exact spare_duplex

end ChainingBox
