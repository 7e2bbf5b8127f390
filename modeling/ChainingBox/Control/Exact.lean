import ChainingBox.Control.Install

/-!
# The generated rules are exact

`exactRules` says which rules a node of a configuration needs, position by position and in order,
without the loops of `InstallConfiguration`: a forwarding rule where the packet leaves the node over
the network or leaves the chain, and proxy rules where moreover it came over a direct link.
`install_exact` says that the messages sent hold exactly these rules.

The messages are built from the nodes that have forwarding rules. That no node is left out that has
proxy rules only is a fact about neighbours: a position that needs proxy rules needs a forwarding
rule as well (`fwd_ne_nil_of_proxy`).
-/

namespace ChainingBox

open Lib

/-- A name is that of a remote function. -/
def CBConfig.isRemote (cfg : CBConfig) (name : String) : Bool :=
  (cfg.getNodeByName name).any CBInstance.Remote

/-- The position is the last of its chain, or its successor is remote. -/
def CBConfig.lastOrRemoteNext (cfg : CBConfig) (chain : CBChain) (i : ℕ) : Bool :=
  match chain.Nodes[i + 1]? with
  | none => true
  | some next => cfg.isRemote next

/-- The position, with its node, needs a forwarding rule. -/
def CBConfig.needsFwd (cfg : CBConfig) (chain : CBChain) (pos : String × ℕ) : Bool :=
  cfg.isRemote pos.1 || cfg.lastOrRemoteNext chain pos.2

/-- The position, with its node, needs proxy rules. -/
def CBConfig.needsProxy (cfg : CBConfig) (chain : CBChain) (pos : String × ℕ) : Bool :=
  decide (0 < pos.2) && !(chain.Nodes[pos.2 - 1]?).any cfg.isRemote && !cfg.isRemote pos.1 &&
    cfg.lastOrRemoteNext chain pos.2

/-- The key of the rules of a position: the Id and the service index, in 32 bits. -/
def ruleKey (chain : CBChain) (i : ℕ) : BitVec 32 := chain.Id * 256 ||| (254 - BitVec.ofNat 32 i)

/-- The value of the forwarding rule of a position. -/
def fwdEntryAt (cbm : CBManager) (chain : CBChain) (i : ℕ) : FwdEntry :=
  match chain.Nodes[i + 1]? with
  | none => ⟨1, zeroMac⟩
  | some next => ⟨0, cbm.addr next⟩

/-- The forwarding rules of a node: one for each of its positions that needs one. -/
def exactFwd (cbm : CBManager) (cfg : CBConfig) (node : String) : List FwdRule :=
  cfg.Chains.flatMap fun chain =>
    (chain.Nodes.zipIdx.filter fun pos => decide (pos.1 = node) && cfg.needsFwd chain pos).map
      fun pos => ⟨ruleKey chain pos.2, fwdEntryAt cbm chain pos.2⟩

/-- A flow that parses, parsed. -/
def Ip5tuplestr.parsed (parseIP : ParseIP) (flow : Ip5tuplestr) : Ip5tuple :=
  (flow.parse parseIP).getD ⟨0, 0, 0, 0, 0⟩

/-- The proxy rules of a node: one for each flow of the chain, for each of its positions that needs
them. -/
def exactProxy (parseIP : ParseIP) (cfg : CBConfig) (node : String) : List ProxyRule :=
  cfg.Chains.flatMap fun chain =>
    (chain.Nodes.zipIdx.filter fun pos => decide (pos.1 = node) && cfg.needsProxy chain pos).flatMap
      fun pos => chain.Flows.map fun flow => ⟨flow.parsed parseIP, ruleKey chain pos.2 + 1⟩

/-- The rules of a node. -/
def exactRules (parseIP : ParseIP) (cbm : CBManager) (cfg : CBConfig) (node : String) :
    CBRulesConfig :=
  ⟨exactFwd cbm cfg node, exactProxy parseIP cfg node⟩

/-! ## Neighbours -/

/-- A declared function is local or remote. -/
theorem isLocal_of_declared {cfg : CBConfig} {name : String} (h : cfg.Declared name) :
    cfg.isLocal name = !cfg.isRemote name := by
  obtain ⟨f, hf⟩ := Option.isSome_iff_exists.1 (declared_iff.1 h)
  rw [CBConfig.isLocal, CBConfig.isRemote, hf, Option.any_some, Option.any_some]

section Declared

variable {cfg : CBConfig} {chain : CBChain} (hdecl : ∀ n ∈ chain.Nodes, cfg.Declared n)

include hdecl

/-- A forwarding rule is needed where there is no direct link to the next position. -/
theorem needsFwd_eq {pos : String × ℕ} (hpos : pos ∈ chain.Nodes.zipIdx) :
    cfg.needsFwd chain pos = !cfg.linked chain pos.2 := by
  have hget := mem_positions.1 hpos
  have hlocal := isLocal_of_declared (hdecl _ (List.mem_of_getElem? hget))
  rw [CBConfig.needsFwd, CBConfig.lastOrRemoteNext, CBConfig.linked, hget]
  cases hnext : chain.Nodes[pos.2 + 1]? with
  | none => simp
  | some next =>
    dsimp only
    rw [hlocal, isLocal_of_declared (hdecl _ (List.mem_of_getElem? hnext)), Bool.not_and,
      Bool.not_not, Bool.not_not]

/-- Proxy rules are needed where a run of direct links ends. -/
theorem needsProxy_eq {pos : String × ℕ} (hpos : pos ∈ chain.Nodes.zipIdx) :
    cfg.needsProxy chain pos ↔ cfg.lastLinked chain pos.2 := by
  have hget := mem_positions.1 hpos
  have hlocal := isLocal_of_declared (hdecl _ (List.mem_of_getElem? hget))
  have hfwd := needsFwd_eq hdecl hpos
  rw [CBConfig.needsProxy, CBConfig.lastLinked]
  rcases Nat.eq_zero_or_pos pos.2 with hzero | hpositive
  · simp [hzero]
  have hsucc : pos.2 - 1 + 1 = pos.2 := by omega
  obtain ⟨hlt, -⟩ := List.getElem?_eq_some_iff.1 hget
  have hback : chain.Nodes[pos.2 - 1]? = some chain.Nodes[pos.2 - 1] :=
    List.getElem?_eq_getElem (by omega)
  -- The link to the position before is that both of its nodes are local.
  have hlink : cfg.linked chain (pos.2 - 1) =
      (!cfg.isRemote chain.Nodes[pos.2 - 1] && !cfg.isRemote pos.1) := by
    rw [CBConfig.linked, hsucc, hget, hback]
    dsimp only
    rw [hlocal, isLocal_of_declared (hdecl _ (List.getElem_mem _))]
  rw [hlink, hback, Option.any_some]
  rw [CBConfig.needsFwd] at hfwd
  cases hremote : cfg.isRemote pos.1 with
  | true => simp
  | false =>
    rw [hremote, Bool.false_or] at hfwd
    rw [hfwd]
    simp [hpositive]

end Declared

/-! ## The generated lists -/

/-- The key that the source computes. -/
theorem sphAt_eq (chain : CBChain) (i : ℕ) : sphAt chain i = ruleKey chain i := by
  have hshift : chain.Id <<< 8 = chain.Id * 256 := by
    apply BitVec.eq_of_toNat_eq
    rw [BitVec.toNat_shiftLeft, BitVec.toNat_mul, Nat.shiftLeft_eq]
    rfl
  rw [sphAt, ruleKey, hshift]

/-- A position that is not linked to the next one has the rule of its key. -/
theorem fwdRulesAt_of_not_linked {cbm : CBManager} {cfg : CBConfig} {chain : CBChain} {i : ℕ}
    (h : cfg.linked chain i = false) :
    fwdRulesAt cbm cfg chain i = [⟨ruleKey chain i, fwdEntryAt cbm chain i⟩] := by
  rw [← sphAt_eq]
  exact if_neg (ne_true_of_eq_false h)

theorem fwdList_get {cbm : CBManager} {cfg : CBConfig}
    (hdecl : ∀ chain ∈ cfg.Chains, ∀ n ∈ chain.Nodes, cfg.Declared n) (node : String) :
    (fwdList cbm cfg).get node = exactFwd cbm cfg node := by
  rw [fwdList, exactFwd, Appends.get_flatMap]
  refine List.flatMap_congr fun chain hc => ?_
  rw [Appends.get_flatMap, List.map_eq_flatMap, filter_flatMap_eq]
  refine List.flatMap_congr fun pos hpos => ?_
  rw [Appends.get_map, needsFwd_eq (hdecl chain hc) hpos]
  by_cases hnode : pos.1 = node
  · cases hl : cfg.linked chain pos.2 with
    | true => simp [hnode, hl, fwdRulesAt]
    | false => simp [hnode, fwdRulesAt_of_not_linked hl]
  · simp [hnode]

theorem proxyList_get {parseIP : ParseIP} {cfg : CBConfig}
    (hdecl : ∀ chain ∈ cfg.Chains, ∀ n ∈ chain.Nodes, cfg.Declared n)
    (hflows : ∀ chain ∈ cfg.Chains, ∀ f ∈ chain.Flows, (f.parse parseIP).isSome)
    (node : String) : (proxyList parseIP cfg).get node = exactProxy parseIP cfg node := by
  rw [proxyList, exactProxy, Appends.get_flatMap]
  refine List.flatMap_congr fun chain hc => ?_
  rw [Appends.get_flatMap, filter_flatMap_eq]
  refine List.flatMap_congr fun pos hpos => ?_
  -- Each flow parses, so none is left out.
  have hall : (chain.Flows.filterMap fun flow =>
      (flow.parse parseIP).map (⟨·, sphAt chain pos.2 + 1⟩ : Ip5tuple → ProxyRule)) =
      chain.Flows.map fun flow => ⟨flow.parsed parseIP, ruleKey chain pos.2 + 1⟩ := by
    rw [← List.filterMap_eq_map]
    refine List.filterMap_congr fun flow hflow => ?_
    obtain ⟨t, ht⟩ := Option.isSome_iff_exists.1 (hflows chain hc flow hflow)
    rw [ht, Function.comp_apply, Ip5tuplestr.parsed, ht, sphAt_eq]
    rfl
  rw [Appends.get_map, proxyRulesAt, hall]
  have hneeds := needsProxy_eq (hdecl chain hc) hpos
  by_cases hnode : pos.1 = node
  · by_cases hlast : cfg.lastLinked chain pos.2
    · simp [hnode, hlast, hneeds.2 hlast]
    · have hnot : ¬ cfg.needsProxy chain pos := fun h => hlast (hneeds.1 h)
      simp [hnode, hlast, hnot]
  · simp [hnode]

/-! ## The messages -/

/-- What is sent to connected agents is sent in order, without a panic. -/
theorem batchInstallRules_prefix {cbm : CBManager} {l : List (String × CBRulesConfig)}
    (h : ∀ p ∈ l, (cbm p.1).isSome) :
    (batchInstallRules cbm l).result ≠ .panic ∧ (batchInstallRules cbm l).sent <+: l := by
  induction l with
  | nil => exact ⟨by simp [batchInstallRules], List.prefix_rfl⟩
  | cons p l ih =>
    obtain ⟨client, hclient⟩ := Option.isSome_iff_exists.1 (h p List.mem_cons_self)
    obtain ⟨hres, hsent⟩ := ih fun q hq => h q (List.mem_cons_of_mem p hq)
    rw [batchInstallRules, hclient]
    dsimp only
    split_ifs
    · exact ⟨hres, List.prefix_cons_inj p |>.2 hsent⟩
    · exact ⟨by simp, List.nil_prefix⟩

/-- The installation of a configuration whose chain nodes are declared, whose flows parse, and whose
functions are connected. It does not panic; every message sent holds exactly the rules of its node;
once everything is sent, a node has got a message, and one only, if and only if it has any rules; and
everything is sent when the connections accept the writes. -/
theorem install_exact (parseIP : ParseIP) (order : List String → List String)
    (horder : ∀ l, (order l).Perm l) (cbm : CBManager) (cfg : CBConfig)
    (hdecl : ∀ chain ∈ cfg.Chains, ∀ n ∈ chain.Nodes, cfg.Declared n)
    (hflows : ∀ chain ∈ cfg.Chains, ∀ f ∈ chain.Flows, (f.parse parseIP).isSome)
    (hconn : ∀ f ∈ cfg.Functions, (cbm f.Tag).isSome) :
    let out := installConfiguration parseIP order cbm cfg
    out.result ≠ .panic ∧
    (∀ p ∈ out.sent, p.2 = exactRules parseIP cbm cfg p.1) ∧
    (out.result = .nil → ∀ node, (out.sent.filter fun p => p.1 = node) =
      if exactFwd cbm cfg node = [] ∧ exactProxy parseIP cfg node = [] then []
      else [(node, exactRules parseIP cbm cfg node)]) ∧
    ((∀ tag client, cbm tag = some client → client.accepts) → out.result = .nil) := by
  have hgen : ∀ chain ∈ cfg.Chains, Generates parseIP cfg chain := fun chain hc =>
    ⟨fun _ n hn => declared_iff.1 (hdecl chain hc n hn), fun _ => hflows chain hc⟩
  have hrules (node : String) : rulesOf parseIP cbm cfg node = exactRules parseIP cbm cfg node := by
    rw [rulesOf, exactRules, fwdList_get hdecl, proxyList_get hdecl hflows]
  -- The nodes that are sent to are declared, and so connected.
  have hnode {node : String} (h : node ∈ order (fwdList cbm cfg).keys) : (cbm node).isSome := by
    obtain ⟨chain, hc, hmem⟩ := mem_keys_fwdList ((horder _).mem_iff.1 h)
    obtain ⟨f, hf, rfl⟩ := hdecl chain hc node hmem
    exact hconn f hf
  have hall : ∀ p ∈ nodeCfgs order (fwdList cbm cfg, proxyList parseIP cfg), (cbm p.1).isSome := by
    intro p hp
    obtain ⟨node, hmem, rfl⟩ := List.mem_map.1 hp
    exact hnode hmem
  have hsent : installConfiguration parseIP order cbm cfg =
      batchInstallRules cbm (nodeCfgs order (fwdList cbm cfg, proxyList parseIP cfg)) := by
    rw [installConfiguration_of_connected hconn, genRules_eq hgen]
  obtain ⟨hpanic, hinit⟩ := batchInstallRules_prefix hall
  rw [hsent]
  refine ⟨hpanic, fun p hp => ?_, fun hnil node => ?_, fun haccept => ?_⟩
  · obtain ⟨node, -, rfl⟩ := List.mem_map.1 (hinit.subset hp)
    exact hrules node
  · -- A node without forwarding rules has no proxy rules either.
    rw [(of_batchInstallRules_nil hnil).1, filter_nodeCfgs_rulesOf horder]
    simp only [hrules, exactRules, CBRulesConfig.mk.injEq]
  · rw [batchInstallRules_sent fun p hp => ?_]
    obtain ⟨client, hclient⟩ := Option.isSome_iff_exists.1 (hall p hp)
    exact ⟨client, hclient, haccept p.1 client hclient⟩

/-- The chain of two local functions. -/
theorem install_exact_pair :
    let out := installConfiguration parsePing id pairManager pairConfig
    out.result ≠ .panic ∧
    (∀ p ∈ out.sent, p.2 = exactRules parsePing pairManager pairConfig p.1) ∧
    (out.result = .nil → ∀ node, (out.sent.filter fun p => p.1 = node) =
      if exactFwd pairManager pairConfig node = [] ∧ exactProxy parsePing pairConfig node = [] then []
      else [(node, exactRules parsePing pairManager pairConfig node)]) ∧
    ((∀ tag client, pairManager tag = some client → client.accepts) → out.result = .nil) :=
  install_exact parsePing id (fun _ => List.Perm.refl _) pairManager pairConfig
    (fun _ hc n hn => by
      rw [List.mem_singleton.1 hc] at hn
      rw [declared_iff]
      revert n
      decide)
    (fun _ hc => by
      rw [List.mem_singleton.1 hc]
      decide)
    (by decide)

end ChainingBox
