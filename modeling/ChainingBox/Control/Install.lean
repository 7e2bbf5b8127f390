import ChainingBox.Control.Manager

/-!
# All or nothing

`InstallConfiguration` first looks whether all declared functions are connected, so that it sends
rules either to all nodes or to none. But the nodes that it sends to are those that the chains name,
and the rules of a chain can fail to be generated after the check.

`install_iff` says for which configurations and connected agents the installation is all or nothing,
whatever the order in which Go iterates the map of messages: some declared function is not connected,
or every chain can be installed (`Installs`).
-/

namespace ChainingBox

open Lib

/-! ## Sending -/

/-- Messages to connected agents, all of which accept writes, are all sent. -/
theorem batchInstallRules_sent {cbm : CBManager} {l : List (String × CBRulesConfig)}
    (h : ∀ p ∈ l, ∃ client, cbm p.1 = some client ∧ client.accepts) :
    batchInstallRules cbm l = ⟨l, .nil⟩ := by
  induction l with
  | nil => rfl
  | cons p l ih =>
    obtain ⟨client, hclient, haccepts⟩ := h p List.mem_cons_self
    rw [batchInstallRules, hclient]
    simp only [haccepts, if_true, ih fun q hq => h q (List.mem_cons_of_mem p hq)]

/-- A message to an agent that is not connected panics, if the agents before it accept writes. -/
theorem batchInstallRules_panic {cbm : CBManager} {l : List (String × CBRulesConfig)}
    (haccept : ∀ tag client, cbm tag = some client → client.accepts)
    {p : String × CBRulesConfig} (hp : p ∈ l) (hnone : cbm p.1 = none) :
    (batchInstallRules cbm l).result = .panic := by
  induction l with
  | nil => simp at hp
  | cons q l ih =>
    rw [batchInstallRules]
    cases hq : cbm q.1 with
    | none => rfl
    | some client =>
      have hmem : p ∈ l := by
        rcases List.mem_cons.1 hp with rfl | hmem
        · rw [hnone] at hq
          exact absurd hq (by simp)
        · exact hmem
      simp only [haccept q.1 client hq, if_true]
      exact ih hmem

/-- If everything was sent, every agent was connected and accepted the write. -/
theorem of_batchInstallRules_nil {cbm : CBManager} {l : List (String × CBRulesConfig)}
    (h : (batchInstallRules cbm l).result = .nil) :
    (batchInstallRules cbm l).sent = l ∧ ∀ p ∈ l, (cbm p.1).isSome := by
  induction l with
  | nil => exact ⟨rfl, by simp⟩
  | cons q l ih =>
    rw [batchInstallRules] at h ⊢
    cases hq : cbm q.1 with
    | none => simp [hq] at h
    | some client =>
      simp only [hq] at h ⊢
      split_ifs at h ⊢ with ha
      obtain ⟨hsent, hall⟩ := ih h
      refine ⟨by rw [hsent], fun p hp => ?_⟩
      rcases List.mem_cons.1 hp with rfl | hmem
      · rw [hq]
        rfl
      · exact hall p hmem

/-! ## All or nothing -/

/-- Either an error and no message, or no error and, for each node that needs rules, exactly one
message, with all of them; and no panic. -/
def AllOrNothing (parseIP : ParseIP) (cbm : CBManager) (cfg : CBConfig) (out : Outcome) : Prop :=
  (out.result = .error ∧ out.sent = []) ∨
  (out.result = .nil ∧ ∀ node, (out.sent.filter fun p => p.1 = node) =
    if rulesOf parseIP cbm cfg node = ⟨[], []⟩ then [] else [(node, rulesOf parseIP cbm cfg node)])

/-- The chain can be installed: its rules can be generated, and if it has one node only, that node is
connected. -/
structure Installs (parseIP : ParseIP) (cbm : CBManager) (cfg : CBConfig) (chain : CBChain) :
    Prop where
  generates : Generates parseIP cfg chain
  connected : chain.Nodes.length = 1 → ∀ n ∈ chain.Nodes, (cbm n).isSome

/-- The nodes that have forwarding rules are nodes of chains. -/
theorem mem_keys_fwdList {cbm : CBManager} {cfg : CBConfig} {node : String}
    (h : node ∈ (fwdList cbm cfg).keys) :
    ∃ chain ∈ cfg.Chains, node ∈ chain.Nodes := by
  obtain ⟨r, hr⟩ := List.exists_mem_of_ne_nil _ (Appends.mem_keys.1 h)
  obtain ⟨chain, hc, hr⟩ := List.mem_flatMap.1 (Appends.mem_get.1 hr)
  obtain ⟨pos, hpos, hr⟩ := List.mem_flatMap.1 hr
  obtain ⟨r', -, hpair⟩ := List.mem_map.1 hr
  obtain ⟨rfl, -⟩ := Prod.mk.inj hpair
  exact ⟨chain, hc, List.mem_of_getElem? (mem_positions.1 hpos)⟩

/-- The node of a chain with one node has a forwarding rule. -/
theorem mem_keys_of_singleton {cbm : CBManager} {cfg : CBConfig} {chain : CBChain} {node : String}
    (hc : chain ∈ cfg.Chains) (h : chain.Nodes = [node]) : node ∈ (fwdList cbm cfg).keys := by
  have hrule : fwdRulesAt cbm cfg chain 0 = [⟨sphAt chain 0, ⟨1, zeroMac⟩⟩] := by
    rw [fwdRulesAt, linked_last (by rw [h]; rfl), h]
    rfl
  rw [Appends.mem_keys]
  apply List.ne_nil_of_mem
  rw [Appends.mem_get]
  refine List.mem_flatMap.2 ⟨chain, hc, List.mem_flatMap.2 ⟨(node, 0), ?_, List.mem_map.2
    ⟨⟨sphAt chain 0, ⟨1, zeroMac⟩⟩, ?_, rfl⟩⟩⟩
  · rw [mem_positions, h]
    rfl
  · rw [hrule]
    exact List.mem_singleton_self _

/-- Whatever the order of the map, a node gets the one message with its rules. -/
theorem filter_nodeCfgs {order : List String → List String} (horder : ∀ l, (order l).Perm l)
    (rules : RuleMaps) (node : String) :
    ((nodeCfgs order rules).filter fun p => p.1 = node) =
      if node ∈ rules.1.keys then [(node, ⟨rules.1.get node, rules.2.get node⟩)] else [] := by
  have hnodup : (order rules.1.keys).Nodup :=
    (horder _).nodup_iff.2 (Appends.nodup_keys _)
  have hmem : node ∈ order rules.1.keys ↔ node ∈ rules.1.keys := (horder _).mem_iff
  -- A key occurs once among the keys, in any order of them.
  have hfilter : (order rules.1.keys).filter (fun n => decide (n = node)) =
      if node ∈ rules.1.keys then [node] else [] := by
    split_ifs with h
    · have hcount : (order rules.1.keys).count node = 1 :=
        List.count_eq_one_of_mem hnodup (hmem.2 h)
      have heq : (fun n => decide (n = node)) = (· == node) := by
        funext n
        rfl
      rw [heq, List.filter_beq, hcount]
      rfl
    · rw [List.filter_eq_nil_iff]
      intro n hn hnode
      obtain rfl : n = node := by simpa using hnode
      exact h (hmem.1 hn)
  rw [nodeCfgs, List.filter_map]
  have hcomp : ((fun p : String × CBRulesConfig => decide (p.1 = node)) ∘ fun n =>
      (n, (⟨rules.1.get n, rules.2.get n⟩ : CBRulesConfig))) = fun n => decide (n = node) := rfl
  rw [hcomp, hfilter]
  split_ifs <;> rfl

/-- A node that needs rules is a node with a forwarding rule. -/
theorem rulesOf_eq_empty {parseIP : ParseIP} {cbm : CBManager} {cfg : CBConfig} {node : String} :
    rulesOf parseIP cbm cfg node = ⟨[], []⟩ ↔ node ∉ (fwdList cbm cfg).keys := by
  rw [Appends.mem_keys, not_not, rulesOf, CBRulesConfig.mk.injEq]
  constructor
  · exact And.left
  · intro h
    refine ⟨h, ?_⟩
    by_contra hproxy
    exact fwd_ne_nil_of_proxy hproxy h

/-- A node gets a message with its rules, unless it has none. -/
theorem filter_nodeCfgs_rulesOf {parseIP : ParseIP} {order : List String → List String}
    (horder : ∀ l, (order l).Perm l) {cbm : CBManager} {cfg : CBConfig} (node : String) :
    ((nodeCfgs order (fwdList cbm cfg, proxyList parseIP cfg)).filter fun p => p.1 = node) =
      if rulesOf parseIP cbm cfg node = ⟨[], []⟩ then []
      else [(node, rulesOf parseIP cbm cfg node)] := by
  have hneeds := @rulesOf_eq_empty parseIP cbm cfg node
  rw [filter_nodeCfgs horder]
  by_cases hmem : node ∈ (fwdList cbm cfg).keys
  · rw [if_pos hmem, if_neg fun he => hneeds.1 he hmem]
    rfl
  · rw [if_neg hmem, if_pos (hneeds.2 hmem)]

/-- When all declared functions are connected, the result depends on the chains. -/
theorem installConfiguration_of_connected {parseIP : ParseIP} {order : List String → List String}
    {cbm : CBManager} {cfg : CBConfig}
    (hconn : ∀ f ∈ cfg.Functions, (cbm f.Tag).isSome) :
    installConfiguration parseIP order cbm cfg = match genRules parseIP cbm cfg with
      | none => ⟨[], .panic⟩
      | some rules => batchInstallRules cbm (nodeCfgs order rules) := by
  have hany : (cfg.Functions.any fun node => (cbm node.Tag).isNone) = false := by
    rw [List.any_eq_false]
    intro f hf
    obtain ⟨client, hclient⟩ := Option.isSome_iff_exists.1 (hconn f hf)
    simp [hclient]
  rw [installConfiguration, hany]
  rfl

/-- A declared function that is not connected stops the installation before anything is sent. -/
theorem installConfiguration_refused {parseIP : ParseIP} {order : List String → List String}
    {cbm : CBManager} {cfg : CBConfig} {f : CBInstance} (hf : f ∈ cfg.Functions)
    (hnone : cbm f.Tag = none) : installConfiguration parseIP order cbm cfg = ⟨[], .error⟩ := by
  have hany : (cfg.Functions.any fun node => (cbm node.Tag).isNone) = true :=
    List.any_eq_true.2 ⟨f, hf, by simp [hnone]⟩
  rw [installConfiguration, hany]
  rfl

/-- If the installation does not panic, the rules of every chain can be generated. -/
theorem generates_of_not_panic {parseIP : ParseIP} {order : List String → List String}
    {cbm : CBManager} {cfg : CBConfig} (hconn : ∀ f ∈ cfg.Functions, (cbm f.Tag).isSome)
    (h : (installConfiguration parseIP order cbm cfg).result ≠ .panic) :
    ∀ chain ∈ cfg.Chains, Generates parseIP cfg chain := by
  intro chain hc
  by_contra hnot
  rw [installConfiguration_of_connected hconn, genRules_none hc hnot] at h
  exact h rfl

/-- With every chain installable, each node that needs rules gets its message. -/
theorem installConfiguration_sent {parseIP : ParseIP} {order : List String → List String}
    (horder : ∀ l, (order l).Perm l) {cbm : CBManager} {cfg : CBConfig}
    (haccept : ∀ tag client, cbm tag = some client → client.accepts)
    (hconn : ∀ f ∈ cfg.Functions, (cbm f.Tag).isSome)
    (hchains : ∀ chain ∈ cfg.Chains, Installs parseIP cbm cfg chain) :
    installConfiguration parseIP order cbm cfg =
      ⟨nodeCfgs order (fwdList cbm cfg, proxyList parseIP cfg), .nil⟩ := by
  rw [installConfiguration_of_connected hconn,
    genRules_eq fun chain hc => (hchains chain hc).generates]
  refine batchInstallRules_sent fun p hp => ?_
  obtain ⟨node, hnode, rfl⟩ := List.mem_map.1 hp
  obtain ⟨chain, hc, hmem⟩ := mem_keys_fwdList ((horder _).mem_iff.1 hnode)
  -- A node is declared, and so connected, or it is the only one of its chain.
  have hsome : (cbm node).isSome := by
    by_cases hl : 2 ≤ chain.Nodes.length
    · obtain ⟨f, hf⟩ := Option.isSome_iff_exists.1
        ((hchains chain hc).generates.declared hl node hmem)
      obtain ⟨hdecl, rfl⟩ := getNodeByName_some hf
      exact hconn f hdecl
    · have hpos := List.length_pos_of_mem hmem
      exact (hchains chain hc).connected (by omega) node hmem
  obtain ⟨client, hclient⟩ := Option.isSome_iff_exists.1 hsome
  exact ⟨client, hclient, haccept node client hclient⟩

/-- What a successful installation says about the configuration, and what it has sent. -/
theorem of_installConfiguration_nil {parseIP : ParseIP} {order : List String → List String}
    {cbm : CBManager} {cfg : CBConfig}
    (h : (installConfiguration parseIP order cbm cfg).result = .nil) :
    (∀ f ∈ cfg.Functions, (cbm f.Tag).isSome) ∧
      (∀ chain ∈ cfg.Chains, Generates parseIP cfg chain) ∧
      (installConfiguration parseIP order cbm cfg).sent =
        nodeCfgs order (fwdList cbm cfg, proxyList parseIP cfg) ∧
      ∀ node ∈ order (fwdList cbm cfg).keys, (cbm node).isSome := by
  have hconn : ∀ f ∈ cfg.Functions, (cbm f.Tag).isSome := by
    intro f hf
    by_contra hnone
    rw [installConfiguration_refused hf (by simpa using hnone)] at h
    simp at h
  have hgen := generates_of_not_panic hconn (by rw [h]; simp)
  rw [installConfiguration_of_connected hconn, genRules_eq hgen] at h ⊢
  obtain ⟨hsent, hall⟩ := of_batchInstallRules_nil h
  exact ⟨hconn, hgen, hsent, fun node hnode => hall _ (List.mem_map.2 ⟨node, hnode, rfl⟩)⟩

theorem AllOrNothing.not_panic {parseIP : ParseIP} {cbm : CBManager} {cfg : CBConfig} {out : Outcome}
    (h : AllOrNothing parseIP cbm cfg out) : out.result ≠ .panic := by
  rcases h with ⟨hres, -⟩ | ⟨hres, -⟩ <;> simp [hres]

/-- If an installation with every declared function connected does not panic, every chain can be
installed. -/
theorem installs_of_not_panic {parseIP : ParseIP} {cbm : CBManager} {cfg : CBConfig}
    (haccept : ∀ tag client, cbm tag = some client → client.accepts)
    (hconn : ∀ f ∈ cfg.Functions, (cbm f.Tag).isSome)
    (h : (installConfiguration parseIP id cbm cfg).result ≠ .panic) :
    ∀ chain ∈ cfg.Chains, Installs parseIP cbm cfg chain := by
  have hgen := generates_of_not_panic hconn h
  rw [installConfiguration_of_connected hconn, genRules_eq hgen] at h
  intro chain hc
  refine ⟨hgen chain hc, fun hl n hn => ?_⟩
  -- The only node of a chain is sent its rules.
  obtain ⟨node, hnode⟩ := List.length_eq_one_iff.1 hl
  obtain rfl : n = node := by simpa [hnode] using hn
  by_contra hnone
  exact h (batchInstallRules_panic haccept
    (List.mem_map.2 ⟨n, mem_keys_of_singleton hc hnode, rfl⟩) (by simpa using hnone))

/-- If every chain can be installed, every node that needs rules is sent them. -/
theorem allOrNothing_of_installs {parseIP : ParseIP} {cbm : CBManager} {cfg : CBConfig}
    (haccept : ∀ tag client, cbm tag = some client → client.accepts)
    (hconn : ∀ f ∈ cfg.Functions, (cbm f.Tag).isSome)
    (h : ∀ chain ∈ cfg.Chains, Installs parseIP cbm cfg chain)
    {order : List String → List String} (horder : ∀ l, (order l).Perm l) :
    AllOrNothing parseIP cbm cfg (installConfiguration parseIP order cbm cfg) := by
  rw [installConfiguration_sent horder haccept hconn h]
  exact Or.inr ⟨rfl, fun node => filter_nodeCfgs_rulesOf horder node⟩

/-- While connections accept writes, the installation is all or nothing, in whatever order the nodes
are sent to, exactly if some declared function is not connected or every chain can be installed. -/
theorem install_iff (parseIP : ParseIP) (cbm : CBManager) (cfg : CBConfig)
    (haccept : ∀ tag client, cbm tag = some client → client.accepts) :
    (∀ order, (∀ l, (order l).Perm l) →
      AllOrNothing parseIP cbm cfg (installConfiguration parseIP order cbm cfg)) ↔
    (∃ f ∈ cfg.Functions, cbm f.Tag = none) ∨
      ∀ chain ∈ cfg.Chains, Installs parseIP cbm cfg chain := by
  by_cases hconn : ∃ f ∈ cfg.Functions, cbm f.Tag = none
  · -- The check fails, and nothing has been sent.
    refine ⟨fun _ => Or.inl hconn, fun _ order _ => Or.inl ?_⟩
    obtain ⟨f, hf, hnone⟩ := hconn
    rw [installConfiguration_refused hf hnone]
    exact ⟨rfl, rfl⟩
  have hconn' : ∀ f ∈ cfg.Functions, (cbm f.Tag).isSome := by
    push Not at hconn
    exact fun f hf => Option.isSome_iff_ne_none.2 (hconn f hf)
  simp only [hconn, false_or]
  constructor
  · intro h
    exact installs_of_not_panic haccept hconn' (h id fun l => List.Perm.refl l).not_panic
  · intro h order horder
    exact allOrNothing_of_installs haccept hconn' h horder

/-! ## Three configurations -/

/-- `net.ParseIP` on two addresses, which it gives as IPv4-mapped ones. -/
def parsePing : ParseIP := fun s =>
  if s = "10.0.0.1" then some ⟨[0, 0, 0, 0, 0, 0, 0, 0, 0, 0, 0xFF, 0xFF, 10, 0, 0, 1], rfl⟩
  else if s = "10.0.0.2" then
    some ⟨[0, 0, 0, 0, 0, 0, 0, 0, 0, 0, 0xFF, 0xFF, 10, 0, 0, 2], rfl⟩
  else none

/-- The flow of ICMP between the two addresses. -/
def pingFlow : Ip5tuplestr := ⟨"10.0.0.1", "10.0.0.2", 0, 0, IPPROTO_ICMP⟩

/-- The replies to it. -/
def pongFlow : Ip5tuplestr := ⟨"10.0.0.2", "10.0.0.1", 0, 0, IPPROTO_ICMP⟩

/-- Two local functions in one chain. -/
def pairConfig : CBConfig where
  Chains := [⟨1, ["fw", "nat"], [pingFlow]⟩]
  Functions := [⟨"fw", false⟩, ⟨"nat", false⟩]

/-- The configuration without the declaration of the second function. -/
def danglingConfig : CBConfig where
  Chains := [⟨1, ["fw", "nat"], [pingFlow]⟩]
  Functions := [⟨"fw", false⟩]

/-- A chain over a direct link and over the network, to a node that it comes back to, and a chain of
the remote functions for the replies. -/
def mixedConfig : CBConfig where
  Chains := [⟨1, ["fw", "nat", "ids", "lb", "ids"], [pingFlow]⟩, ⟨2, ["ids", "lb"], [pongFlow]⟩]
  Functions := [⟨"fw", false⟩, ⟨"nat", false⟩, ⟨"ids", true⟩, ⟨"lb", true⟩]

/-- Both functions of the pair are connected. -/
def pairManager : CBManager := fun tag =>
  if tag = "fw" then some ⟨true, Mac.of 0x02 0 0 0 0 0x0C⟩
  else if tag = "nat" then some ⟨true, zeroMac⟩
  else none

/-- All four functions are connected. -/
def mixedManager : CBManager := fun tag =>
  if tag = "fw" then some ⟨true, Mac.of 0x02 0 0 0 0 0x0C⟩
  else if tag = "nat" then some ⟨true, zeroMac⟩
  else if tag = "ids" then some ⟨true, Mac.of 0x02 0 0 0 0 0x1C⟩
  else if tag = "lb" then some ⟨true, Mac.of 0x02 0 0 0 0 0x2C⟩
  else none

theorem pairManager_accepts {tag : String} {client : CBClient} (h : pairManager tag = some client) :
    client.accepts := by
  unfold pairManager at h
  split_ifs at h
  all_goals rw [← Option.some.inj h]

/-- The chain of two local functions is installed. -/
theorem install_pair :
    AllOrNothing parsePing pairManager pairConfig
      (installConfiguration parsePing id pairManager pairConfig) := by
  refine (install_iff parsePing pairManager pairConfig fun _ _ h => pairManager_accepts h).2
    (Or.inr ?_) id fun _ => List.Perm.refl _
  intro chain hc
  obtain rfl : chain = ⟨1, ["fw", "nat"], [pingFlow]⟩ := List.mem_singleton.1 hc
  exact ⟨⟨fun _ => by decide, fun _ => by decide⟩, fun hl => absurd hl (by decide)⟩

/-- With an undeclared function in the chain, the installation panics. -/
theorem not_install_dangling :
    ¬ AllOrNothing parsePing pairManager danglingConfig
      (installConfiguration parsePing id pairManager danglingConfig) := by
  have hpanic : (installConfiguration parsePing id pairManager danglingConfig).result = .panic := by
    decide
  rintro (⟨hres, -⟩ | ⟨hres, -⟩)
  all_goals
    rw [hpanic] at hres
    simp at hres

end ChainingBox
