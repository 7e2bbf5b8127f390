import ChainingBox.Lib.Loops
import ChainingBox.Control.Config

/-!
# The manager

`InstallConfiguration` of `manager.go`. It checks that every declared function is connected,
generates the rules of every position of every chain, collects them by node, and sends one Install
message to each node. Dereferencing nil, in the rules of a position or for a connection, is a panic,
and so is a flow that does not parse.

`genRules_eq` is what it generates, position by position: a forwarding rule where the position is not
linked to the next one (`fwdRulesAt`), and proxy rules where it is moreover linked to the one before
(`proxyRulesAt`).

Go iterates a map in any order, so the definitions take the order as a parameter, a function that
permutes the list of keys.
-/

namespace ChainingBox

open Lib

/-- `cBClient`, with whether its connection accepts writes. -/
structure CBClient where
  accepts : Bool
  addr : Mac

/-- `CBManager`: the map of connected agents. -/
abbrev CBManager := String → Option CBClient

/-- The address of an agent; Go reads the zero value for an agent that is not in the map. -/
def CBManager.addr (cbm : CBManager) (tag : String) : Mac := ((cbm tag).map CBClient.addr).getD zeroMac

/-- How `InstallConfiguration` ends. -/
inductive Result
  | nil
  | error
  | panic
  deriving DecidableEq, Repr

/-- The Install messages sent, in order, and the result. -/
structure Outcome where
  sent : List (String × CBRulesConfig)
  result : Result

/-- The service path header of a position, in the computation of 32 bits of the source. -/
def sphAt (chain : CBChain) (i : ℕ) : BitVec 32 := chain.Id <<< 8 ||| (254 - BitVec.ofNat 32 i)

/-- The forwarding rules of a position: `none` is a panic. -/
def genFwd (cbm : CBManager) (cfg : CBConfig) (chain : CBChain) (i : ℕ) (node : String) :
    Option (List FwdRule) := do
  let curr := cfg.getNodeByName node
  -- End of the chain?
  if i + 1 = chain.Nodes.length then
    return [⟨sphAt chain i, ⟨1, zeroMac⟩⟩]
  else
    let next ← cfg.getNodeByName (chain.Nodes.getD (i + 1) "")
    let address_next := cbm.addr next.Tag
    let curr ← curr
    -- Only without a direct link to the next SF.
    if curr.Remote || next.Remote then return [⟨sphAt chain i, ⟨0, address_next⟩⟩] else return []

/-- The position is the end of the chain, or is followed by a remote node. -/
def proxyNeeded (cfg : CBConfig) (chain : CBChain) (i : ℕ) : Option Bool :=
  if i + 1 = chain.Nodes.length then some true
  else (cfg.getNodeByName (chain.Nodes.getD (i + 1) "")).map CBInstance.Remote

/-- The proxy rules of a position: `none` is a panic. -/
def genProxy (parseIP : ParseIP) (cfg : CBConfig) (chain : CBChain) (i : ℕ) (node : String) :
    Option (List ProxyRule) := do
  let curr := cfg.getNodeByName node
  if i = 0 then return []
  else
    let prev ← cfg.getNodeByName (chain.Nodes.getD (i - 1) "")
    if prev.Remote then return []
    else
      let curr ← curr
      if curr.Remote then return []
      else
        if ← proxyNeeded cfg chain i then
          chain.Flows.mapM fun flow => do
            let ip5tuple ← flow.parse parseIP
            return ⟨ip5tuple, sphAt chain i + 1⟩
        else return []

/-- The maps `frules` and `prules`. -/
abbrev RuleMaps := Appends String FwdRule × Appends String ProxyRule

/-- The round of the inner loop. -/
def genNode (parseIP : ParseIP) (cbm : CBManager) (cfg : CBConfig) (chain : CBChain)
    (acc : RuleMaps) (pos : String × ℕ) : Option RuleMaps := do
  let fr ← genFwd cbm cfg chain pos.2 pos.1
  let pr ← genProxy parseIP cfg chain pos.2 pos.1
  return (acc.1 ++ fr.map (pos.1, ·), acc.2 ++ pr.map (pos.1, ·))

/-- The round of the outer loop. -/
def genChain (parseIP : ParseIP) (cbm : CBManager) (cfg : CBConfig) (acc : RuleMaps)
    (chain : CBChain) : Option RuleMaps :=
  chain.Nodes.zipIdx.foldlM (genNode parseIP cbm cfg chain) acc

/-- The rules of all chains: `none` is a panic. -/
def genRules (parseIP : ParseIP) (cbm : CBManager) (cfg : CBConfig) : Option RuleMaps :=
  cfg.Chains.foldlM (genChain parseIP cbm cfg) ([], [])

/-- The map `node_cfgs`, in the order in which it is iterated. Only the nodes of `frules` are in
it. -/
def nodeCfgs (order : List String → List String) (rules : RuleMaps) :
    List (String × CBRulesConfig) :=
  (order rules.1.keys).map fun node => (node, ⟨rules.1.get node, rules.2.get node⟩)

/-- `batchInstallRules`. -/
def batchInstallRules (cbm : CBManager) : List (String × CBRulesConfig) → Outcome
  | [] => ⟨[], .nil⟩
  | (node, rules) :: rest =>
    match cbm node with
    -- The connection of an agent that is not in the map is nil.
    | none => ⟨[], .panic⟩
    | some client =>
      if client.accepts then
        let out := batchInstallRules cbm rest
        ⟨(node, rules) :: out.sent, out.result⟩
      else ⟨[], .error⟩

/-- `InstallConfiguration`. -/
def installConfiguration (parseIP : ParseIP) (order : List String → List String) (cbm : CBManager)
    (cfg : CBConfig) : Outcome :=
  if cfg.Functions.any fun node => (cbm node.Tag).isNone then ⟨[], .error⟩
  else match genRules parseIP cbm cfg with
  | none => ⟨[], .panic⟩
  | some rules => batchInstallRules cbm (nodeCfgs order rules)

/-! ## The rules of a position -/

/-- The forwarding rules of a position: one, unless it is linked to the next position. -/
def fwdRulesAt (cbm : CBManager) (cfg : CBConfig) (chain : CBChain) (i : ℕ) : List FwdRule :=
  if cfg.linked chain i then []
  else [⟨sphAt chain i, match chain.Nodes[i + 1]? with
    | none => ⟨1, zeroMac⟩
    | some next => ⟨0, cbm.addr next⟩⟩]

/-- A position that is linked to the one before, and not to the next one. -/
def CBConfig.lastLinked (cfg : CBConfig) (chain : CBChain) (i : ℕ) : Prop :=
  0 < i ∧ cfg.linked chain (i - 1) ∧ ¬ cfg.linked chain i

instance (cfg : CBConfig) (chain : CBChain) (i : ℕ) : Decidable (cfg.lastLinked chain i) :=
  inferInstanceAs (Decidable (_ ∧ _))

/-- The proxy rules of a position: one for each flow of the chain, where a run of links ends. -/
def proxyRulesAt (parseIP : ParseIP) (cfg : CBConfig) (chain : CBChain) (i : ℕ) :
    List ProxyRule :=
  if cfg.lastLinked chain i then
    chain.Flows.filterMap fun flow => (flow.parse parseIP).map (⟨·, sphAt chain i + 1⟩)
  else []

/-- The manager can generate the rules of a chain: the nodes of a chain of at least two are all
declared, and its flows parse if a run of links ends in it. -/
structure Generates (parseIP : ParseIP) (cfg : CBConfig) (chain : CBChain) : Prop where
  declared : 2 ≤ chain.Nodes.length → ∀ n ∈ chain.Nodes, (cfg.getNodeByName n).isSome
  flows : (∃ i, cfg.lastLinked chain i) → ∀ f ∈ chain.Flows, (f.parse parseIP).isSome

/-- In a chain of at least two nodes, the node of each position is declared. -/
theorem Generates.getNodeByName {parseIP : ParseIP} {cfg : CBConfig} {chain : CBChain}
    (h : Generates parseIP cfg chain) (hl : 2 ≤ chain.Nodes.length) {i : ℕ}
    (hi : i < chain.Nodes.length) :
    ∃ f, cfg.getNodeByName (chain.Nodes.getD i "") = some f ∧
      cfg.isLocal (chain.Nodes.getD i "") = !f.Remote ∧ f.Tag = chain.Nodes.getD i "" := by
  rw [List.getD_eq_getElem _ _ hi]
  obtain ⟨f, hf⟩ := Option.isSome_iff_exists.1 (h.declared hl _ (List.getElem_mem hi))
  exact ⟨f, hf, isLocal_of_some hf, (getNodeByName_some hf).2⟩

/-- Whether a position inside a chain is linked, by its node and the next. -/
theorem linked_eq {cfg : CBConfig} {chain : CBChain} {i : ℕ} (h : i + 1 < chain.Nodes.length) :
    cfg.linked chain i =
      (cfg.isLocal (chain.Nodes.getD i "") && cfg.isLocal (chain.Nodes.getD (i + 1) "")) := by
  rw [CBConfig.linked, List.getElem?_eq_getElem (by omega), List.getElem?_eq_getElem h,
    List.getD_eq_getElem _ _ (by omega), List.getD_eq_getElem _ _ h]

/-- The last position is not linked. -/
theorem linked_last {cfg : CBConfig} {chain : CBChain} {i : ℕ} (h : chain.Nodes.length ≤ i + 1) :
    cfg.linked chain i = false := by
  rw [CBConfig.linked, List.getElem?_eq_none h]
  cases chain.Nodes[i]? <;> rfl

/-- What the source generates for a position are the forwarding rules of the position. -/
theorem genFwd_eq {parseIP : ParseIP} {cbm : CBManager} {cfg : CBConfig} {chain : CBChain}
    (hg : Generates parseIP cfg chain) {i : ℕ} (hi : i < chain.Nodes.length) :
    genFwd cbm cfg chain i (chain.Nodes.getD i "") = some (fwdRulesAt cbm cfg chain i) := by
  unfold genFwd fwdRulesAt
  by_cases hlast : i + 1 = chain.Nodes.length
  · rw [linked_last (by omega), List.getElem?_eq_none (by omega), if_pos hlast]
    rfl
  · have hlt : i + 1 < chain.Nodes.length := by omega
    obtain ⟨curr, hcurr, hlocal, -⟩ := hg.getNodeByName (by omega) hi
    obtain ⟨next, hnext, hlocal', htag⟩ := hg.getNodeByName (by omega) hlt
    have hget : chain.Nodes[i + 1]? = some (chain.Nodes.getD (i + 1) "") := by
      rw [List.getD_eq_getElem _ _ hlt, List.getElem?_eq_getElem hlt]
    rw [linked_eq hlt, hlocal, hlocal', hget, if_neg hlast, hcurr, hnext]
    simp only [Option.bind_eq_bind, Option.bind_some, htag]
    cases curr.Remote <;> cases next.Remote <;> rfl

/-- Flows that all parse. -/
theorem mapM_parse {parseIP : ParseIP} {flows : List Ip5tuplestr} {v : BitVec 32}
    (h : ∀ f ∈ flows, (f.parse parseIP).isSome) :
    (flows.mapM fun flow => (do return ⟨← flow.parse parseIP, v⟩ : Option ProxyRule)) =
      some (flows.filterMap fun flow => (flow.parse parseIP).map (⟨·, v⟩)) := by
  induction flows with
  | nil => rfl
  | cons f flows ih =>
    obtain ⟨t, ht⟩ := Option.isSome_iff_exists.1 (h f List.mem_cons_self)
    rw [List.mapM_cons, ih fun g hg => h g (List.mem_cons_of_mem f hg)]
    simp [ht]

/-- What the source generates for a position are the proxy rules of the position. -/
theorem genProxy_eq {parseIP : ParseIP} {cfg : CBConfig} {chain : CBChain}
    (hg : Generates parseIP cfg chain) {i : ℕ} (hi : i < chain.Nodes.length) :
    genProxy parseIP cfg chain i (chain.Nodes.getD i "") =
      some (proxyRulesAt parseIP cfg chain i) := by
  unfold genProxy proxyRulesAt
  by_cases hzero : i = 0
  · rw [if_pos hzero, if_neg fun h => absurd h.1 (by omega)]
    rfl
  have hprevious : i - 1 < chain.Nodes.length := by omega
  obtain ⟨prev, hprev, hlocal, -⟩ := hg.getNodeByName (by omega) hprevious
  obtain ⟨curr, hcurr, hlocal', -⟩ := hg.getNodeByName (by omega) hi
  have hback : cfg.linked chain (i - 1) = (!prev.Remote && !curr.Remote) := by
    have hsucc : i - 1 + 1 = i := by omega
    rw [linked_eq (by omega), hsucc, hlocal, hlocal']
  rw [if_neg hzero, hprev, hcurr]
  simp only [Option.bind_eq_bind, Option.bind_some]
  cases hp : prev.Remote with
  | true =>
    have hnot : ¬ cfg.lastLinked chain i := fun h => by simpa [hback, hp] using h.2.1
    rw [if_pos rfl, if_neg hnot]
    rfl
  | false =>
  cases hc : curr.Remote with
  | true =>
    have hnot : ¬ cfg.lastLinked chain i := fun h => by simpa [hback, hc] using h.2.1
    rw [if_neg (by simp), if_pos rfl, if_neg hnot]
    rfl
  | false =>
  -- Whether an entry is needed is whether the position is not linked to the next.
  have hneeded : proxyNeeded cfg chain i = some (!cfg.linked chain i) := by
    unfold proxyNeeded
    by_cases hlast : i + 1 = chain.Nodes.length
    · rw [if_pos hlast, linked_last (by omega)]
      rfl
    · have hlt : i + 1 < chain.Nodes.length := by omega
      obtain ⟨next, hnext, hnextlocal, -⟩ := hg.getNodeByName (by omega) hlt
      rw [if_neg hlast, hnext, linked_eq hlt, hlocal', hnextlocal, hc]
      simp
  rw [if_neg (by simp), if_neg (by simp), hneeded]
  simp only [Option.bind_some]
  cases hl : cfg.linked chain i with
  | true =>
    have hnot : ¬ cfg.lastLinked chain i := fun h => h.2.2 hl
    rw [if_neg (by simp), if_neg hnot]
    rfl
  | false =>
    have hpos : cfg.lastLinked chain i := ⟨by omega, by rw [hback, hp, hc]; rfl, by simp [hl]⟩
    rw [if_pos (by simp), if_pos hpos]
    exact mapM_parse (hg.flows ⟨i, hpos⟩)

/-- A chain of at least two nodes with an undeclared one has a position that panics. -/
theorem genNode_undeclared {parseIP : ParseIP} {cbm : CBManager} {cfg : CBConfig} {chain : CBChain}
    (hl : 2 ≤ chain.Nodes.length) {j : ℕ} (hj : j < chain.Nodes.length)
    (hnone : cfg.getNodeByName (chain.Nodes.getD j "") = none) :
    ∃ i < chain.Nodes.length, ∀ acc,
      genNode parseIP cbm cfg chain acc (chain.Nodes.getD i "", i) = none := by
  rcases Nat.eq_zero_or_pos j with rfl | hpos
  · -- The first position reads its own flag.
    refine ⟨0, hj, fun acc => ?_⟩
    have hfwd : genFwd cbm cfg chain 0 (chain.Nodes.getD 0 "") = none := by
      unfold genFwd
      rw [hnone]
      dsimp only
      rw [if_neg (by omega)]
      cases cfg.getNodeByName (chain.Nodes.getD (0 + 1) "") <;> rfl
    simp only [genNode, hfwd]
    rfl
  · -- The position before reads the tag of its next node.
    have hback : j - 1 + 1 = j := by omega
    refine ⟨j - 1, by omega, fun acc => ?_⟩
    have hfwd : genFwd cbm cfg chain (j - 1) (chain.Nodes.getD (j - 1) "") = none := by
      unfold genFwd
      rw [hback, if_neg (by omega), hnone]
      rfl
    simp only [genNode, hfwd]
    rfl

/-- Flows of which one does not parse. -/
theorem mapM_parse_none {parseIP : ParseIP} {flows : List Ip5tuplestr} {v : BitVec 32}
    {f : Ip5tuplestr} (hf : f ∈ flows) (h : f.parse parseIP = none) :
    (flows.mapM fun flow => (do return ⟨← flow.parse parseIP, v⟩ : Option ProxyRule)) = none := by
  induction flows with
  | nil => simp at hf
  | cons g flows ih =>
    rw [List.mapM_cons]
    rcases List.mem_cons.1 hf with rfl | hmem
    · rw [h]
      rfl
    · rw [ih hmem]
      cases g.parse parseIP <;> rfl

/-- A flow that does not parse makes the last position of a run of links panic. -/
theorem genNode_unparsed {parseIP : ParseIP} {cbm : CBManager} {cfg : CBConfig} {chain : CBChain}
    {i : ℕ} (hlinked : cfg.lastLinked chain i) {f : Ip5tuplestr} (hf : f ∈ chain.Flows)
    (hnone : f.parse parseIP = none) :
    i < chain.Nodes.length ∧ ∀ acc,
      genNode parseIP cbm cfg chain acc (chain.Nodes.getD i "", i) = none := by
  obtain ⟨hpos, hback, hlast⟩ := hlinked
  obtain ⟨n, n', hn, hn', hlocal, hlocal'⟩ := linked_iff.1 hback
  have hsucc : i - 1 + 1 = i := by omega
  rw [hsucc] at hn'
  obtain ⟨hi, hget⟩ := List.getElem?_eq_some_iff.1 hn'
  obtain ⟨hi', hget'⟩ := List.getElem?_eq_some_iff.1 hn
  have hnode : chain.Nodes.getD i "" = n' := by rw [List.getD_eq_getElem _ _ hi, hget]
  have hprevnode : chain.Nodes.getD (i - 1) "" = n := by rw [List.getD_eq_getElem _ _ hi', hget']
  refine ⟨hi, fun acc => ?_⟩
  obtain ⟨prev, hprev, hpl⟩ := (Option.any_eq_true _ _).1 hlocal
  obtain ⟨curr, hcurr, hcl⟩ := (Option.any_eq_true _ _).1 hlocal'
  simp only [Bool.not_eq_true'] at hpl hcl
  -- The proxy rules are needed, unless the next node is not declared, which panics as well.
  have hproxy : genProxy parseIP cfg chain i n' = none := by
    unfold genProxy proxyNeeded
    rw [hprevnode, hprev, hcurr, if_neg (by omega)]
    simp only [Option.bind_eq_bind, Option.bind_some, hpl, hcl, Bool.false_eq_true, if_false]
    by_cases hend : i + 1 = chain.Nodes.length
    · rw [if_pos hend]
      exact mapM_parse_none hf hnone
    · have hlt : i + 1 < chain.Nodes.length := by omega
      rw [if_neg hend]
      cases hnext : cfg.getNodeByName (chain.Nodes.getD (i + 1) "") with
      | none => rfl
      | some next =>
        rw [linked_eq hlt, hnode, hlocal', isLocal_of_some hnext] at hlast
        have hremote : next.Remote = true := by simpa using hlast
        simp only [Option.map_some, Option.bind_some, hremote, if_true]
        exact mapM_parse_none hf hnone
  rw [hnode]
  simp only [genNode, hproxy]
  cases genFwd cbm cfg chain i n' <;> rfl

/-! ## The rules of a configuration -/

/-- The forwarding rules of all positions, with the names of their nodes. -/
def fwdList (cbm : CBManager) (cfg : CBConfig) : Appends String FwdRule :=
  cfg.Chains.flatMap fun chain => chain.Nodes.zipIdx.flatMap fun pos =>
    (fwdRulesAt cbm cfg chain pos.2).map (pos.1, ·)

/-- The proxy rules of all positions, with the names of their nodes. -/
def proxyList (parseIP : ParseIP) (cfg : CBConfig) : Appends String ProxyRule :=
  cfg.Chains.flatMap fun chain => chain.Nodes.zipIdx.flatMap fun pos =>
    (proxyRulesAt parseIP cfg chain pos.2).map (pos.1, ·)

/-- All the rules that a node needs. -/
def rulesOf (parseIP : ParseIP) (cbm : CBManager) (cfg : CBConfig) (node : String) :
    CBRulesConfig :=
  ⟨(fwdList cbm cfg).get node, (proxyList parseIP cfg).get node⟩

/-- The members of `Nodes.zipIdx` are the positions of a chain. -/
theorem mem_positions {chain : CBChain} {pos : String × ℕ} :
    pos ∈ chain.Nodes.zipIdx ↔ chain.Nodes[pos.2]? = some pos.1 := by
  obtain ⟨node, i⟩ := pos
  exact List.mk_mem_zipIdx_iff_getElem?

/-- The generation succeeds if it can generate the rules of each chain. -/
theorem genRules_eq {parseIP : ParseIP} {cbm : CBManager} {cfg : CBConfig}
    (h : ∀ chain ∈ cfg.Chains, Generates parseIP cfg chain) :
    genRules parseIP cbm cfg = some (fwdList cbm cfg, proxyList parseIP cfg) := by
  have hchain (chain : CBChain) (hc : chain ∈ cfg.Chains) (acc : RuleMaps) :
      genChain parseIP cbm cfg acc chain = some
        (acc.1 ++ chain.Nodes.zipIdx.flatMap fun pos =>
            (fwdRulesAt cbm cfg chain pos.2).map (pos.1, ·),
          acc.2 ++ chain.Nodes.zipIdx.flatMap fun pos =>
            (proxyRulesAt parseIP cfg chain pos.2).map (pos.1, ·)) := by
    rw [genChain, ← foldl_append_pair]
    refine foldlM_some (fun pos hpos acc => ?_) acc
    obtain ⟨hlt, hget⟩ := List.getElem?_eq_some_iff.1 (mem_positions.1 hpos)
    have hnode : chain.Nodes.getD pos.2 "" = pos.1 := by rw [List.getD_eq_getElem _ _ hlt, hget]
    have hfwd : genFwd cbm cfg chain pos.2 (chain.Nodes.getD pos.2 "") =
        some (fwdRulesAt cbm cfg chain pos.2) := genFwd_eq (h chain hc) hlt
    have hproxy := genProxy_eq (h chain hc) hlt
    rw [hnode] at hfwd hproxy
    simp only [genNode, hfwd, hproxy]
    rfl
  rw [genRules, foldlM_some hchain, foldl_append_pair]
  rfl

/-- The generation panics if it cannot generate the rules of some chain. -/
theorem genRules_none {parseIP : ParseIP} {cbm : CBManager} {cfg : CBConfig} {chain : CBChain}
    (hc : chain ∈ cfg.Chains) (h : ¬ Generates parseIP cfg chain) :
    genRules parseIP cbm cfg = none := by
  have hpos : ∃ i < chain.Nodes.length, ∀ acc,
      genNode parseIP cbm cfg chain acc (chain.Nodes.getD i "", i) = none := by
    by_cases hdecl : 2 ≤ chain.Nodes.length → ∀ n ∈ chain.Nodes, (cfg.getNodeByName n).isSome
    · -- Every node is declared, so some flow does not parse.
      have hflows : ¬ ((∃ i, cfg.lastLinked chain i) →
          ∀ f ∈ chain.Flows, (f.parse parseIP).isSome) := fun hf => h ⟨hdecl, hf⟩
      push Not at hflows
      obtain ⟨⟨i, hi⟩, f, hf, hnone⟩ := hflows
      exact ⟨i, genNode_unparsed hi hf (by simpa using hnone)⟩
    · push Not at hdecl
      obtain ⟨hl, n, hn, hnone⟩ := hdecl
      obtain ⟨j, hj, rfl⟩ := List.getElem_of_mem hn
      refine genNode_undeclared hl hj ?_
      rw [List.getD_eq_getElem _ _ hj]
      simpa using hnone
  obtain ⟨i, hi, hnone⟩ := hpos
  refine foldlM_none hc (fun acc => ?_) _
  refine foldlM_none (mem_positions.2 ?_) hnone acc
  rw [List.getD_eq_getElem _ _ hi, List.getElem?_eq_getElem hi]

/-- A position has at most its own rules, so a node that has a proxy rule has a forwarding rule. -/
theorem fwd_ne_nil_of_proxy {parseIP : ParseIP} {cbm : CBManager} {cfg : CBConfig} {node : String}
    (h : (proxyList parseIP cfg).get node ≠ []) : (fwdList cbm cfg).get node ≠ [] := by
  obtain ⟨r, hr⟩ := List.exists_mem_of_ne_nil _ h
  obtain ⟨chain, hc, hr⟩ := List.mem_flatMap.1 (Appends.mem_get.1 hr)
  obtain ⟨pos, hpos, hr⟩ := List.mem_flatMap.1 hr
  obtain ⟨r', hr', hpair⟩ := List.mem_map.1 hr
  obtain ⟨hnode, rfl⟩ := Prod.mk.inj hpair
  have hlast : cfg.lastLinked chain pos.2 := by
    by_contra hnot
    rw [proxyRulesAt, if_neg hnot] at hr'
    simp at hr'
  have hfwd : ∃ r, r ∈ fwdRulesAt cbm cfg chain pos.2 := by
    rw [fwdRulesAt, if_neg hlast.2.2]
    exact ⟨_, List.mem_singleton_self _⟩
  obtain ⟨r, hr⟩ := hfwd
  apply List.ne_nil_of_mem
  rw [Appends.mem_get]
  exact List.mem_flatMap.2 ⟨chain, hc, List.mem_flatMap.2 ⟨pos, hpos,
    List.mem_map.2 ⟨r, hr, by rw [hnode]⟩⟩⟩

end ChainingBox
