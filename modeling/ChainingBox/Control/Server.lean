import ChainingBox.Control.Install
import ChainingBox.Lib.Runs

/-!
# The manager's server

`cb_manager.go` accepts connections while it installs the configuration. `HandleConnection` runs for
each of them and enters the agent in the map `connectedAgents`, which `InstallConfiguration` reads
one entry at a time: for every declared function, for the address of the next node of every
position, and for the connection of every node that it sends rules to. `Server` is the two together,
and a run is a list of connections and of steps of the installation, in any order.

The source has no lock for the map. A read and a write of it are taken as atomic here, so that a run
is one of their orders; the accesses that Go's runtime finds to be concurrent, for which it ends the
program, are left out.

While agents have their own names, the installation is as if it were done in one step, at a moment
of the run (`install_linearizable`). When an agent comes back under its name with another address,
it is not (`not_install_linearizable`).
-/

namespace ChainingBox

open Lib

/-- `CBMsg`, as `ParseCBMsg` returns it; `none` is a message of another type. -/
inductive CBMsg
  | hello (name : String) (address : Mac)
  | install (rules : CBRulesConfig)
  | none

/-- `HandleConnection`, with whether the connection accepts writes and with what it has decoded: the
zero value, which is none of the messages, if the decoding fails. -/
def handleConnection (connectedAgents : CBManager) (accepts : Bool) (msg : CBMsg) : CBManager :=
  match msg with
  | .hello name address => Function.update connectedAgents name (some ⟨accepts, address⟩)
  | _ => connectedAgents

/-- Where `InstallConfiguration` is: in the loop over the functions, in the loops over the positions
of the chains, or in the loop of `batchInstallRules`, each with what is left to do, or at its end. -/
inductive Phase
  | check (rest : List CBInstance)
  | generate (rest : List (CBChain × (String × ℕ))) (rules : RuleMaps)
  | send (rest : List (String × CBRulesConfig))
  | ended (result : Result)

/-- The server: the map of connected agents, and the installation with the messages that it has
sent. -/
structure Server where
  connectedAgents : CBManager
  phase : Phase
  sent : List (String × CBRulesConfig)

/-- An agent's connection is handled, or the installation makes a step. -/
inductive ServerEvent
  | connection (accepts : Bool) (msg : CBMsg)
  | tick

/-- All positions of all chains, in the order of the loops. -/
def CBConfig.positions (cfg : CBConfig) : List (CBChain × (String × ℕ)) :=
  cfg.Chains.flatMap fun chain => chain.Nodes.zipIdx.map (chain, ·)

section

variable (parseIP : ParseIP) (order : List String → List String) (cfg : CBConfig)

/-- One step of the installation, which reads the map at most once. -/
def Phase.tick (cbm : CBManager) (sent : List (String × CBRulesConfig)) :
    Phase → Phase × List (String × CBRulesConfig)
  | .check [] => (.generate cfg.positions ([], []), sent)
  | .check (node :: rest) =>
    if (cbm node.Tag).isNone then (.ended .error, sent) else (.check rest, sent)
  | .generate [] rules => (.send (nodeCfgs order rules), sent)
  | .generate (p :: rest) rules =>
    match genNode parseIP cbm cfg p.1 rules p.2 with
    | none => (.ended .panic, sent)
    | some rules' => (.generate rest rules', sent)
  | .send [] => (.ended .nil, sent)
  | .send (msg :: rest) =>
    match cbm msg.1 with
    | none => (.ended .panic, sent)
    | some client => if client.accepts then (.send rest, sent ++ [msg]) else (.ended .error, sent)
  | .ended r => (.ended r, sent)

/-- One step of the server. -/
def Server.step (s : Server) : ServerEvent → Server
  | .connection accepts msg =>
    { s with connectedAgents := handleConnection s.connectedAgents accepts msg }
  | .tick =>
    { s with
      phase := (s.phase.tick parseIP order cfg s.connectedAgents s.sent).1
      sent := (s.phase.tick parseIP order cfg s.connectedAgents s.sent).2 }

/-- The server when `InstallConfiguration` is called. -/
def Server.start (connectedAgents : CBManager) : Server := ⟨connectedAgents, .check cfg.Functions, []⟩

end

/-- No agent says Hello under the name of a connected one. -/
def Server.Fresh (s : Server) : ServerEvent → Prop
  | .connection _ (.hello name _) => s.connectedAgents name = none
  | _ => True

/-! ## What the installation reads -/

/-- The generation is one loop over all positions. -/
theorem genRules_eq_positions (parseIP : ParseIP) (cbm : CBManager) (cfg : CBConfig) :
    genRules parseIP cbm cfg =
      cfg.positions.foldlM (fun rules p => genNode parseIP cbm cfg p.1 rules p.2) ([], []) := by
  have hloop (chains : List CBChain) (rules : RuleMaps) :
      chains.foldlM (genChain parseIP cbm cfg) rules =
        (chains.flatMap fun chain => chain.Nodes.zipIdx.map (chain, ·)).foldlM
          (fun rules p => genNode parseIP cbm cfg p.1 rules p.2) rules := by
    induction chains generalizing rules with
    | nil => rfl
    | cons chain chains ih =>
      rw [List.foldlM_cons, List.flatMap_cons, List.foldlM_append, List.foldlM_map]
      exact congrArg _ (funext ih)
  exact hloop cfg.Chains ([], [])

/-- The generation reads the addresses of declared functions only. -/
theorem genNode_congr {parseIP : ParseIP} {cbm cbm' : CBManager} {cfg : CBConfig}
    (h : ∀ f ∈ cfg.Functions, cbm f.Tag = cbm' f.Tag) (chain : CBChain) (rules : RuleMaps)
    (pos : String × ℕ) :
    genNode parseIP cbm cfg chain rules pos = genNode parseIP cbm' cfg chain rules pos := by
  have hfwd : genFwd cbm cfg chain pos.2 pos.1 = genFwd cbm' cfg chain pos.2 pos.1 := by
    unfold genFwd
    cases hnext : cfg.getNodeByName (chain.Nodes.getD (pos.2 + 1) "") with
    | none => rfl
    | some next =>
      have haddr : cbm.addr next.Tag = cbm'.addr next.Tag := by
        rw [CBManager.addr, CBManager.addr, h next (getNodeByName_some hnext).1]
      simp only [Option.bind_eq_bind, Option.bind_some, haddr]
  rw [genNode, genNode, hfwd]

theorem genRules_congr {parseIP : ParseIP} {cbm cbm' : CBManager} {cfg : CBConfig}
    (h : ∀ f ∈ cfg.Functions, cbm f.Tag = cbm' f.Tag) :
    genRules parseIP cbm cfg = genRules parseIP cbm' cfg := by
  rw [genRules_eq_positions, genRules_eq_positions]
  congr 1
  funext rules p
  exact genNode_congr h p.1 rules p.2

/-- Messages that go out before the others. -/
theorem batchInstallRules_append {cbm : CBManager} {sent : List (String × CBRulesConfig)}
    (h : ∀ msg ∈ sent, ∃ client, cbm msg.1 = some client ∧ client.accepts)
    (rest : List (String × CBRulesConfig)) :
    batchInstallRules cbm (sent ++ rest) =
      ⟨sent ++ (batchInstallRules cbm rest).sent, (batchInstallRules cbm rest).result⟩ := by
  induction sent with
  | nil => rfl
  | cons msg sent ih =>
    obtain ⟨client, hclient, haccepts⟩ := h msg List.mem_cons_self
    have hrest := ih fun msg hmsg => h msg (List.mem_cons_of_mem _ hmsg)
    rw [List.cons_append, batchInstallRules, hclient]
    dsimp only
    rw [if_pos haccepts, hrest]
    rfl

/-! ## The installation between two connections -/

/-- All declared functions are connected. -/
def CBManager.Complete (cbm : CBManager) (cfg : CBConfig) : Prop :=
  ∀ f ∈ cfg.Functions, (cbm f.Tag).isSome

/-- What the installation has done so far is what it would have done with the map as it is now, and
what is left to do is what would be left. -/
def Server.Inv (parseIP : ParseIP) (order : List String → List String) (cfg : CBConfig)
    (s : Server) : Prop :=
  match s.phase with
  | .check rest => s.sent = [] ∧ ∃ checked, cfg.Functions = checked ++ rest ∧
      ∀ f ∈ checked, (s.connectedAgents f.Tag).isSome
  | .generate rest rules => s.sent = [] ∧ s.connectedAgents.Complete cfg ∧
      genRules parseIP s.connectedAgents cfg =
        rest.foldlM (fun rules p => genNode parseIP s.connectedAgents cfg p.1 rules p.2) rules
  | .send rest => s.connectedAgents.Complete cfg ∧ ∃ rules,
      genRules parseIP s.connectedAgents cfg = some rules ∧ nodeCfgs order rules = s.sent ++ rest ∧
        ∀ msg ∈ s.sent, ∃ client, s.connectedAgents msg.1 = some client ∧ client.accepts
  | .ended r => ⟨s.sent, r⟩ = installConfiguration parseIP order s.connectedAgents cfg

namespace Server

variable {parseIP : ParseIP} {order : List String → List String} {cfg : CBConfig}

/-- The whole installation with a map of all declared functions. -/
theorem installConfiguration_of_complete {cbm : CBManager} (h : cbm.Complete cfg) :
    installConfiguration parseIP order cbm cfg =
      match genRules parseIP cbm cfg with
      | none => ⟨[], .panic⟩
      | some rules => batchInstallRules cbm (nodeCfgs order rules) := by
  have hany : cfg.Functions.any (fun node => (cbm node.Tag).isNone) = false := by
    rw [List.any_eq_false]
    intro f hf hnone
    exact Option.isSome_iff_ne_none.1 (h f hf) (Option.isNone_iff_eq_none.1 hnone)
  rw [installConfiguration, hany]
  rfl

/-- A step of the installation. -/
theorem inv_tick {s : Server} (h : s.Inv parseIP order cfg) :
    (step parseIP order cfg s .tick).Inv parseIP order cfg := by
  obtain ⟨cbm, phase, sent⟩ := s
  cases phase with
  | check rest =>
    obtain ⟨rfl, checked, hsplit, hchecked⟩ := h
    cases rest with
    | nil =>
      rw [List.append_nil] at hsplit
      refine ⟨rfl, fun f hf => hchecked f (hsplit ▸ hf), ?_⟩
      exact genRules_eq_positions parseIP cbm cfg
    | cons node rest =>
      by_cases hnode : (cbm node.Tag).isNone
      · have hstep : step parseIP order cfg ⟨cbm, .check (node :: rest), []⟩ .tick =
            ⟨cbm, .ended .error, []⟩ := by
          simp only [step, Phase.tick, hnode, if_true]
        have hany : cfg.Functions.any (fun node => (cbm node.Tag).isNone) = true :=
          List.any_eq_true.2 ⟨node, by rw [hsplit]; simp, hnode⟩
        rw [hstep]
        show _ = installConfiguration parseIP order cbm cfg
        rw [installConfiguration, hany]
        rfl
      · have hstep : step parseIP order cfg ⟨cbm, .check (node :: rest), []⟩ .tick =
            ⟨cbm, .check rest, []⟩ := by
          simp only [step, Phase.tick, hnode, Bool.false_eq_true, if_false]
        rw [hstep]
        refine ⟨rfl, checked ++ [node], by rw [hsplit, List.append_assoc, List.singleton_append], ?_⟩
        intro f hf
        rcases List.mem_append.1 hf with hmem | hmem
        · exact hchecked f hmem
        · rw [List.mem_singleton.1 hmem]
          exact Option.isSome_iff_ne_none.2 fun hnone => hnode (Option.isNone_iff_eq_none.2 hnone)
  | generate rest rules =>
    obtain ⟨rfl, hcomplete, hrules⟩ := h
    dsimp only at hcomplete hrules
    cases rest with
    | nil => exact ⟨hcomplete, rules, hrules, rfl, fun msg hmsg => absurd hmsg List.not_mem_nil⟩
    | cons p rest =>
      rw [List.foldlM_cons] at hrules
      cases hp : genNode parseIP cbm cfg p.1 rules p.2 with
      | none =>
        have hstep : step parseIP order cfg ⟨cbm, .generate (p :: rest) rules, []⟩ .tick =
            ⟨cbm, .ended .panic, []⟩ := by
          simp only [step, Phase.tick, hp]
        rw [hp] at hrules
        rw [hstep]
        show _ = installConfiguration parseIP order cbm cfg
        rw [installConfiguration_of_complete hcomplete, hrules]
        rfl
      | some rules' =>
        have hstep : step parseIP order cfg ⟨cbm, .generate (p :: rest) rules, []⟩ .tick =
            ⟨cbm, .generate rest rules', []⟩ := by
          simp only [step, Phase.tick, hp]
        rw [hp] at hrules
        rw [hstep]
        exact ⟨rfl, hcomplete, hrules⟩
  | send rest =>
    obtain ⟨hcomplete, rules, hrules, hsplit, hsent⟩ := h
    dsimp only at hcomplete hrules hsplit hsent
    have hwhole : installConfiguration parseIP order cbm cfg =
        ⟨sent ++ (batchInstallRules cbm rest).sent, (batchInstallRules cbm rest).result⟩ := by
      rw [installConfiguration_of_complete hcomplete, hrules]
      dsimp only
      rw [hsplit, batchInstallRules_append hsent]
    cases rest with
    | nil =>
      show _ = installConfiguration parseIP order cbm cfg
      rw [hwhole, batchInstallRules, List.append_nil]
      rfl
    | cons msg rest =>
      cases hclient : cbm msg.1 with
      | none =>
        have hstep : step parseIP order cfg ⟨cbm, .send (msg :: rest), sent⟩ .tick =
            ⟨cbm, .ended .panic, sent⟩ := by
          simp only [step, Phase.tick, hclient]
        rw [hstep]
        show _ = installConfiguration parseIP order cbm cfg
        rw [hwhole, batchInstallRules, hclient, List.append_nil]
      | some client =>
        by_cases haccepts : client.accepts
        · have hstep : step parseIP order cfg ⟨cbm, .send (msg :: rest), sent⟩ .tick =
              ⟨cbm, .send rest, sent ++ [msg]⟩ := by
            simp only [step, Phase.tick, hclient, haccepts, if_true]
          rw [hstep]
          refine ⟨hcomplete, rules, hrules, ?_, fun msg' hmsg' => ?_⟩
          · rw [hsplit, List.append_assoc, List.singleton_append]
          · rcases List.mem_append.1 hmsg' with hmem | hmem
            · exact hsent msg' hmem
            · rw [List.mem_singleton.1 hmem]
              exact ⟨client, hclient, haccepts⟩
        · have hstep : step parseIP order cfg ⟨cbm, .send (msg :: rest), sent⟩ .tick =
              ⟨cbm, .ended .error, sent⟩ := by
            simp only [step, Phase.tick, hclient, haccepts, Bool.false_eq_true, if_false]
          rw [hstep]
          show _ = installConfiguration parseIP order cbm cfg
          rw [hwhole, batchInstallRules, hclient]
          simp only [haccepts, Bool.false_eq_true, if_false, List.append_nil]
  | ended r => exact h

/-- Another agent is connected while the installation goes on. -/
theorem inv_connection {s : Server} (h : s.Inv parseIP order cfg)
    (hgoes : ∀ r, s.phase ≠ .ended r) {accepts : Bool} {msg : CBMsg}
    (hfresh : s.Fresh (.connection accepts msg)) :
    (step parseIP order cfg s (.connection accepts msg)).Inv parseIP order cfg := by
  obtain ⟨cbm, phase, sent⟩ := s
  set cbm' := handleConnection cbm accepts msg with hcbm'
  -- The entries of connected agents remain.
  have hkeep {name : String} {client : CBClient} (hname : cbm name = some client) :
      cbm' name = some client := by
    cases msg with
    | hello name' address =>
      have hne : name ≠ name' := by
        rintro rfl
        have hnone : cbm name = none := hfresh
        rw [hname] at hnone
        exact absurd hnone (by simp)
      rw [hcbm', handleConnection, Function.update_of_ne hne, hname]
    | install rules => exact hname
    | none => exact hname
  have hsome {name : String} (hname : (cbm name).isSome) : (cbm' name).isSome := by
    obtain ⟨client, hclient⟩ := Option.isSome_iff_exists.1 hname
    rw [hkeep hclient]
    rfl
  have hsame (hcomplete : cbm.Complete cfg) : ∀ f ∈ cfg.Functions, cbm' f.Tag = cbm f.Tag := by
    intro f hf
    obtain ⟨client, hclient⟩ := Option.isSome_iff_exists.1 (hcomplete f hf)
    rw [hkeep hclient, hclient]
  cases phase with
  | check rest =>
    obtain ⟨hnil, checked, hsplit, hchecked⟩ := h
    exact ⟨hnil, checked, hsplit, fun f hf => hsome (hchecked f hf)⟩
  | generate rest rules =>
    obtain ⟨hnil, hcomplete, hrules⟩ := h
    refine ⟨hnil, fun f hf => hsome (hcomplete f hf), ?_⟩
    show genRules parseIP cbm' cfg = rest.foldlM (fun rules p => genNode parseIP cbm' cfg p.1 rules p.2) rules
    rw [genRules_congr (hsame hcomplete)]
    refine hrules.trans ?_
    congr 1
    funext rules p
    exact (genNode_congr (hsame hcomplete) p.1 rules p.2).symm
  | send rest =>
    obtain ⟨hcomplete, rules, hrules, hsplit, hsent⟩ := h
    refine ⟨fun f hf => hsome (hcomplete f hf), rules, ?_, hsplit, fun msg' hmsg' => ?_⟩
    · exact (genRules_congr (hsame hcomplete)).trans hrules
    · obtain ⟨client, hclient, haccepts⟩ := hsent msg' hmsg'
      exact ⟨client, hkeep hclient, haccepts⟩
  | ended r => exact absurd rfl (hgoes r)

/-! ## How long the installation takes -/

/-- The steps that are left at most: a position adds at most one rule, and there is at most one
message for each rule. -/
def left (cfg : CBConfig) : Phase → ℕ
  | .check rest => rest.length + 2 * cfg.positions.length + 3
  | .generate rest rules => 2 * rest.length + rules.1.length + 2
  | .send rest => rest.length + 1
  | .ended _ => 0

theorem length_genFwd {cbm : CBManager} {chain : CBChain} {i : ℕ} {node : String}
    {rules : List FwdRule} (h : genFwd cbm cfg chain i node = some rules) : rules.length ≤ 1 := by
  unfold genFwd at h
  simp only [Option.bind_eq_bind] at h
  split_ifs at h
  · rw [← Option.some.inj h]
    rfl
  · obtain ⟨next, -, h⟩ := Option.bind_eq_some_iff.1 h
    obtain ⟨curr, -, h⟩ := Option.bind_eq_some_iff.1 h
    split_ifs at h <;> rw [← Option.some.inj h] <;> simp

theorem length_genNode {cbm : CBManager} {chain : CBChain} {rules rules' : RuleMaps}
    {pos : String × ℕ} (h : genNode parseIP cbm cfg chain rules pos = some rules') :
    rules'.1.length ≤ rules.1.length + 1 := by
  obtain ⟨fr, hfr, h⟩ := Option.bind_eq_some_iff.1 h
  obtain ⟨pr, -, h⟩ := Option.bind_eq_some_iff.1 h
  have hone := length_genFwd hfr
  rw [← Option.some.inj h]
  simp only [List.length_append, List.length_map]
  omega

theorem length_nodeCfgs (horder : ∀ l, (order l).Perm l) (rules : RuleMaps) :
    (nodeCfgs order rules).length ≤ rules.1.length := by
  calc (nodeCfgs order rules).length = rules.1.keys.length := by
        rw [nodeCfgs, List.length_map, (horder _).length_eq]
    _ ≤ (rules.1.map Prod.fst).length := (List.dedup_sublist _).length_le
    _ = rules.1.length := List.length_map _

/-- Each step of the installation leaves fewer. -/
theorem left_tick_lt (horder : ∀ l, (order l).Perm l) (cbm : CBManager)
    (sent : List (String × CBRulesConfig)) {phase : Phase} (h : ∀ r, phase ≠ .ended r) :
    left cfg (phase.tick parseIP order cfg cbm sent).1 < left cfg phase := by
  cases phase with
  | check rest =>
    cases rest with
    | nil =>
      simp only [Phase.tick, left, List.length_nil]
      omega
    | cons node rest =>
      simp only [Phase.tick]
      split_ifs <;> simp only [left, List.length_cons] <;> omega
  | generate rest rules =>
    cases rest with
    | nil =>
      have hle := length_nodeCfgs horder rules
      simp only [Phase.tick, left, List.length_nil]
      omega
    | cons p rest =>
      simp only [Phase.tick]
      cases hp : genNode parseIP cbm cfg p.1 rules p.2 with
      | none => simp only [left, List.length_cons]; omega
      | some rules' =>
        have hle := length_genNode hp
        simp only [left, List.length_cons]
        omega
  | send rest =>
    cases rest with
    | nil => simp only [Phase.tick, left, List.length_nil]; omega
    | cons msg rest =>
      simp only [Phase.tick]
      cases cbm msg.1 with
      | none => simp only [left, List.length_cons]; omega
      | some client =>
        dsimp only
        split_ifs <;> simp only [left, List.length_cons] <;> omega
  | ended r => exact absurd rfl (h r)

/-- A step of the installation. -/
def isTick : ServerEvent → Bool
  | .tick => true
  | _ => false

/-- After enough steps, the installation has ended. -/
theorem ended_of_ticks (horder : ∀ l, (order l).Perm l) {s : Server} {es : List ServerEvent}
    (h : left cfg s.phase ≤ es.countP isTick) :
    ∃ r, (run (step parseIP order cfg) s es).phase = .ended r := by
  induction es generalizing s with
  | nil =>
    by_contra hne
    push Not at hne
    have hlt := @left_tick_lt parseIP order cfg horder s.connectedAgents s.sent s.phase hne
    rw [List.countP_nil] at h
    omega
  | cons e es ih =>
    refine @ih (step parseIP order cfg s e) ?_
    cases e with
    | connection accepts msg =>
      rw [List.countP_cons_of_neg (by simp [isTick])] at h
      exact h
    | tick =>
      rw [List.countP_cons_of_pos rfl] at h
      by_cases hgoes : ∀ r, s.phase ≠ .ended r
      · have hlt := @left_tick_lt parseIP order cfg horder s.connectedAgents s.sent s.phase hgoes
        exact Nat.lt_succ_iff.1 (hlt.trans_le h)
      · push Not at hgoes
        obtain ⟨r, hr⟩ := hgoes
        simp only [step, hr, Phase.tick, left, Nat.zero_le]

/-! ## A whole run -/

/-- When the installation has ended, nothing more happens to it. -/
theorem run_of_ended {s : Server} {r : Result} (h : s.phase = .ended r) (es : List ServerEvent) :
    (run (step parseIP order cfg) s es).phase = .ended r ∧
      (run (step parseIP order cfg) s es).sent = s.sent := by
  refine @run_invariant _ _ (step parseIP order cfg)
    (fun s' => s'.phase = .ended r ∧ s'.sent = s.sent) ?_ s ⟨h, rfl⟩ es
  rintro s' e ⟨hphase, hsent⟩
  cases e with
  | connection accepts msg => exact ⟨hphase, hsent⟩
  | tick =>
    simp only [step, hphase, Phase.tick]
    exact ⟨trivial, hsent⟩

/-- The installation has ended as it would have in one step at some moment of the run. -/
theorem of_ended {s : Server} {es : List ServerEvent} {r : Result} (h : s.Inv parseIP order cfg)
    (hgoes : ∀ r, s.phase ≠ .ended r) (hfresh : Along (step parseIP order cfg) Fresh s es)
    (hended : (run (step parseIP order cfg) s es).phase = .ended r) :
    ∃ es₁, es₁ <+: es ∧ (⟨(run (step parseIP order cfg) s es).sent, r⟩ : Outcome) =
      installConfiguration parseIP order (run (step parseIP order cfg) s es₁).connectedAgents cfg := by
  induction es generalizing s with
  | nil => exact absurd hended (hgoes r)
  | cons e es ih =>
    obtain ⟨hfirst, hrest⟩ := hfresh
    have hinv : (step parseIP order cfg s e).Inv parseIP order cfg := by
      cases e with
      | connection accepts msg => exact inv_connection h hgoes hfirst
      | tick => exact inv_tick h
    by_cases hgoes' : ∀ r, (step parseIP order cfg s e).phase ≠ .ended r
    · obtain ⟨es₁, hpart, heq⟩ := @ih _ hinv hgoes' hrest hended
      exact ⟨e :: es₁, List.cons_prefix_cons.2 ⟨rfl, hpart⟩, heq⟩
    · -- The moment is that of the last step.
      push Not at hgoes'
      obtain ⟨r', hr'⟩ := hgoes'
      obtain ⟨hphase, hsent⟩ := @run_of_ended parseIP order cfg _ _ hr' es
      have hsame : r' = r := Phase.ended.inj (hphase.symm.trans hended)
      unfold Inv at hinv
      rw [hr', hsame, ← hsent] at hinv
      exact ⟨[e], List.cons_prefix_cons.2 ⟨rfl, List.nil_prefix⟩, hinv⟩

end Server

/-- Whatever agents connect while a configuration is being installed, if none says Hello under the
name of a connected one: the installation ends, and it has sent the messages and has the result that
it has when it is done in one step at some moment of the run. -/
theorem install_linearizable (parseIP : ParseIP) (order : List String → List String)
    (horder : ∀ l, (order l).Perm l) (cfg : CBConfig) (cbm : CBManager) (es : List ServerEvent)
    (hfresh : Along (Server.step parseIP order cfg) Server.Fresh (Server.start cfg cbm) es)
    (hticks : cfg.Functions.length + 2 * cfg.positions.length + 3 ≤ es.countP Server.isTick) :
    ∃ r es₁, es₁ <+: es ∧
      (run (Server.step parseIP order cfg) (Server.start cfg cbm) es).phase = .ended r ∧
      (⟨(run (Server.step parseIP order cfg) (Server.start cfg cbm) es).sent, r⟩ : Outcome) =
        installConfiguration parseIP order
          (run (Server.step parseIP order cfg) (Server.start cfg cbm) es₁).connectedAgents cfg := by
  obtain ⟨r, hended⟩ := @Server.ended_of_ticks parseIP order cfg horder (Server.start cfg cbm) es
    hticks
  have hinv : (Server.start cfg cbm).Inv parseIP order cfg :=
    ⟨rfl, [], rfl, fun f hf => absurd hf List.not_mem_nil⟩
  obtain ⟨es₁, hpart, heq⟩ := Server.of_ended hinv (fun r h => by simp [Server.start] at h) hfresh
    hended
  exact ⟨r, es₁, hpart, hended, heq⟩

/-! ## Two runs -/

/-- An agent says Hello. -/
def helloEvent (name : String) (last : Byte) : ServerEvent :=
  .connection true (.hello name (Mac.of 0x02 0 0 0 0 last))

/-- The second agent connects after the first function has been checked. -/
def connectingRun : List ServerEvent :=
  [helloEvent "fw" 1, .tick, helloEvent "nat" 2] ++ List.replicate 9 .tick

/-- The installation is as if it were done in one step. -/
theorem install_linearizable_pair :
    ∃ r es₁, es₁ <+: connectingRun ∧
      (run (Server.step parsePing id pairConfig) (Server.start pairConfig fun _ => none)
        connectingRun).phase = .ended r ∧
      (⟨(run (Server.step parsePing id pairConfig) (Server.start pairConfig fun _ => none)
        connectingRun).sent, r⟩ : Outcome) =
        installConfiguration parsePing id
          (run (Server.step parsePing id pairConfig) (Server.start pairConfig fun _ => none)
            es₁).connectedAgents pairConfig :=
  install_linearizable parsePing id List.Perm.refl pairConfig (fun _ => none) connectingRun
    ⟨rfl, trivial, rfl, trivial, trivial, trivial, trivial, trivial, trivial, trivial, trivial,
      trivial, trivial⟩
    (by decide)

/-- Two remote functions, in one chain and in its reverse. -/
def crossConfig : CBConfig where
  Chains := [⟨1, ["fw", "nat"], []⟩, ⟨2, ["nat", "fw"], []⟩]
  Functions := [⟨"fw", true⟩, ⟨"nat", true⟩]

/-- Both agents come back with another address while the rules are generated. -/
def restartRun : List ServerEvent :=
  [helloEvent "fw" 1, helloEvent "nat" 2, .tick, .tick, .tick, .tick, helloEvent "nat" 4,
    helloEvent "fw" 3] ++ List.replicate 9 .tick

/-- One chain leads to the old address of one agent, and the other to the new address of the other
agent, and at no moment were both connected with these. -/
theorem not_install_linearizable :
    (run (Server.step parsePing id crossConfig) (Server.start crossConfig fun _ => none)
      restartRun).phase = .ended .nil ∧
    ∀ es₁, es₁ <+: restartRun → installConfiguration parsePing id
      (run (Server.step parsePing id crossConfig) (Server.start crossConfig fun _ => none)
        es₁).connectedAgents crossConfig ≠
      ⟨(run (Server.step parsePing id crossConfig) (Server.start crossConfig fun _ => none)
        restartRun).sent, .nil⟩ := by
  refine ⟨rfl, fun es₁ hpart heq => ?_⟩
  have hsent := congrArg Outcome.sent heq
  have htake := List.prefix_iff_eq_take.1 hpart
  have hlt : es₁.length ≤ 17 := hpart.length_le
  rw [htake] at hsent
  revert hsent
  generalize es₁.length = n at hlt
  have hall : ∀ n ≤ 17, (installConfiguration parsePing id
      (run (Server.step parsePing id crossConfig) (Server.start crossConfig fun _ => none)
        (restartRun.take n)).connectedAgents crossConfig).sent ≠
      (run (Server.step parsePing id crossConfig) (Server.start crossConfig fun _ => none)
        restartRun).sent := by
    decide +kernel
  exact hall n hlt

end ChainingBox
