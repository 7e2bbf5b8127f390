import ChainingBox.Dataplane.SavedHeaders
import ChainingBox.Control.Install

/-!
# What becomes of an Install message

An agent inserts the rules of a message one by one into two tables of 2048 entries each, which hold
rules of earlier messages and headers learned from traffic. `handleInstall` drops the results of the
insertions and returns nil, where its comments ask for the rules to be uninstalled again.

`complete_iff` says when all rules of a message are in the tables afterwards: when the tables have
room for its new keys. Otherwise some insertion fails, an earlier one may have succeeded, and nothing
reports it (`reverts_iff`). `install_complete_iff` carries both to the messages of a configuration.
-/

namespace ChainingBox

open Lib

/-- The writes to `fwd_table` for a message, in order. -/
def CBRulesConfig.fwdWrites (msg : CBRulesConfig) : List (BitVec 32 × FwdEntry) :=
  msg.Fwd.map fun rule => (htonl rule.Key, rule.Val)

/-- The writes to `nsh_data` for a message, in order. -/
def CBRulesConfig.proxyWrites (junk : ℕ → ByteVec 16) (msg : CBRulesConfig) :
    List (Ip5tuple × Nsh) :=
  msg.Proxy.zipIdx.map fun rule => (rule.1.Key.toNetwork, proxyNsh rule.1.Val (junk rule.2))

/-- The tables that a handler leaves, and whether it returned an error. -/
structure Handled where
  maps : NodeMaps
  error : Bool

/-- `handleInstall` with its result, which is nil in any case. -/
def handleInstallRet (junk : ℕ → ByteVec 16) (m : NodeMaps) (msg : CBRulesConfig) : Handled :=
  ⟨handleInstall junk m msg, false⟩

/-- Every insertion of a message succeeds. -/
def AllInserted (junk : ℕ → ByteVec 16) (m : NodeMaps) (msg : CBRulesConfig) : Prop :=
  m.fwd_table.AllFit msg.fwdWrites ∧ m.nsh_data.AllFit (msg.proxyWrites junk)

/-- Once the message is handled, every rule of it is in its table, with the value of the last rule
for its key. -/
def Complete (junk : ℕ → ByteVec 16) (m : NodeMaps) (msg : CBRulesConfig) : Prop :=
  let out := handleInstallRet junk m msg
  (∀ p ∈ msg.fwdWrites,
    out.maps.fwd_table.lookup p.1 = BoundedMap.lastValue msg.fwdWrites p.1) ∧
  (∀ p ∈ msg.proxyWrites junk,
    out.maps.nsh_data.lookup p.1 = BoundedMap.lastValue (msg.proxyWrites junk) p.1)

/-- If some insertion of the message fails, the handler returns an error, and leaves both tables as
they were. -/
def Reverts (junk : ℕ → ByteVec 16) (m : NodeMaps) (msg : CBRulesConfig) : Prop :=
  let out := handleInstallRet junk m msg
  ¬ AllInserted junk m msg → out.error = true ∧ out.maps = m

/-- The tables have room for the new keys of a message. -/
def Fits (m : NodeMaps) (msg : CBRulesConfig) : Prop :=
  m.fwd_table.size + (m.fwd_table.newKeys (msg.Fwd.map fun rule => htonl rule.Key)).card ≤ 2048 ∧
  m.nsh_data.size + (m.nsh_data.newKeys (msg.Proxy.map fun rule => rule.Key.toNetwork)).card ≤ 2048

/-! ## One message -/

theorem handleInstall_fwdWrites (junk : ℕ → ByteVec 16) (m : NodeMaps) (msg : CBRulesConfig) :
    (handleInstall junk m msg).fwd_table = m.fwd_table.putAll msg.fwdWrites :=
  handleInstall_fwd_table junk m msg

theorem handleInstall_proxyWrites (junk : ℕ → ByteVec 16) (m : NodeMaps) (msg : CBRulesConfig) :
    (handleInstall junk m msg).nsh_data = m.nsh_data.putAll (msg.proxyWrites junk) :=
  handleInstall_nsh_data junk m msg

theorem fwdWrites_keys (msg : CBRulesConfig) :
    msg.fwdWrites.map Prod.fst = msg.Fwd.map fun rule => htonl rule.Key := by
  rw [CBRulesConfig.fwdWrites, List.map_map]
  rfl

theorem proxyWrites_keys (junk : ℕ → ByteVec 16) (msg : CBRulesConfig) :
    (msg.proxyWrites junk).map Prod.fst = msg.Proxy.map fun rule => rule.Key.toNetwork := by
  have hfst : msg.Proxy.zipIdx.map Prod.fst = msg.Proxy := List.zipIdx_map_fst 0 msg.Proxy
  conv_rhs => rw [← hfst, List.map_map]
  rw [CBRulesConfig.proxyWrites, List.map_map]
  rfl

/-- All insertions succeed exactly when the tables have room for the new keys. -/
theorem allInserted_iff {junk : ℕ → ByteVec 16} {m : NodeMaps} {msg : CBRulesConfig} :
    AllInserted junk m msg ↔ Fits m msg := by
  rw [AllInserted, BoundedMap.allFit_iff, BoundedMap.allFit_iff, fwdWrites_keys, proxyWrites_keys,
    Fits]

/-- A run of writes whose keys all have their last values afterwards is one that succeeds. -/
theorem allFit_iff_present {κ α : Type} {cap : ℕ} [DecidableEq κ] {m : BoundedMap κ α cap}
    {l : List (κ × α)} :
    m.AllFit l ↔ ∀ p ∈ l, (m.putAll l).lookup p.1 = BoundedMap.lastValue l p.1 := by
  have hlast {p : κ × α} (hp : p ∈ l) : ∃ v, BoundedMap.lastValue l p.1 = some v :=
    BoundedMap.exists_lastValue.2 (List.mem_map.2 ⟨p, hp, rfl⟩)
  constructor
  · intro h p hp
    obtain ⟨v, hv⟩ := hlast hp
    rw [BoundedMap.lookup_putAll_of_allFit h, hv, Option.some_or]
  · intro h
    by_contra hnot
    obtain ⟨p, hp, hnone⟩ := BoundedMap.exists_lookup_none hnot
    obtain ⟨v, hv⟩ := hlast hp
    rw [h p hp, hv] at hnone
    exact absurd hnone (by simp)

/-- All rules of a message are in the tables exactly when its new keys fit. -/
theorem complete_iff {junk : ℕ → ByteVec 16} {m : NodeMaps} {msg : CBRulesConfig} :
    Complete junk m msg ↔ Fits m msg := by
  rw [← @allInserted_iff junk, AllInserted, allFit_iff_present, allFit_iff_present,
    ← handleInstall_fwdWrites junk, ← handleInstall_proxyWrites]
  exact Iff.rfl

/-- As nothing is ever reported, the handler keeps the law of failures exactly when there are none. -/
theorem reverts_iff {junk : ℕ → ByteVec 16} {m : NodeMaps} {msg : CBRulesConfig} :
    Reverts junk m msg ↔ Fits m msg := by
  rw [← @allInserted_iff junk]
  constructor
  · intro h
    by_contra hnot
    exact absurd (h hnot).1 (by simp [handleInstallRet])
  · exact fun h hnot => absurd h hnot

/-! ## The messages of a configuration -/

/-- An empty message always fits. -/
theorem fits_empty (m : NodeMaps) : Fits m ⟨[], []⟩ :=
  ⟨m.fwd_table.size_le, m.nsh_data.size_le⟩

/-- After an installation that returns nil, what holds of every message sent holds of the rules of
every node, if it holds of the empty message. -/
theorem sent_iff {parseIP : ParseIP} {order : List String → List String}
    (horder : ∀ l, (order l).Perm l) {cbm : CBManager} {cfg : CBConfig}
    (hnil : (installConfiguration parseIP order cbm cfg).result = .nil)
    {P : String → CBRulesConfig → Prop} (hempty : ∀ node, P node ⟨[], []⟩) :
    (∀ p ∈ (installConfiguration parseIP order cbm cfg).sent, P p.1 p.2) ↔
      ∀ node, P node (rulesOf parseIP cbm cfg node) := by
  obtain ⟨-, -, hsent, -⟩ := of_installConfiguration_nil hnil
  rw [hsent]
  constructor
  · intro h node
    by_cases hmem : node ∈ (fwdList cbm cfg).keys
    · exact h (node, rulesOf parseIP cbm cfg node)
        (List.mem_map.2 ⟨node, (horder _).mem_iff.2 hmem, rfl⟩)
    · rw [rulesOf_eq_empty.2 hmem]
      exact hempty node
  · intro h p hp
    obtain ⟨node, -, rfl⟩ := List.mem_map.1 hp
    exact h node

/-- After an installation that returns nil, whatever the agents' tables held before: all rules of all
messages are in the tables exactly when at every agent the new keys of its rules fit; and the
handlers report and undo their failures exactly when there are none. -/
theorem install_complete_iff (parseIP : ParseIP) (order : List String → List String)
    (horder : ∀ l, (order l).Perm l) (cbm : CBManager) (cfg : CBConfig)
    (hnil : (installConfiguration parseIP order cbm cfg).result = .nil)
    (net : String → NodeMaps) (junk : String → ℕ → ByteVec 16) :
    ((∀ p ∈ (installConfiguration parseIP order cbm cfg).sent,
        Complete (junk p.1) (net p.1) p.2) ↔
      ∀ node, Fits (net node) (rulesOf parseIP cbm cfg node)) ∧
    ((∀ p ∈ (installConfiguration parseIP order cbm cfg).sent,
        Reverts (junk p.1) (net p.1) p.2) ↔
      ∀ node, Fits (net node) (rulesOf parseIP cbm cfg node)) := by
  simp only [complete_iff, reverts_iff]
  have h := @sent_iff parseIP order horder cbm cfg hnil (fun node msg => Fits (net node) msg)
    fun node => fits_empty (net node)
  exact ⟨h, h⟩

/-- Agents with empty tables. -/
def emptyNode : NodeMaps := ⟨⟨nodeMac, nodeMac'⟩, .empty, .empty⟩

/-- An agent whose table holds entries for `n` flows of UDP. -/
def learnedNode (n : ℕ) : NodeMaps := { emptyNode with nsh_data := run nshStep .empty (proxyRules n) }

theorem learnedNode_nsh_data (n : ℕ) :
    (learnedNode n).nsh_data = run nshStep .empty (proxyRules n) := rfl

theorem install_complete_pair :
    ((∀ p ∈ (installConfiguration parsePing id pairManager pairConfig).sent,
        Complete (fun _ => noContext) emptyNode p.2) ↔
      ∀ node, Fits emptyNode (rulesOf parsePing pairManager pairConfig node)) ∧
    ((∀ p ∈ (installConfiguration parsePing id pairManager pairConfig).sent,
        Reverts (fun _ => noContext) emptyNode p.2) ↔
      ∀ node, Fits emptyNode (rulesOf parsePing pairManager pairConfig node)) :=
  install_complete_iff parsePing id (fun _ => List.Perm.refl _) pairManager pairConfig (by decide)
    (fun _ => emptyNode) fun _ _ => noContext

/-- The rules of the second of two local functions do not fit into the full table. -/
theorem not_fits_full :
    ¬ Fits (learnedNode 2048) (rulesOf parsePing pairManager pairConfig "nat") := by
  rintro ⟨-, hnsh⟩
  have hproxy : (rulesOf parsePing pairManager pairConfig "nat").Proxy.map
      (fun rule => rule.Key.toNetwork) = [⟨0x0100000A, 0x0200000A, 0, 0, IPPROTO_ICMP⟩] := by
    decide
  have hnew := @not_mem_run_proxyRules ⟨0x0100000A, 0x0200000A, 0, 0, IPPROTO_ICMP⟩ rfl 2048
  rw [hproxy, learnedNode_nsh_data, size_run_proxyRules] at hnsh
  generalize run nshStep .empty (proxyRules 2048) = nd at hnsh hnew
  have hpos : 0 < (nd.newKeys [⟨0x0100000A, 0x0200000A, 0, 0, IPPROTO_ICMP⟩]).card :=
    Finset.card_pos.2 ⟨_, Finset.mem_filter.2 ⟨List.mem_toFinset.2 (List.mem_singleton_self _), hnew⟩⟩
  omega

/-- The installation returns nil, and the agent with the full table has not got its rule, has not
reported it, and has not undone the rest. -/
theorem not_install_complete_full :
    (installConfiguration parsePing id pairManager pairConfig).result = .nil ∧
    ∃ p ∈ (installConfiguration parsePing id pairManager pairConfig).sent,
      ¬ Complete (fun _ => noContext) (learnedNode 2048) p.2 ∧
        ¬ Reverts (fun _ => noContext) (learnedNode 2048) p.2 := by
  refine ⟨by decide, ("nat", rulesOf parsePing pairManager pairConfig "nat"), by decide, ?_, ?_⟩
  · exact fun h => not_fits_full (complete_iff.1 h)
  · exact fun h => not_fits_full (reverts_iff.1 h)

end ChainingBox
