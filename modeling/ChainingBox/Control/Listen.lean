import ChainingBox.Lib.Runs
import ChainingBox.Lib.Interleave
import ChainingBox.Control.Handled

/-!
# Messages that arrive while others are handled

`ManagerListen` starts a goroutine for every Install message it reads, and reads on. So the handlers
of several messages run at the same time, and each inserts its rules one by one. The machine here has
the tables, the messages still to be read, and the insertions that each started handler has still to
make; an event reads a message, or lets some handler make its next insertion.

The insertions of a complete run are an interleaving of those of the messages, and every interleaving
comes from some run (`interleaves_of_finished`, `exists_run_of_interleaves`). `listen_in_order_iff`
follows: the tables are always those of the messages handled one after another if and only if, for
each key, all messages that mention it store the same value under it last.
-/

namespace ChainingBox

open Lib

/-- An Install message, with the bytes of the agent's memory that its proxy entries take along. -/
structure InstallMsg where
  rules : CBRulesConfig
  junk : ℕ → ByteVec 16

/-- One insertion into a table. -/
inductive Insertion
  | fwd (key : BitVec 32) (val : FwdEntry)
  | proxy (key : Ip5tuple) (sph : BitVec 32) (junk : ByteVec 16)

/-- The tables after an insertion, whose result is dropped. -/
def NodeMaps.insert (m : NodeMaps) : Insertion → NodeMaps
  | .fwd key val => { m with fwd_table := (addFwdRule m.fwd_table key val).getD m.fwd_table }
  | .proxy key sph junk =>
    { m with nsh_data := (addProxyRule m.nsh_data key sph junk).getD m.nsh_data }

/-- The insertions that the handler of a message makes, in order. -/
def InstallMsg.insertions (msg : InstallMsg) : List Insertion :=
  msg.rules.Fwd.map (fun rule => .fwd rule.Key rule.Val) ++
    msg.rules.Proxy.zipIdx.map fun rule => .proxy rule.1.Key rule.1.Val (msg.junk rule.2)

/-- An agent: its tables, the messages on the connection, and the handlers that have started, each
with its remaining insertions. -/
structure AgentState where
  maps : NodeMaps
  arriving : List InstallMsg
  handlers : List (List Insertion)

/-- The next message is read, or a handler makes its next insertion. -/
inductive AgentEvent
  | receive
  | insert (i : ℕ)

/-- One atomic step of the agent. -/
def agentStep (s : AgentState) : AgentEvent → AgentState
  | .receive =>
    match s.arriving with
    | [] => s
    | msg :: rest => { s with arriving := rest, handlers := s.handlers ++ [msg.insertions] }
  | .insert i =>
    match s.handlers[i]? with
    | some (a :: t) => { s with maps := s.maps.insert a, handlers := s.handlers.set i t }
    | _ => s

/-- All messages have been read and handled. -/
def AgentState.Finished (s : AgentState) : Prop := s.arriving = [] ∧ ∀ t ∈ s.handlers, t = []

/-- An agent before the messages arrive. -/
def listening (m : NodeMaps) (msgs : List InstallMsg) : AgentState := ⟨m, msgs, []⟩

/-- The messages handled one after another. -/
def handleInOrder (m : NodeMaps) (msgs : List InstallMsg) : NodeMaps :=
  msgs.foldl (fun m msg => handleInstall msg.junk m msg.rules) m

/-- Two nodes have the same entries. -/
def SameTables (m m' : NodeMaps) : Prop :=
  (∀ k, m.fwd_table.lookup k = m'.fwd_table.lookup k) ∧
    ∀ k, m.nsh_data.lookup k = m'.nsh_data.lookup k

/-- However the handlers are scheduled, the entries are those of the messages in order. -/
def AppliesInOrder (m : NodeMaps) (msgs : List InstallMsg) : Prop :=
  ∀ es, (run agentStep (listening m msgs) es).Finished →
    SameTables (run agentStep (listening m msgs) es).maps (handleInOrder m msgs)

/-! ## Runs and interleavings -/

/-- The insertions of a run that finishes are an interleaving of those of the started handlers and of
the messages that are still to be read. -/
theorem interleaves_of_finished (es : List AgentEvent) (s : AgentState)
    (h : (run agentStep s es).Finished) :
    ∃ tr, Interleaves (s.handlers ++ s.arriving.map InstallMsg.insertions) tr ∧
      (run agentStep s es).maps = tr.foldl NodeMaps.insert s.maps := by
  induction es generalizing s with
  | nil =>
    obtain ⟨harriving, hdone⟩ := h
    have hrun : run agentStep s [] = s := rfl
    rw [hrun] at harriving hdone ⊢
    refine ⟨[], .done fun t ht => ?_, rfl⟩
    rw [harriving, List.map_nil, List.append_nil] at ht
    exact hdone t ht
  | cons e es ih =>
    obtain ⟨tr, htr, hmaps⟩ := ih (agentStep s e) h
    have hrun : run agentStep s (e :: es) = run agentStep (agentStep s e) es := rfl
    rw [hrun, hmaps]
    cases e with
    | receive =>
      -- Reading a message turns it into a handler.
      cases hs : s.arriving with
      | nil =>
        simp only [agentStep, hs] at htr ⊢
        exact ⟨tr, htr, rfl⟩
      | cons msg rest =>
        simp only [agentStep, hs, List.append_assoc, List.singleton_append] at htr ⊢
        exact ⟨tr, htr, rfl⟩
    | insert i =>
      rcases hs : s.handlers[i]? with _ | _ | ⟨a, t⟩
      · simp only [agentStep, hs] at htr ⊢
        exact ⟨tr, htr, rfl⟩
      · simp only [agentStep, hs] at htr ⊢
        exact ⟨tr, htr, rfl⟩
      · -- The handler's next insertion is the next of the trace.
        obtain ⟨hlt, hget⟩ := List.getElem?_eq_some_iff.1 hs
        have hbefore : s.handlers = s.handlers.take i ++ (a :: t) :: s.handlers.drop (i + 1) := by
          rw [← hget, List.getElem_cons_drop, List.take_append_drop]
        have hafter : s.handlers.set i t = s.handlers.take i ++ t :: s.handlers.drop (i + 1) :=
          List.set_eq_take_append_cons_drop.trans (if_pos hlt)
        simp only [agentStep, hs, hafter, List.append_assoc, List.cons_append] at htr ⊢
        refine ⟨a :: tr, ?_, rfl⟩
        rw [hbefore, List.append_assoc, List.cons_append]
        exact .step htr

/-- All messages are read before any handler makes an insertion. -/
theorem run_receive (s : AgentState) :
    run agentStep s (List.replicate s.arriving.length .receive) =
      ⟨s.maps, [], s.handlers ++ s.arriving.map InstallMsg.insertions⟩ := by
  obtain ⟨m, msgs, hs⟩ := s
  induction msgs generalizing hs with
  | nil =>
    rw [List.map_nil, List.append_nil]
    rfl
  | cons msg msgs ih =>
    have hstep := ih (hs ++ [msg.insertions])
    rw [List.append_assoc, List.singleton_append] at hstep
    exact hstep

/-- The started handlers can make their insertions in the order of any interleaving. -/
theorem exists_run_handlers {ts : List (List Insertion)} {tr : List Insertion}
    (h : Interleaves ts tr) (m : NodeMaps) :
    ∃ es, (run agentStep ⟨m, [], ts⟩ es).Finished ∧
      (run agentStep ⟨m, [], ts⟩ es).maps = tr.foldl NodeMaps.insert m := by
  induction h generalizing m with
  | done h => exact ⟨[], ⟨rfl, h⟩, rfl⟩
  | @step ts₁ ts₂ a t tr _ ih =>
    obtain ⟨es, hfin, hmaps⟩ := ih (m.insert a)
    have hstep : agentStep ⟨m, [], ts₁ ++ (a :: t) :: ts₂⟩ (.insert ts₁.length) =
        ⟨m.insert a, [], ts₁ ++ t :: ts₂⟩ := by
      simp only [agentStep, List.getElem?_append_right (le_refl _), Nat.sub_self,
        List.getElem?_cons_zero, List.set_append_right _ _ (le_refl _), List.set_cons_zero]
    refine ⟨.insert ts₁.length :: es, ?_, ?_⟩
    · show (run agentStep (agentStep _ _) es).Finished
      rw [hstep]
      exact hfin
    · show (run agentStep (agentStep _ _) es).maps = _
      rw [hstep]
      exact hmaps

/-- Every interleaving of the insertions of the messages comes from a run that finishes. -/
theorem exists_run_of_interleaves {msgs : List InstallMsg} {tr : List Insertion}
    (h : Interleaves (msgs.map InstallMsg.insertions) tr) (m : NodeMaps) :
    ∃ es, (run agentStep (listening m msgs) es).Finished ∧
      (run agentStep (listening m msgs) es).maps = tr.foldl NodeMaps.insert m := by
  obtain ⟨es, hfin, hmaps⟩ := exists_run_handlers h m
  have hread : run agentStep (listening m msgs) (List.replicate msgs.length .receive) =
      ⟨m, [], msgs.map InstallMsg.insertions⟩ := run_receive (listening m msgs)
  refine ⟨List.replicate msgs.length .receive ++ es, ?_⟩
  rw [run_append, hread]
  exact ⟨hfin, hmaps⟩

/-! ## The two tables -/

/-- What an insertion writes to `fwd_table`. -/
def Insertion.fwdWrite : Insertion → Option (BitVec 32 × FwdEntry)
  | .fwd key val => some (htonl key, val)
  | .proxy _ _ _ => none

/-- What an insertion writes to `nsh_data`. -/
def Insertion.proxyWrite : Insertion → Option (Ip5tuple × Nsh)
  | .fwd _ _ => none
  | .proxy key sph junk => some (key.toNetwork, proxyNsh sph junk)

theorem foldl_insert_fwd_table (tr : List Insertion) (m : NodeMaps) :
    (tr.foldl NodeMaps.insert m).fwd_table =
      m.fwd_table.putAll (tr.filterMap Insertion.fwdWrite) := by
  refine BoundedMap.foldl_eq_putAll (fun m a => ?_) m tr
  cases a with
  | fwd key val => rfl
  | proxy key sph junk => rfl

theorem foldl_insert_nsh_data (tr : List Insertion) (m : NodeMaps) :
    (tr.foldl NodeMaps.insert m).nsh_data =
      m.nsh_data.putAll (tr.filterMap Insertion.proxyWrite) := by
  refine BoundedMap.foldl_eq_putAll (fun m a => ?_) m tr
  cases a with
  | fwd key val => rfl
  | proxy key sph junk => rfl

/-- The writes of a message to `fwd_table` are those of its insertions. -/
theorem filterMap_fwdWrite (msg : InstallMsg) :
    msg.insertions.filterMap Insertion.fwdWrite = msg.rules.fwdWrites := by
  rw [InstallMsg.insertions, List.filterMap_append, List.filterMap_map, List.filterMap_map,
    CBRulesConfig.fwdWrites, ← List.filterMap_eq_map]
  have hnone : (msg.rules.Proxy.zipIdx.filterMap (Insertion.fwdWrite ∘ fun rule =>
      .proxy rule.1.Key rule.1.Val (msg.junk rule.2))) = [] :=
    List.filterMap_eq_nil_iff.2 fun _ _ => rfl
  rw [hnone, List.append_nil]
  rfl

/-- The writes of a message to `nsh_data` are those of its insertions. -/
theorem filterMap_proxyWrite (msg : InstallMsg) :
    msg.insertions.filterMap Insertion.proxyWrite = msg.rules.proxyWrites msg.junk := by
  rw [InstallMsg.insertions, List.filterMap_append, List.filterMap_map, List.filterMap_map,
    CBRulesConfig.proxyWrites, ← List.filterMap_eq_map]
  have hnone : (msg.rules.Fwd.filterMap (Insertion.proxyWrite ∘ fun rule =>
      .fwd rule.Key rule.Val)) = [] :=
    List.filterMap_eq_nil_iff.2 fun _ _ => rfl
  rw [hnone, List.nil_append]
  rfl

/-- The messages in order are a run of writes to each table. -/
theorem handleInOrder_tables (m : NodeMaps) (msgs : List InstallMsg) :
    (handleInOrder m msgs).fwd_table =
        m.fwd_table.putAll (msgs.map fun msg => msg.rules.fwdWrites).flatten ∧
      (handleInOrder m msgs).nsh_data =
        m.nsh_data.putAll (msgs.map fun msg => msg.rules.proxyWrites msg.junk).flatten := by
  unfold handleInOrder
  induction msgs generalizing m with
  | nil => exact ⟨rfl, rfl⟩
  | cons msg msgs ih =>
    obtain ⟨hf, hp⟩ := ih (handleInstall msg.junk m msg.rules)
    rw [List.foldl_cons, List.map_cons, List.map_cons, List.flatten_cons, List.flatten_cons,
      BoundedMap.putAll_append, BoundedMap.putAll_append, ← handleInstall_fwdWrites msg.junk,
      ← handleInstall_proxyWrites]
    exact ⟨hf, hp⟩

/-- The traces of the messages' writes to each table. -/
theorem interleaves_tables {msgs : List InstallMsg} {tr : List Insertion}
    (h : Interleaves (msgs.map InstallMsg.insertions) tr) :
    Interleaves (msgs.map fun msg => msg.rules.fwdWrites) (tr.filterMap Insertion.fwdWrite) ∧
      Interleaves (msgs.map fun msg => msg.rules.proxyWrites msg.junk)
        (tr.filterMap Insertion.proxyWrite) := by
  have hf := h.filterMap Insertion.fwdWrite
  have hp := h.filterMap Insertion.proxyWrite
  rw [List.map_map] at hf hp
  have hfwd : List.filterMap Insertion.fwdWrite ∘ InstallMsg.insertions =
      fun msg => msg.rules.fwdWrites := funext filterMap_fwdWrite
  have hproxy : List.filterMap Insertion.proxyWrite ∘ InstallMsg.insertions =
      fun msg => msg.rules.proxyWrites msg.junk := funext filterMap_proxyWrite
  rw [hfwd] at hf
  rw [hproxy] at hp
  exact ⟨hf, hp⟩

/-! ## The law of the agent -/

/-- All the rules of several messages. -/
def allRules (msgs : List InstallMsg) : CBRulesConfig :=
  ⟨msgs.flatMap fun msg => msg.rules.Fwd, msgs.flatMap fun msg => msg.rules.Proxy⟩

/-- When the new keys of all messages fit, all their insertions succeed. -/
theorem allFit_of_fits {m : NodeMaps} {msgs : List InstallMsg} (h : Fits m (allRules msgs)) :
    m.fwd_table.AllFit (msgs.map fun msg => msg.rules.fwdWrites).flatten ∧
      m.nsh_data.AllFit (msgs.map fun msg => msg.rules.proxyWrites msg.junk).flatten := by
  obtain ⟨hf, hp⟩ := h
  rw [BoundedMap.allFit_iff, BoundedMap.allFit_iff, List.map_flatten, List.map_flatten,
    List.map_map, List.map_map]
  have hfkeys : (List.map Prod.fst ∘ fun msg : InstallMsg => msg.rules.fwdWrites) =
      fun msg => msg.rules.Fwd.map fun rule => htonl rule.Key :=
    funext fun msg => fwdWrites_keys msg.rules
  have hpkeys : (List.map Prod.fst ∘ fun msg : InstallMsg => msg.rules.proxyWrites msg.junk) =
      fun msg => msg.rules.Proxy.map fun rule => rule.Key.toNetwork :=
    funext fun msg => proxyWrites_keys msg.junk msg.rules
  rw [hfkeys, hpkeys]
  rw [allRules, List.map_flatMap] at hf hp
  exact ⟨hf, hp⟩

/-- The handler of any one message can be the last to run. -/
theorem AppliesInOrder.last {m : NodeMaps} {ms₁ ms₂ : List InstallMsg} {msg : InstallMsg}
    (h : AppliesInOrder m (ms₁ ++ msg :: ms₂)) :
    SameTables ((((ms₁ ++ ms₂).map InstallMsg.insertions).flatten ++ msg.insertions).foldl
      NodeMaps.insert m) (handleInOrder m (ms₁ ++ msg :: ms₂)) := by
  have htrace := Interleaves.last (ms₁.map InstallMsg.insertions)
    (ms₂.map InstallMsg.insertions) msg.insertions
  rw [← List.map_cons, ← List.map_append, ← List.map_append] at htrace
  obtain ⟨es, hfin, hmaps⟩ := exists_run_of_interleaves htrace m
  rw [← hmaps]
  exact h es hfin

/-- An element of an image is that of an element. -/
theorem exists_of_map_eq_append_cons {α β : Type} {f : α → β} {l : List α} {ts₁ ts₂ : List β} {t : β}
    (h : l.map f = ts₁ ++ t :: ts₂) :
    ∃ l₁ a l₂, l = l₁ ++ a :: l₂ ∧ l₁.map f = ts₁ ∧ f a = t ∧ l₂.map f = ts₂ := by
  obtain ⟨l₁, l', rfl, h₁, h'⟩ := List.map_eq_append_iff.1 h
  obtain ⟨a, l₂, rfl, ha, h₂⟩ := List.map_eq_cons_iff.1 h'
  exact ⟨l₁, a, l₂, rfl, h₁, ha, h₂⟩

/-- If the messages take effect in order, then all that mention a key store the same value last. -/
theorem AppliesInOrder.sameLast {m : NodeMaps} {msgs : List InstallMsg}
    (h : AppliesInOrder m msgs) (hfit : Fits m (allRules msgs)) :
    BoundedMap.SameLast (msgs.map fun msg => msg.rules.fwdWrites) ∧
      BoundedMap.SameLast (msgs.map fun msg => msg.rules.proxyWrites msg.junk) := by
  obtain ⟨hfwdfit, hproxyfit⟩ := allFit_of_fits hfit
  obtain ⟨hfwd, hproxy⟩ := handleInOrder_tables m msgs
  constructor
  · refine BoundedMap.sameLast_of_lookup_eq hfwdfit fun ts₁ t ts₂ hts k => ?_
    obtain ⟨ms₁, msg, ms₂, rfl, rfl, rfl, rfl⟩ := exists_of_map_eq_append_cons hts
    have hk := h.last.1 k
    rw [foldl_insert_fwd_table, hfwd, List.filterMap_append, filterMap_fwdWrite,
      List.filterMap_flatten, List.map_map] at hk
    rw [← List.map_append, ← hk]
    simp only [Function.comp_def, filterMap_fwdWrite]
  · refine BoundedMap.sameLast_of_lookup_eq hproxyfit fun ts₁ t ts₂ hts k => ?_
    obtain ⟨ms₁, msg, ms₂, rfl, rfl, rfl, rfl⟩ := exists_of_map_eq_append_cons hts
    have hk := h.last.2 k
    rw [foldl_insert_nsh_data, hproxy, List.filterMap_append, filterMap_proxyWrite,
      List.filterMap_flatten, List.map_map] at hk
    rw [← List.map_append, ← hk]
    simp only [Function.comp_def, filterMap_proxyWrite]

/-- If they do, then no interleaving of the handlers makes a difference. -/
theorem appliesInOrder_of_sameLast {m : NodeMaps} {msgs : List InstallMsg}
    (hfit : Fits m (allRules msgs))
    (hfwdlast : BoundedMap.SameLast (msgs.map fun msg => msg.rules.fwdWrites))
    (hproxylast : BoundedMap.SameLast (msgs.map fun msg => msg.rules.proxyWrites msg.junk)) :
    AppliesInOrder m msgs := by
  obtain ⟨hfwdfit, hproxyfit⟩ := allFit_of_fits hfit
  obtain ⟨hfwd, hproxy⟩ := handleInOrder_tables m msgs
  intro es hfin
  obtain ⟨tr, htr, hmaps⟩ := interleaves_of_finished es (listening m msgs) hfin
  obtain ⟨htrf, htrp⟩ := interleaves_tables htr
  rw [hmaps]
  refine ⟨fun k => ?_, fun k => ?_⟩
  · rw [foldl_insert_fwd_table, hfwd]
    exact BoundedMap.lookup_eq_of_sameLast hfwdfit hfwdlast htrf k
  · rw [foldl_insert_nsh_data, hproxy]
    exact BoundedMap.lookup_eq_of_sameLast hproxyfit hproxylast htrp k

/-- While the tables have room for all keys, the messages always take effect in the order in which
they arrive if and only if, for each key, all messages that mention it store the same value under it
last. -/
theorem listen_in_order_iff (m : NodeMaps) (msgs : List InstallMsg)
    (hfit : Fits m (allRules msgs)) :
    AppliesInOrder m msgs ↔
      BoundedMap.SameLast (msgs.map fun msg => msg.rules.fwdWrites) ∧
      BoundedMap.SameLast (msgs.map fun msg => msg.rules.proxyWrites msg.junk) :=
  ⟨fun h => h.sameLast hfit, fun h => appliesInOrder_of_sameLast hfit h.1 h.2⟩

/-- A message that sends position 0 of chain 1 to `nodeMac'`. -/
def forwardMsg : InstallMsg := ⟨⟨[⟨0x1FE, ⟨0, nodeMac'⟩⟩], []⟩, fun _ => noContext⟩

/-- A message that makes position 0 of chain 1 the end of the chain. -/
def endMsg : InstallMsg := ⟨⟨[⟨0x1FE, ⟨1, zeroMac⟩⟩], []⟩, fun _ => noContext⟩

/-- A message that first makes position 0 of chain 1 an end and then sends it to `nodeMac'`, with
proxy rules for a flow of ICMP and for its replies. -/
def detourMsg : InstallMsg :=
  ⟨⟨[⟨0x1FE, ⟨1, zeroMac⟩⟩, ⟨0x2FE, ⟨1, zeroMac⟩⟩, ⟨0x1FE, ⟨0, nodeMac'⟩⟩],
    [⟨⟨0x0A000001, 0x0A000002, 0, 0, IPPROTO_ICMP⟩, 0x1FF⟩,
      ⟨⟨0x0A000002, 0x0A000001, 0, 0, IPPROTO_ICMP⟩, 0x2FF⟩]⟩, fun _ => noContext⟩

/-- A message with a rule and a proxy rule of the other two. -/
def replyMsg : InstallMsg :=
  ⟨⟨[⟨0x2FE, ⟨1, zeroMac⟩⟩], [⟨⟨0x0A000002, 0x0A000001, 0, 0, IPPROTO_ICMP⟩, 0x2FF⟩]⟩,
    fun _ => noContext⟩

/-- Three messages that share keys in both tables and leave the same values under them. -/
theorem listen_in_order_shared : AppliesInOrder emptyNode [forwardMsg, detourMsg, replyMsg] :=
  (listen_in_order_iff emptyNode [forwardMsg, detourMsg, replyMsg] ⟨by decide, by decide⟩).2
    ⟨by decide, by decide⟩

/-- Two messages for one key. The handler of the second one runs first, so the first one wins. -/
theorem not_appliesInOrder_overtaken : ¬ AppliesInOrder emptyNode [forwardMsg, endMsg] := by
  intro h
  have hfin : (run agentStep (listening emptyNode [forwardMsg, endMsg])
      [.receive, .receive, .insert 1, .insert 0]).Finished := ⟨rfl, by decide⟩
  have hentry := (h _ hfin).1 (htonl 0x1FE)
  exact absurd hentry (by decide)

end ChainingBox
