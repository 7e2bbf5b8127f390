import ChainingBox.Network.Service

/-!
# Service functions at work

`next` takes the service functions to return every packet as it is. Here they may change it, or keep
it: `Services` says what the function of each node returns of a frame. What a function returns goes on
as before, with the NSH that is saved for its flow. So as long as the functions keep the flow, the
chain is their composition in order, and packets of different flows do not disturb one another
(`all_served`).
-/

namespace ChainingBox

open Lib

/-- What the service functions of the nodes return of a frame, if anything. -/
abbrev Services := String → Bytes → Option Bytes

/-- A packet when the service function that it was handed to is done with it. -/
def Place.served (serve : Services) : Place → Place
  | .handed tag frame =>
    match serve tag frame with
    | none => .lost
    | some out => .handed tag out
  | place => place

/-- The function makes no packet that may take the NSH of another flow, and keeps plain packets
plain. -/
structure KeepsFlow (f : Bytes → Option Bytes) : Prop where
  key : ∀ frame out, f frame = some out → ∀ key, ipKey out = some key → ipKey frame = some key
  plain : ∀ frame out, f frame = some out → PlainPacket frame → PlainPacket out

/-- A plain packet is known by its flow. -/
theorem ipKey_of_plainPacket {frame : Bytes} (h : PlainPacket frame) :
    ipKey frame = some (flowOf frame).toNetwork :=
  (if_pos h.ethertype).trans (getTuple_of_plainPacket h)

variable {serve : Services}

/-- What the function returns of a plain packet has the flow that the packet had. -/
theorem KeepsFlow.flow {f : Bytes → Option Bytes} (hkeep : KeepsFlow f) {frame out : Bytes}
    (h : f frame = some out) (hplain : PlainPacket frame) : flowOf out = flowOf frame := by
  have hout := ipKey_of_plainPacket (hkeep.plain frame out h hplain)
  have hkey := hkeep.key frame out h _ hout
  rw [ipKey_of_plainPacket hplain] at hkey
  exact Ip5tuple.toNetwork_injective (Option.some.inj hkey).symm

theorem key_served (hkeep : ∀ tag, KeepsFlow (serve tag)) {place : Place} {key : Ip5tuple}
    (h : (place.served serve).key = some key) : place.key = some key := by
  cases place with
  | handed tag frame =>
    unfold Place.served at h
    dsimp only at h
    cases hout : serve tag frame with
    | none =>
      rw [hout] at h
      exact absurd h (by simp [Place.key])
    | some out =>
      rw [hout] at h
      exact (hkeep tag).key frame out hout key h
  | wire frame => exact h
  | left tag frame => exact h
  | lost => exact h

namespace Deployment

variable (d : Deployment)

/-- One step of a packet: the function that it was handed to, and `next`. -/
def nextBy (serve : Services) (s : Flight) : Flight := d.next ⟨s.net, s.place.served serve⟩

/-- What the packet is handed to in its first `n` places. -/
def handOutsBy (serve : Services) (n : ℕ) (s : Flight) : List (String × Bytes) :=
  collect (d.nextBy serve) (fun s => s.place.handOut) n s

/-- The maps after packets that came one after the other. -/
def afterBy (serve : Services) (net : Net) (earlier : List (Bytes × ℕ)) : Net :=
  run (fun net e => ((d.nextBy serve)^[e.2] ⟨net, .wire e.1⟩).net) net earlier

/-- One step of one of several packets. -/
def hopBy (serve : Services) (net : Net) (place : Place) : Net × Place :=
  d.hop net (place.served serve)

/-- The packets after a schedule of steps. -/
def swarmBy (serve : Services) (net : Net) (places : List Place) (sched : List ℕ) :
    World Net Place := run (World.next (d.hopBy serve)) ⟨net, places⟩ sched

/-- What a packet is handed to under a schedule. -/
def handOutsOfBy (serve : Services) (i : ℕ) (net : Net) (places : List Place) (sched : List ℕ) :
    List (String × Bytes) := World.shown (d.hopBy serve) Place.handOut i ⟨net, places⟩ sched

/-- How a packet ends behind the last node, by what the function there returns. -/
def ending (last : String) : Option Bytes → Place
  | none => .lost
  | some out => .left last (store out 6 (d.egressMac last).1)

/-- The packet goes through the functions of these nodes, one after another, and leaves behind the last
node, unless one of them keeps it. -/
def Serves (serve : Services) (nodes : List String) (inner : Bytes) (s : Flight) : Prop :=
  ∃ n last, nodes.getLast? = some last ∧
    ((d.nextBy serve)^[n] s).place = d.ending last (through serve nodes inner).2 ∧
    ∀ k, d.handOutsBy serve (n + k) s = (through serve nodes inner).1

variable {d}

/-- A function that keeps the packet ends its journey. -/
theorem nextBy_none {tag : String} {inner : Bytes} {s : Flight} (hplace : s.place = .handed tag inner)
    (h : serve tag inner = none) : d.nextBy serve s = ⟨s.net, .lost⟩ := by
  simp only [nextBy, hplace, Place.served, h, next]

/-- Otherwise what it returns makes the step. -/
theorem nextBy_some {tag : String} {inner out : Bytes} {s : Flight}
    (hplace : s.place = .handed tag inner) (h : serve tag inner = some out) :
    d.nextBy serve s = d.next ⟨s.net, .handed tag out⟩ := by
  simp only [nextBy, hplace, Place.served, h]

theorem nextBy_wire {net : Net} {frame : Bytes} :
    d.nextBy serve ⟨net, .wire frame⟩ = d.next ⟨net, .wire frame⟩ := rfl

/-- A journey that is over shows nothing more. -/
theorem nextBy_of_over {s : Flight} (h : s.place.Over) :
    d.nextBy serve s = s ∧ s.place.handOut = [] := by
  obtain ⟨net, place⟩ := s
  cases place with
  | left tag frame => exact ⟨rfl, rfl⟩
  | lost => exact ⟨rfl, rfl⟩
  | wire frame => exact h.elim
  | handed tag frame => exact h.elim

theorem handOutsBy_of_over {s : Flight} (h : s.place.Over) (n : ℕ) : d.handOutsBy serve n s = [] := by
  obtain ⟨hnext, hout⟩ := @nextBy_of_over serve d s h
  induction n with
  | zero => rfl
  | succ n ih =>
    rw [handOutsBy, collect, hout, hnext, List.nil_append]
    exact ih

theorem over_ending (last : String) (result : Option Bytes) : (d.ending last result).Over := by
  cases result <;> trivial

/-! ## One function after another -/

/-- A function that keeps the packet ends the composition. -/
theorem serves_of_kept {node : String} {nodes : List String} {inner : Bytes} {s : Flight}
    (hplace : s.place = .handed node inner) (h : serve node inner = none) :
    d.Serves serve (node :: nodes) inner s := by
  have hnext := @nextBy_none serve d node inner s hplace h
  obtain ⟨last, hlast⟩ : ∃ last, (node :: nodes).getLast? = some last :=
    Option.isSome_iff_exists.1 (List.getLast?_isSome.2 (List.cons_ne_nil _ _))
  refine ⟨1, last, hlast, ?_, fun k => ?_⟩
  · rw [Function.iterate_one, hnext, through_cons_none h]
    rfl
  · rw [Nat.add_comm, handOutsBy, collect, hplace, hnext, through_cons_none h]
    exact congrArg _ (@handOutsBy_of_over serve d ⟨s.net, .lost⟩ trivial k)

/-- Another one hands what it returns to the functions of the rest. -/
theorem serves_of_next {node : String} {nodes : List String} {inner out : Bytes} {s : Flight}
    (hplace : s.place = .handed node inner) (hserve : serve node inner = some out)
    (h : d.Serves serve nodes out (d.nextBy serve s)) : d.Serves serve (node :: nodes) inner s := by
  obtain ⟨n, last, hlast, hend, hout⟩ := h
  refine ⟨n + 1, last, ?_, ?_, fun k => ?_⟩
  · rw [List.getLast?_cons, hlast]
    rfl
  · rw [Function.iterate_succ_apply, hend, through_cons_some hserve]
  · rw [Nat.succ_add, handOutsBy, collect, hplace, through_cons_some hserve]
    exact congrArg _ (hout k)

/-- On the network no function is handed anything. -/
theorem serves_of_next_wire {nodes : List String} {inner frame : Bytes} {net : Net}
    (h : d.Serves serve nodes inner (d.nextBy serve ⟨net, .wire frame⟩)) :
    d.Serves serve nodes inner ⟨net, .wire frame⟩ := by
  obtain ⟨n, last, hlast, hend, hout⟩ := h
  refine ⟨n + 1, last, hlast, hend, fun k => ?_⟩
  rw [Nat.succ_add, handOutsBy, collect]
  exact hout k

/-- The last function, behind which the packet leaves. -/
theorem serves_of_left {node : String} {inner out : Bytes} {s : Flight}
    (hplace : s.place = .handed node inner) (hserve : serve node inner = some out)
    (h : (d.nextBy serve s).place = .left node (store out 6 (d.egressMac node).1)) :
    d.Serves serve [node] inner s := by
  refine ⟨1, node, rfl, ?_, fun k => ?_⟩
  · rw [Function.iterate_one, h, through_cons_some hserve]
    rfl
  · have hover : (d.nextBy serve s).place.Over := by
      rw [h]
      trivial
    rw [Nat.add_comm, handOutsBy, collect, hplace, through_cons_some hserve]
    exact congrArg _ (handOutsBy_of_over hover k)

variable {parseIP : ParseIP} {order : List String → List String} {cbm : CBManager}

/-- What matters of a packet at a position is its flow. -/
theorem Carried.served {start : Net} {inner out : Bytes} {p : Pos d.cfg} {s : Flight}
    (hs : d.Carried start inner p s) (hplain : PlainPacket inner) (hplain' : PlainPacket out)
    (hflow : flowOf out = flowOf inner) :
    d.Carried start out p ⟨s.net, .handed p.node out⟩ := by
  obtain ⟨⟨-, hkeeps, hsaved⟩, hheld, hroom⟩ := hs
  have htuple : getTuple (out.drop 14) = getTuple (inner.drop 14) := by
    rw [getTuple_of_plainPacket hplain', hflow, getTuple_of_plainPacket hplain]
  rw [← htuple] at hsaved
  rw [← hflow] at hheld hroom
  exact ⟨⟨rfl, hkeeps, hsaved⟩, hheld, hroom⟩

/-- A packet that comes with the header that its node has saved for its flow is at the position that
the header belongs to. -/
theorem carried_of_saved (hcfg : Chainable d.cfg) {start net : Net} (hkeeps : d.Keeps start net)
    {q : Pos d.cfg} {out : Bytes} (hplain : PlainPacket out) {nsh : Nsh}
    (hsaved : (net q.node).nsh_data.lookup (flowOf out).toNetwork = some nsh)
    (hpath : nsh.path = sphAt q.chain q.i + 1) (hproto : load8 nsh.1 3 = NSH_NEXT_PROTO_ETHER)
    (hroom : ∀ n ∈ q.chain.Nodes, d.topo.omitIngress n = false →
      (net n).nsh_data.Room (flowOf out).toNetwork) :
    d.Carried start out q ⟨net, .handed q.node out⟩ := by
  refine ⟨⟨rfl, hkeeps, fun _ key nsh' htuple hsaved' => ?_⟩, fun _ => ⟨nsh, hsaved, ?_⟩, hroom⟩
  · obtain rfl := Option.some.inj ((getTuple_of_plainPacket hplain).symm.trans htuple)
    obtain rfl := Option.some.inj (hsaved.symm.trans hsaved')
    exact ⟨Or.inl hpath, hproto⟩
  · rw [hpath]
    exact hcfg.siOf_entry_ne_zero q

/-- A step of a packet of one flow leaves what is saved for another one, and room for both. -/
theorem next_apart {s : Flight} {key key' : Ip5tuple} (hne : key ≠ key')
    (hkey : s.place.key = some key) (hspare : d.Spare s.net [key, key']) :
    d.Spare (d.next s).net [key, key'] ∧ ∀ tag,
      ((d.next s).net tag).nsh_data.lookup key' = (s.net tag).nsh_data.lookup key' := by
  let keys : ℕ → Option Ip5tuple := fun i => [key, key'][i]?
  have hmem (i : ℕ) (k : Ip5tuple) (hi : keys i = some k) : k ∈ [key, key'] :=
    List.mem_of_getElem? hi
  have hdistinct (i j : ℕ) (k : Ip5tuple) (hij : i ≠ j) (hj : keys j = some k) : keys i ≠ some k := by
    have hnodup : [key, key'].Nodup := by simp [hne]
    intro hi
    obtain ⟨hlt, -⟩ := List.getElem?_eq_some_iff.1 hi
    exact hij ((List.getElem?_inj hlt hnodup).1 (hi.trans hj.symm))
  have hiso := d.isolated_hop keys [key, key'] hmem hdistinct
  have howned (k : Ip5tuple) (hk : s.place.key = some k) : keys 0 = some k := hkey.symm.trans hk
  refine ⟨hiso.keeps 0 s.net s.place howned hspare, fun tag => ?_⟩
  have hpart := hiso.apart 1 0 s.net s.place howned hspare (by omega)
  exact congrArg (fun part => (part tag).2.2) hpart

section journey

variable {I : Net → Prop} {f : Ip5tuple}

/-- What the function at a position returns goes on to the next position or, behind the last one, out
of the chain. The steps of the flow's packets keep a property `I` of the maps. -/
theorem goes_of_carried (hv : d.Valid parseIP order cbm) (hcfg : Chainable d.cfg)
    (hI : ∀ s : Flight, s.place.key = some f.toNetwork → I s.net → I (d.next s).net)
    {p : Pos d.cfg} {out : Bytes} (hplain : PlainPacket out) (hf : flowOf out = f)
    (hgrants : d.kernel.grantsRoom out) (hfit : RulesFit parseIP cbm d.cfg p.chain)
    (hflow : ∃ flow ∈ p.chain.Flows, flow.parse parseIP = some f) {rest : List String}
    (hrest : ∀ (h : p.i.1 + 1 < p.chain.Nodes.length) (s : Flight),
      d.Carried (d.start parseIP order cbm) out (p.next h) s → I s.net → d.Serves serve rest out s)
    {s : Flight} (hs : d.Carried (d.start parseIP order cbm) out p s) (hnet : I s.net) :
    p.following = none ∧
        (d.next s).place = .left p.node (store out 6 (d.egressMac p.node).1) ∨
      d.Serves serve rest out (d.next s) := by
  have hkey : ipKey out = some f.toNetwork := by rw [ipKey_of_plainPacket hplain, hf]
  have hnet' : I (d.next s).net := by
    refine hI s ?_ hnet
    rw [hs.at_pos.place]
    exact hkey
  rw [← hf] at hflow
  by_cases hp : p.Linked
  · obtain ⟨h, -⟩ := Pos.linked_iff'.1 hp
    exact Or.inr (hrest h _ (carried_next hv hcfg hfit hflow hs hp h) hnet')
  rcases next_of_carried hv hcfg hplain hgrants hfit hs hp with hleft |
    ⟨h, src, nsh, hpath, hproto, hstage, heq⟩
  · exact Or.inl hleft
  · apply Or.inr
    rw [heq] at hnet' ⊢
    apply serves_of_next_wire
    rw [nextBy_wire]
    refine hrest h _ (carried_arrive hv hcfg hplain hs.at_pos.keeps hstage hs.room hpath hproto)
      (hI _ ?_ hnet')
    exact (wireKey_nshFrame ..).trans ((getTuple_of_plainPacket hplain).trans (by rw [hf]))

/-- At a position with a function that keeps the flow. -/
theorem serves_at (hv : d.Valid parseIP order cbm) (hcfg : Chainable d.cfg)
    (hI : ∀ s : Flight, s.place.key = some f.toNetwork → I s.net → I (d.next s).net)
    {p : Pos d.cfg} (hkeep : KeepsFlow (serve p.node))
    (hgrants : ∀ out, flowOf out = f → d.kernel.grantsRoom out)
    (hfit : RulesFit parseIP cbm d.cfg p.chain)
    (hflow : ∃ flow ∈ p.chain.Flows, flow.parse parseIP = some f) {rest : List String}
    (hlast : p.following = none → rest = [])
    (hrest : ∀ (h : p.i.1 + 1 < p.chain.Nodes.length) (out : Bytes) (s : Flight), PlainPacket out →
      flowOf out = f → d.Carried (d.start parseIP order cbm) out (p.next h) s → I s.net →
        d.Serves serve rest out s) {inner : Bytes} (hplain : PlainPacket inner)
    (hf : flowOf inner = f) {s : Flight} (hs : d.Carried (d.start parseIP order cbm) inner p s)
    (hnet : I s.net) : d.Serves serve (p.node :: rest) inner s := by
  cases hserve : serve p.node inner with
  | none => exact serves_of_kept hs.at_pos.place hserve
  | some out =>
    have hplain' := hkeep.plain _ _ hserve hplain
    have hout : flowOf out = flowOf inner := hkeep.flow hserve hplain
    have hf' : flowOf out = f := hout.trans hf
    have hnext := @nextBy_some serve d p.node inner out s hs.at_pos.place hserve
    rcases goes_of_carried hv hcfg hI hplain' hf' (hgrants out hf') hfit hflow
      (fun h s' => hrest h out s' hplain' hf') (hs.served hplain hplain' hout) hnet with ⟨hnone, hleft⟩ | hgoes
    · rw [hlast hnone]
      exact serves_of_left hs.at_pos.place hserve (by rw [hnext, hleft])
    · exact serves_of_next hs.at_pos.place hserve (by rwa [hnext])

/-- From a position to a later one of the chain, and on from there. -/
theorem serves_upto (hv : d.Valid parseIP order cbm) (hcfg : Chainable d.cfg)
    (hI : ∀ s : Flight, s.place.key = some f.toNetwork → I s.net → I (d.next s).net)
    (hgrants : ∀ out, flowOf out = f → d.kernel.grantsRoom out) {q : Pos d.cfg}
    (hfit : RulesFit parseIP cbm d.cfg q.chain)
    (hflow : ∃ flow ∈ q.chain.Flows, flow.parse parseIP = some f)
    {nodes : List String}
    (hend : ∀ (out : Bytes) (s : Flight), PlainPacket out → flowOf out = f →
      d.Carried (d.start parseIP order cbm) out q s → I s.net → d.Serves serve nodes out s)
    {k : ℕ} {p : Pos d.cfg} (hc : p.c = q.c) (hk : p.i.1 + k = q.i.1)
    (hkeep : ∀ tag ∈ (q.chain.Nodes.take q.i).drop p.i, KeepsFlow (serve tag)) {inner : Bytes}
    (hplain : PlainPacket inner) (hf : flowOf inner = f) {s : Flight}
    (hs : d.Carried (d.start parseIP order cbm) inner p s) (hnet : I s.net) :
    d.Serves serve ((q.chain.Nodes.take q.i).drop p.i ++ nodes) inner s := by
  -- The induction is on the number of positions in between.
  induction k generalizing p s inner with
  | zero =>
    obtain rfl : p = q := Pos.ext_iff'.2 ⟨congrArg Fin.val hc, hk⟩
    have hnil : (p.chain.Nodes.take p.i).drop p.i = [] :=
      List.drop_eq_nil_of_le (List.length_take_le _ _)
    rw [hnil]
    exact hend inner s hplain hf hs hnet
  | succ k ih =>
    have hchain : p.chain = q.chain := by
      unfold Pos.chain
      rw [hc]
    have hlt : q.i.1 < q.chain.Nodes.length := q.i.2
    have hnext : p.i.1 + 1 < p.chain.Nodes.length := by
      rw [hchain]
      omega
    have hlen : p.i.1 < (q.chain.Nodes.take q.i).length := by
      rw [List.length_take]
      omega
    have hget : (q.chain.Nodes.take q.i)[p.i.1] = p.node := by
      rw [List.getElem_take]
      exact List.getElem_of_eq (congrArg CBChain.Nodes hchain.symm) _
    rw [List.drop_eq_getElem_cons hlen, hget] at hkeep ⊢
    rw [List.cons_append]
    refine serves_at hv hcfg hI (hkeep _ List.mem_cons_self) hgrants (hchain ▸ hfit)
      (hchain ▸ hflow) (fun hnone => ?_) (fun h out s' hplain' hf' hs' hnet' => ?_) hplain hf hs hnet
    · rw [p.following_eq hnext] at hnone
      exact absurd hnone (by simp)
    · exact @ih (p.next h) hc (by rw [Pos.i_next]; omega)
        (fun tag htag => hkeep tag (List.mem_cons_of_mem _ htag)) out hplain' hf' s' hs' hnet'

/-- From a position, the packet goes through the functions of the rest of the chain. -/
theorem serves_of_carried (hv : d.Valid parseIP order cbm) (hcfg : Chainable d.cfg)
    (hgrants : ∀ out, flowOf out = f → d.kernel.grantsRoom out) {p : Pos d.cfg}
    (hfit : RulesFit parseIP cbm d.cfg p.chain)
    (hflow : ∃ flow ∈ p.chain.Flows, flow.parse parseIP = some f)
    (hkeep : ∀ tag ∈ p.chain.Nodes.drop p.i, KeepsFlow (serve tag)) {inner : Bytes}
    (hplain : PlainPacket inner) (hinner : flowOf inner = f) {s : Flight}
    (hs : d.Carried (d.start parseIP order cbm) inner p s) :
    d.Serves serve (p.chain.Nodes.drop p.i) inner s := by
  have hpos : p.i.1 < p.chain.Nodes.length := p.i.2
  have hlen : p.chain.Nodes.length - 1 < p.chain.Nodes.length := by omega
  let q : Pos d.cfg := ⟨p.c, ⟨p.chain.Nodes.length - 1, hlen⟩⟩
  have hall : p.chain.Nodes.drop p.i = (p.chain.Nodes.take q.i).drop p.i ++ [q.node] := by
    have htake : p.chain.Nodes.take q.i ++ [q.node] = p.chain.Nodes := by
      have hsucc : p.chain.Nodes.length - 1 + 1 = p.chain.Nodes.length := by omega
      have hlast := List.take_append_getElem hlen
      rw [hsucc, List.take_length] at hlast
      exact hlast
    conv_lhs => rw [← htake]
    refine List.drop_append_of_le_length ?_
    rw [List.length_take]
    show p.i.1 ≤ min (p.chain.Nodes.length - 1) p.chain.Nodes.length
    omega
  rw [hall] at hkeep ⊢
  have hI (s : Flight) (_ : s.place.key = some f.toNetwork) (_ : True) : True := trivial
  refine @serves_upto serve d parseIP order cbm (fun _ => True) f hv hcfg hI hgrants q hfit hflow
    [q.node] (fun out s' hplain' hf' hs' _ => ?_) (p.chain.Nodes.length - 1 - p.i) p rfl ?_
    (fun tag htag => hkeep tag (List.mem_append_left _ htag)) inner hplain hinner s hs trivial
  · refine @serves_at serve d parseIP order cbm (fun _ => True) f hv hcfg hI q
      (hkeep _ (List.mem_append_right _ (List.mem_singleton_self _))) hgrants hfit hflow []
      (fun _ => rfl) (fun h => ?_) out hplain' hf' s' hs' trivial
    have hbound : p.chain.Nodes.length - 1 + 1 < p.chain.Nodes.length := h
    omega
  · show p.i.1 + (p.chain.Nodes.length - 1 - p.i.1) = p.chain.Nodes.length - 1
    omega

end journey

/-- Packets that came before have kept the maps, whatever the functions made of them. -/
theorem keeps_afterBy (net₀ : Net) (earlier : List (Bytes × ℕ)) :
    d.Keeps net₀ (d.afterBy serve net₀ earlier) := by
  have hstep (s : Flight) (hs : d.Keeps net₀ s.net) : d.Keeps net₀ (d.nextBy serve s).net :=
    @keeps_next d net₀ ⟨s.net, s.place.served serve⟩ hs
  exact run_invariant (fun net e hI => @iterate_invariant _ (d.nextBy serve)
    (fun s => d.Keeps net₀ s.net) hstep ⟨net, .wire e.1⟩ hI e.2) (keeps_refl net₀) earlier

end Deployment

/-! ## Several packets -/

/-- Alone it goes through the functions of its chain. -/
theorem Entrant.Enters.serves {e : Entrant} {d : Deployment} {parseIP : ParseIP} {cbm : CBManager}
    {order : List String → List String} (h : e.Enters d parseIP cbm)
    (hv : d.Valid parseIP order cbm) (hcfg : Chainable d.cfg) (hkeep : ∀ tag, KeepsFlow (serve tag))
    (hgrants : ∀ out, flowOf out = flowOf e.inner → d.kernel.grantsRoom out) {net : Net}
    (hkeeps : d.Keeps (d.start parseIP order cbm) net)
    (hroom : ∀ tag, d.topo.omitIngress tag = false → (net tag).nsh_data.Room e.key) :
    d.Serves serve e.chain.Nodes e.inner ⟨net, e.place d⟩ := by
  obtain ⟨p, hchain, hzero, harrive⟩ := h.arrives hv hcfg hkeeps hroom
  have hserves := Deployment.serves_of_carried hv hcfg hgrants (hchain ▸ h.fits) (hchain ▸ h.flow)
    (fun tag _ => hkeep tag) h.plain rfl harrive
  rw [hzero, List.drop_zero, hchain] at hserves
  exact Deployment.serves_of_next_wire hserves

/-- Packets of different flows that enter their chains at once go through their functions under every
schedule. -/
theorem Entrant.swarm_serves {d : Deployment} {parseIP : ParseIP} {order : List String → List String}
    {cbm : CBManager} (hv : d.Valid parseIP order cbm) (hcfg : Chainable d.cfg)
    (hkeep : ∀ tag, KeepsFlow (serve tag)) {net : Net} (hkeeps : d.Keeps (d.start parseIP order cbm) net)
    {entrants : List Entrant} (henters : ∀ e ∈ entrants, e.Enters d parseIP cbm)
    (hgrants : ∀ e ∈ entrants, ∀ out, flowOf out = flowOf e.inner → d.kernel.grantsRoom out)
    (hflows : (entrants.map fun e => flowOf e.inner).Nodup)
    (hspare : d.Spare net (entrants.map Entrant.key)) {i : ℕ} {e : Entrant}
    (hi : entrants[i]? = some e) :
    ∃ n last, e.chain.Nodes.getLast? = some last ∧ ∀ sched : List ℕ, n ≤ sched.count i →
      (d.swarmBy serve net (entrants.map (·.place d)) sched).threads[i]? =
        some (d.ending last (through serve e.chain.Nodes e.inner).2) ∧
      d.handOutsOfBy serve i net (entrants.map (·.place d)) sched =
        (through serve e.chain.Nodes e.inner).1 := by
  have hmem := List.mem_of_getElem? hi
  have hroom (tag : String) (homit : d.topo.omitIngress tag = false) :
      (net tag).nsh_data.Room e.key :=
    (hspare tag homit).room (List.mem_map.2 ⟨e, hmem, rfl⟩)
  have hplace : (entrants.map (·.place d))[i]? = some (e.place d) := by
    rw [List.getElem?_map, hi]
    rfl
  obtain ⟨n, last, hlast, hend, hout⟩ := (henters e hmem).serves hv hcfg hkeep (hgrants e hmem) hkeeps
    hroom
  rw [← Entrant.filterMap_key henters] at hspare
  refine ⟨n, last, hlast, fun sched hn => ?_⟩
  obtain ⟨hthread, hshown, -⟩ := @Deployment.alone_of_distinct d _ _ (Place.served serve)
    (d.nextBy serve) (fun _ => rfl) (fun _ _ => key_served hkeep) (Entrant.distinct henters hflows)
    hspare sched i _ hplace
  obtain ⟨k, hk⟩ := Nat.exists_eq_add_of_le hn
  have hover : ((d.nextBy serve)^[n] ⟨net, e.place d⟩).place.Over := by
    rw [hend]
    exact Deployment.over_ending _ _
  rw [hk, Nat.add_comm, Function.iterate_add_apply,
    Function.iterate_fixed (Deployment.nextBy_of_over hover).1 k, hend] at hthread
  rw [hk] at hshown
  exact ⟨hthread, hshown.trans (hout k)⟩

/-- Packets of different flows that enter their chains at once, whatever packets came before, with
functions that keep flows: under every schedule, each goes through the composition of its chain's
functions, which are handed what the ones before have made of it, and when it has made the steps that
it needs, it has left behind the last node as what they return, or a function has kept it. -/
theorem all_served (d : Deployment) (parseIP : ParseIP) (order : List String → List String)
    (cbm : CBManager) (hv : d.Valid parseIP order cbm) (hcfg : Chainable d.cfg) (serve : Services)
    (hkeep : ∀ tag, KeepsFlow (serve tag)) (earlier : List (Bytes × ℕ)) (entrants : List Entrant)
    (henters : ∀ e ∈ entrants, e.Enters d parseIP cbm)
    (hgrants : ∀ e ∈ entrants, ∀ out, flowOf out = flowOf e.inner → d.kernel.grantsRoom out)
    (hflows : (entrants.map fun e => flowOf e.inner).Nodup)
    (hspare : d.Spare (d.afterBy serve (d.start parseIP order cbm) earlier)
      (entrants.map Entrant.key)) (i : ℕ) (e : Entrant) (hi : entrants[i]? = some e) :
    ∃ n last, e.chain.Nodes.getLast? = some last ∧ ∀ sched : List ℕ, n ≤ sched.count i →
      (d.swarmBy serve (d.afterBy serve (d.start parseIP order cbm) earlier)
          (entrants.map (·.place d)) sched).threads[i]? =
        some (d.ending last (e.chain.Nodes.foldlM (fun frame tag => serve tag frame) e.inner)) ∧
      d.handOutsOfBy serve i (d.afterBy serve (d.start parseIP order cbm) earlier)
          (entrants.map (·.place d)) sched = (through serve e.chain.Nodes e.inner).1 := by
  rw [← through_snd]
  exact Entrant.swarm_serves hv hcfg hkeep (Deployment.keeps_afterBy _ earlier) henters hgrants hflows
    hspare hi

/-- A function that keeps the packets of one flow. -/
def keepsPongs : Services := fun tag frame =>
  if tag = "fw" ∧ ipKey frame = some ⟨0x0200000A, 0x0100000A, 0, 0, IPPROTO_ICMP⟩ then none
  else some frame

theorem keepsFlow_keepsPongs (tag : String) : KeepsFlow (keepsPongs tag) where
  key := by
    intro frame out h key hkey
    unfold keepsPongs at h
    split_ifs at h
    rwa [Option.some.inj h]
  plain := by
    intro frame out h hplain
    unfold keepsPongs at h
    split_ifs at h
    rwa [← Option.some.inj h]

/-- The pings and the pongs, with that function at the first node. -/
theorem all_served_duplex :
    ∃ n last, ["fw", "nat"].getLast? = some last ∧ ∀ sched : List ℕ, n ≤ sched.count 1 →
      (duplexDeployment.swarmBy keepsPongs duplexNet duplexPlaces sched).threads[1]? =
        some (duplexDeployment.ending last (["fw", "nat"].foldlM (fun frame tag => keepsPongs tag frame)
          (packetOf ⟨0x0A000002, 0x0A000001, 0, 0, IPPROTO_ICMP⟩))) ∧
      duplexDeployment.handOutsOfBy keepsPongs 1 duplexNet duplexPlaces sched =
        (through keepsPongs ["fw", "nat"]
          (packetOf ⟨0x0A000002, 0x0A000001, 0, 0, IPPROTO_ICMP⟩)).1 :=
  all_served duplexDeployment parsePing id duplexManager valid_duplex chainable_duplex keepsPongs
    keepsFlow_keepsPongs [] duplexEntrants enters_duplex (fun _ _ _ _ => rfl) (by decide) spare_duplex 1
    _ rfl

/-- The pong comes to the first node, and no further. -/
example : through keepsPongs ["fw", "nat"]
    (packetOf ⟨0x0A000002, 0x0A000001, 0, 0, IPPROTO_ICMP⟩) =
      ([("fw", packetOf ⟨0x0A000002, 0x0A000001, 0, 0, IPPROTO_ICMP⟩)], none) := by decide

end ChainingBox
