import ChainingBox.Dataplane.Crowd
import ChainingBox.Network.EndToEnd

/-!
# Packets of different flows

Several packets in flight in a deployment at once, under any schedule. What the stages keep of a
packet is kept under its flow, so packets of different flows do not disturb one another: while
`nsh_data` has room for all of them, each goes the way that it goes alone (`swarm_isolated`), and
packets that enter their chains together are all delivered (`all_delivered`).
-/

namespace ChainingBox

open Lib

/-- The key under which the stages can look a packet up. -/
def Place.key : Place → Option Ip5tuple
  | .wire frame => wireKey frame
  | .handed _ frame => ipKey frame
  | .left _ _ | .lost => none

/-- Where a packet goes from Dec at a node. -/
def XdpAction.place (tag : String) (frame : Bytes) : XdpAction → Place
  | .pass => .handed tag frame
  | .drop => .lost
  | .tx => .wire frame

/-- What the stages find of a packet with a key in the maps. -/
def Net.part (key : Option Ip5tuple) (net : Net) (tag : String) : SrcMac × FwdTable × Option Nsh :=
  ((net tag).src_mac, (net tag).fwd_table, key.bind (net tag).nsh_data.lookup)

namespace Deployment

variable (d : Deployment)

/-- One step of one of the packets. -/
def hop (net : Net) (place : Place) : Net × Place :=
  ((d.next ⟨net, place⟩).net, (d.next ⟨net, place⟩).place)

/-- The packets after a schedule of steps. -/
def swarm (net : Net) (places : List Place) (sched : List ℕ) : World Net Place :=
  run (World.next d.hop) ⟨net, places⟩ sched

/-- What a packet is handed to under a schedule. -/
def handOutsOf (i : ℕ) (net : Net) (places : List Place) (sched : List ℕ) : List (String × Bytes) :=
  World.shown d.hop Place.handOut i ⟨net, places⟩ sched

/-- Wherever Dec runs, there is room for the NSH of every packet. -/
def Spare (net : Net) (keys : List Ip5tuple) : Prop :=
  ∀ tag, d.topo.omitIngress tag = false → (net tag).nsh_data.Spare keys

variable {d}

/-- A packet alone makes the steps of a flight. -/
theorem iterate_hop (next : Flight → Flight) (n : ℕ) (net : Net) (place : Place) :
    (fun p : Net × Place => ((next ⟨p.1, p.2⟩).net, (next ⟨p.1, p.2⟩).place))^[n] (net, place) =
      ((next^[n] ⟨net, place⟩).net, (next^[n] ⟨net, place⟩).place) := by
  induction n with
  | zero => rfl
  | succ n ih =>
    rw [Function.iterate_succ_apply', Function.iterate_succ_apply', ih]

theorem collect_hop (next : Flight → Flight) (n : ℕ) (net : Net) (place : Place) :
    collect (fun p : Net × Place => ((next ⟨p.1, p.2⟩).net, (next ⟨p.1, p.2⟩).place))
        (fun p => p.2.handOut) n (net, place) =
      collect next (fun s => s.place.handOut) n ⟨net, place⟩ := by
  induction n generalizing net place with
  | zero => rfl
  | succ n ih => exact congrArg _ (ih _ _)

/-! ## One step -/

theorem hop_wire_none {frame : Bytes} (net : Net) (hr : d.receiver frame = none) :
    d.hop net (.wire frame) = (net, .lost) := by
  simp only [hop, next, hr]

theorem hop_wire_some {frame : Bytes} {tag : String} (net : Net) (hr : d.receiver frame = some tag) :
    d.hop net (.wire frame) =
      (net.save tag (decapNsh (net tag).src_mac (net tag).nsh_data frame).nsh_data,
        (decapNsh (net tag).src_mac (net tag).nsh_data frame).ret.code.place tag
          (decapNsh (net tag).src_mac (net tag).nsh_data frame).frame) := by
  simp only [hop, next, hr]
  cases (decapNsh (net tag).src_mac (net tag).nsh_data frame).ret.code <;> rfl

theorem hop_peer {tag peer : String} (net : Net) (frame : Bytes) (h : d.topo.peer tag = some peer) :
    d.hop net (.handed tag frame) = (net, .handed peer frame) := by
  rw [hop, next_peer h]

theorem hop_egress {tag : String} (net : Net) (frame : Bytes) (h : d.topo.peer tag = none) :
    d.hop net (.handed tag frame) = (net, (egress d.kernel (net tag) frame).place tag) := by
  rw [hop, next_egress h]

/-- A step keeps the key of its packet, or the packet has none any more. -/
theorem key_hop {net : Net} {place : Place} {key : Ip5tuple}
    (h : (d.hop net place).2.key = some key) : place.key = some key := by
  cases place with
  | wire frame =>
    cases hr : d.receiver frame with
    | none =>
      rw [hop_wire_none net hr] at h
      exact absurd h (by simp [Place.key])
    | some tag =>
      have htx := decapNsh_ne_tx (net tag).src_mac (net tag).nsh_data frame
      rw [hop_wire_some net hr] at h
      cases hcode : (decapNsh (net tag).src_mac (net tag).nsh_data frame).ret.code with
      | pass =>
        rw [hcode] at h
        exact wireKey_of_handed h
      | drop =>
        rw [hcode] at h
        exact absurd h (by simp [XdpAction.place, Place.key])
      | tx => exact absurd hcode htx
  | handed tag frame =>
    cases hpeer : d.topo.peer tag with
    | some peer =>
      rw [hop_peer net frame hpeer] at h
      exact h
    | none =>
      rw [hop_egress net frame hpeer] at h
      cases hegress : egress d.kernel (net tag) frame with
      | dropped =>
        rw [hegress] at h
        exact absurd h (by simp [Egress.place, Place.key])
      | plain f =>
        rw [hegress] at h
        exact absurd h (by simp [Egress.place, Place.key])
      | chained f =>
        obtain ⟨key', -, hkey, -, -, hwire, -⟩ := of_egress_chained hegress
        rw [hegress] at h
        exact hkey.trans (hwire.symm.trans h)
  | left tag frame => exact h
  | lost => exact h

/-- Two packets of different numbers have different keys. -/
theorem ne_of_getElem? {places : List Place}
    (hdistinct : places.Pairwise fun p q => ∀ key, p.key = some key → q.key ≠ some key) {i j : ℕ}
    (hij : i ≠ j) {p q : Place} (hp : places[i]? = some p) (hq : places[j]? = some q)
    {key : Ip5tuple} (hkey : p.key = some key) : q.key ≠ some key := by
  obtain ⟨hi, rfl⟩ := List.getElem?_eq_some_iff.1 hp
  obtain ⟨hj, rfl⟩ := List.getElem?_eq_some_iff.1 hq
  rw [List.pairwise_iff_getElem] at hdistinct
  rcases Nat.lt_or_gt_of_ne hij with hlt | hlt
  · exact hdistinct i j hi hj hlt key hkey
  · exact fun hkey' => hdistinct j i hj hi hlt key hkey' hkey

variable (d) in
/-- What a packet may read and write is its own: what is saved under its key, where there is room
for it. -/
theorem isolated_hop (key : ℕ → Option Ip5tuple) (keys : List Ip5tuple)
    (hmem : ∀ i k, key i = some k → k ∈ keys) (hne : ∀ i j k, i ≠ j → key j = some k → key i ≠ some k) :
    World.Isolated d.hop (fun net => d.Spare net keys)
      (fun i place => ∀ k, place.key = some k → key i = some k) (fun i net => net.part (key i)) where
  keeps := by
    intro i net place howned hspare
    cases place with
    | wire frame =>
      cases hr : d.receiver frame with
      | none =>
        rw [hop_wire_none net hr]
        exact hspare
      | some tag =>
        rw [hop_wire_some net hr]
        intro tag' hstage
        obtain rfl | htag := eq_or_ne tag' tag
        · rw [save_nsh_data_self]
          exact spare_decapNsh (fun k hk => hmem i k (howned k hk)) (hspare _ hstage)
        · rw [save_nsh_data_of_ne _ _ _ htag]
          exact hspare tag' hstage
    | handed tag frame =>
      cases hpeer : d.topo.peer tag with
      | some peer => rwa [hop_peer net frame hpeer]
      | none => rwa [hop_egress net frame hpeer]
    | left tag frame => exact hspare
    | lost => exact hspare
  owned := fun i net place howned _ k hk => howned k (key_hop hk)
  agrees := by
    intro i net net' place howned hspare hspare' hview
    have hmac (tag : String) : (net tag).src_mac = (net' tag).src_mac :=
      congrArg (fun part => (part tag).1) hview
    have hfwd (tag : String) : (net tag).fwd_table = (net' tag).fwd_table :=
      congrArg (fun part => (part tag).2.1) hview
    have hsaved (tag : String) : (key i).bind (net tag).nsh_data.lookup =
        (key i).bind (net' tag).nsh_data.lookup := congrArg (fun part => (part tag).2.2) hview
    cases place with
    | wire frame =>
      cases hr : d.receiver frame with
      | none =>
        rw [hop_wire_none net hr, hop_wire_none net' hr]
        exact ⟨rfl, hview⟩
      | some tag =>
        have hstage := omitIngress_of_receiver hr
        obtain ⟨hret, hframe⟩ := decapNsh_congr (net' tag).src_mac (net tag).nsh_data
          (net' tag).nsh_data frame
        rw [hop_wire_some net hr, hop_wire_some net' hr, hmac tag, hret, hframe]
        refine ⟨rfl, funext fun tag' => ?_⟩
        obtain rfl | htag := eq_or_ne tag' tag
        · cases hkey : key i with
          | none => simp only [Net.part, save_src_mac, save_fwd_table, hmac, hfwd, Option.bind_none]
          | some k =>
            have hroom (n : Net) (hn : d.Spare n keys) (_ : wireKey frame = some k) :
                (n tag').nsh_data.Room k := (hn tag' hstage).room (hmem i k hkey)
            have hsame := hsaved tag'
            rw [hkey] at hsame
            simp only [Net.part, save_src_mac, save_fwd_table, hmac, hfwd, save_nsh_data_self,
              Option.bind_some]
            rw [lookup_decapNsh_congr (hroom net hspare) (hroom net' hspare') hsame]
        · simp only [Net.part, save_src_mac, save_fwd_table, hmac, hfwd,
            save_nsh_data_of_ne _ _ _ htag, hsaved]
    | handed tag frame =>
      have hegress : egress d.kernel (net tag) frame = egress d.kernel (net' tag) frame := by
        refine egress_congr (hmac tag) (hfwd tag) fun k hk => ?_
        have hsame := hsaved tag
        rw [howned k hk] at hsame
        exact hsame
      cases hpeer : d.topo.peer tag with
      | some peer =>
        rw [hop_peer net frame hpeer, hop_peer net' frame hpeer]
        exact ⟨rfl, hview⟩
      | none =>
        rw [hop_egress net frame hpeer, hop_egress net' frame hpeer, hegress]
        exact ⟨rfl, hview⟩
    | left tag frame => exact ⟨rfl, hview⟩
    | lost => exact ⟨rfl, hview⟩
  apart := by
    intro i j net place howned _ hij
    cases place with
    | wire frame =>
      cases hr : d.receiver frame with
      | none => rw [hop_wire_none net hr]
      | some tag =>
        rw [hop_wire_some net hr]
        funext tag'
        obtain rfl | htag := eq_or_ne tag' tag
        · cases hkey : key i with
          | none => simp only [Net.part, save_src_mac, save_fwd_table, Option.bind_none]
          | some k =>
            have hother : wireKey frame ≠ some k := fun hk => hne i j k hij (howned k hk) hkey
            simp only [Net.part, save_src_mac, save_fwd_table, save_nsh_data_self, Option.bind_some]
            rw [lookup_decapNsh_ne hother]
        · simp only [Net.part, save_src_mac, save_fwd_table, save_nsh_data_of_ne _ _ _ htag]
    | handed tag frame =>
      cases hpeer : d.topo.peer tag with
      | some peer => rw [hop_peer net frame hpeer]
      | none => rw [hop_egress net frame hpeer]
    | left tag frame => rfl
    | lost => rfl

/-! ## All steps -/

variable (d) in
/-- Packets with different keys have different parts. -/
theorem isolated_places {places : List Place}
    (hdistinct : places.Pairwise fun p q => ∀ key, p.key = some key → q.key ≠ some key) :
    World.Isolated d.hop (fun net => d.Spare net (places.filterMap Place.key))
      (fun i place => ∀ k, place.key = some k → (places[i]?).bind Place.key = some k)
      (fun i net => net.part ((places[i]?).bind Place.key)) := by
  refine d.isolated_hop _ _ (fun i k hk => ?_) (fun i j k hij hj hi => ?_)
  · obtain ⟨p, hp, hkey⟩ := Option.bind_eq_some_iff.1 hk
    exact List.mem_filterMap.2 ⟨p, List.mem_of_getElem? hp, hkey⟩
  · obtain ⟨p, hp, hkeyp⟩ := Option.bind_eq_some_iff.1 hi
    obtain ⟨q, hq, hkeyq⟩ := Option.bind_eq_some_iff.1 hj
    exact ne_of_getElem? hdistinct hij hp hq hkeyp hkeyq

/-- The same of packets that do something of their own before each step, and make no key. -/
theorem isolated_places_by {places : List Place} {act : Place → Place}
    (hdistinct : places.Pairwise fun p q => ∀ key, p.key = some key → q.key ≠ some key)
    (hact : ∀ place key, (act place).key = some key → place.key = some key) :
    World.Isolated (fun net place => d.hop net (act place))
      (fun net => d.Spare net (places.filterMap Place.key))
      (fun i place => ∀ k, place.key = some k → (places[i]?).bind Place.key = some k)
      (fun i net => net.part ((places[i]?).bind Place.key)) :=
  (d.isolated_places hdistinct).comp fun _ _ howned k hk => howned k (hact _ k hk)

/-- Under every schedule, such a packet makes the steps that it makes alone. -/
theorem alone_of_distinct {net : Net} {places : List Place} {act : Place → Place}
    {next : Flight → Flight} (hnext : ∀ s, next s = d.next ⟨s.net, act s.place⟩)
    (hact : ∀ place key, (act place).key = some key → place.key = some key)
    (hdistinct : places.Pairwise fun p q => ∀ key, p.key = some key → q.key ≠ some key)
    (hspare : d.Spare net (places.filterMap Place.key)) (sched : List ℕ) {i : ℕ} {place : Place}
    (hi : places[i]? = some place) :
    (run (World.next fun net place => d.hop net (act place)) ⟨net, places⟩ sched).threads[i]? =
        some (next^[sched.count i] ⟨net, place⟩).place ∧
      World.shown (fun net place => d.hop net (act place)) Place.handOut i ⟨net, places⟩ sched =
        collect next (fun s => s.place.handOut) (sched.count i) ⟨net, place⟩ ∧
      (run (World.next fun net place => d.hop net (act place)) ⟨net, places⟩
          sched).shared.part place.key =
        (next^[sched.count i] ⟨net, place⟩).net.part place.key := by
  have howned (j : ℕ) (u : Place) (hj : places[j]? = some u) (k : Ip5tuple) (hk : u.key = some k) :
      (places[j]?).bind Place.key = some k := by rw [hj, Option.bind_some, hk]
  have hstep : (fun p : Net × Place => d.hop p.1 (act p.2)) =
      fun p => ((next ⟨p.1, p.2⟩).net, (next ⟨p.1, p.2⟩).place) := by
    funext p
    rw [hnext]
    rfl
  obtain ⟨hplace, hshown, hpart⟩ := @World.run_alone _ _ _ _ _ _ _ _
    (isolated_places_by hdistinct hact) Place.handOut sched ⟨net, places⟩ hspare howned i place hi net
    hspare rfl
  rw [hstep, iterate_hop] at hplace hpart
  rw [hstep, collect_hop] at hshown
  rw [hi, Option.bind_some] at hpart
  exact ⟨hplace, hshown, hpart⟩

/-- Under every schedule, a packet makes the steps that it makes alone. -/
theorem swarm_alone {net : Net} {places : List Place}
    (hdistinct : places.Pairwise fun p q => ∀ key, p.key = some key → q.key ≠ some key)
    (hspare : d.Spare net (places.filterMap Place.key)) (sched : List ℕ) {i : ℕ} {place : Place}
    (hi : places[i]? = some place) :
    (d.swarm net places sched).threads[i]? =
        some (d.next^[sched.count i] ⟨net, place⟩).place ∧
      d.handOutsOf i net places sched = d.handOuts (sched.count i) ⟨net, place⟩ ∧
      (d.swarm net places sched).shared.part place.key =
        (d.next^[sched.count i] ⟨net, place⟩).net.part place.key :=
  @alone_of_distinct d net places id d.next (fun _ => rfl) (fun _ _ => id) hdistinct hspare sched i
    place hi

/-- Packets of which no two have the same key, in any deployment, with any maps that have room for all
of them, under any schedule: each is where it is alone after as many steps, has been handed to the
same service functions, and has left the same in the maps. -/
theorem swarm_isolated (d : Deployment) (net : Net) (places : List Place)
    (hdistinct : places.Pairwise fun p q => ∀ key, p.key = some key → q.key ≠ some key)
    (hspare : d.Spare net (places.filterMap Place.key)) (sched : List ℕ) :
    (d.swarm net places sched).threads =
        places.mapIdx (fun i place => (d.next^[sched.count i] ⟨net, place⟩).place) ∧
      ∀ i place, places[i]? = some place →
        d.handOutsOf i net places sched = d.handOuts (sched.count i) ⟨net, place⟩ ∧
        (d.swarm net places sched).shared.part place.key =
          (d.next^[sched.count i] ⟨net, place⟩).net.part place.key := by
  refine ⟨List.ext_getElem? fun i => ?_, fun i place hi => (swarm_alone hdistinct hspare sched hi).2⟩
  rw [List.getElem?_mapIdx]
  cases hi : places[i]? with
  | none =>
    have hlen : (d.swarm net places sched).threads.length = places.length :=
      World.length_run ⟨net, places⟩ sched
    rw [List.getElem?_eq_none_iff] at hi
    exact List.getElem?_eq_none (by omega)
  | some place => exact (swarm_alone hdistinct hspare sched hi).1

/-- A packet that is delivered alone is delivered, once it has made as many steps as it needs. -/
theorem swarm_of_delivers {net : Net} {places : List Place}
    (hdistinct : places.Pairwise fun p q => ∀ key, p.key = some key → q.key ≠ some key)
    (hspare : d.Spare net (places.filterMap Place.key)) {i : ℕ} {place : Place}
    (hi : places[i]? = some place) {nodes : List String} {inner : Bytes}
    (h : d.Delivers nodes inner ⟨net, place⟩) :
    ∃ n last, nodes.getLast? = some last ∧ ∀ sched : List ℕ, n ≤ sched.count i →
      (d.swarm net places sched).threads[i]? =
          some (.left last (store inner 6 (d.egressMac last).1)) ∧
        d.handOutsOf i net places sched = nodes.map (·, inner) := by
  obtain ⟨n, last, hlast, hleft, hout⟩ := h
  refine ⟨n, last, hlast, fun sched hn => ?_⟩
  obtain ⟨hplace, hshown, -⟩ := swarm_alone hdistinct hspare sched hi
  obtain ⟨k, hk⟩ := Nat.exists_eq_add_of_le hn
  have hover : (d.next^[n] ⟨net, place⟩).place.Over := by
    rw [hleft]
    trivial
  rw [hk, Nat.add_comm, Function.iterate_add_apply, iterate_of_over hover, hleft] at hplace
  rw [hk, hout] at hshown
  exact ⟨hplace, hshown⟩

end Deployment

/-! ## Packets that enter their chains -/

/-- A packet on its way to the first node of a chain. -/
structure Entrant where
  chain : CBChain
  first : String
  src : Mac
  nsh : Nsh
  inner : Bytes

namespace Entrant

variable (e : Entrant) (d : Deployment) (parseIP : ParseIP) (cbm : CBManager)

def place : Place := .wire (nshFrame (d.ingressMac e.first) e.src e.nsh e.inner)

/-- The key of its flow. -/
def key : Ip5tuple := (flowOf e.inner).toNetwork

/-- A packet of one of the chain's flows, where the rules of the chain's nodes fit in their tables and
the kernel grants Enc the room that it asks for. -/
structure Enters : Prop where
  mem : e.chain ∈ d.cfg.Chains
  fits : RulesFit parseIP cbm d.cfg e.chain
  plain : PlainPacket e.inner
  flow : ∃ flow ∈ e.chain.Flows, flow.parse parseIP = some (flowOf e.inner)
  grants : d.kernel.grantsRoom e.inner
  head : e.chain.Nodes.head? = some e.first
  path : e.nsh.path = entrySph e.chain
  proto : load8 e.nsh.1 3 = NSH_NEXT_PROTO_ETHER

variable {e d parseIP cbm} {order : List String → List String}

theorem key_place (h : e.Enters d parseIP cbm) : (e.place d).key = some e.key :=
  (wireKey_nshFrame ..).trans (getTuple_of_plainPacket h.plain)

/-- Its first step takes it to the first position of its chain. -/
theorem Enters.arrives (hv : d.Valid parseIP order cbm) (hcfg : Chainable d.cfg)
    (h : e.Enters d parseIP cbm) {net : Net} (hkeeps : d.Keeps (d.start parseIP order cbm) net)
    (hroom : ∀ tag, d.topo.omitIngress tag = false → (net tag).nsh_data.Room e.key) :
    ∃ p : Pos d.cfg, p.chain = e.chain ∧ p.i.1 = 0 ∧
      d.Carried (d.start parseIP order cbm) e.inner p (d.next ⟨net, e.place d⟩) := by
  obtain ⟨chain, first, src, nsh, inner⟩ := e
  obtain ⟨hc, -, hplain, -, -, hfirst, hpath, hproto⟩ := h
  obtain ⟨c, hlt, rfl⟩ := List.getElem_of_mem hc
  obtain ⟨-, hpos, -⟩ := hcfg.fits _ hc
  let p : Pos d.cfg := ⟨⟨c, hlt⟩, ⟨0, hpos⟩⟩
  have hnode : p.node = first := Pos.node_of_head rfl hfirst
  have hstage := @omitIngress_first _ _ (of_deployLinks hv.links) hcfg.once p rfl
  have harrive := @Deployment.carried_arrive d parseIP order cbm hv hcfg inner hplain net hkeeps
    p src nsh hstage (fun n _ homit => hroom n homit) (hpath.trans (entrySph_eq _)) hproto
  rw [hnode] at harrive
  exact ⟨p, rfl, rfl, harrive⟩

/-- Alone it is delivered. -/
theorem Enters.delivers (hv : d.Valid parseIP order cbm) (hcfg : Chainable d.cfg)
    (h : e.Enters d parseIP cbm) {net : Net} (hkeeps : d.Keeps (d.start parseIP order cbm) net)
    (hroom : ∀ tag, d.topo.omitIngress tag = false → (net tag).nsh_data.Room e.key) :
    d.Delivers e.chain.Nodes e.inner ⟨net, e.place d⟩ := by
  obtain ⟨p, hchain, hzero, harrive⟩ := h.arrives hv hcfg hkeeps hroom
  have hdeliver := Deployment.delivers_of_carried hv hcfg h.plain h.grants h.fits h.flow hchain
    harrive (by rw [hzero, Nat.zero_add])
  rw [hzero, List.drop_zero, hchain] at hdeliver
  exact Deployment.delivers_of_next_wire hdeliver

/-- Packets of different flows have different keys. -/
theorem distinct {entrants : List Entrant} (henters : ∀ e ∈ entrants, e.Enters d parseIP cbm)
    (hflows : (entrants.map fun e => flowOf e.inner).Nodup) :
    (entrants.map (·.place d)).Pairwise fun p q => ∀ key, p.key = some key → q.key ≠ some key := by
  rw [List.pairwise_map]
  refine (List.pairwise_map.1 hflows).imp_of_mem fun {a b} ha hb hne key hkey hkey' => hne ?_
  rw [key_place (henters a ha)] at hkey
  rw [key_place (henters b hb)] at hkey'
  exact Ip5tuple.toNetwork_injective (Option.some.inj (hkey.trans hkey'.symm))

theorem filterMap_key {entrants : List Entrant} (henters : ∀ e ∈ entrants, e.Enters d parseIP cbm) :
    (entrants.map (·.place d)).filterMap Place.key = entrants.map Entrant.key := by
  rw [List.filterMap_map, ← List.filterMap_eq_map]
  exact List.filterMap_congr fun e he => key_place (henters e he)

/-- Packets of different flows that enter their chains at once are delivered under every schedule. -/
theorem swarm_delivers (hv : d.Valid parseIP order cbm) (hcfg : Chainable d.cfg) {net : Net}
    (hkeeps : d.Keeps (d.start parseIP order cbm) net) {entrants : List Entrant}
    (henters : ∀ e ∈ entrants, e.Enters d parseIP cbm)
    (hflows : (entrants.map fun e => flowOf e.inner).Nodup)
    (hspare : d.Spare net (entrants.map Entrant.key)) {i : ℕ} (hi : entrants[i]? = some e) :
    ∃ n last, e.chain.Nodes.getLast? = some last ∧ ∀ sched : List ℕ, n ≤ sched.count i →
      (d.swarm net (entrants.map (·.place d)) sched).threads[i]? =
          some (.left last (store e.inner 6 (d.egressMac last).1)) ∧
        d.handOutsOf i net (entrants.map (·.place d)) sched = e.chain.Nodes.map (·, e.inner) := by
  have he := henters e (List.mem_of_getElem? hi)
  have hroom (tag : String) (homit : d.topo.omitIngress tag = false) :
      (net tag).nsh_data.Room e.key :=
    (hspare tag homit).room (List.mem_map.2 ⟨e, List.mem_of_getElem? hi, rfl⟩)
  have hplace : (entrants.map (·.place d))[i]? = some (e.place d) := by
    rw [List.getElem?_map, hi]
    rfl
  rw [← filterMap_key henters] at hspare
  exact Deployment.swarm_of_delivers (distinct henters hflows) hspare hplace
    (he.delivers hv hcfg hkeeps hroom)

end Entrant

/-- Packets of different flows that enter their chains at once, whatever packets came before: under
every schedule, each is handed to the service functions of its chain's nodes, in order and once for
each position, and has left behind the last one as soon as it has made the steps that it needs. -/
theorem all_delivered (d : Deployment) (parseIP : ParseIP) (order : List String → List String)
    (cbm : CBManager) (hv : d.Valid parseIP order cbm) (hcfg : Chainable d.cfg)
    (earlier : List (Bytes × ℕ)) (entrants : List Entrant)
    (henters : ∀ e ∈ entrants, e.Enters d parseIP cbm)
    (hflows : (entrants.map fun e => flowOf e.inner).Nodup)
    (hspare : d.Spare (d.after (d.start parseIP order cbm) earlier) (entrants.map Entrant.key))
    (i : ℕ) (e : Entrant) (hi : entrants[i]? = some e) :
    ∃ n last, e.chain.Nodes.getLast? = some last ∧ ∀ sched : List ℕ, n ≤ sched.count i →
      (d.swarm (d.after (d.start parseIP order cbm) earlier) (entrants.map (·.place d))
          sched).threads[i]? = some (.left last (store e.inner 6 (d.egressMac last).1)) ∧
        d.handOutsOf i (d.after (d.start parseIP order cbm) earlier) (entrants.map (·.place d))
          sched = e.chain.Nodes.map (·, e.inner) :=
  Entrant.swarm_delivers hv hcfg (Deployment.keeps_after _ earlier) henters hflows hspare hi

/-! ## Two directions of one flow -/

/-- Two remote functions in a chain for both directions. -/
def duplexConfig : CBConfig where
  Chains := [⟨1, ["fw", "nat"], [pingFlow, pongFlow]⟩]
  Functions := [⟨"fw", true⟩, ⟨"nat", true⟩]

/-- The configuration deployed, without links. -/
def duplexDeployment : Deployment := { sampleDeployment duplexConfig with topo := ⟨[], []⟩ }

/-- Both functions are connected. -/
def duplexManager : CBManager := fun tag =>
  if tag = "fw" ∨ tag = "nat" then some ⟨true, sampleIngress tag⟩ else none

theorem not_linked_duplex (p : Pos duplexConfig) : ¬ p.Linked := by
  obtain ⟨⟨c, hc⟩, ⟨i, hi⟩⟩ := p
  obtain rfl : c = 0 := Nat.lt_one_iff.1 hc
  have hi' : i < 2 := hi
  interval_cases i <;> exact of_decide_eq_false rfl

theorem valid_duplex : duplexDeployment.Valid parsePing id duplexManager where
  links := rfl
  perm := List.Perm.refl
  accepted := by decide
  hello := by
    intro tag client h
    unfold duplexManager at h
    split_ifs at h
    rw [← Option.some.inj h]
    rfl
  unicast := valid_pair.unicast
  nonzero := valid_pair.nonzero
  distinct := by
    have hinj : ∀ a ∈ sampleNames, ∀ b ∈ sampleNames, sampleIngress a = sampleIngress b → a = b := by
      decide
    have hfunctions : ∀ f ∈ duplexConfig.Functions, f.Tag ∈ sampleNames := by decide
    have hnodes : ∀ chain ∈ duplexConfig.Chains, ∀ tag ∈ chain.Nodes, tag ∈ sampleNames := by decide
    rintro tag ⟨f, hf, rfl⟩ chain hc tag' htag'
    exact hinj _ (hfunctions f hf) _ (hnodes chain hc tag' htag')

theorem chainable_duplex : Chainable duplexConfig where
  ids := by decide
  fits := by decide
  declared := fun chain hc n hn => declared_iff.2 (by revert chain n; decide)
  once := fun p _ hp => absurd hp (not_linked_duplex p)

/-- A packet of a flow that enters the chain. -/
def duplexEntrant (f : Ip5tuple) : Entrant :=
  ⟨⟨1, ["fw", "nat"], [pingFlow, pongFlow]⟩, "fw", zeroMac, proxyNsh 0x1FF noContext, packetOf f⟩

/-- A packet of each flow. -/
def duplexEntrants : List Entrant :=
  [duplexEntrant ⟨0x0A000001, 0x0A000002, 0, 0, IPPROTO_ICMP⟩,
    duplexEntrant ⟨0x0A000002, 0x0A000001, 0, 0, IPPROTO_ICMP⟩]

theorem enters_duplex : ∀ e ∈ duplexEntrants, e.Enters duplexDeployment parsePing duplexManager := by
  have hfit : RulesFit parsePing duplexManager duplexConfig
      ⟨1, ["fw", "nat"], [pingFlow, pongFlow]⟩ := by
    unfold RulesFit
    decide
  have hpath : entrySph ⟨1, ["fw", "nat"], [pingFlow, pongFlow]⟩ = 0x1FF := by decide
  have henters (f : Ip5tuple) (hf : PacketFlow f)
      (hflow : ∃ flow ∈ [pingFlow, pongFlow], flow.parse parsePing = some (flowOf (packetOf f))) :
      (duplexEntrant f).Enters duplexDeployment parsePing duplexManager :=
    ⟨List.mem_singleton_self _, hfit, plainPacket_packetOf hf, hflow, rfl, rfl,
      (proxyNsh_path _ _).trans hpath.symm, rfl⟩
  intro e he
  simp only [duplexEntrants, List.mem_cons, List.not_mem_nil, or_false] at he
  rcases he with rfl | rfl
  · exact henters _ ⟨Or.inr (Or.inr rfl), fun _ => ⟨rfl, rfl⟩⟩
      ⟨pingFlow, List.mem_cons_self, by decide⟩
  · exact henters _ ⟨Or.inr (Or.inr rfl), fun _ => ⟨rfl, rfl⟩⟩
      ⟨pongFlow, List.mem_cons_of_mem _ List.mem_cons_self, by decide⟩

/-- Their places before they enter. -/
def duplexPlaces : List Place := duplexEntrants.map (·.place duplexDeployment)

/-- The maps after the installation. -/
def duplexNet : Net := duplexDeployment.start parsePing id duplexManager

/-- No node has a proxy entry. -/
theorem duplexNet_nsh_data (tag : String) : (duplexNet tag).nsh_data = .empty := by
  have hproxy : (rulesOf parsePing duplexManager duplexDeployment.cfg tag).Proxy = [] := by
    rw [List.eq_nil_iff_forall_not_mem]
    intro r hr
    obtain ⟨p, -, hlast, -⟩ := mem_rulesOf_proxy.1 hr
    obtain ⟨q, -, -, hq, -⟩ := lastLinked_iff.1 hlast
    exact not_linked_duplex q hq
  rw [duplexNet, duplexDeployment.start_eq valid_duplex, handleInstall_nsh_data, hproxy]
  rfl

/-- So there is room for both. -/
theorem spare_duplex : duplexDeployment.Spare duplexNet (duplexEntrants.map Entrant.key) := by
  intro tag _
  rw [duplexNet_nsh_data]
  exact Nat.le_of_ble_eq_true rfl

/-- The two packets do not disturb each other. -/
theorem swarm_isolated_duplex :
    (duplexDeployment.swarm duplexNet duplexPlaces [0, 1, 1, 0]).threads =
        duplexPlaces.mapIdx (fun i place =>
          (duplexDeployment.next^[[0, 1, 1, 0].count i] ⟨duplexNet, place⟩).place) ∧
      ∀ i place, duplexPlaces[i]? = some place →
        duplexDeployment.handOutsOf i duplexNet duplexPlaces [0, 1, 1, 0] =
          duplexDeployment.handOuts ([0, 1, 1, 0].count i) ⟨duplexNet, place⟩ ∧
        (duplexDeployment.swarm duplexNet duplexPlaces [0, 1, 1, 0]).shared.part place.key =
          (duplexDeployment.next^[[0, 1, 1, 0].count i] ⟨duplexNet, place⟩).net.part place.key := by
  refine Deployment.swarm_isolated duplexDeployment duplexNet duplexPlaces
    (Entrant.distinct enters_duplex (by decide)) ?_ [0, 1, 1, 0]
  rw [duplexPlaces, Entrant.filterMap_key enters_duplex]
  exact spare_duplex

/-- Both are delivered. -/
theorem all_delivered_duplex :
    ∃ n last, ["fw", "nat"].getLast? = some last ∧ ∀ sched : List ℕ, n ≤ sched.count 1 →
      (duplexDeployment.swarm duplexNet duplexPlaces sched).threads[1]? =
        some (.left last (store (packetOf ⟨0x0A000002, 0x0A000001, 0, 0, IPPROTO_ICMP⟩) 6
          (duplexDeployment.egressMac last).1)) ∧
      duplexDeployment.handOutsOf 1 duplexNet duplexPlaces sched =
        ["fw", "nat"].map (·, packetOf ⟨0x0A000002, 0x0A000001, 0, 0, IPPROTO_ICMP⟩) :=
  all_delivered duplexDeployment parsePing id duplexManager valid_duplex chainable_duplex []
    duplexEntrants enters_duplex (by decide) spare_duplex 1 _ rfl

end ChainingBox
