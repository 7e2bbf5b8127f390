import ChainingBox.Lib.Runs
import ChainingBox.Control.Deploy
import ChainingBox.Dataplane.Packet

/-!
# The network

All nodes of a deployment, with one packet in flight. The packet is on the network between the
nodes, or handed to the service function of one of them, or it has left, or it is lost. `next` moves
it on: the ingress stage of the node whose address it carries takes it off the network, the service
function returns it as it is, and then it goes over the node's direct link or, if there is none,
through the egress stages.

The maps of a node are those that its agent has filled with the rules that the manager sent
(`start_eq`), and packets that came before have changed no more of them than `nsh_data` at nodes
with an ingress stage (`keeps_after`).
-/

namespace ChainingBox

open Lib

/-- The maps of all nodes. -/
abbrev Net := String → NodeMaps

/-- Another `nsh_data` at a node. -/
def Net.save (net : Net) (tag : String) (nsh_data : NshData) : Net :=
  Function.update net tag { net tag with nsh_data := nsh_data }

section save

variable (net : Net) (tag : String) (nsh_data : NshData)

@[simp] theorem save_src_mac (tag' : String) :
    (net.save tag nsh_data tag').src_mac = (net tag').src_mac := by
  obtain rfl | hne := eq_or_ne tag' tag
  · rw [Net.save, Function.update_self]
  · rw [Net.save, Function.update_of_ne hne]

@[simp] theorem save_fwd_table (tag' : String) :
    (net.save tag nsh_data tag').fwd_table = (net tag').fwd_table := by
  obtain rfl | hne := eq_or_ne tag' tag
  · rw [Net.save, Function.update_self]
  · rw [Net.save, Function.update_of_ne hne]

@[simp] theorem save_nsh_data_self : (net.save tag nsh_data tag).nsh_data = nsh_data := by
  rw [Net.save, Function.update_self]

/-- Other nodes have what they had. -/
theorem save_nsh_data_of_ne {tag' : String} (h : tag' ≠ tag) :
    (net.save tag nsh_data tag').nsh_data = (net tag').nsh_data := by
  rw [Net.save, Function.update_of_ne h]

end save

/-- Where the packet is. -/
inductive Place
  | wire (frame : Bytes)
  | handed (tag : String) (frame : Bytes)
  | left (tag : String) (frame : Bytes)
  | lost
  deriving DecidableEq

/-- The maps, and the packet. -/
structure Flight where
  net : Net
  place : Place

/-- A configuration and its topology, with what they are deployed on: the kernel, the addresses of
every node's default interfaces, and what follows the `nshhdr` in the memory of its agent. -/
structure Deployment where
  cfg : CBConfig
  topo : Topology
  kernel : Kernel
  ingressMac : String → Mac
  egressMac : String → Mac
  junk : String → ℕ → ByteVec 16

/-- The node that a node's direct link leads to: `egress_ifaces` has the interface. -/
def Topology.peer (t : Topology) (tag : String) : Option String := BoundedMap.lastValue t.egress_ifaces tag

/-- Where a packet goes from the egress stages of a node. -/
def Egress.place (tag : String) : Egress → Place
  | .dropped => .lost
  | .plain frame => .left tag frame
  | .chained frame => .wire frame

/-- What a place shows of a journey: the service function that the packet is handed to, and the
frame. -/
def Place.handOut : Place → List (String × Bytes)
  | .handed tag frame => [(tag, frame)]
  | _ => []

/-- The journey is over. -/
def Place.Over : Place → Prop
  | .left _ _ | .lost => True
  | _ => False

namespace Deployment

variable (d : Deployment)

/-- The maps of a node before any rule. The address of an interface is stored with the stages that
are installed on it. -/
def boot (tag : String) : NodeMaps where
  src_mac := ⟨helloAddress d.topo d.ingressMac tag,
    if d.topo.omitEgress tag then zeroMac else d.egressMac tag⟩
  nsh_data := .empty
  fwd_table := .empty

/-- The maps once every agent has handled the Install messages sent to it. -/
def install (sent : List (String × CBRulesConfig)) : Net := fun tag =>
  (sent.filter fun msg => msg.1 = tag).foldl (fun m msg => handleInstall (d.junk tag) m msg.2)
    (d.boot tag)

/-- The node that takes a frame off the network: its default ingress interface has the frame's
destination address, and has the ingress stage. -/
def receiver (frame : Bytes) : Option String :=
  (d.cfg.Functions.map CBInstance.Tag).find? fun tag =>
    !d.topo.omitIngress tag && (d.ingressMac tag).1 = frame.take 6

/-- One step of a packet. -/
def next (s : Flight) : Flight :=
  match s.place with
  | .wire frame =>
    match d.receiver frame with
    | none => ⟨s.net, .lost⟩
    | some tag =>
      let out := decapNsh (s.net tag).src_mac (s.net tag).nsh_data frame
      ⟨s.net.save tag out.nsh_data,
        match out.ret.code with
        | .pass => .handed tag out.frame
        | .drop => .lost
        | .tx => .wire out.frame⟩
  | .handed tag frame =>
    match d.topo.peer tag with
    -- The service functions of both nodes use the link, and there is no stage on it.
    | some peer => ⟨s.net, .handed peer frame⟩
    | none => ⟨s.net, (egress d.kernel (s.net tag) frame).place tag⟩
  | .left _ _ | .lost => s

/-- What the packet is handed to in its first `n` places. -/
def handOuts (n : ℕ) (s : Flight) : List (String × Bytes) :=
  collect d.next (fun s => s.place.handOut) n s

/-- The maps after packets that came one after the other: each is a frame that someone sent, and the
number of steps that it made. -/
def after (net : Net) (earlier : List (Bytes × ℕ)) : Net :=
  run (fun net e => (d.next^[e.2] ⟨net, .wire e.1⟩).net) net earlier

/-- The deployment of an accepted configuration: the loop over links and the installation succeed,
agents announce the addresses of their ingress interfaces, and these are different unicast
addresses. -/
structure Valid (parseIP : ParseIP) (order : List String → List String) (cbm : CBManager) :
    Prop where
  links : deployLinks d.cfg = some d.topo
  perm : ∀ l, (order l).Perm l
  accepted : (installConfiguration parseIP order cbm d.cfg).result = .nil
  hello : ∀ tag client, cbm tag = some client →
    client.addr = helloAddress d.topo d.ingressMac tag
  unicast : ∀ tag, load8 (d.ingressMac tag).1 0 &&& 1 = 0
  nonzero : ∀ tag, d.ingressMac tag ≠ zeroMac
  distinct : ∀ tag, d.cfg.Declared tag → ∀ chain ∈ d.cfg.Chains, ∀ tag' ∈ chain.Nodes,
    d.ingressMac tag = d.ingressMac tag' → tag = tag'

/-- The maps after the installation. -/
def start (parseIP : ParseIP) (order : List String → List String) (cbm : CBManager) : Net :=
  d.install (installConfiguration parseIP order cbm d.cfg).sent

/-- Every agent has the rules of its node. -/
theorem start_eq {parseIP : ParseIP} {order : List String → List String} {cbm : CBManager}
    (hv : d.Valid parseIP order cbm) (tag : String) :
    d.start parseIP order cbm tag =
      handleInstall (d.junk tag) (d.boot tag) (rulesOf parseIP cbm d.cfg tag) := by
  obtain ⟨-, -, hsent, -⟩ := of_installConfiguration_nil hv.accepted
  unfold start install
  rw [hsent, filter_nodeCfgs_rulesOf hv.perm]
  split_ifs with hempty
  · -- A node without a message needs no rules.
    rw [hempty]
    rfl
  · rfl

/-! ## What packets leave unchanged -/

/-- The maps are as they were, up to `nsh_data` at nodes with an ingress stage. -/
structure Keeps (net₀ net : Net) : Prop where
  src_mac : ∀ tag, (net tag).src_mac = (net₀ tag).src_mac
  fwd_table : ∀ tag, (net tag).fwd_table = (net₀ tag).fwd_table
  nsh_data : ∀ tag, d.topo.omitIngress tag → (net tag).nsh_data = (net₀ tag).nsh_data

variable {d}

theorem keeps_refl (net : Net) : d.Keeps net net := ⟨fun _ => rfl, fun _ => rfl, fun _ _ => rfl⟩

/-- A node that takes a frame off the network has an ingress stage. -/
theorem omitIngress_of_receiver {frame : Bytes} {tag : String} (h : d.receiver frame = some tag) :
    d.topo.omitIngress tag = false := by
  have hfound := List.find?_some h
  simp only [Bool.and_eq_true, Bool.not_eq_true', decide_eq_true_eq] at hfound
  exact hfound.1

/-- To save a header at such a node keeps the maps. -/
theorem keeps_save {net₀ net : Net} {tag : String} {nsh_data : NshData}
    (h : d.Keeps net₀ net) (hstage : d.topo.omitIngress tag = false) :
    d.Keeps net₀ (net.save tag nsh_data) where
  src_mac := fun tag' => (save_src_mac ..).trans (h.src_mac tag')
  fwd_table := fun tag' => (save_fwd_table ..).trans (h.fwd_table tag')
  nsh_data := by
    intro tag' homit
    have hne : tag' ≠ tag := by
      rintro rfl
      rw [hstage] at homit
      exact absurd homit (by simp)
    rw [save_nsh_data_of_ne _ _ _ hne, h.nsh_data tag' homit]

/-- So does every step of a packet. -/
theorem keeps_next {net₀ : Net} {s : Flight} (h : d.Keeps net₀ s.net) :
    d.Keeps net₀ (d.next s).net := by
  obtain ⟨net, place⟩ := s
  unfold next
  cases place with
  | wire frame =>
    cases hr : d.receiver frame with
    | none => simpa only [hr] using h
    | some tag => simpa only [hr] using keeps_save h (omitIngress_of_receiver hr)
  | handed tag frame =>
    dsimp only
    cases d.topo.peer tag <;> exact h
  | left tag frame => exact h
  | lost => exact h

theorem keeps_iterate {net₀ : Net} {s : Flight} (h : d.Keeps net₀ s.net) (n : ℕ) :
    d.Keeps net₀ (d.next^[n] s).net :=
  @iterate_invariant _ d.next (fun s => d.Keeps net₀ s.net) (fun _ => keeps_next) s h n

/-- Packets that came before have kept the maps. -/
theorem keeps_after (net₀ : Net) (earlier : List (Bytes × ℕ)) :
    d.Keeps net₀ (d.after net₀ earlier) := by
  exact run_invariant (fun net e hI => @keeps_iterate d net₀ ⟨net, .wire e.1⟩ hI e.2)
    (keeps_refl net₀) earlier

end Deployment

end ChainingBox
