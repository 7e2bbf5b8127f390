import ChainingBox.Control.Keys

/-!
# The deployment

The part of `cb_deploy.go` that chooses the interfaces of every node. It creates a direct link
between any two neighbours of a chain that are both local, at most one into and one out of a node,
and leaves out a node's ingress or egress stages where it has a link. The manager decides about links
again, position by position.

`agrees_iff` says when the two agree. A node with a link into it or out of it must not occur at
another position: the deployment stops when a node would need two links on a side, but a node with
one link may occur at other positions where it needs the stages that are left out.
-/

namespace ChainingBox

open Lib

/-- The direct links: `ingress_ifaces` has for the node that a link leads into the node that it
comes from, and `egress_ifaces` the other way. -/
structure Topology where
  ingress_ifaces : List (String × String)
  egress_ifaces : List (String × String)

/-- The round of the inner loop for two neighbours: `none` when it exits, or dereferences nil. -/
def deployPair (cfg : CBConfig) (t : Topology) (pair : String × String) : Option Topology := do
  let n1 ← cfg.getNodeByName pair.1
  -- We can only create veth pairs between local nodes.
  if n1.Remote then return t
  else
    let n2 ← cfg.getNodeByName pair.2
    if n2.Remote then return t
    else if t.ingress_ifaces.any fun l => l.1 = n2.Tag then none
    else if t.egress_ifaces.any fun l => l.1 = n1.Tag then none
    else return ⟨t.ingress_ifaces ++ [(n2.Tag, n1.Tag)], t.egress_ifaces ++ [(n1.Tag, n2.Tag)]⟩

/-- The round of the outer loop. -/
def deployChain (cfg : CBConfig) (t : Topology) (chain : CBChain) : Option Topology :=
  -- Check bogus length.
  if chain.Nodes.length < 2 then some t
  else (chain.Nodes.zip chain.Nodes.tail).foldlM (deployPair cfg) t

/-- The loop that creates the direct links. -/
def deployLinks (cfg : CBConfig) : Option Topology := cfg.Chains.foldlM (deployChain cfg) ⟨[], []⟩

/-- The ingress stage of a node is left out. -/
def Topology.omitIngress (t : Topology) (tag : String) : Bool :=
  t.ingress_ifaces.any fun l => l.1 = tag

/-- The egress stages of a node are left out. -/
def Topology.omitEgress (t : Topology) (tag : String) : Bool :=
  t.egress_ifaces.any fun l => l.1 = tag

/-- The address that an agent announces in its Hello: the address of its ingress interface `mac`, or
zeros when it has none. -/
def helloAddress (t : Topology) (mac : String → Mac) (tag : String) : Mac :=
  if t.omitIngress tag then zeroMac else mac tag

/-- The address of a node with an ingress stage. -/
theorem helloAddress_eq {t : Topology} {mac : String → Mac} {tag : String}
    (h : t.omitIngress tag = false) : helloAddress t mac tag = mac tag := by
  rw [helloAddress, h]
  rfl

/-! ## The links of a configuration -/

/-- The neighbours that are both local, of all chains. -/
def linkList (cfg : CBConfig) : List (String × String) :=
  cfg.Chains.flatMap fun chain =>
    (chain.Nodes.zip chain.Nodes.tail).filter fun l => cfg.isLocal l.1 && cfg.isLocal l.2

/-- Two links share neither the node that they come from nor the one that they lead into. -/
def Apart (l l' : String × String) : Prop := l.1 ≠ l'.1 ∧ l.2 ≠ l'.2

/-- Both maps of the topology hold these links, which are apart. -/
structure Topology.Holds (t : Topology) (links : List (String × String)) : Prop where
  egress : t.egress_ifaces = links
  ingress : t.ingress_ifaces = links.map Prod.swap
  apart : links.Pairwise Apart

/-- A round adds the link of its two neighbours, if they are local. -/
theorem deployPair_holds {cfg : CBConfig} {t t' : Topology} {links : List (String × String)}
    {pair : String × String} (ht : t.Holds links) (h : deployPair cfg t pair = some t') :
    t'.Holds (links ++ [pair].filter fun l => cfg.isLocal l.1 && cfg.isLocal l.2) := by
  unfold deployPair at h
  simp only [Option.bind_eq_bind, Option.bind_eq_some_iff] at h
  obtain ⟨n1, hn1, h⟩ := h
  have hl1 := isLocal_of_some hn1
  cases hr1 : n1.Remote with
  | true =>
    simp only [hr1, if_true] at h
    obtain rfl := Option.some.inj h
    simpa [hl1, hr1] using ht
  | false =>
  simp only [hr1, Bool.false_eq_true, if_false, Option.bind_eq_some_iff] at h
  obtain ⟨n2, hn2, h⟩ := h
  have hl2 := isLocal_of_some hn2
  cases hr2 : n2.Remote with
  | true =>
    simp only [hr2, if_true] at h
    obtain rfl := Option.some.inj h
    simpa [hl2, hr2] using ht
  | false =>
  simp only [hr2, Bool.false_eq_true, if_false] at h
  split_ifs at h with hin hout
  obtain rfl := Option.some.inj h
  obtain ⟨-, htag1⟩ := getNodeByName_some hn1
  obtain ⟨-, htag2⟩ := getNodeByName_some hn2
  have hfilter : [pair].filter (fun l => cfg.isLocal l.1 && cfg.isLocal l.2) = [pair] := by
    simp [hl1, hl2, hr1, hr2]
  rw [hfilter, htag1, htag2]
  refine ⟨by rw [ht.egress], by rw [ht.ingress, List.map_append]; rfl, ?_⟩
  -- The new link is apart from the others, or the round would have exited.
  rw [List.pairwise_append]
  refine ⟨ht.apart, List.pairwise_singleton _ _, fun l hl l' hl' => ?_⟩
  obtain rfl := List.mem_singleton.1 hl'
  rw [ht.ingress, htag2] at hin
  rw [ht.egress, htag1] at hout
  simp only [List.any_eq_true, List.mem_map, decide_eq_true_eq, not_exists, not_and] at hin hout
  exact ⟨fun he => hout l hl he, fun he => hin l.swap ⟨l, hl, rfl⟩ he⟩

/-- The loop over the neighbours of a chain adds their links. -/
theorem foldlM_deployPair {cfg : CBConfig} {t t' : Topology} {links pairs : List (String × String)}
    (ht : t.Holds links) (h : pairs.foldlM (deployPair cfg) t = some t') :
    t'.Holds (links ++ pairs.filter fun l => cfg.isLocal l.1 && cfg.isLocal l.2) := by
  induction pairs generalizing t links with
  | nil =>
    obtain rfl := Option.some.inj h
    simpa using ht
  | cons pair pairs ih =>
    rw [List.foldlM_cons] at h
    obtain ⟨t₁, h₁, h⟩ := Option.bind_eq_some_iff.1 h
    have hstep := ih (deployPair_holds ht h₁) h
    rwa [List.append_assoc, ← List.filter_append] at hstep

/-- The rounds of all chains are one loop over all neighbours. -/
theorem deployLinks_eq (cfg : CBConfig) :
    deployLinks cfg = (cfg.Chains.flatMap fun chain =>
      chain.Nodes.zip chain.Nodes.tail).foldlM (deployPair cfg) ⟨[], []⟩ := by
  have hchain (t : Topology) (chain : CBChain) : deployChain cfg t chain =
      (chain.Nodes.zip chain.Nodes.tail).foldlM (deployPair cfg) t := by
    unfold deployChain
    split_ifs with hlen
    · -- A chain of less than two nodes has no neighbours.
      have hzip : chain.Nodes.zip chain.Nodes.tail = [] := by
        apply List.eq_nil_of_length_eq_zero
        rw [List.length_zip, List.length_tail]
        omega
      rw [hzip]
      rfl
    · rfl
  unfold deployLinks
  generalize (⟨[], []⟩ : Topology) = t
  generalize cfg.Chains = chains
  induction chains generalizing t with
  | nil => rfl
  | cons chain chains ih =>
    rw [List.foldlM_cons, List.flatMap_cons, List.foldlM_append, hchain]
    simp only [ih]

/-- If the deployment finishes, it has created the links of the configuration, and they are
apart. -/
theorem of_deployLinks {cfg : CBConfig} {t : Topology} (h : deployLinks cfg = some t) :
    t.Holds (linkList cfg) := by
  rw [deployLinks_eq] at h
  have hholds := foldlM_deployPair ⟨rfl, rfl, List.Pairwise.nil⟩ h
  rwa [List.nil_append, List.filter_flatMap] at hholds

/-- A round succeeds for declared neighbours whose link is apart from those before. -/
theorem exists_deployPair {cfg : CBConfig} {t : Topology} {links : List (String × String)}
    {pair : String × String} (ht : t.Holds links) (h1 : cfg.Declared pair.1)
    (h2 : cfg.Declared pair.2)
    (hapart : cfg.isLocal pair.1 → cfg.isLocal pair.2 → ∀ l ∈ links, Apart l pair) :
    ∃ t', deployPair cfg t pair = some t' := by
  obtain ⟨n1, hn1⟩ := Option.isSome_iff_exists.1 (declared_iff.1 h1)
  obtain ⟨n2, hn2⟩ := Option.isSome_iff_exists.1 (declared_iff.1 h2)
  have hl1 := isLocal_of_some hn1
  have hl2 := isLocal_of_some hn2
  obtain ⟨-, htag1⟩ := getNodeByName_some hn1
  obtain ⟨-, htag2⟩ := getNodeByName_some hn2
  unfold deployPair
  simp only [hn1, hn2, Option.bind_eq_bind, Option.bind_some]
  cases hr1 : n1.Remote with
  | true => exact ⟨t, rfl⟩
  | false =>
  cases hr2 : n2.Remote with
  | true => exact ⟨t, rfl⟩
  | false =>
  -- Both are local, so the round fails only if one of them has its interface already.
  have hall := hapart (by rw [hl1, hr1]; rfl) (by rw [hl2, hr2]; rfl)
  have hin : (t.ingress_ifaces.any fun l => l.1 = n2.Tag) = false := by
    rw [ht.ingress, htag2, List.any_map, List.any_eq_false]
    intro l hl
    simpa using (hall l hl).2
  have hout : (t.egress_ifaces.any fun l => l.1 = n1.Tag) = false := by
    rw [ht.egress, htag1, List.any_eq_false]
    intro l hl
    simpa using (hall l hl).1
  simp only [hin, hout, Bool.false_eq_true, if_false]
  exact ⟨_, rfl⟩

/-- The deployment finishes if all nodes of chains are declared, and all links are apart. -/
theorem exists_deployLinks {cfg : CBConfig}
    (hdecl : ∀ chain ∈ cfg.Chains, ∀ n ∈ chain.Nodes, cfg.Declared n)
    (hapart : (linkList cfg).Pairwise Apart) : ∃ t, deployLinks cfg = some t := by
  unfold linkList at hapart
  rw [← List.filter_flatMap] at hapart
  have hpairs : ∀ pair ∈ (cfg.Chains.flatMap fun chain => chain.Nodes.zip chain.Nodes.tail),
      cfg.Declared pair.1 ∧ cfg.Declared pair.2 := by
    intro pair hpair
    obtain ⟨chain, hc, hzip⟩ := List.mem_flatMap.1 hpair
    obtain ⟨h1, h2⟩ := List.of_mem_zip hzip
    exact ⟨hdecl chain hc _ h1, hdecl chain hc _ (List.mem_of_mem_tail h2)⟩
  rw [deployLinks_eq]
  generalize (cfg.Chains.flatMap fun chain => chain.Nodes.zip chain.Nodes.tail) = pairs at *
  -- The invariant is that the links so far and those to come are all apart.
  suffices hrun : ∀ (t : Topology) (links : List (String × String)), t.Holds links →
      (links ++ pairs.filter fun l => cfg.isLocal l.1 && cfg.isLocal l.2).Pairwise Apart →
      ∃ t', pairs.foldlM (deployPair cfg) t = some t' from
    hrun ⟨[], []⟩ [] ⟨rfl, rfl, List.Pairwise.nil⟩ hapart
  clear hapart
  induction pairs with
  | nil => exact fun t _ _ _ => ⟨t, rfl⟩
  | cons pair pairs ih =>
    intro t links ht hall
    obtain ⟨h1, h2⟩ := hpairs pair List.mem_cons_self
    obtain ⟨-, -, hcross⟩ := List.pairwise_append.1 hall
    obtain ⟨t₁, h₁⟩ := exists_deployPair ht h1 h2 fun hl1 hl2 l hl =>
      hcross l hl pair (List.mem_filter.2 ⟨List.mem_cons_self, by rw [hl1, hl2]; rfl⟩)
    have hholds := deployPair_holds ht h₁
    rw [List.foldlM_cons, h₁]
    refine ih (fun q hq => hpairs q (List.mem_cons_of_mem _ hq)) t₁ _ hholds ?_
    rwa [List.append_assoc, ← List.filter_append]

/-! ## Links by position -/

namespace Pos

variable {cfg : CBConfig}

/-- The next position of the chain. -/
def next (p : Pos cfg) (h : p.i.1 + 1 < p.chain.Nodes.length) : Pos cfg := ⟨p.c, ⟨p.i.1 + 1, h⟩⟩

@[simp] theorem chain_next (p : Pos cfg) (h : p.i.1 + 1 < p.chain.Nodes.length) :
    (p.next h).chain = p.chain := rfl

@[simp] theorem i_next (p : Pos cfg) (h : p.i.1 + 1 < p.chain.Nodes.length) :
    (p.next h).i.1 = p.i.1 + 1 := rfl

theorem next_congr {p q : Pos cfg} (hpq : p = q) (h : p.i.1 + 1 < p.chain.Nodes.length)
    (h' : q.i.1 + 1 < q.chain.Nodes.length) : p.next h = q.next h' := by
  subst hpq
  rfl

/-- A position that is not the first follows another one. -/
theorem exists_prev (q : Pos cfg) (hpos : 0 < q.i.1) :
    ∃ (p : Pos cfg) (h : p.i.1 + 1 < p.chain.Nodes.length), p.next h = q ∧ p.c = q.c := by
  have hlt : q.i.1 < (cfg.Chains[q.c]).Nodes.length := q.i.2
  refine ⟨⟨q.c, ⟨q.i.1 - 1, by omega⟩⟩, ?_, ext_iff'.2 ⟨rfl, ?_⟩, rfl⟩
  · show q.i.1 - 1 + 1 < (cfg.Chains[q.c]).Nodes.length
    omega
  · show q.i.1 - 1 + 1 = q.i.1
    omega

theorem node_mem (p : Pos cfg) : p.node ∈ p.chain.Nodes := List.get_mem _ _

theorem getElem?_node (p : Pos cfg) : p.chain.Nodes[p.i.1]? = some p.node :=
  List.getElem?_eq_getElem p.i.2

/-- The first position of a chain has its first node. -/
theorem node_of_head {p : Pos cfg} (hi : p.i.1 = 0) {first : String}
    (hfirst : p.chain.Nodes.head? = some first) : p.node = first := by
  have hget := p.getElem?_node
  rw [hi, ← List.head?_eq_getElem?] at hget
  exact Option.some.inj (hget.symm.trans hfirst)

/-- A position is linked if it is followed by another, and both nodes are local. -/
theorem linked_iff' {p : Pos cfg} :
    p.Linked ↔ ∃ h : p.i.1 + 1 < p.chain.Nodes.length,
      cfg.isLocal p.node ∧ cfg.isLocal (p.next h).node := by
  constructor
  · intro hp
    obtain ⟨n, n', hn, hn', hl, hl'⟩ := linked_iff.1 hp
    obtain ⟨h, hget⟩ := List.getElem?_eq_some_iff.1 hn'
    obtain rfl : p.node = n := Option.some.inj (p.getElem?_node.symm.trans hn)
    have hnext : (p.next h).node = n' := hget
    exact ⟨h, hl, by rw [hnext]; exact hl'⟩
  · rintro ⟨h, hl, hl'⟩
    exact linked_iff.2 ⟨_, _, p.getElem?_node, (p.next h).getElem?_node, hl, hl'⟩

theorem zip_getElem? (p : Pos cfg) (h : p.i.1 + 1 < p.chain.Nodes.length) :
    (p.chain.Nodes.zip p.chain.Nodes.tail)[p.i.1]? = some (p.node, (p.next h).node) := by
  rw [List.getElem?_zip_eq_some, List.getElem?_tail]
  exact ⟨p.getElem?_node, (p.next h).getElem?_node⟩

end Pos

/-- The neighbours at an index of a chain. -/
theorem of_zip_getElem? {cfg : CBConfig} {c : Fin cfg.Chains.length} {i : ℕ} {l : String × String}
    (h : ((cfg.Chains.get c).Nodes.zip (cfg.Chains.get c).Nodes.tail)[i]? = some l) :
    ∃ (p : Pos cfg) (h : p.i.1 + 1 < p.chain.Nodes.length), p.c = c ∧ p.i.1 = i ∧
      l = (p.node, (p.next h).node) := by
  rw [List.getElem?_zip_eq_some, List.getElem?_tail] at h
  obtain ⟨hn, hn'⟩ := h
  obtain ⟨hlt, hget⟩ := List.getElem?_eq_some_iff.1 hn'
  let p : Pos cfg := ⟨c, ⟨i, Nat.lt_of_succ_lt hlt⟩⟩
  have hnode : p.node = l.1 := Option.some.inj (p.getElem?_node.symm.trans hn)
  have hnext : (p.next hlt).node = l.2 := hget
  exact ⟨p, hlt, rfl, rfl, by rw [hnode, hnext]⟩

theorem linked_of_isLocal {cfg : CBConfig} {p : Pos cfg} {h : p.i.1 + 1 < p.chain.Nodes.length}
    (hlocal : (cfg.isLocal p.node && cfg.isLocal (p.next h).node) = true) : p.Linked := by
  rw [Bool.and_eq_true] at hlocal
  exact Pos.linked_iff'.2 ⟨h, hlocal⟩

/-- The links of a chain are those of its linked positions. -/
theorem of_mem_links {cfg : CBConfig} {c : Fin cfg.Chains.length} {l : String × String}
    (h : l ∈ ((cfg.Chains.get c).Nodes.zip (cfg.Chains.get c).Nodes.tail).filter
      fun l => cfg.isLocal l.1 && cfg.isLocal l.2) :
    ∃ (p : Pos cfg) (h : p.i.1 + 1 < p.chain.Nodes.length),
      p.c = c ∧ p.Linked ∧ l = (p.node, (p.next h).node) := by
  obtain ⟨hzip, hlocal⟩ := List.mem_filter.1 h
  obtain ⟨i, hi⟩ := List.mem_iff_getElem?.1 hzip
  obtain ⟨p, hlt, hc, -, rfl⟩ := of_zip_getElem? hi
  exact ⟨p, hlt, hc, linked_of_isLocal hlocal, rfl⟩

/-- The links of the configuration are those of its linked positions. -/
theorem mem_linkList {cfg : CBConfig} {l : String × String} :
    l ∈ linkList cfg ↔ ∃ (p : Pos cfg) (h : p.i.1 + 1 < p.chain.Nodes.length),
      p.Linked ∧ l = (p.node, (p.next h).node) := by
  constructor
  · intro hl
    obtain ⟨chain, hc, hl⟩ := List.mem_flatMap.1 hl
    obtain ⟨c, hclt, rfl⟩ := List.getElem_of_mem hc
    obtain ⟨p, h, -, hp, hl⟩ := @of_mem_links cfg ⟨c, hclt⟩ l hl
    exact ⟨p, h, hp, hl⟩
  · rintro ⟨p, h, hp, rfl⟩
    obtain ⟨h', hl, hl'⟩ := Pos.linked_iff'.1 hp
    refine List.mem_flatMap.2 ⟨p.chain, p.chain_mem, List.mem_filter.2 ⟨?_, ?_⟩⟩
    · exact List.mem_of_getElem? (p.zip_getElem? h)
    · simp only [hl, hl', Bool.and_self]

/-- What holds pairwise in a list holds of what stands at two of its indices. -/
theorem pairwise_getElem? {α : Type*} {R : α → α → Prop} {l : List α} (hl : l.Pairwise R)
    {i j : Nat} {a b : α} (hij : i < j) (ha : l[i]? = some a) (hb : l[j]? = some b) : R a b := by
  obtain ⟨hi, rfl⟩ := List.getElem?_eq_some_iff.1 ha
  obtain ⟨hj, rfl⟩ := List.getElem?_eq_some_iff.1 hb
  exact List.pairwise_iff_getElem.1 hl i j hi hj hij

/-- When all links are apart, those of two positions are. -/
theorem apart_of_pos {cfg : CBConfig} (hall : (linkList cfg).Pairwise Apart) {p q : Pos cfg}
    (hne : p ≠ q) (hp : p.Linked) (hq : q.Linked) (h : p.i.1 + 1 < p.chain.Nodes.length)
    (h' : q.i.1 + 1 < q.chain.Nodes.length) :
    Apart (p.node, (p.next h).node) (q.node, (q.next h').node) := by
  have hsymm {l l' : String × String} (ha : Apart l l') : Apart l' l := ⟨ha.1.symm, ha.2.symm⟩
  obtain ⟨hin, hacross⟩ := List.pairwise_flatMap.1 hall
  have hlocal (r : Pos cfg) (hr : r.Linked) (hlt : r.i.1 + 1 < r.chain.Nodes.length) :
      (cfg.isLocal r.node && cfg.isLocal (r.next hlt).node) = true := by
    obtain ⟨_, hl, hl'⟩ := Pos.linked_iff'.1 hr
    simp only [hl, hl', Bool.and_self]
  have hmem (r : Pos cfg) (hr : r.Linked) (hlt : r.i.1 + 1 < r.chain.Nodes.length) :
      (r.node, (r.next hlt).node) ∈ (r.chain.Nodes.zip r.chain.Nodes.tail).filter
        fun l => cfg.isLocal l.1 && cfg.isLocal l.2 :=
    List.mem_filter.2 ⟨List.mem_of_getElem? (r.zip_getElem? hlt), hlocal r hr hlt⟩
  have hchain (r : Pos cfg) : cfg.Chains[r.c.1]? = some r.chain :=
    List.getElem?_eq_getElem r.c.2
  rcases lt_trichotomy p.c.1 q.c.1 with hc | hc | hc
  · exact pairwise_getElem? hacross hc (hchain p) (hchain q) _ (hmem p hp h) _ (hmem q hq h')
  · -- Two positions of one chain.
    have hsame : p.chain = q.chain :=
      Option.some.inj ((hchain p).symm.trans (hc ▸ hchain q))
    have hij : p.i.1 ≠ q.i.1 := fun he => hne (Pos.ext_iff'.2 ⟨hc, he⟩)
    have hpair := List.pairwise_filter.1 (hin p.chain p.chain_mem)
    have hzip := q.zip_getElem? h'
    rw [← hsame] at hzip
    rcases Nat.lt_or_gt_of_ne hij with hlt | hgt
    · exact pairwise_getElem? hpair hlt (p.zip_getElem? h) hzip (hlocal p hp h) (hlocal q hq h')
    · exact hsymm (pairwise_getElem? hpair hgt hzip (p.zip_getElem? h) (hlocal q hq h')
        (hlocal p hp h))
  · exact hsymm
      (pairwise_getElem? hacross hc (hchain q) (hchain p) _ (hmem q hq h') _ (hmem p hp h))

/-! ## The agreement -/

/-- The topology and the rules agree: of two neighbours, either there is a direct link between them
or a forwarding rule for the first; a node with a forwarding rule has its egress stages; and a node
that is the first of a chain, or the target of a rule, has its ingress stage, so that the address in
the rule is that of the target's ingress interface. -/
structure Agrees (cbm : CBManager) (cfg : CBConfig) (t : Topology) (mac : String → Mac) : Prop where
  exactly_one : ∀ (p : Pos cfg) (h : p.i.1 + 1 < p.chain.Nodes.length),
    Xor ((p.node, (p.next h).node) ∈ t.egress_ifaces) (∃ r, p.Forwards cbm r)
  egress : ∀ (p : Pos cfg) r, p.Forwards cbm r → t.omitEgress p.node = false
  first : ∀ p : Pos cfg, p.i.1 = 0 → t.omitIngress p.node = false
  target : ∀ (p : Pos cfg) (h : p.i.1 + 1 < p.chain.Nodes.length) r, p.Forwards cbm r →
    t.omitIngress (p.next h).node = false ∧ r.Val.address = mac (p.next h).node

/-- Each endpoint of a direct link occurs at one position only. -/
def EndpointsOnce (cfg : CBConfig) : Prop :=
  ∀ (p : Pos cfg) (h : p.i.1 + 1 < p.chain.Nodes.length), p.Linked → ∀ q : Pos cfg,
    (q.node = p.node → q = p) ∧ (q.node = (p.next h).node → q = p.next h)

/-- The egress stages of a node are left out if it has a linked position. -/
theorem omitEgress_iff {cfg : CBConfig} {t : Topology} (ht : t.Holds (linkList cfg))
    {tag : String} : t.omitEgress tag ↔ ∃ p : Pos cfg, p.Linked ∧ p.node = tag := by
  rw [Topology.omitEgress, ht.egress, List.any_eq_true]
  constructor
  · rintro ⟨l, hl, htag⟩
    obtain ⟨p, h, hp, rfl⟩ := mem_linkList.1 hl
    exact ⟨p, hp, by simpa using htag⟩
  · rintro ⟨p, hp, rfl⟩
    obtain ⟨h, -⟩ := Pos.linked_iff'.1 hp
    exact ⟨_, mem_linkList.2 ⟨p, h, hp, rfl⟩, by simp⟩

/-- The ingress stage of a node is left out if some linked position is followed by it. -/
theorem omitIngress_iff {cfg : CBConfig} {t : Topology} (ht : t.Holds (linkList cfg))
    {tag : String} : t.omitIngress tag ↔ ∃ (p : Pos cfg)
      (h : p.i.1 + 1 < p.chain.Nodes.length), p.Linked ∧ (p.next h).node = tag := by
  rw [Topology.omitIngress, ht.ingress, List.any_eq_true]
  constructor
  · rintro ⟨l, hl, htag⟩
    obtain ⟨l', hl', rfl⟩ := List.mem_map.1 hl
    obtain ⟨p, h, hp, rfl⟩ := mem_linkList.1 hl'
    exact ⟨p, h, hp, by simpa using htag⟩
  · rintro ⟨p, h, hp, rfl⟩
    exact ⟨_, List.mem_map.2 ⟨_, mem_linkList.2 ⟨p, h, hp, rfl⟩, rfl⟩, by simp⟩

/-- A position has a forwarding rule exactly if it is not linked. -/
theorem Pos.exists_forwards {parseIP : ParseIP} {cbm : CBManager} {cfg : CBConfig}
    (hgen : ∀ chain ∈ cfg.Chains, Generates parseIP cfg chain) (p : Pos cfg) :
    (∃ r, p.Forwards cbm r) ↔ ¬ p.Linked := by
  simp only [Pos.forwards_iff hgen]
  constructor
  · rintro ⟨r, hr⟩ hp
    have hnot := (mem_fwdRulesAt hr).1
    rw [Pos.Linked, hnot] at hp
    exact absurd hp (by simp)
  · intro hp
    have hnot : cfg.linked p.chain p.i = false := by simpa [Pos.Linked] using hp
    obtain ⟨r, hr, -⟩ := exists_fwdRulesAt cbm hnot
    exact ⟨r, hr⟩

/-- Two neighbours have a direct link exactly if the first position is linked. -/
theorem Pos.mem_egress_ifaces {cfg : CBConfig} {t : Topology} (ht : t.Holds (linkList cfg))
    (p : Pos cfg) (h : p.i.1 + 1 < p.chain.Nodes.length) :
    (p.node, (p.next h).node) ∈ t.egress_ifaces ↔ p.Linked := by
  rw [ht.egress, mem_linkList]
  constructor
  · rintro ⟨q, h', hq, heq⟩
    obtain ⟨hn, hn'⟩ := Prod.mk.inj heq
    obtain ⟨_, hl, hl'⟩ := Pos.linked_iff'.1 hq
    exact Pos.linked_iff'.2 ⟨h, by rw [hn]; exact hl, by rw [hn']; exact hl'⟩
  · exact fun hp => ⟨p, h, hp, rfl⟩

/-- The target of a forwarding rule, and its address. -/
theorem Pos.forwards_address {parseIP : ParseIP} {cbm : CBManager} {cfg : CBConfig}
    (hgen : ∀ chain ∈ cfg.Chains, Generates parseIP cfg chain) {p : Pos cfg} {r : FwdRule}
    (h : p.i.1 + 1 < p.chain.Nodes.length) (hr : p.Forwards cbm r) :
    r.Val = ⟨0, cbm.addr (p.next h).node⟩ := by
  have hmem := (Pos.forwards_iff hgen).1 hr
  have hget := (p.next h).getElem?_node
  rw [Pos.chain_next, Pos.i_next] at hget
  rw [fwdRulesAt, if_neg (by simp [(mem_fwdRulesAt hmem).1]), List.mem_singleton] at hmem
  rw [hmem, hget]

/-- The next node is declared, so it is connected, and the manager has the address of its Hello. -/
theorem Pos.addr_next {parseIP : ParseIP} {order : List String → List String} {cbm : CBManager}
    {cfg : CBConfig} {t : Topology} {mac : String → Mac}
    (hinst : (installConfiguration parseIP order cbm cfg).result = .nil)
    (hhello : ∀ tag client, cbm tag = some client → client.addr = helloAddress t mac tag)
    (p : Pos cfg) (h : p.i.1 + 1 < p.chain.Nodes.length) :
    cbm.addr (p.next h).node = helloAddress t mac (p.next h).node := by
  obtain ⟨hconn, hgen, -⟩ := of_installConfiguration_nil hinst
  obtain ⟨f, hf, -, htag⟩ := (hgen _ p.chain_mem).getNodeByName (by omega) h
  have hname : p.chain.Nodes.getD (p.i.1 + 1) "" = (p.next h).node := (p.next h).node_eq
  rw [hname] at hf htag
  obtain ⟨client, hclient⟩ := Option.isSome_iff_exists.1 (hconn f (getNodeByName_some hf).1)
  rw [htag] at hclient
  rw [CBManager.addr, hclient, Option.map_some, Option.getD_some, hhello _ _ hclient]

/-- When endpoints of links occur once, the links are apart. -/
theorem apart_of_endpointsOnce {cfg : CBConfig} (honce : EndpointsOnce cfg) :
    (linkList cfg).Pairwise Apart := by
  have hapart {p q : Pos cfg} (h : p.i.1 + 1 < p.chain.Nodes.length)
      (h' : q.i.1 + 1 < q.chain.Nodes.length) (hp : p.Linked) (hne : q ≠ p) :
      Apart (p.node, (p.next h).node) (q.node, (q.next h').node) := by
    refine ⟨fun hnode => hne ((honce p h hp q).1 hnode.symm), fun hnode => hne ?_⟩
    have heq := Pos.ext_iff'.1 ((honce p h hp (q.next h')).2 hnode.symm)
    rw [Pos.i_next, Pos.i_next] at heq
    exact Pos.ext_iff'.2 ⟨heq.1, by omega⟩
  -- First the links of one chain, then those of two.
  refine List.pairwise_flatMap.2 ⟨fun chain hc => ?_, ?_⟩
  · obtain ⟨c, hclt, rfl⟩ := List.getElem_of_mem hc
    rw [List.pairwise_filter, List.pairwise_iff_getElem]
    intro i j hi hj hij hl hl'
    obtain ⟨p, h, -, hpi, heq⟩ := @of_zip_getElem? cfg ⟨c, hclt⟩ i _ (List.getElem?_eq_getElem hi)
    obtain ⟨q, h', -, hqj, heq'⟩ := @of_zip_getElem? cfg ⟨c, hclt⟩ j _ (List.getElem?_eq_getElem hj)
    rw [heq] at hl ⊢
    rw [heq']
    exact hapart h h' (linked_of_isLocal hl) fun hqp => by
      rw [hqp] at hqj
      omega
  · rw [List.pairwise_iff_getElem]
    intro c c' hc hc' hlt l hl l' hl'
    obtain ⟨p, h, hpc, hp, rfl⟩ := @of_mem_links cfg ⟨c, hc⟩ l hl
    obtain ⟨q, h', hqc, -, rfl⟩ := @of_mem_links cfg ⟨c', hc'⟩ l' hl'
    exact hapart h h' hp fun hqp => by
      rw [hqp, hpc] at hqc
      exact absurd (Fin.mk.inj hqc) (by omega)

section once

variable {cfg : CBConfig} {t : Topology} (ht : t.Holds (linkList cfg)) (honce : EndpointsOnce cfg)

include ht honce

/-- The first node of a chain has its ingress stage: with a link into it, it would occur twice. -/
theorem omitIngress_first {q : Pos cfg} (hzero : q.i.1 = 0) : t.omitIngress q.node = false := by
  rw [Bool.eq_false_iff]
  intro homit
  obtain ⟨p, h, hp, hnode⟩ := (omitIngress_iff ht).1 homit
  have heq := (honce p h hp q).2 hnode.symm
  rw [heq, Pos.i_next] at hzero
  omega

/-- The node after an unlinked position has its ingress stage. -/
theorem omitIngress_next {q : Pos cfg} (hq : q.i.1 + 1 < q.chain.Nodes.length)
    (hnot : ¬ q.Linked) : t.omitIngress (q.next hq).node = false := by
  rw [Bool.eq_false_iff]
  intro homit
  obtain ⟨p, h, hp, hnode⟩ := (omitIngress_iff ht).1 homit
  have heq := Pos.ext_iff'.1 ((honce p h hp (q.next hq)).2 hnode.symm)
  rw [Pos.i_next, Pos.i_next] at heq
  have hqp : q = p := Pos.ext_iff'.2 ⟨heq.1, by omega⟩
  exact hnot (hqp ▸ hp)

/-- The node of an unlinked position has its egress stages. -/
theorem omitEgress_of_not_linked {p : Pos cfg} (hnot : ¬ p.Linked) :
    t.omitEgress p.node = false := by
  rw [Bool.eq_false_iff]
  intro homit
  obtain ⟨q, hq, hnode⟩ := (omitEgress_iff ht).1 homit
  obtain ⟨h, -⟩ := Pos.linked_iff'.1 hq
  have heq := (honce q h hq p).1 hnode.symm
  exact hnot (heq ▸ hq)

end once

/-- If the topology and the rules agree, a node that has lost its stages to a link occurs nowhere
else. -/
theorem endpointsOnce_of_agrees {parseIP : ParseIP} {cbm : CBManager} {cfg : CBConfig}
    {t : Topology} {mac : String → Mac} (hholds : t.Holds (linkList cfg))
    (hgen : ∀ chain ∈ cfg.Chains, Generates parseIP cfg chain) (ha : Agrees cbm cfg t mac) :
    EndpointsOnce cfg := by
  have hlinked (q : Pos cfg) (hnot : ∀ r, ¬ q.Forwards cbm r) : q.Linked := by
    by_contra hq
    obtain ⟨r, hr⟩ := (Pos.exists_forwards hgen q).2 hq
    exact hnot r hr
  intro p h hp q
  constructor
  · -- The node has no egress stages, so it has no rule, so it is linked where it occurs.
    intro hnode
    have homit : t.omitEgress q.node = true := (omitEgress_iff hholds).2 ⟨p, hp, hnode.symm⟩
    have hq : q.Linked := hlinked q fun r hr => by
      rw [ha.egress q r hr] at homit
      exact absurd homit (by simp)
    obtain ⟨hq', -⟩ := Pos.linked_iff'.1 hq
    by_contra hne
    exact (apart_of_pos hholds.apart hne hq hp hq' h).1 hnode
  · -- The node has no ingress stage, so it is linked with the one before where it occurs.
    intro hnode
    have homit : t.omitIngress q.node = true := (omitIngress_iff hholds).2 ⟨p, h, hp, hnode.symm⟩
    have hpos : q.i.1 ≠ 0 := by
      intro hzero
      rw [ha.first q hzero] at homit
      exact absurd homit (by simp)
    obtain ⟨q', hq', rfl, -⟩ := q.exists_prev (Nat.pos_of_ne_zero hpos)
    have hq : q'.Linked := hlinked q' fun r hr => by
      rw [(ha.target q' hq' r hr).1] at homit
      exact absurd homit (by simp)
    have hsame : q' = p := by
      by_contra hne
      exact (apart_of_pos hholds.apart hne hq hp hq' h).2 hnode
    exact Pos.next_congr hsame hq' h

/-- For every configuration that both accept, the topology and the rules agree exactly if each
endpoint of a direct link occurs at one position only. -/
theorem agrees_iff (parseIP : ParseIP) (order : List String → List String) (cbm : CBManager)
    (cfg : CBConfig) (t : Topology) (mac : String → Mac) (ht : deployLinks cfg = some t)
    (hinst : (installConfiguration parseIP order cbm cfg).result = .nil)
    (hhello : ∀ tag client, cbm tag = some client → client.addr = helloAddress t mac tag) :
    Agrees cbm cfg t mac ↔ EndpointsOnce cfg := by
  obtain ⟨-, hgen, -⟩ := of_installConfiguration_nil hinst
  have hholds := of_deployLinks ht
  refine ⟨endpointsOnce_of_agrees hholds hgen, fun honce => ⟨fun p h => ?_, fun p r hr => ?_,
    fun q hzero => omitIngress_first hholds honce hzero, fun p h r hr => ?_⟩⟩
  · rw [Pos.mem_egress_ifaces hholds, Pos.exists_forwards hgen]
    by_cases hp : p.Linked
    · exact Or.inl ⟨hp, not_not.2 hp⟩
    · exact Or.inr ⟨hp, hp⟩
  · exact omitEgress_of_not_linked hholds honce ((Pos.exists_forwards hgen p).1 ⟨r, hr⟩)
  · have homit := omitIngress_next hholds honce h ((Pos.exists_forwards hgen p).1 ⟨r, hr⟩)
    refine ⟨homit, ?_⟩
    rw [Pos.forwards_address hgen h hr]
    show cbm.addr _ = _
    rw [Pos.addr_next hinst hhello, helloAddress_eq homit]

/-! ## Two configurations -/

/-- The address of an ingress interface. -/
def sampleMac : Mac := Mac.of 0x02 0 0 0 0 0x0C

/-- The link from `fw` to `nat`. -/
def pairTopology : Topology := ⟨[("nat", "fw")], [("fw", "nat")]⟩

/-- The chain of two local functions has no name twice. -/
theorem endpointsOnce_pair : EndpointsOnce pairConfig := by
  unfold EndpointsOnce
  decide

/-- The addresses that the two functions have said hello with. -/
theorem pairManager_addr {mac : String → Mac}
    (hfw : helloAddress pairTopology mac "fw" = Mac.of 0x02 0 0 0 0 0x0C)
    (hnat : helloAddress pairTopology mac "nat" = zeroMac) (tag : String) (client : CBClient)
    (h : pairManager tag = some client) : client.addr = helloAddress pairTopology mac tag := by
  unfold pairManager at h
  split_ifs at h with htag htag
  · rw [← Option.some.inj h, htag, hfw]
  · rw [← Option.some.inj h, htag, hnat]

/-- With one chain of two local functions, the topology and the rules agree. -/
theorem agrees_pair : Agrees pairManager pairConfig pairTopology fun _ => sampleMac := by
  refine (agrees_iff parsePing id pairManager pairConfig pairTopology (fun _ => sampleMac) rfl
    (by decide) ?_).2 endpointsOnce_pair
  exact pairManager_addr rfl rfl

/-- One chain that comes back to its first node, over a remote one. -/
def loopConfig : CBConfig where
  Chains := [⟨1, ["fw", "nat", "ids", "fw"], [pingFlow]⟩]
  Functions := [⟨"fw", false⟩, ⟨"nat", false⟩, ⟨"ids", true⟩]

/-- Both accept the chain, and its last node has a forwarding rule but no egress stages. -/
theorem not_agrees_loop :
    deployLinks loopConfig = some pairTopology ∧
      (installConfiguration parsePing id mixedManager loopConfig).result = .nil ∧
      ∀ mac, ¬ Agrees mixedManager loopConfig pairTopology mac := by
  refine ⟨rfl, by decide, fun mac h => ?_⟩
  let p : Pos loopConfig := ⟨⟨0, by decide⟩, ⟨3, by decide⟩⟩
  have hrule : p.Forwards mixedManager ⟨0x1FB, ⟨1, zeroMac⟩⟩ := ⟨_, rfl, by decide⟩
  exact absurd (h.egress p _ hrule) (by decide)

end ChainingBox
