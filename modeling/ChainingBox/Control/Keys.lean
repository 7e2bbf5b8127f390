import ChainingBox.Control.Install

/-!
# The keys of forwarding rules

The key of a forwarding rule is the service path header that a packet carries behind the rule's
position: the Id of the chain in 24 bits, and 254 minus the position in 8. The source computes it
in 32 bits from an Id of 32 bits and a position of any size, and nothing checks that they fit, or
that the Ids of chains differ. `keys_decode_iff` says for which configurations they do.
-/

namespace ChainingBox

open Lib

/-- A position: a chain, by its index, and the index of a node in it. -/
structure Pos (cfg : CBConfig) where
  c : Fin cfg.Chains.length
  i : Fin (cfg.Chains.get c).Nodes.length
  deriving DecidableEq

namespace Pos

variable {cfg : CBConfig}

/-- The chain of a position. -/
def chain (p : Pos cfg) : CBChain := cfg.Chains.get p.c

/-- The name of the node at a position. -/
def node (p : Pos cfg) : String := p.chain.Nodes.get p.i

/-- The source generates this forwarding rule for the position. -/
def Forwards (cbm : CBManager) (p : Pos cfg) (r : FwdRule) : Prop :=
  ∃ rules, genFwd cbm cfg p.chain p.i p.node = some rules ∧ r ∈ rules

/-- The source generates this proxy rule for the position. -/
def Proxies (parseIP : ParseIP) (p : Pos cfg) (r : ProxyRule) : Prop :=
  ∃ rules, genProxy parseIP cfg p.chain p.i p.node = some rules ∧ r ∈ rules

/-- The position is linked to the next one of its chain. -/
def Linked (p : Pos cfg) : Prop := cfg.linked p.chain p.i

instance (p : Pos cfg) : Decidable p.Linked := inferInstanceAs (Decidable (_ = _))

theorem chain_mem (p : Pos cfg) : p.chain ∈ cfg.Chains := List.getElem_mem _

theorem node_eq (p : Pos cfg) : p.chain.Nodes.getD p.i "" = p.node :=
  List.getD_eq_getElem _ _ p.i.2

/-- Positions of the same chain and the same index are equal. -/
theorem ext_iff' {p q : Pos cfg} : p = q ↔ p.c.1 = q.c.1 ∧ p.i.1 = q.i.1 := by
  constructor
  · rintro rfl
    exact ⟨rfl, rfl⟩
  · obtain ⟨⟨c, hc⟩, ⟨i, hi⟩⟩ := p
    obtain ⟨⟨c', hc'⟩, ⟨i', hi'⟩⟩ := q
    rintro ⟨h, h'⟩
    obtain rfl : c = c' := h
    obtain rfl : i = i' := h'
    rfl

/-- The rule of a position is generated unless the position is linked. -/
theorem forwards_iff {parseIP : ParseIP} {cbm : CBManager}
    (hgen : ∀ chain ∈ cfg.Chains, Generates parseIP cfg chain) {p : Pos cfg} {r : FwdRule} :
    p.Forwards cbm r ↔ r ∈ fwdRulesAt cbm cfg p.chain p.i := by
  have hfwd : genFwd cbm cfg p.chain p.i (p.chain.Nodes.getD p.i "") =
      some (fwdRulesAt cbm cfg p.chain p.i) := genFwd_eq (hgen _ p.chain_mem) p.i.2
  rw [node_eq] at hfwd
  simp [Forwards, hfwd]

theorem proxies_iff {parseIP : ParseIP}
    (hgen : ∀ chain ∈ cfg.Chains, Generates parseIP cfg chain) {p : Pos cfg} {r : ProxyRule} :
    p.Proxies parseIP r ↔ r ∈ proxyRulesAt parseIP cfg p.chain p.i := by
  have hproxy := genProxy_eq (hgen _ p.chain_mem) p.i.2
  have hnode := p.node_eq
  change genProxy parseIP cfg p.chain p.i (p.chain.Nodes.getD p.i "") = _ at hproxy
  rw [hnode] at hproxy
  simp [Proxies, hproxy]

end Pos

/-! ## The order of the positions -/

/-- A position comes before another one in the loops over the chains and their nodes. -/
def Pos.Before {cfg : CBConfig} (p q : Pos cfg) : Prop :=
  p.c < q.c ∨ p.c = q.c ∧ p.i.1 < q.i.1

instance {cfg : CBConfig} (p q : Pos cfg) : Decidable (p.Before q) :=
  inferInstanceAs (Decidable (_ ∨ _))

/-- All positions, in the order of the loops. -/
def allPos (cfg : CBConfig) : List (Pos cfg) :=
  (List.finRange cfg.Chains.length).flatMap fun c =>
    (List.finRange (cfg.Chains.get c).Nodes.length).map (Pos.mk c)

/-- The loops come to every position. -/
theorem mem_allPos {cfg : CBConfig} (p : Pos cfg) : p ∈ allPos cfg :=
  List.mem_flatMap.2 ⟨p.c, List.mem_finRange _, List.mem_map.2 ⟨p.i, List.mem_finRange _, rfl⟩⟩

instance (cfg : CBConfig) : Fintype (Pos cfg) :=
  ⟨(allPos cfg).toFinset, fun p => List.mem_toFinset.2 (mem_allPos p)⟩

/-- They come to each once. -/
theorem allPos_sorted (cfg : CBConfig) : (allPos cfg).Pairwise Pos.Before := by
  refine List.pairwise_flatMap.2 ⟨fun c _ => ?_, ?_⟩
  · exact List.pairwise_map.2 ((List.pairwise_lt_finRange _).imp fun h => Or.inr ⟨rfl, h⟩)
  · refine (List.pairwise_lt_finRange _).imp fun hlt p hp q hq => Or.inl ?_
    obtain ⟨i, -, rfl⟩ := List.mem_map.1 hp
    obtain ⟨j, -, rfl⟩ := List.mem_map.1 hq
    exact hlt

/-- The loops go through all positions. -/
theorem flatMap_positions {α : Type} {cfg : CBConfig} (f : CBChain → String × ℕ → List α) :
    (cfg.Chains.flatMap fun chain => chain.Nodes.zipIdx.flatMap (f chain)) =
      (allPos cfg).flatMap fun p => f p.chain (p.node, p.i) := by
  have hnodes (chain : CBChain) : chain.Nodes.zipIdx =
      (List.finRange chain.Nodes.length).map fun i => (chain.Nodes.get i, i.1) := by
    refine List.ext_getElem (by simp) fun i _ _ => ?_
    simp
  have hchains : cfg.Chains = (List.finRange cfg.Chains.length).map cfg.Chains.get :=
    (List.ofFn_get _).symm.trans List.ofFn_eq_map
  rw [allPos, List.flatMap_assoc]
  conv_lhs => rw [hchains]
  rw [List.flatMap_map]
  refine List.flatMap_congr fun c _ => ?_
  rw [hnodes, List.flatMap_map, List.flatMap_map]
  rfl

/-! ## The rules of a position -/

/-- The key of a forwarding rule of a position. -/
theorem mem_fwdRulesAt {cbm : CBManager} {cfg : CBConfig} {chain : CBChain} {i : ℕ} {r : FwdRule}
    (h : r ∈ fwdRulesAt cbm cfg chain i) : cfg.linked chain i = false ∧ r.Key = sphAt chain i := by
  unfold fwdRulesAt at h
  split_ifs at h with hl
  · simp at h
  · rw [List.mem_singleton] at h
    rw [h]
    exact ⟨by simpa using hl, rfl⟩

/-- A position that is not linked has a forwarding rule. -/
theorem exists_fwdRulesAt (cbm : CBManager) {cfg : CBConfig} {chain : CBChain} {i : ℕ}
    (h : cfg.linked chain i = false) :
    ∃ r ∈ fwdRulesAt cbm cfg chain i, r.Key = sphAt chain i := by
  unfold fwdRulesAt
  rw [if_neg (by simp [h])]
  exact ⟨_, List.mem_singleton_self _, rfl⟩

/-- The service path header of a position, when Id and position fit. -/
theorem sphAt_toNat {chain : CBChain} {i : ℕ} (hid : chain.Id.toNat < 2 ^ 24) (hi : i ≤ 254) :
    (sphAt chain i).toNat = 256 * chain.Id.toNat + (254 - i) := by
  have hindex : (BitVec.ofNat 32 i).toNat = i := by
    rw [BitVec.toNat_ofNat]
    omega
  have hlow : ((254 : BitVec 32) - BitVec.ofNat 32 i).toNat = 254 - i := by
    rw [BitVec.toNat_sub, hindex]
    have h254 : (254 : BitVec 32).toNat = 254 := rfl
    rw [h254]
    omega
  have hhigh : (chain.Id <<< 8).toNat = chain.Id.toNat <<< 8 := by
    rw [BitVec.toNat_shiftLeft, Nat.shiftLeft_eq]
    omega
  calc (sphAt chain i).toNat = chain.Id.toNat <<< 8 ||| (254 - i) := by
        rw [sphAt, BitVec.toNat_or, hhigh, hlow]
    _ = chain.Id.toNat <<< 8 + (254 - i) := (Nat.shiftLeft_add_eq_or_of_lt (by omega) _).symm
    _ = 256 * chain.Id.toNat + (254 - i) := by rw [Nat.shiftLeft_eq, Nat.mul_comm]

/-- The header that a packet carries when it comes to a position. -/
theorem sphAt_add_one_toNat {chain : CBChain} {i : ℕ} (hid : chain.Id.toNat < 2 ^ 24)
    (hi : i ≤ 254) : (sphAt chain i + 1).toNat = 256 * chain.Id.toNat + (255 - i) := by
  have hone : (1 : BitVec 32).toNat = 1 := rfl
  calc (sphAt chain i + 1).toNat = ((sphAt chain i).toNat + 1) % 2 ^ 32 := by
        rw [BitVec.toNat_add, hone]
    _ = (256 * chain.Id.toNat + (254 - i) + 1) % 2 ^ 32 := by rw [sphAt_toNat hid hi]
    _ = 256 * chain.Id.toNat + (255 - i) := by omega

/-! ## Keys that decode -/

/-- A word of 32 bits is the service path header of this Id and this index, as numbers. -/
def Decodes (v : BitVec 32) (id : BitVec 32) (si : ℤ) : Prop :=
  v.toNat / 256 = id.toNat ∧ ((v.toNat % 256 : ℕ) : ℤ) = si

/-- Every key decodes to the Id and the position of its rule, different positions have different
keys, and every proxy rule has the header that a packet carries at its position. -/
structure KeysDecode (parseIP : ParseIP) (cbm : CBManager) (cfg : CBConfig) : Prop where
  fwd : ∀ (p : Pos cfg) r, p.Forwards cbm r → Decodes r.Key p.chain.Id (254 - (p.i : ℤ))
  distinct : ∀ (p q : Pos cfg) r s, p.Forwards cbm r → q.Forwards cbm s → r.Key = s.Key → p = q
  proxy : ∀ (p : Pos cfg) r, p.Proxies parseIP r → Decodes r.Val p.chain.Id (255 - (p.i : ℤ))

section

variable {parseIP : ParseIP} {cbm : CBManager} {cfg : CBConfig}
  (hgen : ∀ chain ∈ cfg.Chains, Generates parseIP cfg chain)

include hgen

/-- If the keys decode, then the Id and the length of every chain with nodes fit: its last position
has a rule. -/
theorem KeysDecode.fits (hdec : KeysDecode parseIP cbm cfg) {chain : CBChain}
    (hc : chain ∈ cfg.Chains) (hne : chain.Nodes ≠ []) :
    chain.Id.toNat < 2 ^ 24 ∧ chain.Nodes.length ≤ 255 := by
  obtain ⟨c, hlt, rfl⟩ := List.getElem_of_mem hc
  have hpos : 0 < (cfg.Chains[c]).Nodes.length := List.length_pos_iff.2 hne
  let p : Pos cfg := ⟨⟨c, hlt⟩, ⟨(cfg.Chains[c]).Nodes.length - 1, by
    show _ < (cfg.Chains[c]).Nodes.length
    omega⟩⟩
  have hlast : cfg.linked p.chain p.i = false := linked_last (by
    show (cfg.Chains[c]).Nodes.length ≤ (cfg.Chains[c]).Nodes.length - 1 + 1
    omega)
  obtain ⟨r, hr, -⟩ := exists_fwdRulesAt cbm hlast
  obtain ⟨hid, hsi⟩ := hdec.fwd p r ((Pos.forwards_iff hgen).2 hr)
  have hkey := r.Key.isLt
  have hindex : (p.i : ℕ) = (cfg.Chains[c]).Nodes.length - 1 := rfl
  have hchain : p.chain = cfg.Chains[c] := rfl
  rw [hchain] at hid
  rw [hindex] at hsi
  constructor <;> omega

/-- If the keys decode, then unlinked positions at the same place of chains with the same Id are the
same, as their rules have the same key. -/
theorem KeysDecode.eq_of_same_place (hdec : KeysDecode parseIP cbm cfg) {p q : Pos cfg}
    (hp : ¬ p.Linked) (hq : ¬ q.Linked) (hid : p.chain.Id = q.chain.Id) (hi : p.i.1 = q.i.1) :
    p = q := by
  have hp' : cfg.linked p.chain p.i = false := by simpa [Pos.Linked] using hp
  have hq' : cfg.linked q.chain q.i = false := by simpa [Pos.Linked] using hq
  obtain ⟨r, hr, hrk⟩ := exists_fwdRulesAt cbm hp'
  obtain ⟨s, hs, hsk⟩ := exists_fwdRulesAt cbm hq'
  refine hdec.distinct p q r s ((Pos.forwards_iff hgen).2 hr) ((Pos.forwards_iff hgen).2 hs) ?_
  rw [hrk, hsk, sphAt, sphAt, hid, hi]

/-- A proxy rule of a position has the header that a packet carries when it comes there. -/
theorem Pos.Proxies.val_eq {p : Pos cfg} {r : ProxyRule} (h : p.Proxies parseIP r) :
    r.Val = sphAt p.chain p.i + 1 := by
  have hr := (Pos.proxies_iff hgen).1 h
  unfold proxyRulesAt at hr
  split_ifs at hr
  · obtain ⟨flow, -, hflow⟩ := List.mem_filterMap.1 hr
    obtain ⟨t, -, rfl⟩ := Option.map_eq_some_iff.1 hflow
    rfl
  · simp at hr

/-- Keys of Ids and positions that fit decode. -/
theorem keysDecode_of_fits
    (hfit : ∀ p : Pos cfg, p.chain.Id.toNat < 2 ^ 24 ∧ (p.i : ℕ) ≤ 254)
    (hdistinct : ∀ p q : Pos cfg, ¬ p.Linked → ¬ q.Linked → p.chain.Id = q.chain.Id →
      p.i.1 = q.i.1 → p = q) :
    KeysDecode parseIP cbm cfg := by
  have hkey (p : Pos cfg) : (sphAt p.chain p.i).toNat =
      256 * p.chain.Id.toNat + (254 - (p.i : ℕ)) := sphAt_toNat (hfit p).1 (hfit p).2
  refine ⟨fun p r hr => ?_, fun p q r s hr hs hrs => ?_, fun p r hr => ?_⟩
  · obtain ⟨-, hrk⟩ := mem_fwdRulesAt ((Pos.forwards_iff hgen).1 hr)
    obtain ⟨hid, hi⟩ := hfit p
    rw [Decodes, hrk, hkey]
    constructor <;> omega
  · obtain ⟨hp, hrk⟩ := mem_fwdRulesAt ((Pos.forwards_iff hgen).1 hr)
    obtain ⟨hq, hsk⟩ := mem_fwdRulesAt ((Pos.forwards_iff hgen).1 hs)
    have heq : 256 * p.chain.Id.toNat + (254 - (p.i : ℕ)) =
        256 * q.chain.Id.toNat + (254 - (q.i : ℕ)) := by
      calc 256 * p.chain.Id.toNat + (254 - (p.i : ℕ)) = r.Key.toNat := by rw [hrk, hkey]
        _ = s.Key.toNat := by rw [hrs]
        _ = 256 * q.chain.Id.toNat + (254 - (q.i : ℕ)) := by rw [hsk, hkey]
    -- An index takes no more than its byte, so the Ids and the positions are the same.
    obtain ⟨hpid, hpi⟩ := hfit p
    obtain ⟨hqid, hqi⟩ := hfit q
    refine hdistinct p q (by simp [Pos.Linked, hp]) (by simp [Pos.Linked, hq]) ?_ (by omega)
    apply BitVec.eq_of_toNat_eq
    omega
  · obtain ⟨hid, hi⟩ := hfit p
    rw [Decodes, hr.val_eq hgen, sphAt_add_one_toNat hid hi]
    constructor <;> omega

end

/-- In an accepted configuration the keys decode exactly if the Id of every chain with nodes is less
than `2 ^ 24` and its length at most 255, and no two chains of the same Id have unlinked positions
at the same place. -/
theorem keys_decode_iff (parseIP : ParseIP) (order : List String → List String) (cbm : CBManager)
    (cfg : CBConfig) (h : (installConfiguration parseIP order cbm cfg).result = .nil) :
    KeysDecode parseIP cbm cfg ↔
      (∀ chain ∈ cfg.Chains, chain.Nodes ≠ [] →
        chain.Id.toNat < 2 ^ 24 ∧ chain.Nodes.length ≤ 255) ∧
      ∀ p q : Pos cfg, ¬ p.Linked → ¬ q.Linked → p.chain.Id = q.chain.Id → p.i.1 = q.i.1 →
        p = q := by
  obtain ⟨-, hgen, -⟩ := of_installConfiguration_nil h
  constructor
  · intro hdec
    exact ⟨fun chain hc hne => hdec.fits hgen hc hne,
      fun p q hp hq hid hi => hdec.eq_of_same_place hgen hp hq hid hi⟩
  · rintro ⟨hfits, hdistinct⟩
    -- Every Id and every position fit.
    refine keysDecode_of_fits hgen (fun p => ?_) hdistinct
    have hlt : (p.i : ℕ) < p.chain.Nodes.length := p.i.2
    obtain ⟨hid, hlen⟩ := hfits _ p.chain_mem (List.length_pos_iff.1 (by omega))
    omega

/-! ## Two configurations -/

/-- The keys of two chains that share nodes decode. -/
theorem keys_decode_mixed : KeysDecode parsePing mixedManager mixedConfig :=
  (keys_decode_iff parsePing id mixedManager mixedConfig (by decide)).2 ⟨by decide, by decide⟩

/-- One chain of one function, with an Id of 25 bits. -/
def wideConfig : CBConfig where
  Chains := [⟨0x1000001, ["fw"], [pingFlow]⟩]
  Functions := [⟨"fw", false⟩]

/-- The configuration is accepted, and the key of its rule has another Id. -/
theorem not_keys_decode_wide :
    (installConfiguration parsePing id pairManager wideConfig).result = .nil ∧
      ¬ KeysDecode parsePing pairManager wideConfig := by
  refine ⟨by decide, fun h => ?_⟩
  let p : Pos wideConfig := ⟨⟨0, by decide⟩, ⟨0, by decide⟩⟩
  have hkey : p.Forwards pairManager ⟨0x1FE, ⟨1, zeroMac⟩⟩ := ⟨_, rfl, by decide⟩
  exact absurd (h.fwd p _ hkey).1 (by decide)

end ChainingBox
