import ChainingBox.Dataplane.OneHop

/-!
# Which path a packet continues on

Between Dec and Enc the NSH of a packet is kept in `nsh_data`, under the 5-tuple of the inner packet
and nothing else. This module runs the two stages of one node interleaved, for any number of
packets, and asks whether Enc puts every packet back on the path it came on (`KeepsPath`).

It does as long as the packets of one flow that are inside the node at the same time came with the
same service path header: `keepsPath_along`, by the invariant `Remembered`, which says that the
table holds, for each packet inside, an NSH with that packet's path. `overtaken` is the other side:
a packet that arrives on another path, while one of the same flow is inside, takes that one onto its
own path. A node that occurs twice in a chain sees such packets whenever two packets of a flow
follow each other closely.
-/

namespace ChainingBox

open Lib

/-- The service path identifier of a service path header. -/
def spiOf (sph : BitVec 32) : BitVec 32 := sph >>> 8

/-- A packet between Dec and Enc: the NSH it came with, and its 5-tuple. -/
structure Visit where
  nsh : Nsh
  key : Ip5tuple

/-- A node with packets inside, by number. -/
structure PathState where
  nsh_data : NshData
  inside : ℕ → Option Visit

/-- Dec runs on the frame of packet `p`, or Enc and Fwd run on what the service function made of
packet `p`. -/
inductive PathEvent
  | decap (p : ℕ) (frame : Bytes)
  | encap (p : ℕ) (out : Bytes)

/-- The NSH and the 5-tuple that Dec finds in a frame, if it accepts it. -/
def visitOf (sm : SrcMac) (nd : NshData) (frame : Bytes) : Option Visit :=
  let out := decapNsh sm nd frame
  if out.frame.length < frame.length then
    (getTuple (out.frame.drop 14)).map
      (⟨slice frame (frame.length - out.frame.length - 24) 24, ·⟩)
  else none

/-- One atomic run of a stage. -/
def pathStep (sm : SrcMac) (s : PathState) : PathEvent → PathState
  | .decap p frame =>
    { nsh_data := (decapNsh sm s.nsh_data frame).nsh_data
      inside := Function.update s.inside p (visitOf sm s.nsh_data frame) }
  | .encap p _ => { s with inside := Function.update s.inside p none }

/-- A packet that came with `nsh` is kept on its path: if it is emitted with an NSH, then with its
own SPI and its own SI minus one, under an entry that is no end; if it is emitted without one, then
at an end of chain; and if it is dropped, then because there is no entry for its path, or no room. -/
def KeepsPath (k : Kernel) (m : NodeMaps) (nsh : Nsh) (out : Bytes) : Egress → Prop
  | .chained f =>
    (∃ e, m.fwd_table.lookup (htonl (nsh.path - 1)) = some e ∧ ¬ e.isEnd) ∧
      spiOf (Nsh.path (slice f 14 24)) = spiOf nsh.path ∧
      siOf (Nsh.path (slice f 14 24)) = siOf nsh.path - 1
  | .plain _ => EndEntry m nsh
  | .dropped => m.fwd_table.lookup (htonl (nsh.path - 1)) = none ∨ ¬ k.grantsRoom out

/-- At a run of Enc, the packet is kept on its path. -/
def KeptAt (k : Kernel) (m : NodeMaps) (s : PathState) : PathEvent → Prop
  | .decap _ _ => True
  | .encap p out => ∀ v, s.inside p = some v →
      KeepsPath k m v.nsh out (egress k { m with nsh_data := s.nsh_data } out)

/-- The runs that are looked at. Dec runs on a packet that is not inside, accepts it, and has room
for its flow; its inner packet is IPv4 and its SI at least 1. Enc runs on a packet inside, and the
service function has left it an IPv4 packet of the same flow. -/
def Proper (m : NodeMaps) (s : PathState) : PathEvent → Prop
  | .decap p frame => s.inside p = none ∧ ∃ off key, Accepts m.src_mac.ingress frame off key ∧
      s.nsh_data.Room key ∧ load16 frame (off + 36) = htons ETH_P_IP ∧
      siOf (Nsh.path (slice frame off 24)) ≠ 0
  | .encap p out => ∃ v, s.inside p = some v ∧ 34 ≤ out.length ∧
      load16 out 12 = htons ETH_P_IP ∧ getTuple (out.drop 14) = some v.key

/-- When Dec runs on a packet, the packets of its flow that are inside came with the same service
path header. -/
def OnePath (m : NodeMaps) (s : PathState) : PathEvent → Prop
  | .decap _ frame => ∀ off key, Accepts m.src_mac.ingress frame off key →
      ∀ q v, s.inside q = some v → v.key = key → v.nsh.path = Nsh.path (slice frame off 24)
  | .encap _ _ => True

/-! ## The law of the egress stages -/

/-- Decrementing a service path header keeps its SPI and decrements its SI. -/
theorem path_sub_one {sph : BitVec 32} (h : siOf sph ≠ 0) :
    spiOf (sph - 1) = spiOf sph ∧ siOf (sph - 1) = siOf sph - 1 := by
  have hpos : sph.toNat % 256 ≠ 0 := by
    intro h0
    apply h
    rw [← BitVec.toNat_inj, siOf_toNat, h0]
    rfl
  have hlt := sph.isLt
  -- Nothing is borrowed from the SPI.
  have hsub : (sph - 1).toNat = sph.toNat - 1 := by
    rw [BitVec.toNat_sub]
    have hone : (1 : BitVec 32).toNat = 1 := rfl
    rw [hone]
    omega
  constructor
  · rw [← BitVec.toNat_inj]
    simp only [spiOf, BitVec.toNat_ushiftRight, hsub, Nat.shiftRight_eq_div_pow]
    omega
  · rw [← BitVec.toNat_inj, siOf_toNat, hsub, BitVec.toNat_sub, siOf_toNat]
    have hone : (1 : BitVec 32).toNat = 1 := rfl
    rw [hone]
    omega

/-- Equal SPI and equal SI make equal service path headers. -/
theorem path_ext {x y : BitVec 32} (hspi : spiOf x = spiOf y) (hsi : siOf x = siOf y) : x = y := by
  rw [← BitVec.toNat_inj] at hspi hsi ⊢
  simp only [spiOf, BitVec.toNat_ushiftRight, Nat.shiftRight_eq_div_pow,
    siOf_toNat] at hspi hsi
  omega

/-- What the egress stages do under a saved NSH keeps every packet that came with the same path. -/
theorem keepsPath_egressSpec {k : Kernel} {m : NodeMaps} {nsh nsh' : Nsh} {out : Bytes}
    (hpath : nsh'.path = nsh.path) (hsi : siOf nsh.path ≠ 0) :
    KeepsPath k m nsh out (egressSpec k m nsh' out) := by
  unfold egressSpec
  rw [hpath, if_neg hsi]
  cases he : m.fwd_table.lookup (htonl (nsh.path - 1)) with
  | none => exact Or.inl he
  | some e =>
    by_cases hend : e.isEnd
    · simp only [hend, if_true]
      exact ⟨hsi, e, he, hend⟩
    · by_cases hk : k.grantsRoom out
      · simp only [hend, Bool.false_eq_true, if_false, hk, if_true]
        refine ⟨⟨e, he, hend⟩, ?_⟩
        rw [slice_nshFrame, Nsh.path_withPath]
        exact path_sub_one hsi
      · simp only [hend, Bool.false_eq_true, if_false, hk]
        exact Or.inr hk

/-! ## The invariant -/

/-- For each packet inside, `nsh_data` holds an NSH with its path. -/
def Remembered (s : PathState) : Prop :=
  ∀ p v, s.inside p = some v → siOf v.nsh.path ≠ 0 ∧
    ∃ nsh, s.nsh_data.lookup v.key = some nsh ∧ nsh.path = v.nsh.path

/-- The visit of a frame that Dec accepts. -/
theorem visitOf_of_accepts {sm : SrcMac} {frame : Bytes} {off : ℕ} {key : Ip5tuple}
    (h : Accepts sm.ingress frame off key) (nd : NshData) :
    visitOf sm nd frame = some ⟨slice frame off 24, key⟩ := by
  have hroom := h.room
  unfold visitOf
  rw [decapNsh_of_accepts h]
  dsimp only
  rw [if_pos (by rw [List.length_drop]; omega), h.stripped_tuple, h.off_eq]
  rfl

/-- Dec keeps the invariant when every packet of the flow inside came with the same path. -/
theorem remembered_decap {m : NodeMaps} {s : PathState} {p : ℕ} {frame : Bytes}
    (hI : Remembered s) (hp : Proper m s (.decap p frame)) (h1 : OnePath m s (.decap p frame)) :
    Remembered (pathStep m.src_mac s (.decap p frame)) := by
  obtain ⟨-, off, key, ha, hroom, -, hsi⟩ := hp
  intro q v hq
  simp only [pathStep, visitOf_of_accepts ha, decapNsh_of_accepts ha] at hq ⊢
  obtain rfl | hne := eq_or_ne q p
  · -- The packet that has just arrived.
    rw [Function.update_self, Option.some.injEq] at hq
    subst hq
    exact ⟨hsi, _, BoundedMap.lookup_put_self _ hroom, rfl⟩
  · rw [Function.update_of_ne hne] at hq
    obtain ⟨hv, nsh, hlook, hpath⟩ := hI q v hq
    refine ⟨hv, ?_⟩
    by_cases hkey : v.key = key
    · -- Its entry is overwritten, with an NSH of the same path.
      refine ⟨slice frame off 24, ?_, (h1 off key ha q v hq hkey).symm⟩
      rw [hkey]
      exact BoundedMap.lookup_put_self _ hroom
    · exact ⟨nsh, by rw [BoundedMap.lookup_put_ne _ hkey, hlook], hpath⟩

/-- The invariant gives the law, and each proper step on one path keeps the invariant. -/
theorem remembered_step {k : Kernel} {m : NodeMaps} {s : PathState} {e : PathEvent}
    (hI : Remembered s) (hC : Proper m s e ∧ OnePath m s e) :
    KeptAt k m s e ∧ Remembered (pathStep m.src_mac s e) := by
  obtain ⟨hp, h1⟩ := hC
  cases e with
  | decap p frame => exact ⟨trivial, remembered_decap hI hp h1⟩
  | encap p out =>
    obtain ⟨v', hv', hlen, hip, htup⟩ := hp
    constructor
    · intro v hv
      obtain rfl : v' = v := Option.some.inj (hv'.symm.trans hv)
      obtain ⟨hsi, nsh, hlook, hpath⟩ := hI p v' hv
      rw [@egress_saved k { m with nsh_data := s.nsh_data } _ _ nsh hlen hip htup hlook]
      exact keepsPath_egressSpec hpath hsi
    · intro q v hq
      obtain rfl | hne := eq_or_ne q p
      · simp only [pathStep, Function.update_self, reduceCtorEq] at hq
      · simp only [pathStep, Function.update_of_ne hne] at hq
        exact hI q v hq

/-- Any number of packets, in any order of their runs of Dec and Enc, from any contents of the
table: while the packets of one flow inside the node share their service path header, every packet
is kept on its path. -/
theorem keepsPath_along (k : Kernel) (m : NodeMaps) (es : List PathEvent)
    (hproper : Along (pathStep m.src_mac) (Proper m) ⟨m.nsh_data, fun _ => none⟩ es)
    (hone : Along (pathStep m.src_mac) (OnePath m) ⟨m.nsh_data, fun _ => none⟩ es) :
    Along (pathStep m.src_mac) (KeptAt k m) ⟨m.nsh_data, fun _ => none⟩ es := by
  have hinit : Remembered ⟨m.nsh_data, fun _ => none⟩ := by
    intro p v hv
    simp only [reduceCtorEq] at hv
  have hboth := (along_and _ es).2 ⟨hproper, hone⟩
  exact (along_of_invariant (fun s e hI hC => remembered_step hI hC) hinit hboth).1

/-! ## A packet overtaken inside the node -/

/-- A packet that arrives on another path while one of the same flow is inside takes it along: if
Enc runs next on the one inside, it emits it on the path of the other. -/
theorem overtaken {k : Kernel} {m : NodeMaps} {s : PathState} {p q : ℕ} {frame out : Bytes}
    {off : ℕ} {v : Visit} {e : FwdEntry} (hq : s.inside q = some v) (hne : q ≠ p)
    (ha : Accepts m.src_mac.ingress frame off v.key) (hroom : s.nsh_data.Room v.key)
    (hsi : siOf v.nsh.path ≠ 0) (hsi' : siOf (Nsh.path (slice frame off 24)) ≠ 0)
    (hpath : v.nsh.path ≠ Nsh.path (slice frame off 24))
    (he : m.fwd_table.lookup (htonl (Nsh.path (slice frame off 24) - 1)) = some e)
    (hend : ¬ e.isEnd) (hout : Proper m s (.encap q out)) (hk : k.grantsRoom out) :
    ¬ KeptAt k m (pathStep m.src_mac s (.decap p frame)) (.encap q out) := by
  obtain ⟨v', hv', hlen, hip, htup⟩ := hout
  obtain rfl : v' = v := Option.some.inj (hv'.symm.trans hq)
  intro hkept
  have hin : (pathStep m.src_mac s (.decap p frame)).inside q = some v' := by
    simp only [pathStep, Function.update_of_ne hne, hq]
  -- The saved header of the flow is now that of the other packet.
  have hlook := BoundedMap.lookup_put_self (slice frame off 24) hroom
  have hsent := hkept v' hin
  simp only [pathStep, decapNsh_of_accepts ha] at hsent
  rw [@egress_saved k { m with nsh_data := s.nsh_data.put v'.key (slice frame off 24) } _ _ _ hlen
    hip htup hlook, egressSpec, if_neg hsi', he] at hsent
  simp only [hend, Bool.false_eq_true, if_false, hk, if_true] at hsent
  obtain ⟨-, hspi, hsi1⟩ := hsent
  rw [slice_nshFrame, Nsh.path_withPath] at hspi hsi1
  obtain ⟨hd, hd'⟩ := path_sub_one hsi'
  apply hpath
  refine path_ext (hspi.symm.trans hd) ?_
  have hdec : siOf v'.nsh.path - 1 = siOf (Nsh.path (slice frame off 24)) - 1 := hsi1.symm.trans hd'
  rw [← BitVec.sub_add_cancel (siOf v'.nsh.path) 1, hdec, BitVec.sub_add_cancel]

/-- A node that occurs at positions 0 and 2 of chain 1. -/
def starNode : NodeMaps where
  src_mac := ⟨nodeMac, nodeMac'⟩
  nsh_data := .empty
  fwd_table := (BoundedMap.empty.put (htonl 0x1FE) ⟨0, nodeMac'⟩).put (htonl 0x1FC) ⟨0, nodeMac'⟩

/-- The node before any packet. -/
def starState : PathState := ⟨starNode.nsh_data, fun _ => none⟩

/-- The frame of a packet on a path of chain 1. -/
def onPath (inner : Bytes) (sph : BitVec 32) : Bytes :=
  nshFrame nodeMac zeroMac (proxyNsh sph noContext) inner

/-- The 5-tuple of `pingFrame`. -/
def pingKey : Ip5tuple := ⟨0x0100000A, 0x0200000A, 0, 0, IPPROTO_ICMP⟩

/-- An ICMP packet the other way. -/
def pongFrame : Bytes :=
  [0x02, 0, 0, 0, 0, 1, 0x02, 0, 0, 0, 0, 2, 0x08, 0x00,
    0x45, 0, 0, 20, 0, 0, 0, 0, 64, 1, 0, 0, 10, 0, 0, 2, 10, 0, 0, 1]

/-- The 5-tuple of `pongFrame`. -/
def pongKey : Ip5tuple := ⟨0x0200000A, 0x0100000A, 0, 0, IPPROTO_ICMP⟩

theorem pingFrame_ip : 34 ≤ pingFrame.length ∧ load16 pingFrame 12 = htons ETH_P_IP ∧
    getTuple (pingFrame.drop 14) = some pingKey := by
  decide

theorem pongFrame_ip : 34 ≤ pongFrame.length ∧ load16 pongFrame 12 = htons ETH_P_IP ∧
    getTuple (pongFrame.drop 14) = some pongKey := by
  decide

section onPath

variable {inner : Bytes} {key : Ip5tuple} (h : 34 ≤ inner.length ∧
  load16 inner 12 = htons ETH_P_IP ∧ getTuple (inner.drop 14) = some key)

include h

theorem accepts_onPath (sph : BitVec 32) :
    Accepts starNode.src_mac.ingress (onPath inner sph) 14 key :=
  accepts_nshFrame rfl rfl h.1 h.2.2

theorem visitOf_onPath (nd : NshData) (sph : BitVec 32) :
    visitOf starNode.src_mac nd (onPath inner sph) = some ⟨proxyNsh sph noContext, key⟩ := by
  rw [visitOf_of_accepts (accepts_onPath h sph), onPath, slice_nshFrame]

/-- Dec saves the header, and the packet is inside. -/
theorem pathStep_onPath (s : PathState) (p : ℕ) (sph : BitVec 32) :
    pathStep starNode.src_mac s (.decap p (onPath inner sph)) =
      ⟨s.nsh_data.put key (proxyNsh sph noContext),
        Function.update s.inside p (some ⟨proxyNsh sph noContext, key⟩)⟩ := by
  rw [pathStep, visitOf_onPath h, decapNsh_of_accepts (accepts_onPath h sph), onPath,
    slice_nshFrame]

end onPath

theorem path_onPath (inner : Bytes) (sph : BitVec 32) :
    Nsh.path (slice (onPath inner sph) 14 24) = sph := by
  rw [onPath, slice_nshFrame, proxyNsh_path]

/-- Dec runs on a packet with a path, when the table has room. -/
theorem proper_onPath {inner : Bytes} {key : Ip5tuple} (h : 34 ≤ inner.length ∧
    load16 inner 12 = htons ETH_P_IP ∧ getTuple (inner.drop 14) = some key) {s : PathState} {p : ℕ}
    {sph : BitVec 32} (hnew : s.inside p = none) (hroom : s.nsh_data.Room key)
    (hip : load16 (onPath inner sph) 50 = htons ETH_P_IP) (hsi : siOf sph ≠ 0) :
    Proper starNode s (.decap p (onPath inner sph)) :=
  ⟨hnew, 14, key, accepts_onPath h sph, hroom, hip, by rwa [path_onPath]⟩

theorem onePath_onPath {inner : Bytes} {key : Ip5tuple} (h : 34 ≤ inner.length ∧
    load16 inner 12 = htons ETH_P_IP ∧ getTuple (inner.drop 14) = some key) {s : PathState} (p : ℕ)
    {sph : BitVec 32} (hall : ∀ q v, s.inside q = some v → v.key = key → v.nsh.path = sph) :
    OnePath starNode s (.decap p (onPath inner sph)) := by
  intro off key' ha q v hv hkey
  obtain ⟨rfl, rfl⟩ := ha.unique (accepts_onPath h sph)
  rw [path_onPath]
  exact hall q v hv hkey

/-- What holds of the packet that comes in and of those inside. -/
theorem inside_update {P : Visit → Prop} {inside : ℕ → Option Visit} {w : Visit} (hw : P w)
    (hall : ∀ q v, inside q = some v → P v) (p q : ℕ) (v : Visit)
    (hv : Function.update inside p (some w) q = some v) : P v := by
  obtain rfl | hne := eq_or_ne q p
  · rw [Function.update_self, Option.some.injEq] at hv
    exact hv ▸ hw
  · rw [Function.update_of_ne hne] at hv
    exact hall q v hv

/-- Two packets of one flow on one path, and a reply on another one, all inside at once. They leave
in another order. -/
def crossingRun : List PathEvent :=
  [.decap 1 (onPath pingFrame 0x1FF), .decap 2 (onPath pingFrame 0x1FF),
    .decap 3 (onPath pongFrame 0x1FD), .encap 2 pingFrame, .encap 3 pongFrame, .encap 1 pingFrame]

/-- The packets cross in the node, and each is kept on its path. -/
theorem keepsPath_crossing :
    Along (pathStep starNode.src_mac) (KeptAt grantingKernel starNode) starState crossingRun := by
  refine keepsPath_along grantingKernel starNode crossingRun ?_ ?_
  · refine ⟨proper_onPath pingFrame_ip rfl (Or.inr (by decide)) rfl (by decide), ?_⟩
    rw [pathStep_onPath pingFrame_ip]
    refine ⟨proper_onPath pingFrame_ip rfl (Or.inr (by decide)) rfl (by decide), ?_⟩
    rw [pathStep_onPath pingFrame_ip]
    refine ⟨proper_onPath pongFrame_ip rfl (Or.inr (by decide)) rfl (by decide), ?_⟩
    rw [pathStep_onPath pongFrame_ip]
    exact ⟨⟨⟨proxyNsh 0x1FF noContext, pingKey⟩, rfl, pingFrame_ip⟩,
      ⟨⟨proxyNsh 0x1FD noContext, pongKey⟩, rfl, pongFrame_ip⟩,
      ⟨⟨proxyNsh 0x1FF noContext, pingKey⟩, rfl, pingFrame_ip⟩, trivial⟩
  · -- The two packets of one flow came on one path, and the third is of another flow.
    refine ⟨onePath_onPath pingFrame_ip 1 fun q v hv => by simp only [reduceCtorEq] at hv, ?_⟩
    rw [pathStep_onPath pingFrame_ip]
    refine ⟨onePath_onPath pingFrame_ip 2 (inside_update (fun _ => proxyNsh_path _ _)
      (fun q v hv => by simp only [reduceCtorEq] at hv) 1), ?_⟩
    rw [pathStep_onPath pingFrame_ip]
    have hping : pingKey ≠ pongKey := by decide
    refine ⟨onePath_onPath pongFrame_ip 3 (inside_update (fun hkey => absurd hkey hping)
      (inside_update (fun hkey => absurd hkey hping)
        (fun q v hv => by simp only [reduceCtorEq] at hv) 1) 2), trivial, trivial, trivial, trivial⟩

/-- Two packets of one flow on one chain. The second arrives at position 2 while the first is still
inside at position 0, and the first leaves the node on the path of position 3. -/
def starRun : List PathEvent :=
  [.decap 1 (onPath pingFrame 0x1FF), .decap 2 (onPath pingFrame 0x1FD), .encap 1 pingFrame]

/-- The run is proper, and the first packet is not kept on its path. -/
theorem not_keepsPath_star :
    Along (pathStep starNode.src_mac) (Proper starNode) starState starRun ∧
      ¬ Along (pathStep starNode.src_mac) (KeptAt grantingKernel starNode) starState starRun := by
  -- The state once the first packet is inside.
  let ping : Visit := ⟨proxyNsh 0x1FF noContext, pingKey⟩
  let s₁ := pathStep starNode.src_mac starState (.decap 1 (onPath pingFrame 0x1FF))
  have hin : s₁.inside 1 = some ping := by
    simp only [s₁, ping, pathStep_onPath pingFrame_ip, Function.update_self]
  have hroom : s₁.nsh_data.Room pingKey := by
    simp only [s₁, pathStep_onPath pingFrame_ip]
    exact Or.inl (BoundedMap.mem_put.2 (Or.inr ⟨rfl, by decide⟩))
  refine ⟨⟨proper_onPath pingFrame_ip rfl (Or.inr (by decide)) rfl (by decide),
    proper_onPath pingFrame_ip ?_ hroom rfl (by decide), ⟨ping, ?_, pingFrame_ip⟩, trivial⟩,
    fun h => ?_⟩
  · rw [pathStep_onPath pingFrame_ip]
    rfl
  · show (pathStep starNode.src_mac s₁ (.decap 2 (onPath pingFrame 0x1FD))).inside 1 = some ping
    rw [pathStep_onPath pingFrame_ip]
    dsimp only
    rw [Function.update_of_ne (by decide), hin]
  · refine overtaken (s := s₁) (p := 2) (q := 1) (e := ⟨0, nodeMac'⟩) hin (by decide)
      (accepts_onPath pingFrame_ip 0x1FD) hroom ?_ ?_ ?_ ?_ (by decide)
      ⟨ping, hin, pingFrame_ip⟩ rfl h.2.2.1
    · rw [proxyNsh_path]
      decide
    · rw [path_onPath]
      decide
    · rw [path_onPath, proxyNsh_path]
      decide
    · rw [path_onPath]
      rfl

end ChainingBox
