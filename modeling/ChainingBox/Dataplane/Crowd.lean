import ChainingBox.Dataplane.Travel
import ChainingBox.Lib.Schedules

/-!
# Many packets in flight

Any number of packets, from node to node under any forwarding tables and along any routes. They
share the `nsh_data` of the nodes, so a packet may be re-encapsulated under the NSH that Dec has
saved for another packet of its flow, and one packet alone is not bounded by its service index any
more. `crowd_ends` bounds all of them together: Dec can raise what the packets at a node have left,
but not above what the packet that it saves the NSH of has just given up.

`ipKey` and `wireKey` are the flows under which Enc and Dec look a frame up.
-/

namespace ChainingBox

open Lib

/-! ## The flow of a frame -/

/-- The key under which Enc looks a frame up. -/
def ipKey (frame : Bytes) : Option Ip5tuple :=
  if load16 frame 12 = htons ETH_P_IP then getTuple (frame.drop 14) else none

/-- Whether a frame has the EtherType of NSH or an 802.1Q tag. -/
def mayBeNsh (frame : Bytes) : Bool :=
  htons (load16 frame 12) = ETH_P_NSH || htons (load16 frame 12) = ETH_P_8021Q

/-- The key under which the stages can look a frame up that comes from the network: Dec that of the
inner packet, or Enc that of a frame which Dec leaves as it is. -/
def wireKey (frame : Bytes) : Option Ip5tuple :=
  if mayBeNsh frame then
    getTuple (frame.drop ((if htons (load16 frame 12) = ETH_P_8021Q then 18 else 14) + 38))
  else ipKey frame

theorem ipKey_of_mayBeNsh {frame : Bytes} (h : mayBeNsh frame) : ipKey frame = none := by
  have hne : htons (htons ETH_P_IP) ≠ ETH_P_NSH ∧ htons (htons ETH_P_IP) ≠ ETH_P_8021Q := by decide
  rw [mayBeNsh, Bool.or_eq_true, decide_eq_true_eq, decide_eq_true_eq] at h
  refine if_neg fun hip => ?_
  rw [hip] at h
  exact h.elim hne.1 hne.2

theorem mayBeNsh_of_accepts {mac : Mac} {frame : Bytes} {off : ℕ} {key : Ip5tuple}
    (h : Accepts mac frame off key) : mayBeNsh frame := by
  rw [mayBeNsh, Bool.or_eq_true, decide_eq_true_eq, decide_eq_true_eq]
  exact h.place.imp And.left And.left

theorem wireKey_of_accepts {mac : Mac} {frame : Bytes} {off : ℕ} {key : Ip5tuple}
    (h : Accepts mac frame off key) : wireKey frame = some key := by
  rw [wireKey, if_pos (mayBeNsh_of_accepts h), ← nsh_place h.place]
  exact h.tuple

/-- A stripped frame has the key that Dec saves its NSH under, unless it is not IPv4. -/
theorem ipKey_stripped {mac : Mac} {frame : Bytes} {off : ℕ} {key key' : Ip5tuple}
    (h : Accepts mac frame off key) (hkey : ipKey (frame.drop (off + 24)) = some key') :
    key' = key := by
  unfold ipKey at hkey
  split_ifs at hkey
  rw [h.stripped_tuple] at hkey
  exact (Option.some.inj hkey).symm

theorem mayBeNsh_nshFrame (dst src : Mac) (nsh : Nsh) (inner : Bytes) :
    mayBeNsh (nshFrame dst src nsh inner) := by
  rw [mayBeNsh, load16_nshFrame]
  exact Bool.or_eq_true_iff.2 (Or.inl (decide_eq_true (bswap16_bswap16 _)))

theorem wireKey_nshFrame (dst src : Mac) (nsh : Nsh) (inner : Bytes) :
    wireKey (nshFrame dst src nsh inner) = getTuple (inner.drop 14) := by
  have hproto : htons (htons ETH_P_NSH) = ETH_P_NSH := bswap16_bswap16 _
  have hskip : 14 + 38 = 38 + 14 := rfl
  rw [wireKey, if_pos (mayBeNsh_nshFrame ..), load16_nshFrame, hproto, if_neg ETH_P_NSH_ne, hskip,
    ← List.drop_drop, drop_nshFrame_38]

/-- A frame without a key is passed along as it is. -/
theorem egress_of_ipKey_none {k : Kernel} {m : NodeMaps} {frame : Bytes} (h : ipKey frame = none) :
    egress k m frame = .plain frame := by
  by_cases hip : load16 frame 12 = htons ETH_P_IP
  · rw [ipKey, if_pos hip] at h
    have henc : encapNsh k m frame = ⟨cbRetok .ok, frame⟩ := by
      unfold encapNsh
      rw [if_neg (not_not.2 hip), h]
      exact ite_self _
    rw [egress, henc]
    rfl
  · exact egress_not_ip hip

/-- The egress stages read the addresses, the forwarding table, and the one NSH that is saved under
the frame's key. -/
theorem egress_congr {k : Kernel} {m m' : NodeMaps} {frame : Bytes} (hmac : m.src_mac = m'.src_mac)
    (hfwd : m.fwd_table = m'.fwd_table)
    (hsaved : ∀ key, ipKey frame = some key → m.nsh_data.lookup key = m'.nsh_data.lookup key) :
    egress k m frame = egress k m' frame := by
  cases hkey : ipKey frame with
  | none => rw [egress_of_ipKey_none hkey, egress_of_ipKey_none hkey]
  | some key =>
    have hsame := hsaved key hkey
    unfold ipKey at hkey
    split_ifs at hkey with hip
    have hl := header_of_getTuple hkey
    cases hlook : m.nsh_data.lookup key with
    | none =>
      rw [egress_unsaved hl hip hkey hlook, egress_unsaved hl hip hkey (hsame ▸ hlook), hmac]
    | some nsh =>
      rw [egress_saved hl hip hkey hlook, egress_saved hl hip hkey (hsame ▸ hlook), egressSpec,
        egressSpec, hmac, hfwd]

/-- A frame that leaves encapsulated does so under the NSH that is saved for its flow, one hop on, and
keeps the key of the flow. -/
theorem of_egress_chained {k : Kernel} {m : NodeMaps} {frame f : Bytes}
    (h : egress k m frame = .chained f) :
    ∃ key nsh, ipKey frame = some key ∧ m.nsh_data.lookup key = some nsh ∧ mayBeNsh f ∧
      wireKey f = some key ∧ OneHopOn nsh.path (arrivalPath f) := by
  cases hkey : ipKey frame with
  | none =>
    rw [egress_of_ipKey_none hkey] at h
    exact absurd h (by simp)
  | some key =>
    have htuple := hkey
    unfold ipKey at htuple
    split_ifs at htuple with hip
    have hl := header_of_getTuple htuple
    cases hlook : m.nsh_data.lookup key with
    | none =>
      rw [egress_unsaved hl hip htuple hlook] at h
      exact absurd h (by simp)
    | some nsh =>
      have hhop := ((egress_oneHopOn hl hip htuple hlook).2 f h).2
      rw [egress_saved hl hip htuple hlook, egressSpec] at h
      refine ⟨key, nsh, rfl, hlook, ?_⟩
      cases he : m.fwd_table.lookup (htonl (nsh.path - 1)) with
      | none =>
        rw [he] at h
        split_ifs at h
      | some e =>
        simp only [he] at h
        split_ifs at h
        obtain rfl := Egress.chained.inj h
        exact ⟨mayBeNsh_nshFrame .., (wireKey_nshFrame ..).trans htuple, hhop⟩

/-! ## What Dec does for a flow -/

section decap

variable (sm : SrcMac) (nd nd' : NshData) (frame : Bytes)

/-- Dec does not send a frame back. -/
theorem decapNsh_ne_tx : (decapNsh sm nd frame).ret.code ≠ .tx := by
  have hmac : sm.lookup SrcmacIdx.ingressMac.key = some sm.ingress := rfl
  unfold decapNsh
  rw [hmac]
  dsimp only
  generalize (if htons (load16 frame 12) = ETH_P_8021Q then 14 + 4 else 14) = off
  cases getTuple (frame.drop (off + 24 + 14)) with
  | none =>
    dsimp only
    split_ifs <;> simp
  | some key =>
    dsimp only
    split_ifs <;> simp

/-- What Dec does with a frame does not depend on what is saved. -/
theorem decapNsh_congr : (decapNsh sm nd frame).ret = (decapNsh sm nd' frame).ret ∧
    (decapNsh sm nd frame).frame = (decapNsh sm nd' frame).frame := by
  have hmac : sm.lookup SrcmacIdx.ingressMac.key = some sm.ingress := rfl
  unfold decapNsh
  rw [hmac]
  dsimp only
  generalize (if htons (load16 frame 12) = ETH_P_8021Q then 14 + 4 else 14) = off
  cases getTuple (frame.drop (off + 24 + 14)) with
  | none =>
    dsimp only
    split_ifs <;> exact ⟨rfl, rfl⟩
  | some key =>
    dsimp only
    split_ifs <;> exact ⟨rfl, rfl⟩

variable {sm nd nd' frame}

/-- The frame that Dec hands on has no other key than the one that came. -/
theorem wireKey_of_handed {key : Ip5tuple} (h : ipKey (decapNsh sm nd frame).frame = some key) :
    wireKey frame = some key := by
  rcases decapNsh_cases sm nd frame with ⟨off, key', ha, hout⟩ | ⟨-, code, hout⟩
  · rw [hout] at h
    rw [wireKey_of_accepts ha, ipKey_stripped ha h]
  · rw [hout] at h
    have hmay : ¬ mayBeNsh frame := by
      intro hmay
      rw [ipKey_of_mayBeNsh hmay] at h
      exact absurd h (by simp)
    rw [wireKey, if_neg hmay]
    exact h

/-- What Dec leaves under a key depends on what was there. -/
theorem lookup_decapNsh_congr {key : Ip5tuple} (hroom : wireKey frame = some key → nd.Room key)
    (hroom' : wireKey frame = some key → nd'.Room key) (hsame : nd.lookup key = nd'.lookup key) :
    (decapNsh sm nd frame).nsh_data.lookup key = (decapNsh sm nd' frame).nsh_data.lookup key := by
  rcases decapNsh_cases sm nd frame with ⟨off, key', ha, -⟩ | ⟨hnot, -⟩
  · rw [decapNsh_of_accepts ha, decapNsh_of_accepts ha]
    dsimp only
    rw [BoundedMap.lookup_put, BoundedMap.lookup_put]
    by_cases hkey : key = key'
    · subst hkey
      have hwire := wireKey_of_accepts ha
      rw [if_pos ⟨rfl, hroom hwire⟩, if_pos ⟨rfl, hroom' hwire⟩]
    · rw [if_neg fun h => hkey h.1, if_neg fun h => hkey h.1]
      exact hsame
  · obtain ⟨code, hout⟩ := decapNsh_of_not_accepts hnot nd
    obtain ⟨code', hout'⟩ := decapNsh_of_not_accepts hnot nd'
    rw [hout, hout']
    exact hsame

/-- Dec leaves what is saved under other keys. -/
theorem lookup_decapNsh_ne {key : Ip5tuple} (hkey : wireKey frame ≠ some key) :
    (decapNsh sm nd frame).nsh_data.lookup key = nd.lookup key := by
  rcases decapNsh_cases sm nd frame with ⟨off, key', ha, hout⟩ | ⟨-, code, hout⟩
  · rw [hout]
    refine BoundedMap.lookup_put_ne _ ?_
    rintro rfl
    exact hkey (wireKey_of_accepts ha)
  · rw [hout]

/-- Dec uses the room that there is for its key. -/
theorem spare_decapNsh {keys : List Ip5tuple} (hkeys : ∀ key, wireKey frame = some key → key ∈ keys)
    (h : nd.Spare keys) : (decapNsh sm nd frame).nsh_data.Spare keys := by
  rcases decapNsh_cases sm nd frame with ⟨off, key, ha, hout⟩ | ⟨-, code, hout⟩
  · rw [hout]
    exact h.put (hkeys key (wireKey_of_accepts ha)) _
  · rw [hout]
    exact h

end decap

/-! ## The packets -/

/-- Where a packet is: on its way to a node, or handed to the service function of one, or out of the
chain. -/
inductive Whereabouts (ι : Type)
  | wire (frame : Bytes)
  | inside (n : ι) (frame : Bytes)
  | out

/-- A packet with the nodes that it comes to, whatever decides about them. -/
structure Roamer (ι : Type) where
  place : Whereabouts ι
  route : ℕ → ι

namespace Roamer

variable {ι : Type}

/-- The packet is in the chain. -/
def active (p : Roamer ι) : Bool :=
  match p.place with
  | .out => false
  | _ => true

/-- One step of a packet: Dec at the node that it comes to, or the egress stages of the node whose
service function has returned it. -/
def step [DecidableEq ι] (k : ι → Kernel) (net : ι → NodeMaps) (p : Roamer ι) :
    (ι → NodeMaps) × Roamer ι :=
  match p.place with
  | .wire frame =>
    let n := p.route 0
    let dec := decapNsh (net n).src_mac (net n).nsh_data frame
    (withNshData net n dec.nsh_data,
      { place := match dec.ret.code with
          | .pass => .inside n dec.frame
          | .drop => .out
          | .tx => .wire dec.frame
        route := fun i => p.route (i + 1) })
  | .inside n frame =>
    (net,
      { place := match egress (k n) (net n) frame with
          | .chained f => .wire f
          | _ => .out
        route := p.route })
  | .out => (net, p)

/-- The service index that the node has saved for a frame. -/
def savedIndex (m : NodeMaps) (frame : Bytes) : ℕ :=
  match (ipKey frame).bind m.nsh_data.lookup with
  | none => 0
  | some nsh => (siOf nsh.path).toNat

/-- How far a packet is from its end: twice the service index under which it goes on, and one more
before Dec. A frame that Dec does not strip may find any saved index. -/
def level (net : ι → NodeMaps) (p : Roamer ι) : ℕ :=
  match p.place with
  | .wire frame => 2 * (if mayBeNsh frame then (siOf (arrivalPath frame)).toNat else 256) + 1
  | .inside n frame => 2 * savedIndex (net n) frame
  | .out => 0

theorem savedIndex_lt (m : NodeMaps) (frame : Bytes) : savedIndex m frame < 256 := by
  unfold savedIndex
  cases (ipKey frame).bind m.nsh_data.lookup with
  | none => exact Nat.succ_pos 255
  | some nsh =>
    dsimp only
    rw [siOf_toNat]
    omega

/-- After Dec has saved an NSH, a node has for a frame what it had before, or the new one. -/
theorem savedIndex_put (m : NodeMaps) (key : Ip5tuple) (nsh : Nsh) (frame : Bytes) :
    savedIndex { m with nsh_data := m.nsh_data.put key nsh } frame = savedIndex m frame ∨
      savedIndex { m with nsh_data := m.nsh_data.put key nsh } frame = (siOf nsh.path).toNat := by
  unfold savedIndex
  cases ipKey frame with
  | none => exact Or.inl rfl
  | some key' =>
    dsimp only [Option.bind_some]
    rw [BoundedMap.lookup_put]
    by_cases hput : key' = key ∧ m.nsh_data.Room key
    · rw [if_pos hput]
      exact Or.inr rfl
    · rw [if_neg hput]
      exact Or.inl rfl

/-- What Dec has just saved, or nothing, is what the stripped frame finds. -/
theorem savedIndex_stripped {m : NodeMaps} {mac : Mac} {frame : Bytes} {off : ℕ} {key : Ip5tuple}
    (h : Accepts mac frame off key) :
    savedIndex { m with nsh_data := m.nsh_data.put key (slice frame off 24) }
      (frame.drop (off + 24)) ≤ (siOf (arrivalPath frame)).toNat := by
  unfold savedIndex
  cases hkey : ipKey (frame.drop (off + 24)) with
  | none => exact Nat.zero_le _
  | some key' =>
    obtain rfl := ipKey_stripped h hkey
    dsimp only [Option.bind_some]
    cases hlook : (m.nsh_data.put key' (slice frame off 24)).lookup key' with
    | none => exact Nat.zero_le _
    | some nsh =>
      rw [BoundedMap.eq_of_lookup_put_self hlook, arrivalPath_of_accepts h]

section step

variable [DecidableEq ι] (k : ι → Kernel) (net : ι → NodeMaps)

/-- A step of a packet on its way: Dec strips it and saves its NSH, or changes nothing and hands it
on or drops it. -/
theorem step_wire (frame : Bytes) (route : ℕ → ι) :
    (∃ off key, Accepts (net (route 0)).src_mac.ingress frame off key ∧
      step k net ⟨.wire frame, route⟩ =
        (withNshData net (route 0) ((net (route 0)).nsh_data.put key (slice frame off 24)),
          ⟨.inside (route 0) (frame.drop (off + 24)), fun i => route (i + 1)⟩)) ∨
    ∃ place, (place = .inside (route 0) frame ∨ place = .out) ∧
      step k net ⟨.wire frame, route⟩ = (net, ⟨place, fun i => route (i + 1)⟩) := by
  have htx := decapNsh_ne_tx (net (route 0)).src_mac (net (route 0)).nsh_data frame
  unfold step
  dsimp only
  rcases decapNsh_cases (net (route 0)).src_mac (net (route 0)).nsh_data frame with
    ⟨off, key, ha, hout⟩ | ⟨-, code, hout⟩
  · left
    rw [hout]
    exact ⟨off, key, ha, rfl⟩
  · right
    have hsame : withNshData net (route 0) (net (route 0)).nsh_data = net :=
      Function.update_eq_self _ _
    rw [hout] at htx ⊢
    dsimp only
    rw [hsame]
    cases code with
    | pass => exact ⟨_, Or.inl rfl, rfl⟩
    | drop => exact ⟨_, Or.inr rfl, rfl⟩
    | tx => exact absurd rfl htx

/-- A step of a packet at a node: it is out, or leaves one hop on from what the node has saved. -/
theorem step_inside (n : ι) (frame : Bytes) (route : ℕ → ι) :
    step k net ⟨.inside n frame, route⟩ = (net, ⟨.out, route⟩) ∨
    ∃ f, mayBeNsh f ∧ (siOf (arrivalPath f)).toNat + 1 = savedIndex (net n) frame ∧
      step k net ⟨.inside n frame, route⟩ = (net, ⟨.wire f, route⟩) := by
  unfold step
  dsimp only
  cases hegress : egress (k n) (net n) frame with
  | dropped => exact Or.inl rfl
  | plain f => exact Or.inl rfl
  | chained f =>
    obtain ⟨key, nsh, hkey, hlook, hmay, -, hhop⟩ := of_egress_chained hegress
    have hsaved : savedIndex (net n) frame = (siOf nsh.path).toNat := by
      rw [savedIndex, hkey, Option.bind_some, hlook]
    exact Or.inr ⟨f, hmay, hhop.toNat.trans hsaved.symm, rfl⟩

/-- Levels go down: what Dec may raise at a node remains below the packet that it has stripped. -/
theorem descends_level : World.Descends (step k) active level where
  idle := by
    rintro net ⟨place, route⟩ hidle
    cases place with
    | out => rfl
    | wire frame => simp [active] at hidle
    | inside n frame => simp [active] at hidle
  self := by
    rintro net ⟨place, route⟩ - hactive
    cases place with
    | wire frame =>
      rcases step_wire k net frame route with ⟨off, key, ha, hstep⟩ | ⟨place, hplace, hstep⟩
      · have hless := @savedIndex_stripped (net (route 0)) _ _ _ _ ha
        rw [hstep]
        simp only [level, withNshData, Function.update_self, mayBeNsh_of_accepts ha, if_true]
        omega
      · rw [hstep] at hactive ⊢
        rcases hplace with rfl | rfl
        · -- An NSH frame finds nothing, and for any other frame there is no bound but the largest.
          by_cases hmay : mayBeNsh frame
          · have hnone : savedIndex (net (route 0)) frame = 0 := by
              rw [savedIndex, ipKey_of_mayBeNsh hmay]
              rfl
            simp only [level, hnone]
            omega
          · have hlt := savedIndex_lt (net (route 0)) frame
            simp only [level, hmay, Bool.false_eq_true, if_false]
            omega
        · simp [active] at hactive
    | inside n frame =>
      rcases step_inside k net n frame route with hstep | ⟨f, hmay, hhop, hstep⟩
      · rw [hstep] at hactive
        simp [active] at hactive
      · rw [hstep]
        simp only [level, hmay, if_true]
        omega
    | out => simp [step, active] at hactive
  other := by
    rintro net ⟨place, route⟩ - ⟨place', route'⟩
    cases place with
    | wire frame =>
      rcases step_wire k net frame route with ⟨off, key, ha, hstep⟩ | ⟨place, -, hstep⟩
      · rw [hstep]
        cases place' with
        | inside n frame' =>
          obtain rfl | hne := eq_or_ne n (route 0)
          · have hput := savedIndex_put (net (route 0)) key (slice frame off 24) frame'
            rw [← arrivalPath_of_accepts ha] at hput
            simp only [level, withNshData, Function.update_self, mayBeNsh_of_accepts ha, if_true]
            omega
          · left
            simp only [level, withNshData, Function.update_of_ne hne, le_refl]
        | wire frame' => exact Or.inl le_rfl
        | out => exact Or.inl le_rfl
      · rw [hstep]
        exact Or.inl le_rfl
    | inside n frame =>
      rcases step_inside k net n frame route with hstep | ⟨f, -, -, hstep⟩ <;>
      · rw [hstep]
        exact Or.inl le_rfl
    | out => exact Or.inl le_rfl

end step

end Roamer

/-- Any number of packets, under any tables, routes, and schedule: together they make at most as many
steps as their levels allow, and when each has its turn again and again, all are out in the end. -/
theorem crowd_ends {ι : Type} [DecidableEq ι] (k : ι → Kernel) (net : ι → NodeMaps)
    (packets : List (Roamer ι)) :
    (∀ sched : List ℕ, World.moves (Roamer.step k) Roamer.active ⟨net, packets⟩ sched ≤
      (packets.map fun p => (packets.length + 1) ^ p.level net).sum) ∧
    ∀ sched : ℕ → ℕ, (∀ i < packets.length, ∀ n, ∃ m, n ≤ m ∧ sched m = i) →
      ∃ n, ∀ m, n ≤ m → ∀ p ∈ (run (World.next (Roamer.step k)) ⟨net, packets⟩
        ((List.range m).map sched)).threads, p.active = false := by
  have hdescends := Roamer.descends_level k
  refine ⟨fun sched => ?_, fun sched hfair => World.done_of_fair hdescends ⟨net, packets⟩ sched hfair⟩
  calc World.moves (Roamer.step k) Roamer.active ⟨net, packets⟩ sched
      ≤ World.potential Roamer.active Roamer.level ⟨net, packets⟩ :=
        World.moves_le hdescends ⟨net, packets⟩ sched
    _ ≤ (packets.map fun p => (packets.length + 1) ^ p.level net).sum := by
        refine List.sum_le_sum fun p _ => ?_
        unfold World.weight
        split_ifs
        · exact le_rfl
        · exact Nat.zero_le _

end ChainingBox
