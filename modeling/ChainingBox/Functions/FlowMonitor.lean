import ChainingBox.Dataplane.SavedHeaders
import ChainingBox.Lib.Runs

/-!
# The flow monitor

`flow_monitor_kern.c`, a service function on TC. For each IPv4 packet of a known protocol it counts
the packet and its bytes under its flow in the hash map `stats`, and the packet under its length, in
steps of 64 bytes, in the array map `szhist`. Then it redirects the packet if the source address is
the configured one. The array map has 24 entries and the length has no bound, so a packet of 1536
bytes or more is counted in the first table only.

`Counted` is the account of a run. It gives `views_agree_iff`: the two tables agree, and both count
all packets, exactly if no packet is that long and no counter of 64 bits wraps.
-/

namespace ChainingBox

open Lib

namespace FlowMonitor

/-! ## The program -/

def HISTO_BUCKETS : ℕ := 24

/-- `struct flow_stats`. -/
structure FlowStats where
  pkts : BitVec 64
  bytes : BitVec 64
  deriving DecidableEq

/-- The hash map `stats`. -/
abbrev StatsMap := BoundedMap Ip5tuple FlowStats 2048

/-- The array map `szhist`. -/
abbrev Szhist := Fin HISTO_BUCKETS → BitVec 64

/-- A lookup in the array map, by its 32-bit index. -/
def bucketOf (idx : BitVec 32) : Option (Fin HISTO_BUCKETS) :=
  if h : idx.toNat < HISTO_BUCKETS then some ⟨idx.toNat, h⟩ else none

/-- The tables that the program counts in. -/
structure Tables where
  stats : StatsMap
  szhist : Szhist

/-- The array maps `egress_ifindex` and `srcip`, with one entry each. -/
structure Redirect where
  egress_ifindex : BitVec 32
  srcip : BitVec 32

/-- A lookup in an array map with one entry. -/
def lookupArray (entry : BitVec 32) : ℕ → Option (BitVec 32)
  | 0 => some entry
  | _ => none

/-- A frame, as `struct __sk_buff` shows it: the program can access the bytes between `data` and
`data_end`, and the frame may be longer. -/
structure Skb where
  data : Bytes
  len : BitVec 32
  linear : data.length ≤ len.toNat

/-- What the program does with a frame; a redirected one goes out on an interface. -/
structure Out where
  ret : TcAct
  tables : Tables
  ifindex : Option (BitVec 32) := none

/-- The statistics of a flow with one more packet. -/
def FlowStats.add (s : FlowStats) (len : BitVec 32) : FlowStats :=
  ⟨s.pkts + 1, s.bytes + len.setWidth 64⟩

/-- The update of `stats`. -/
def updateStats (stats : StatsMap) (key : Ip5tuple) (len : BitVec 32) : StatsMap :=
  match stats.lookup key with
  | some _ => stats.modify key (·.add len)
  | none => stats.put key ⟨1, len.setWidth 64⟩

/-- The update of `szhist`, which does nothing for an index out of its range. -/
def updateHistogram (szhist : Szhist) (len : BitVec 32) : Szhist :=
  match bucketOf (len / 64) with
  | some j => Function.update szhist j (szhist j + 1)
  | none => szhist

/-- `flow_monitor`. -/
def flowMonitor (cfg : Redirect) (t : Tables) (skb : Skb) : Out :=
  if skb.data.length < 14 + 20 then { ret := .ok, tables := t }
  else if htons (load16 skb.data 12) ≠ ETH_P_IP then { ret := .ok, tables := t }
  else match getTuple (skb.data.drop 14) with
  | none => { ret := .ok, tables := t }
  | some key =>
    let t : Tables := ⟨updateStats t.stats key skb.len, updateHistogram t.szhist skb.len⟩
    match lookupArray cfg.egress_ifindex 0 with
    | none => { ret := .ok, tables := t }
    | some ifindex =>
      match lookupArray cfg.srcip 0 with
      | none => { ret := .ok, tables := t }
      | some sip =>
        if sip ≠ load32 skb.data (14 + 12) then { ret := .ok, tables := t }
        else { ret := .redirect, tables := t, ifindex := some ifindex }

/-! ## Runs -/

/-- The flow of a frame that `get_tuple` succeeds for. -/
def Skb.flow (skb : Skb) : Option Ip5tuple :=
  if skb.data.length < 14 + 20 ∨ htons (load16 skb.data 12) ≠ ETH_P_IP then none
  else getTuple (skb.data.drop 14)

/-- The flow and the length of each frame that `get_tuple` succeeds for. -/
def seen (frames : List Skb) : List (Ip5tuple × BitVec 32) :=
  frames.filterMap fun skb => skb.flow.map (·, skb.len)

/-- The tables before the first frame. -/
def emptyTables : Tables := ⟨.empty, fun _ => 0⟩

/-- The tables after a run of frames, one after another. -/
def monitor (cfg : Redirect) (frames : List Skb) : Tables :=
  run (fun t skb => (flowMonitor cfg t skb).tables) emptyTables frames

/-- The counting of a flow and a length. -/
def count (t : Tables) (p : Ip5tuple × BitVec 32) : Tables :=
  ⟨updateStats t.stats p.1 p.2, updateHistogram t.szhist p.2⟩

theorem tables_flowMonitor (cfg : Redirect) (t : Tables) (skb : Skb) :
    (flowMonitor cfg t skb).tables = (skb.flow.map (·, skb.len)).elim t (count t) := by
  unfold flowMonitor Skb.flow
  by_cases hl : skb.data.length < 14 + 20
  · rw [if_pos hl, if_pos (Or.inl hl)]
    rfl
  by_cases hip : htons (load16 skb.data 12) ≠ ETH_P_IP
  · rw [if_neg hl, if_pos hip, if_pos (Or.inr hip)]
    rfl
  rw [if_neg hl, if_neg hip, if_neg (not_or.2 ⟨hl, hip⟩)]
  cases getTuple (skb.data.drop 14) with
  | none => rfl
  | some key =>
    have hifindex : lookupArray cfg.egress_ifindex 0 = some cfg.egress_ifindex := rfl
    have hsip : lookupArray cfg.srcip 0 = some cfg.srcip := rfl
    simp only [hifindex, hsip]
    split_ifs <;> rfl

theorem monitor_eq (cfg : Redirect) (frames : List Skb) :
    monitor cfg frames = run count emptyTables (seen frames) := by
  unfold monitor seen
  generalize emptyTables = t
  induction frames generalizing t with
  | nil => rfl
  | cons skb frames ih =>
    have hstep := tables_flowMonitor cfg t skb
    rw [List.filterMap_cons]
    cases hflow : skb.flow.map (·, skb.len) with
    | none =>
      rw [hflow] at hstep
      exact (congrArg (fun t => run _ t frames) hstep).trans (ih t)
    | some p =>
      rw [hflow] at hstep
      exact (congrArg (fun t => run _ t frames) hstep).trans (ih (count t p))

/-! ## The account of a run -/

/-- The length is in the range of a bucket. -/
def InBucket (j : ℕ) (len : BitVec 32) : Prop := 64 * j ≤ len.toNat ∧ len.toNat ≤ 64 * j + 63

instance (j : ℕ) (len : BitVec 32) : Decidable (InBucket j len) := inferInstanceAs (Decidable (_ ∧ _))

/-- The number of lengths in a bucket. -/
def inBucket (ps : List (Ip5tuple × BitVec 32)) (j : ℕ) : ℕ := ps.countP fun p => InBucket j p.2

/-- The number of packets of a flow. -/
def ofFlow (ps : List (Ip5tuple × BitVec 32)) (key : Ip5tuple) : ℕ := (ps.map Prod.fst).count key

/-- The flows, each once. -/
def flows (ps : List (Ip5tuple × BitVec 32)) : Finset Ip5tuple := (ps.map Prod.fst).toFinset

theorem flows_snoc (ps : List (Ip5tuple × BitVec 32)) (p : Ip5tuple × BitVec 32) :
    flows (ps ++ [p]) = insert p.1 (flows ps) := by
  ext key
  simp [flows]

theorem ofFlow_snoc (ps : List (Ip5tuple × BitVec 32)) (p : Ip5tuple × BitVec 32)
    (key : Ip5tuple) : ofFlow (ps ++ [p]) key = ofFlow ps key + if key = p.1 then 1 else 0 := by
  have hone : [p.1].count key = if key = p.1 then 1 else 0 := by
    rw [List.count_singleton]
    exact if_congr (by rw [beq_iff_eq, eq_comm]) rfl rfl
  rw [ofFlow, List.map_append, List.count_append, List.map_singleton, hone, ofFlow]

theorem inBucket_snoc (ps : List (Ip5tuple × BitVec 32)) (p : Ip5tuple × BitVec 32) (j : ℕ) :
    inBucket (ps ++ [p]) j = inBucket ps j + if InBucket j p.2 then 1 else 0 := by
  rw [inBucket, List.countP_append, List.countP_singleton]
  simp only [decide_eq_true_eq, inBucket]

/-- The tables count the packets of a run, in 64 bits. -/
structure Counted (ps : List (Ip5tuple × BitVec 32)) (t : Tables) : Prop where
  keys : ∀ key, key ∈ t.stats ↔ key ∈ flows ps
  pkts : ∀ key, (t.stats.lookup key).elim 0 FlowStats.pkts = BitVec.ofNat 64 (ofFlow ps key)
  buckets : ∀ j : Fin HISTO_BUCKETS, t.szhist j = BitVec.ofNat 64 (inBucket ps j)

/-- The entry of a new flow is that of one packet more than none. -/
theorem FlowStats.zero_add (len : BitVec 32) :
    FlowStats.add ⟨0, 0⟩ len = ⟨1, len.setWidth 64⟩ := by
  show FlowStats.mk (0 + 1) (0 + len.setWidth 64) = _
  congr 1
  exact BitVec.zero_add _

/-- A flow that has an entry, or finds room for one, is counted. -/
theorem lookup_updateStats {stats : StatsMap} {key : Ip5tuple} (hroom : stats.Room key)
    (len : BitVec 32) (key' : Ip5tuple) : (updateStats stats key len).lookup key' =
      if key' = key then some (((stats.lookup key).getD ⟨0, 0⟩).add len) else stats.lookup key' := by
  unfold updateStats
  cases hkey : stats.lookup key with
  | none =>
    dsimp only
    rw [BoundedMap.lookup_put, Option.getD_none, FlowStats.zero_add]
    exact if_congr (and_iff_left hroom) rfl rfl
  | some s =>
    dsimp only
    rw [BoundedMap.lookup_modify, hkey]
    rfl

/-- The index of the length is that of its bucket. -/
theorem bucketOf_eq_some {len : BitVec 32} {j : Fin HISTO_BUCKETS} :
    bucketOf (len / 64) = some j ↔ InBucket j len := by
  have hdiv : (len / 64).toNat = len.toNat / 64 := BitVec.toNat_udiv
  have hj := j.isLt
  unfold bucketOf InBucket
  rw [hdiv]
  split_ifs with hlt
  · rw [Option.some.injEq, Fin.ext_iff]
    show len.toNat / 64 = (j : ℕ) ↔ _
    omega
  · refine iff_of_false (by simp) ?_
    omega

theorem updateHistogram_apply (szhist : Szhist) (len : BitVec 32) (j : Fin HISTO_BUCKETS) :
    updateHistogram szhist len j = if InBucket j len then szhist j + 1 else szhist j := by
  unfold updateHistogram
  cases hidx : bucketOf (len / 64) with
  | none =>
    have hnot : ¬ InBucket j len := by
      rw [← bucketOf_eq_some, hidx]
      simp
    rw [if_neg hnot]
  | some i =>
    have hj : j = i ↔ InBucket j len := by
      rw [← bucketOf_eq_some, hidx, Option.some.injEq, eq_comm]
    dsimp only
    rw [Function.update_apply]
    split_ifs with hi hin hin
    · rw [hi]
    · exact absurd (hj.1 hi) hin
    · exact absurd (hj.2 hin) hi
    · rfl

/-- One more packet. -/
theorem Counted.count {ps : List (Ip5tuple × BitVec 32)} {t : Tables} (h : Counted ps t)
    {p : Ip5tuple × BitVec 32} (hroom : t.stats.Room p.1) : Counted (ps ++ [p]) (count t p) := by
  obtain ⟨key, len⟩ := p
  have hlookup := lookup_updateStats hroom len
  constructor
  · intro key'
    rw [flows_snoc, Finset.mem_insert, ← h.keys, ← BoundedMap.lookup_isSome,
      ← BoundedMap.lookup_isSome]
    show ((updateStats t.stats key len).lookup key').isSome ↔ _
    rw [hlookup]
    split_ifs with hkey
    · simp [hkey]
    · simp [hkey]
  · intro key'
    -- An entry that is missing counts as zero.
    show ((updateStats t.stats key len).lookup key').elim 0 FlowStats.pkts = _
    rw [hlookup, ofFlow_snoc, BitVec.ofNat_add, ← h.pkts]
    split_ifs with hkey
    · rw [hkey]
      cases t.stats.lookup key <;> rfl
    · exact (BitVec.add_zero _).symm
  · intro j
    show updateHistogram t.szhist len j = _
    rw [updateHistogram_apply, inBucket_snoc, BitVec.ofNat_add, ← h.buckets]
    split_ifs
    · rfl
    · exact (BitVec.add_zero _).symm

/-- The account of a run with at most as many flows as the table has room for. -/
theorem counted_run {ps : List (Ip5tuple × BitVec 32)} (hflows : (flows ps).card ≤ 2048) :
    Counted ps (run count emptyTables ps) := by
  induction ps using List.reverseRecOn with
  | nil =>
    refine ⟨fun key => ?_, fun key => rfl, fun j => rfl⟩
    exact iff_of_false (BoundedMap.not_mem_empty key) (by simp [flows])
  | append_singleton ps p ih =>
    rw [flows_snoc] at hflows
    have hcounted := ih ((Finset.card_le_card (Finset.subset_insert _ _)).trans hflows)
    rw [run_append]
    refine hcounted.count ?_
    by_cases hmem : p.1 ∈ flows ps
    · exact Or.inl ((hcounted.keys p.1).2 hmem)
    · -- The new flow is not among the 2048.
      rw [Finset.card_insert_of_notMem hmem] at hflows
      refine Or.inr ?_
      rw [BoundedMap.size_eq_card hcounted.keys]
      omega

/-! ## The two views -/

/-- Both tables count all packets, and each bucket those of its lengths. -/
structure ViewsAgree (frames : List Skb) (t : Tables) : Prop where
  totals : ∑ j, (t.szhist j).toNat = t.stats.total fun s => s.pkts.toNat
  counted : t.stats.total (fun s => s.pkts.toNat) = (seen frames).length
  buckets : ∀ j : Fin HISTO_BUCKETS, (t.szhist j).toNat = inBucket (seen frames) j

/-- The lengths have buckets, and no counter wraps. -/
structure Countable (ps : List (Ip5tuple × BitVec 32)) : Prop where
  lengths : ∀ p ∈ ps, p.2.toNat < 64 * HISTO_BUCKETS
  buckets : ∀ j : Fin HISTO_BUCKETS, inBucket ps j < 2 ^ 64
  flows : ∀ key, ofFlow ps key < 2 ^ 64

/-- Every packet has one bucket, or is too long for all of them. -/
theorem sum_inBucket (ps : List (Ip5tuple × BitVec 32)) :
    ∑ j : Fin HISTO_BUCKETS, inBucket ps j + ps.countP (64 * HISTO_BUCKETS ≤ ·.2.toNat) =
      ps.length := by
  induction ps using List.reverseRecOn with
  | nil => rfl
  | append_singleton ps p ih =>
    -- The packet is in one of the buckets, or else in the count of the long ones.
    have hone : (∑ j : Fin HISTO_BUCKETS, if InBucket j p.2 then 1 else 0) +
        (if 64 * HISTO_BUCKETS ≤ p.2.toNat then 1 else 0) = 1 := by
      split_ifs with hlong
      · have hnone (j : Fin HISTO_BUCKETS) : ¬ InBucket j p.2 := by
          have hj := j.isLt
          unfold InBucket
          omega
        simp only [hnone, if_false, Finset.sum_const_zero]
      · have hlt : p.2.toNat / 64 < HISTO_BUCKETS := by omega
        have hin (j : Fin HISTO_BUCKETS) : InBucket j p.2 ↔ ⟨p.2.toNat / 64, hlt⟩ = j := by
          rw [Fin.ext_iff]
          show _ ↔ p.2.toNat / 64 = (j : ℕ)
          unfold InBucket
          omega
        simp only [hin, Finset.sum_ite_eq, Finset.mem_univ, if_true]
    rw [List.countP_append, List.countP_singleton, List.length_append, List.length_singleton, ← ih]
    simp only [inBucket_snoc, Finset.sum_add_distrib, decide_eq_true_eq]
    omega

theorem sum_ofFlow (ps : List (Ip5tuple × BitVec 32)) :
    ∑ key ∈ flows ps, ofFlow ps key = ps.length :=
  (List.sum_toFinset_count_eq_length _).trans (List.length_map _)

/-- The entries of a table that counts a run add up to the packets, modulo the width of each. -/
theorem Counted.total {ps : List (Ip5tuple × BitVec 32)} {t : Tables} (h : Counted ps t) :
    t.stats.total (fun s => s.pkts.toNat) = ∑ key ∈ flows ps, ofFlow ps key % 2 ^ 64 := by
  rw [BoundedMap.total_eq_sum h.keys]
  refine Finset.sum_congr rfl fun key _ => ?_
  rw [← BitVec.toNat_ofNat, ← h.pkts]
  cases t.stats.lookup key <;> rfl

/-- After any run with at most 2048 flows the two views agree exactly if every counted packet is
shorter than 1536 bytes and no counter wraps. -/
theorem views_agree_iff (cfg : Redirect) (frames : List Skb)
    (hflows : (flows (seen frames)).card ≤ 2048) :
    ViewsAgree frames (monitor cfg frames) ↔ Countable (seen frames) := by
  have hcounted := counted_run hflows
  have htotal := hcounted.total
  rw [monitor_eq]
  have hbucket (j : Fin HISTO_BUCKETS) : ((run count emptyTables (seen frames)).szhist j).toNat =
      inBucket (seen frames) j % 2 ^ 64 := by
    rw [hcounted.buckets, BitVec.toNat_ofNat]
  have hsum := sum_inBucket (seen frames)
  have hflow := sum_ofFlow (seen frames)
  constructor
  · rintro ⟨htotals, hall, hbuckets⟩
    simp only [hbuckets] at htotals
    refine ⟨?_, fun j => ?_, fun key => ?_⟩
    · -- No packet is missing in the buckets.
      have hnone : (seen frames).countP (64 * HISTO_BUCKETS ≤ ·.2.toNat) = 0 := by omega
      intro p hp
      have hshort := List.countP_eq_zero.1 hnone p hp
      simpa using hshort
    · have hj := hbuckets j
      rw [hbucket] at hj
      rw [← hj]
      exact Nat.mod_lt _ (by decide)
    · -- The entries add up to the packets, so none of them has wrapped.
      rw [htotal, ← hflow] at hall
      have hle : ∀ key ∈ flows (seen frames),
          ofFlow (seen frames) key % 2 ^ 64 ≤ ofFlow (seen frames) key :=
        fun key _ => Nat.mod_le _ _
      by_cases hmem : key ∈ flows (seen frames)
      · rw [← (Finset.sum_eq_sum_iff_of_le hle).1 hall key hmem]
        exact Nat.mod_lt _ (by decide)
      · have hzero : ofFlow (seen frames) key = 0 :=
          List.count_eq_zero_of_not_mem fun hin => hmem (List.mem_toFinset.2 hin)
        rw [hzero]
        decide
  · rintro ⟨hlengths, hbuckets, hflows'⟩
    have hnone : (seen frames).countP (64 * HISTO_BUCKETS ≤ ·.2.toNat) = 0 :=
      List.countP_eq_zero.2 fun p hp => by simpa using hlengths p hp
    have hexact (j : Fin HISTO_BUCKETS) : ((run count emptyTables (seen frames)).szhist j).toNat =
        inBucket (seen frames) j := by
      rw [hbucket, Nat.mod_eq_of_lt (hbuckets j)]
    have hall : (run count emptyTables (seen frames)).stats.total (fun s => s.pkts.toNat) =
        (seen frames).length := by
      rw [htotal, ← hflow]
      exact Finset.sum_congr rfl fun key _ => Nat.mod_eq_of_lt (hflows' key)
    refine ⟨?_, hall, hexact⟩
    simp only [hexact]
    omega

/-! ## Frames of several flows -/

/-- An ICMP packet between two hosts of 10.0.0.0/24, with the headers in the linear part. -/
def icmpSkb (src dst : Byte) (len : BitVec 32) (h : 34 ≤ len.toNat) : Skb where
  data := [0x02, 0, 0, 0, 0, 2, 0x02, 0, 0, 0, 0, 1, 0x08, 0x00,
    0x45, 0, 0, 20, 0, 0, 0, 0, 64, 1, 0, 0, 10, 0, 0, src, 10, 0, 0, dst]
  len := len
  linear := h

/-- Packets of three flows and of several lengths, and an ARP request. -/
def shortFrames : List Skb :=
  [icmpSkb 1 2 34 (by decide), icmpSkb 2 1 34 (by decide), icmpSkb 1 2 1500 (by decide),
    ⟨[0xFF, 0xFF, 0xFF, 0xFF, 0xFF, 0xFF, 0x02, 0, 0, 0, 0, 1, 0x08, 0x06], 42, by decide⟩,
    icmpSkb 1 3 1535 (by decide), icmpSkb 2 1 100 (by decide), icmpSkb 1 2 98 (by decide)]

/-- A run that is not long wraps no counter. -/
theorem countable_of_short {ps : List (Ip5tuple × BitVec 32)} (hlen : ps.length < 2 ^ 64)
    (h : ∀ p ∈ ps, p.2.toNat < 64 * HISTO_BUCKETS) : Countable ps where
  lengths := h
  buckets := fun _ => List.countP_le_length.trans_lt hlen
  flows := fun key => by
    have hle : ofFlow ps key ≤ (ps.map Prod.fst).length := List.count_le_length
    rw [List.length_map] at hle
    exact hle.trans_lt hlen

/-- The six packets are counted in three buckets and under three flows. -/
theorem views_agree_iff_short :
    (seen shortFrames).length = 6 ∧ (flows (seen shortFrames)).card = 3 ∧
      ViewsAgree shortFrames (monitor ⟨3, 0x0100000A⟩ shortFrames) :=
  ⟨by decide, by decide, (views_agree_iff ⟨3, 0x0100000A⟩ shortFrames (by decide)).2
    (countable_of_short (by decide) (by decide))⟩

/-! ## An aggregated frame -/

theorem giantFrame_linear : pingFrame.length ≤ (1536 : BitVec 32).toNat := by decide

/-- An ICMP packet from 10.0.0.1 to 10.0.0.2 of 1536 bytes, of which the headers are in the linear
part. -/
def giantFrame : Skb := ⟨pingFrame, 1536, giantFrame_linear⟩

/-- The packet is counted under its flow, and under no length. -/
theorem not_viewsAgree_giant :
    (flows (seen [giantFrame])).card ≤ 2048 ∧
      ¬ ViewsAgree [giantFrame] (monitor ⟨3, 0x0100000A⟩ [giantFrame]) := by
  refine ⟨by decide, fun hagree => ?_⟩
  exact absurd hagree.totals (by decide)

end FlowMonitor

end ChainingBox
