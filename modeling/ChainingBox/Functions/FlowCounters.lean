import ChainingBox.Functions.FlowMonitor
import ChainingBox.Lib.Threads

/-!
# The flow counters under concurrency

The flow monitor runs on several CPUs at once. Each of its runs makes one operation on a table at a
time: the lookup of its flow, and then either two atomic adds to the entry that it has found, or the
insertion of a new one, and the lookup and the atomic add in the histogram. The hash map refers to
elements in memory. An insertion makes a new element, which takes the place of the old one if there
is one, and a run that has found the old one still adds to that.

Two runs of a new flow can both find no entry, and then both insert one; what has been counted in the
first is lost. `counters_exact_iff` says that a schedule keeps all packets exactly if no insertion
replaces an entry and no add wraps, and that all schedules do so exactly if no two packets have the
same flow.
-/

namespace ChainingBox

open Lib

namespace FlowMonitor

/-! ## Operations on the tables -/

/-- The two counters of a flow. -/
inductive Field
  | pkts
  | bytes
  deriving DecidableEq

def FlowStats.get (s : FlowStats) : Field → BitVec 64
  | .pkts => s.pkts
  | .bytes => s.bytes

/-- `lock_xadd` on a counter. -/
def FlowStats.xadd (s : FlowStats) (f : Field) (x : BitVec 64) : FlowStats :=
  match f with
  | .pkts => { s with pkts := s.pkts + x }
  | .bytes => { s with bytes := s.bytes + x }

/-- The tables in memory: `stats` refers to elements, which have their key and their value. -/
structure Shared where
  stats : BoundedMap Ip5tuple ℕ 2048
  elems : List (Ip5tuple × FlowStats)
  szhist : Szhist

/-- The value under a key. -/
def Shared.entry (sh : Shared) (key : Ip5tuple) : Option FlowStats :=
  (sh.stats.lookup key).bind fun e => sh.elems[e]?.map Prod.snd

/-- An atomic add through the pointer to an element. -/
def Shared.xadd (sh : Shared) (e : ℕ) (f : Field) (x : BitVec 64) : Shared :=
  { sh with elems := sh.elems.modify e fun p => (p.1, p.2.xadd f x) }

/-- An insertion, with `BPF_ANY`. -/
def Shared.insert (sh : Shared) (key : Ip5tuple) (v : FlowStats) : Shared :=
  if sh.stats.Room key then
    { sh with stats := sh.stats.put key sh.elems.length, elems := sh.elems ++ [(key, v)] }
  else sh

/-- Where a run of the program stands: the operation that comes next. -/
inductive Pc
  | lookup
  | xadd (f : Field) (e : ℕ)
  | insert
  | histLookup
  | histAdd (j : Fin HISTO_BUCKETS)
  | done

/-- A run of the program on a frame of a flow. -/
structure Thread where
  key : Ip5tuple
  len : BitVec 32
  pc : Pc

/-- What a run adds to a counter. -/
def Thread.amount (r : Thread) : Field → BitVec 64
  | .pkts => 1
  | .bytes => r.len.setWidth 64

/-- The next operation of a run. -/
def Thread.step (sh : Shared) (r : Thread) : Shared × Thread :=
  match r.pc with
  | .lookup => (sh, { r with pc := (sh.stats.lookup r.key).elim .insert (.xadd .pkts) })
  | .xadd .pkts e => (sh.xadd e .pkts (r.amount .pkts), { r with pc := .xadd .bytes e })
  | .xadd .bytes e => (sh.xadd e .bytes (r.amount .bytes), { r with pc := .histLookup })
  | .insert => (sh.insert r.key ⟨1, r.len.setWidth 64⟩, { r with pc := .histLookup })
  | .histLookup => (sh, { r with pc := (bucketOf (r.len / 64)).elim .done .histAdd })
  | .histAdd j =>
    ({ sh with szhist := Function.update sh.szhist j (sh.szhist j + 1) }, { r with pc := .done })
  | .done => (sh, r)

/-- The runs on a set of frames, with empty tables. A frame without a flow comes to no table. -/
def start (frames : List Skb) : World Shared Thread where
  shared := ⟨.empty, [], fun _ => 0⟩
  threads := (seen frames).map fun p => ⟨p.1, p.2, .lookup⟩

/-- The world after a schedule. -/
def schedule (frames : List Skb) (is : List ℕ) : World Shared Thread :=
  run (World.next Thread.step) (start frames) is

/-- All runs have finished. -/
def Finished (w : World Shared Thread) : Prop := ∀ r ∈ w.threads, r.pc = .done

/-- The value of a counter, which is zero for a flow without an entry. -/
def Shared.value (sh : Shared) (key : Ip5tuple) (f : Field) : ℕ :=
  (sh.entry key).elim 0 fun s => (s.get f).toNat

/-- The bytes of the packets of a flow. -/
def bytesOf (ps : List (Ip5tuple × BitVec 32)) (key : Ip5tuple) : ℕ :=
  ((ps.filter (·.1 = key)).map (·.2.toNat)).sum

/-- Every packet of every flow is counted, with its bytes. -/
def CountsAll (frames : List Skb) (sh : Shared) : Prop :=
  ∀ key, sh.value key .pkts = ofFlow (seen frames) key ∧
    sh.value key .bytes = bytesOf (seen frames) key

/-- The next operation of a run loses nothing: an insertion finds no entry in its place, and an add
stays below the width of the counter. -/
def LosesNothing (w : World Shared Thread) (i : ℕ) : Prop :=
  ∀ r, w.threads[i]? = some r → match r.pc with
    | .insert => r.key ∉ w.shared.stats
    | .xadd f e => ∀ p, w.shared.elems[e]? = some p →
      (p.2.get f).toNat + (r.amount f).toNat < 2 ^ 64
    | _ => True

/-! ## What an operation does to the counters -/

theorem entry_xadd (sh : Shared) (e : ℕ) (f : Field) (x : BitVec 64) (key : Ip5tuple) :
    (sh.xadd e f x).entry key =
      if sh.stats.lookup key = some e then (sh.entry key).map (·.xadd f x) else sh.entry key := by
  unfold Shared.entry
  show (sh.stats.lookup key).bind _ = _
  cases hkey : sh.stats.lookup key with
  | none =>
    rw [if_neg (by simp)]
    rfl
  | some e' =>
    have hget : (sh.xadd e f x).elems[e']? =
        (fun p => if e = e' then (p.1, p.2.xadd f x) else p) <$> sh.elems[e']? :=
      List.getElem?_modify _ _ _ _
    rw [Option.bind_some, Option.bind_some, hget]
    cases sh.elems[e']? with
    | none => simp
    | some p =>
      simp only [Option.some.injEq, eq_comm]
      split_ifs
      · simp
      · simp

theorem get_xadd (s : FlowStats) (f f' : Field) (x : BitVec 64) :
    (s.xadd f x).get f' = if f' = f then s.get f' + x else s.get f' := by
  cases f <;> cases f' <;> rfl

theorem entry_insert {sh : Shared} {key : Ip5tuple} (hroom : sh.stats.Room key)
    (helems : ∀ k e, sh.stats.lookup k = some e → ∃ v, sh.elems[e]? = some (k, v))
    (v : FlowStats) (key' : Ip5tuple) :
    (sh.insert key v).entry key' = if key' = key then some v else sh.entry key' := by
  unfold Shared.insert Shared.entry
  rw [if_pos hroom]
  dsimp only
  rw [BoundedMap.lookup_put]
  split_ifs with hput hkey hkey
  · simp
  · exact absurd hput.1 hkey
  · exact absurd ⟨hkey, hroom⟩ hput
  · cases hlookup : sh.stats.lookup key' with
    | none => rfl
    | some e =>
      obtain ⟨u, hu⟩ := helems key' e hlookup
      obtain ⟨hlt, -⟩ := List.getElem?_eq_some_iff.1 hu
      rw [Option.bind_some, Option.bind_some, List.getElem?_append_left hlt]

/-- The first step of a run that is not interrupted. -/
theorem alone_lookup (sh : Shared) (key : Ip5tuple) (len : BitVec 32) (n : ℕ) :
    (fun p : Shared × Thread => p.2.step p.1)^[n + 1] (sh, ⟨key, len, .lookup⟩) =
      (fun p : Shared × Thread => p.2.step p.1)^[n]
        (sh, ⟨key, len, (sh.stats.lookup key).elim .insert (.xadd .pkts)⟩) := rfl

/-- The operations on the histogram come last, and leave the counters alone. -/
theorem alone_hist (sh : Shared) (key : Ip5tuple) (len : BitVec 32) (n : ℕ) :
    ∃ sh' : Shared, (fun p : Shared × Thread => p.2.step p.1)^[n + 2] (sh, ⟨key, len, .histLookup⟩) =
        (sh', ⟨key, len, .done⟩) ∧
      sh'.entry = sh.entry ∧ sh'.szhist = updateHistogram sh.szhist len := by
  have hdone (sh : Shared) : (fun p : Shared × Thread => p.2.step p.1)^[n]
      (sh, ⟨key, len, .done⟩) = (sh, ⟨key, len, .done⟩) := Function.iterate_fixed rfl n
  have hstep : (Thread.mk key len .histLookup).step sh =
      (sh, ⟨key, len, (bucketOf (len / 64)).elim .done .histAdd⟩) := rfl
  rw [Function.iterate_add_apply, Function.iterate_succ_apply, Function.iterate_one, hstep]
  unfold updateHistogram
  cases bucketOf (len / 64) with
  | none => exact ⟨sh, hdone sh, rfl, rfl⟩
  | some j =>
    exact ⟨{ sh with szhist := Function.update sh.szhist j (sh.szhist j + 1) }, hdone _, rfl, rfl⟩

/-- A run that is not interrupted updates the tables as `flow_monitor` does. -/
theorem step_alone (sh : Shared) (key : Ip5tuple) (len : BitVec 32) (hroom : sh.stats.Room key)
    (helems : ∀ k e, sh.stats.lookup k = some e → ∃ v, sh.elems[e]? = some (k, v)) :
    ∃ sh', (fun p : Shared × Thread => p.2.step p.1)^[5] (sh, ⟨key, len, .lookup⟩) =
        (sh', ⟨key, len, .done⟩) ∧
      (∀ key', sh'.entry key' = if key' = key then
        some (((sh.entry key).getD ⟨0, 0⟩).add len) else sh.entry key') ∧
      sh'.szhist = updateHistogram sh.szhist len := by
  rw [alone_lookup]
  cases hlookup : sh.stats.lookup key with
  | none =>
    have hentry : sh.entry key = none := by
      unfold Shared.entry
      rw [hlookup]
      rfl
    -- The insertion, and the histogram with a step to spare.
    obtain ⟨sh', hrun, hsame, hszhist⟩ :=
      alone_hist (sh.insert key ⟨1, len.setWidth 64⟩) key len 1
    refine ⟨sh', hrun, fun key' => ?_, ?_⟩
    · rw [hsame, entry_insert hroom helems, hentry, Option.getD_none, FlowStats.zero_add]
    · rw [hszhist]
      unfold Shared.insert
      split_ifs
      rfl
  | some e =>
    obtain ⟨v, hv⟩ := helems key e hlookup
    have hentry : sh.entry key = some v := by
      unfold Shared.entry
      rw [hlookup, Option.bind_some, hv]
      rfl
    have hother (k : Ip5tuple) : sh.stats.lookup k = some e ↔ k = key := by
      constructor
      · intro hk
        obtain ⟨u, hu⟩ := helems k e hk
        exact (Prod.ext_iff.1 (Option.some.inj (hu.symm.trans hv))).1
      · rintro rfl
        exact hlookup
    -- The two additions, and the histogram.
    obtain ⟨sh', hrun, hsame, hszhist⟩ :=
      alone_hist ((sh.xadd e .pkts 1).xadd e .bytes (len.setWidth 64)) key len 0
    refine ⟨sh', hrun, fun key' => ?_, hszhist⟩
    have hstats : (sh.xadd e .pkts 1).stats = sh.stats := rfl
    rw [hsame, entry_xadd, entry_xadd, hstats]
    split_ifs with hk hk' hk'
    · rw [(hother key').1 hk, hentry]
      rfl
    · exact absurd ((hother key').1 hk) hk'
    · exact absurd ((hother key').2 hk') hk
    · rfl

/-! ## What a run does next -/

/-- The next operation of a run counts its packet in a counter. -/
def Thread.adds (r : Thread) (f : Field) : Bool :=
  match r.pc with
  | .insert => true
  | .xadd f' _ => f = f'
  | _ => false

theorem Thread.adds_iff {r : Thread} {f : Field} :
    r.adds f = true ↔ r.pc = .insert ∨ ∃ e, r.pc = .xadd f e := by
  unfold Thread.adds
  cases r.pc with
  | insert => simp
  | xadd f' e => simp [eq_comm]
  | _ => simp

/-- A run has counted its packet in a counter. -/
def Pc.counted (pc : Pc) (f : Field) : Bool :=
  match pc with
  | .lookup => false
  | .xadd .pkts _ => false
  | .xadd .bytes _ => f = .pkts
  | .insert => false
  | _ => true

/-- What a run has added to a counter of a flow. -/
def Thread.contribution (key : Ip5tuple) (f : Field) (r : Thread) : ℕ :=
  if r.key = key ∧ r.pc.counted f then (r.amount f).toNat else 0

variable (sh : Shared) (r : Thread)

theorem step_key : (r.step sh).2.key = r.key ∧ (r.step sh).2.len = r.len := by
  obtain ⟨key, len, pc⟩ := r
  cases pc with
  | xadd f e => cases f <;> exact ⟨rfl, rfl⟩
  | _ => exact ⟨rfl, rfl⟩

/-- A run has counted its packet exactly when the operation that counts it is done. -/
theorem counted_step (f : Field) :
    (r.step sh).2.pc.counted f = (r.pc.counted f || r.adds f) ∧ (r.pc.counted f && r.adds f) = false := by
  obtain ⟨key, len, pc⟩ := r
  cases pc with
  | lookup =>
    refine ⟨?_, rfl⟩
    show Pc.counted ((sh.stats.lookup key).elim .insert (.xadd .pkts)) f = false
    cases sh.stats.lookup key <;> rfl
  | xadd f' e =>
    cases f' <;> cases f <;> exact ⟨rfl, rfl⟩
  | insert => exact ⟨rfl, rfl⟩
  | histLookup =>
    refine ⟨?_, rfl⟩
    show Pc.counted ((bucketOf (len / 64)).elim .done .histAdd) f = true
    cases bucketOf (len / 64) <;> rfl
  | histAdd j => exact ⟨rfl, rfl⟩
  | done => exact ⟨rfl, rfl⟩

theorem contribution_step (key : Ip5tuple) (f : Field) :
    (r.step sh).2.contribution key f =
      r.contribution key f + if r.key = key ∧ r.adds f then (r.amount f).toNat else 0 := by
  obtain ⟨hkey, hlen⟩ := step_key sh r
  obtain ⟨hcounted, hnot⟩ := counted_step sh r f
  have hamount : (r.step sh).2.amount f = r.amount f := by
    cases f
    · rfl
    · show BitVec.setWidth 64 (r.step sh).2.len = _
      rw [hlen]
      rfl
  unfold Thread.contribution
  rw [hkey, hcounted, hamount]
  by_cases hk : r.key = key
  · cases hc : r.pc.counted f
    · simp [hk]
    · rw [hc, Bool.true_and] at hnot
      simp [hk, hnot]
  · simp [hk]

/-- A pointer comes from a lookup. -/
theorem pc_step {f : Field} {e : ℕ} (h : (r.step sh).2.pc = .xadd f e) :
    sh.stats.lookup r.key = some e ∧ r.pc = .lookup ∨ r.pc = .xadd .pkts e := by
  obtain ⟨key, len, pc⟩ := r
  cases pc with
  | lookup =>
    left
    change (sh.stats.lookup key).elim Pc.insert (Pc.xadd .pkts) = .xadd f e at h
    cases hlookup : sh.stats.lookup key with
    | none =>
      rw [hlookup] at h
      exact absurd h (by simp)
    | some e' =>
      rw [hlookup] at h
      have he : e' = e := (Pc.xadd.inj h).2
      exact ⟨congrArg some he, rfl⟩
  | xadd f' e' =>
    -- The pointer of the first add is used once more, for the second.
    cases f' with
    | pkts =>
      right
      have he : e' = e := (Pc.xadd.inj h).2
      rw [he]
    | bytes => exact absurd h (by simp [Thread.step])
  | histLookup =>
    change (bucketOf (len / 64)).elim Pc.done Pc.histAdd = .xadd f e at h
    cases hb : bucketOf (len / 64) <;> rw [hb] at h <;> exact absurd h (by simp)
  | _ => exact absurd h (by simp [Thread.step])

/-- An element stays where it is, with its key. -/
theorem elems_step {key : Ip5tuple} {e : ℕ} {v : FlowStats} (h : sh.elems[e]? = some (key, v)) :
    ∃ v', (r.step sh).1.elems[e]? = some (key, v') := by
  -- An add keeps the key of its element, an insertion only appends one.
  have hxadd (e' : ℕ) (f : Field) (x : BitVec 64) :
      ∃ v', (sh.xadd e' f x).elems[e]? = some (key, v') := by
    have hget : (sh.xadd e' f x).elems[e]? = _ := List.getElem?_modify _ _ _ _
    rw [hget, h]
    by_cases he : e' = e
    · exact ⟨v.xadd f x, by simp [he]⟩
    · exact ⟨v, by simp [he]⟩
  obtain ⟨key', len, pc⟩ := r
  cases pc with
  | xadd f e' =>
    cases f
    · exact hxadd e' _ _
    · exact hxadd e' _ _
  | insert =>
    obtain ⟨hlt, -⟩ := List.getElem?_eq_some_iff.1 h
    refine ⟨v, ?_⟩
    show (Shared.insert _ _ _).elems[e]? = _
    unfold Shared.insert
    split_ifs
    · exact (List.getElem?_append_left hlt).trans h
    · exact h
  | _ => exact ⟨v, h⟩

/-- An entry of `stats` was there, or the run has inserted it. -/
theorem lookup_step {key : Ip5tuple} {e : ℕ} (h : (r.step sh).1.stats.lookup key = some e) :
    sh.stats.lookup key = some e ∨
      r.pc = .insert ∧ key = r.key ∧ ∃ v, (r.step sh).1.elems[e]? = some (key, v) := by
  obtain ⟨key', len, pc⟩ := r
  cases pc with
  | xadd f e' => cases f <;> exact Or.inl h
  | insert =>
    change (Shared.insert _ _ _).stats.lookup key = some e at h
    show _ ∨ _ ∧ _ ∧ ∃ v, (Shared.insert _ _ _).elems[e]? = some (key, v)
    unfold Shared.insert at h ⊢
    split_ifs at h ⊢ with hroom
    · dsimp only at h ⊢
      rw [BoundedMap.lookup_put] at h
      split_ifs at h with hput
      · obtain rfl := Option.some.inj h
        exact Or.inr ⟨rfl, hput.1, _, by rw [hput.1]; exact List.getElem?_concat_length⟩
      · exact Or.inl h
    · exact Or.inl h
  | _ => exact Or.inl h

/-! ## The invariant of all schedules -/

/-- What the shared tables and the runs always satisfy: the runs are those of the packets, `stats`
and the runs refer to elements of their keys, and a flow with an entry has a run that has counted its
packet. -/
structure Consistent (ps : List (Ip5tuple × BitVec 32)) (w : World Shared Thread) : Prop where
  runs : w.threads.map (fun r => (r.key, r.len)) = ps
  elems : ∀ key e, w.shared.stats.lookup key = some e → ∃ v, w.shared.elems[e]? = some (key, v)
  pointers : ∀ r ∈ w.threads, ∀ f e, r.pc = .xadd f e → ∃ v, w.shared.elems[e]? = some (r.key, v)
  entries : ∀ key ∈ w.shared.stats, ∃ r ∈ w.threads, r.key = key ∧ r.pc.counted .pkts

theorem consistent_start (frames : List Skb) : Consistent (seen frames) (start frames) where
  runs := by
    rw [start, List.map_map]
    exact List.map_id _
  elems := fun key e h => absurd h (by simp [start])
  pointers := by
    intro r hr f e hpc
    obtain ⟨p, -, rfl⟩ := List.mem_map.1 hr
    exact absurd hpc (by simp)
  entries := fun key h => absurd h (BoundedMap.not_mem_empty key)

variable {ps : List (Ip5tuple × BitVec 32)} {w : World Shared Thread}

theorem Consistent.next (h : Consistent ps w) (i : ℕ) : Consistent ps (w.next Thread.step i) := by
  cases hi : w.threads[i]? with
  | none => rwa [World.next_of_none hi]
  | some r =>
    have hr : r ∈ w.threads := List.mem_of_getElem? hi
    have hshared := World.shared_next Thread.step hi
    constructor
    · rw [World.map_next (fun s t => Prod.ext (step_key s t).1 (step_key s t).2)]
      exact h.runs
    · intro key e hlookup
      rw [hshared] at hlookup ⊢
      rcases lookup_step w.shared r hlookup with hold | ⟨-, -, hnew⟩
      · obtain ⟨v, hv⟩ := h.elems key e hold
        exact elems_step w.shared r hv
      · exact hnew
    · intro u hu f e hpc
      rw [hshared]
      rcases World.mem_next hi hu with rfl | hold
      · -- The run has its pointer from a lookup, or had it already.
        rw [(step_key w.shared r).1]
        rcases pc_step w.shared r hpc with ⟨hlookup, -⟩ | hold
        · obtain ⟨v, hv⟩ := h.elems _ _ hlookup
          exact elems_step w.shared r hv
        · obtain ⟨v, hv⟩ := h.pointers r hr _ _ hold
          exact elems_step w.shared r hv
      · obtain ⟨v, hv⟩ := h.pointers u hold f e hpc
        exact elems_step w.shared r hv
    · intro key hkey
      rw [hshared] at hkey
      obtain ⟨e, he⟩ := Option.isSome_iff_exists.1 (BoundedMap.lookup_isSome.2 hkey)
      have hself := List.mem_of_getElem? (World.getElem?_next_self Thread.step hi)
      rcases lookup_step w.shared r he with hold | ⟨hpc, hkey', -⟩
      · have hmem : key ∈ w.shared.stats := BoundedMap.lookup_isSome.1 (by rw [hold]; rfl)
        obtain ⟨u, hu, hukey, hcounted⟩ := h.entries key hmem
        obtain ⟨j, hj⟩ := List.getElem?_of_mem hu
        by_cases hij : i = j
        · subst hij
          obtain rfl : r = u := Option.some.inj (hi.symm.trans hj)
          refine ⟨_, hself, (step_key w.shared r).1.trans hukey, ?_⟩
          rw [(counted_step w.shared r .pkts).1, hcounted]
          rfl
        · rw [← World.getElem?_next_ne Thread.step hij] at hj
          exact ⟨u, List.mem_of_getElem? hj, hukey, hcounted⟩
      · refine ⟨_, hself, (step_key w.shared r).1.trans hkey'.symm, ?_⟩
        have hadds : r.adds .pkts = true := Thread.adds_iff.2 (Or.inl hpc)
        rw [(counted_step w.shared r .pkts).1, hadds, Bool.or_true]

/-- With at most 2048 flows there is room for every insertion. -/
theorem Consistent.room (h : Consistent ps w) (hflows : (flows ps).card ≤ 2048) {r : Thread} (hr : r ∈ w.threads) :
    w.shared.stats.Room r.key := by
  by_cases hmem : r.key ∈ w.shared.stats
  · exact Or.inl hmem
  have hflow (u : Thread) (hu : u ∈ w.threads) : u.key ∈ flows ps := by
    rw [← h.runs, flows, List.map_map, List.mem_toFinset]
    exact List.mem_map_of_mem hu
  have hkeys (key : Ip5tuple) : key ∈ w.shared.stats ↔
      key ∈ (flows ps).filter (· ∈ w.shared.stats) := by
    rw [Finset.mem_filter, iff_and_self]
    intro hkey
    obtain ⟨u, hu, rfl, -⟩ := h.entries key hkey
    exact hflow u hu
  -- The flow of the run is one of the flows, and none of the keys.
  have hlt : ((flows ps).filter (· ∈ w.shared.stats)).card < (flows ps).card := by
    refine Finset.card_lt_card (Finset.filter_ssubset.2 ⟨r.key, hflow r hr, hmem⟩)
  refine Or.inr ?_
  rw [BoundedMap.size_eq_card hkeys]
  omega

/-- A run that is not interrupted, among others: it finishes, and its packet is counted as
`flow_monitor` counts it. -/
theorem Consistent.run_alone (h : Consistent ps w) (hflows : (flows ps).card ≤ 2048) {i : ℕ}
    {key : Ip5tuple} {len : BitVec 32} (hi : w.threads[i]? = some ⟨key, len, .lookup⟩) :
    ∃ sh', run (World.next Thread.step) w (List.replicate 5 i) =
        ⟨sh', w.threads.set i ⟨key, len, .done⟩⟩ ∧
      (∀ key', sh'.entry key' = if key' = key then
        some (((w.shared.entry key).getD ⟨0, 0⟩).add len) else w.shared.entry key') ∧
      sh'.szhist = updateHistogram w.shared.szhist len := by
  obtain ⟨sh', hrun, hentry, hszhist⟩ := step_alone w.shared key len
    (h.room hflows (List.mem_of_getElem? hi)) h.elems
  refine ⟨sh', ?_, hentry, hszhist⟩
  rw [World.run_replicate hi, hrun]

/-! ## The counters, step by step -/

/-- What the runs have added to a counter of a flow. -/
def added (w : World Shared Thread) (key : Ip5tuple) (f : Field) : ℕ :=
  w.tally (Thread.contribution key f)

variable {i : ℕ} {r : Thread}

theorem added_next (hi : w.threads[i]? = some r) (key : Ip5tuple) (f : Field) :
    added (w.next Thread.step i) key f =
      added w key f + if r.key = key ∧ r.adds f then (r.amount f).toNat else 0 := by
  have htally := World.tally_next Thread.step (Thread.contribution key f) hi
  rw [contribution_step] at htally
  unfold added
  omega

/-- An operation leaves the counters alone that it does not count in. -/
theorem Consistent.value_of_not_adds (h : Consistent ps w) (hroom : w.shared.stats.Room r.key)
    (hr : r ∈ w.threads) {key : Ip5tuple} {f : Field} (hnot : ¬ (r.key = key ∧ r.adds f)) :
    (r.step w.shared).1.value key f = w.shared.value key f := by
  have hxadd (e : ℕ) (f' : Field) (hpc : r.pc = .xadd f' e) :
      (w.shared.xadd e f' (r.amount f')).value key f = w.shared.value key f := by
    unfold Shared.value
    rw [entry_xadd]
    split_ifs with he
    · -- The element is one of the flow, so the counter is the other one.
      obtain ⟨v, hv⟩ := h.elems key e he
      obtain ⟨v', hv'⟩ := h.pointers r hr f' e hpc
      have hkey : r.key = key := (Prod.ext_iff.1 (Option.some.inj (hv'.symm.trans hv))).1
      have hf : f ≠ f' := by
        rintro rfl
        exact hnot ⟨hkey, Thread.adds_iff.2 (Or.inr ⟨e, hpc⟩)⟩
      cases w.shared.entry key with
      | none => rfl
      | some s =>
        show ((s.xadd f' _).get f).toNat = (s.get f).toNat
        rw [get_xadd, if_neg hf]
    · rfl
  obtain ⟨key', len, pc⟩ := r
  cases pc with
  | xadd f' e => cases f' <;> exact hxadd e _ rfl
  | insert =>
    have hkey : key ≠ key' := fun hk => hnot ⟨hk.symm, rfl⟩
    show (Shared.insert _ _ _).value key f = _
    unfold Shared.value
    rw [entry_insert hroom h.elems, if_neg hkey]
  | _ => rfl

/-- An insertion starts the counters of its flow. -/
theorem Consistent.value_insert (h : Consistent ps w) (hroom : w.shared.stats.Room r.key)
    (hpc : r.pc = .insert) (f : Field) :
    (r.step w.shared).1.value r.key f = (r.amount f).toNat := by
  obtain ⟨key, len, pc⟩ := r
  obtain rfl : pc = .insert := hpc
  show (Shared.insert _ _ _).value key f = _
  unfold Shared.value
  rw [entry_insert hroom h.elems, if_pos rfl]
  cases f <;> rfl

/-- An add to the element that `stats` refers to counts, modulo the width of the counter; an add to
an element that has been replaced does not. -/
theorem value_xadd (sh : Shared) {f : Field} {e : ℕ} (hpc : r.pc = .xadd f e) :
    (r.step sh).1.value r.key f =
      if sh.stats.lookup r.key = some e ∧ (sh.entry r.key).isSome then
        (sh.value r.key f + (r.amount f).toNat) % 2 ^ 64
      else sh.value r.key f := by
  have hstep : (r.step sh).1 = sh.xadd e f (r.amount f) := by
    obtain ⟨key, len, pc⟩ := r
    obtain rfl : pc = .xadd f e := hpc
    cases f <;> rfl
  rw [hstep]
  unfold Shared.value
  rw [entry_xadd]
  cases sh.entry r.key with
  | none => simp
  | some s =>
    split_ifs with he hand hand
    · show ((s.xadd f _).get f).toNat = _
      rw [get_xadd, if_pos rfl, BitVec.toNat_add]
      rfl
    · exact absurd ⟨he, rfl⟩ hand
    · exact absurd hand.1 he
    · rfl

/-- So far every counter is exact, and no run has a pointer to an element that has been replaced. -/
structure Exact (w : World Shared Thread) : Prop where
  values : ∀ key f, w.shared.value key f = added w key f
  pointers : ∀ r ∈ w.threads, ∀ f e, r.pc = .xadd f e → w.shared.stats.lookup r.key = some e

/-- The counter has lost something. -/
def Lost (w : World Shared Thread) (key : Ip5tuple) (f : Field) : Prop :=
  w.shared.value key f < added w key f

theorem Consistent.entry_isSome (h : Consistent ps w) {key : Ip5tuple} {e : ℕ}
    (he : w.shared.stats.lookup key = some e) : (w.shared.entry key).isSome := by
  obtain ⟨v, hv⟩ := h.elems key e he
  unfold Shared.entry
  rw [he, Option.bind_some, hv]
  rfl

/-- A flow with an entry has been counted at least once. -/
theorem Consistent.added_pos (h : Consistent ps w) {key : Ip5tuple}
    (hkey : key ∈ w.shared.stats) : 0 < added w key .pkts := by
  obtain ⟨r, hr, hrkey, hcounted⟩ := h.entries key hkey
  have hone : r.contribution key .pkts = 1 := if_pos ⟨hrkey, hcounted⟩
  have hle := List.single_le_sum (l := w.threads.map (Thread.contribution key .pkts))
    (fun _ _ => Nat.zero_le _) _ (List.mem_map_of_mem hr)
  rw [hone] at hle
  exact hle

/-- What is lost stays lost. -/
theorem Consistent.lost_next (h : Consistent ps w) (hflows : (flows ps).card ≤ 2048)
    {key : Ip5tuple} {f : Field} (hlost : Lost w key f) (i : ℕ) :
    Lost (w.next Thread.step i) key f := by
  cases hi : w.threads[i]? with
  | none => rwa [World.next_of_none hi]
  | some r =>
    have hr : r ∈ w.threads := List.mem_of_getElem? hi
    have hroom := h.room hflows hr
    have hshared := World.shared_next Thread.step hi
    unfold Lost at hlost ⊢
    rw [hshared, added_next hi]
    by_cases hadds : r.key = key ∧ r.adds f
    · -- The counter grows by the amount at most.
      obtain ⟨rfl, hf⟩ := hadds
      rw [if_pos ⟨rfl, hf⟩]
      rcases Thread.adds_iff.1 hf with hpc | ⟨e, hpc⟩
      · rw [h.value_insert hroom hpc]
        omega
      · rw [value_xadd w.shared hpc]
        have hmod := Nat.mod_le (w.shared.value r.key f + (r.amount f).toNat) (2 ^ 64)
        split_ifs
        · omega
        · omega
    · rw [if_neg hadds, h.value_of_not_adds hroom hr hadds]
      omega

/-- An entry of `stats` refers to the same element after a step, if the step does not insert there. -/
theorem lookup_step_ne (sh : Shared) {key : Ip5tuple} (h : r.pc = .insert → key ≠ r.key) :
    (r.step sh).1.stats.lookup key = sh.stats.lookup key := by
  obtain ⟨key', len, pc⟩ := r
  cases pc with
  | xadd f e => cases f <;> rfl
  | insert =>
    show (Shared.insert _ _ _).stats.lookup key = _
    unfold Shared.insert
    split_ifs
    · exact BoundedMap.lookup_put_ne _ (h rfl)
    · rfl
  | _ => rfl

theorem value_of_lookup {sh : Shared} {key : Ip5tuple} {e : ℕ} {p : Ip5tuple × FlowStats}
    (he : sh.stats.lookup key = some e) (hp : sh.elems[e]? = some p) (f : Field) :
    sh.value key f = (p.2.get f).toNat := by
  unfold Shared.value Shared.entry
  rw [he, Option.bind_some, hp]
  rfl

/-- An operation that loses nothing keeps the counters exact. -/
theorem Exact.next (hex : Exact w) (h : Consistent ps w) (hflows : (flows ps).card ≤ 2048)
    (hkeep : LosesNothing w i) : Exact (w.next Thread.step i) := by
  cases hi : w.threads[i]? with
  | none => rwa [World.next_of_none hi]
  | some r =>
    have hr : r ∈ w.threads := List.mem_of_getElem? hi
    have hroom := h.room hflows hr
    have hop := hkeep r hi
    have hshared := World.shared_next Thread.step hi
    constructor
    · intro key f
      rw [hshared, added_next hi]
      by_cases hadds : r.key = key ∧ r.adds f
      · obtain ⟨rfl, hf⟩ := hadds
        rw [if_pos ⟨rfl, hf⟩, ← hex.values]
        rcases Thread.adds_iff.1 hf with hpc | ⟨e, hpc⟩
        · -- The flow has no entry yet, so nothing is lost with the old one.
          rw [hpc] at hop
          have hnone : w.shared.entry r.key = none := by
            unfold Shared.entry
            rw [BoundedMap.lookup_eq_none.2 hop]
            rfl
          rw [h.value_insert hroom hpc]
          unfold Shared.value
          rw [hnone]
          exact (Nat.zero_add _).symm
        · -- The pointer is to the entry of the flow, and the add does not wrap.
          rw [hpc] at hop
          have he := hex.pointers r hr f e hpc
          obtain ⟨v, hv⟩ := h.elems _ _ he
          have hlt := hop _ hv
          rw [← value_of_lookup he hv] at hlt
          rw [value_xadd w.shared hpc, if_pos ⟨he, h.entry_isSome he⟩, Nat.mod_eq_of_lt hlt]
      · rw [if_neg hadds, h.value_of_not_adds hroom hr hadds]
        exact hex.values key f
    · intro u hu f e hpc
      rw [hshared]
      rcases World.mem_next hi hu with rfl | hold
      · rw [(step_key w.shared r).1]
        rcases pc_step w.shared r hpc with ⟨hlookup, hat⟩ | hat
        · rw [lookup_step_ne w.shared (fun hins => absurd (hins.symm.trans hat) (by simp))]
          exact hlookup
        · rw [lookup_step_ne w.shared (fun hins => absurd (hins.symm.trans hat) (by simp))]
          exact hex.pointers r hr _ _ hat
      · have hlookup := hex.pointers u hold f e hpc
        rw [lookup_step_ne w.shared]
        · exact hlookup
        · -- The insertion is for a flow without an entry.
          intro hins heq
          rw [hins] at hop
          exact hop (BoundedMap.lookup_isSome.1 (by rw [← heq, hlookup]; rfl))

/-- Any other operation loses something. -/
theorem Exact.lost_of_not (hex : Exact w) (h : Consistent ps w) (hflows : (flows ps).card ≤ 2048)
    (hloses : ¬ LosesNothing w i) : ∃ key f, Lost (w.next Thread.step i) key f := by
  unfold LosesNothing at hloses
  push Not at hloses
  obtain ⟨r, hi, hop⟩ := hloses
  have hr : r ∈ w.threads := List.mem_of_getElem? hi
  have hroom := h.room hflows hr
  have hshared := World.shared_next Thread.step hi
  cases hpc : r.pc with
  | insert =>
    rw [hpc] at hop
    -- The flow has been counted already, and the insertion starts it at one packet again.
    have hpos := h.added_pos (not_not.1 hop)
    have hone : (r.amount .pkts).toNat = 1 := rfl
    have hadds : r.adds .pkts = true := Thread.adds_iff.2 (Or.inl hpc)
    refine ⟨r.key, .pkts, ?_⟩
    unfold Lost
    rw [hshared, h.value_insert hroom hpc, added_next hi, if_pos ⟨rfl, hadds⟩]
    omega
  | xadd f e =>
    rw [hpc] at hop
    dsimp only at hop
    push Not at hop
    obtain ⟨p, hp, hwide⟩ := hop
    have he := hex.pointers r hr f e hpc
    have hadds : r.adds f = true := Thread.adds_iff.2 (Or.inr ⟨e, hpc⟩)
    rw [← value_of_lookup he hp] at hwide
    -- The counter wraps, so it ends below what it should have reached.
    have hlt := Nat.mod_lt (w.shared.value r.key f + (r.amount f).toNat)
      (Nat.two_pow_pos 64)
    refine ⟨r.key, f, ?_⟩
    unfold Lost
    rw [hshared, value_xadd w.shared hpc, if_pos ⟨he, h.entry_isSome he⟩, added_next hi,
      if_pos ⟨rfl, hadds⟩, ← hex.values]
    omega
  | _ =>
    rw [hpc] at hop
    exact absurd trivial hop

/-! ## Whole schedules -/

theorem exact_start (frames : List Skb) : Exact (start frames) where
  values := by
    intro key f
    have hzero : ∀ n ∈ (start frames).threads.map (Thread.contribution key f), n = 0 := by
      intro n hn
      obtain ⟨r, hr, rfl⟩ := List.mem_map.1 hn
      obtain ⟨p, -, rfl⟩ := List.mem_map.1 hr
      exact if_neg (fun hand => absurd hand.2 (by simp [Pc.counted]))
    exact (List.sum_eq_zero hzero).symm
  pointers := by
    intro r hr f e hpc
    obtain ⟨p, -, rfl⟩ := List.mem_map.1 hr
    exact absurd hpc (by simp)

/-- From exact counters on, a schedule loses something exactly if one of its operations does. -/
theorem exact_or_lost (hex : Exact w) (h : Consistent ps w) (hflows : (flows ps).card ≤ 2048)
    (is : List ℕ) :
    (Along (World.next Thread.step) LosesNothing w is → Exact (run (World.next Thread.step) w is)) ∧
      (¬ Along (World.next Thread.step) LosesNothing w is →
        ∃ key f, Lost (run (World.next Thread.step) w is) key f) := by
  induction is generalizing w with
  | nil => exact ⟨fun _ => hex, fun hnot => absurd trivial hnot⟩
  | cons i is ih =>
    by_cases hop : LosesNothing w i
    · obtain ⟨hexact, hlost⟩ := ih (hex.next h hflows hop) (h.next i)
      exact ⟨fun halong => hexact halong.2, fun hnot => hlost fun halong => hnot ⟨hop, halong⟩⟩
    · refine ⟨fun halong => absurd halong.1 hop, fun _ => ?_⟩
      obtain ⟨key, f, hlost⟩ := hex.lost_of_not h hflows hop
      refine ⟨key, f, ?_⟩
      have hnext (w : World Shared Thread) (i : ℕ) (hw : Consistent ps w ∧ Lost w key f) :
          Consistent ps (w.next Thread.step i) ∧ Lost (w.next Thread.step i) key f :=
        ⟨hw.1.next i, hw.1.lost_next hflows hw.2 i⟩
      have hkeep := run_invariant (I := fun w => Consistent ps w ∧ Lost w key f) hnext
        ⟨h.next i, hlost⟩ is
      exact hkeep.2

/-- When all runs have finished, each has counted its packet. -/
theorem added_of_finished (h : Consistent ps w) (hdone : Finished w) (key : Ip5tuple) :
    added w key .pkts = ofFlow ps key ∧ added w key .bytes = bytesOf ps key := by
  have hsum (f : Field) (g : Ip5tuple × BitVec 32 → ℕ)
      (hg : ∀ r : Thread, (r.amount f).toNat = g (r.key, r.len)) :
      added w key f = ((ps.filter (·.1 = key)).map g).sum := by
    have hcontr : ∀ r ∈ w.threads, r.contribution key f =
        if (r.key, r.len).1 = key then g (r.key, r.len) else 0 := by
      intro r hr
      unfold Thread.contribution
      rw [hdone r hr, hg]
      exact if_congr (and_iff_left rfl) rfl rfl
    rw [added, World.tally, List.map_congr_left hcontr, ← h.runs]
    -- What is left is about the list of the runs alone.
    generalize w.threads = rs
    induction rs with
    | nil => rfl
    | cons r rs ih =>
      rw [List.map_cons, List.map_cons, List.sum_cons, ih, List.filter_cons]
      split_ifs with hkey hkey' hkey'
      · rw [List.map_cons, List.sum_cons]
      · exact absurd (by simpa using hkey) hkey'
      · exact absurd (by simpa using hkey') hkey
      · exact Nat.zero_add _
  constructor
  · rw [hsum .pkts (fun _ => 1) (fun _ => rfl), ofFlow, List.count, List.countP_map,
      List.countP_eq_length_filter, List.map_const', List.sum_replicate, smul_eq_mul, Nat.mul_one]
    rfl
  · refine hsum .bytes (·.2.toNat) fun r => ?_
    show (r.len.setWidth 64).toNat = r.len.toNat
    rw [BitVec.toNat_setWidth]
    have hlt := r.len.isLt
    omega

theorem consistent_schedule (frames : List Skb) (is : List ℕ) :
    Consistent (seen frames) (schedule frames is) :=
  run_invariant (fun _ i h => h.next i) (consistent_start frames) is

/-- A finished schedule has counted everything exactly if none of its operations loses something. -/
theorem countsAll_iff_along {frames : List Skb} (hflows : (flows (seen frames)).card ≤ 2048)
    {is : List ℕ} (hdone : Finished (schedule frames is)) :
    CountsAll frames (schedule frames is).shared ↔
      Along (World.next Thread.step) LosesNothing (start frames) is := by
  have hadded := added_of_finished (consistent_schedule frames is) hdone
  obtain ⟨hexact, hlost⟩ :=
    exact_or_lost (exact_start frames) (consistent_start frames) hflows is
  constructor
  · intro hall
    by_contra hnot
    obtain ⟨key, f, hlt⟩ := hlost hnot
    have hkey := hall key
    rw [← (hadded key).1, ← (hadded key).2] at hkey
    cases f with
    | pkts => exact absurd hkey.1 (Nat.ne_of_lt hlt)
    | bytes => exact absurd hkey.2 (Nat.ne_of_lt hlt)
  · intro halong key
    rw [← (hadded key).1, ← (hadded key).2]
    exact ⟨(hexact halong).values key .pkts, (hexact halong).values key .bytes⟩

/-! ## Packets of different flows -/

/-- No run shares its flow with an entry that it has not made itself. -/
structure Fresh (w : World Shared Thread) : Prop where
  keys : ∀ r ∈ w.threads, r.pc = .lookup ∨ r.pc = .insert → r.key ∉ w.shared.stats
  pointers : ∀ r ∈ w.threads, ∀ f e, r.pc ≠ .xadd f e

theorem fresh_start (frames : List Skb) : Fresh (start frames) where
  keys := fun _ _ _ => BoundedMap.not_mem_empty _
  pointers := by
    intro r hr f e
    obtain ⟨p, -, rfl⟩ := List.mem_map.1 hr
    simp

theorem Fresh.losesNothing (h : Fresh w) (i : ℕ) : LosesNothing w i := by
  intro r hi
  have hr : r ∈ w.threads := List.mem_of_getElem? hi
  cases hpc : r.pc with
  | insert => exact h.keys r hr (Or.inr hpc)
  | xadd f e => exact absurd hpc (h.pointers r hr f e)
  | _ => trivial

/-- An insertion comes from a lookup. -/
theorem pc_step_insert (sh : Shared) (h : (r.step sh).2.pc = .lookup ∨ (r.step sh).2.pc = .insert) :
    r.pc = .lookup := by
  obtain ⟨key, len, pc⟩ := r
  cases pc with
  | lookup => rfl
  | xadd f e => cases f <;> simp [Thread.step] at h
  | histLookup =>
    change (bucketOf (len / 64)).elim Pc.done Pc.histAdd = _ ∨
      (bucketOf (len / 64)).elim Pc.done Pc.histAdd = _ at h
    cases hb : bucketOf (len / 64) <;> rw [hb] at h <;> simp at h
  | _ => simp [Thread.step] at h

theorem Fresh.next (hfresh : Fresh w) (h : Consistent ps w) (hps : (ps.map Prod.fst).Nodup)
    (i : ℕ) : Fresh (w.next Thread.step i) := by
  have hkeys : (w.threads.map Thread.key).Nodup := by
    rw [← h.runs, List.map_map] at hps
    exact hps
  cases hi : w.threads[i]? with
  | none => rwa [World.next_of_none hi]
  | some r =>
    have hr : r ∈ w.threads := List.mem_of_getElem? hi
    have hself := World.getElem?_next_self Thread.step hi
    have hshared := World.shared_next Thread.step hi
    constructor
    · intro u hu hpc
      obtain ⟨j, hj⟩ := List.getElem?_of_mem hu
      rw [hshared, ← BoundedMap.lookup_eq_none]
      by_cases hij : i = j
      · subst hij
        obtain rfl := Option.some.inj (hself.symm.trans hj)
        have hat := pc_step_insert w.shared hpc
        rw [lookup_step_ne w.shared (fun hins => absurd (hins.symm.trans hat) (by simp)),
          (step_key w.shared r).1, BoundedMap.lookup_eq_none]
        exact hfresh.keys r hr (Or.inl hat)
      · -- The other runs have other flows.
        rw [World.getElem?_next_ne Thread.step hij] at hj
        have hne : u.key ≠ r.key := by
          intro heq
          have hget (k : ℕ) (v : Thread) (hv : w.threads[k]? = some v) :
              (w.threads.map Thread.key)[k]? = some v.key := by
            rw [List.getElem?_map, hv]
            rfl
          obtain ⟨hlt, -⟩ := List.getElem?_eq_some_iff.1 (hget i r hi)
          exact hij ((List.getElem?_inj hlt hkeys).1
            ((hget i r hi).trans ((congrArg some heq.symm).trans (hget j u hj).symm)))
        rw [lookup_step_ne w.shared (fun _ => hne), BoundedMap.lookup_eq_none]
        exact hfresh.keys u (List.mem_of_getElem? hj) hpc
    · intro u hu f e hpc
      rcases World.mem_next hi hu with rfl | hold
      · rcases pc_step w.shared r hpc with ⟨hlookup, hat⟩ | hat
        · have hnone := BoundedMap.lookup_eq_none.2 (hfresh.keys r hr (Or.inl hat))
          exact absurd (hnone.symm.trans hlookup) (by simp)
        · exact hfresh.pointers r hr _ _ hat
      · exact hfresh.pointers u hold f e hpc

/-- With one packet for each flow nothing is ever lost. -/
theorem along_of_nodup {frames : List Skb} (h : ((seen frames).map Prod.fst).Nodup) (is : List ℕ) :
    Along (World.next Thread.step) LosesNothing (start frames) is := by
  have hstep : ∀ w i, Consistent (seen frames) w ∧ Fresh w → True →
      LosesNothing w i ∧ Consistent (seen frames) (w.next Thread.step i) ∧
        Fresh (w.next Thread.step i) :=
    fun w i ⟨hcons, hfresh⟩ _ => ⟨hfresh.losesNothing i, hcons.next i, hfresh.next hcons h i⟩
  have htrue (w : World Shared Thread) : Along (World.next Thread.step) (fun _ _ => True) w is := by
    induction is generalizing w with
    | nil => trivial
    | cons i is ih => exact ⟨trivial, ih _⟩
  exact (along_of_invariant hstep ⟨consistent_start frames, fresh_start frames⟩ (htrue _)).1

/-! ## Two packets of one flow -/

/-- The operations that a run has left at most. -/
def Thread.rank (r : Thread) : ℕ :=
  match r.pc with
  | .lookup => 5
  | .xadd .pkts _ => 4
  | .xadd .bytes _ => 3
  | .insert => 3
  | .histLookup => 2
  | .histAdd _ => 1
  | .done => 0

theorem rank_step (sh : Shared) (r : Thread) (h : r.rank ≠ 0) : (r.step sh).2.rank < r.rank := by
  obtain ⟨key, len, pc⟩ := r
  cases pc with
  | lookup =>
    show Thread.rank ⟨key, len, (sh.stats.lookup key).elim .insert (.xadd .pkts)⟩ < 5
    cases sh.stats.lookup key with
    | none => exact (by decide : 3 < 5)
    | some e => exact (by decide : 4 < 5)
  | xadd f e =>
    cases f with
    | pkts => exact (by decide : 3 < 4)
    | bytes => exact (by decide : 2 < 3)
  | insert => exact (by decide : 2 < 3)
  | histLookup =>
    show Thread.rank ⟨key, len, (bucketOf (len / 64)).elim .done .histAdd⟩ < 2
    cases bucketOf (len / 64) with
    | none => exact (by decide : 0 < 2)
    | some j => exact (by decide : 1 < 2)
  | histAdd j => exact (by decide : 0 < 1)
  | done => exact absurd rfl h

/-- Every schedule can be finished. -/
theorem exists_finished (w : World Shared Thread) :
    ∃ is, Finished (run (World.next Thread.step) w is) := by
  obtain ⟨is, his⟩ := World.exists_schedule rank_step w
  refine ⟨is, fun r hr => ?_⟩
  have hrank := his r hr
  obtain ⟨key, len, pc⟩ := r
  cases pc with
  | xadd f e => cases f <;> exact absurd hrank (by simp [Thread.rank])
  | done => rfl
  | _ => exact absurd hrank (by simp [Thread.rank])

/-- Two runs of one flow that look it up before either inserts it. -/
theorem exists_losing {frames : List Skb} (h : ¬ ((seen frames).map Prod.fst).Nodup) :
    ∃ is, Finished (schedule frames is) ∧
      ¬ Along (World.next Thread.step) LosesNothing (start frames) is := by
  rw [List.nodup_iff_getElem?_ne_getElem?] at h
  push Not at h
  obtain ⟨i, j, hlt, hj, hsame⟩ := h
  rw [List.length_map] at hj
  have hp := List.getElem?_eq_getElem (hlt.trans hj)
  have hq := List.getElem?_eq_getElem hj
  generalize (seen frames)[i] = p at hp
  generalize (seen frames)[j] = q at hq
  rw [List.getElem?_map, List.getElem?_map, hp, hq] at hsame
  have hkey : p.1 = q.1 := Option.some.inj hsame
  have hij : i ≠ j := Nat.ne_of_lt hlt
  -- Both look up their flow in the empty table.
  have hi0 : (start frames).threads[i]? = some ⟨p.1, p.2, .lookup⟩ := by
    rw [start, List.getElem?_map, hp]
    rfl
  have hj0 : (start frames).threads[j]? = some ⟨q.1, q.2, .lookup⟩ := by
    rw [start, List.getElem?_map, hq]
    rfl
  set w₁ := (start frames).next Thread.step i with hw₁
  have hs1 : w₁.shared = (start frames).shared := by
    rw [hw₁, World.next_of_some hi0]
    rfl
  have hi1 : w₁.threads[i]? = some ⟨p.1, p.2, .insert⟩ := World.getElem?_next_self Thread.step hi0
  have hj1 : w₁.threads[j]? = some ⟨q.1, q.2, .lookup⟩ := (World.getElem?_next_ne Thread.step hij).trans hj0
  set w₂ := w₁.next Thread.step j with hw₂
  have hs2 : w₂.shared = (start frames).shared := by
    rw [hw₂, World.next_of_some hj1]
    exact hs1
  have hi2 : w₂.threads[i]? = some ⟨p.1, p.2, .insert⟩ :=
    (World.getElem?_next_ne Thread.step hij.symm).trans hi1
  have hj2 : w₂.threads[j]? = some ⟨q.1, q.2, .insert⟩ := by
    have hself := World.getElem?_next_self Thread.step hj1
    rw [hs1] at hself
    exact hself
  -- Then the first inserts it.
  set w₃ := w₂.next Thread.step i with hw₃
  have hj3 : w₃.threads[j]? = some ⟨q.1, q.2, .insert⟩ := (World.getElem?_next_ne Thread.step hij).trans hj2
  have hroom : (BoundedMap.empty : BoundedMap Ip5tuple ℕ 2048).Room p.1 := Or.inr (by decide)
  have hmem : p.1 ∈ w₃.shared.stats := by
    have hs3 : w₃.shared = (start frames).shared.insert p.1 ⟨1, p.2.setWidth 64⟩ := by
      rw [hw₃, World.next_of_some hi2, hs2]
      rfl
    rw [hs3, ← BoundedMap.lookup_isSome]
    show ((if BoundedMap.empty.Room p.1 then _ else _ : Shared).stats.lookup p.1).isSome
    rw [if_pos hroom]
    show ((BoundedMap.empty.put p.1 _).lookup p.1).isSome
    rw [BoundedMap.lookup_put_self _ hroom]
    rfl
  have hlosing : ¬ LosesNothing w₃ j := by
    intro hkeep
    have hnew : q.1 ∉ w₃.shared.stats := hkeep _ hj3
    exact hnew (hkey ▸ hmem)
  obtain ⟨is, his⟩ := exists_finished (w₃.next Thread.step j)
  exact ⟨i :: j :: i :: j :: is, his, fun halong => hlosing halong.2.2.2.1⟩

/-- A finished schedule of the flow monitor on a set of packets has counted everything exactly if no
insertion has replaced an entry and no add has wrapped, and all finished schedules have done so
exactly if no two packets have the same flow. -/
theorem counters_exact_iff (frames : List Skb) (hflows : (flows (seen frames)).card ≤ 2048) :
    (∀ is, Finished (schedule frames is) →
      (CountsAll frames (schedule frames is).shared ↔
        Along (World.next Thread.step) LosesNothing (start frames) is)) ∧
    ((∀ is, Finished (schedule frames is) → CountsAll frames (schedule frames is).shared) ↔
      ((seen frames).map Prod.fst).Nodup) := by
  refine ⟨fun is hdone => countsAll_iff_along hflows hdone, ?_, ?_⟩
  · intro hall
    by_contra hdup
    obtain ⟨is, hdone, hlosing⟩ := exists_losing hdup
    exact hlosing ((countsAll_iff_along hflows hdone).1 (hall is hdone))
  · intro hnodup is hdone
    exact (countsAll_iff_along hflows hdone).2 (along_of_nodup hnodup is)

/-! ## Two packets at once -/

/-- Two aggregated packets. -/
theorem counters_exact_iff_giant :
    (∀ is, Finished (schedule [giantFrame, giantFrame] is) →
      (CountsAll [giantFrame, giantFrame] (schedule [giantFrame, giantFrame] is).shared ↔
        Along (World.next Thread.step) LosesNothing (start [giantFrame, giantFrame]) is)) ∧
    ((∀ is, Finished (schedule [giantFrame, giantFrame] is) →
        CountsAll [giantFrame, giantFrame] (schedule [giantFrame, giantFrame] is).shared) ↔
      ((seen [giantFrame, giantFrame]).map Prod.fst).Nodup) :=
  counters_exact_iff [giantFrame, giantFrame] (by decide)

/-- Both look up their flow, then both insert it: one of two packets is counted. -/
theorem not_countsAll_giant :
    (flows (seen [giantFrame, giantFrame])).card ≤ 2048 ∧
      Finished (schedule [giantFrame, giantFrame] [0, 1, 0, 1, 0, 1]) ∧
      ¬ CountsAll [giantFrame, giantFrame]
        (schedule [giantFrame, giantFrame] [0, 1, 0, 1, 0, 1]).shared := by
  refine ⟨by decide, ?_, fun hall => ?_⟩
  · intro r hr
    have hthreads : (schedule [giantFrame, giantFrame] [0, 1, 0, 1, 0, 1]).threads =
        [⟨⟨0x0100000A, 0x0200000A, 0, 0, 1⟩, 1536, .done⟩,
          ⟨⟨0x0100000A, 0x0200000A, 0, 0, 1⟩, 1536, .done⟩] := rfl
    rw [hthreads] at hr
    rcases List.mem_pair.1 hr with rfl | rfl <;> rfl
  · exact absurd (hall ⟨0x0100000A, 0x0200000A, 0, 0, 1⟩).1 (by decide)

end FlowMonitor

end ChainingBox
