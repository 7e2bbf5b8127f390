import ChainingBox.Dataplane.Classifier
import ChainingBox.Lib.Runs

/-!
# The statistics of the stages

In a build with statistics every program of the stages starts with `cb_mark_init` and ends with
`cb_retok` or `cb_retother`. All three keep their counts in the single entry of `prog_stats`, which
the first of them that runs inserts. It inserts zeros and counts nothing: the first packet is missing
in `rx`, and the entry has no clock at its mark.

`lookup_processAll` is the account of any run of packets. It gives `balanced_iff`: there is no packet
after which the statistics balance.
-/

namespace ChainingBox

open Lib

/-- `struct stats`. -/
structure Stats where
  rx : BitVec 32
  tx : BitVec 32
  tx_other : BitVec 32
  lat_avg_sum : BitVec 64
  init_ts : BitVec 64
  deriving DecidableEq

/-- The hash map `prog_stats`, with room for one entry. -/
abbrev ProgStats := BoundedMap Byte Stats 1

namespace Stats

/-! ## The counting helpers -/

/-- The entry that a helper inserts if it finds none. -/
def initStats : Stats := ⟨0, 0, 0, 0, 0⟩

/-- `cb_mark_init`. -/
def cbMarkInit (ts : BitVec 64) (m : ProgStats) : ProgStats :=
  match m.lookup 0 with
  | some _ => m.modify 0 fun s => { s with rx := s.rx + 1, init_ts := ts }
  | none => m.put 0 initStats

/-- `cb_retok`. -/
def cbRetok (ts : BitVec 64) (m : ProgStats) : ProgStats :=
  match m.lookup 0 with
  | some _ => m.modify 0 fun s =>
    { s with tx := s.tx + 1, lat_avg_sum := s.lat_avg_sum + (ts - s.init_ts) }
  | none => m.put 0 initStats

/-- `cb_retother`. -/
def cbRetother (m : ProgStats) : ProgStats :=
  match m.lookup 0 with
  | some _ => m.modify 0 fun s => { s with tx_other := s.tx_other + 1 }
  | none => m.put 0 initStats

/-! ## Packets -/

/-- The programs that count. -/
inductive Program
  | decapNsh
  | encapNsh
  | sfcForwarding
  | classifyTc (build : Build)
  deriving DecidableEq

/-- A packet, with the tables and the kernel that it meets, and the clock at the start of the program
and at `cb_retok`. -/
structure Packet where
  frame : Bytes
  k : Kernel
  maps : NodeMaps
  cls_table : ClsTable
  start : BitVec 64
  finish : BitVec 64

/-- The helper that a program exits through. -/
def Program.exit (prog : Program) (p : Packet) : Counter :=
  match prog with
  | .decapNsh => (ChainingBox.decapNsh p.maps.src_mac p.maps.nsh_data p.frame).ret.counter
  | .encapNsh => (ChainingBox.encapNsh p.k p.maps p.frame).ret.counter
  | .sfcForwarding => (ChainingBox.sfcForwarding p.maps p.frame).ret.counter
  | .classifyTc build =>
    (ChainingBox.classifyTc build p.k p.maps.src_mac p.cls_table p.frame).ret.counter

/-- What a packet does to the statistics. -/
def process (prog : Program) (m : ProgStats) (p : Packet) : ProgStats :=
  match prog.exit p with
  | .tx => cbRetok p.finish (cbMarkInit p.start m)
  | .txOther => cbRetother (cbMarkInit p.start m)

/-- The packets of a run that left through `cb_retok`. -/
def sentOk (prog : Program) (ps : List Packet) : List Packet := ps.filter (prog.exit · = .tx)

/-- The time that packets spent in the program, by its clock. -/
def latency (ps : List Packet) : BitVec 64 := (ps.map fun p => p.finish - p.start).sum

/-- The statistics after a run balance. -/
structure Balance (prog : Program) (ps : List Packet) (s : Stats) : Prop where
  received : s.rx = BitVec.ofNat 32 ps.length
  counted : s.rx = s.tx + s.tx_other
  latencies : s.lat_avg_sum = latency (sentOk prog ps)

/-- After each packet of a run that starts with an empty table, the statistics balance. -/
def Balanced (prog : Program) (ps : List Packet) : Prop :=
  ∀ qs, qs <+: ps → qs ≠ [] →
    ∃ s, (run (process prog) .empty qs).lookup 0 = some s ∧ Balance prog qs s

/-! ## The account of a run -/

/-- What a packet does to an entry that exists. -/
def step (prog : Program) (s : Stats) (p : Packet) : Stats :=
  match prog.exit p with
  | .tx => { s with
      rx := s.rx + 1
      tx := s.tx + 1
      lat_avg_sum := s.lat_avg_sum + (p.finish - p.start)
      init_ts := p.start }
  | .txOther => { s with rx := s.rx + 1, tx_other := s.tx_other + 1, init_ts := p.start }

theorem lookup_process {m : ProgStats} {s : Stats} (hs : m.lookup 0 = some s) (prog : Program)
    (p : Packet) : (process prog m p).lookup 0 = some (step prog s p) := by
  have hmark : (cbMarkInit p.start m).lookup 0 =
      some { s with rx := s.rx + 1, init_ts := p.start } := by
    unfold cbMarkInit
    simp only [hs]
    rw [BoundedMap.lookup_modify, if_pos rfl, hs]
    rfl
  unfold process step
  cases prog.exit p with
  | tx =>
    unfold cbRetok
    simp only [hmark]
    rw [BoundedMap.lookup_modify, if_pos rfl, hmark]
    rfl
  | txOther =>
    unfold cbRetother
    simp only [hmark]
    rw [BoundedMap.lookup_modify, if_pos rfl, hmark]
    rfl

/-- What the first packet leaves: it is not in `rx`, and its time is counted from zero. -/
def first (prog : Program) (p : Packet) : Stats :=
  match prog.exit p with
  | .tx => ⟨0, 1, 0, p.finish, 0⟩
  | .txOther => ⟨0, 0, 1, 0, 0⟩

theorem lookup_process_empty (prog : Program) (p : Packet) :
    (process prog .empty p).lookup 0 = some (first prog p) := by
  unfold process first
  cases prog.exit p with
  | tx =>
    have hzero : (0 : BitVec 64) + (p.finish - 0) = p.finish := by simp
    calc (cbRetok p.finish (cbMarkInit p.start .empty)).lookup 0
        = some ⟨0, 0 + 1, 0, 0 + (p.finish - 0), 0⟩ := rfl
      _ = some ⟨0, 1, 0, p.finish, 0⟩ := by rw [hzero]; rfl
  | txOther => rfl

/-- The counts of any run from an entry on. -/
theorem foldl_step (prog : Program) (s : Stats) (ps : List Packet) :
    (ps.foldl (step prog) s).rx = s.rx + BitVec.ofNat 32 ps.length ∧
      (ps.foldl (step prog) s).tx + (ps.foldl (step prog) s).tx_other =
        s.tx + s.tx_other + BitVec.ofNat 32 ps.length ∧
      (ps.foldl (step prog) s).lat_avg_sum = s.lat_avg_sum + latency (sentOk prog ps) := by
  induction ps generalizing s with
  | nil =>
    refine ⟨?_, ?_, ?_⟩
    · simp
    · simp
    · simp [sentOk, latency]
  | cons p ps ih =>
    -- The first packet counts one, and its latency if it is sent on.
    obtain ⟨hrx, htx, hlat⟩ := ih (step prog s p)
    have hlen : BitVec.ofNat 32 (p :: ps).length = 1 + BitVec.ofNat 32 ps.length := by
      rw [List.length_cons, Nat.add_comm, BitVec.ofNat_add]
      rfl
    rw [List.foldl_cons, hrx, htx, hlat, hlen]
    unfold step sentOk
    cases hexit : prog.exit p with
    | tx =>
      dsimp only
      refine ⟨BitVec.add_assoc _ _ _, ?_, ?_⟩
      · ac_rfl
      · rw [List.filter_cons, if_pos (by simpa using hexit), latency, latency, List.map_cons,
          List.sum_cons, BitVec.add_assoc]
    | txOther =>
      dsimp only
      refine ⟨BitVec.add_assoc _ _ _, ?_, ?_⟩
      · ac_rfl
      · rw [List.filter_cons, if_neg (by simp [hexit])]

/-- The entry after a run with a first packet. -/
theorem lookup_processAll (prog : Program) (p : Packet) (ps : List Packet) :
    (run (process prog) .empty (p :: ps)).lookup 0 =
      some (ps.foldl (step prog) (first prog p)) := by
  have hrun (m : ProgStats) (s : Stats) (hs : m.lookup 0 = some s) :
      (run (process prog) m ps).lookup 0 = some (ps.foldl (step prog) s) := by
    induction ps generalizing m s with
    | nil => exact hs
    | cons q ps ih => exact ih _ _ (lookup_process hs prog q)
  exact hrun _ _ (lookup_process_empty prog p)

/-- After any run the packets received are one less than those that have left. -/
theorem rx_add_one (prog : Program) (p : Packet) (ps : List Packet) {s : Stats}
    (hs : (run (process prog) .empty (p :: ps)).lookup 0 = some s) :
    s.rx = BitVec.ofNat 32 ps.length ∧ s.tx + s.tx_other = s.rx + 1 := by
  rw [lookup_processAll] at hs
  obtain rfl := Option.some.inj hs
  obtain ⟨hrx, htx, -⟩ := foldl_step prog (first prog p) ps
  have hfirst : (first prog p).rx = 0 ∧ (first prog p).tx + (first prog p).tx_other = 1 := by
    unfold first
    cases prog.exit p <;> exact ⟨rfl, rfl⟩
  rw [hrx, htx, hfirst.1, hfirst.2]
  refine ⟨BitVec.zero_add _, ?_⟩
  ac_rfl

/-- There is no packet after which the statistics balance. -/
theorem balanced_iff (prog : Program) (ps : List Packet) : Balanced prog ps ↔ ps = [] := by
  constructor
  · intro hbal
    by_contra hne
    obtain ⟨s, hs, hbalance⟩ := hbal ps (List.prefix_refl ps) hne
    obtain ⟨p, qs, rfl⟩ := List.exists_cons_of_ne_nil hne
    have hcounts := (rx_add_one prog p qs hs).2
    rw [← hbalance.counted] at hcounts
    -- No number is its successor.
    have hone : (1 : BitVec 32) = 0 := left_eq_add.1 hcounts
    exact absurd hone (by decide)
  · rintro rfl qs hpre hne
    exact absurd (List.prefix_nil.1 hpre) hne

/-- A frame that is too short for an Ethernet header, and a node with empty tables. -/
def shortPacket : Packet where
  frame := [0x02]
  k := ⟨fun _ => true, fun _ => none⟩
  maps := ⟨⟨zeroMac, zeroMac⟩, .empty, .empty⟩
  cls_table := .empty
  start := 100
  finish := 150

/-- The first packet is not received, but it leaves. -/
theorem not_balanced_first : ¬ Balanced .decapNsh [shortPacket] := by
  intro hbal
  obtain ⟨s, hs, hbalance⟩ := hbal [shortPacket] (List.prefix_refl _) (by simp)
  have hcounts := (rx_add_one .decapNsh shortPacket [] hs).1
  rw [hbalance.received] at hcounts
  exact absurd hcounts (by decide)

end Stats

end ChainingBox
