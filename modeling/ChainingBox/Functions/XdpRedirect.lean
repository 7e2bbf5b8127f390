import ChainingBox.Functions.Redirect
import ChainingBox.Lib.Runs

/-!
# The redirecting program on XDP

`xdp_redirect_map_kern.c` exchanges the MAC addresses of every frame, counts it on the CPU that it
runs on, and sends it to the other interface. Its loader prints a rate from time to time:
`poll_stats` adds up what has come since the last time over the CPUs, and divides by the seconds.
-/

namespace ChainingBox

open Lib

namespace XdpRedirect

/-! ## The program on XDP -/

/-- What the program does with a frame. -/
inductive Verdict
  | aborted
  | drop
  | redirect (ifindex : BitVec 32)
  deriving DecidableEq

structure Out where
  ret : Verdict
  frame : Bytes
  rxcnt : BitVec 64

/-- A redirection over a device map; without an entry for the port the flags give the verdict. -/
def bpfRedirectMap (tx_port : ℕ → Option (BitVec 32)) (vport : ℕ) : Verdict :=
  match tx_port vport with
  | none => .aborted
  | some ifindex => .redirect ifindex

/-- `xdp_redirect_map_prog`, with the entry of `rxcnt` of the CPU that it runs on. -/
def xdpRedirectMapProg (tx_port : ℕ → Option (BitVec 32)) (rxcnt : BitVec 64) (frame : Bytes) :
    Out :=
  if frame.length < 14 then ⟨.drop, frame, rxcnt⟩
  else ⟨bpfRedirectMap tx_port 0, TcRedirect.swapSrcDstMac frame, rxcnt + 1⟩

/-! ## The loader -/

/-- The counters of the CPUs, what `poll_stats` has of them from the last time, and what it has
printed. -/
structure Stats (cpus : ℕ) where
  rxcnt : Fin cpus → BitVec 64
  prev : Fin cpus → BitVec 64
  printed : List (BitVec 64)

/-- A frame on a CPU, or another round of `poll_stats`. -/
inductive Event (cpus : ℕ)
  | frame (cpu : Fin cpus) (frame : Bytes)
  | poll

variable {cpus : ℕ}

/-- The sum over the CPUs. -/
def pollSum (values prev : Fin cpus → BitVec 64) : BitVec 64 :=
  (List.finRange cpus).foldl (fun sum i => sum + (values i - prev i)) 0

/-- One round of `poll_stats`. -/
def pollStats (interval : BitVec 64) (s : Stats cpus) : Stats cpus :=
  let sum := pollSum s.rxcnt s.prev
  { s with
    prev := s.rxcnt
    printed := if sum ≠ 0 then s.printed ++ [sum / interval] else s.printed }

def step (tx_port : ℕ → Option (BitVec 32)) (interval : BitVec 64) (s : Stats cpus) :
    Event cpus → Stats cpus
  | .frame cpu frame =>
    let out := xdpRedirectMapProg tx_port (s.rxcnt cpu) frame
    { s with rxcnt := Function.update s.rxcnt cpu out.rxcnt }
  | .poll => pollStats interval s

/-- After the program is loaded and `prev` is cleared. -/
def start : Stats cpus := ⟨fun _ => 0, fun _ => 0, []⟩

/-! ## What the rates account for -/

/-- A frame that the program counts. -/
def Counts : Event cpus → Prop
  | .frame _ frame => 14 ≤ frame.length
  | .poll => False

instance : DecidablePred (@Counts cpus)
  | .frame _ frame => inferInstanceAs (Decidable (14 ≤ frame.length))
  | .poll => inferInstanceAs (Decidable False)

/-- The frames that have been counted. -/
def counted (events : List (Event cpus)) : ℕ := events.countP fun e => Counts e

/-- The sum of the rates. -/
def total (printed : List (BitVec 64)) : ℕ := (printed.map BitVec.toNat).sum

/-- While no counter overflows, each counter and what `poll_stats` has of it make up what there is,
and the rates fall short of what `poll_stats` has by the remainders. -/
structure Accounts (interval : BitVec 64) (n : ℕ) (s : Stats cpus) : Prop where
  rxcnt : ∑ i, (s.rxcnt i).toNat = n
  prev : ∀ i, (s.prev i).toNat ≤ (s.rxcnt i).toNat
  below : interval.toNat * total s.printed ≤ ∑ i, (s.prev i).toNat
  above : ∑ i, (s.prev i).toNat ≤
    interval.toNat * total s.printed + (interval.toNat - 1) * s.printed.length

theorem accounts_frame {tx_port : ℕ → Option (BitVec 32)} {interval : BitVec 64} {n : ℕ}
    {s : Stats cpus} (h : Accounts interval n s) (cpu : Fin cpus) {frame : Bytes}
    (hlen : 14 ≤ frame.length) (hn : n + 1 < 2 ^ 64) :
    Accounts interval (n + 1) (step tx_port interval s (.frame cpu frame)) := by
  obtain ⟨hrxcnt, hprev, hbelow, habove⟩ := h
  have hone : (1 : BitVec 64).toNat = 1 := rfl
  have hle : (s.rxcnt cpu).toNat ≤ n := by
    rw [← hrxcnt]
    exact Finset.single_le_sum (f := fun i => (s.rxcnt i).toNat) (fun _ _ => Nat.zero_le _)
      (Finset.mem_univ cpu)
  have hcell : (s.rxcnt cpu + 1).toNat = (s.rxcnt cpu).toNat + 1 := by
    rw [BitVec.toNat_add, hone]
    omega
  have hout : step tx_port interval s (.frame cpu frame) =
      { s with rxcnt := Function.update s.rxcnt cpu (s.rxcnt cpu + 1) } := by
    simp only [step, xdpRedirectMapProg, if_neg (Nat.not_lt.2 hlen)]
  rw [hout]
  refine ⟨?_, fun i => ?_, hbelow, habove⟩
  · have hupdate : (fun i => (Function.update s.rxcnt cpu (s.rxcnt cpu + 1) i).toNat) =
        Function.update (fun i => (s.rxcnt i).toNat) cpu ((s.rxcnt cpu).toNat + 1) := by
      rw [← hcell]
      exact Function.comp_update BitVec.toNat _ _ _
    have hsplit := Finset.sum_eq_add_sum_sdiff_singleton_of_mem (Finset.mem_univ cpu)
      fun i => (s.rxcnt i).toNat
    rw [← hrxcnt, hsplit]
    dsimp only
    rw [hupdate, Finset.sum_update_of_mem (Finset.mem_univ cpu)]
    omega
  · show (s.prev i).toNat ≤ (Function.update s.rxcnt cpu (s.rxcnt cpu + 1) i).toNat
    have hi := hprev i
    obtain rfl | hne := eq_or_ne i cpu
    · rw [Function.update_self, hcell]
      omega
    · rwa [Function.update_of_ne hne]

/-- The sum over the CPUs is what has come since the last time. -/
theorem pollSum_toNat {values prev : Fin cpus → BitVec 64}
    (hle : ∀ i, (prev i).toNat ≤ (values i).toNat) (hlt : ∑ i, (values i).toNat < 2 ^ 64) :
    (pollSum values prev).toNat + ∑ i, (prev i).toNat = ∑ i, (values i).toNat := by
  have hfold (l : List (Fin cpus)) (x : BitVec 64) :
      (l.foldl (fun sum i => sum + (values i - prev i)) x).toNat =
        (x.toNat + (l.map fun i => (values i).toNat - (prev i).toNat).sum) % 2 ^ 64 := by
    induction l generalizing x with
    | nil => exact (Nat.mod_eq_of_lt x.isLt).symm
    | cons i l ih =>
      have hi := hle i
      have hsub : (values i - prev i).toNat = (values i).toNat - (prev i).toNat :=
        BitVec.toNat_sub_of_le hi
      rw [List.foldl_cons, ih, BitVec.toNat_add, hsub, List.map_cons, List.sum_cons]
      omega
  have hparts : ∑ i, ((values i).toNat - (prev i).toNat) + ∑ i, (prev i).toNat =
      ∑ i, (values i).toNat := by
    rw [← Finset.sum_add_distrib]
    exact Finset.sum_congr rfl fun i _ => Nat.sub_add_cancel (hle i)
  have hzero : (0 : BitVec 64).toNat = 0 := rfl
  rw [pollSum, hfold, ← Fin.sum_univ_def, hzero, Nat.zero_add, Nat.mod_eq_of_lt (by omega), hparts]

theorem accounts_poll {interval : BitVec 64} {n : ℕ} {s : Stats cpus} (h : Accounts interval n s)
    (hpos : 0 < interval.toNat) (hn : n < 2 ^ 64) :
    Accounts interval n (pollStats interval s) := by
  obtain ⟨hrxcnt, hprev, hbelow, habove⟩ := h
  have hsum := pollSum_toNat hprev (hrxcnt.trans_lt hn)
  unfold pollStats
  dsimp only
  split_ifs with hne
  · have hdiv : (pollSum s.rxcnt s.prev / interval).toNat =
        (pollSum s.rxcnt s.prev).toNat / interval.toNat := BitVec.toNat_udiv
    have htotal : total (s.printed ++ [pollSum s.rxcnt s.prev / interval]) =
        total s.printed + (pollSum s.rxcnt s.prev).toNat / interval.toNat := by
      simp [total, hdiv]
    have hrem := Nat.div_add_mod (pollSum s.rxcnt s.prev).toNat interval.toNat
    have hmod := Nat.mod_lt (pollSum s.rxcnt s.prev).toNat hpos
    refine ⟨hrxcnt, fun _ => le_rfl, ?_, ?_⟩
    · dsimp only
      rw [htotal, Nat.mul_add]
      omega
    · dsimp only
      rw [htotal, Nat.mul_add, List.length_append, List.length_singleton, Nat.mul_succ]
      omega
  · have hzero : (pollSum s.rxcnt s.prev).toNat = 0 := by
      rw [not_not.1 hne]
      rfl
    refine ⟨hrxcnt, fun _ => le_rfl, ?_, ?_⟩
    · dsimp only
      omega
    · dsimp only
      omega

theorem accounts_run {tx_port : ℕ → Option (BitVec 32)} {interval : BitVec 64}
    (hpos : 0 < interval.toNat) (events : List (Event cpus)) (hn : counted events < 2 ^ 64) :
    Accounts interval (counted events) (run (step tx_port interval) start events) := by
  induction events using List.reverseRecOn with
  | nil =>
    refine ⟨?_, fun _ => le_rfl, ?_, ?_⟩
    · exact Finset.sum_eq_zero fun _ _ => rfl
    · exact Nat.zero_le _
    · exact (Finset.sum_eq_zero fun _ _ => rfl).trans_le (Nat.zero_le _)
  | append_singleton events e ih =>
    have hcount : counted (events ++ [e]) = counted events + if Counts e then 1 else 0 := by
      rw [counted, List.countP_append, List.countP_singleton]
      simp only [decide_eq_true_eq, counted]
    rw [hcount] at hn ⊢
    rw [run_append]
    have hih := ih (by omega)
    cases e with
    | frame cpu frame =>
      by_cases hlen : 14 ≤ frame.length
      · have hcounts : Counts (.frame cpu frame) := hlen
        rw [if_pos hcounts] at hn ⊢
        exact accounts_frame hih cpu hlen hn
      · have hshort : ¬ Counts (.frame cpu frame) := hlen
        have hsame : step tx_port interval (run (step tx_port interval) start events)
            (.frame cpu frame) = run (step tx_port interval) start events := by
          simp only [step, xdpRedirectMapProg, if_pos (Nat.not_le.1 hlen), Function.update_eq_self]
        rw [if_neg hshort]
        show Accounts interval (counted events) (step tx_port interval
          (run (step tx_port interval) start events) (.frame cpu frame))
        rwa [hsame]
    | poll => exact accounts_poll hih hpos (by omega)

/-- As long as fewer than 2^64 frames have come: after a round of `poll_stats`, on any CPUs and after
any earlier rounds, the rates times the seconds account for all frames that the program has counted, up
to less than one interval's seconds for each rate. -/
theorem poll_stats_accounts (tx_port : ℕ → Option (BitVec 32)) (interval : BitVec 64)
    (hpos : 0 < interval.toNat) (events : List (Event cpus)) (hn : counted events < 2 ^ 64) :
    ∃ lost, interval.toNat * total (run (step tx_port interval) start (events ++ [.poll])).printed +
          lost = counted events ∧
        lost ≤ (interval.toNat - 1) *
          (run (step tx_port interval) start (events ++ [.poll])).printed.length := by
  have hround := accounts_poll (@accounts_run cpus tx_port interval hpos events hn) hpos hn
  obtain ⟨hrxcnt, -, hbelow, habove⟩ := hround
  have hprev : ∑ i, ((pollStats interval (run (step tx_port interval) start events)).prev i).toNat =
      counted events := hrxcnt
  rw [hprev] at hbelow habove
  rw [run_append]
  exact ⟨_, Nat.add_sub_cancel' hbelow, Nat.sub_le_iff_le_add'.2 habove⟩

/-- Three frames in two seconds are printed as one a second. -/
theorem poll_stats_accounts_three : ∃ lost, 2 * total (run (step (fun _ => some 3) 2) start
      (List.replicate 3 (.frame (0 : Fin 2) pingFrame) ++ [.poll])).printed + lost = 3 ∧
    lost ≤ 1 * (run (step (fun _ => some 3) 2) start
      (List.replicate 3 (.frame (0 : Fin 2) pingFrame) ++ [.poll])).printed.length :=
  poll_stats_accounts (fun _ => some 3) 2 (by decide) (List.replicate 3 (.frame 0 pingFrame))
    (by decide)

end XdpRedirect

end ChainingBox
