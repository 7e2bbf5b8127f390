import ChainingBox.Dataplane.Common
import ChainingBox.Lib.Overwrite
import ChainingBox.Lib.Runs

/-!
# The redirecting program in user space

`user-redirect.c` receives the frames of one interface on a raw socket, and sends those of one IPv4
source address on to another interface. `recv` writes each frame to the start of one buffer, and
the program takes the EtherType and the source address from their places in the buffer, without a
look at what `recv` has returned. Where a frame does not reach these places, or `recv` fails, it
judges what an earlier frame has left there (`load8_packet`), and sends it.

`sends_iff_fresh` says when the program sends the matching frames and nothing else: when at no frame
without a complete IPv4 header, and at no error, the bytes that are left match.
-/

namespace ChainingBox

open Lib

namespace UserRedirect

/-! ## The program -/

def MAX_PKT_SIZE : ℕ := 4096

/-- What `recv` comes to: a frame, which fits into the buffer, or an error. -/
inductive RecvResult where
  | frame (bytes : Bytes) (bound : bytes.length ≤ MAX_PKT_SIZE)
  | error

/-- `recbytes`. -/
def RecvResult.recbytes : RecvResult → ℤ
  | .frame bytes _ => bytes.length
  | .error => -1

/-- The bytes that `recv` writes. -/
def RecvResult.written : RecvResult → Bytes
  | .frame bytes _ => bytes
  | .error => []

/-- A call of `send`: the buffer, and `recbytes` as a `size_t`. -/
structure Send where
  packet : ByteVec MAX_PKT_SIZE
  len : BitVec 64

/-- The frame of a call; a length beyond the buffer gives none. -/
def Send.frame (s : Send) : Option Bytes :=
  if s.len.toNat ≤ MAX_PKT_SIZE then some (s.packet.1.take s.len.toNat) else none

/-- The buffer and the counter of `main`, and the calls of `send` so far. -/
structure State where
  packet : ByteVec MAX_PKT_SIZE
  pkt_count : BitVec 64
  sends : List Send

/-- The buffer after `memset`, and the counter at zero. -/
def start : State where
  packet := ⟨List.replicate MAX_PKT_SIZE 0, List.length_replicate⟩
  pkt_count := 0
  sends := []

theorem written_length (r : RecvResult) : r.written.length ≤ MAX_PKT_SIZE := by
  cases r with
  | frame bytes bound => exact bound
  | error => exact Nat.zero_le _

theorem recv_length (packet : ByteVec MAX_PKT_SIZE) (r : RecvResult) :
    (store packet.1 0 r.written).length = MAX_PKT_SIZE := by
  have hfit : 0 + r.written.length ≤ packet.1.length := by
    rw [packet.2, Nat.zero_add]
    exact written_length r
  exact (store_length hfit).trans packet.2

/-- `recv`, into the buffer. -/
def recv (packet : ByteVec MAX_PKT_SIZE) (r : RecvResult) : ByteVec MAX_PKT_SIZE :=
  ⟨store packet.1 0 r.written, recv_length packet r⟩

/-- One pass through the main loop. -/
def step (filterip : BitVec 32) (s : State) (r : RecvResult) : State :=
  let packet := recv s.packet r
  -- Only IPv4 packets, and of these only those from the address.
  if load16 packet.1 12 = htons ETH_P_IP then
    if load32 packet.1 (14 + 12) = filterip then
      { packet
        pkt_count := s.pkt_count + 1
        sends := s.sends ++ [⟨packet, BitVec.ofInt 64 r.recbytes⟩] }
    else { s with packet }
  else { s with packet }

/-! ## What it is for -/

/-- The frames that `recv` gave. -/
def received (rs : List RecvResult) : List Bytes :=
  rs.filterMap fun r => match r with
    | .frame bytes _ => some bytes
    | .error => none

/-- A frame with a complete IPv4 header, from the address. -/
def Matches (filterip : BitVec 32) (frame : Bytes) : Prop :=
  34 ≤ frame.length ∧ load16 frame 12 = htons ETH_P_IP ∧ load32 frame 26 = filterip

instance (filterip : BitVec 32) (frame : Bytes) : Decidable (Matches filterip frame) :=
  inferInstanceAs (Decidable (_ ∧ _))

def matching (filterip : BitVec 32) (rs : List RecvResult) : List Bytes :=
  (received rs).filter fun frame => Matches filterip frame

/-- The program has sent the matching frames as they are, in order and once each, and it has
counted what it has sent. -/
structure OwnBytes (filterip : BitVec 32) (rs : List RecvResult) : Prop where
  sends : (run (step filterip) start rs).sends.map Send.frame = (matching filterip rs).map some
  count : (run (step filterip) start rs).pkt_count.toInt =
    (run (step filterip) start rs).sends.length

/-! ## What is left in the buffer -/

/-- The byte at `p` of the last frame that reached it; the zero of the start, if none has. -/
def remembered (rs : List RecvResult) (p : ℕ) : Byte := lastByte (received rs) p 0

/-- The bytes at the places of the EtherType and the source address match. -/
def Remembers (filterip : BitVec 32) (rs : List RecvResult) : Prop :=
  (remembered rs 13 ++ remembered rs 12 : BitVec 16) = htons ETH_P_IP ∧
    (remembered rs 29 ++ remembered rs 28 ++ remembered rs 27 ++ remembered rs 26 : BitVec 32) =
      filterip

instance (filterip : BitVec 32) (rs : List RecvResult) : Decidable (Remembers filterip rs) :=
  inferInstanceAs (Decidable (_ ∧ _))

/-- At no error, and at no frame without a complete IPv4 header, the bytes match. -/
def Fresh (filterip : BitVec 32) (rs : List RecvResult) : Prop :=
  ∀ pre r, pre ++ [r] <+: rs → r.written.length < 34 → ¬ Remembers filterip (pre ++ [r])

theorem received_append (rs : List RecvResult) (r : RecvResult) :
    received (rs ++ [r]) = received rs ++ received [r] := List.filterMap_append

theorem remembered_append (rs : List RecvResult) (r : RecvResult) (p : ℕ) :
    remembered (rs ++ [r]) p =
      if p < r.written.length then load8 r.written p else remembered rs p := by
  unfold remembered
  rw [received_append]
  cases r with
  | frame bytes bound => exact lastByte_append _ _ _ _
  | error => rw [if_neg (by simp [RecvResult.written]), received, received]; simp

/-- The writes of `recv` leave what its frames leave: an error writes nothing. -/
theorem lastByte_written (rs : List RecvResult) (p : ℕ) :
    lastByte (rs.map RecvResult.written) p 0 = remembered rs p := by
  induction rs using List.reverseRecOn with
  | nil => rfl
  | append_singleton rs r ih =>
    rw [List.map_append, List.map_singleton, lastByte_append, remembered_append, ih]

/-- The buffer passes both tests. -/
def Passes (filterip : BitVec 32) (packet : Bytes) : Prop :=
  load16 packet 12 = htons ETH_P_IP ∧ load32 packet 26 = filterip

instance (filterip : BitVec 32) (packet : Bytes) : Decidable (Passes filterip packet) :=
  inferInstanceAs (Decidable (_ ∧ _))

/-- A pass through the loop sends the buffer exactly if it passes the tests. -/
theorem step_eq (filterip : BitVec 32) (s : State) (r : RecvResult) :
    step filterip s r =
      if Passes filterip (recv s.packet r).1 then
        { packet := recv s.packet r
          pkt_count := s.pkt_count + 1
          sends := s.sends ++ [⟨recv s.packet r, BitVec.ofInt 64 r.recbytes⟩] }
      else { s with packet := recv s.packet r } :=
  (ite_and _ _ _ _).symm

theorem step_packet (filterip : BitVec 32) (s : State) (r : RecvResult) :
    (step filterip s r).packet = recv s.packet r := by
  rw [step_eq]
  split_ifs <;> rfl

theorem run_snoc (filterip : BitVec 32) (rs : List RecvResult) (r : RecvResult) :
    run (step filterip) start (rs ++ [r]) = step filterip (run (step filterip) start rs) r :=
  run_append _ _ _ _

/-- The buffer after any results of `recv`. -/
theorem packet_eq (filterip : BitVec 32) (rs : List RecvResult) :
    (run (step filterip) start rs).packet.1 =
      rewrite (List.replicate MAX_PKT_SIZE 0) (rs.map RecvResult.written) := by
  induction rs using List.reverseRecOn with
  | nil => rfl
  | append_singleton rs r ih =>
    have hstep (s : State) : (step filterip s r).packet.1 = store s.packet.1 0 r.written :=
      congrArg Subtype.val (step_packet filterip s r)
    rw [run_snoc, hstep, ih, List.map_append, List.map_singleton, rewrite_append]

theorem load8_packet (filterip : BitVec 32) (rs : List RecvResult) (p : ℕ) :
    load8 (run (step filterip) start rs).packet.1 p = remembered rs p := by
  have hfit : ∀ b ∈ rs.map RecvResult.written,
      b.length ≤ (List.replicate MAX_PKT_SIZE (0 : Byte)).length := by
    intro b hb
    obtain ⟨r, -, rfl⟩ := List.mem_map.1 hb
    rw [List.length_replicate]
    exact written_length r
  have hzero : load8 (List.replicate MAX_PKT_SIZE 0) p = 0 := by
    rw [load8, List.getD_eq_getElem?_getD, List.getElem?_replicate]
    split_ifs <;> rfl
  rw [packet_eq, (load8_rewrite hfit).2, hzero, lastByte_written]

/-- So the tests are of the bytes that the frames have left. -/
theorem passes_iff (filterip : BitVec 32) (rs : List RecvResult) :
    Passes filterip (run (step filterip) start rs).packet.1 ↔ Remembers filterip rs := by
  unfold Passes Remembers load32 load16
  simp only [load8_packet]

/-- What one more result of `recv` adds to a run. -/
theorem sends_snoc (filterip : BitVec 32) (rs : List RecvResult) (r : RecvResult) :
    (run (step filterip) start (rs ++ [r])).sends = (run (step filterip) start rs).sends ++
      if Remembers filterip (rs ++ [r]) then
        [⟨(run (step filterip) start (rs ++ [r])).packet, BitVec.ofInt 64 r.recbytes⟩]
      else [] := by
  have hpass := passes_iff filterip (rs ++ [r])
  rw [run_snoc, step_packet] at hpass
  rw [run_snoc, step_packet, step_eq, if_congr hpass rfl rfl]
  split_ifs
  · rfl
  · exact (List.append_nil _).symm

/-- The counter counts the calls of `send`. -/
theorem count_eq (filterip : BitVec 32) (rs : List RecvResult) :
    (run (step filterip) start rs).pkt_count =
      BitVec.ofNat 64 (run (step filterip) start rs).sends.length := by
  refine run_invariant (I := fun s : State => s.pkt_count = BitVec.ofNat 64 s.sends.length)
    (fun s r hs => ?_) rfl rs
  rw [step_eq]
  split_ifs
  · rw [List.length_append, List.length_singleton, BitVec.ofNat_add, ← hs]
    rfl
  · exact hs

/-! ## When it sends what it should -/

theorem matching_snoc (filterip : BitVec 32) (rs : List RecvResult) (r : RecvResult) :
    matching filterip (rs ++ [r]) =
      matching filterip rs ++ if Matches filterip r.written then [r.written] else [] := by
  have hone : (received [r]).filter (fun frame => Matches filterip frame) =
      if Matches filterip r.written then [r.written] else [] := by
    cases r with
    | frame bytes bound =>
      show [bytes].filter (fun frame => Matches filterip frame) = _
      rw [List.filter_singleton, Bool.cond_decide]
      rfl
    | error => rw [if_neg (by simp [Matches, RecvResult.written])]; rfl
  rw [matching, received_append, List.filter_append, hone]
  rfl

/-- A complete header is judged on its own bytes. -/
theorem remembers_iff_matches (filterip : BitVec 32) (rs : List RecvResult) {r : RecvResult}
    (hr : 34 ≤ r.written.length) :
    Remembers filterip (rs ++ [r]) ↔ Matches filterip r.written := by
  have hown (p : ℕ) (hp : p < 34) : remembered (rs ++ [r]) p = load8 r.written p := by
    rw [remembered_append, if_pos (by omega)]
  unfold Remembers Matches
  rw [hown 13 (by decide), hown 12 (by decide), hown 29 (by decide), hown 28 (by decide),
    hown 27 (by decide), hown 26 (by decide)]
  exact (and_iff_right hr).symm

/-- A frame that is sent goes out as it came. -/
theorem frame_send (packet : ByteVec MAX_PKT_SIZE) {bytes : Bytes}
    (bound : bytes.length ≤ MAX_PKT_SIZE) :
    (⟨recv packet (.frame bytes bound),
      BitVec.ofInt 64 (RecvResult.frame bytes bound).recbytes⟩ : Send).frame = some bytes := by
  have hlen : (BitVec.ofInt 64 (RecvResult.frame bytes bound).recbytes).toNat = bytes.length := by
    have hmax : bytes.length ≤ 4096 := bound
    simp only [RecvResult.recbytes, BitVec.ofInt_natCast, BitVec.toNat_ofNat]
    omega
  have htake : (recv packet (.frame bytes bound)).1.take bytes.length = bytes := by
    simp [recv, RecvResult.written, store]
  rw [Send.frame, hlen, if_pos bound, htake]

theorem fresh_snoc (filterip : BitVec 32) (rs : List RecvResult) (r : RecvResult) :
    Fresh filterip (rs ++ [r]) ↔
      Fresh filterip rs ∧ (r.written.length < 34 → ¬ Remembers filterip (rs ++ [r])) := by
  constructor
  · intro h
    exact ⟨fun pre q hpre => h pre q (hpre.trans (List.prefix_append _ _)),
      h rs r (List.prefix_refl _)⟩
  · rintro ⟨hrs, hr⟩ pre q hpre
    rcases List.prefix_concat_iff.1 hpre with heq | hpre
    · obtain ⟨rfl, hq⟩ := List.append_inj' heq rfl
      obtain rfl := List.singleton_inj.1 hq
      exact hr
    · exact hrs pre q hpre

/-- The program sends the matching frames and nothing else, exactly if no old bytes match. -/
theorem sends_iff_fresh (filterip : BitVec 32) (rs : List RecvResult) :
    (matching filterip rs).length ≤ (run (step filterip) start rs).sends.length ∧
      ((run (step filterip) start rs).sends.map Send.frame = (matching filterip rs).map some ↔
        Fresh filterip rs) := by
  induction rs using List.reverseRecOn with
  | nil =>
    refine ⟨le_refl _, fun _ pre r hpre => ?_, fun _ => rfl⟩
    exact absurd (List.prefix_nil.1 hpre) (List.append_ne_nil_of_right_ne_nil _ (List.cons_ne_nil _ _))
  | append_singleton rs r ih =>
    obtain ⟨hle, hiff⟩ := ih
    rw [fresh_snoc, ← hiff, sends_snoc, matching_snoc]
    -- A frame without a complete header should never be sent, any other by its own bytes.
    by_cases hshort : r.written.length < 34
    · have hnot : ¬ Matches filterip r.written := fun hm => absurd hm.1 (Nat.not_le.2 hshort)
      rw [if_neg hnot, List.append_nil]
      by_cases hrem : Remembers filterip (rs ++ [r])
      · -- One more call than frames to be sent.
        rw [if_pos hrem, List.length_append, List.length_singleton]
        refine ⟨by omega, fun heq => ?_, fun hand => absurd hrem (hand.2 hshort)⟩
        have hlen := congrArg List.length heq
        rw [List.length_map, List.length_map, List.length_append, List.length_singleton] at hlen
        omega
      · rw [if_neg hrem, List.append_nil]
        exact ⟨hle, fun heq => ⟨heq, fun _ => hrem⟩, fun hand => hand.1⟩
    · have hown := remembers_iff_matches filterip rs (Nat.le_of_not_lt hshort)
      rw [if_congr hown rfl rfl]
      by_cases hm : Matches filterip r.written
      · cases r with
        | error => exact absurd (Nat.succ_pos 33) hshort
        | frame bytes bound =>
          rw [if_pos hm, if_pos hm, run_snoc, step_packet, List.map_append, List.map_append,
            List.map_singleton, List.map_singleton, frame_send, List.length_append,
            List.length_append]
          refine ⟨Nat.add_le_add_right hle 1, fun heq => ⟨List.append_cancel_right heq, ?_⟩, ?_⟩
          · exact fun hlt => absurd hlt hshort
          · rintro ⟨heq, -⟩
            rw [heq]
            rfl
      · rw [if_neg hm, if_neg hm, List.append_nil, List.append_nil]
        exact ⟨hle, fun heq => ⟨heq, fun hlt => absurd hlt hshort⟩, fun hand => hand.1⟩

/-- Frames with complete headers leave nothing to be found. -/
theorem fresh_of_complete (filterip : BitVec 32) {rs : List RecvResult}
    (h : ∀ r ∈ rs, 34 ≤ r.written.length) : Fresh filterip rs := by
  intro pre r hpre hshort
  have hmem : r ∈ rs := hpre.subset (List.mem_append_right _ (List.mem_singleton_self r))
  exact absurd (h r hmem) (Nat.not_le.2 hshort)

/-- A `long` counts up to its maximum. -/
theorem toInt_ofNat_eq_iff (n : ℕ) : (BitVec.ofNat 64 n).toInt = n ↔ n < 2 ^ 63 := by
  rw [BitVec.toInt_eq_toNat_cond, BitVec.toNat_ofNat]
  constructor
  · intro h
    split_ifs at h <;> omega
  · intro h
    split_ifs <;> omega

/-- The program judges each frame on its own bytes exactly if no error, and no frame without a
complete header, finds bytes that match, and its counter is large enough. -/
theorem ownBytes_iff (filterip : BitVec 32) (rs : List RecvResult) :
    OwnBytes filterip rs ↔
      Fresh filterip rs ∧ (matching filterip rs).length < 2 ^ 63 := by
  obtain ⟨-, hiff⟩ := sends_iff_fresh filterip rs
  have hlen (h : (run (step filterip) start rs).sends.map Send.frame =
      (matching filterip rs).map some) :
      (run (step filterip) start rs).sends.length = (matching filterip rs).length := by
    rw [← List.length_map Send.frame, h, List.length_map]
  have hcount : (run (step filterip) start rs).pkt_count.toInt =
      (run (step filterip) start rs).sends.length ↔
        (run (step filterip) start rs).sends.length < 2 ^ 63 := by
    rw [count_eq]
    exact toInt_ofNat_eq_iff _
  constructor
  · rintro ⟨hsends, hpkt⟩
    rw [← hlen hsends]
    exact ⟨hiff.1 hsends, hcount.1 hpkt⟩
  · rintro ⟨hfresh, hmax⟩
    have hsends := hiff.2 hfresh
    rw [← hlen hsends] at hmax
    exact ⟨hsends, hcount.2 hmax⟩

/-- An IPv4 frame from 10.0.0.1, without payload. -/
def bareFrame : Bytes :=
  [0x02, 0, 0, 0, 0, 2, 0x02, 0, 0, 0, 0, 1, 0x08, 0x00,
    0x45, 0, 0, 20, 0, 0, 0, 0, 64, 17, 0, 0, 10, 0, 0, 1, 10, 0, 0, 2]

theorem bareFrame_length : bareFrame.length ≤ MAX_PKT_SIZE := by decide

/-- A frame that ends before the source address of its IPv4 header. -/
def cutFrame : Bytes :=
  [0x02, 0, 0, 0, 0, 2, 0x02, 0, 0, 0, 0, 3, 0x08, 0x00, 0x45, 0, 0, 20, 0, 0]

theorem cutFrame_length : cutFrame.length ≤ MAX_PKT_SIZE := by decide

/-- Behind a matching frame, the program sends the short one too, and at an error it calls `send`
once more. -/
theorem not_ownBytes :
    ¬ OwnBytes 0x0100000A [.frame bareFrame bareFrame_length, .frame cutFrame cutFrame_length] ∧
      ¬ OwnBytes 0x0100000A [.frame bareFrame bareFrame_length, .error] := by
  constructor
  · intro h
    have hfresh := (sends_iff_fresh _ _).2.1 h.sends
    exact hfresh [.frame bareFrame bareFrame_length] (.frame cutFrame cutFrame_length)
      (List.prefix_refl _) (by decide) (by decide)
  · intro h
    have hfresh := (sends_iff_fresh _ _).2.1 h.sends
    exact hfresh [.frame bareFrame bareFrame_length] .error (List.prefix_refl _) (by decide)
      (by decide)

end UserRedirect

end ChainingBox
