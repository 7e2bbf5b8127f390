import ChainingBox.Functions.Rules

/-!
# The firewall

The program `fw` of `firewall_kern.c` on the map that `parse_rules` fills. `get_tuple` takes the
ports of a packet as they lie in its header, in network byte order, and `parse_rules` stores the
numbers of the file; so a packet meets the rules of the flow whose ports are byte-swapped
(`fw_shot_iff`), as far as they found room among the 100 entries.

`fw_enforces_iff` says for which files that is no difference: every flow that the file drops must be
among its first 100, and the file must drop the flow with swapped ports too.
-/

namespace ChainingBox

open Lib

/-- What `fw` does with a frame. -/
inductive FwVerdict
  | ok
  | shot
  | redirect (ifindex : BitVec 32)
  deriving DecidableEq

/-- The end of `fw`: the lookup of the one entry of the array map `fw_egress` always succeeds. -/
def fwRedirect (fw_egress : BitVec 32) : FwVerdict := .redirect fw_egress

/-- `fw`. -/
def fw (rules : RulesMap) (fw_egress : BitVec 32) (frame : Bytes) : FwVerdict :=
  if frame.length < 14 + 20 then .ok
  -- Check if frame contains IP. Pass along otherwise.
  else if load16 frame 12 ≠ htons ETH_P_IP then .ok
  else match getTuple (frame.drop 14) with
  | none => .ok
  | some key =>
    match rules.lookup key with
    | none => fwRedirect fw_egress
    | some action =>
      if action = FW_ACTION_PASS then fwRedirect fw_egress
      -- `FW_ACTION_BLOCK`, and any value that it does not know.
      else .shot

/-! ## What the file says of a flow -/

/-- The flows of the rules with their verdicts, in order. -/
def verdicts (rules : List Rule) : List (Ip5tuple × Bool) := rules.map fun r => (r.flow, r.drop)

/-- The last rule for the flow says `drop`. -/
def LastDrops (rules : List Rule) (f : Ip5tuple) : Prop :=
  BoundedMap.lastValue (verdicts rules) f = some true

/-- The flow is among the first 100 distinct flows of the rules. -/
def Among100 (rules : List Rule) (f : Ip5tuple) : Prop :=
  f ∈ BoundedMap.firstKeys 100 (verdicts rules)

instance (rules : List Rule) (f : Ip5tuple) : Decidable (LastDrops rules f) :=
  inferInstanceAs (Decidable (_ = _))

instance (rules : List Rule) (f : Ip5tuple) : Decidable (Among100 rules f) :=
  inferInstanceAs (Decidable (_ ∈ _))

/-- The firewall enforces a file, if for every plain packet it drops the packet exactly when the
last rule for the packet's flow says so. -/
def Enforces (junk : Locals) (fw_egress : BitVec 32) (text : List Char) : Prop :=
  ∀ rules, parseRules junk .empty (some text) = some rules → ∀ frame, PlainPacket frame →
    (fw rules fw_egress frame = .shot ↔ LastDrops (fileRules text) (flowOf frame))

theorem swapPorts_swapPorts (f : Ip5tuple) : f.swapPorts.swapPorts = f := by
  obtain ⟨s, d, sp, dp, p⟩ := f
  simp only [Ip5tuple.swapPorts, bswap16_bswap16]

/-- Swapping the ports leaves a flow one that packets have. -/
theorem packetFlow_swapPorts {f : Ip5tuple} (h : PacketFlow f) : PacketFlow f.swapPorts where
  proto := h.proto
  icmp := by
    intro hi
    obtain ⟨hs, hd⟩ := h.icmp hi
    have hzero : bswap16 0 = 0 := by decide
    constructor
    · rw [Ip5tuple.swapPorts, hs, hzero]
    · rw [Ip5tuple.swapPorts, hd, hzero]

/-- The entry that `parse_rules` has left under the key of a packet's flow. -/
theorem lookup_rules (rules : List Rule) (f : Ip5tuple) :
    ((BoundedMap.empty : RulesMap).putAll (rules.map Rule.entry)).lookup f.toNetwork =
      if Among100 rules f.swapPorts then
        (BoundedMap.lastValue (verdicts rules) f.swapPorts).map
          fun drop => if drop then FW_ACTION_BLOCK else FW_ACTION_PASS
      else none := by
  have hinj : Function.Injective (Ip5tuple.toNetwork ∘ Ip5tuple.swapPorts) :=
    Ip5tuple.toNetwork_injective.comp (Function.LeftInverse.injective swapPorts_swapPorts)
  have hentries : rules.map Rule.entry = (verdicts rules).map
      (Prod.map (Ip5tuple.toNetwork ∘ Ip5tuple.swapPorts)
        fun drop => if drop then FW_ACTION_BLOCK else FW_ACTION_PASS) := by
    rw [verdicts, List.map_map]
    rfl
  have hkey : f.toNetwork = (Ip5tuple.toNetwork ∘ Ip5tuple.swapPorts) f.swapPorts := by
    rw [Function.comp_apply, swapPorts_swapPorts]
  rw [hentries, hkey, BoundedMap.lookup_putAll_empty, BoundedMap.firstKeys_map hinj,
    BoundedMap.lastValue_map hinj]
  simp only [List.mem_map_of_injective hinj]
  rfl

/-- The firewall drops a packet if the last rule for the flow with byte-swapped ports says so, and
that flow is among the first 100. -/
theorem fw_shot_iff (rules : List Rule) (fw_egress : BitVec 32) {frame : Bytes}
    (h : PlainPacket frame) :
    fw ((BoundedMap.empty : RulesMap).putAll (rules.map Rule.entry)) fw_egress frame = .shot ↔
      Among100 rules (flowOf frame).swapPorts ∧ LastDrops rules (flowOf frame).swapPorts := by
  have hlen : ¬ frame.length < 14 + 20 := Nat.not_lt.2 h.header
  unfold fw
  rw [if_neg hlen, if_neg (not_not.2 h.ethertype), getTuple_of_plainPacket h]
  dsimp only
  rw [lookup_rules]
  unfold LastDrops
  by_cases hmem : Among100 rules (flowOf frame).swapPorts
  · rw [if_pos hmem]
    have hne : FW_ACTION_BLOCK ≠ FW_ACTION_PASS := by decide
    rcases BoundedMap.lastValue (verdicts rules) (flowOf frame).swapPorts with _ | drop
    · simp [fwRedirect, hmem]
    · cases drop <;> simp [fwRedirect, hmem, hne]
  · rw [if_neg hmem]
    simp [fwRedirect, hmem]

/-- A file of comments, empty lines, and rules, whose lines fit the buffer of `parse_rules`, is
enforced exactly if every flow of TCP, UDP, or ICMP that its rules drop is among their first 100
flows, and they drop the flow with byte-swapped ports too. -/
theorem fw_enforces_iff (junk : Locals) (fw_egress : BitVec 32) (text : List Char)
    (hfile : WellFormedFile text) (hfit : FitsBuffer text) :
    Enforces junk fw_egress text ↔ ∀ f, PacketFlow f → LastDrops (fileRules text) f →
      Among100 (fileRules text) f ∧ LastDrops (fileRules text) f.swapPorts := by
  have hparse := parseRules_wellFormed junk .empty hfile hfit
  constructor
  · intro h f hf hdrop
    -- A dropped flow: its packet is dropped, so the rules drop the flow with swapped ports.
    have hshot (g : Ip5tuple) (hg : PacketFlow g) : LastDrops (fileRules text) g →
        Among100 (fileRules text) g.swapPorts ∧ LastDrops (fileRules text) g.swapPorts := by
      intro hd
      have hplain := plainPacket_packetOf hg
      have hflow := flowOf_packetOf hg
      rw [← hflow] at hd ⊢
      exact (fw_shot_iff _ fw_egress hplain).1 ((h _ hparse _ hplain).2 hd)
    obtain ⟨-, hswap⟩ := hshot f hf hdrop
    obtain ⟨hmem, -⟩ := hshot _ (packetFlow_swapPorts hf) hswap
    rw [swapPorts_swapPorts] at hmem
    exact ⟨hmem, hswap⟩
  · intro h rules hrules frame hplain
    obtain rfl := Option.some.inj (hparse.symm.trans hrules)
    have hflow := packetFlow_flowOf hplain
    rw [fw_shot_iff _ fw_egress hplain]
    constructor
    · rintro ⟨-, hd⟩
      have hback := (h _ (packetFlow_swapPorts hflow) hd).2
      rwa [swapPorts_swapPorts] at hback
    · intro hd
      have hswap := (h _ hflow hd).2
      exact ⟨(h _ (packetFlow_swapPorts hflow) hswap).1, hswap⟩

/-- A rule that stands in a comment behind the 1023 characters that fill the buffer is loaded, though
the file has no rules. So the lines have to fit the buffer. -/
theorem not_enforces_of_long_comment (junk : Locals) (fw_egress : BitVec 32)
    {comment line : List Char} {r : Rule} (hhead : comment.head? = some '#')
    (hlen : comment.length = 1023) (hcomment : '\n' ∉ comment) (hline : '\n' ∉ line)
    (hfit : line.length ≤ 1022) (hrule : ruleOfLine line = some r) (hdrop : r.drop = true)
    (hflow : PacketFlow r.flow) :
    WellFormedFile (comment ++ line) ∧ fileRules (comment ++ line) = [] ∧
      ¬ Enforces junk fw_egress (comment ++ line) := by
  have hne : comment ≠ [] := by
    rintro rfl
    simp at hhead
  -- The file is one line, the comment, but two pieces.
  have hlines : fileLines (comment ++ line) = [comment ++ line] :=
    List.splitOn_eq_singleton (by simp [hcomment, hline])
  have hfirst : (comment ++ line).head? = some '#' := by
    rw [List.head?_append_of_ne_nil _ hne, hhead]
  have hnone : ruleOfLine (comment ++ line) = none := by
    cases hr : ruleOfLine (comment ++ line) with
    | none => rfl
    | some r' =>
      obtain ⟨c, hc, hdigit⟩ := ruleOfLine_head hr
      rw [hfirst] at hc
      obtain rfl := Option.some.inj hc
      exact absurd hdigit (by decide)
  have hrules : fileRules (comment ++ line) = [] := by
    rw [fileRules, hlines, List.filterMap_cons_none hnone, List.filterMap_nil]
  have hone : fileLines line = [line] := List.splitOn_eq_singleton hline
  have hpieces : fgetsPieces [] (comment ++ line) = [comment, line] := by
    have hpiece := fgetsPieces_eq line [] (by simpa [hone] using hfit)
    have hnil : line ≠ [] := by
      rintro rfl
      obtain ⟨c, hc, -⟩ := ruleOfLine_head hrule
      simp at hc
    rw [fgetsPieces_full hcomment hne (by simpa using hlen), hpiece, hone]
    simp [withNewlines, hnil]
  have hparse : parseRules junk .empty (some (comment ++ line)) =
      some ((BoundedMap.empty : RulesMap).putAll ([r].map Rule.entry)) := by
    obtain ⟨l, hl⟩ := @parseLine_rule line [] r (junk, .empty) hrule (Or.inl rfl)
    rw [List.append_nil] at hl
    have hskip : parseLine (junk, .empty) comment = some (junk, .empty) :=
      if_pos (Or.inl hhead)
    simp only [parseRules, Option.bind_eq_bind, Option.bind_some, hpieces, List.foldlM_cons, hskip,
      hl]
    rfl
  refine ⟨fun l hl => ?_, hrules, fun h => ?_⟩
  · rw [hlines, List.mem_singleton] at hl
    exact Or.inr (Or.inl (hl ▸ hfirst))
  · -- The packets of the flow with byte-swapped ports are dropped, by a rule that is none.
    have hswap := packetFlow_swapPorts hflow
    have hplain := plainPacket_packetOf hswap
    have hshot := (fw_shot_iff [r] fw_egress hplain).2
    rw [flowOf_packetOf hswap, swapPorts_swapPorts] at hshot
    have hverdicts : verdicts [r] = [(r.flow, true)] := by
      rw [verdicts, List.map_singleton, hdrop]
    have hlast : LastDrops [r] r.flow := by
      rw [LastDrops, hverdicts]
      simp [BoundedMap.lastValue]
    have hmem : Among100 [r] r.flow := by
      rw [Among100, hverdicts, BoundedMap.firstKeys_of_nodup (by simp)]
      simp
    have hdrops := (h _ hparse _ hplain).1 (hshot ⟨hmem, hlast⟩)
    rw [hrules] at hdrops
    exact absurd hdrops (by simp [LastDrops, verdicts, BoundedMap.lastValue])

/-! ## Two files -/

/-- A file with rules for ICMP, of which the first is overridden, for ports that are the same when
byte-swapped, and for ports in both byte orders. -/
def mixedFile : List Char :=
  ("# rules\n10.0.0.1 10.0.0.2 0 0 1 drop\n\n10.0.0.1 10.0.0.2 257 514 6 drop\n" ++
    "10.0.0.3 10.0.0.4 1000 2000 17 drop\n10.0.0.3 10.0.0.4 59395 53255 17 drop\n" ++
    "10.0.0.1 10.0.0.2 0 0 1 allow\n10.0.0.5 10.0.0.6 0 0 1 drop\n").toList

/-- A file with a rule for TCP, from port 1000 to port 2000. -/
def tcpFile : List Char := "10.0.0.1 10.0.0.2 1000 2000 6 drop\n".toList

theorem fileRules_mixedFile : fileRules mixedFile =
    [⟨⟨0x0A000001, 0x0A000002, 0, 0, IPPROTO_ICMP⟩, true⟩,
      ⟨⟨0x0A000001, 0x0A000002, 0x0101, 0x0202, IPPROTO_TCP⟩, true⟩,
      ⟨⟨0x0A000003, 0x0A000004, 0x03E8, 0x07D0, IPPROTO_UDP⟩, true⟩,
      ⟨⟨0x0A000003, 0x0A000004, 0xE803, 0xD007, IPPROTO_UDP⟩, true⟩,
      ⟨⟨0x0A000001, 0x0A000002, 0, 0, IPPROTO_ICMP⟩, false⟩,
      ⟨⟨0x0A000005, 0x0A000006, 0, 0, IPPROTO_ICMP⟩, true⟩] := by
  decide +kernel

theorem fileRules_tcpFile :
    fileRules tcpFile = [⟨⟨0x0A000001, 0x0A000002, 1000, 2000, IPPROTO_TCP⟩, true⟩] := by
  decide

/-- The file with several rules is enforced. -/
theorem fw_enforces_mixedFile : Enforces noLocals 0 mixedFile := by
  refine (fw_enforces_iff noLocals 0 mixedFile ?_ ?_).2 ?_
  · unfold WellFormedFile
    decide +kernel
  · unfold FitsBuffer
    decide +kernel
  · rw [fileRules_mixedFile]
    intro f _ hdrop
    -- The rule is one of those that say `drop`.
    have hmem := BoundedMap.mem_of_lastValue hdrop
    simp only [verdicts, List.map_cons, List.map_nil, List.mem_cons, List.not_mem_nil, or_false,
      Prod.mk.injEq, and_true, Bool.true_eq_false, and_false, false_or] at hmem
    rcases hmem with rfl | rfl | rfl | rfl | rfl
    · exact absurd hdrop (by decide)
    · decide
    · decide
    · decide
    · decide

/-- The firewall lets a packet of the flow pass that the file drops. -/
theorem not_fw_enforces_tcpFile : ¬ Enforces noLocals 0 tcpFile := by
  intro h
  have hwell : WellFormedFile tcpFile := by
    unfold WellFormedFile
    decide
  have hfit : FitsBuffer tcpFile := by
    unfold FitsBuffer
    decide
  have hflow : PacketFlow ⟨0x0A000001, 0x0A000002, 1000, 2000, IPPROTO_TCP⟩ :=
    ⟨Or.inl rfl, by decide⟩
  have hplain := plainPacket_packetOf hflow
  have hverdict := h _ (parseRules_wellFormed noLocals .empty hwell hfit) _ hplain
  rw [fw_shot_iff _ 0 hplain, flowOf_packetOf hflow, fileRules_tcpFile] at hverdict
  exact absurd (hverdict.2 (by decide)).2 (by decide)

end ChainingBox
