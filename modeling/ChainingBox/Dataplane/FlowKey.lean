import ChainingBox.Dataplane.Packet

/-!
# The flow of the innermost header

An IPv4 header has from 5 to 15 words, and a header of IP-in-IP is followed by a second one. The flow
of such a packet is that of its innermost header, with the ports that come right after the options of
that header (`InnermostFlow`).

`get_tuple` reads no header length. It takes an outer header to be 20 bytes, and it takes the ports
from 20 bytes behind the start of the first header even if it has skipped that one.
`extractsInnermost_iff` says for which packets it finds the flow of the innermost header all the
same. These are all packets with a single header of 20 bytes (`sameFields_single`), and the packets
of ICMP whose outer header is of 20 bytes, if they have one (`sameFields_icmp`); for other packets it
is a coincidence of the bytes at two places.
-/

namespace ChainingBox

open Lib

variable {p : Bytes}

/-! ## Headers with options -/

/-- The length of the IPv4 header at `o` in bytes, from its length field in words. -/
def ihlBytes (p : Bytes) (o : ℕ) : ℕ := 4 * (load8 p o &&& 0xF).toNat

/-- Version 4, and a header of at least five words. -/
def WellFormedHeader (p : Bytes) (o : ℕ) : Prop := load8 p o >>> 4 = 4 ∧ 20 ≤ ihlBytes p o

/-- Where the innermost IPv4 header starts. -/
def innermost (p : Bytes) : ℕ := if load8 p 9 = IPPROTO_IPIP then ihlBytes p 0 else 0

/-- Where the innermost IPv4 header ends, with its options. -/
def innermostEnd (p : Bytes) : ℕ := innermost p + ihlBytes p (innermost p)

/-- The buffer starts with an IPv4 header, not of a fragment, and with a second one behind it if the
first one is of IP-in-IP. -/
structure Ipv4Buffer (p : Bytes) : Prop where
  header : WellFormedHeader p 0
  unfragmented : load8 p 6 &&& 0x3F = 0 ∧ load8 p 7 = 0
  inner : load8 p 9 = IPPROTO_IPIP → WellFormedHeader p (ihlBytes p 0)

/-- The tuple is the flow of the innermost header, which is in the buffer as far as the flow is. -/
structure InnermostFlow (p : Bytes) (t : Ip5tuple) : Prop where
  header : innermost p + 20 ≤ p.length
  ip_src : t.ip_src = load32 p (innermost p + 12)
  ip_dst : t.ip_dst = load32 p (innermost p + 16)
  proto : t.proto = load8 p (innermost p + 9)
  ports : t.proto = IPPROTO_TCP ∨ t.proto = IPPROTO_UDP → innermostEnd p + 4 ≤ p.length ∧
    t.sport = load16 p (innermostEnd p) ∧ t.dport = load16 p (innermostEnd p + 2)
  icmp : t.proto = IPPROTO_ICMP → t.sport = 0 ∧ t.dport = 0

/-- The IPv4 headers are completely in the buffer, and so is the header behind them for TCP and
UDP. -/
def HeadersComplete (p : Bytes) : Prop :=
  innermostEnd p ≤ p.length ∧
    (load8 p (innermost p + 9) = IPPROTO_TCP ∧ innermostEnd p + 20 ≤ p.length ∨
      load8 p (innermost p + 9) = IPPROTO_UDP ∧ innermostEnd p + 8 ≤ p.length ∨
      load8 p (innermost p + 9) = IPPROTO_ICMP)

/-- What `get_tuple` returns is the flow of the innermost header, and it returns it if the headers
are complete. -/
def ExtractsInnermost (p : Bytes) : Prop :=
  (∀ t, getTuple p = some t → InnermostFlow p t) ∧
    (HeadersComplete p → ∃ t, getTuple p = some t)

/-- A buffer has one flow, if it is of a known protocol. -/
theorem InnermostFlow.unique {t t' : Ip5tuple} (h : InnermostFlow p t) (h' : InnermostFlow p t')
    (hproto : t.proto = IPPROTO_TCP ∨ t.proto = IPPROTO_UDP ∨ t.proto = IPPROTO_ICMP) : t = t' := by
  have hsame : t.proto = t'.proto := h.proto.trans h'.proto.symm
  have hports : t.sport = t'.sport ∧ t.dport = t'.dport := by
    rcases hproto with hp | hp | hp
    · obtain ⟨-, hs, hd⟩ := h.ports (Or.inl hp)
      obtain ⟨-, hs', hd'⟩ := h'.ports (Or.inl (hsame ▸ hp))
      exact ⟨hs.trans hs'.symm, hd.trans hd'.symm⟩
    · obtain ⟨-, hs, hd⟩ := h.ports (Or.inr hp)
      obtain ⟨-, hs', hd'⟩ := h'.ports (Or.inr (hsame ▸ hp))
      exact ⟨hs.trans hs'.symm, hd.trans hd'.symm⟩
    · obtain ⟨hs, hd⟩ := h.icmp hp
      obtain ⟨hs', hd'⟩ := h'.icmp (hsame ▸ hp)
      exact ⟨hs.trans hs'.symm, hd.trans hd'.symm⟩
  calc t = ⟨t.ip_src, t.ip_dst, t.sport, t.dport, t.proto⟩ := rfl
    _ = ⟨t'.ip_src, t'.ip_dst, t'.sport, t'.dport, t'.proto⟩ := by
        rw [h.ip_src, h.ip_dst, hports.1, hports.2, hsame, h'.ip_src, h'.ip_dst]
    _ = t' := rfl

/-! ## What `get_tuple` reads instead -/

/-- Where `get_tuple` takes the innermost header to start. -/
def skipped (p : Bytes) : ℕ := if load8 p 9 = IPPROTO_IPIP then 20 else 0

/-- The buffer passes the checks of `get_tuple`. -/
def PassesChecks (p : Bytes) : Prop :=
  skipped p + 20 ≤ p.length ∧
    (load8 p (skipped p + 9) = IPPROTO_TCP ∧ 40 ≤ p.length ∨
      load8 p (skipped p + 9) = IPPROTO_UDP ∧ 28 ≤ p.length ∨
      load8 p (skipped p + 9) = IPPROTO_ICMP)

/-- The fields that `get_tuple` reads have the bytes of those of the innermost header, which is in
the buffer. -/
structure SameFields (p : Bytes) : Prop where
  header : innermost p + 20 ≤ p.length
  ip_src : load32 p (skipped p + 12) = load32 p (innermost p + 12)
  ip_dst : load32 p (skipped p + 16) = load32 p (innermost p + 16)
  proto : load8 p (skipped p + 9) = load8 p (innermost p + 9)
  ports : load8 p (innermost p + 9) ≠ IPPROTO_ICMP → innermostEnd p + 4 ≤ p.length ∧
    load16 p 20 = load16 p (innermostEnd p) ∧ load16 p 22 = load16 p (innermostEnd p + 2)

/-- The tuple of a buffer that passes the checks. -/
def skippedTuple (p : Bytes) : Ip5tuple where
  ip_src := load32 p (skipped p + 12)
  ip_dst := load32 p (skipped p + 16)
  sport := if load8 p (skipped p + 9) = IPPROTO_ICMP then 0 else load16 p 20
  dport := if load8 p (skipped p + 9) = IPPROTO_ICMP then 0 else load16 p 22
  proto := load8 p (skipped p + 9)

theorem getTuple_of_passesChecks (h : PassesChecks p) : getTuple p = some (skippedTuple p) := by
  obtain ⟨hlen, hproto⟩ := h
  refine getTuple_eq rfl hlen ?_
  rcases hproto with ⟨hp, hl⟩ | hp | hp
  · exact Or.inl ⟨hp, hl⟩
  · exact Or.inr (Or.inl hp)
  · exact Or.inr (Or.inr hp)

/-- `get_tuple` refuses all other buffers. -/
theorem passesChecks_of_getTuple {t : Ip5tuple} (h : getTuple p = some t) : PassesChecks p := by
  have hlen := length_of_getTuple h
  unfold getTuple at h
  have hinner : ¬ (load8 p 9 = IPPROTO_IPIP ∧ p.length < 40) := by
    intro hshort
    rw [if_neg (by omega)] at h
    simp [hshort] at h
  have hskip : skipped p + 20 ≤ p.length := by
    unfold skipped
    split_ifs with h9
    · have hl := not_and.1 hinner h9
      omega
    · omega
  have hdef : (if load8 p 9 = IPPROTO_IPIP then 20 else 0) = skipped p := rfl
  rw [if_neg (by omega)] at h
  simp only [hdef, if_neg hinner] at h
  split_ifs at h with hudp hudplen htcp htcplen hicmp
  · exact ⟨hskip, Or.inr (Or.inl ⟨hudp, by omega⟩)⟩
  · exact ⟨hskip, Or.inl ⟨htcp, by omega⟩⟩
  · exact ⟨hskip, Or.inr (Or.inr hicmp)⟩

theorem eq_skippedTuple {t : Ip5tuple} (h : getTuple p = some t) : t = skippedTuple p :=
  Option.some.inj (h.symm.trans (getTuple_of_passesChecks (passesChecks_of_getTuple h)))

/-- With complete headers and the same fields, a buffer passes the checks. -/
theorem SameFields.passesChecks (h : SameFields p) (hbuf : Ipv4Buffer p)
    (hcomplete : HeadersComplete p) : PassesChecks p := by
  obtain ⟨hend, hproto⟩ := hcomplete
  -- `get_tuple` reads no further than the innermost header goes.
  have hinnermost : skipped p ≤ innermost p := by
    unfold skipped innermost
    split_ifs with h9
    · exact hbuf.header.2
    · exact le_refl 0
  have hihl : 20 ≤ ihlBytes p (innermost p) := by
    unfold innermost
    split_ifs with h9
    · exact (hbuf.inner h9).2
    · exact hbuf.header.2
  have hdef : innermostEnd p = innermost p + ihlBytes p (innermost p) := rfl
  refine ⟨by omega, ?_⟩
  rw [h.proto]
  rcases hproto with ⟨hp, hl⟩ | ⟨hp, hl⟩ | hp
  · exact Or.inl ⟨hp, by omega⟩
  · exact Or.inr (Or.inl ⟨hp, by omega⟩)
  · exact Or.inr (Or.inr hp)

/-- The tuple of a buffer that passes the checks is the flow of the innermost header if and only if
the fields are the same. -/
theorem innermostFlow_skippedTuple (h : PassesChecks p) :
    InnermostFlow p (skippedTuple p) ↔ SameFields p := by
  -- The checks let three protocols through, and only the first two have ports.
  have hcase : load8 p (skipped p + 9) ≠ IPPROTO_ICMP →
      load8 p (skipped p + 9) = IPPROTO_TCP ∨ load8 p (skipped p + 9) = IPPROTO_UDP := by
    intro hne
    rcases h.2 with hp | hp | hp
    · exact Or.inl hp.1
    · exact Or.inr hp.1
    · exact absurd hp hne
  constructor
  · intro hflow
    refine ⟨hflow.header, hflow.ip_src, hflow.ip_dst, hflow.proto, fun hne => ?_⟩
    have hne' : load8 p (skipped p + 9) ≠ IPPROTO_ICMP := fun hp => hne (hflow.proto.symm.trans hp)
    have hports := hflow.ports (hcase hne')
    simp only [skippedTuple, if_neg hne'] at hports
    exact hports
  · intro hsame
    refine ⟨hsame.header, hsame.ip_src, hsame.ip_dst, hsame.proto, fun hp => ?_, fun hp => ?_⟩
    · have hne : load8 p (skipped p + 9) ≠ IPPROTO_ICMP := by
        have hp' : load8 p (skipped p + 9) = IPPROTO_TCP ∨
          load8 p (skipped p + 9) = IPPROTO_UDP := hp
        rcases hp' with hp' | hp' <;> rw [hp'] <;> decide
      simp only [skippedTuple, if_neg hne]
      exact hsame.ports (hsame.proto ▸ hne)
    · exact ⟨if_pos hp, if_pos hp⟩

/-! ## The exact condition -/

/-- `get_tuple` finds the flow of the innermost header exactly if the fields that it reads have the
bytes of those of the innermost header, unless the buffer neither passes its checks nor has complete
headers. -/
theorem extractsInnermost_iff (p : Bytes) (h : Ipv4Buffer p) :
    ExtractsInnermost p ↔ (PassesChecks p ∨ HeadersComplete p → SameFields p) := by
  constructor
  · rintro ⟨hsound, hcomplete⟩ hor
    have hpass : PassesChecks p := by
      rcases hor with hp | hc
      · exact hp
      · obtain ⟨t, ht⟩ := hcomplete hc
        exact passesChecks_of_getTuple ht
    exact (innermostFlow_skippedTuple hpass).1 (hsound _ (getTuple_of_passesChecks hpass))
  · intro hsame
    constructor
    · intro t ht
      have hpass := passesChecks_of_getTuple ht
      rw [eq_skippedTuple ht]
      exact (innermostFlow_skippedTuple hpass).2 (hsame (Or.inl hpass))
    · intro hc
      have hpass := (hsame (Or.inr hc)).passesChecks h hc
      exact ⟨_, getTuple_of_passesChecks hpass⟩

/-- A UDP packet from 10.0.0.1:1000 to 10.0.0.2:2000 with one word of options. -/
def optionsPacket : Bytes :=
  [0x46, 0, 0, 32, 0, 0, 0, 0, 64, 17, 0, 0, 10, 0, 0, 1, 10, 0, 0, 2, 1, 1, 1, 1,
    0x03, 0xE8, 0x07, 0xD0, 0, 8, 0, 0]

theorem ipv4Buffer_optionsPacket : Ipv4Buffer optionsPacket where
  header := ⟨rfl, by decide⟩
  unfragmented := ⟨rfl, rfl⟩
  inner := fun h => absurd h (by decide)

/-- A packet for which both sides fail. -/
theorem extractsInnermost_iff_options :
    Ipv4Buffer optionsPacket ∧ (ExtractsInnermost optionsPacket ↔
      (PassesChecks optionsPacket ∨ HeadersComplete optionsPacket → SameFields optionsPacket)) :=
  ⟨ipv4Buffer_optionsPacket, extractsInnermost_iff optionsPacket ipv4Buffer_optionsPacket⟩

/-- `get_tuple` reads the options as the ports. -/
theorem not_extractsInnermost_options :
    Ipv4Buffer optionsPacket ∧ ¬ ExtractsInnermost optionsPacket := by
  refine ⟨ipv4Buffer_optionsPacket, fun ⟨hsound, _⟩ => ?_⟩
  have hports := (hsound ⟨0x0100000A, 0x0200000A, 0x0101, 0x0101, 17⟩ rfl).ports (Or.inr rfl)
  exact absurd hports (by decide)

/-! ## Packets for which it holds -/

/-- A single header of 20 bytes, with a complete transport header. -/
theorem sameFields_single (hihl : ihlBytes p 0 = 20) (hipip : load8 p 9 ≠ IPPROTO_IPIP)
    (hlen : 24 ≤ p.length) : SameFields p := by
  have hskip : skipped p = 0 := if_neg hipip
  have hinner : innermost p = 0 := if_neg hipip
  have hend : innermostEnd p = 20 := by rw [innermostEnd, hinner, hihl]
  have heq : skipped p = innermost p := hskip.trans hinner.symm
  exact
    { header := by omega
      ip_src := by rw [heq]
      ip_dst := by rw [heq]
      proto := by rw [heq]
      ports := fun _ => by
        rw [hend]
        exact ⟨hlen, rfl, rfl⟩ }

/-- ICMP, with no outer header or with one of 20 bytes. -/
theorem sameFields_icmp (hihl : load8 p 9 = IPPROTO_IPIP → ihlBytes p 0 = 20)
    (hicmp : load8 p (innermost p + 9) = IPPROTO_ICMP) (hlen : innermost p + 20 ≤ p.length) :
    SameFields p := by
  have heq : skipped p = innermost p := by
    unfold skipped innermost
    split_ifs with h9
    · exact (hihl h9).symm
    · rfl
  exact
    { header := hlen
      ip_src := by rw [heq]
      ip_dst := by rw [heq]
      proto := by rw [heq]
      ports := fun hne => absurd hicmp hne }

end ChainingBox
