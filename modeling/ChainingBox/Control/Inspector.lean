import ChainingBox.Dataplane.Classifier
import ChainingBox.Functions.Rules
import ChainingBox.Lib.Walk

/-!
# The map inspector

`map_inspector_user.c` prints the tables of a node. Its functions walk through a table with
`bpf_map_get_next_key`, look each key up, and print what they find (`dump`). `dump_fwd_table` begins
with no key at all, and so prints the whole table (`dumpFwdTable_lists`). `dump_cls_table` begins
with a local variable that has never been set. When that happens to hold a key of the table, the
entries up to that key are not printed (`dumpClsTable_lists_iff`).

The third, `dump_nsh_data`, is left out. It looks the 24 bytes of an NSH up into a variable of 8, so
what it prints from there on depends on what the compiler has put behind that variable.

What is printed can be read: an address, a port, or a protocol in the text of an entry is that of
its key (`shows_clsText`), and no other key reads the same (`shows_unique`).
-/

namespace ChainingBox

open Lib

namespace Inspector

/-! ## The text of an entry -/

/-- `%d` and `%u`, of a number that is not negative. -/
def decimal (n : ℕ) : List Char := Nat.toDigits 10 n

/-- `%d`. -/
def signed (z : ℤ) : List Char := if z < 0 then '-' :: decimal z.natAbs else decimal z.natAbs

/-- `%x`. -/
def hex (n : ℕ) : List Char := Nat.toDigits 16 n

/-- `%02X`. -/
def hexByte (b : Byte) : List Char := ((hex b.toNat).map Char.toUpper).leftpad 2 '0'

/-- `%08x`. -/
def hexWord (x : BitVec 32) : List Char := (hex x.toNat).leftpad 8 '0'

/-- `snprintf`, into a buffer with room for `size` characters and the terminator among them. -/
def snprintf (size : ℕ) (text : List Char) : List Char := text.take (size - 1)

/-- `ip2str`. -/
def ip2str (ip : BitVec 32) (size : ℕ) : List Char :=
  let b0 : Byte := (ip &&& 0xFF).setWidth 8
  let b1 : Byte := (ip >>> 8 &&& 0xFF).setWidth 8
  let b2 : Byte := (ip >>> 16 &&& 0xFF).setWidth 8
  let b3 : Byte := (ip >>> 24 &&& 0xFF).setWidth 8
  snprintf size (decimal b0.toNat ++ ['.'] ++ decimal b1.toNat ++ ['.'] ++ decimal b2.toNat ++
    ['.'] ++ decimal b3.toNat)

/-- `mac2str`. -/
def mac2str (mac : Mac) (size : ℕ) : List Char :=
  snprintf size (hexByte (load8 mac.1 0) ++ [':'] ++ hexByte (load8 mac.1 1) ++ [':'] ++
    hexByte (load8 mac.1 2) ++ [':'] ++ hexByte (load8 mac.1 3) ++ [':'] ++
    hexByte (load8 mac.1 4) ++ [':'] ++ hexByte (load8 mac.1 5))

/-- The line of a flow's key. -/
def keyText (key : Ip5tuple) : List Char :=
  "Key: [ip_src: ".toList ++ ip2str key.ip_src 16 ++ ", ip_dst: ".toList ++
    ip2str key.ip_dst 16 ++ ", sport: ".toList ++ decimal (htons key.sport).toNat ++
    ", dport: ".toList ++ decimal (htons key.dport).toNat ++ ", proto: ".toList ++
    decimal key.proto.toNat ++ "]\n".toList

/-- A service path header: `sph` is an `int`, so the shift keeps its sign. -/
def pathText (sph : BitVec 32) : List Char :=
  "spi: ".toList ++ signed (sph.sshiftRight 8).toInt ++ ", si: ".toList ++
    decimal (sph &&& 0xFF).toNat ++ ", sph: 0x".toList ++ hexWord sph

/-- What `dump_cls_table` prints of an entry. -/
def clsText (key : Ip5tuple) (val : ClsEntry) : List Char :=
  keyText key ++ ("Val: [".toList ++ pathText (htonl val.sph) ++ ", next_hop: ".toList ++
    mac2str val.next_hop 32 ++ "]\n\n".toList)

/-- What `dump_fwd_table` prints of one. -/
def fwdText (key : BitVec 32) (val : FwdEntry) : List Char :=
  "Key: [".toList ++ pathText (htonl key) ++ "]\n".toList ++ "Val: [flags: ".toList ++
    hex val.flags.toNat ++ ", address: ".toList ++ mac2str val.address 32 ++ "]\n\n".toList

/-! ## The walk -/

/-- An open hash map, with the order in which the kernel has its keys. -/
structure OpenMap (κ α : Type) [DecidableEq κ] (cap : ℕ) where
  contents : BoundedMap κ α cap
  order : List κ
  nodup : order.Nodup
  mem_order : ∀ k, k ∈ order ↔ k ∈ contents

section Dump

variable {κ α : Type} [DecidableEq κ] {cap : ℕ}

/-- `bpf_map_get_next_key`; `none` is its error. -/
def bpfMapGetNextKey (m : OpenMap κ α cap) (prev_key : Option κ) : Option κ :=
  Walk.next m.order prev_key

/-- `bpf_map_lookup_elem`. -/
def bpfMapLookupElem (m : OpenMap κ α cap) (key : κ) : Option α := m.contents.lookup key

/-- The loop of the functions: what each round prints, or `none` if the loop has not returned
in the rounds that are given. -/
def dump (m : OpenMap κ α cap) (found : κ → α → List Char) (missing : List Char) :
    ℕ → Option κ → Option (List (List Char))
  | 0, _ => none
  | rounds + 1, prev_key =>
    match bpfMapGetNextKey m prev_key with
    | none => some []
    | some key =>
      let text := match bpfMapLookupElem m key with
        | some val => found key val
        | none => missing
      (dump m found missing rounds (some key)).map (text :: ·)

end Dump

/-- `dump_cls_table`, with what `prev_key` happens to hold. There is no table if its descriptor is
negative. -/
def dumpClsTable (rounds : ℕ) (cls_table : Option (OpenMap Ip5tuple ClsEntry 2048))
    (prev_key : Ip5tuple) : Option (List (List Char)) :=
  match cls_table with
  | none => some []
  | some m =>
    (dump m clsText [] rounds (some prev_key)).map ("==== Classifier map ====\n".toList :: ·)

/-- `dump_fwd_table`. -/
def dumpFwdTable (rounds : ℕ) (fd : Option (OpenMap (BitVec 32) FwdEntry 2048)) :
    Option (List (List Char)) :=
  match fd with
  | none => some []
  | some m =>
    (dump m fwdText "next_key err\n".toList rounds none).map
      ("==== Forwarding table ====\n".toList :: ·)

/-! ## What the text says -/

/-- The key of a flow can be read in the text: its addresses, ports, and protocol. -/
def Shows (text : List Char) (key : Ip5tuple) : Prop :=
  ∃ src dst sport dport proto val : List Char,
    text = "Key: [ip_src: ".toList ++ src ++ ", ip_dst: ".toList ++ dst ++ ", sport: ".toList ++
        sport ++ ", dport: ".toList ++ dport ++ ", proto: ".toList ++ proto ++ "]\n".toList ++ val ∧
      address src = some (htonl key.ip_src) ∧ address dst = some (htonl key.ip_dst) ∧
      number 16 sport = some (htons key.sport) ∧ number 16 dport = some (htons key.dport) ∧
      number 8 proto = some key.proto

theorem decimal_digits {n : ℕ} {c : Char} (h : c ∈ decimal n) : c.isDigit :=
  Nat.isDigit_of_mem_toDigits (by decide) (by decide) h

theorem digitsValue_decimal (n : ℕ) : digitsValue (decimal n) = n :=
  Nat.ofDigitChars_ten_toDigits

theorem number_decimal {w : ℕ} (x : BitVec w) : number w (decimal x.toNat) = some x := by
  have hdigits : (decimal x.toNat).all Char.isDigit = true :=
    List.all_eq_true.2 fun c hc => decimal_digits hc
  have hlt : digitsValue (decimal x.toNat) < 2 ^ w := by
    rw [digitsValue_decimal]
    exact x.isLt
  rw [number, if_pos ⟨Nat.toDigits_ne_nil, hdigits, hlt⟩, digitsValue_decimal, BitVec.ofNat_toNat,
    BitVec.setWidth_eq]

theorem octet_decimal (b : Byte) : octet (decimal b.toNat) = some b := by
  revert b
  decide

theorem dot_notMem_decimal (n : ℕ) : '.' ∉ decimal n := fun h =>
  absurd (decimal_digits h) (by decide)

/-- Four numbers with dots between them. -/
theorem inetPton_dotted (a b c d : Byte) :
    inetPton (decimal a.toNat ++ ['.'] ++ decimal b.toNat ++ ['.'] ++ decimal c.toNat ++ ['.'] ++
      decimal d.toNat) = some (a, b, c, d) := by
  have hsplit : (decimal a.toNat ++ ['.'] ++ decimal b.toNat ++ ['.'] ++ decimal c.toNat ++ ['.'] ++
      decimal d.toNat).splitOn '.' =
        [decimal a.toNat, decimal b.toNat, decimal c.toNat, decimal d.toNat] := by
    simp only [List.append_assoc, List.cons_append, List.nil_append]
    rw [List.splitOn_append_cons_self_of_not_mem (dot_notMem_decimal _),
      List.splitOn_append_cons_self_of_not_mem (dot_notMem_decimal _),
      List.splitOn_append_cons_self_of_not_mem (dot_notMem_decimal _),
      List.splitOn_eq_singleton (dot_notMem_decimal _)]
  rw [inetPton, hsplit]
  simp only [octet_decimal]
  rfl

theorem length_decimal_byte (b : Byte) : (decimal b.toNat).length ≤ 3 := by
  rw [decimal, Nat.length_toDigits_le_iff (by decide) (by decide)]
  have hb := b.isLt
  omega

/-- The byte that `ip2str` shifts out. -/
theorem setWidth_and_ff (x : BitVec 32) (k : ℕ) :
    (x >>> (8 * k) &&& 0xFF).setWidth 8 = byteOf x k := by
  apply BitVec.eq_of_toNat_eq
  have hmask : (0xFF : BitVec 32).toNat = 2 ^ 8 - 1 := rfl
  rw [BitVec.toNat_setWidth, BitVec.toNat_and, hmask, Nat.and_two_pow_sub_one_eq_mod, Nat.mod_mod,
    BitVec.toNat_ushiftRight, byteOf, BitVec.extractLsb'_toNat]

/-- The text of an address has room in the buffer, and is read as the address. -/
theorem address_ip2str (ip : BitVec 32) : address (ip2str ip 16) = some (htonl ip) := by
  have h0 : (ip &&& 0xFF).setWidth 8 = byteOf ip 0 := setWidth_and_ff ip 0
  have h1 : (ip >>> 8 &&& 0xFF).setWidth 8 = byteOf ip 1 := setWidth_and_ff ip 1
  have h2 : (ip >>> 16 &&& 0xFF).setWidth 8 = byteOf ip 2 := setWidth_and_ff ip 2
  have h3 : (ip >>> 24 &&& 0xFF).setWidth 8 = byteOf ip 3 := setWidth_and_ff ip 3
  have hroom : (decimal (byteOf ip 0).toNat ++ ['.'] ++ decimal (byteOf ip 1).toNat ++ ['.'] ++
      decimal (byteOf ip 2).toNat ++ ['.'] ++ decimal (byteOf ip 3).toNat).length ≤ 15 := by
    have hb0 := length_decimal_byte (byteOf ip 0)
    have hb1 := length_decimal_byte (byteOf ip 1)
    have hb2 := length_decimal_byte (byteOf ip 2)
    have hb3 := length_decimal_byte (byteOf ip 3)
    simp only [List.length_append, List.length_singleton]
    omega
  unfold ip2str
  dsimp only
  rw [h0, h1, h2, h3, snprintf, List.take_of_length_le hroom, address, inetPton_dotted]
  rfl

theorem shows_clsText (key : Ip5tuple) (val : ClsEntry) : Shows (clsText key val) key :=
  ⟨_, _, _, _, _, _, rfl, address_ip2str _, address_ip2str _, number_decimal _, number_decimal _,
    number_decimal _⟩

/-- Where two texts go on in the same way, with a character that neither has before, they agree up
to there. -/
theorem field_inj {sep a b r s : List Char} (h : a ++ (sep ++ r) = b ++ (sep ++ s)) {c : Char}
    (hsep : sep.head? = some c) (ha : c ∉ a) (hb : c ∉ b) : a = b ∧ r = s := by
  obtain ⟨sep, rfl⟩ := List.head?_eq_some_iff.1 hsep
  have htake (x y : List Char) (hx : c ∉ x) : (x ++ (c :: sep ++ y)).takeWhile (· ≠ c) = x := by
    have hall : ∀ d ∈ x, decide (d ≠ c) = true := fun d hd =>
      decide_eq_true fun hdc => hx (hdc ▸ hd)
    rw [List.takeWhile_append_of_pos hall, List.cons_append, List.takeWhile_cons_of_neg (by simp),
      List.append_nil]
  have hab : a = b :=
    calc a = (a ++ (c :: sep ++ r)).takeWhile (· ≠ c) := (htake a r ha).symm
      _ = (b ++ (c :: sep ++ s)).takeWhile (· ≠ c) := by rw [h]
      _ = b := htake b s hb
  rw [hab] at h
  exact ⟨hab, List.append_cancel_left (List.append_cancel_left h)⟩

/-- A text shows one key at most. -/
theorem shows_unique {text : List Char} {k k' : Ip5tuple} (h : Shows text k) (h' : Shows text k') :
    k = k' := by
  obtain ⟨src, dst, sport, dport, proto, val, htext, hsrc, hdst, hsport, hdport, hproto⟩ := h
  obtain ⟨src', dst', sport', dport', proto', val', htext', hsrc', hdst', hsport', hdport',
    hproto'⟩ := h'
  -- What follows a field begins with a character that no field has.
  have haddr {w : List Char} {a : BitVec 32} (hw : address w = some a) : ',' ∉ w := fun hc =>
    (address_chars hw ',' hc).elim (fun hd => absurd hd (by decide)) fun hd =>
      absurd hd (by decide)
  have hnum {n : ℕ} {w : List Char} {x : BitVec n} {c : Char} (hw : number n w = some x)
      (hc : c.isDigit = false) : c ∉ w := fun hmem =>
    absurd (List.all_eq_true.1 (number_word hw).2.1 c hmem) (by rw [hc]; decide)
  have h := htext.symm.trans htext'
  simp only [List.append_assoc] at h
  obtain ⟨rfl, h1⟩ := field_inj (List.append_cancel_left h) rfl (haddr hsrc) (haddr hsrc')
  obtain ⟨rfl, h2⟩ := field_inj h1 rfl (haddr hdst) (haddr hdst')
  obtain ⟨rfl, h3⟩ := field_inj h2 rfl (hnum hsport rfl) (hnum hsport' rfl)
  obtain ⟨rfl, h4⟩ := field_inj h3 rfl (hnum hdport rfl) (hnum hdport' rfl)
  obtain ⟨rfl, -⟩ := field_inj h4 rfl (hnum hproto rfl) (hnum hproto' rfl)
  -- The same fields are read as the same values.
  have e1 := bswap32_injective (Option.some.inj (hsrc.symm.trans hsrc'))
  have e2 := bswap32_injective (Option.some.inj (hdst.symm.trans hdst'))
  have e3 := bswap16_injective (Option.some.inj (hsport.symm.trans hsport'))
  have e4 := bswap16_injective (Option.some.inj (hdport.symm.trans hdport'))
  have e5 := Option.some.inj (hproto.symm.trans hproto')
  calc k = ⟨k.ip_src, k.ip_dst, k.sport, k.dport, k.proto⟩ := rfl
    _ = ⟨k'.ip_src, k'.ip_dst, k'.sport, k'.dport, k'.proto⟩ := by rw [e1, e2, e3, e4, e5]
    _ = k' := rfl

/-! ## What is printed -/

section Dump

variable {κ α : Type} [DecidableEq κ] {cap : ℕ}

/-- What a round prints of a key. -/
def roundText (m : OpenMap κ α cap) (found : κ → α → List Char) (missing : List Char) (key : κ) :
    List Char :=
  (bpfMapLookupElem m key).elim missing (found key)

/-- The loop prints the keys of a walk. -/
theorem dump_eq (m : OpenMap κ α cap) (found : κ → α → List Char) (missing : List Char)
    (rounds : ℕ) (prev_key : Option κ) :
    dump m found missing rounds prev_key =
      (Walk.walk m.order rounds prev_key).map (List.map (roundText m found missing)) := by
  induction rounds generalizing prev_key with
  | zero => rfl
  | succ rounds ih =>
    have hkey (key : κ) : (match bpfMapLookupElem m key with
        | some val => found key val
        | none => missing) = roundText m found missing key := by
      unfold roundText
      cases bpfMapLookupElem m key <;> rfl
    rw [dump, Walk.walk, bpfMapGetNextKey]
    cases Walk.next m.order prev_key with
    | none => rfl
    | some key =>
      dsimp only
      rw [ih, hkey, Option.map_map, Option.map_map]
      rfl

/-- From a start that is no key, the whole table is printed. -/
theorem dump_of_not_mem (m : OpenMap κ α cap) (found : κ → α → List Char) (missing : List Char)
    {prev_key : Option κ} (h : ∀ k ∈ m.contents, prev_key ≠ some k) {rounds : ℕ}
    (hr : m.order.length < rounds) :
    dump m found missing rounds prev_key = some (m.order.map (roundText m found missing)) := by
  have hstart : ∀ k ∈ m.order, prev_key ≠ some k := fun k hk => h k ((m.mem_order k).1 hk)
  rw [dump_eq, Walk.walk_of_not_mem m.nodup hstart hr]
  rfl

/-- From a key, what lies behind it. -/
theorem dump_of_mem (m : OpenMap κ α cap) (found : κ → α → List Char) (missing : List Char)
    {before after : List κ} {k : κ} (h : m.order = before ++ k :: after) {rounds : ℕ}
    (hr : m.order.length < rounds) :
    dump m found missing rounds (some k) = some (after.map (roundText m found missing)) := by
  have hafter : after.length < rounds := by
    rw [h, List.length_append, List.length_cons] at hr
    omega
  rw [dump_eq, Walk.walk_of_mem m.nodup h hafter]
  rfl

/-- Every key of the table has a value, so its text is printed. -/
theorem forall₂_roundText (m : OpenMap κ α cap) {found : κ → α → List Char} (missing : List Char)
    {R : List Char → κ → Prop} (hR : ∀ key val, R (found key val) key) :
    List.Forall₂ R (m.order.map (roundText m found missing)) m.order := by
  rw [List.forall₂_map_left_iff, List.forall₂_same]
  intro k hk
  obtain ⟨val, hval⟩ := Option.isSome_iff_exists.1
    (BoundedMap.lookup_isSome.2 ((m.mem_order k).1 hk))
  rw [roundText, bpfMapLookupElem, hval]
  exact hR k val

end Dump

/-- `dump_cls_table` returns, whatever `prev_key` holds. -/
theorem dumpClsTable_returns (m : OpenMap Ip5tuple ClsEntry 2048) (prev_key : Ip5tuple) :
    ∃ out, ∀ rounds, m.order.length < rounds →
      dumpClsTable rounds (some m) prev_key = some out := by
  by_cases hmem : prev_key ∈ m.order
  · obtain ⟨before, after, horder⟩ := List.append_of_mem hmem
    refine ⟨"==== Classifier map ====\n".toList :: after.map (roundText m clsText []),
      fun rounds hr => ?_⟩
    rw [dumpClsTable, dump_of_mem m clsText [] horder hr]
    rfl
  · have hstart : ∀ k ∈ m.contents, some prev_key ≠ some k := fun k hk heq =>
      hmem (Option.some.inj heq ▸ (m.mem_order k).2 hk)
    refine ⟨"==== Classifier map ====\n".toList :: m.order.map (roundText m clsText []),
      fun rounds hr => ?_⟩
    rw [dumpClsTable, dump_of_not_mem m clsText [] hstart hr]
    rfl

/-- `dump_cls_table` returns, and has printed each entry of the table once. -/
def ListsAll (m : OpenMap Ip5tuple ClsEntry 2048) (prev_key : Ip5tuple) : Prop :=
  ∃ entries, (∀ rounds, m.order.length < rounds → dumpClsTable rounds (some m) prev_key =
      some ("==== Classifier map ====\n".toList :: entries)) ∧
    ∃ keys : List Ip5tuple, keys.Nodup ∧ (∀ k, k ∈ keys ↔ k ∈ m.contents) ∧
      List.Forall₂ Shows entries keys

/-- `dump_cls_table` lists the whole table exactly if the variable `prev_key` does not happen to hold
one of its keys. -/
theorem dumpClsTable_lists_iff (m : OpenMap Ip5tuple ClsEntry 2048) (prev_key : Ip5tuple) :
    ListsAll m prev_key ↔ prev_key ∉ m.contents := by
  constructor
  · rintro ⟨entries, hdump, keys, hnodup, hkeys, hshows⟩ hmem
    obtain ⟨before, after, horder⟩ := List.append_of_mem ((m.mem_order prev_key).2 hmem)
    have hrun := hdump _ (Nat.lt_succ_self _)
    rw [dumpClsTable, dump_of_mem m clsText [] horder (Nat.lt_succ_self _)] at hrun
    -- Too few entries are printed.
    have hentries : after.map (roundText m clsText []) = entries :=
      (List.cons.inj (Option.some.inj hrun)).2
    have hperm : keys.Perm m.order := (List.perm_ext_iff_of_nodup hnodup m.nodup).2 fun k =>
      (hkeys k).trans (m.mem_order k).symm
    have hlen : after.length = m.order.length :=
      calc after.length = entries.length := by rw [← hentries, List.length_map]
        _ = keys.length := hshows.length_eq
        _ = m.order.length := hperm.length_eq
    rw [horder, List.length_append, List.length_cons] at hlen
    omega
  · intro hnot
    have hstart : ∀ k ∈ m.contents, some prev_key ≠ some k := fun k hk heq =>
      hnot (Option.some.inj heq ▸ hk)
    refine ⟨m.order.map (roundText m clsText []), fun rounds hr => ?_, m.order, m.nodup,
      m.mem_order, ?_⟩
    · rw [dumpClsTable, dump_of_not_mem m clsText [] hstart hr]
      rfl
    · exact forall₂_roundText m [] shows_clsText

/-- A flow of TCP from 10.0.0.1:1000 to 10.0.0.2:2000. -/
def flow : Ip5tuple := ⟨0x0100000A, 0x0200000A, 0xE803, 0xD007, 6⟩

/-- The table of this one flow. -/
def flowTable : BoundedMap Ip5tuple ClsEntry 2048 :=
  BoundedMap.empty.put flow ⟨0, zeroMac⟩

theorem mem_flowTable (k : Ip5tuple) : k ∈ [flow] ↔ k ∈ flowTable := by
  rw [List.mem_singleton, flowTable, BoundedMap.mem_put]
  constructor
  · intro h
    exact Or.inr ⟨h, by decide⟩
  · rintro (h | h)
    · exact absurd h (BoundedMap.not_mem_empty k)
    · exact h.1

def flowMap : OpenMap Ip5tuple ClsEntry 2048 where
  contents := flowTable
  order := [flow]
  nodup := List.nodup_singleton flow
  mem_order := mem_flowTable

/-- Its only entry is not printed when `prev_key` happens to be its key. -/
theorem not_listsAll_flow :
    dumpClsTable 2 (some flowMap) flow = some ["==== Classifier map ====\n".toList] ∧
      ¬ ListsAll flowMap flow := by
  have hdump : ∀ rounds, 1 < rounds → dumpClsTable rounds (some flowMap) flow =
      some ["==== Classifier map ====\n".toList] := by
    intro rounds hr
    rw [dumpClsTable, dump_of_mem flowMap clsText [] (List.nil_append _).symm hr]
    rfl
  refine ⟨hdump 2 (by decide), ?_⟩
  rintro ⟨entries, hall, keys, -, hkeys, hshows⟩
  have hempty := (hdump 2 (by decide)).symm.trans (hall 2 (by decide))
  obtain rfl : [] = entries := (List.cons.inj (Option.some.inj hempty)).2
  obtain rfl := List.forall₂_nil_left_iff.1 hshows
  exact absurd ((hkeys flow).2 ((mem_flowTable flow).1 (List.mem_singleton_self flow)))
    List.not_mem_nil

/-! ## The forwarding table -/

/-- `dump_fwd_table` begins with no key, and lists the whole table. -/
theorem dumpFwdTable_lists (m : OpenMap (BitVec 32) FwdEntry 2048) :
    ∃ entries, (∀ rounds, m.order.length < rounds → dumpFwdTable rounds (some m) =
        some ("==== Forwarding table ====\n".toList :: entries)) ∧
      List.Forall₂ (fun text key => ∃ val, text = fwdText key val) entries m.order := by
  refine ⟨m.order.map (roundText m fwdText "next_key err\n".toList), fun rounds hr => ?_,
    forall₂_roundText m _ fun key val => ⟨val, rfl⟩⟩
  rw [dumpFwdTable, dump_of_not_mem m fwdText _ (fun k _ => Option.some_ne_none k |>.symm) hr]
  rfl

end Inspector

end ChainingBox
