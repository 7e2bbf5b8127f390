import ChainingBox.Dataplane.Packet

/-!
# The firewall's rules file

`parse_rules` of `firewall_user.c`, with the functions of the C library that it calls. It reads the
file into a buffer of 1024 bytes, piece by piece, scans each piece into local variables that keep
their values from piece to piece, and writes an entry to the map `rules`.

The second half says what a rules file means: `ruleOfLine` reads a line of the form
`<src> <dst> <sport> <dport> <proto> <drop|allow>`, and `parseRules_wellFormed` says which entries
`parse_rules` writes for a file of such lines, comments, and empty lines. The ports are scanned into
the key as numbers, without the conversion to network byte order that the addresses get from
`inet_pton`, so the key of a line is that of the flow with its ports byte-swapped (`swapPorts`).

A file is the list of its bytes, and a `Char` stands for one of them, a C `char`. A word that is too
long for its buffer (`saddr`, `daddr`, or `action`) is written over what lies behind it, and anything
can happen from there on: `sscanf`, and with it `parse_rules`, has no result then. No word of a
well-formed line is that long (`storeWord_address`, `storeWord_dropWord`).
-/

namespace ChainingBox

open Lib

/-! ## The C library -/

/-- `isspace`. -/
def isSpace (c : Char) : Bool :=
  c = ' ' || c = '\t' || c = '\n' || c.toNat = 11 || c.toNat = 12 || c = '\r'

/-- The value of a string of decimal digits. -/
def digitsValue (w : List Char) : ℕ := w.foldl (fun n c => 10 * n + (c.toNat - 48)) 0

/-- The pieces that successive calls of `fgets` read: up to 1023 characters each, and none beyond a
newline. `buf` is what has been read of the first piece. -/
def fgetsPieces (buf : List Char) : List Char → List (List Char)
  | [] => if buf = [] then [] else [buf]
  | c :: s =>
    if c = '\n' ∨ buf.length + 2 = 1024 then (buf ++ [c]) :: fgetsPieces [] s
    else fgetsPieces (buf ++ [c]) s

/-- The conversion `%s`: `none` when there is no word. -/
def scanWord (s : List Char) : Option (List Char × List Char) :=
  let s := s.dropWhile isSpace
  let w := s.takeWhile fun c => !isSpace c
  if w = [] then none else some (w, s.drop w.length)

/-- The conversion `%lu`, which `%hu` and `%hhu` truncate: an optional sign and digits. A value that
does not fit is the largest one. -/
def scanUnsigned (s : List Char) : Option (BitVec 64 × List Char) :=
  let s := s.dropWhile isSpace
  let neg := s.head? = some '-'
  let s := if neg ∨ s.head? = some '+' then s.drop 1 else s
  let w := s.takeWhile Char.isDigit
  if w = [] then none
  else
    let n := digitsValue w
    let v := if 2 ^ 64 ≤ n then BitVec.allOnes 64
      else if neg then -BitVec.ofNat 64 n else BitVec.ofNat 64 n
    some (v, s.drop w.length)

/-- One of the four numbers of an address: up to 255, without leading zeros. -/
def octet (w : List Char) : Option Byte :=
  if w ≠ [] ∧ w.all Char.isDigit ∧ (w.head? = some '0' → w = ['0']) ∧ digitsValue w < 256 then
    some (BitVec.ofNat 8 (digitsValue w))
  else none

/-- `inet_pton` for `AF_INET`: the four bytes that it writes, or `none` for its 0 on a text that is
not a dotted IPv4 address. It returns -1 only for other address families. -/
def inetPton (s : List Char) : Option (Byte × Byte × Byte × Byte) :=
  match s.splitOn '.' with
  | [a, b, c, d] => do
    let a ← octet a
    let b ← octet b
    let c ← octet c
    let d ← octet d
    return (a, b, c, d)
  | _ => none

/-! ## `parse_rules` -/

/-- `enum fw_action_t`, the contents of a `struct fw_action`. -/
abbrev FwAction := BitVec 32

def FW_ACTION_BLOCK : FwAction := 1
def FW_ACTION_PASS : FwAction := 2

/-- The hash map `rules`. -/
abbrev RulesMap := BoundedMap Ip5tuple FwAction 100

/-- The string in a buffer of `n` characters: those before the first null character, or all of them
if there is none. -/
abbrev CharArray (n : ℕ) := {s : List Char // s.length ≤ n}

/-- Store a word in a buffer, with a null character behind it: `none` when it overflows the buffer. -/
def storeWord {n : ℕ} (w : List Char) : Option (CharArray n) :=
  if h : w.length < n then some ⟨w, h.le⟩ else none

/-- The local variables of `parse_rules` that outlive a round of its loop. -/
structure Locals where
  saddr : CharArray 32
  daddr : CharArray 32
  tuple : Ip5tuple
  action : CharArray 8

/-- Local variables that happen to be empty. -/
def noLocals : Locals :=
  ⟨⟨[], Nat.zero_le _⟩, ⟨[], Nat.zero_le _⟩, ⟨0, 0, 0, 0, 0⟩, ⟨[], Nat.zero_le _⟩⟩

/-- `sscanf` with the format of `parse_rules`: `none` when a word overflows its buffer. It stops at
the first conversion that fails, and leaves the remaining variables as they are. A null character
ends the string. -/
def sscanf (l : Locals) (buf : List Char) : Option Locals :=
  match scanWord (buf.takeWhile fun c => c.toNat ≠ 0) with
  | none => some l
  | some (saddr, s) => do
    let l := { l with saddr := ← storeWord saddr }
    match scanWord s with
    | none => some l
    | some (daddr, s) =>
      let l := { l with daddr := ← storeWord daddr }
      match scanUnsigned s with
      | none => some l
      | some (sport, s) =>
        let l := { l with tuple := { l.tuple with sport := sport.setWidth 16 } }
        match scanUnsigned s with
        | none => some l
        | some (dport, s) =>
          let l := { l with tuple := { l.tuple with dport := dport.setWidth 16 } }
          match scanUnsigned s with
          | none => some l
          | some (proto, s) =>
            let l := { l with tuple := { l.tuple with proto := proto.setWidth 8 } }
            match scanWord s with
            | none => some l
            | some (action, _) => return { l with action := ← storeWord action }

/-- The word that the four bytes of an address make in memory. -/
def addrWord (a : Byte × Byte × Byte × Byte) : BitVec 32 := a.2.2.2 ++ a.2.2.1 ++ a.2.1 ++ a.1

/-- The two calls of `inet_pton`. The tests for -1 never succeed, so a text that is no address leaves
the old one. -/
def convertAddresses (l : Locals) : Locals :=
  let ip_src := ((inetPton l.saddr.1).map addrWord).getD l.tuple.ip_src
  let ip_dst := ((inetPton l.daddr.1).map addrWord).getD l.tuple.ip_dst
  { l with tuple := { l.tuple with ip_src := ip_src, ip_dst := ip_dst } }

/-- The round of the loop for one piece: `none` when a word overflows its buffer. -/
def parseLine (st : Locals × RulesMap) (buf : List Char) : Option (Locals × RulesMap) :=
  -- Skip comment and empty lines.
  if buf.head? = some '#' ∨ buf.head? = some '\n' then some st
  else do
    let l := convertAddresses (← sscanf st.1 buf)
    if l.action.1 = ['d', 'r', 'o', 'p'] then return (l, st.2.put l.tuple FW_ACTION_BLOCK)
    else if l.action.1 = ['a', 'l', 'l', 'o', 'w'] then
      return (l, st.2.put l.tuple FW_ACTION_PASS)
    else return (l, st.2)

/-- `parse_rules`, with what is in its uninitialized local variables: `none` is its -1, when the
file cannot be opened, or that it has written a word over the end of a buffer. -/
def parseRules (junk : Locals) (rules : RulesMap) (file : Option (List Char)) :
    Option RulesMap := do
  let st ← (fgetsPieces [] (← file)).foldlM parseLine (junk, rules)
  return st.2

/-! ## What a rules file says -/

/-- A rule: a flow in host byte order, and whether to drop it. -/
structure Rule where
  flow : Ip5tuple
  drop : Bool
  deriving DecidableEq

/-- A decimal number of at most `w` bits. -/
def number (w : ℕ) (s : List Char) : Option (BitVec w) :=
  if s ≠ [] ∧ s.all Char.isDigit ∧ digitsValue s < 2 ^ w then some (BitVec.ofNat w (digitsValue s))
  else none

/-- An IPv4 address, as a number. -/
def address (s : List Char) : Option (BitVec 32) :=
  (inetPton s).map fun a => a.1 ++ a.2.1 ++ a.2.2.1 ++ a.2.2.2

/-- The action of a rule. -/
def dropWord (s : List Char) : Option Bool :=
  if s = ['d', 'r', 'o', 'p'] then some true
  else if s = ['a', 'l', 'l', 'o', 'w'] then some false
  else none

/-- The rule of a well-formed line. -/
def ruleOfLine (line : List Char) : Option Rule :=
  match line.splitOn ' ' with
  | [src, dst, sport, dport, proto, action] => do
    let src ← address src
    let dst ← address dst
    let sport ← number 16 sport
    let dport ← number 16 dport
    let proto ← number 8 proto
    let drop ← dropWord action
    return ⟨⟨src, dst, sport, dport, proto⟩, drop⟩
  | _ => none

/-- The lines of a file. A newline at its end is followed by an empty last line. -/
def fileLines (text : List Char) : List (List Char) := text.splitOn '\n'

/-- The rules of a file, in order. -/
def fileRules (text : List Char) : List Rule := (fileLines text).filterMap ruleOfLine

/-- A file of comments, empty lines, and rules. -/
def WellFormedFile (text : List Char) : Prop :=
  ∀ line ∈ fileLines text, line = [] ∨ line.head? = some '#' ∨ (ruleOfLine line).isSome

/-- Every line, with its newline, fits the buffer of `parse_rules`. A longer one is read in pieces, and
each piece is taken for a line of its own. -/
def FitsBuffer (text : List Char) : Prop := ∀ line ∈ fileLines text, line.length ≤ 1022

/-- The flow with the two bytes of each port exchanged. -/
def Ip5tuple.swapPorts (f : Ip5tuple) : Ip5tuple :=
  { f with sport := bswap16 f.sport, dport := bswap16 f.dport }

/-- The entry that `parse_rules` writes for a rule. -/
def Rule.entry (r : Rule) : Ip5tuple × FwAction :=
  (r.flow.swapPorts.toNetwork, if r.drop then FW_ACTION_BLOCK else FW_ACTION_PASS)

/-! ## Words -/

/-- What follows a word on its line: nothing, or a space or a newline. -/
def Follows (rest : List Char) : Prop := ∀ c, rest.head? = some c → isSpace c

theorem follows_nil : Follows [] := fun c hc => by simp at hc

theorem follows_space (s : List Char) : Follows (' ' :: s) := fun c hc => by
  obtain rfl : ' ' = c := by simpa using hc
  rfl

theorem follows_newline : Follows ['\n'] := fun c hc => by
  obtain rfl : '\n' = c := by simpa using hc
  rfl

/-- A class of characters that the word is made of and no space belongs to ends where the word
does. -/
theorem takeWhile_word {p : Char → Bool} {w rest : List Char} (hw : ∀ c ∈ w, p c)
    (hp : ∀ c, isSpace c → p c = false) (hr : Follows rest) : (w ++ rest).takeWhile p = w := by
  rw [List.takeWhile_append_of_pos hw]
  cases rest with
  | nil => simp
  | cons c rest =>
    have hc := hp c (hr c rfl)
    rw [List.takeWhile_cons_of_neg (by simp [hc]), List.append_nil]

/-- A word that does not begin with a space is not shortened by skipping spaces. -/
theorem dropWhile_word {w rest : List Char} (hw : w ≠ []) (hs : ∀ c ∈ w, isSpace c = false) :
    (w ++ rest).dropWhile isSpace = w ++ rest := by
  cases w with
  | nil => exact absurd rfl hw
  | cons c w =>
    have hc := hs c List.mem_cons_self
    rw [List.cons_append, List.dropWhile_cons_of_neg (by simp [hc])]

theorem scanWord_append {w rest : List Char} (hw : w ≠ []) (hs : ∀ c ∈ w, isSpace c = false)
    (hr : Follows rest) : scanWord (w ++ rest) = some (w, rest) := by
  have htake : (w ++ rest).takeWhile (fun c => !isSpace c) = w :=
    takeWhile_word (by simpa using hs) (by simp) hr
  unfold scanWord
  simp only [dropWhile_word hw hs, htake, hw, if_false, List.drop_left]

/-- Space before a word is skipped. -/
theorem scanWord_space (s : List Char) : scanWord (' ' :: s) = scanWord s := by
  unfold scanWord
  rw [List.dropWhile_cons_of_pos (by decide)]

theorem scanUnsigned_space (s : List Char) : scanUnsigned (' ' :: s) = scanUnsigned s := by
  unfold scanUnsigned
  rw [List.dropWhile_cons_of_pos (by decide)]

/-- The digits are the characters `0` to `9`. -/
theorem isDigit_range {c : Char} (h : c.isDigit) : 48 ≤ c.toNat ∧ c.toNat ≤ 57 := by
  simp only [Char.isDigit, Bool.and_eq_true, decide_eq_true_eq] at h
  exact ⟨h.1, h.2⟩

/-- A digit is no space, and no other character that the file gives a meaning to. -/
theorem digit_ne {c : Char} (h : c.isDigit) :
    isSpace c = false ∧ c ≠ '-' ∧ c ≠ '+' ∧ c ≠ '#' ∧ c ≠ '\n' ∧ c.toNat ≠ 0 := by
  obtain ⟨hlo, hhi⟩ := isDigit_range h
  have hne (d : Char) (hd : d.toNat < 48) : c ≠ d := by
    rintro rfl
    omega
  refine ⟨?_, hne _ (by decide), hne _ (by decide), hne _ (by decide), hne _ (by decide), by omega⟩
  simp only [isSpace, Bool.or_eq_false_iff, decide_eq_false_iff_not]
  exact ⟨⟨⟨⟨⟨hne _ (by decide), hne _ (by decide)⟩, hne _ (by decide)⟩, by omega⟩, by omega⟩,
    hne _ (by decide)⟩

theorem scanUnsigned_append {w rest : List Char} (hw : w ≠ []) (hd : w.all Char.isDigit)
    (hv : digitsValue w < 2 ^ 64) (hr : Follows rest) :
    scanUnsigned (w ++ rest) = some (BitVec.ofNat 64 (digitsValue w), rest) := by
  rw [List.all_eq_true] at hd
  have hspace (c : Char) (hc : isSpace c) : c.isDigit = false := by
    by_contra hdig
    have := (digit_ne (by simpa using hdig)).1
    rw [this] at hc
    exact absurd hc (by decide)
  have htake : (w ++ rest).takeWhile Char.isDigit = w := takeWhile_word hd hspace hr
  have hskip : (w ++ rest).dropWhile isSpace = w ++ rest :=
    dropWhile_word hw fun c hc => (digit_ne (hd c hc)).1
  -- A number begins with a digit, so there is no sign.
  have hhead (d : Char) (hne : ∀ c ∈ w, c ≠ d) : (w ++ rest).head? ≠ some d := by
    intro h
    rw [List.head?_append_of_ne_nil _ hw] at h
    exact hne d (List.mem_of_mem_head? h) rfl
  have hminus := hhead '-' fun c hc => (digit_ne (hd c hc)).2.1
  have hplus := hhead '+' fun c hc => (digit_ne (hd c hc)).2.2.1
  unfold scanUnsigned
  simp only [hskip, hminus, hplus, or_self, if_false, htake, hw, List.drop_left]
  rw [if_neg (by omega)]

/-! ## One line -/

/-- The text of a word that a rule is made of: no spaces, no null characters, and not empty. -/
structure IsWord (w : List Char) : Prop where
  ne_nil : w ≠ []
  no_space : ∀ c ∈ w, isSpace c = false
  no_null : ∀ c ∈ w, c.toNat ≠ 0

theorem storeWord_eq_some {n : ℕ} {w : List Char} (h : w.length < n) :
    storeWord w = some (⟨w, h.le⟩ : CharArray n) := dif_pos h

theorem octet_digits {w : List Char} {b : Byte} (h : octet w = some b) :
    w ≠ [] ∧ ∀ c ∈ w, c.isDigit := by
  unfold octet at h
  split_ifs at h with hc
  exact ⟨hc.1, List.all_eq_true.1 hc.2.1⟩

/-- Each further digit multiplies the value by ten. -/
theorem mul_pow_le_foldl (w : List Char) (n : ℕ) :
    n * 10 ^ w.length ≤ w.foldl (fun n c => 10 * n + (c.toNat - 48)) n := by
  induction w generalizing n with
  | nil => simp
  | cons c w ih =>
    calc n * 10 ^ (c :: w).length = (10 * n) * 10 ^ w.length := by
          rw [List.length_cons, Nat.pow_succ]
          ring
      _ ≤ (10 * n + (c.toNat - 48)) * 10 ^ w.length :=
          Nat.mul_le_mul_right _ (Nat.le_add_right _ _)
      _ ≤ _ := ih _

/-- Without leading zeros, a number below 256 has at most three digits. -/
theorem octet_length {w : List Char} {b : Byte} (h : octet w = some b) : w.length ≤ 3 := by
  unfold octet at h
  split_ifs at h with hc
  obtain ⟨hne, hdigits, hzero, hvalue⟩ := hc
  obtain ⟨c, w, rfl⟩ := List.exists_cons_of_ne_nil hne
  by_cases hc : c = '0'
  · rw [hzero (by rw [hc]; rfl)]
    exact Nat.le_of_ble_eq_true rfl
  · have hdigit : c.isDigit := List.all_eq_true.1 hdigits c List.mem_cons_self
    have hpos : 1 ≤ c.toNat - 48 := by
      have hlow := (isDigit_range hdigit).1
      have h48 : c.toNat ≠ 48 := fun heq => hc (Char.toNat_inj.1 (heq.trans rfl))
      omega
    have hlow : 10 ^ w.length ≤ digitsValue (c :: w) := by
      have hpow := mul_pow_le_foldl w (10 * 0 + (c.toNat - 48))
      refine le_trans ?_ hpow
      exact Nat.le_mul_of_pos_left _ (by omega)
    have hlt : 10 ^ w.length < 10 ^ 3 := by omega
    have hlen := (Nat.pow_lt_pow_iff_right (by omega)).1 hlt
    rw [List.length_cons]
    omega

/-- An address is four numbers with dots between them. -/
theorem inetPton_parts {w : List Char} {v : Byte × Byte × Byte × Byte} (h : inetPton w = some v) :
    ∃ a b c d, w = a ++ '.' :: (b ++ '.' :: (c ++ '.' :: d)) ∧ octet a = some v.1 ∧
      octet b = some v.2.1 ∧ octet c = some v.2.2.1 ∧ octet d = some v.2.2.2 := by
  have hjoin : ['.'].intercalate (w.splitOn '.') = w := List.intercalate_splitOn '.'
  unfold inetPton at h
  split at h
  next a b c d hsplit =>
    simp only [Option.bind_eq_bind, Option.bind_eq_some_iff] at h
    obtain ⟨x, ha, y, hb, z, hc, t, hd, hv⟩ := h
    obtain rfl := Option.some.inj hv
    rw [hsplit] at hjoin
    simp only [List.intercalate_cons_cons, List.intercalate_singleton, List.append_assoc,
      List.singleton_append] at hjoin
    exact ⟨a, b, c, d, hjoin.symm, ha, hb, hc, hd⟩
  next => exact absurd h (by simp)

/-- The characters of an address are digits and dots. -/
theorem address_chars {w : List Char} {a : BitVec 32} (h : address w = some a) :
    ∀ x ∈ w, x.isDigit ∨ x = '.' := by
  obtain ⟨v, hv, -⟩ := Option.map_eq_some_iff.1 h
  obtain ⟨a, b, c, d, rfl, ha, hb, hc, hd⟩ := inetPton_parts hv
  intro x hx
  simp only [List.mem_append, List.mem_cons] at hx
  rcases hx with hx | rfl | hx | rfl | hx | rfl | hx
  · exact Or.inl ((octet_digits ha).2 x hx)
  · exact Or.inr rfl
  · exact Or.inl ((octet_digits hb).2 x hx)
  · exact Or.inr rfl
  · exact Or.inl ((octet_digits hc).2 x hx)
  · exact Or.inr rfl
  · exact Or.inl ((octet_digits hd).2 x hx)

/-- An address is a word that begins with a digit, and `inet_pton` writes it in network byte
order. -/
theorem address_word {w : List Char} {a : BitVec 32} (h : address w = some a) :
    IsWord w ∧ (∃ c, w.head? = some c ∧ c.isDigit) ∧
      (inetPton w).map addrWord = some (htonl a) := by
  have hchars := address_chars h
  obtain ⟨v, hv, rfl⟩ := Option.map_eq_some_iff.1 h
  obtain ⟨a, b, c, d, hw, ha, -⟩ := inetPton_parts hv
  obtain ⟨hne, hdigits⟩ := octet_digits ha
  obtain ⟨x, xs, rfl⟩ := List.exists_cons_of_ne_nil hne
  refine ⟨⟨?_, fun y hy => ?_, fun y hy => ?_⟩, ⟨x, ?_, hdigits x List.mem_cons_self⟩, ?_⟩
  · rw [hw]
    simp
  · rcases hchars y hy with hdig | rfl
    · exact (digit_ne hdig).1
    · rfl
  · rcases hchars y hy with hdig | rfl
    · exact (digit_ne hdig).2.2.2.2.2
    · decide
  · rw [hw]
    rfl
  · rw [hv, htonl_append]
    rfl

/-- An address fits its buffer. -/
theorem storeWord_address {w : List Char} {a : BitVec 32} (h : address w = some a) :
    ∃ s : CharArray 32, storeWord w = some s ∧ s.1 = w := by
  obtain ⟨v, hv, -⟩ := Option.map_eq_some_iff.1 h
  obtain ⟨a, b, c, d, hw, ha, hb, hc, hd⟩ := inetPton_parts hv
  have hlen : w.length < 32 := by
    have ha := octet_length ha
    have hb := octet_length hb
    have hc := octet_length hc
    have hd := octet_length hd
    rw [hw]
    simp only [List.length_append, List.length_cons]
    omega
  exact ⟨_, storeWord_eq_some hlen, rfl⟩

/-- A number is a word of digits of that value. -/
theorem number_word {w : ℕ} {s : List Char} {n : BitVec w} (h : number w s = some n) :
    IsWord s ∧ s.all Char.isDigit ∧ digitsValue s < 2 ^ w ∧ n = BitVec.ofNat w (digitsValue s) := by
  unfold number at h
  split_ifs at h with hc
  obtain ⟨hne, hdig, hlt⟩ := hc
  have hdigit (c : Char) (hm : c ∈ s) : c.isDigit := List.all_eq_true.1 hdig c hm
  exact ⟨⟨hne, fun c hm => (digit_ne (hdigit c hm)).1,
    fun c hm => (digit_ne (hdigit c hm)).2.2.2.2.2⟩, hdig, hlt, (Option.some.inj h).symm⟩

theorem dropWord_word {s : List Char} {drop : Bool} (h : dropWord s = some drop) :
    IsWord s ∧ s = if drop then ['d', 'r', 'o', 'p'] else ['a', 'l', 'l', 'o', 'w'] := by
  unfold dropWord at h
  split_ifs at h with hd ha
  · obtain rfl : true = drop := Option.some.inj h
    subst hd
    exact ⟨⟨by decide, by simp [isSpace], by simp⟩, rfl⟩
  · obtain rfl : false = drop := Option.some.inj h
    subst ha
    exact ⟨⟨by decide, by simp [isSpace], by simp⟩, rfl⟩

/-- So does an action. -/
theorem storeWord_dropWord {w : List Char} {drop : Bool} (h : dropWord w = some drop) :
    ∃ s : CharArray 8, storeWord w = some s ∧ s.1 = w := by
  have hlen : w.length < 8 := by
    rw [(dropWord_word h).2]
    cases drop <;> exact Nat.le_of_ble_eq_true rfl
  exact ⟨_, storeWord_eq_some hlen, rfl⟩

/-- Scanning a number into a variable of its width. -/
theorem scanNumber {w : ℕ} {s : List Char} {n : BitVec w} (h : number w s = some n) (hw : w ≤ 64) :
    ∃ v : BitVec 64, v.setWidth w = n ∧
      ∀ rest, Follows rest → scanUnsigned (s ++ rest) = some (v, rest) := by
  obtain ⟨hword, hdig, hlt, rfl⟩ := number_word h
  have hpow : 2 ^ w ≤ 2 ^ 64 := Nat.pow_le_pow_right (by decide) hw
  refine ⟨BitVec.ofNat 64 (digitsValue s), ?_, fun rest hr =>
    scanUnsigned_append hword.ne_nil hdig (by omega) hr⟩
  apply BitVec.eq_of_toNat_eq
  rw [BitVec.toNat_setWidth, BitVec.toNat_ofNat, BitVec.toNat_ofNat]
  exact Nat.mod_mod_of_dvd _ (pow_dvd_pow 2 hw)

/-- `sscanf` on the line of a rule. -/
theorem sscanf_rule {src dst sport dport proto action nl : List Char} {sp dp : BitVec 16}
    {pr : Byte} (l : Locals) (hsrc : IsWord src) (hdst : IsWord dst)
    (hsp : number 16 sport = some sp) (hdp : number 16 dport = some dp)
    (hpr : number 8 proto = some pr) (hact : IsWord action) (hnl : nl = [] ∨ nl = ['\n'])
    {saddr daddr : CharArray 32} {act : CharArray 8} (hsaddr : storeWord src = some saddr)
    (hdaddr : storeWord dst = some daddr) (haction : storeWord action = some act) :
    sscanf l (src ++ ' ' :: (dst ++ ' ' :: (sport ++ ' ' :: (dport ++ ' ' :: (proto ++ ' ' ::
      (action ++ nl)))))) =
      some ⟨saddr, daddr, ⟨l.tuple.ip_src, l.tuple.ip_dst, sp, dp, pr⟩, act⟩ := by
  have hend : Follows nl := by
    rcases hnl with rfl | rfl
    · exact follows_nil
    · exact follows_newline
  -- No character of the line ends the string.
  have hnull : ∀ c ∈ src ++ ' ' :: (dst ++ ' ' :: (sport ++ ' ' :: (dport ++ ' ' :: (proto ++ ' ' ::
      (action ++ nl))))), decide (c.toNat ≠ 0) = true := by
    intro c hc
    rw [decide_eq_true_eq]
    simp only [List.mem_append, List.mem_cons] at hc
    rcases hc with hc | rfl | hc | rfl | hc | rfl | hc | rfl | hc | rfl | hc | hc
    · exact hsrc.no_null c hc
    · decide
    · exact hdst.no_null c hc
    · decide
    · exact (number_word hsp).1.no_null c hc
    · decide
    · exact (number_word hdp).1.no_null c hc
    · decide
    · exact (number_word hpr).1.no_null c hc
    · decide
    · exact hact.no_null c hc
    · rcases hnl with rfl | rfl
      · simp at hc
      · obtain rfl : c = '\n' := by simpa using hc
        decide
  obtain ⟨vs, hs, hvs⟩ := scanNumber hsp (by decide)
  obtain ⟨vd, hd, hvd⟩ := scanNumber hdp (by decide)
  obtain ⟨vp, hp, hvp⟩ := scanNumber hpr (by decide)
  unfold sscanf
  rw [List.takeWhile_eq_self_iff.2 hnull, scanWord_append hsrc.ne_nil hsrc.no_space (follows_space _)]
  simp only [scanWord_space, scanWord_append hdst.ne_nil hdst.no_space (follows_space _),
    scanUnsigned_space, hvs _ (follows_space _), hvd _ (follows_space _), hvp _ (follows_space _),
    hs, hd, hp, scanWord_append hact.ne_nil hact.no_space hend, hsaddr, hdaddr, haction]
  rfl

/-- The line of a rule begins with a digit. -/
theorem ruleOfLine_head {line : List Char} {r : Rule} (h : ruleOfLine line = some r) :
    ∃ c, line.head? = some c ∧ c.isDigit := by
  have hjoin : [' '].intercalate (line.splitOn ' ') = line := List.intercalate_splitOn ' '
  unfold ruleOfLine at h
  split at h
  next src dst sport dport proto action hsplit =>
    simp only [Option.bind_eq_bind, Option.bind_eq_some_iff] at h
    obtain ⟨a, ha, -⟩ := h
    obtain ⟨hsrc, ⟨c, hc, hdigit⟩, -⟩ := address_word ha
    rw [hsplit, List.intercalate_cons_cons, List.append_assoc] at hjoin
    exact ⟨c, by rw [← hjoin, List.head?_append_of_ne_nil _ hsrc.ne_nil, hc], hdigit⟩
  next => exact absurd h (by simp)

/-- The round of the loop for the line of a rule, with or without a newline. -/
theorem parseLine_rule {line nl : List Char} {r : Rule} (st : Locals × RulesMap)
    (h : ruleOfLine line = some r) (hnl : nl = [] ∨ nl = ['\n']) :
    ∃ l, parseLine st (line ++ nl) = some (l, st.2.put r.entry.1 r.entry.2) := by
  have hjoin : [' '].intercalate (line.splitOn ' ') = line := List.intercalate_splitOn ' '
  obtain ⟨x, hx, hdig⟩ := ruleOfLine_head h
  unfold ruleOfLine at h
  split at h
  next src dst sport dport proto action hsplit =>
    simp only [Option.bind_eq_bind, Option.bind_eq_some_iff] at h
    obtain ⟨a, ha, b, hb, sp, hsp, dp, hdp, pr, hpr, drop, hdrop, hr⟩ := h
    obtain rfl := Option.some.inj hr
    obtain ⟨hsrc, -, hpa⟩ := address_word ha
    obtain ⟨hdst, -, hpb⟩ := address_word hb
    obtain ⟨hact, haction⟩ := dropWord_word hdrop
    obtain ⟨saddr, hsaddr, hsaddr'⟩ := storeWord_address ha
    obtain ⟨daddr, hdaddr, hdaddr'⟩ := storeWord_address hb
    obtain ⟨act, hstored, hact'⟩ := storeWord_dropWord hdrop
    rw [hsplit] at hjoin
    simp only [List.intercalate_cons_cons, List.intercalate_singleton, List.append_assoc,
      List.singleton_append] at hjoin
    have hline : line ++ nl = src ++ ' ' :: (dst ++ ' ' :: (sport ++ ' ' :: (dport ++ ' ' ::
        (proto ++ ' ' :: (action ++ nl))))) := by
      rw [← hjoin]
      simp only [List.append_assoc, List.cons_append]
    have hhead : (line ++ nl).head? = some x := by
      rw [List.head?_append, hx]
      rfl
    have hscan := sscanf_rule st.1 hsrc hdst hsp hdp hpr hact hnl hsaddr hdaddr hstored
    unfold parseLine
    rw [if_neg, hline, hscan]
    · -- The ports go into the key as they are, the addresses in network byte order.
      have hkey : (⟨htonl a, htonl b, sp, dp, pr⟩ : Ip5tuple) =
          (Ip5tuple.swapPorts ⟨a, b, sp, dp, pr⟩).toNetwork := by
        simp only [Ip5tuple.swapPorts, Ip5tuple.toNetwork, Ip5tuple.mk.injEq, true_and, and_true]
        exact ⟨(bswap16_bswap16 sp).symm, (bswap16_bswap16 dp).symm⟩
      have hconverted : convertAddresses ⟨saddr, daddr,
          ⟨st.1.tuple.ip_src, st.1.tuple.ip_dst, sp, dp, pr⟩, act⟩ =
          ⟨saddr, daddr, (Ip5tuple.swapPorts ⟨a, b, sp, dp, pr⟩).toNetwork, act⟩ := by
        simp only [convertAddresses, hsaddr', hdaddr', hpa, hpb, Option.getD_some, hkey]
      refine ⟨⟨saddr, daddr, (Ip5tuple.swapPorts ⟨a, b, sp, dp, pr⟩).toNetwork, act⟩, ?_⟩
      simp only [Option.bind_eq_bind, Option.bind_some, hconverted, hact', haction, Rule.entry]
      cases drop <;> rfl
    · rw [hhead]
      rintro (hc | hc)
      · exact (digit_ne hdig).2.2.2.1 (Option.some.inj hc)
      · exact (digit_ne hdig).2.2.2.2.1 (Option.some.inj hc)
  next => exact absurd h (by simp)

/-! ## The whole file -/

/-- The pieces of a file whose lines fit the buffer: its lines with their newlines. The last line
has none, and is no piece when it is empty. -/
def withNewlines : List (List Char) → List (List Char)
  | [] => []
  | [line] => if line = [] then [] else [line]
  | line :: line' :: lines => (line ++ ['\n']) :: withNewlines (line' :: lines)

theorem withNewlines_cons {line : List Char} {lines : List (List Char)} (h : lines ≠ []) :
    withNewlines (line :: lines) = (line ++ ['\n']) :: withNewlines lines := by
  cases lines with
  | nil => exact absurd rfl h
  | cons line' lines => rfl

/-- By induction on the text; `buf` is the beginning of its first line. -/
theorem fgetsPieces_eq (text buf : List Char)
    (h : ∀ line ∈ (fileLines text).modifyHead (buf ++ ·), line.length ≤ 1022) :
    fgetsPieces buf text = withNewlines ((fileLines text).modifyHead (buf ++ ·)) := by
  induction text generalizing buf with
  | nil => simp [fileLines, fgetsPieces, withNewlines]
  | cons c s ih =>
    have hne : fileLines s ≠ [] := List.splitOn_ne_nil _ _
    have hsplit := List.splitOn_cons_eq_if_modifyHead (a := '\n') c s
    change fileLines (c :: s) = if c == '\n' then [] :: fileLines s
      else (fileLines s).modifyHead (List.cons c) at hsplit
    rw [fgetsPieces]
    by_cases hc : c = '\n'
    · -- The line ends here.
      subst hc
      rw [hsplit] at h ⊢
      have hhead : (fileLines s).modifyHead ([] ++ ·) = fileLines s := by
        obtain ⟨l, ls, hl⟩ := List.exists_cons_of_ne_nil hne
        rw [hl]
        rfl
      have hrest := ih [] (by
        rw [hhead]
        exact fun line hline => h line (by simp [hline]))
      rw [if_pos (Or.inl rfl), hrest, hhead]
      simp only [beq_self_eq_true, if_true, List.modifyHead_cons, List.append_nil]
      rw [withNewlines_cons hne]
    · -- The line goes on, and its beginning still fits.
      have hmod : (fileLines (c :: s)).modifyHead (buf ++ ·) =
          (fileLines s).modifyHead (buf ++ [c] ++ ·) := by
        rw [hsplit]
        obtain ⟨l, ls, hl⟩ := List.exists_cons_of_ne_nil hne
        simp [hl, hc]
      rw [hmod] at h ⊢
      have hlen : buf.length + 2 ≠ 1024 := by
        obtain ⟨l, ls, hl⟩ := List.exists_cons_of_ne_nil hne
        have hfirst := h (buf ++ [c] ++ l) (by simp [hl])
        simp only [List.length_append, List.length_singleton] at hfirst
        omega
      rw [if_neg (by tauto)]
      exact ih (buf ++ [c]) h

/-- A line that fills the buffer is cut there. By induction on what is read of it; `buf` is what has
been read before. -/
theorem fgetsPieces_full {buf line : List Char} (hline : '\n' ∉ line) (hne : line ≠ [])
    (hlen : buf.length + line.length = 1023) (rest : List Char) :
    fgetsPieces buf (line ++ rest) = (buf ++ line) :: fgetsPieces [] rest := by
  induction line generalizing buf with
  | nil => exact absurd rfl hne
  | cons c line ih =>
    rw [List.mem_cons, not_or] at hline
    rw [List.length_cons] at hlen
    rw [List.cons_append, fgetsPieces]
    cases line with
    | nil =>
      rw [if_pos (Or.inr (by simpa using hlen)), List.nil_append]
    | cons d line =>
      rw [List.length_cons] at hlen
      have hgoes : ¬ (c = '\n' ∨ buf.length + 2 = 1024) :=
        not_or.2 ⟨Ne.symm hline.1, by omega⟩
      have hrest := @ih (buf ++ [c]) hline.2 (List.cons_ne_nil _ _) (by
        rw [List.length_append, List.length_singleton, List.length_cons]
        omega)
      rw [if_neg hgoes, hrest, List.append_assoc, List.singleton_append]

/-- The loop on lines that are comments, empty, or rules. -/
theorem foldlM_parseLine (lines : List (List Char)) (st : Locals × RulesMap)
    (h : ∀ line ∈ lines, line = [] ∨ line.head? = some '#' ∨ (ruleOfLine line).isSome) :
    ∃ l, (withNewlines lines).foldlM parseLine st =
      some (l, st.2.putAll ((lines.filterMap ruleOfLine).map Rule.entry)) := by
  -- One round: skipped, or the entry of a rule.
  have hround (line nl : List Char) (hmem : line ∈ lines) (hnl : nl = [] ∨ nl = ['\n'])
      (hne : line ++ nl ≠ []) (st : Locals × RulesMap) : ∃ l, parseLine st (line ++ nl) =
      some (l, st.2.putAll ((ruleOfLine line).toList.map Rule.entry)) := by
    cases hr : ruleOfLine line with
    | some r => exact parseLine_rule st hr hnl
    | none =>
      have hskip : (line ++ nl).head? = some '#' ∨ (line ++ nl).head? = some '\n' := by
        rcases h line hmem with rfl | hc | hr'
        · rcases hnl with rfl | rfl
          · exact absurd rfl hne
          · exact Or.inr rfl
        · left
          rw [List.head?_append, hc]
          rfl
        · rw [hr] at hr'
          exact absurd hr' (by simp)
      exact ⟨st.1, if_pos hskip⟩
  induction lines generalizing st with
  | nil => exact ⟨st.1, rfl⟩
  | cons line lines ih =>
    have hsplit : ((line :: lines).filterMap ruleOfLine).map Rule.entry =
        (ruleOfLine line).toList.map Rule.entry ++ (lines.filterMap ruleOfLine).map Rule.entry := by
      cases hr : ruleOfLine line with
      | none => simp [hr]
      | some r => simp [hr]
    rw [hsplit, BoundedMap.putAll_append]
    cases lines with
    | nil =>
      by_cases hl : line = []
      · subst hl
        exact ⟨st.1, rfl⟩
      · obtain ⟨l, hr⟩ := hround line [] List.mem_cons_self (Or.inl rfl) (by simpa using hl) st
        rw [List.append_nil] at hr
        refine ⟨l, ?_⟩
        simp only [withNewlines, hl, if_false, List.foldlM_cons, List.foldlM_nil, hr]
        rfl
    | cons line' lines =>
      obtain ⟨l, hr⟩ := hround line _ List.mem_cons_self (Or.inr rfl) (by simp) st
      rw [withNewlines, List.foldlM_cons, hr]
      exact ih _ (fun l hl => h l (List.mem_cons_of_mem _ hl))
        (fun l nl hl => hround l nl (List.mem_cons_of_mem _ hl))

/-- `parse_rules` writes the entries of the rules, in order. -/
theorem parseRules_wellFormed (junk : Locals) (rules : RulesMap) {text : List Char}
    (hw : WellFormedFile text) (hfit : FitsBuffer text) :
    parseRules junk rules (some text) =
      some (rules.putAll ((fileRules text).map Rule.entry)) := by
  have hhead : (fileLines text).modifyHead ([] ++ ·) = fileLines text := by
    cases fileLines text with
    | nil => rfl
    | cons l ls => rfl
  have hpieces := fgetsPieces_eq text [] (by rw [hhead]; exact hfit)
  rw [hhead] at hpieces
  obtain ⟨l, hloop⟩ := foldlM_parseLine (fileLines text) (junk, rules) hw
  rw [← hpieces] at hloop
  simp only [parseRules, Option.bind_eq_bind, Option.bind_some, hloop]
  rfl

end ChainingBox
