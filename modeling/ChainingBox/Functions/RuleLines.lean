import ChainingBox.Functions.Rules

/-!
# Which line an update of the rules comes from

`parse_rules` keeps the variables that it scans a line into from line to line, does not look at how
many of them `sscanf` has set, and tests `inet_pton` for the one failure that cannot happen. What it
calls `bpf_map_update_elem` with for a line can so come from the lines before it.

`Own` is what a line itself has put into the variables so far, and `Own.onto` lays it over what they
held before the line. The updates of a line depend on nothing else (`OwnLines`) exactly when at each
of its pieces the line itself has given all fields, or an action that is none, in words that fit
their buffers (`SelfContained`). A longer word is written over what lies behind its buffer, and then
nothing is said of any update, of this line or of those behind it.
-/

namespace ChainingBox

open Lib

/-! ## The lines of a file -/

/-- The lines of a file, with their newlines. -/
def textLines (text : List Char) : List (List Char) := withNewlines (fileLines text)

@[simp] theorem textLines_nil : textLines [] = [] := rfl

theorem fileLines_cons (c : Char) (s : List Char) : fileLines (c :: s) =
    if c = '\n' then [] :: fileLines s else (fileLines s).modifyHead (List.cons c) := by
  have hsplit := List.splitOn_cons_eq_if_modifyHead (a := '\n') c s
  simp only [beq_iff_eq] at hsplit
  exact hsplit

theorem textLines_newline (s : List Char) : textLines ('\n' :: s) = ['\n'] :: textLines s := by
  have hne : fileLines s ≠ [] := List.splitOn_ne_nil _ _
  unfold textLines
  rw [fileLines_cons, if_pos rfl, withNewlines_cons hne]
  rfl

/-- A character before a newline belongs to the first line. -/
theorem textLines_cons {c : Char} (hc : c ≠ '\n') (s : List Char) : textLines (c :: s) =
    match textLines s with
    | [] => [[c]]
    | line :: lines => (c :: line) :: lines := by
  obtain ⟨line, lines, hl⟩ := List.exists_cons_of_ne_nil (List.splitOn_ne_nil '\n' s)
  unfold textLines
  rw [fileLines_cons, if_neg hc]
  change fileLines s = line :: lines at hl
  rw [hl, List.modifyHead_cons]
  cases lines with
  | nil =>
    by_cases hline : line = []
    · subst hline
      rfl
    · simp [withNewlines, hline]
  | cons line' lines => rfl

/-- A line with its newline, before a text. -/
theorem textLines_append {line : List Char} (h : '\n' ∉ line) (s : List Char) :
    textLines (line ++ '\n' :: s) = (line ++ ['\n']) :: textLines s := by
  induction line with
  | nil => exact textLines_newline s
  | cons c line ih =>
    rw [List.mem_cons, not_or] at h
    rw [List.cons_append, textLines_cons (Ne.symm h.1), ih h.2]
    rfl

/-- A line of a text is the only line of itself. -/
theorem textLines_of_mem {line text : List Char} (h : line ∈ textLines text) :
    textLines line = [line] := by
  induction text generalizing line with
  | nil => simp at h
  | cons c s ih =>
    by_cases hc : c = '\n'
    · subst hc
      rw [textLines_newline, List.mem_cons] at h
      rcases h with rfl | h
      · rfl
      · exact ih h
    · rw [textLines_cons hc] at h
      cases hs : textLines s with
      | nil =>
        rw [hs] at h
        obtain rfl : line = [c] := by simpa using h
        rw [textLines_cons hc]
        rfl
      | cons first rest =>
        rw [hs] at h
        rcases List.mem_cons.1 h with rfl | h
        · rw [textLines_cons hc, ih (by rw [hs]; exact List.mem_cons_self)]
        · exact ih (by rw [hs]; exact List.mem_cons_of_mem _ h)

theorem fgetsPieces_cons (buf : List Char) (c : Char) (s : List Char) : fgetsPieces buf (c :: s) =
    if c = '\n' ∨ buf.length + 2 = 1024 then (buf ++ [c]) :: fgetsPieces [] s
    else fgetsPieces (buf ++ [c]) s := rfl

/-- By induction on the text; `buf` is the beginning of its first line. -/
theorem fgetsPieces_textLines_aux (buf text : List Char) : fgetsPieces buf text =
    match textLines text with
    | [] => fgetsPieces buf []
    | line :: lines => fgetsPieces buf line ++ lines.flatMap (fgetsPieces []) := by
  induction text generalizing buf with
  | nil => rfl
  | cons c s ih =>
    have hrest : fgetsPieces [] s = (textLines s).flatMap (fgetsPieces []) := by
      rw [ih]
      cases textLines s with
      | nil => rfl
      | cons line lines => rfl
    by_cases hc : c = '\n'
    · subst hc
      rw [textLines_newline, fgetsPieces_cons, if_pos (Or.inl rfl), hrest]
      show _ = fgetsPieces buf ['\n'] ++ _
      rw [fgetsPieces_cons, if_pos (Or.inl rfl)]
      rfl
    · rw [textLines_cons hc, fgetsPieces_cons]
      by_cases hfull : buf.length + 2 = 1024
      · -- The buffer is full before the end of the line.
        have hpiece (s : List Char) :
            fgetsPieces buf (c :: s) = (buf ++ [c]) :: fgetsPieces [] s := by
          rw [fgetsPieces_cons, if_pos (Or.inr hfull)]
        rw [if_pos (Or.inr hfull), ih]
        cases textLines s with
        | nil =>
          show _ = fgetsPieces buf [c] ++ []
          rw [List.append_nil, hpiece]
        | cons line lines =>
          show _ = fgetsPieces buf (c :: line) ++ _
          rw [hpiece]
          rfl
      · have hpiece (s : List Char) :
            fgetsPieces buf (c :: s) = fgetsPieces (buf ++ [c]) s := by
          rw [fgetsPieces_cons, if_neg (not_or.2 ⟨hc, hfull⟩)]
        rw [if_neg (not_or.2 ⟨hc, hfull⟩), ih]
        cases textLines s with
        | nil =>
          show _ = fgetsPieces buf [c] ++ []
          rw [List.append_nil, hpiece]
        | cons line lines =>
          show _ = fgetsPieces buf (c :: line) ++ _
          rw [hpiece]

/-- `fgets` reads a file line by line, and a line that is longer than its buffer in pieces. -/
theorem fgetsPieces_textLines (text : List Char) :
    fgetsPieces [] text = (textLines text).flatMap (fgetsPieces []) := by
  rw [fgetsPieces_textLines_aux]
  cases textLines text with
  | nil => rfl
  | cons line lines => rfl

/-! ## The updates of a line -/

/-- A call of `bpf_map_update_elem`: the key and the value. -/
abbrev Update := Ip5tuple × FwAction

/-- The pieces that `parse_rules` skips. -/
def Skipped (buf : List Char) : Prop := buf.head? = some '#' ∨ buf.head? = some '\n'

instance (buf : List Char) : Decidable (Skipped buf) := inferInstanceAs (Decidable (_ ∨ _))

/-- The variables after `sscanf` and the two calls of `inet_pton`. -/
def scanPiece (l : Locals) (buf : List Char) : Option Locals := (sscanf l buf).map convertAddresses

/-- The update that the variables call for. -/
def Locals.update (l : Locals) : Option Update :=
  if l.action.1 = ['d', 'r', 'o', 'p'] then some (l.tuple, FW_ACTION_BLOCK)
  else if l.action.1 = ['a', 'l', 'l', 'o', 'w'] then some (l.tuple, FW_ACTION_PASS)
  else none

/-- The variables after a round, and the update that it performs: `none` when a word overflows its
buffer. -/
def round (l : Locals) (buf : List Char) : Option (Locals × Option Update) :=
  if Skipped buf then some (l, none) else (scanPiece l buf).map fun l => (l, l.update)

theorem round_of_skipped {buf : List Char} (h : Skipped buf) (l : Locals) :
    round l buf = some (l, none) := if_pos h

theorem round_of_not_skipped {buf : List Char} (h : ¬Skipped buf) (l : Locals) :
    round l buf = (scanPiece l buf).map fun l => (l, l.update) := if_neg h

theorem parseLine_eq_round (st : Locals × RulesMap) (buf : List Char) :
    parseLine st buf = (round st.1 buf).map fun r => (r.1, st.2.putAll r.2.toList) := by
  by_cases hskip : Skipped buf
  · rw [round_of_skipped hskip]
    exact if_pos hskip
  · rw [round_of_not_skipped hskip, scanPiece]
    refine (if_neg hskip).trans ?_
    cases hscan : sscanf st.1 buf with
    | none => rfl
    | some l =>
      simp only [Option.bind_eq_bind, Option.bind_some, Option.map_some]
      generalize convertAddresses l = l
      unfold Locals.update
      by_cases hdrop : l.action.1 = ['d', 'r', 'o', 'p']
      · simp only [hdrop, if_true]
        rfl
      · by_cases hallow : l.action.1 = ['a', 'l', 'l', 'o', 'w']
        · simp only [hallow, if_true]
          rfl
        · simp only [hdrop, hallow, if_false]
          rfl

/-- The variables after the rounds for some pieces. -/
def localsAfter (l : Locals) (bufs : List (List Char)) : Option Locals :=
  bufs.foldlM (fun l buf => (round l buf).map (·.1)) l

/-- What each of the rounds for some pieces performs. -/
def rounds (l : Locals) : List (List Char) → Option (List (Option Update))
  | [] => some []
  | buf :: bufs => do
    let r ← round l buf
    return r.2 :: (← rounds r.1 bufs)

/-- The updates that are performed for some pieces, in order. -/
def updates (l : Locals) (bufs : List (List Char)) : Option (List Update) :=
  (rounds l bufs).map List.reduceOption

theorem rounds_cons (l : Locals) (buf : List Char) (bufs : List (List Char)) :
    rounds l (buf :: bufs) =
      (round l buf).bind fun r => (rounds r.1 bufs).map fun us => r.2 :: us := by
  rw [rounds]
  cases round l buf with
  | none => rfl
  | some r =>
    simp only [Option.bind_eq_bind, Option.bind_some]
    cases rounds r.1 bufs <;> rfl

theorem localsAfter_cons (l : Locals) (buf : List Char) (bufs : List (List Char)) :
    localsAfter l (buf :: bufs) = (round l buf).bind fun r => localsAfter r.1 bufs := by
  rw [localsAfter, List.foldlM_cons]
  cases round l buf <;> rfl

theorem localsAfter_append (l : Locals) (bufs bufs' : List (List Char)) :
    localsAfter l (bufs ++ bufs') = (localsAfter l bufs).bind fun l => localsAfter l bufs' := by
  rw [localsAfter, List.foldlM_append]
  rfl

/-- Rounds that overflow nothing leave variables. -/
theorem localsAfter_isSome_iff (l : Locals) (bufs : List (List Char)) :
    (localsAfter l bufs).isSome ↔ (rounds l bufs).isSome := by
  induction bufs generalizing l with
  | nil => exact Iff.rfl
  | cons buf bufs ih =>
    rw [localsAfter_cons, rounds_cons]
    cases round l buf with
    | none => exact Iff.rfl
    | some r =>
      rw [Option.bind_some, Option.bind_some, ih, Option.isSome_map]

theorem rounds_append (l : Locals) (bufs bufs' : List (List Char)) :
    rounds l (bufs ++ bufs') = (rounds l bufs).bind fun us =>
      (localsAfter l bufs).bind fun l => (rounds l bufs').map (us ++ ·) := by
  induction bufs generalizing l with
  | nil =>
    show _ = (rounds l bufs').map ([] ++ ·)
    simp
  | cons buf bufs ih =>
    rw [List.cons_append, rounds_cons, rounds_cons, localsAfter_cons]
    cases round l buf with
    | none => rfl
    | some r =>
      simp only [Option.bind_some, ih]
      cases rounds r.1 bufs with
      | none => rfl
      | some us =>
        simp only [Option.bind_some, Option.map_some]
        cases localsAfter r.1 bufs with
        | none => rfl
        | some l' =>
          simp only [Option.bind_some, Option.map_map]
          rfl

/-- `parse_rules` performs the updates of its pieces, and nothing else. -/
theorem parseRules_eq_updates (junk : Locals) (rules : RulesMap) (text : List Char) :
    parseRules junk rules (some text) =
      (updates junk (fgetsPieces [] text)).map rules.putAll := by
  have hloop (bufs : List (List Char)) (l : Locals) (rules : RulesMap) :
      (bufs.foldlM parseLine (l, rules)).map (·.2) = (updates l bufs).map rules.putAll := by
    induction bufs generalizing l rules with
    | nil => rfl
    | cons buf bufs ih =>
      rw [List.foldlM_cons, parseLine_eq_round, updates, rounds_cons]
      cases round l buf with
      | none => rfl
      | some r =>
        obtain ⟨l', u⟩ := r
        have hput (us : List (Option Update)) : rules.putAll (u :: us).reduceOption =
            (rules.putAll u.toList).putAll us.reduceOption := by
          rw [← BoundedMap.putAll_append]
          cases u <;> rfl
        refine (ih l' _).trans ?_
        simp only [updates, Option.bind_some, Option.map_map]
        exact congrArg (fun f => (rounds l' bufs).map f) (funext fun us => (hput us).symm)
  have hparse : parseRules junk rules (some text) =
      ((fgetsPieces [] text).foldlM parseLine (junk, rules)).map (·.2) := by
    simp only [parseRules, Option.bind_eq_bind, Option.bind_some]
    cases (fgetsPieces [] text).foldlM parseLine (junk, rules) <;> rfl
  rw [hparse, hloop]

/-- The updates that are performed for a line after other lines: `none` when one of the words
overflows its buffer. -/
def updatesFor (junk : Locals) (before : List (List Char)) (line : List Char) :
    Option (List Update) :=
  (localsAfter junk (before.flatMap (fgetsPieces []))).bind fun l => updates l (fgetsPieces [] line)

/-- The updates of a file are those of its lines. -/
theorem parseRules_eq_updatesFor {junk : Locals} {text line : List Char}
    {before after : List (List Char)} {rules rules' : RulesMap}
    (h : textLines text = before ++ line :: after)
    (hparse : parseRules junk rules (some text) = some rules') :
    ∃ us us' rest, updates junk (before.flatMap (fgetsPieces [])) = some us ∧
      updatesFor junk before line = some us' ∧ rules' = rules.putAll (us ++ (us' ++ rest)) := by
  have hpieces : fgetsPieces [] text = before.flatMap (fgetsPieces []) ++
      (fgetsPieces [] line ++ after.flatMap (fgetsPieces [])) := by
    rw [fgetsPieces_textLines, h, List.flatMap_append, List.flatMap_cons]
  rw [parseRules_eq_updates, hpieces, updates, rounds_append] at hparse
  obtain ⟨all, hall, rfl⟩ := Option.map_eq_some_iff.1 hparse
  obtain ⟨all, hrounds, rfl⟩ := Option.map_eq_some_iff.1 hall
  obtain ⟨us, hus, hrounds⟩ := Option.bind_eq_some_iff.1 hrounds
  obtain ⟨l, hl, hrounds⟩ := Option.bind_eq_some_iff.1 hrounds
  obtain ⟨rest, hrest, rfl⟩ := Option.map_eq_some_iff.1 hrounds
  -- The rounds for the line, from the variables that the lines before it leave.
  rw [rounds_append] at hrest
  obtain ⟨us', hus', hrest⟩ := Option.bind_eq_some_iff.1 hrest
  obtain ⟨l', -, hrest⟩ := Option.bind_eq_some_iff.1 hrest
  obtain ⟨rest', -, rfl⟩ := Option.map_eq_some_iff.1 hrest
  refine ⟨us.reduceOption, us'.reduceOption, rest'.reduceOption, ?_, ?_, ?_⟩
  · rw [updates, hus, Option.map_some]
  · rw [updatesFor, hl, Option.bind_some, updates, hus', Option.map_some]
  · rw [List.reduceOption_append, List.reduceOption_append]

/-! ## What a line itself says -/

/-- What `sscanf` finds in a text: `none` for a field that it does not get to. -/
structure Fields where
  saddr : Option (CharArray 32)
  daddr : Option (CharArray 32)
  sport : Option (BitVec 16)
  dport : Option (BitVec 16)
  proto : Option Byte
  action : Option (CharArray 8)

/-- The fields of a text, each behind the one before it: `none` when a word overflows its buffer. -/
def fields (buf : List Char) : Option Fields := do
  let saddr := scanWord (buf.takeWhile fun c => c.toNat ≠ 0)
  let daddr := saddr.bind fun p => scanWord p.2
  let sport := daddr.bind fun p => scanUnsigned p.2
  let dport := sport.bind fun p => scanUnsigned p.2
  let proto := dport.bind fun p => scanUnsigned p.2
  let action := proto.bind fun p => scanWord p.2
  return ⟨← saddr.mapM (storeWord ·.1), ← daddr.mapM (storeWord ·.1), sport.map (·.1.setWidth 16),
    dport.map (·.1.setWidth 16), proto.map (·.1.setWidth 8), ← action.mapM (storeWord ·.1)⟩

/-- The variables with the fields that were found. -/
def Fields.onto (f : Fields) (l : Locals) : Locals :=
  ⟨f.saddr.getD l.saddr, f.daddr.getD l.daddr,
    ⟨l.tuple.ip_src, l.tuple.ip_dst, f.sport.getD l.tuple.sport, f.dport.getD l.tuple.dport,
      f.proto.getD l.tuple.proto⟩, f.action.getD l.action⟩

theorem sscanf_eq_fields (l : Locals) (buf : List Char) :
    sscanf l buf = (fields buf).map fun f => f.onto l := by
  unfold sscanf fields
  rcases scanWord (buf.takeWhile fun c => c.toNat ≠ 0) with _ | ⟨saddr, s⟩
  · rfl
  rcases hsaddr : (storeWord saddr : Option (CharArray 32)) with _ | saddr'
  · simp [hsaddr]
  rcases hdaddr : scanWord s with _ | ⟨daddr, s⟩
  · simp [hsaddr, hdaddr, Fields.onto]
  rcases hdaddr' : (storeWord daddr : Option (CharArray 32)) with _ | daddr'
  · simp [hsaddr, hdaddr, hdaddr']
  rcases hsport : scanUnsigned s with _ | ⟨sport, s⟩
  · simp [hsaddr, hdaddr, hdaddr', hsport, Fields.onto]
  rcases hdport : scanUnsigned s with _ | ⟨dport, s⟩
  · simp [hsaddr, hdaddr, hdaddr', hsport, hdport, Fields.onto]
  rcases hproto : scanUnsigned s with _ | ⟨proto, s⟩
  · simp [hsaddr, hdaddr, hdaddr', hsport, hdport, hproto, Fields.onto]
  rcases haction : scanWord s with _ | ⟨action, s⟩
  · simp [hsaddr, hdaddr, hdaddr', hsport, hdport, hproto, haction, Fields.onto]
  rcases haction' : (storeWord action : Option (CharArray 8)) with _ | action'
  · simp [hsaddr, hdaddr, hdaddr', hsport, hdport, hproto, haction, haction']
  · simp [hsaddr, hdaddr, hdaddr', hsport, hdport, hproto, haction, haction', Fields.onto]

/-- The values that a line itself has given to the variables: `none` where they hold what they held
before the line. -/
structure Own where
  saddr : Option (CharArray 32)
  daddr : Option (CharArray 32)
  ip_src : Option (BitVec 32)
  ip_dst : Option (BitVec 32)
  sport : Option (BitVec 16)
  dport : Option (BitVec 16)
  proto : Option Byte
  action : Option (CharArray 8)
  deriving DecidableEq

namespace Own

/-- Before the first piece of a line. -/
def start : Own := ⟨none, none, none, none, none, none, none, none⟩

/-- The variables, with the values that they held before the line. -/
def onto (o : Own) (l : Locals) : Locals :=
  ⟨o.saddr.getD l.saddr, o.daddr.getD l.daddr,
    ⟨o.ip_src.getD l.tuple.ip_src, o.ip_dst.getD l.tuple.ip_dst, o.sport.getD l.tuple.sport,
      o.dport.getD l.tuple.dport, o.proto.getD l.tuple.proto⟩, o.action.getD l.action⟩

/-- The address of a text, if there is one and it is an address, and an older one otherwise. -/
def ipOf (text : Option (CharArray 32)) (old : Option (BitVec 32)) : Option (BitVec 32) :=
  text.bind fun s => ((inetPton s.1).map addrWord).or old

/-- With the fields of another piece of the line. -/
def add (o : Own) (f : Fields) : Own :=
  let saddr := f.saddr.or o.saddr
  let daddr := f.daddr.or o.daddr
  ⟨saddr, daddr, ipOf saddr o.ip_src, ipOf daddr o.ip_dst, f.sport.or o.sport, f.dport.or o.dport,
    f.proto.or o.proto, f.action.or o.action⟩

/-- After another piece of the line: `none` when one of its words overflows its buffer. -/
def scan (o : Own) (buf : List Char) : Option Own := (fields buf).map o.add

/-- The line itself has given all that an update is made of. -/
def Full (o : Own) : Prop :=
  o.ip_src.isSome ∧ o.ip_dst.isSome ∧ o.sport.isSome ∧ o.dport.isSome ∧ o.proto.isSome ∧
    o.action.isSome

/-- The line itself has given an action that is none. -/
def NoAction (o : Own) : Prop :=
  o.action.isSome ∧ o.action.map (·.1) ≠ some ['d', 'r', 'o', 'p'] ∧
    o.action.map (·.1) ≠ some ['a', 'l', 'l', 'o', 'w']

instance (o : Own) : Decidable o.Full := inferInstanceAs (Decidable (_ ∧ _))
instance (o : Own) : Decidable o.NoAction := inferInstanceAs (Decidable (_ ∧ _))

end Own

/-- A line with all six fields, whose addresses are dotted IPv4. -/
def CompleteLine (line : List Char) : Prop := ∃ o ∈ Own.start.scan line, o.Full

instance (line : List Char) : Decidable (CompleteLine line) :=
  inferInstanceAs (Decidable (∃ o ∈ _, Own.Full o))

/-- At each of the remaining pieces of a line, no word overflows its buffer, and the line itself has
given an action that is none, or it is a complete line that has given all that the update is made
of. -/
def OwnValues (line : List Char) (o : Own) : List (List Char) → Prop
  | [] => True
  | buf :: bufs =>
    if Skipped buf then OwnValues line o bufs
    else ∃ o' ∈ o.scan buf, (o'.NoAction ∨ CompleteLine line ∧ o'.Full) ∧ OwnValues line o' bufs

instance decidableOwnValues (line : List Char) :
    (o : Own) → (bufs : List (List Char)) → Decidable (OwnValues line o bufs)
  | _, [] => isTrue trivial
  | o, buf :: bufs =>
    have := decidableOwnValues line o bufs
    have (o' : Own) := decidableOwnValues line o' bufs
    inferInstanceAs (Decidable (if Skipped buf then OwnValues line o bufs
      else ∃ o' ∈ o.scan buf, (o'.NoAction ∨ CompleteLine line ∧ o'.Full) ∧ OwnValues line o' bufs))

/-- A line whose updates do not come from elsewhere, and whose words fit their buffers. -/
def SelfContained (line : List Char) : Prop := OwnValues line .start (fgetsPieces [] line)

instance (line : List Char) : Decidable (SelfContained line) := decidableOwnValues _ _ _

/-- Each update comes from one line: those for a line of the file, none of whose words overflows its
buffer, are the same after any other lines that overflow nothing, in any file, and a line that is not
complete has none. -/
def OwnLines (junk : Locals) (text : List Char) : Prop :=
  ∀ before line after, textLines text = before ++ line :: after →
    ∃ us, updatesFor junk before line = some us ∧
      (∀ junk' text' before' after', textLines text' = before' ++ line :: after' →
        (localsAfter junk' (before'.flatMap (fgetsPieces []))).isSome →
        updatesFor junk' before' line = some us) ∧
      (¬CompleteLine line → us = [])

/-! ## A round, from what the line itself says -/

/-- Values for the addresses that `inet_pton` would write again. -/
structure Settled (l : Locals) : Prop where
  src : (inetPton l.saddr.1).map addrWord = some l.tuple.ip_src
  dst : (inetPton l.daddr.1).map addrWord = some l.tuple.ip_dst

namespace Own

/-- An address after `inet_pton`. Without a text of its own, the line leaves the one that was
scanned before it to be converted. -/
theorem ipOf_getD (text : Option (CharArray 32)) (old : Option (BitVec 32)) (s : CharArray 32)
    (x : BitVec 32) : ∃ x', ((inetPton (text.getD s).1).map addrWord).getD (old.getD x) =
      (ipOf text old).getD x' ∧ ((inetPton s.1).map addrWord = some x → x' = x) := by
  cases text with
  | none =>
    refine ⟨((inetPton s.1).map addrWord).getD (old.getD x), rfl, fun h => ?_⟩
    rw [h]
    rfl
  | some s' => exact ⟨x, Option.getD_or.symm, fun _ => rfl⟩

/-- The variables after the fields of another piece. -/
theorem convertAddresses_onto (o : Own) (l : Locals) (f : Fields) :
    ∃ l', convertAddresses (f.onto (o.onto l)) = (o.add f).onto l' ∧ (Settled l → l' = l) := by
  obtain ⟨src, hsrc, hsame⟩ := ipOf_getD (f.saddr.or o.saddr) o.ip_src l.saddr l.tuple.ip_src
  obtain ⟨dst, hdst, hsame'⟩ := ipOf_getD (f.daddr.or o.daddr) o.ip_dst l.daddr l.tuple.ip_dst
  refine ⟨{ l with tuple := { l.tuple with ip_src := src, ip_dst := dst } }, ?_, fun h => ?_⟩
  · simp only [convertAddresses, Fields.onto, onto, add, ← Option.getD_or, ← hsrc, ← hdst]
  · rw [hsame h.src, hsame' h.dst]

theorem scanPiece_onto {o o' : Own} {buf : List Char} (h : o.scan buf = some o') (l : Locals) :
    ∃ l', scanPiece (o.onto l) buf = some (o'.onto l') ∧ (Settled l → l' = l) := by
  obtain ⟨f, hf, rfl⟩ := Option.map_eq_some_iff.1 h
  obtain ⟨l', hl', hsame⟩ := o.convertAddresses_onto l f
  refine ⟨l', ?_, hsame⟩
  rw [scanPiece, sscanf_eq_fields, hf, Option.map_some, Option.map_some, hl']

/-- A word overflows its buffer whatever the variables hold. -/
theorem scanPiece_of_scan_none {o : Own} {buf : List Char} (h : o.scan buf = none) (l : Locals) :
    scanPiece l buf = none := by
  rw [scanPiece, sscanf_eq_fields, Option.map_eq_none_iff.1 h]
  rfl

theorem round_onto_of_settled {l : Locals} (h : Settled l) (o : Own) (buf : List Char) :
    ChainingBox.round (o.onto l) buf = if Skipped buf then some (o.onto l, none)
      else (o.scan buf).map fun o' => (o'.onto l, (o'.onto l).update) := by
  by_cases hskip : Skipped buf
  · rw [round_of_skipped hskip, if_pos hskip]
  · rw [round_of_not_skipped hskip, if_neg hskip]
    cases hscan : o.scan buf with
    | none => rw [scanPiece_of_scan_none hscan, Option.map_none, Option.map_none]
    | some o' =>
      obtain ⟨l', hl', hsame⟩ := scanPiece_onto hscan l
      rw [hl', hsame h, Option.map_some, Option.map_some]

/-- No update comes of an action that is none. -/
theorem NoAction.update {o : Own} (h : o.NoAction) (l : Locals) : (o.onto l).update = none := by
  obtain ⟨hsome, hdrop, hallow⟩ := h
  obtain ⟨w, hw⟩ := Option.isSome_iff_exists.1 hsome
  rw [hw, Option.map_some, ne_eq, Option.some.injEq] at hdrop hallow
  simp only [Locals.update, onto, hw, Option.getD_some, hdrop, hallow, if_false]

/-- What a line has given does not depend on what there was before it. -/
theorem getD_eq_of_isSome {α : Type} {x : Option α} (h : x.isSome) (a b : α) :
    x.getD a = x.getD b := by
  obtain ⟨v, rfl⟩ := Option.isSome_iff_exists.1 h
  rfl

theorem Full.onto_eq {o : Own} (h : o.Full) (l l' : Locals) :
    (o.onto l).tuple = (o.onto l').tuple ∧ (o.onto l).action = (o.onto l').action := by
  obtain ⟨hsrc, hdst, hsport, hdport, hproto, haction⟩ := h
  simp only [onto, Ip5tuple.mk.injEq]
  exact ⟨⟨getD_eq_of_isSome hsrc _ _, getD_eq_of_isSome hdst _ _, getD_eq_of_isSome hsport _ _,
    getD_eq_of_isSome hdport _ _, getD_eq_of_isSome hproto _ _⟩, getD_eq_of_isSome haction _ _⟩

/-- The update of a line that has given everything is its own. -/
theorem Full.update {o : Own} (h : o.Full) (l l' : Locals) :
    (o.onto l).update = (o.onto l').update := by
  obtain ⟨htuple, haction⟩ := h.onto_eq l l'
  unfold Locals.update
  rw [htuple, haction]

end Own

section settled

variable {l : Locals} {o : Own} {buf : List Char} {bufs : List (List Char)}
  {us : List (Option Update)} (h : Settled l)

include h

/-- The rounds from a piece that is skipped. -/
theorem of_rounds_skipped (hskip : Skipped buf) (hus : rounds (o.onto l) (buf :: bufs) = some us) :
    ∃ vs, us = none :: vs ∧ rounds (o.onto l) bufs = some vs := by
  rw [rounds_cons, Own.round_onto_of_settled h, if_pos hskip, Option.bind_some] at hus
  obtain ⟨vs, hvs, rfl⟩ := Option.map_eq_some_iff.1 hus
  exact ⟨vs, rfl, hvs⟩

/-- The rounds from a piece that is scanned. -/
theorem of_rounds_scanned (hskip : ¬Skipped buf)
    (hus : rounds (o.onto l) (buf :: bufs) = some us) :
    ∃ o' vs, o.scan buf = some o' ∧ us = (o'.onto l).update :: vs ∧
      rounds (o'.onto l) bufs = some vs := by
  rw [rounds_cons, Own.round_onto_of_settled h, if_neg hskip] at hus
  obtain ⟨r, hr, hus⟩ := Option.bind_eq_some_iff.1 hus
  obtain ⟨o', hscan, rfl⟩ := Option.map_eq_some_iff.1 hr
  obtain ⟨vs, hvs, rfl⟩ := Option.map_eq_some_iff.1 hus
  exact ⟨o', vs, hscan, rfl, hvs⟩

end settled

theorem ownValues_skipped {line buf : List Char} {o : Own} {bufs : List (List Char)}
    (h : Skipped buf) : OwnValues line o (buf :: bufs) ↔ OwnValues line o bufs := by
  rw [OwnValues, if_pos h]

theorem ownValues_not_skipped {line buf : List Char} {o : Own} {bufs : List (List Char)}
    (h : ¬Skipped buf) : OwnValues line o (buf :: bufs) ↔
      ∃ o' ∈ o.scan buf, (o'.NoAction ∨ CompleteLine line ∧ o'.Full) ∧ OwnValues line o' bufs := by
  rw [OwnValues, if_neg h]

/-- The rounds for a line whose values are its own. -/
theorem rounds_of_ownValues {line : List Char} {o : Own} {bufs : List (List Char)}
    (h : OwnValues line o bufs) : ∃ us, (∀ l, rounds (o.onto l) bufs = some us) ∧
      (¬CompleteLine line → ∀ u ∈ us, u = none) := by
  induction bufs generalizing o with
  | nil => exact ⟨[], fun _ => rfl, fun _ u hu => absurd hu List.not_mem_nil⟩
  | cons buf bufs ih =>
    by_cases hskip : Skipped buf
    · -- A skipped piece keeps the variables, and gives no update.
      obtain ⟨us, hus, hnone⟩ := ih ((ownValues_skipped hskip).1 h)
      refine ⟨none :: us, fun l => ?_, fun hline u hu => ?_⟩
      · rw [rounds_cons, round_of_skipped hskip, Option.bind_some, hus, Option.map_some]
      · rcases List.mem_cons.1 hu with rfl | hu
        · rfl
        · exact hnone hline u hu
    · -- What the scan leaves are the same values of the line, on top of different variables.
      obtain ⟨o', hscan, hbuf, hrest⟩ := (ownValues_not_skipped hskip).1 h
      obtain ⟨us, hus, hnone⟩ := ih hrest
      have hupdate (l : Locals) : (o'.onto l).update = (o'.onto noLocals).update := by
        rcases hbuf with hbuf | ⟨-, hbuf⟩
        · rw [hbuf.update, hbuf.update]
        · exact hbuf.update _ _
      refine ⟨(o'.onto noLocals).update :: us, fun l => ?_, fun hline u hu => ?_⟩
      · obtain ⟨l₁, hl₁, -⟩ := Own.scanPiece_onto hscan l
        rw [rounds_cons, round_of_not_skipped hskip, hl₁, Option.map_some, Option.bind_some, hus,
          Option.map_some, hupdate]
      · rcases List.mem_cons.1 hu with rfl | hu
        · rcases hbuf with hbuf | ⟨hcomplete, -⟩
          · exact hbuf.update _
          · exact absurd hcomplete hline
        · exact hnone hline u hu

/-- Such a line overflows nothing. -/
theorem localsAfter_of_selfContained {line : List Char} (h : SelfContained line) (l : Locals) :
    (localsAfter l (fgetsPieces [] line)).isSome := by
  obtain ⟨us, hus, -⟩ := rounds_of_ownValues h
  have hrounds : rounds l (fgetsPieces [] line) = some us := hus l
  rw [localsAfter_isSome_iff, hrounds]
  rfl

/-! ## Lines that fit the buffer -/

/-- By induction on the line; `buf` is what has been read of it. -/
theorem fgetsPieces_of_fits {line buf : List Char} (h : textLines line = [line])
    (hfit : buf.length + line.length ≤ 1023) : fgetsPieces buf line = [buf ++ line] := by
  induction line generalizing buf with
  | nil => exact absurd h (by simp)
  | cons c s ih =>
    rw [List.length_cons] at hfit
    rw [fgetsPieces_cons]
    by_cases hc : c = '\n'
    · subst hc
      rw [textLines_newline, List.cons.injEq, List.cons.injEq] at h
      rw [if_pos (Or.inl rfl), ← h.1.2]
      rfl
    · rw [textLines_cons hc] at h
      cases hs : textLines s with
      | nil =>
        -- The character is the last one.
        rw [hs, List.cons.injEq, List.cons.injEq] at h
        rw [← h.1.2]
        split_ifs <;> simp [fgetsPieces]
      | cons first rest =>
        rw [hs, List.cons.injEq, List.cons.injEq] at h
        obtain ⟨⟨-, rfl⟩, rfl⟩ := h
        have hne : first ≠ [] := by
          rintro rfl
          exact absurd hs (by simp)
        have hpos := List.length_pos_of_ne_nil hne
        have hrest : fgetsPieces (buf ++ [c]) first = [buf ++ [c] ++ first] :=
          ih hs (by rw [List.length_append, List.length_singleton]; omega)
        rw [if_neg (not_or.2 ⟨hc, by omega⟩), hrest, List.append_assoc]
        rfl

/-- A line that fits the buffer has its values from itself if it is skipped, or gives all fields,
with words that fit their buffers, and an action that is none or two addresses. -/
theorem selfContained_iff_of_fits {line : List Char} (h : textLines line = [line])
    (hfit : line.length ≤ 1023) : SelfContained line ↔
      Skipped line ∨ (∃ o ∈ Own.start.scan line, o.NoAction) ∨ CompleteLine line := by
  unfold SelfContained
  rw [fgetsPieces_of_fits h (by simpa using hfit), List.nil_append]
  by_cases hskip : Skipped line
  · exact iff_of_true ((ownValues_skipped hskip).2 trivial) (Or.inl hskip)
  · rw [ownValues_not_skipped hskip]
    simp only [OwnValues, and_true, hskip, false_or]
    constructor
    · rintro ⟨o, ho, hno | ⟨hcomplete, -⟩⟩
      · exact Or.inl ⟨o, ho, hno⟩
      · exact Or.inr hcomplete
    · rintro (⟨o, ho, hno⟩ | ⟨o, ho, hfull⟩)
      · exact ⟨o, ho, Or.inl hno⟩
      · exact ⟨o, ho, Or.inr ⟨⟨o, ho, hfull⟩, hfull⟩⟩

/-! ## Lines that set every variable -/

/-- The address whose four numbers are one digit. -/
def dots (d : Char) : List Char := [d, '.', d, '.', d, '.', d]

/-- A line with that digit for each number. -/
def fillLine (d : Char) (action : List Char) : List Char :=
  dots d ++ ' ' :: (dots d ++ ' ' :: d :: ' ' :: d :: ' ' :: d :: ' ' :: action)

/-- What a line with its newline gives. -/
def ownOf (line : List Char) : Own := (Own.start.scan (line ++ ['\n'])).getD .start

/-- The variables after a line that sets every one of them. -/
def filled (line : List Char) : Locals := (ownOf line).onto noLocals

/-- A line that sets every variable. -/
structure Fills (line : List Char) : Prop where
  no_newline : '\n' ∉ line
  piece : fgetsPieces [] (line ++ ['\n']) = [line ++ ['\n']]
  not_skipped : ¬Skipped (line ++ ['\n'])
  scan : Own.start.scan (line ++ ['\n']) = some (ownOf line)
  saddr : (ownOf line).saddr.isSome
  daddr : (ownOf line).daddr.isSome
  full : (ownOf line).Full

namespace Fills

variable {first : List Char}

/-- It leaves nothing of what was there before it. -/
theorem localsAfter (h : Fills first) (l : Locals) :
    ChainingBox.localsAfter l [first ++ ['\n']] = some (filled first) := by
  obtain ⟨l₁, hscan, -⟩ := Own.scanPiece_onto h.scan l
  have hstart : Own.start.onto l = l := rfl
  obtain ⟨htuple, haction⟩ := h.full.onto_eq l₁ noLocals
  have hsame : (ownOf first).onto l₁ = filled first := by
    rw [filled, Own.onto, Own.onto, Locals.mk.injEq]
    exact ⟨Own.getD_eq_of_isSome h.saddr _ _, Own.getD_eq_of_isSome h.daddr _ _, htuple, haction⟩
  rw [localsAfter_cons, round_of_not_skipped h.not_skipped, ← hstart, hscan, hsame]
  rfl

/-- It can stand before a line of any file. -/
theorem textLines (h : Fills first) {line text : List Char} (hline : line ∈ textLines text) :
    ChainingBox.textLines (first ++ '\n' :: line) = [first ++ ['\n']] ++ line :: [] := by
  rw [textLines_append h.no_newline, textLines_of_mem hline]
  rfl

theorem updatesFor (h : Fills first) (junk : Locals) (line : List Char) :
    ChainingBox.updatesFor junk [first ++ ['\n']] line =
      updates (filled first) (fgetsPieces [] line) := by
  rw [ChainingBox.updatesFor, List.flatMap_singleton, h.piece, h.localsAfter]
  rfl

end Fills

theorem fills_none : Fills (fillLine '0' ['x']) :=
  ⟨by decide, by decide, by decide, by decide, by decide, by decide, by decide⟩

theorem fills_drop₀ : Fills (fillLine '0' ['d', 'r', 'o', 'p']) :=
  ⟨by decide, by decide, by decide, by decide, by decide, by decide, by decide⟩

theorem fills_drop₁ : Fills (fillLine '1' ['d', 'r', 'o', 'p']) :=
  ⟨by decide, by decide, by decide, by decide, by decide, by decide, by decide⟩

/-! ## Comparing rounds -/

/-- Lists of updates that agree when the rounds without one are left out agree altogether, if the
second has one wherever the first does. -/
theorem eq_of_reduceOption_eq {α : Type} {as bs : List (Option α)}
    (h : List.Forall₂ (fun a b => a.isSome → b.isSome) as bs)
    (heq : as.reduceOption = bs.reduceOption) : as = bs := by
  have hlen {as bs : List (Option α)} (h : List.Forall₂ (fun a b => a.isSome → b.isSome) as bs) :
      as.reduceOption.length ≤ bs.reduceOption.length := by
    induction h with
    | nil => exact le_refl _
    | @cons a b as bs hab _ ih =>
      rcases a with _ | a <;> rcases b with _ | b
      · exact ih
      · exact Nat.le_succ_of_le ih
      · exact absurd (hab rfl) (by simp)
      · exact Nat.succ_le_succ ih
  induction h with
  | nil => rfl
  | @cons a b as bs hab hrest ih =>
    rcases a with _ | a <;> rcases b with _ | b
    · rw [ih heq]
    · -- An update of the second list alone would make it the longer one.
      have hle := hlen hrest
      have heq' := congrArg List.length heq
      simp only [List.reduceOption_cons_of_none, List.reduceOption_cons_of_some,
        List.length_cons] at heq'
      omega
    · exact absurd (hab rfl) (by simp)
    · simp only [List.reduceOption_cons_of_some, List.cons.injEq] at heq
      rw [heq.1, ih heq.2]

theorem update_isSome_iff (l : Locals) : l.update.isSome ↔
    l.action.1 = ['d', 'r', 'o', 'p'] ∨ l.action.1 = ['a', 'l', 'l', 'o', 'w'] := by
  unfold Locals.update
  split_ifs with hdrop hallow
  · simp [hdrop]
  · simp [hallow]
  · simp [hdrop, hallow]

/-- Where an update comes of one action, one comes of the action `drop` before the line. -/
theorem rounds_forall₂ {l l' : Locals} (h : Settled l) (h' : Settled l')
    (hdrop : l'.action.1 = ['d', 'r', 'o', 'p']) {o : Own} {bufs : List (List Char)}
    {us us' : List (Option Update)} (hus : rounds (o.onto l) bufs = some us)
    (hus' : rounds (o.onto l') bufs = some us') :
    List.Forall₂ (fun a b => a.isSome → b.isSome) us us' := by
  induction bufs generalizing o us us' with
  | nil =>
    obtain rfl := Option.some.inj hus
    obtain rfl := Option.some.inj hus'
    exact List.Forall₂.nil
  | cons buf bufs ih =>
    by_cases hskip : Skipped buf
    · obtain ⟨vs, rfl, hvs⟩ := of_rounds_skipped h hskip hus
      obtain ⟨vs', rfl, hvs'⟩ := of_rounds_skipped h' hskip hus'
      exact List.Forall₂.cons id (ih hvs hvs')
    · obtain ⟨o', vs, hscan, rfl, hvs⟩ := of_rounds_scanned h hskip hus
      obtain ⟨o'', vs', hscan', rfl, hvs'⟩ := of_rounds_scanned h' hskip hus'
      obtain rfl : o' = o'' := Option.some.inj (hscan.symm.trans hscan')
      refine List.Forall₂.cons ?_ (ih hvs hvs')
      rw [update_isSome_iff, update_isSome_iff]
      simp only [Own.onto]
      cases o'.action with
      | none => exact fun _ => Or.inl hdrop
      | some w => exact id

theorem tuple_of_update {l l' : Locals} (hsome : l.update.isSome) (h : l.update = l'.update) :
    l.tuple = l'.tuple := by
  have htuple {l : Locals} {u : Update} (hu : l.update = some u) : u.1 = l.tuple := by
    unfold Locals.update at hu
    split_ifs at hu
    · exact congrArg Prod.fst (Option.some.inj hu).symm
    · exact congrArg Prod.fst (Option.some.inj hu).symm
  obtain ⟨u, hu⟩ := Option.isSome_iff_exists.1 hsome
  rw [← htuple hu, htuple (h ▸ hu)]

/-- Values before a line that show where its updates come from: without an action, and with two
values for each field. -/
structure Probes (x z w : Locals) : Prop where
  settled₁ : Settled x
  settled₂ : Settled z
  settled₃ : Settled w
  no_action : x.update = none
  drop₂ : z.action.1 = ['d', 'r', 'o', 'p']
  drop₃ : w.action.1 = ['d', 'r', 'o', 'p']
  ip_src : z.tuple.ip_src ≠ w.tuple.ip_src
  ip_dst : z.tuple.ip_dst ≠ w.tuple.ip_dst
  sport : z.tuple.sport ≠ w.tuple.sport
  dport : z.tuple.dport ≠ w.tuple.dport
  proto : z.tuple.proto ≠ w.tuple.proto

namespace Probes

variable {x z w : Locals} (hp : Probes x z w) {o : Own}
include hp

/-- The action is that of the line itself. -/
theorem action_isSome (hxz : (o.onto x).update = (o.onto z).update) : o.action.isSome := by
  by_contra hnone
  have haction : o.action = none := by simpa using hnone
  have hz : (o.onto z).update.isSome := by
    rw [update_isSome_iff]
    left
    rw [Own.onto, haction]
    exact hp.drop₂
  rw [← hxz, update_isSome_iff] at hz
  simp only [Own.onto, haction, Option.getD_none] at hz
  have hx := (update_isSome_iff x).2 hz
  rw [hp.no_action] at hx
  exact absurd hx (by decide)

/-- If the line itself gives an action, its update is its own only if it gives everything. -/
theorem full (haction : o.action.isSome) (hsome : (o.onto z).update.isSome)
    (hzw : (o.onto z).update = (o.onto w).update) : o.Full := by
  have hown {α : Type} {a : Option α} {b c : α} (hne : b ≠ c) (h : a.getD b = a.getD c) :
      a.isSome := by
    cases a with
    | none => exact absurd h hne
    | some a => rfl
  have htuple := tuple_of_update hsome hzw
  simp only [Own.onto, Ip5tuple.mk.injEq] at htuple
  obtain ⟨hsrc, hdst, hsport, hdport, hproto⟩ := htuple
  exact ⟨hown hp.ip_src hsrc, hown hp.ip_dst hdst, hown hp.sport hsport, hown hp.dport hdport,
    hown hp.proto hproto, haction⟩

/-- A line has its values from itself if its rounds are the same for the three values. -/
theorem ownValues {line : List Char} {bufs : List (List Char)} {us : List (Option Update)}
    (hx : rounds (o.onto x) bufs = some us) (hz : rounds (o.onto z) bufs = some us)
    (hw : rounds (o.onto w) bufs = some us) (hnone : ¬CompleteLine line → ∀ u ∈ us, u = none) :
    OwnValues line o bufs := by
  induction bufs generalizing o us with
  | nil => trivial
  | cons buf bufs ih =>
    by_cases hskip : Skipped buf
    · obtain ⟨vs, rfl, hvs⟩ := of_rounds_skipped hp.settled₁ hskip hx
      obtain ⟨vs', heq', hvs'⟩ := of_rounds_skipped hp.settled₂ hskip hz
      obtain ⟨vs'', heq'', hvs''⟩ := of_rounds_skipped hp.settled₃ hskip hw
      rw [List.cons.injEq] at heq' heq''
      rw [← heq'.2] at hvs'
      rw [← heq''.2] at hvs''
      refine (ownValues_skipped hskip).2 (ih hvs hvs' hvs'' fun hline u hu => ?_)
      exact hnone hline u (List.mem_cons_of_mem _ hu)
    · obtain ⟨o', vs, hscan, rfl, hvs⟩ := of_rounds_scanned hp.settled₁ hskip hx
      obtain ⟨oz, vs', hscan', heq', hvs'⟩ := of_rounds_scanned hp.settled₂ hskip hz
      obtain ⟨ow, vs'', hscan'', heq'', hvs''⟩ := of_rounds_scanned hp.settled₃ hskip hw
      obtain rfl : o' = oz := Option.some.inj (hscan.symm.trans hscan')
      obtain rfl : o' = ow := Option.some.inj (hscan.symm.trans hscan'')
      rw [List.cons.injEq] at heq' heq''
      rw [← heq'.2] at hvs'
      rw [← heq''.2] at hvs''
      refine (ownValues_not_skipped hskip).2 ⟨o', hscan, ?_, ih hvs hvs' hvs'' fun hline u hu =>
        hnone hline u (List.mem_cons_of_mem _ hu)⟩
      have haction := hp.action_isSome heq'.1
      by_cases hno : o'.NoAction
      · exact Or.inl hno
      · -- The action is one of the two, so there is an update.
        have hsome : (o'.onto z).update.isSome := by
          rw [update_isSome_iff]
          obtain ⟨v, hv⟩ := Option.isSome_iff_exists.1 haction
          simp only [Own.NoAction, hv, Option.isSome_some, Option.map_some, ne_eq,
            Option.some.injEq, true_and, not_and_or, not_not] at hno
          simpa only [Own.onto, hv, Option.getD_some] using hno
        have hcomplete : CompleteLine line := by
          by_contra hline
          rw [← heq'.1, hnone hline _ List.mem_cons_self] at hsome
          exact absurd hsome (by decide)
        exact Or.inr ⟨hcomplete, hp.full haction hsome (heq'.1.symm.trans heq''.1)⟩

end Probes

theorem probes : Probes (filled (fillLine '0' ['x']))
    (filled (fillLine '0' ['d', 'r', 'o', 'p'])) (filled (fillLine '1' ['d', 'r', 'o', 'p'])) where
  settled₁ := ⟨by decide, by decide⟩
  settled₂ := ⟨by decide, by decide⟩
  settled₃ := ⟨by decide, by decide⟩
  no_action := by decide
  drop₂ := by decide
  drop₃ := by decide
  ip_src := by decide
  ip_dst := by decide
  sport := by decide
  dport := by decide
  proto := by decide

/-! ## The files whose updates come from one line each -/

/-- A line of a file whose updates do not depend on the lines before it has its values from
itself. -/
theorem selfContained_of_ownLines {junk : Locals} {text line : List Char}
    (h : OwnLines junk text) (hline : line ∈ textLines text) : SelfContained line := by
  obtain ⟨before, after, hsplit⟩ := List.append_of_mem hline
  obtain ⟨us, -, hsame, hnone⟩ := h before line after hsplit
  -- The line after one of the three lines, with the same variables before it.
  have hfill {first : List Char} (hf : Fills first) :
      ∃ rs, rounds (filled first) (fgetsPieces [] line) = some rs ∧ rs.reduceOption = us := by
    have hupdates := hsame junk _ _ [] (hf.textLines hline) (by
      rw [List.flatMap_singleton, hf.piece, hf.localsAfter]
      rfl)
    rw [hf.updatesFor junk line] at hupdates
    exact Option.map_eq_some_iff.1 hupdates
  obtain ⟨rx, hx, hrx⟩ := hfill fills_none
  obtain ⟨rz, hz, hrz⟩ := hfill fills_drop₀
  obtain ⟨rw, hw, hrw⟩ := hfill fills_drop₁
  have hxz : rx = rz := eq_of_reduceOption_eq (@rounds_forall₂ _ _ probes.settled₁ probes.settled₂
    probes.drop₂ .start _ _ _ hx hz) (hrx.trans hrz.symm)
  have hzw : rz = rw := eq_of_reduceOption_eq (@rounds_forall₂ _ _ probes.settled₂ probes.settled₃
    probes.drop₃ .start _ _ _ hz hw) (hrz.trans hrw.symm)
  subst hxz hzw
  refine @Probes.ownValues _ _ _ probes .start line _ rx hx hz hw fun hbad u hu => ?_
  rw [hnone hbad] at hrz
  cases u with
  | none => rfl
  | some u =>
    have hmem := List.reduceOption_mem_iff.2 hu
    rw [hrz] at hmem
    exact absurd hmem List.not_mem_nil

/-- Lines that have their values from themselves overflow nothing. -/
theorem localsAfter_of_selfContained_all {lines : List (List Char)}
    (h : ∀ line ∈ lines, SelfContained line) (l : Locals) :
    (localsAfter l (lines.flatMap (fgetsPieces []))).isSome := by
  induction lines generalizing l with
  | nil => rfl
  | cons line lines ih =>
    obtain ⟨l', hl'⟩ := Option.isSome_iff_exists.1
      (localsAfter_of_selfContained (h line List.mem_cons_self) l)
    rw [List.flatMap_cons, localsAfter_append, hl', Option.bind_some]
    exact ih (fun line hline => h line (List.mem_cons_of_mem _ hline)) l'

/-- The updates of a file come from one line each, whatever the lines before them say, exactly when
the words of every line fit their buffers, and the line is a comment or empty, or says everything
itself. -/
theorem ownLines_iff (junk : Locals) (text : List Char) :
    OwnLines junk text ↔ ∀ line ∈ textLines text, SelfContained line := by
  refine ⟨fun h line hline => selfContained_of_ownLines h hline,
    fun h before line after hsplit => ?_⟩
  have hline : SelfContained line := h line (by simp [hsplit])
  obtain ⟨us, hus, hnone⟩ := rounds_of_ownValues hline
  have hupdates (junk : Locals) (before : List (List Char))
      (hdefined : (localsAfter junk (before.flatMap (fgetsPieces []))).isSome) :
      updatesFor junk before line = some us.reduceOption := by
    obtain ⟨l, hl⟩ := Option.isSome_iff_exists.1 hdefined
    have hrounds : rounds l (fgetsPieces [] line) = some us := hus l
    rw [updatesFor, hl, Option.bind_some, updates, hrounds, Option.map_some]
  refine ⟨us.reduceOption, hupdates junk before ?_,
    fun junk' _ before' _ _ => hupdates junk' before', fun hbad => ?_⟩
  · exact localsAfter_of_selfContained_all (fun l hl => h l (by simp [hsplit, hl])) junk
  · rw [List.eq_nil_iff_forall_not_mem]
    intro u hu
    exact absurd (hnone hbad _ (List.reduceOption_mem_iff.1 hu)) (by simp)

/-- A rule, and a line that is missing all but the first field. -/
def truncatedFile : List Char := "10.0.0.1 10.0.0.2 1000 2000 6 drop\n10.0.0.3\n".toList

/-- The second line is performed as a rule for its address and the other fields of the first. -/
theorem not_ownLines_truncated : ¬OwnLines noLocals truncatedFile := by
  intro h
  have hline : SelfContained "10.0.0.3\n".toList := selfContained_of_ownLines h (by decide)
  revert hline
  decide

example : updatesFor noLocals ["10.0.0.1 10.0.0.2 1000 2000 6 drop\n".toList]
    "10.0.0.3\n".toList = some [(⟨0x0300000a, 0x0200000a, 1000, 2000, 6⟩, FW_ACTION_BLOCK)] := by
  decide

example : updatesFor noLocals [] (List.replicate 32 '1') = none := by decide

end ChainingBox
