import ChainingBox.Lib.Overwrite

/-!
# Interface names from the command line

`validate_ifname` checks the name of an interface, and copies it to a buffer of `IF_NAMESIZE` bytes.
It copies as many characters as the name has, so the terminator stays behind: the buffer ends where
the name ends only if it did so before (`validateIfname_iff`).

`flow_monitor_user.c` has one buffer for the names of three of its options, `--ingress`, `--list`,
and `--remove`, and its `tc` commands act on what they leave there. That is the last name only if no
name before it was longer (`ingress_ifname_iff`).
-/

namespace ChainingBox

open Lib

namespace IfName

/-! ## The program -/

def IF_NAMESIZE : ℕ := 16

/-- `isalpha`, in the C locale. -/
def isalpha (c : Byte) : Bool :=
  65 ≤ c.toNat && c.toNat ≤ 90 || 97 ≤ c.toNat && c.toNat ≤ 122

/-- `isdigit`. -/
def isdigit (c : Byte) : Bool := 48 ≤ c.toNat && c.toNat ≤ 57

/-- `strncpy`: the first `n` characters, with zeros behind the end of the string. -/
def strncpy (dest : Bytes) (src : CString) (n : ℕ) : Bytes := store dest 0 (src.1.takeD n 0)

theorem strncpy_length {dest : ByteVec IF_NAMESIZE} (src : CString) {n : ℕ}
    (h : ¬ IF_NAMESIZE ≤ n) : (strncpy dest.1 src n).length = IF_NAMESIZE := by
  have hfit : 0 + (src.1.takeD n 0).length ≤ dest.1.length := by
    rw [List.takeD_length, dest.2]
    omega
  exact (store_length hfit).trans dest.2

/-- `validate_ifname`: the result, and the buffer. -/
def validateIfname (input_ifname : CString) (output_ifname : ByteVec IF_NAMESIZE) :
    Bool × ByteVec IF_NAMESIZE :=
  if h : IF_NAMESIZE ≤ input_ifname.1.length then (false, output_ifname)
  else if input_ifname.1.all fun c => isalpha c || isdigit c then
    (true, ⟨strncpy output_ifname.1 input_ifname input_ifname.1.length,
      strncpy_length input_ifname h⟩)
  else (false, output_ifname)

/-! ## What it should do -/

/-- A name: shorter than 16 characters, all of them letters and digits. -/
def IsName (s : Bytes) : Prop :=
  s.length < IF_NAMESIZE ∧ ∀ c ∈ s, (Char.ofNat c.toNat).isAlphanum

instance (s : Bytes) : Decidable (IsName s) := inferInstanceAs (Decidable (_ ∧ _))

/-- The call accepts the names, copies the whole of them, and keeps the buffer otherwise. -/
structure CopiesWhole (input : CString) (output : ByteVec IF_NAMESIZE) : Prop where
  accepts : (validateIfname input output).1 = true ↔ IsName input.1
  copies : (validateIfname input output).1 = true →
    cstring (validateIfname input output).2.1 = some input.1
  keeps : (validateIfname input output).1 = false → (validateIfname input output).2 = output

theorem alnum_eq (c : Byte) : (isalpha c || isdigit c) = (Char.ofNat c.toNat).isAlphanum := by
  revert c
  decide

/-- A name is accepted, and written to the front of the buffer. -/
theorem validateIfname_of_isName {input : CString} (h : IsName input.1)
    (output : ByteVec IF_NAMESIZE) :
    (validateIfname input output).1 = true ∧
      (validateIfname input output).2.1 = store output.1 0 input.1 := by
  have hlen : ¬ IF_NAMESIZE ≤ input.1.length := Nat.not_le.2 h.1
  have hall : (input.1.all fun c => isalpha c || isdigit c) = true :=
    List.all_eq_true.2 fun c hc => (alnum_eq c).trans (h.2 c hc)
  have htake : input.1.takeD input.1.length 0 = input.1 := by
    rw [List.takeD_eq_take _ le_rfl, List.take_length]
  rw [validateIfname, dif_neg hlen, if_pos hall]
  exact ⟨rfl, congrArg (store output.1 0) htake⟩

/-- All else is rejected, and the buffer kept. -/
theorem validateIfname_of_not_isName {input : CString} (h : ¬ IsName input.1)
    (output : ByteVec IF_NAMESIZE) : validateIfname input output = (false, output) := by
  rw [validateIfname]
  split_ifs with hlen hall
  · rfl
  · refine absurd ⟨Nat.lt_of_not_le hlen, fun c hc => ?_⟩ h
    exact (alnum_eq c).symm.trans (List.all_eq_true.1 hall c hc)
  · rfl

/-- The whole of a name is copied exactly if a zero stands in the buffer where the name ends. -/
theorem validateIfname_iff (input : CString) (output : ByteVec IF_NAMESIZE) :
    CopiesWhole input output ↔ (IsName input.1 → load8 output.1 input.1.length = 0) := by
  by_cases h : IsName input.1
  · obtain ⟨htrue, hstore⟩ := validateIfname_of_isName h output
    have hread : cstring (validateIfname input output).2.1 = some input.1 ↔
        load8 output.1 input.1.length = 0 := by
      rw [hstore]
      exact cstring_store_iff input.2 (lt_of_lt_of_eq h.1 output.2.symm)
    -- The name is accepted and written, so all depends on how the buffer is read.
    constructor
    · intro hcopy _
      exact hread.1 (hcopy.copies htrue)
    · intro hzero
      exact
        { accepts := iff_of_true htrue h
          copies := fun _ => hread.2 (hzero h)
          keeps := fun hfalse => absurd htrue (by rw [hfalse]; decide) }
  · have hrej := validateIfname_of_not_isName h output
    have hfalse : ¬ (validateIfname input output).1 = true := by
      rw [hrej]
      exact Bool.false_ne_true
    exact iff_of_true
      { accepts := iff_of_false hfalse h
        copies := fun htrue => absurd htrue hfalse
        keeps := fun _ => congrArg Prod.snd hrej }
      (fun hname => absurd hname h)

theorem eth0_terminated : (0 : Byte) ∉ ([0x65, 0x74, 0x68, 0x30] : Bytes) := by decide

/-- "eth0". -/
def eth0 : CString := ⟨[0x65, 0x74, 0x68, 0x30], eth0_terminated⟩

/-- The buffer with the name "veth10". -/
def veth10 : ByteVec IF_NAMESIZE := slice [0x76, 0x65, 0x74, 0x68, 0x31, 0x30] 0 IF_NAMESIZE

/-- The name "eth0" is accepted, and the buffer then holds "eth010". -/
theorem not_copiesWhole :
    cstring veth10.1 = some [0x76, 0x65, 0x74, 0x68, 0x31, 0x30] ∧
      cstring (validateIfname eth0 veth10).2.1 = some [0x65, 0x74, 0x68, 0x30, 0x31, 0x30] ∧
      ¬ CopiesWhole eth0 veth10 := by
  refine ⟨by decide, by decide, fun h => ?_⟩
  have hread := h.copies (by decide)
  exact absurd hread (by decide)

/-! ## The options of the flow monitor -/

/-- The options that name an interface; the name behind `--list` and `--remove` may be missing. -/
inductive Opt where
  | egress (optarg : CString)
  | ingress (optarg : CString)
  | list (optarg : Option CString)
  | remove (optarg : Option CString)

/-- The variables of `main` that these options set. -/
structure Options where
  ingress_ifname : ByteVec IF_NAMESIZE
  egress_ifname : ByteVec IF_NAMESIZE
  ingress_ifindex : BitVec 32
  egress_ifindex : BitVec 32
  list_ingress_tc_filter : Bool
  remove_ingress_tc_filter : Bool

def zeroName : ByteVec IF_NAMESIZE := ⟨List.replicate IF_NAMESIZE 0, List.length_replicate⟩

def start : Options where
  ingress_ifname := zeroName
  egress_ifname := zeroName
  ingress_ifindex := 0
  egress_ifindex := -1
  list_ingress_tc_filter := false
  remove_ingress_tc_filter := false

/-- The name behind `--list` or `--remove`, if there is one, goes into the buffer; there has to be
one in the end. -/
def optionalName (ifname : ByteVec IF_NAMESIZE) (optarg : Option CString) :
    Option (ByteVec IF_NAMESIZE) :=
  let checked := match optarg with
    | none => (true, ifname)
    | some arg => validateIfname arg ifname
  if !checked.1 then none
  else if (checked.2.1.takeWhile (· ≠ 0)).length = 0 then none
  else some checked.2

/-- One option of the loop of `main`; `none` is the exit with a failure. A name that
`validate_ifname` rejects behind `--egress` or `--ingress` is reported, and no more than that. -/
def Options.set (if_nametoindex : Bytes → BitVec 32) (s : Options) : Opt → Option Options
  | .egress optarg =>
    let egress_ifname := (validateIfname optarg s.egress_ifname).2
    let egress_ifindex := if_nametoindex (egress_ifname.1.takeWhile (· ≠ 0))
    if egress_ifindex = 0 then none else some { s with egress_ifname, egress_ifindex }
  | .ingress optarg =>
    let ingress_ifname := (validateIfname optarg s.ingress_ifname).2
    let ingress_ifindex := if_nametoindex (ingress_ifname.1.takeWhile (· ≠ 0))
    if ingress_ifindex = 0 then none else some { s with ingress_ifname, ingress_ifindex }
  | .list optarg => do
    let ingress_ifname ← optionalName s.ingress_ifname optarg
    some { s with ingress_ifname, list_ingress_tc_filter := true }
  | .remove optarg => do
    let ingress_ifname ← optionalName s.ingress_ifname optarg
    some { s with ingress_ifname, remove_ingress_tc_filter := true }

/-- The loop over the options. -/
def parse (if_nametoindex : Bytes → BitVec 32) (opts : List Opt) : Option Options :=
  opts.foldlM (Options.set if_nametoindex) start

/-- The argument of an option for the ingress interface. -/
def Opt.ingressArg : Opt → Option CString
  | .egress _ => none
  | .ingress optarg => some optarg
  | .list optarg => optarg
  | .remove optarg => optarg

/-- The name in an argument, if it is one. -/
def accepted : Option CString → List Bytes
  | none => []
  | some arg => if IsName arg.1 then [arg.1] else []

/-- The names for the ingress interface, in order. -/
def ingressNames (opts : List Opt) : List Bytes := opts.flatMap fun o => accepted o.ingressArg

/-- What a call leaves in the buffer. -/
theorem validateIfname_buffer (input : CString) (output : ByteVec IF_NAMESIZE) :
    (validateIfname input output).2.1 = rewrite output.1 (accepted (some input)) := by
  rw [accepted]
  split_ifs with h
  · exact (validateIfname_of_isName h output).2
  · rw [validateIfname_of_not_isName h]
    rfl

theorem optionalName_buffer {ifname ifname' : ByteVec IF_NAMESIZE} {optarg : Option CString}
    (h : optionalName ifname optarg = some ifname') :
    ifname'.1 = rewrite ifname.1 (accepted optarg) := by
  unfold optionalName at h
  dsimp only at h
  split_ifs at h
  obtain rfl := Option.some.inj h
  cases optarg with
  | none => rfl
  | some arg => exact validateIfname_buffer arg ifname

/-- What an option leaves in the buffer of the ingress interface. -/
theorem set_ingress {if_nametoindex : Bytes → BitVec 32} {s s' : Options} {o : Opt}
    (h : s.set if_nametoindex o = some s') :
    s'.ingress_ifname.1 = rewrite s.ingress_ifname.1 (accepted o.ingressArg) := by
  cases o with
  | egress optarg =>
    rw [Options.set] at h
    split_ifs at h
    obtain rfl := Option.some.inj h
    rfl
  | ingress optarg =>
    rw [Options.set] at h
    split_ifs at h
    obtain rfl := Option.some.inj h
    exact validateIfname_buffer optarg s.ingress_ifname
  | list optarg =>
    obtain ⟨ifname, hname, hs⟩ := Option.bind_eq_some_iff.1 h
    obtain rfl := Option.some.inj hs
    exact optionalName_buffer hname
  | remove optarg =>
    obtain ⟨ifname, hname, hs⟩ := Option.bind_eq_some_iff.1 h
    obtain rfl := Option.some.inj hs
    exact optionalName_buffer hname

/-- The names are all written to the same zeros. -/
theorem parse_ingress {if_nametoindex : Bytes → BitVec 32} {opts : List Opt} {s : Options}
    (h : parse if_nametoindex opts = some s) :
    s.ingress_ifname.1 = rewrite (List.replicate IF_NAMESIZE 0) (ingressNames opts) := by
  induction opts using List.reverseRecOn generalizing s with
  | nil =>
    obtain rfl := Option.some.inj h
    rfl
  | append_singleton opts o ih =>
    rw [parse, List.foldlM_append] at h
    obtain ⟨s', hs', hlast⟩ := Option.bind_eq_some_iff.1 h
    obtain ⟨s'', hset, hnil⟩ := Option.bind_eq_some_iff.1 hlast
    obtain rfl := Option.some.inj hnil
    rw [set_ingress hset, ih hs', ingressNames, ingressNames, List.flatMap_append,
      List.flatMap_singleton, rewrite, rewrite, rewrite, List.foldl_append]

theorem isName_of_mem {opts : List Opt} {b : Bytes} (h : b ∈ ingressNames opts) :
    IsName b ∧ 0 ∉ b := by
  obtain ⟨o, -, hb⟩ := List.mem_flatMap.1 h
  cases harg : o.ingressArg with
  | none =>
    rw [harg, accepted] at hb
    exact absurd hb List.not_mem_nil
  | some arg =>
    rw [harg, accepted] at hb
    split_ifs at hb with hname
    · obtain rfl := List.mem_singleton.1 hb
      exact ⟨hname, arg.2⟩
    · exact absurd hb List.not_mem_nil

/-- The `tc` commands act on the last name given for the ingress interface, exactly if no name given
before it was longer. -/
theorem ingress_ifname_iff {if_nametoindex : Bytes → BitVec 32} {opts : List Opt} {s : Options}
    (h : parse if_nametoindex opts = some s) {before : List Bytes} {name : Bytes}
    (hnames : ingressNames opts = before ++ [name]) :
    cstring s.ingress_ifname.1 = some name ↔ ∀ b ∈ before, b.length ≤ name.length := by
  have hall : ∀ b ∈ before ++ [name], IsName b ∧ 0 ∉ b := fun b hb =>
    isName_of_mem (hnames ▸ hb)
  have hbefore (b : Bytes) (hb : b ∈ before) : IsName b ∧ 0 ∉ b :=
    hall b (List.mem_append_left _ hb)
  have hname := hall name (List.mem_append_right _ (List.mem_singleton_self name))
  rw [parse_ingress h, hnames]
  exact cstring_rewrite_iff (fun b hb => (hbefore b hb).2) (fun b hb => (hbefore b hb).1.1.le)
    hname.2 hname.1.1

end IfName

end ChainingBox
