import ChainingBox.Control.Agent

/-!
# Chain configurations

The configuration file of the manager and of the deployment, from `definitions.go`: functions, each
with a tag and a flag for remote ones, and chains, each with an Id, the names of its nodes, and its
flows. `getNodeByName` finds the function declared last under a name.

Two neighbours in a chain that are both local share a direct link. `linked` says so of a position
and the next one, and everything that the manager and the deployment decide about a position is
stated with it.
-/

namespace ChainingBox

open Lib

/-- `CBInstance`. -/
structure CBInstance where
  Tag : String
  Remote : Bool
  deriving DecidableEq

/-- `Ip_5tuplestr`, a flow as the file has it. -/
structure Ip5tuplestr where
  Ipsrc : String
  Ipdst : String
  Sport : BitVec 16
  Dport : BitVec 16
  Proto : Byte
  deriving DecidableEq

/-- `CBChain`. -/
structure CBChain where
  Id : BitVec 32
  Nodes : List String
  Flows : List Ip5tuplestr
  deriving DecidableEq

/-- `CBConfig`, as it is read from the file. -/
structure CBConfig where
  Chains : List CBChain
  Functions : List CBInstance
  deriving DecidableEq

/-- The map `name2idx`, as `NewCBConfig` fills it: a later function replaces an earlier one of the
same tag. -/
def name2idx (fs : List CBInstance) : String → Option ℕ :=
  fs.zipIdx.foldl (fun m f => Function.update m f.1.Tag (some f.2)) fun _ => none

/-- `GetNodeByName`: `none` is its nil. -/
def CBConfig.getNodeByName (cfg : CBConfig) (name : String) : Option CBInstance :=
  match name2idx cfg.Functions name with
  | some idx => cfg.Functions[idx]?
  | none => none

/-- `net.ParseIP`: the 16 bytes of the address, or nil. -/
abbrev ParseIP := String → Option (ByteVec 16)

/-- `ip2int` on an address of 16 bytes. -/
def ip2int (ip : ByteVec 16) : BitVec 32 :=
  load8 ip.1 12 ++ load8 ip.1 13 ++ load8 ip.1 14 ++ load8 ip.1 15

/-- `Parse`: `none` is its error. -/
def Ip5tuplestr.parse (parseIP : ParseIP) (tstr : Ip5tuplestr) : Option Ip5tuple := do
  let ipsrc ← parseIP tstr.Ipsrc
  let ipdst ← parseIP tstr.Ipdst
  return ⟨ip2int ipsrc, ip2int ipdst, tstr.Sport, tstr.Dport, tstr.Proto⟩

/-! ## Functions by name -/

/-- The function found under a name is the last one declared with it. -/
theorem getNodeByName_eq (cfg : CBConfig) (name : String) :
    cfg.getNodeByName name = cfg.Functions.reverse.find? fun f => f.Tag = name := by
  obtain ⟨chains, fs⟩ := cfg
  unfold CBConfig.getNodeByName
  dsimp only
  -- Beside the entry itself, the induction carries that its index is in range.
  suffices h : (∀ idx, name2idx fs name = some idx → idx < fs.length) ∧
      (match name2idx fs name with
        | some idx => fs[idx]?
        | none => none) = fs.reverse.find? fun f => f.Tag = name from h.2
  induction fs using List.reverseRecOn with
  | nil => exact ⟨fun idx h => by simp [name2idx] at h, rfl⟩
  | append_singleton fs f ih =>
    obtain ⟨ihlt, iheq⟩ := ih
    have hstep : name2idx (fs ++ [f]) = Function.update (name2idx fs) f.Tag (some fs.length) := by
      unfold name2idx
      rw [List.zipIdx_append, List.foldl_append, List.zipIdx_singleton, Nat.zero_add]
      rfl
    rw [hstep, List.reverse_append, List.reverse_singleton, List.singleton_append, List.find?_cons]
    by_cases hf : f.Tag = name
    · subst hf
      rw [Function.update_self]
      refine ⟨fun idx h => ?_, by simp⟩
      obtain rfl := Option.some.inj h
      rw [List.length_append, List.length_singleton]
      omega
    · rw [Function.update_of_ne (Ne.symm hf)]
      refine ⟨fun idx h => ?_, ?_⟩
      · have := ihlt idx h
        rw [List.length_append]
        omega
      · simp only [hf, decide_false]
        rw [← iheq]
        split
        · next idx hidx => rw [List.getElem?_append_left (ihlt idx hidx)]
        · rfl

theorem getNodeByName_some {cfg : CBConfig} {name : String} {f : CBInstance}
    (h : cfg.getNodeByName name = some f) : f ∈ cfg.Functions ∧ f.Tag = name := by
  rw [getNodeByName_eq] at h
  exact ⟨List.mem_reverse.1 (List.mem_of_find?_eq_some h), by simpa using List.find?_some h⟩

/-- A name is that of a declared function. -/
def CBConfig.Declared (cfg : CBConfig) (name : String) : Prop := ∃ f ∈ cfg.Functions, f.Tag = name

theorem declared_iff {cfg : CBConfig} {name : String} :
    cfg.Declared name ↔ (cfg.getNodeByName name).isSome := by
  rw [getNodeByName_eq, List.find?_isSome]
  simp [CBConfig.Declared]

/-! ## Direct links -/

/-- A name is that of a local function. -/
def CBConfig.isLocal (cfg : CBConfig) (name : String) : Bool :=
  (cfg.getNodeByName name).any fun f => !f.Remote

/-- The position is followed by another one in its chain, and both nodes are local. -/
def CBConfig.linked (cfg : CBConfig) (chain : CBChain) (i : ℕ) : Bool :=
  match chain.Nodes[i]?, chain.Nodes[i + 1]? with
  | some n, some n' => cfg.isLocal n && cfg.isLocal n'
  | _, _ => false

theorem isLocal_of_some {cfg : CBConfig} {name : String} {f : CBInstance}
    (h : cfg.getNodeByName name = some f) : cfg.isLocal name = !f.Remote := by
  rw [CBConfig.isLocal, h, Option.any_some]

/-- A link joins two local nodes. -/
theorem linked_iff {cfg : CBConfig} {chain : CBChain} {i : ℕ} :
    cfg.linked chain i ↔ ∃ n n', chain.Nodes[i]? = some n ∧ chain.Nodes[i + 1]? = some n' ∧
      cfg.isLocal n ∧ cfg.isLocal n' := by
  unfold CBConfig.linked
  cases chain.Nodes[i]? with
  | none => simp
  | some n =>
    cases chain.Nodes[i + 1]? with
    | none => simp
    | some n' => simp

end ChainingBox
