import ChainingBox.Dataplane.StagesSpec

/-!
# The agent's tables

What an agent does with the rules that the manager sends it: `add_fwd_rule` and `add_proxy_rule` of
`cb_agent_helpers.c`, and `handleInstall` of `agent.go`, which inserts the rules of an Install
message one by one and ignores the results.

The Go structures `Fwd_entry` and `Ip_5tuple` reach the C functions by a cast of their address. Their
fields lie at the offsets of the packed C structures, so the cast keeps every field, and one Lean
structure stands for both. `add_proxy_rule` passes an 8-byte `nshhdr` for the map's 24-byte value,
so 16 bytes of the agent's memory, `junk` here, become the context of the entry.
-/

namespace ChainingBox

open Lib

/-- `Fwd_rule`. -/
structure FwdRule where
  Key : BitVec 32
  Val : FwdEntry
  deriving DecidableEq

/-- `Proxy_rule`, with its 5-tuple in host byte order. -/
structure ProxyRule where
  Key : Ip5tuple
  Val : BitVec 32
  deriving DecidableEq

/-- `CBRulesConfig`, the body of an Install message. -/
structure CBRulesConfig where
  Fwd : List FwdRule
  Proxy : List ProxyRule
  deriving DecidableEq

/-- `add_fwd_rule`: `none` is the map's error. -/
def addFwdRule (fwd_table : FwdTable) (key : BitVec 32) (val : FwdEntry) : Option FwdTable :=
  fwd_table.update (htonl key) val

/-- The key of a proxy rule in network byte order. -/
def Ip5tuple.toNetwork (key : Ip5tuple) : Ip5tuple where
  ip_src := htonl key.ip_src
  ip_dst := htonl key.ip_dst
  sport := htons key.sport
  dport := htons key.dport
  proto := key.proto

/-- The NSH that `add_proxy_rule` stores: the 8 bytes of its `nshhdr`, and the bytes after it. -/
def proxyNsh (sph : BitVec 32) (junk : ByteVec 16) : Nsh :=
  ⟨le16 (htons (NSH_TTL_DEFAULT ||| NSH_BASE_LENGHT_MD_TYPE_2)) ++
      ([NSH_MD_TYPE_2, NSH_NEXT_PROTO_ETHER] ++ (le32 (htonl sph) ++ junk.1)), by
    simp only [List.length_append, le16_length, le32_length, junk.2]
    rfl⟩

/-- `add_proxy_rule`: `none` is the map's error. -/
def addProxyRule (nsh_data : NshData) (key : Ip5tuple) (sph : BitVec 32) (junk : ByteVec 16) :
    Option NshData :=
  nsh_data.update key.toNetwork (proxyNsh sph junk)

/-- The two loops of `handleInstall`; `junk i` is what follows the `nshhdr` of the `i`-th proxy rule
in memory. -/
def handleInstall (junk : ℕ → ByteVec 16) (m : NodeMaps) (msg : CBRulesConfig) : NodeMaps where
  src_mac := m.src_mac
  fwd_table := msg.Fwd.foldl (fun t rule => (addFwdRule t rule.Key rule.Val).getD t) m.fwd_table
  nsh_data := msg.Proxy.zipIdx.foldl
    (fun t rule => (addProxyRule t rule.1.Key rule.1.Val (junk rule.2)).getD t) m.nsh_data

/-- The forwarding rules of a message are a run of writes to `fwd_table`. -/
theorem handleInstall_fwd_table (junk : ℕ → ByteVec 16) (m : NodeMaps) (msg : CBRulesConfig) :
    (handleInstall junk m msg).fwd_table =
      m.fwd_table.putAll (msg.Fwd.map fun rule => (htonl rule.Key, rule.Val)) := by
  rw [BoundedMap.putAll, List.foldl_map]
  rfl

/-- The proxy rules of a message are a run of writes to `nsh_data`. -/
theorem handleInstall_nsh_data (junk : ℕ → ByteVec 16) (m : NodeMaps) (msg : CBRulesConfig) :
    (handleInstall junk m msg).nsh_data = m.nsh_data.putAll (msg.Proxy.zipIdx.map fun rule =>
      (rule.1.Key.toNetwork, proxyNsh rule.1.Val (junk rule.2))) := by
  rw [BoundedMap.putAll, List.foldl_map]
  rfl

/-- A proxy entry carries the service path header of its rule. -/
theorem proxyNsh_path (sph : BitVec 32) (junk : ByteVec 16) : (proxyNsh sph junk).path = sph := by
  have hd : (proxyNsh sph junk).1.drop 4 = le32 (htonl sph) ++ junk.1 := rfl
  have hl := load32_drop (proxyNsh sph junk).1 4 0
  rw [hd, load32_le32] at hl
  rw [Nsh.path, ← hl]
  exact bswap32_bswap32 sph

/-- A proxy entry carries an Ethernet frame. -/
theorem proxyNsh_next_proto (sph : BitVec 32) (junk : ByteVec 16) :
    load8 (proxyNsh sph junk).1 3 = NSH_NEXT_PROTO_ETHER := rfl

theorem Ip5tuple.toNetwork_injective : Function.Injective Ip5tuple.toNetwork := by
  rintro ⟨s, d, sp, dp, p⟩ ⟨s', d', sp', dp', p'⟩ h
  simp only [Ip5tuple.toNetwork, Ip5tuple.mk.injEq] at h ⊢
  exact ⟨bswap32_injective h.1, bswap32_injective h.2.1, bswap16_injective h.2.2.1,
    bswap16_injective h.2.2.2.1, h.2.2.2.2⟩

end ChainingBox
