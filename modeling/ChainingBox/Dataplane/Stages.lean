import ChainingBox.Dataplane.Common

/-!
# The Dec, Enc, and Fwd stages

The three programs of `sfc_stages_kern.c`. `decapNsh` runs on XDP at a node's ingress interface: it
saves the NSH of an encapsulated frame in `nsh_data`, keyed by the 5-tuple of the inner packet, and
strips the encapsulation. `encapNsh` and `sfcForwarding` run on TC at the egress interface, in this
order of priority: the first puts the saved NSH back with its service index decremented, the second
addresses the frame to the next hop. `egress` is the two in sequence, as TC runs them: the second
only when the first returns `TC_ACT_UNSPEC`.

Each definition follows its C function statement by statement. The pointer of the C code is an
offset here, and `data_end` is the length of the frame.
-/

namespace ChainingBox

open Lib

/-- `set_src_mac`: `none` is its `-1`, when the table has no such entry. -/
def setSrcMac (m : SrcMac) (frame : Bytes) (idx : SrcmacIdx) : Option Bytes :=
  match m.lookup idx.key with
  | none => none
  | some smac => some (store frame 6 smac.1)

/-- The comparison of the frame's destination address with the node's, from the last byte to the
first. -/
def macDiffers (mymac : Mac) (frame : Bytes) : Bool :=
  [5, 4, 3, 2, 1, 0].any fun i => load8 mymac.1 i ^^^ load8 frame i ≠ 0

/-- What a run of `decap_nsh` leaves: its exit, the frame, and `nsh_data`. -/
structure DecapOut where
  ret : Ret XdpAction
  frame : Bytes
  nsh_data : NshData

/-- The Dec stage. -/
def decapNsh (src_mac : SrcMac) (nsh_data : NshData) (frame : Bytes) : DecapOut :=
  if frame.length < 14 then ⟨cbRetother .pass, frame, nsh_data⟩
  else match src_mac.lookup SrcmacIdx.ingressMac.key with
  | none => ⟨cbRetother .pass, frame, nsh_data⟩
  | some smac =>
    -- If broadcast or multicast, pass.
    if load8 frame 0 &&& 1 ≠ 0 then ⟨cbRetother .pass, frame, nsh_data⟩
    else if macDiffers smac frame then ⟨cbRetother .drop, frame, nsh_data⟩
    else
      let tagged := htons (load16 frame 12) = ETH_P_8021Q
      if tagged ∧ frame.length < 14 + 4 then ⟨cbRetother .drop, frame, nsh_data⟩
      else
        let offset := if tagged then 14 + 4 else 14
        let h_proto := if tagged then htons (load16 frame 16) else htons (load16 frame 12)
        if h_proto ≠ ETH_P_NSH then ⟨cbRetother .pass, frame, nsh_data⟩
        -- Check if we can access NSH, and if its next protocol is Ethernet.
        else if frame.length < offset + 24 then ⟨cbRetother .drop, frame, nsh_data⟩
        else if load8 frame (offset + 3) ≠ NSH_NEXT_PROTO_ETHER then
          ⟨cbRetother .drop, frame, nsh_data⟩
        -- Single check for inner Ethernet and IP.
        else if frame.length < offset + 24 + 14 + 20 then ⟨cbRetother .drop, frame, nsh_data⟩
        else match getTuple (frame.drop (offset + 24 + 14)) with
        | none => ⟨cbRetother .drop, frame, nsh_data⟩
        | some key =>
          -- The result of the update decides only a debug print.
          let nsh_data' := nsh_data.put key (slice frame offset 24)
          let frame' := (bpfXdpAdjustHead frame (offset + 24)).getD frame
          ⟨cbRetok .pass, frame', nsh_data'⟩

/-- What a run of a TC program leaves: its exit and the frame. -/
structure TcOut where
  ret : Ret TcAct
  frame : Bytes

/-- The end-of-chain flag of a forwarding entry. -/
def FwdEntry.isEnd (e : FwdEntry) : Bool := e.flags &&& 0x1 ≠ 0

/-- The exit that sets the source MAC and sends the frame away. -/
def sendAway (src_mac : SrcMac) (frame : Bytes) : TcOut :=
  match setSrcMac src_mac frame .egressMac with
  | none => ⟨cbRetother .shot, frame⟩
  | some frame' => ⟨cbRetok .ok, frame'⟩

/-- The Enc stage. -/
def encapNsh (k : Kernel) (m : NodeMaps) (frame : Bytes) : TcOut :=
  if frame.length < 14 + 20 then ⟨cbRetok .ok, frame⟩
  -- Check if frame contains IP. Pass along otherwise.
  else if load16 frame 12 ≠ htons ETH_P_IP then ⟨cbRetok .ok, frame⟩
  else match getTuple (frame.drop 14) with
  | none => ⟨cbRetok .ok, frame⟩
  | some key =>
    match m.nsh_data.lookup key with
    | none => sendAway m.src_mac frame
    | some prev_nsh =>
      let sph := htonl (load32 prev_nsh.1 4)
      let si := sph &&& 0x000000FF
      if si = 0 then ⟨cbRetother .shot, frame⟩
      else
        let sph := sph - 1
        let next_hop := m.fwd_table.lookup (htonl sph)
        -- Check if it is end of chain. If it is, we don't have to re-encapsulate it.
        if next_hop.any FwdEntry.isEnd then sendAway m.src_mac frame
        else
          let prev_proto := load16 frame 12
          match bpfSkbAdjustRoom k frame (14 + 24) with
          | none => ⟨cbRetother .shot, frame⟩
          | some frame =>
            if frame.length < 2 * 14 + 24 then ⟨cbRetother .shot, frame⟩
            else
              -- The original Ethernet header is outside, and is copied to the inside.
              let frame := store frame 38 (slice frame 0 14).1
              let frame := store frame 12 (le16 (htons ETH_P_NSH))
              let frame := store frame (38 + 12) (le16 prev_proto)
              -- The saved NSH goes back in, with the new service path header.
              let frame := store frame 14 prev_nsh.1
              let frame := store frame (14 + 4) (le32 (htonl sph))
              ⟨cbRetok .unspec, frame⟩

/-- The Fwd stage. -/
def sfcForwarding (m : NodeMaps) (frame : Bytes) : TcOut :=
  if frame.length < 14 then ⟨cbRetother .shot, frame⟩
  else if frame.length < 14 + 24 then ⟨cbRetother .shot, frame⟩
  else match m.fwd_table.lookup (load32 frame (14 + 4)) with
  | none => ⟨cbRetother .shot, frame⟩
  | some next_hop =>
    if next_hop.isEnd then ⟨cbRetok .shot, frame⟩
    else match setSrcMac m.src_mac frame .egressMac with
    | none => ⟨cbRetother .shot, frame⟩
    | some frame => ⟨cbRetok .ok, store frame 0 next_hop.address.1⟩

/-- What becomes of a frame that a service function sends to the egress interface: it is dropped,
or sent as Enc passed it along, or sent as Enc re-encapsulated it and Fwd addressed it. -/
inductive Egress
  | dropped
  | plain (frame : Bytes)
  | chained (frame : Bytes)
  deriving DecidableEq

/-- The two filters of the egress interface, in order of priority. -/
def egress (k : Kernel) (m : NodeMaps) (frame : Bytes) : Egress :=
  let enc := encapNsh k m frame
  match enc.ret.code with
  | .ok | .redirect => .plain enc.frame
  | .shot => .dropped
  | .unspec =>
    let fwd := sfcForwarding m enc.frame
    match fwd.ret.code with
    | .ok | .redirect | .unspec => .chained fwd.frame
    | .shot => .dropped

end ChainingBox
