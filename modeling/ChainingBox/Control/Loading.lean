import ChainingBox.Dataplane.Common

/-!
# Loading the stages

How an agent loads its stages: `load_ingress_stages` and `load_egress_stages` of
`cb_agent_helpers.c`, over the helpers of `load_helpers.c` that run `ip` and `tc`, and `NewCBAgent`
of `agent.go` over both. What each of the steps comes to is the `Env` of a call: the exit statuses
of the commands, the descriptors of `bpf_obj_get`, the MAC that `ioctl` reads, the update of
`src_mac`.

The commands that are run in one call are all different, so one status for each of them stands for
any outcome of the call. A command has its effect when its status is 0, and none otherwise.
-/

namespace ChainingBox

open Lib

/-! ## Commands -/

/-- `enum tc_dir_t`. -/
inductive TcDir
  | ingress
  | egress
  deriving DecidableEq

/-- The sections of the object file with the stages: `xdp/decap`, `action/encap` and
`action/forward`. -/
inductive Stage
  | decap
  | encap
  | forward
  deriving DecidableEq

/-- Where a program can be attached to a device. -/
inductive Hook
  | xdp
  | tc (dir : TcDir)
  deriving DecidableEq

/-- A program that is attached to a device. -/
structure Attached where
  dev : String
  hook : Hook
  sec : Stage
  deriving DecidableEq

/-- The commands of `load_helpers.c`. -/
inductive Cmd
  | xdpObj (dev obj : String) (sec : Stage)
  | xdpOff (dev : String)
  | clsact (dev : String)
  | filterAdd (dev : String) (dir : TcDir) (pref handle : ℕ) (obj : String) (sec : Stage)
  | filterDelete (dev : String) (dir : TcDir)

/-- What a command does to the attached programs when it succeeds. -/
def Cmd.effect : Cmd → List Attached → List Attached
  | .xdpObj dev _ sec, l => ⟨dev, .xdp, sec⟩ :: l
  | .xdpOff dev, l => l.filter fun a => ¬(a.dev = dev ∧ a.hook = .xdp)
  | .clsact _, l => l
  | .filterAdd dev dir _ _ _ sec, l => ⟨dev, .tc dir, sec⟩ :: l
  | .filterDelete dev dir, l => l.filter fun a => ¬(a.dev = dev ∧ a.hook = .tc dir)

/-! ## The steps and the state -/

/-- `net.Interface`. -/
structure Interface where
  Name : String

/-- What the steps of one loader with the maps come to. `none` is the -1 of a call that returns a
descriptor. -/
structure MapSteps where
  nsh_data : Option ℕ
  fwd_table : Option ℕ
  src_mac : Option ℕ
  socket : Option ℕ
  /-- Whether `ioctl` succeeds on a socket. -/
  ioctl : Bool
  /-- What is in the uninitialized `ifr` in place of the MAC. -/
  junk : Mac
  /-- Whether `bpf_map_update_elem` succeeds on a map. -/
  update : Bool

/-- What all steps of a call come to. -/
structure Env where
  interfaceByName : String → Except String Interface
  /-- The status that `system` returns for a command. -/
  status : Cmd → ℤ
  hwaddr : String → Mac
  /-- The steps of the loader for each of the two entries of `src_mac`. -/
  maps : SrcmacIdx → MapSteps

/-- The programs that the process has attached, as far as they still are, the handles that it holds,
and the map `src_mac`. -/
structure System where
  attached : List Attached
  nsh_data : ℤ
  fwd_table : ℤ
  src_mac : ℤ
  macs : SrcMac

/-- A process at its start. -/
def System.start (macs : SrcMac) : System := ⟨[], 0, 0, 0, macs⟩

/-- A descriptor as an `int`. -/
def fd : Option ℕ → ℤ
  | some n => n
  | none => -1

/-- A write to `src_mac`. -/
def SrcMac.set (m : SrcMac) (mac : Mac) : SrcmacIdx → SrcMac
  | .ingressMac => { m with ingress := mac }
  | .egressMac => { m with egress := mac }

/-! ## The helpers -/

/-- `WEXITSTATUS`, the second byte of a status. -/
def wexitstatus (status : ℤ) : ℤ := status / 256 % 256

/-- `runcmd`: the status of the command, which has its effect when that is 0. -/
def runcmd (env : Env) (cmd : Cmd) (s : System) : ℤ × System :=
  (env.status cmd,
    if env.status cmd = 0 then { s with attached := cmd.effect s.attached } else s)

/-- `tc_create_clsact`. -/
def tcCreateClsact (env : Env) (dev : String) (s : System) : ℤ × System :=
  let r := runcmd env (.clsact dev) s
  (wexitstatus r.1, r.2)

/-- `tc_attach_bpf`. -/
def tcAttachBpf (env : Env) (dev bpf_obj : String) (prio handle : ℕ) (sec : Stage) (dir : TcDir)
    (s : System) : ℤ × System :=
  runcmd env (.filterAdd dev dir prio handle bpf_obj sec) s

/-- `tc_remove_filter`. -/
def tcRemoveFilter (env : Env) (dev : String) (dir : TcDir) (s : System) : ℤ × System :=
  runcmd env (.filterDelete dev dir) s

/-- `xdp_add`. -/
def xdpAdd (env : Env) (dev obj : String) (sec : Stage) (s : System) : ℤ × System :=
  runcmd env (.xdpObj dev obj sec) s

/-- `xdp_remove`. -/
def xdpRemove (env : Env) (dev : String) (s : System) : ℤ × System := runcmd env (.xdpOff dev) s

/-- `get_map_fds`. -/
def getMapFds (m : MapSteps) (s : System) : ℤ × System :=
  let s := { s with
    nsh_data := fd m.nsh_data, fwd_table := fd m.fwd_table, src_mac := fd m.src_mac }
  if s.nsh_data = 0 ∨ s.fwd_table = 0 ∨ s.src_mac = 0 then (-1, s) else (0, s)

/-- `bpf_map_update_elem` on `src_mac`, which fails without a map. -/
def updateSrcMac (m : MapSteps) (key : SrcmacIdx) (mac : Mac) (s : System) : ℤ × System :=
  if s.src_mac < 0 ∨ m.update = false then (-1, s) else (0, { s with macs := s.macs.set mac key })

/-- What is in the `ifr` of `config_src_mac_map` after `ioctl`. -/
def ifrMac (env : Env) (iface : String) (m : MapSteps) : Mac :=
  if m.socket.isSome ∧ m.ioctl then env.hwaddr iface else m.junk

/-- `config_src_mac_map`, which does not look at what `ioctl` returns. -/
def configSrcMacMap (env : Env) (iface : String) (idx : SrcmacIdx) (s : System) : ℤ × System :=
  updateSrcMac (env.maps idx) idx (ifrMac env iface (env.maps idx)) s

/-! ## The loaders -/

/-- `load_ingress_stages`. -/
def loadIngressStages (env : Env) (iface stages_obj : String) (s : System) : ℤ × System :=
  let r := xdpAdd env iface stages_obj .decap s
  if r.1 ≠ 0 then (r.1, (xdpRemove env iface r.2).2)
  else
    let r := getMapFds (env.maps .ingressMac) r.2
    if r.1 ≠ 0 then r
    else
      let r := configSrcMacMap env iface .ingressMac r.2
      if r.1 ≠ 0 then r else (0, r.2)

/-- `load_egress_stages`. -/
def loadEgressStages (env : Env) (iface stages_obj : String) (s : System) : ℤ × System :=
  let r := tcCreateClsact env iface s
  -- 2 happens if clsact is already created.
  if r.1 ≠ 0 ∧ r.1 ≠ 2 then r
  else
    let r := tcAttachBpf env iface stages_obj 1 1 .encap .egress r.2
    if r.1 ≠ 0 then (r.1, (tcRemoveFilter env iface .egress r.2).2)
    else
      let r := tcAttachBpf env iface stages_obj 2 1 .forward .egress r.2
      if r.1 ≠ 0 then (r.1, (tcRemoveFilter env iface .egress r.2).2)
      else
        let r := getMapFds (env.maps .egressMac) r.2
        if r.1 ≠ 0 then r
        else
          let r := configSrcMacMap env iface .egressMac r.2
          if r.1 ≠ 0 then r else (0, r.2)

/-- `CBAgent`, without its connection. -/
structure CBAgent where
  name : String
  ingress_iface : Option Interface
  egress_iface : Option Interface

/-- `installStages`: the error is `none` where there is none. -/
def CBAgent.installStages (env : Env) (cba : CBAgent) (obj_path : String) (s : System) :
    Option String × System :=
  let r := match cba.ingress_iface with
    | some iface => loadIngressStages env iface.Name obj_path s
    | none => (0, s)
  if r.1 ≠ 0 then (some "Failed to load ingress stages", r.2)
  else
    let r := match cba.egress_iface with
      | some iface => loadEgressStages env iface.Name obj_path r.2
      | none => (0, r.2)
    if r.1 ≠ 0 then (some "Failed to load egress stages", r.2) else (none, r.2)

/-- The first part of `NewCBAgent`: the two interfaces, of which either can be left out. -/
def findInterfaces (env : Env) (ingress_ifname egress_ifname : String) :
    Except String (Option Interface × Option Interface) := do
  let ingress ← if ingress_ifname ≠ "" then some <$> env.interfaceByName ingress_ifname
    else pure none
  let egress ←
    if egress_ifname ≠ "" then
      if ingress_ifname = egress_ifname then pure ingress
      else some <$> env.interfaceByName egress_ifname
    else pure none
  return (ingress, egress)

/-- `NewCBAgent`. -/
def newCBAgent (env : Env) (name ingress_ifname egress_ifname objpath : String) (s : System) :
    Except String CBAgent × System :=
  match findInterfaces env ingress_ifname egress_ifname with
  | .error err => (.error err, s)
  | .ok (ingress_iface, egress_iface) =>
    let cba : CBAgent := ⟨name, ingress_iface, egress_iface⟩
    let r := cba.installStages env objpath s
    match r.1 with
    | some err => (.error err, r.2)
    | none => (.ok cba, r.2)

end ChainingBox
