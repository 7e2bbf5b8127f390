import ChainingBox.Control.Loading

/-!
# What loading the stages promises

A loader that returns 0 has loaded its stages (`IngressSound`, `EgressSound`), and an error of
`NewCBAgent` leaves none of the programs attached that it has attached (`CleansUp`).

Each loader returns 0 for stages that are not loaded when a map cannot be opened or the MAC cannot
be read, because `get_map_fds` tests its descriptors for 0 and not for -1, and nobody looks at what
`ioctl` returns. An error behind the first attached program leaves it attached, except for that of
Fwd, whose branch removes the filters. `loading_iff` has for each of the three promises exactly the
steps with which it is kept.
-/

namespace ChainingBox

open Lib

/-! ## The promises -/

/-- The stages are loaded: the programs are attached, the handles valid, and the MAC of the device
is in `src_mac`. -/
structure Loaded (env : Env) (iface : String) (idx : SrcmacIdx) (programs : List Attached)
    (s : System) : Prop where
  attached : ∀ a ∈ programs, a ∈ s.attached
  nsh_data : 0 ≤ s.nsh_data
  fwd_table : 0 ≤ s.fwd_table
  src_mac : 0 ≤ s.src_mac
  mac : s.macs.lookup idx.key = some (env.hwaddr iface)

/-- Dec on a device. -/
def decProgram (iface : String) : Attached := ⟨iface, .xdp, .decap⟩

/-- Enc and Fwd on a device. -/
def encProgram (iface : String) : Attached := ⟨iface, .tc .egress, .encap⟩
def fwdProgram (iface : String) : Attached := ⟨iface, .tc .egress, .forward⟩

/-- `load_ingress_stages` returns 0 only with everything loaded. -/
def IngressSound (env : Env) (iface stages_obj : String) (s : System) : Prop :=
  (loadIngressStages env iface stages_obj s).1 = 0 →
    Loaded env iface .ingressMac [decProgram iface] (loadIngressStages env iface stages_obj s).2

/-- `load_egress_stages` returns 0 only with everything loaded. -/
def EgressSound (env : Env) (iface stages_obj : String) (s : System) : Prop :=
  (loadEgressStages env iface stages_obj s).1 = 0 →
    Loaded env iface .egressMac [encProgram iface, fwdProgram iface]
      (loadEgressStages env iface stages_obj s).2

/-- If `NewCBAgent` returns an error, none of the programs that it has attached is left. -/
def CleansUp (env : Env) (name ingress_ifname egress_ifname objpath : String) (macs : SrcMac) :
    Prop :=
  ∀ err, (newCBAgent env name ingress_ifname egress_ifname objpath (.start macs)).1 = .error err →
    (newCBAgent env name ingress_ifname egress_ifname objpath (.start macs)).2.attached = []

/-! ## The conditions -/

/-- The tests that a loader makes of its steps with the maps: no descriptor is 0, and `src_mac` can
be opened and updated. -/
structure MapSteps.Pass (m : MapSteps) : Prop where
  nsh_data : m.nsh_data ≠ some 0
  fwd_table : m.fwd_table ≠ some 0
  src_mac : ∃ n, n ≠ 0 ∧ m.src_mac = some n
  update : m.update

/-- What these tests leave out: the other two maps can be opened, and the MAC is read, or happens to
be in the memory of `ifr`. -/
structure MapSteps.Complete (m : MapSteps) (mac : Mac) : Prop where
  nsh_data : m.nsh_data.isSome
  fwd_table : m.fwd_table.isSome
  mac : m.socket.isSome ∧ m.ioctl ∨ m.junk = mac

/-- `ip` attaches Dec. -/
def Env.Dec (env : Env) (iface obj : String) : Prop := env.status (.xdpObj iface obj .decap) = 0

/-- There is a `clsact` on the device for `tc_create_clsact`. -/
def Env.Clsact (env : Env) (iface : String) : Prop :=
  wexitstatus (env.status (.clsact iface)) = 0 ∨ wexitstatus (env.status (.clsact iface)) = 2

/-- `tc` attaches Enc, and Fwd. -/
def Env.Enc (env : Env) (iface obj : String) : Prop :=
  env.status (.filterAdd iface .egress 1 1 obj .encap) = 0
def Env.Fwd (env : Env) (iface obj : String) : Prop :=
  env.status (.filterAdd iface .egress 2 1 obj .forward) = 0

/-- `tc` removes the filters. -/
def Env.Removes (env : Env) (iface : String) : Prop :=
  env.status (.filterDelete iface .egress) = 0

/-! ## The steps with the maps -/

/-- The end of both loaders. -/
def finishLoad (env : Env) (iface : String) (idx : SrcmacIdx) (s : System) : ℤ × System :=
  let r := getMapFds (env.maps idx) s
  if r.1 ≠ 0 then r
  else
    let r := configSrcMacMap env iface idx r.2
    if r.1 ≠ 0 then r else (0, r.2)

/-- A descriptor is 0 only where the map was opened as 0. -/
theorem fd_eq_zero_iff (o : Option ℕ) : fd o = 0 ↔ o = some 0 := by
  cases o with
  | none => simp [fd]
  | some n => simp [fd]

/-- A descriptor that is not negative is that of a map that was opened. -/
theorem fd_nonneg_iff (o : Option ℕ) : 0 ≤ fd o ↔ o.isSome := by
  cases o with
  | none => simp [fd]
  | some n => simp [fd]

/-- `src_mac` has the MAC that was written. -/
theorem lookup_set (m : SrcMac) (mac : Mac) (idx : SrcmacIdx) :
    (m.set mac idx).lookup idx.key = some mac := by
  cases idx <;> rfl

variable {env : Env} {iface obj : String} {idx : SrcmacIdx} {s : System}

/-- `get_map_fds` keeps what it gets, also when it fails. -/
theorem getMapFds_snd (m : MapSteps) (s : System) : (getMapFds m s).2 =
    { s with nsh_data := fd m.nsh_data, fwd_table := fd m.fwd_table, src_mac := fd m.src_mac } := by
  unfold getMapFds
  dsimp only
  split_ifs <;> rfl

/-- What `get_map_fds` tests: that none of the descriptors is 0. -/
theorem getMapFds_eq_zero_iff (m : MapSteps) (s : System) : (getMapFds m s).1 = 0 ↔
    m.nsh_data ≠ some 0 ∧ m.fwd_table ≠ some 0 ∧ m.src_mac ≠ some 0 := by
  unfold getMapFds
  simp only [fd_eq_zero_iff]
  split_ifs with h
  · simp only [neg_eq_zero, one_ne_zero, false_iff]
    tauto
  · simp only [not_or] at h
    exact iff_of_true rfl h

/-- The update of `src_mac` needs a valid handle, and a kernel that does it. -/
theorem updateSrcMac_eq_zero_iff (m : MapSteps) (key : SrcmacIdx) (mac : Mac) (s : System) :
    (updateSrcMac m key mac s).1 = 0 ↔ 0 ≤ s.src_mac ∧ m.update := by
  unfold updateSrcMac
  split_ifs with h
  · simp only [neg_eq_zero, one_ne_zero, false_iff, not_and, Bool.not_eq_true]
    intro hnonneg
    exact h.resolve_left (not_lt.2 hnonneg)
  · rw [not_or, not_lt, Bool.not_eq_false] at h
    exact iff_of_true rfl h

/-- An update that succeeds has written the MAC. -/
theorem updateSrcMac_snd {m : MapSteps} {key : SrcmacIdx} {mac : Mac} {s : System}
    (h : (updateSrcMac m key mac s).1 = 0) :
    (updateSrcMac m key mac s).2 = { s with macs := s.macs.set mac key } := by
  unfold updateSrcMac at h ⊢
  split_ifs at h ⊢
  · exact absurd h (neg_ne_zero.2 one_ne_zero)
  · rfl

/-- An update leaves the programs alone. -/
theorem updateSrcMac_attached (m : MapSteps) (key : SrcmacIdx) (mac : Mac) (s : System) :
    (updateSrcMac m key mac s).2.attached = s.attached := by
  unfold updateSrcMac
  split_ifs <;> rfl

/-- What a test for an error passes on. -/
theorem test_eq_self (r : ℤ × System) : (if r.1 ≠ 0 then r else (0, r.2)) = r := by
  split_ifs with h
  · rfl
  · rw [not_not] at h
    rw [← h]

/-- With the descriptors, the end of a loader is the step with the MAC. -/
theorem finishLoad_of_fds (h : (getMapFds (env.maps idx) s).1 = 0) :
    finishLoad env iface idx s =
      configSrcMacMap env iface idx (getMapFds (env.maps idx) s).2 :=
  (if_neg (not_not.2 h)).trans (test_eq_self _)

/-- Without them, it is the failed step before. -/
theorem finishLoad_of_not_fds (h : (getMapFds (env.maps idx) s).1 ≠ 0) :
    finishLoad env iface idx s = getMapFds (env.maps idx) s := if_pos h

/-- The steps with the maps leave the programs alone. -/
theorem finishLoad_attached : (finishLoad env iface idx s).2.attached = s.attached := by
  by_cases h : (getMapFds (env.maps idx) s).1 = 0
  · rw [finishLoad_of_fds h, configSrcMacMap, updateSrcMac_attached, getMapFds_snd]
  · rw [finishLoad_of_not_fds h, getMapFds_snd]

/-- They succeed when their tests pass. -/
theorem finishLoad_eq_zero_iff : (finishLoad env iface idx s).1 = 0 ↔ (env.maps idx).Pass := by
  have hsrc : (env.maps idx).src_mac ≠ some 0 ∧ 0 ≤ fd (env.maps idx).src_mac ↔
      ∃ n, n ≠ 0 ∧ (env.maps idx).src_mac = some n := by
    cases (env.maps idx).src_mac with
    | none => simp [fd]
    | some n => simp [fd]
  have hfds := getMapFds_eq_zero_iff (env.maps idx) s
  by_cases h : (getMapFds (env.maps idx) s).1 = 0
  · obtain ⟨hnsh, hfwd, hne⟩ := hfds.1 h
    rw [finishLoad_of_fds h, configSrcMacMap, updateSrcMac_eq_zero_iff, getMapFds_snd]
    constructor
    · rintro ⟨hnonneg, hupdate⟩
      exact ⟨hnsh, hfwd, hsrc.1 ⟨hne, hnonneg⟩, hupdate⟩
    · intro hpass
      exact ⟨(hsrc.2 hpass.src_mac).2, hpass.update⟩
  · rw [finishLoad_of_not_fds h]
    refine iff_of_false h fun hpass => h (hfds.2 ⟨hpass.nsh_data, hpass.fwd_table, ?_⟩)
    exact (hsrc.2 hpass.src_mac).1

/-- What they leave behind when they succeed. -/
theorem finishLoad_snd (h : (finishLoad env iface idx s).1 = 0) : (finishLoad env iface idx s).2 =
    { s with
      nsh_data := fd (env.maps idx).nsh_data
      fwd_table := fd (env.maps idx).fwd_table
      src_mac := fd (env.maps idx).src_mac
      macs := s.macs.set (ifrMac env iface (env.maps idx)) idx } := by
  by_cases hfds : (getMapFds (env.maps idx) s).1 = 0
  · rw [finishLoad_of_fds hfds, configSrcMacMap] at h ⊢
    rw [updateSrcMac_snd h, getMapFds_snd]
  · rw [finishLoad_of_not_fds hfds] at h
    exact absurd h hfds

/-- The MAC that is read is that of the device when `ioctl` has written it, or when the memory
had it. -/
theorem ifrMac_eq_iff (m : MapSteps) : ifrMac env iface m = env.hwaddr iface ↔
    m.socket.isSome ∧ m.ioctl ∨ m.junk = env.hwaddr iface := by
  unfold ifrMac
  split_ifs with h
  · exact iff_of_true rfl (Or.inl h)
  · rw [or_iff_right h]

/-- Everything is loaded after them when they were complete, and the programs were attached. -/
theorem loaded_finishLoad_iff {programs : List Attached}
    (h : (finishLoad env iface idx s).1 = 0) (hattached : ∀ a ∈ programs, a ∈ s.attached) :
    Loaded env iface idx programs (finishLoad env iface idx s).2 ↔
      (env.maps idx).Complete (env.hwaddr iface) := by
  obtain ⟨n, -, hsrc⟩ := (finishLoad_eq_zero_iff.1 h).src_mac
  have hmac : ((s.macs.set (ifrMac env iface (env.maps idx)) idx).lookup idx.key =
      some (env.hwaddr iface)) ↔ ifrMac env iface (env.maps idx) = env.hwaddr iface := by
    rw [lookup_set, Option.some.injEq]
  rw [finishLoad_snd h]
  constructor
  · intro hloaded
    exact ⟨(fd_nonneg_iff _).1 hloaded.nsh_data, (fd_nonneg_iff _).1 hloaded.fwd_table,
      (ifrMac_eq_iff _).1 (hmac.1 hloaded.mac)⟩
  · intro hcomplete
    refine ⟨hattached, (fd_nonneg_iff _).2 hcomplete.nsh_data,
      (fd_nonneg_iff _).2 hcomplete.fwd_table, (fd_nonneg_iff _).2 ?_,
      hmac.2 ((ifrMac_eq_iff _).2 hcomplete.mac)⟩
    rw [hsrc]
    rfl

/-! ## The loaders, step by step -/

/-- A command that exits with 0 has its effect. -/
theorem runcmd_of_ok {cmd : Cmd} (h : env.status cmd = 0) :
    runcmd env cmd s = (0, { s with attached := cmd.effect s.attached }) := by
  unfold runcmd
  rw [if_pos h, h]

/-- Another command has none. -/
theorem runcmd_of_fail {cmd : Cmd} (h : env.status cmd ≠ 0) :
    runcmd env cmd s = (env.status cmd, s) := by
  unfold runcmd
  rw [if_neg h]

instance : Decidable (env.Removes iface) := inferInstanceAs (Decidable (_ = _))

/-- The removal of filters leaves XDP programs where they are, and attaches none. -/
theorem tcRemoveFilter_attached : (tcRemoveFilter env iface .egress s).2.attached =
    if env.Removes iface then
      s.attached.filter fun a => ¬(a.dev = iface ∧ a.hook = .tc .egress)
    else s.attached := by
  unfold tcRemoveFilter
  by_cases h : env.Removes iface
  · rw [runcmd_of_ok h, if_pos h]
    rfl
  · rw [runcmd_of_fail h, if_neg h]

/-- The `clsact` is no program. -/
theorem tcCreateClsact_snd : (tcCreateClsact env iface s).2 = s := by
  show (runcmd env (.clsact iface) s).2 = s
  unfold runcmd
  split_ifs <;> rfl

/-- The loader goes on when there is a `clsact`, new or old. -/
theorem tcCreateClsact_passes (h : env.Clsact iface) :
    ¬((tcCreateClsact env iface s).1 ≠ 0 ∧ (tcCreateClsact env iface s).1 ≠ 2) :=
  not_and_or.2 (h.imp not_not.2 not_not.2)

/-- Enc is attached. -/
theorem tcAttachBpf_enc (h : env.Enc iface obj) :
    tcAttachBpf env iface obj 1 1 .encap .egress s =
      (0, { s with attached := encProgram iface :: s.attached }) := runcmd_of_ok h

/-- Without Dec, the ingress is an error, and nothing is attached. -/
theorem loadIngressStages_of_not_dec (h : ¬env.Dec iface obj) :
    (loadIngressStages env iface obj s).1 ≠ 0 ∧
      (s.attached = [] → (loadIngressStages env iface obj s).2.attached = []) := by
  have hadd : xdpAdd env iface obj .decap s = (env.status (.xdpObj iface obj .decap), s) :=
    runcmd_of_fail h
  have hload : loadIngressStages env iface obj s = ((xdpAdd env iface obj .decap s).1,
      (xdpRemove env iface (xdpAdd env iface obj .decap s).2).2) := if_pos (by rw [hadd]; exact h)
  rw [hload, hadd]
  refine ⟨h, fun hs => ?_⟩
  show (runcmd env (.xdpOff iface) s).2.attached = []
  unfold runcmd
  split_ifs
  · show s.attached.filter _ = []
    rw [hs]
    rfl
  · exact hs

/-- With Dec, the ingress is what is done with the maps. -/
theorem loadIngressStages_of_dec (h : env.Dec iface obj) : loadIngressStages env iface obj s =
    finishLoad env iface .ingressMac { s with attached := decProgram iface :: s.attached } := by
  have hadd : xdpAdd env iface obj .decap s =
      (0, { s with attached := decProgram iface :: s.attached }) := runcmd_of_ok h
  unfold loadIngressStages
  rw [hadd]
  rfl

/-- When the ingress returns 0. -/
theorem loadIngressStages_eq_zero_iff : (loadIngressStages env iface obj s).1 = 0 ↔
    env.Dec iface obj ∧ (env.maps .ingressMac).Pass := by
  by_cases h : env.Dec iface obj
  · rw [loadIngressStages_of_dec h, finishLoad_eq_zero_iff, and_iff_right h]
  · exact iff_of_false (loadIngressStages_of_not_dec h).1 fun hdec => h hdec.1

/-- The egress without a `clsact`. -/
theorem loadEgressStages_of_not_clsact (h : ¬env.Clsact iface) :
    (loadEgressStages env iface obj s).1 ≠ 0 ∧ (loadEgressStages env iface obj s).2 = s := by
  have hret : (tcCreateClsact env iface s).1 ≠ 0 ∧ (tcCreateClsact env iface s).1 ≠ 2 :=
    not_or.1 h
  have hload : loadEgressStages env iface obj s = tcCreateClsact env iface s := if_pos hret
  rw [hload]
  exact ⟨hret.1, tcCreateClsact_snd⟩

/-- The egress with a `clsact`, but without Enc. -/
theorem loadEgressStages_of_not_enc (h : env.Clsact iface) (henc : ¬env.Enc iface obj) :
    (loadEgressStages env iface obj s).1 ≠ 0 ∧
      (loadEgressStages env iface obj s).2 = (tcRemoveFilter env iface .egress s).2 := by
  have hattach : tcAttachBpf env iface obj 1 1 .encap .egress s =
      (env.status (.filterAdd iface .egress 1 1 obj .encap), s) := runcmd_of_fail henc
  unfold loadEgressStages
  dsimp only
  rw [if_neg (tcCreateClsact_passes h), tcCreateClsact_snd, hattach, if_pos (by exact henc)]
  exact ⟨henc, rfl⟩

/-- The egress with Enc, but without Fwd. -/
theorem loadEgressStages_of_not_fwd (h : env.Clsact iface) (henc : env.Enc iface obj)
    (hfwd : ¬env.Fwd iface obj) : (loadEgressStages env iface obj s).1 ≠ 0 ∧
      (loadEgressStages env iface obj s).2 = (tcRemoveFilter env iface .egress
        { s with attached := encProgram iface :: s.attached }).2 := by
  have hattach (s : System) : tcAttachBpf env iface obj 2 1 .forward .egress s =
      (env.status (.filterAdd iface .egress 2 1 obj .forward), s) := runcmd_of_fail hfwd
  unfold loadEgressStages
  dsimp only
  rw [if_neg (tcCreateClsact_passes h), tcCreateClsact_snd, tcAttachBpf_enc henc,
    if_neg (not_not.2 rfl), hattach, if_pos (by exact hfwd)]
  exact ⟨hfwd, rfl⟩

/-- The egress with both programs. -/
theorem loadEgressStages_of_fwd (h : env.Clsact iface) (henc : env.Enc iface obj)
    (hfwd : env.Fwd iface obj) : loadEgressStages env iface obj s =
      finishLoad env iface .egressMac
        { s with attached := fwdProgram iface :: encProgram iface :: s.attached } := by
  have hattach : tcAttachBpf env iface obj 2 1 .forward .egress
      { s with attached := encProgram iface :: s.attached } =
      (0, { s with attached := fwdProgram iface :: encProgram iface :: s.attached }) :=
    runcmd_of_ok hfwd
  unfold loadEgressStages
  dsimp only
  rw [if_neg (tcCreateClsact_passes h), tcCreateClsact_snd, tcAttachBpf_enc henc,
    if_neg (not_not.2 rfl), hattach, if_neg (not_not.2 rfl)]
  rfl

/-- All steps of the egress pass their tests. -/
structure Env.EgressPass (env : Env) (iface obj : String) : Prop where
  clsact : env.Clsact iface
  enc : env.Enc iface obj
  fwd : env.Fwd iface obj
  maps : (env.maps .egressMac).Pass

/-- How far the egress gets. -/
inductive EgressRun (env : Env) (iface obj : String) (s : System) (r : ℤ × System) : Prop
  | noClsact (clsact : ¬env.Clsact iface) (ret : r.1 ≠ 0) (left : r.2 = s)
  | noEnc (clsact : env.Clsact iface) (enc : ¬env.Enc iface obj) (ret : r.1 ≠ 0)
      (left : r.2 = (tcRemoveFilter env iface .egress s).2)
  | noFwd (clsact : env.Clsact iface) (enc : env.Enc iface obj) (fwd : ¬env.Fwd iface obj)
      (ret : r.1 ≠ 0) (left : r.2 = (tcRemoveFilter env iface .egress
        { s with attached := encProgram iface :: s.attached }).2)
  | all (clsact : env.Clsact iface) (enc : env.Enc iface obj) (fwd : env.Fwd iface obj)
      (load : r = finishLoad env iface .egressMac
        { s with attached := fwdProgram iface :: encProgram iface :: s.attached })

/-- Every egress gets that far. -/
theorem egressRun (env : Env) (iface obj : String) (s : System) :
    EgressRun env iface obj s (loadEgressStages env iface obj s) := by
  by_cases h : env.Clsact iface
  · by_cases henc : env.Enc iface obj
    · by_cases hfwd : env.Fwd iface obj
      · exact .all h henc hfwd (loadEgressStages_of_fwd h henc hfwd)
      · obtain ⟨hret, hleft⟩ := loadEgressStages_of_not_fwd h henc hfwd
        exact .noFwd h henc hfwd hret hleft
    · obtain ⟨hret, hleft⟩ := loadEgressStages_of_not_enc h henc
      exact .noEnc h henc hret hleft
  · obtain ⟨hret, hleft⟩ := loadEgressStages_of_not_clsact h
    exact .noClsact h hret hleft

/-- When the egress returns 0. -/
theorem loadEgressStages_eq_zero_iff : (loadEgressStages env iface obj s).1 = 0 ↔
    env.EgressPass iface obj := by
  cases egressRun env iface obj s with
  | noClsact h hret => exact iff_of_false hret fun hpass => h hpass.clsact
  | noEnc h henc hret => exact iff_of_false hret fun hpass => henc hpass.enc
  | noFwd h henc hfwd hret => exact iff_of_false hret fun hpass => hfwd hpass.fwd
  | all h henc hfwd hload =>
    rw [hload, finishLoad_eq_zero_iff]
    exact ⟨fun hmaps => ⟨h, henc, hfwd, hmaps⟩, fun hpass => hpass.maps⟩

/-- Whatever comes of the egress, a program on XDP stays attached. -/
theorem mem_loadEgressStages {a : Attached} (ha : a ∈ s.attached) (hook : a.hook = .xdp) :
    a ∈ (loadEgressStages env iface obj s).2.attached := by
  -- The filters that are removed are those of TC.
  have hremove {s : System} (ha : a ∈ s.attached) :
      a ∈ (tcRemoveFilter env iface .egress s).2.attached := by
    rw [tcRemoveFilter_attached]
    split_ifs
    · rw [List.mem_filter, hook]
      exact ⟨ha, by simp⟩
    · exact ha
  cases egressRun env iface obj s with
  | noClsact h hret hleft =>
    rw [hleft]
    exact ha
  | noEnc h henc hret hleft =>
    rw [hleft]
    exact hremove ha
  | noFwd h henc hfwd hret hleft =>
    rw [hleft]
    exact hremove (List.mem_cons_of_mem _ ha)
  | all h henc hfwd hload =>
    rw [hload, finishLoad_attached]
    exact List.mem_cons_of_mem _ (List.mem_cons_of_mem _ ha)

/-! ## What is left behind -/

/-- An error of the egress alone leaves nothing attached only if it comes before Enc is attached, or
if it is that of Fwd and the filters can be removed. -/
theorem egress_clean_iff (hs : s.attached = []) :
    ((loadEgressStages env iface obj s).1 ≠ 0 →
      (loadEgressStages env iface obj s).2.attached = []) ↔
    (env.Clsact iface → env.Enc iface obj →
      (env.Fwd iface obj → (env.maps .egressMac).Pass) ∧
        (¬env.Fwd iface obj → env.Removes iface)) := by
  cases egressRun env iface obj s with
  | noClsact h hret hleft =>
    refine iff_of_true (fun _ => ?_) fun hc => absurd hc h
    rw [hleft, hs]
  | noEnc h henc hret hleft =>
    refine iff_of_true (fun _ => ?_) fun _ he => absurd he henc
    rw [hleft, tcRemoveFilter_attached, hs]
    split_ifs <;> rfl
  | noFwd h henc hfwd hret hleft =>
    -- Enc is attached, and the failure of Fwd removes it, if it can.
    have hremove : (loadEgressStages env iface obj s).2.attached = [] ↔ env.Removes iface := by
      rw [hleft, tcRemoveFilter_attached, hs]
      split_ifs with hr
      · simp [encProgram, hr]
      · simp [hr]
    rw [hremove]
    exact ⟨fun hclean _ _ => ⟨fun hf => absurd hf hfwd, fun _ => hclean hret⟩,
      fun hr _ => (hr h henc).2 hfwd⟩
  | all h henc hfwd hload =>
    -- Both are attached, and stay so.
    have hleft : (loadEgressStages env iface obj s).2.attached ≠ [] := by
      rw [hload, finishLoad_attached]
      exact List.cons_ne_nil _ _
    rw [ne_eq, loadEgressStages_eq_zero_iff]
    constructor
    · intro hclean _ _
      refine ⟨fun _ => ?_, fun hn => absurd hfwd hn⟩
      by_contra hpass
      exact hleft (hclean fun hall => hpass hall.maps)
    · intro hpass hn
      exact absurd ⟨h, henc, hfwd, (hpass h henc).1 hfwd⟩ hn

/-- An error of `installStages` comes before a program is attached, or is that of Fwd without an
ingress, with the filters removed. -/
structure Env.FailsCleanly (env : Env) (ingress_iface egress_iface : Option Interface)
    (obj : String) : Prop where
  after_dec : ∀ i, ingress_iface = some i → env.Dec i.Name obj →
    (env.maps .ingressMac).Pass ∧ ∀ e, egress_iface = some e → env.EgressPass e.Name obj
  after_enc : ingress_iface = none → ∀ e, egress_iface = some e → env.Clsact e.Name →
    env.Enc e.Name obj → (env.Fwd e.Name obj → (env.maps .egressMac).Pass) ∧
      (¬env.Fwd e.Name obj → env.Removes e.Name)

/-- What a call returns for the result of a loader. -/
def errorOf (err : String) (r : ℤ × System) : Option String × System :=
  if r.1 ≠ 0 then (some err, r.2) else (none, r.2)

/-- There is an error when the loader does not return 0. -/
theorem errorOf_isSome (err : String) (r : ℤ × System) : (errorOf err r).1.isSome ↔ r.1 ≠ 0 := by
  unfold errorOf
  split_ifs with h
  · exact iff_of_true rfl h
  · exact iff_of_false Bool.false_ne_true h

/-- What the loader has left stays. -/
theorem errorOf_snd (err : String) (r : ℤ × System) : (errorOf err r).2 = r.2 := by
  unfold errorOf
  split_ifs <;> rfl

/-- An agent without an ingress loads its egress. -/
theorem installStages_of_none (name : String) (e : Interface) :
    CBAgent.installStages env ⟨name, none, some e⟩ obj s =
      errorOf "Failed to load egress stages" (loadEgressStages env e.Name obj s) := rfl

/-- The egress is not loaded after an error of the ingress. -/
theorem installStages_of_ingress {name : String} {i : Interface} {egress_iface : Option Interface}
    (h : (loadIngressStages env i.Name obj s).1 ≠ 0) :
    CBAgent.installStages env ⟨name, some i, egress_iface⟩ obj s =
      (some "Failed to load ingress stages", (loadIngressStages env i.Name obj s).2) := if_pos h

/-- The egress is loaded after the ingress. -/
theorem installStages_of_both {name : String} {i e : Interface}
    (h : (loadIngressStages env i.Name obj s).1 = 0) :
    CBAgent.installStages env ⟨name, some i, some e⟩ obj s =
      errorOf "Failed to load egress stages"
        (loadEgressStages env e.Name obj (loadIngressStages env i.Name obj s).2) :=
  if_neg (not_not.2 h)

/-- An agent without an egress loads its ingress. -/
theorem installStages_of_only {name : String} {i : Interface}
    (h : (loadIngressStages env i.Name obj s).1 = 0) :
    CBAgent.installStages env ⟨name, some i, none⟩ obj s =
      (none, (loadIngressStages env i.Name obj s).2) := if_neg (not_not.2 h)

/-- `installStages` cleans up after itself exactly then. -/
theorem installStages_clean_iff (cba : CBAgent) (hs : s.attached = []) :
    ((cba.installStages env obj s).1.isSome → (cba.installStages env obj s).2.attached = []) ↔
      env.FailsCleanly cba.ingress_iface cba.egress_iface obj := by
  obtain ⟨name, ingress_iface, egress_iface⟩ := cba
  rcases ingress_iface with _ | i
  · -- Only the egress.
    rcases egress_iface with _ | e
    · refine iff_of_true (fun h => absurd h Bool.false_ne_true) ⟨fun i hi => ?_, fun _ e he => ?_⟩
      · exact absurd hi (by simp)
      · exact absurd he (by simp)
    · rw [installStages_of_none, errorOf_isSome, errorOf_snd, egress_clean_iff hs]
      constructor
      · intro h
        refine ⟨fun i hi => absurd hi (by simp), fun _ e' he' => ?_⟩
        obtain rfl := Option.some.inj he'
        exact h
      · intro h
        exact h.after_enc rfl e rfl
  · by_cases hdec : env.Dec i.Name obj
    · have hleft : decProgram i.Name ∈ (loadIngressStages env i.Name obj s).2.attached := by
        rw [loadIngressStages_of_dec hdec, finishLoad_attached]
        exact List.mem_cons_self
      by_cases hret : (loadIngressStages env i.Name obj s).1 = 0
      · have hpass := (loadIngressStages_eq_zero_iff.1 hret).2
        rcases egress_iface with _ | e
        · rw [installStages_of_only hret]
          refine iff_of_true (fun h => absurd h Bool.false_ne_true)
            ⟨fun i' hi' _ => ?_, fun h => ?_⟩
          · exact ⟨hpass, fun e he => absurd he (by simp)⟩
          · exact absurd h (by simp)
        · rw [installStages_of_both hret, errorOf_isSome, errorOf_snd, ne_eq,
            loadEgressStages_eq_zero_iff]
          constructor
          · intro h
            refine ⟨fun i' hi' _ => ⟨hpass, fun e' he' => ?_⟩, fun h => absurd h (by simp)⟩
            obtain rfl := Option.some.inj he'
            -- Dec stays attached whatever the egress does, so there is no error.
            by_contra hegress
            have hmem : decProgram i.Name ∈ (loadEgressStages env e.Name obj
                (loadIngressStages env i.Name obj s).2).2.attached :=
              mem_loadEgressStages hleft rfl
            rw [h hegress] at hmem
            exact absurd hmem List.not_mem_nil
          · intro h hegress
            exact absurd ((h.after_dec i rfl hdec).2 e rfl) hegress
      · rw [installStages_of_ingress hret]
        refine iff_of_false (fun h => ?_) fun h => ?_
        · rw [h rfl] at hleft
          exact absurd hleft List.not_mem_nil
        · exact hret (loadIngressStages_eq_zero_iff.2 ⟨hdec, (h.after_dec i rfl hdec).1⟩)
    · obtain ⟨hret, hclean⟩ := loadIngressStages_of_not_dec (s := s) hdec
      rw [installStages_of_ingress hret]
      refine iff_of_true (fun _ => hclean hs) ⟨fun i' hi' hdec' => ?_, fun h => ?_⟩
      · obtain rfl := Option.some.inj hi'
        exact absurd hdec' hdec
      · exact absurd h (by simp)

/-! ## When the loaders keep their promises -/

/-- The ingress keeps its promise when what it does not test is there. -/
theorem ingressSound_iff : IngressSound env iface obj s ↔
    (env.Dec iface obj → (env.maps .ingressMac).Pass →
      (env.maps .ingressMac).Complete (env.hwaddr iface)) := by
  unfold IngressSound
  rw [loadIngressStages_eq_zero_iff, and_imp]
  refine forall_congr' fun hdec => forall_congr' fun hpass => ?_
  rw [loadIngressStages_of_dec hdec]
  refine loaded_finishLoad_iff (finishLoad_eq_zero_iff.2 hpass) ?_
  simp

/-- So does the egress. -/
theorem egressSound_iff : EgressSound env iface obj s ↔
    (env.EgressPass iface obj → (env.maps .egressMac).Complete (env.hwaddr iface)) := by
  unfold EgressSound
  rw [loadEgressStages_eq_zero_iff]
  refine forall_congr' fun hpass => ?_
  rw [loadEgressStages_of_fwd hpass.clsact hpass.enc hpass.fwd]
  refine loaded_finishLoad_iff (finishLoad_eq_zero_iff.2 hpass.maps) ?_
  simp

/-- `NewCBAgent` returns the errors of `installStages`. -/
theorem newCBAgent_of_interfaces {name ingress_ifname egress_ifname : String}
    {ingress_iface egress_iface : Option Interface}
    (h : findInterfaces env ingress_ifname egress_ifname = .ok (ingress_iface, egress_iface)) :
    (∀ err, (newCBAgent env name ingress_ifname egress_ifname obj s).1 = .error err →
      (newCBAgent env name ingress_ifname egress_ifname obj s).2.attached = []) ↔
    (((CBAgent.mk name ingress_iface egress_iface).installStages env obj s).1.isSome →
      ((CBAgent.mk name ingress_iface egress_iface).installStages env obj s).2.attached = []) := by
  unfold newCBAgent
  rw [h]
  dsimp only
  rcases (CBAgent.mk name ingress_iface egress_iface).installStages env obj s with ⟨_ | err, s'⟩
  · simp
  · simp

/-- `NewCBAgent` cleans up when `installStages` does, for the interfaces that it finds. -/
theorem cleansUp_iff (env : Env) (name ingress_ifname egress_ifname objpath : String)
    (macs : SrcMac) : CleansUp env name ingress_ifname egress_ifname objpath macs ↔
      ∀ ingress_iface egress_iface, findInterfaces env ingress_ifname egress_ifname =
        .ok (ingress_iface, egress_iface) →
          env.FailsCleanly ingress_iface egress_iface objpath := by
  unfold CleansUp
  rcases hfind : findInterfaces env ingress_ifname egress_ifname with
    err | ⟨ingress_iface, egress_iface⟩
  · -- No interface, no program.
    refine iff_of_true (fun _ _ => ?_) fun _ _ h => absurd h (by simp)
    unfold newCBAgent
    rw [hfind]
    rfl
  · rw [newCBAgent_of_interfaces hfind, installStages_clean_iff _ rfl]
    constructor
    · intro h ingress_iface' egress_iface' heq
      obtain ⟨rfl, rfl⟩ := Prod.mk.inj (Except.ok.inj heq)
      exact h
    · exact fun h => h _ _ rfl

/-- The three promises of loading, each with the steps for which it is kept: a loader that returns 0
has loaded everything, where a loader that passes its own tests also has the maps and the MAC that
it does not test; and an error of `NewCBAgent` leaves nothing attached, where it comes before the
first program or the only one can be removed. -/
theorem loading_iff (env : Env) (iface stages_obj name ingress_ifname egress_ifname : String)
    (s : System) (macs : SrcMac) :
    (IngressSound env iface stages_obj s ↔ (env.Dec iface stages_obj →
      (env.maps .ingressMac).Pass → (env.maps .ingressMac).Complete (env.hwaddr iface))) ∧
    (EgressSound env iface stages_obj s ↔ (env.EgressPass iface stages_obj →
      (env.maps .egressMac).Complete (env.hwaddr iface))) ∧
    (CleansUp env name ingress_ifname egress_ifname stages_obj macs ↔
      ∀ ingress_iface egress_iface, findInterfaces env ingress_ifname egress_ifname =
        .ok (ingress_iface, egress_iface) →
          env.FailsCleanly ingress_iface egress_iface stages_obj) :=
  ⟨ingressSound_iff, egressSound_iff, cleansUp_iff _ _ _ _ _ _⟩

/-! ## A failing call -/

/-- Loaders that cannot open `nsh_data`, and a `tc` that exits with 1 when it adds `clsact`. -/
def failingEnv : Env where
  interfaceByName name := .ok ⟨name⟩
  status
    | .clsact _ => 256
    | _ => 0
  hwaddr _ := .of 2 0 0 0 0 1
  maps _ := ⟨none, some 4, some 5, some 6, true, zeroMac, true⟩

/-- The map `src_mac` before it is written. -/
def zeroMacs : SrcMac := ⟨zeroMac, zeroMac⟩

/-- Dec is attached. -/
theorem failingEnv_dec (iface obj : String) : failingEnv.Dec iface obj := rfl

/-- The tests pass, although `nsh_data` cannot be opened. -/
theorem failingEnv_pass (idx : SrcmacIdx) : (failingEnv.maps idx).Pass :=
  ⟨by simp [failingEnv], by simp [failingEnv], ⟨5, by decide, rfl⟩, rfl⟩

/-- `load_ingress_stages` returns 0 without a handle for `nsh_data`, and after the error of the
egress Dec is still attached. -/
theorem not_loading_failing :
    ¬IngressSound failingEnv "eth0" "stages.o" (.start zeroMacs) ∧
      ¬CleansUp failingEnv "sf1" "eth0" "eth1" "stages.o" zeroMacs := by
  constructor
  · intro h
    have hcomplete := ingressSound_iff.1 h (failingEnv_dec _ _) (failingEnv_pass _)
    exact absurd hcomplete.nsh_data (by decide)
  · intro h
    have hfind : findInterfaces failingEnv "eth0" "eth1" =
        .ok (some ⟨"eth0"⟩, some ⟨"eth1"⟩) := rfl
    have hclean := (cleansUp_iff _ _ _ _ _ _).1 h _ _ hfind
    have hpass := (hclean.after_dec _ rfl (failingEnv_dec _ _)).2 _ rfl
    rcases hpass.clsact with hret | hret
    · exact absurd hret (by decide)
    · exact absurd hret (by decide)

end ChainingBox
