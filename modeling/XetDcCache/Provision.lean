/-
The testbed's provisioning and teardown (runpod_testbed: mechanisms/{shim,volumecache,
modelstore,base}.py, provision/{up,down,flash,volumes}.py, worker/plan.py).

`Cloud` is what a provision has created so far and the state file it has saved; `Remote` is how
the services answer it.  `provision` may raise at any of its calls, and `up.main` then runs
`teardownAll` on the state file; `Deletions` is how each deletion ends.

* `mem_cliUndeploy` — which endpoints an undeploy gets to;
* `ShimMechanism.createPods_keeps` — the shim saves every pod before it creates the next;
* `torn_down_iff` — when a failed provision is torn down whole.
-/
import XetDcCache.OrderedDict
import XetDcCache.Raising
import XetDcCache.Text

namespace XetDcCache

/-! ### The state file -/

inductive Mechanism
  | shim
  | volumecache
  | modelstore
deriving DecidableEq, Repr

def Mechanism.name : Mechanism → Str
  | .shim => "shim".toList
  | .volumecache => "volumecache".toList
  | .modelstore => "modelstore".toList

def baselineLabel : Str := "baseline".toList

def volumeLabel : Str := "volumecache".toList

def reusedPrefix : Str := "reused-".toList

def endpointName (label : Str) : Str := "xet-dl-".toList ++ label

def modelLabel (i : ℕ) : Str := 'm' :: (toString i).toList

def volumeName (runid : Str) : Str := "xet-vc-".toList ++ runid

/-- What `data/state-<runid>.json` holds. -/
structure ProvisionState where
  mechanism : Mechanism
  runid : Str
  endpoints : OrderedDict Str Str
  pods : OrderedDict Str Str
  volumes : OrderedDict Str Str
  metricsUrls : OrderedDict Str Str

def ProvisionState.new (mechanism : Mechanism) (runid : Str) : ProvisionState :=
  ⟨mechanism, runid, .empty, .empty, .empty, .empty⟩

/-- The settings a provision reads; `groups` are the keys of `overlap`. -/
structure TestbedConfig where
  models : List Str
  groups : List Str
  groups_nodup : groups.Nodup
  maxPods : ℕ
  volumeGb : ℤ
  modelstoreEndpoints : OrderedDict Str Str

/-! ### The planned endpoints -/

/-- The variables of `deploy_env` that the plan reads. -/
structure DeployEnv where
  mechanism : Mechanism
  models : Str
  volumeGb : Option ℤ

structure EndpointPlan where
  name : Str
  volumeGb : Option ℤ

def shimLabels : List Str := ["A".toList, "B".toList, "C".toList]

/-- The volume size of `worker_spec`. -/
def workerSpec (cfg : TestbedConfig) : Mechanism → Option ℤ
  | .volumecache => some cfg.volumeGb
  | _ => none

def deployEnv (m : Mechanism) (cfg : TestbedConfig) : DeployEnv :=
  ⟨m, List.intercalate [','] cfg.models, workerSpec cfg m⟩

/-- `plan_endpoints` on the models the worker reads from `MODELS`. -/
def planEndpoints (env : DeployEnv) : List EndpointPlan :=
  let models := (env.models.splitOn ',').filter (· ≠ [])
  ⟨endpointName baselineLabel, none⟩ ::
    match env.mechanism with
    | .shim => shimLabels.map fun g => ⟨endpointName g, none⟩
    | .volumecache =>
      let gb := env.volumeGb.getD 0
      [⟨endpointName volumeLabel, if gb = 0 then none else some gb⟩]
    | .modelstore =>
      (List.range models.length).map fun i => ⟨endpointName (modelLabel i), none⟩

/-! ### The services -/

/-- How the services answer a provision.  A pod is created for a group, and waited for by its
id; `deploys` are the endpoints a deploy creates of those it is to, `volume` is the volume it
creates if one is planned, and `deployOk` says whether it then succeeds; `manifest` has the
resources it wrote, with their endpoint ids; `listed` are the network volumes (name and id),
and `live` the endpoints of the account. -/
structure Remote where
  hfToken : Option Str
  apiKey : Option Str
  createPod : Str → Option Str
  waitPod : Str → Option Str
  deploys : Str → Bool
  volume : Option Str
  deployOk : Bool
  manifest : Option (List (Str × Option Str))
  listed : Option (List (Option Str × Option Str))
  live : Option (List Str)

/-- Where a provision raises. -/
inductive Raise
  | maxPods
  | environ
  | createPod
  | waitPod
  | deploy
  | manifest
  | listVolumes
  | validateReused
deriving DecidableEq, Repr

/-- What has been created, and the state that was saved last. -/
structure Cloud where
  pods : List Str
  endpoints : List Str
  volumes : List Str
  saved : Option ProvisionState

def Cloud.empty : Cloud := ⟨[], [], [], none⟩

abbrev Call (α : Type) := Raising Cloud Raise α

namespace Remote

variable (r : Remote)

/-- The endpoints a deploy creates. -/
def created (env : DeployEnv) : List Str := ((planEndpoints env).map (·.name)).filter r.deploys

/-- The volume it creates. -/
def createdVolumes (env : DeployEnv) : List Str :=
  if (planEndpoints env).any (·.volumeGb.isSome) then r.volume.toList else []

/-- The endpoint ids of a manifest, keyed by what follows the last dash of a name. -/
def endpointIds (resources : List (Str × Option Str)) : Option (OrderedDict Str Str) :=
  resources.foldlM (fun out e => e.2.map fun id =>
    out.set (e.1.reverse.takeWhile (· ≠ '-')).reverse id) .empty

def manifestEndpointIds : Option (OrderedDict Str Str) := r.manifest.bind endpointIds

end Remote

def findVolumeId (name : Str) (volumes : List (Option Str × Option Str)) : Option Str :=
  (volumes.find? (·.1 = some name)).bind Prod.snd

def save (st : ProvisionState) : Call Unit := .modify fun c => { c with saved := some st }

def flashDeploy (r : Remote) (env : DeployEnv) : Call Unit := do
  Raising.modify fun c => { c with
    endpoints := c.endpoints ++ r.created env
    volumes := c.volumes ++ r.createdVolumes env }
  if r.deployOk then pure () else Raising.raise .deploy

/-! ### Provisioning -/

namespace ShimMechanism

/-- The loop that creates the pods, one state file for each. -/
def createPods (r : Remote) : List Str → ProvisionState → Call ProvisionState
  | [], st => pure st
  | g :: gs, st => do
    let pid ← Raising.require .createPod (r.createPod g)
    Raising.modify fun c => { c with pods := c.pods ++ [pid] }
    let st := { st with pods := st.pods.set g pid }
    save st
    createPods r gs st

/-- The loop that waits for their addresses and their health. -/
def waitPods (r : Remote) : List (Str × Str) → ProvisionState → Call ProvisionState
  | [], st => pure st
  | (g, pid) :: pods, st => do
    let addr ← Raising.require .waitPod (r.waitPod pid)
    waitPods r pods { st with metricsUrls := st.metricsUrls.set g addr }

def provision (cfg : TestbedConfig) (runid : Str) (r : Remote) : Call ProvisionState := do
  -- Fleet()
  let _ ← Raising.require .environ r.apiKey
  if cfg.groups.length > cfg.maxPods then Raising.raise .maxPods
  else
    let st ← createPods r cfg.groups (.new .shim runid)
    let st ← waitPods r st.pods.items st
    let _ ← Raising.require .environ r.hfToken
    flashDeploy r (deployEnv .shim cfg)
    let ids ← Raising.require .manifest r.manifestEndpointIds
    let st := { st with endpoints := ids }
    save st
    pure st

end ShimMechanism

namespace VolumeCacheMechanism

def provision (cfg : TestbedConfig) (runid : Str) (r : Remote) : Call ProvisionState := do
  let st := ProvisionState.new .volumecache runid
  save st
  let _ ← Raising.require .environ r.hfToken
  flashDeploy r (deployEnv .volumecache cfg)
  let ids ← Raising.require .manifest r.manifestEndpointIds
  let _ ← Raising.require .environ r.apiKey
  let listed ← Raising.require .listVolumes r.listed
  let st := { st with
    endpoints := ids
    volumes :=
      match findVolumeId (volumeName runid) listed with
      | some vid => if vid = [] then st.volumes else st.volumes.set volumeLabel vid
      | none => st.volumes }
  save st
  pure st

end VolumeCacheMechanism

namespace ModelStoreMechanism

/-- What `_validate_reused` returns, if every model is mapped, to an endpoint of the account. -/
def validateReused (cfg : TestbedConfig) (r : Remote) : Option (OrderedDict Str Str) :=
  if cfg.models.any (· ∉ cfg.modelstoreEndpoints.keys) then none
  else
    r.live.bind fun live =>
      if cfg.modelstoreEndpoints.items.any (·.2 ∉ live) then none
      else
        some (cfg.models.zipIdx.foldl (fun d e => d.set (reusedPrefix ++ modelLabel e.2)
          ((cfg.modelstoreEndpoints.get? e.1).getD [])) .empty)

/-- The endpoints of an earlier run, checked before any spend. -/
def reusedEndpoints (cfg : TestbedConfig) (r : Remote) : Call (OrderedDict Str Str) :=
  if cfg.modelstoreEndpoints.items = [] then pure .empty
  else do
    let _ ← Raising.require .environ r.apiKey
    Raising.require .validateReused (validateReused cfg r)

/-- With endpoints to reuse, `MODELS` is emptied: the baseline is all that is deployed. -/
def modelsEnv (cfg : TestbedConfig) : DeployEnv :=
  if cfg.modelstoreEndpoints.items = [] then deployEnv .modelstore cfg
  else { deployEnv .modelstore cfg with models := [] }

/-- What `declare_cached_models` may raise: a declaration that fails is only reported. -/
def declareCachedModels (r : Remote) : Call Unit := do
  let _ ← Raising.require .environ r.apiKey
  pure ()

def provision (cfg : TestbedConfig) (runid : Str) (r : Remote) : Call ProvisionState := do
  let st := ProvisionState.new .modelstore runid
  let _ ← Raising.require .environ r.hfToken
  let reused ← reusedEndpoints cfg r
  save st
  flashDeploy r (modelsEnv cfg)
  let ids ← Raising.require .manifest r.manifestEndpointIds
  let st := { st with endpoints := reused.items.foldl (fun d e => d.set e.1 e.2) ids }
  save st
  if reused.items = [] then declareCachedModels r else pure ()
  pure st

end ModelStoreMechanism

def provision : Mechanism → TestbedConfig → Str → Remote → Call ProvisionState
  | .shim => ShimMechanism.provision
  | .volumecache => VolumeCacheMechanism.provision
  | .modelstore => ModelStoreMechanism.provision

/-! ### Teardown -/

/-- How the deletions end: the exit status of `flash undeploy`, if it can be run at all, and
the error of a request to the API. -/
structure Deletions where
  undeploy : Str → Except Str ℤ
  terminatePod : Str → Option Str
  deleteVolume : Str → Option Str

/-- A deletion that is attempted. -/
inductive Attempt
  | endpoint (name : Str)
  | pod (id : Str)
  | volume (id : Str)
deriving DecidableEq, Repr

/-- What a call deletes, and the error it raises, if any. -/
structure Torn where
  attempts : List Attempt
  raised : Option Str

/-- `cli_undeploy`: an exit status is not looked at, but an error ends the loop. -/
def cliUndeploy (d : Deletions) : List Str → Torn
  | [] => ⟨[], none⟩
  | name :: names =>
    match d.undeploy name with
    | .error e => ⟨[.endpoint name], some e⟩
    | .ok _ =>
      let rest := cliUndeploy d names
      ⟨.endpoint name :: rest.attempts, rest.raised⟩

/-- `down.teardown` on a list of pods, with what it returns: it catches every error. -/
def teardown (d : Deletions) (flashEnv : Str) (pods : List Str) : List Attempt × List Str :=
  let own := cliUndeploy d (shimLabels.map endpointName)
  (own.attempts ++ pods.map .pod,
    (own.raised.map fun _ => flashEnv).toList ++ pods.filter fun pid => (d.terminatePod pid).isSome)

def ShimMechanism.teardown (d : Deletions) (st : ProvisionState) : Torn :=
  ⟨(XetDcCache.teardown d ("xet-".toList ++ st.runid) (st.pods.items.map Prod.snd)).1, none⟩

def VolumeCacheMechanism.teardown (d : Deletions) (_ : ProvisionState) : Torn :=
  cliUndeploy d [endpointName volumeLabel]

/-- The endpoints a state names as this run's own. -/
def ModelStoreMechanism.owned (endpoints : OrderedDict Str Str) : List Str :=
  (endpoints.keys.filter fun label => label ≠ baselineLabel ∧ ¬ reusedPrefix <+: label).map
    endpointName

def ModelStoreMechanism.teardown (d : Deletions) (st : ProvisionState) : Torn :=
  cliUndeploy d (ModelStoreMechanism.owned st.endpoints)

def Mechanism.teardown : Mechanism → Deletions → ProvisionState → Torn
  | .shim => ShimMechanism.teardown
  | .volumecache => VolumeCacheMechanism.teardown
  | .modelstore => ModelStoreMechanism.teardown

/-- The attempts of `teardown_all`, and the errors it returns. -/
def teardownAll (m : Mechanism) (d : Deletions) (st : ProvisionState) : List Attempt × List Str :=
  let own := m.teardown d st
  let base := cliUndeploy d [endpointName baselineLabel]
  (own.attempts ++ base.attempts ++ st.volumes.items.map fun e => .volume e.2,
    (own.raised.map (m.name ++ " teardown: ".toList ++ ·)).toList ++
    (base.raised.map ("baseline undeploy: ".toList ++ ·)).toList ++
    st.volumes.items.filterMap fun e => (d.deleteVolume e.2).map fun err =>
      "volume ".toList ++ e.1 ++ '=' :: e.2 ++ ": ".toList ++ err)

/-- What `up.main` does when a provision has raised: it reads back the state file, and does
nothing if there is none. -/
def tearDownFailed (m : Mechanism) (d : Deletions) (c : Cloud) : List Attempt :=
  (c.saved.map fun st => (teardownAll m d st).1).getD []

/-! ### What a teardown gets to -/

/-- An undeploy of `names` gets to `name`: what stands before it can be run. -/
def Deletions.Reaches (d : Deletions) (names : List Str) (name : Str) : Prop :=
  ∃ before after, names = before ++ name :: after ∧ ∀ n ∈ before, ∃ code, d.undeploy n = .ok code

section Teardown

variable {d : Deletions} {m : Mechanism} {st : ProvisionState} {name : Str}

@[simp] theorem Deletions.reaches_nil : ¬ d.Reaches [] name := by
  rintro ⟨before, after, heq, -⟩
  cases before <;> cases heq

theorem Deletions.reaches_cons {n : Str} {names : List Str} :
    d.Reaches (n :: names) name ↔
      name = n ∨ (∃ code, d.undeploy n = .ok code) ∧ d.Reaches names name := by
  constructor
  · rintro ⟨before, after, heq, hrun⟩
    cases before with
    | nil => exact Or.inl (List.cons_eq_cons.mp heq).1.symm
    | cons b before =>
      obtain ⟨rfl, rfl⟩ := List.cons_eq_cons.mp heq
      exact Or.inr ⟨hrun _ List.mem_cons_self, before, after, rfl,
        fun x hx => hrun x (List.mem_cons_of_mem _ hx)⟩
  · rintro (rfl | ⟨hrun, before, after, rfl, hrest⟩)
    · exact ⟨[], names, rfl, nofun⟩
    · exact ⟨n :: before, after, rfl, fun x hx => (List.mem_cons.mp hx).elim (· ▸ hrun) (hrest x)⟩

theorem mem_cliUndeploy {names : List Str} {a : Attempt} :
    a ∈ (cliUndeploy d names).attempts ↔ ∃ name, a = .endpoint name ∧ d.Reaches names name := by
  induction names with
  | nil => simp [cliUndeploy]
  | cons n names ih =>
    simp only [Deletions.reaches_cons]
    rw [cliUndeploy]
    cases hn : d.undeploy n with
    | error e => simp
    | ok code =>
      simp only [List.mem_cons, ih, Except.ok.injEq, exists_eq', true_and]
      constructor
      · rintro (rfl | ⟨name, rfl, hname⟩)
        · exact ⟨n, rfl, Or.inl rfl⟩
        · exact ⟨name, rfl, Or.inr hname⟩
      · rintro ⟨name, rfl, rfl | hname⟩
        · exact Or.inl rfl
        · exact Or.inr ⟨name, rfl, hname⟩

/-- The endpoints the teardown of a mechanism undeploys, in their order. -/
def Mechanism.undeploys (st : ProvisionState) : Mechanism → List Str
  | .shim => shimLabels.map endpointName
  | .volumecache => [endpointName volumeLabel]
  | .modelstore => ModelStoreMechanism.owned st.endpoints

theorem endpoint_mem_teardownAll :
    .endpoint name ∈ (teardownAll m d st).1 ↔
      name = endpointName baselineLabel ∨ d.Reaches (m.undeploys st) name := by
  have hbase : d.Reaches [endpointName baselineLabel] name ↔ name = endpointName baselineLabel := by
    simp [Deletions.reaches_cons]
  have hown : .endpoint name ∈ (m.teardown d st).attempts ↔ d.Reaches (m.undeploys st) name := by
    cases m with
    | shim => simp [Mechanism.teardown, ShimMechanism.teardown, teardown, mem_cliUndeploy,
        Mechanism.undeploys]
    | volumecache => simp [Mechanism.teardown, VolumeCacheMechanism.teardown, mem_cliUndeploy,
        Mechanism.undeploys]
    | modelstore => simp [Mechanism.teardown, ModelStoreMechanism.teardown, mem_cliUndeploy,
        Mechanism.undeploys]
  simp [teardownAll, hown, mem_cliUndeploy, hbase, or_comm]

theorem volume_mem_teardownAll {v : Str} :
    .volume v ∈ (teardownAll m d st).1 ↔ v ∈ st.volumes.items.map Prod.snd := by
  have hown : .volume v ∉ (m.teardown d st).attempts := by
    cases m <;> simp [Mechanism.teardown, ShimMechanism.teardown, teardown,
      VolumeCacheMechanism.teardown, ModelStoreMechanism.teardown, mem_cliUndeploy]
  simp [teardownAll, hown, mem_cliUndeploy]

theorem pod_mem_teardownAll {pid : Str} (hpid : pid ∈ st.pods.items.map Prod.snd) :
    .pod pid ∈ (teardownAll .shim d st).1 := by
  obtain ⟨e, he, rfl⟩ := List.mem_map.mp hpid
  refine List.mem_append_left _ (List.mem_append_left _ ?_)
  exact List.mem_append_right _ (List.mem_map.mpr ⟨e.2, List.mem_map.mpr ⟨e, he, rfl⟩, rfl⟩)

end Teardown

/-! ### What a failed provision has created -/

/-- Whatever has been created is to be deleted. -/
structure Cloud.Covered (c : Cloud) (attempts : List Attempt) : Prop where
  pods : ∀ pid ∈ c.pods, .pod pid ∈ attempts
  endpoints : ∀ name ∈ c.endpoints, .endpoint name ∈ attempts
  volumes : ∀ v ∈ c.volumes, .volume v ∈ attempts

/-- If the provision raises, what it has created is torn down. -/
def LeavesNothing (m : Mechanism) (cfg : TestbedConfig) (runid : Str) (r : Remote)
    (d : Deletions) : Prop :=
  ∀ c, (provision m cfg runid r).Raises .empty c → c.Covered (tearDownFailed m d c)

section Deploy

variable {r : Remote} {env : DeployEnv} {c c' : Cloud}

/-- What a deploy leaves. -/
def Cloud.deployed (c : Cloud) (r : Remote) (env : DeployEnv) : Cloud :=
  { c with
    endpoints := c.endpoints ++ r.created env
    volumes := c.volumes ++ r.createdVolumes env }

@[simp] theorem returns_flashDeploy {u : Unit} :
    (flashDeploy r env).Returns c u c' ↔ r.deployOk ∧ c.deployed r env = c' := by
  cases h : r.deployOk <;> simp [flashDeploy, h, Cloud.deployed]

@[simp] theorem raises_flashDeploy :
    (flashDeploy r env).Raises c c' ↔ r.deployOk = false ∧ c.deployed r env = c' := by
  cases h : r.deployOk <;> simp [flashDeploy, h, Cloud.deployed]

@[simp] theorem returns_save {st : ProvisionState} {u : Unit} :
    (save st).Returns c u c' ↔ { c with saved := some st } = c' := by
  simp [save]

@[simp] theorem raises_save {st : ProvisionState} : ¬ (save st).Raises c c' := by
  simp [save]

end Deploy

/-- What is deleted of a cloud with a state file. -/
theorem covered_saved {m : Mechanism} {d : Deletions} {c : Cloud} {st : ProvisionState}
    (hst : c.saved = some st) (hpods : ∀ pid ∈ c.pods, .pod pid ∈ (teardownAll m d st).1) :
    c.Covered (tearDownFailed m d c) ↔
      (∀ name ∈ c.endpoints,
        name = endpointName baselineLabel ∨ d.Reaches (m.undeploys st) name) ∧
      ∀ v ∈ c.volumes, v ∈ st.volumes.items.map Prod.snd := by
  have hdown : tearDownFailed m d c = (teardownAll m d st).1 := by
    rw [tearDownFailed, hst]
    rfl
  rw [hdown]
  constructor
  · intro h
    exact ⟨fun name hname => endpoint_mem_teardownAll.mp (h.endpoints name hname),
      fun v hv => volume_mem_teardownAll.mp (h.volumes v hv)⟩
  · rintro ⟨hend, hvol⟩
    exact ⟨hpods, fun name hname => endpoint_mem_teardownAll.mpr (hend name hname),
      fun v hv => volume_mem_teardownAll.mpr (hvol v hv)⟩

/-! ### The mechanisms -/

section Mechanisms

variable {cfg : TestbedConfig} {runid : Str} {r : Remote} {d : Deletions}

/-- A cloud with nothing but the first state file. -/
def Cloud.started (m : Mechanism) (runid : Str) : Cloud :=
  { Cloud.empty with saved := some (.new m runid) }

/-- All that follows the deploy up to the last state file goes well. -/
def Remote.finishes (r : Remote) : Mechanism → Prop
  | .shim => r.deployOk ∧ r.manifestEndpointIds.isSome
  | .volumecache => r.deployOk ∧ r.manifestEndpointIds.isSome ∧ r.apiKey.isSome ∧ r.listed.isSome
  | .modelstore => r.deployOk ∧ r.manifestEndpointIds.isSome ∧ r.apiKey.isSome

theorem VolumeCacheMechanism.raises_iff {c : Cloud} :
    (provision cfg runid r).Raises .empty c ↔
      r.hfToken = none ∧ .started .volumecache runid = c ∨
        r.hfToken.isSome ∧ ¬ r.finishes .volumecache ∧
          (Cloud.started .volumecache runid).deployed r (deployEnv .volumecache cfg) = c := by
  simp only [provision, Raising.raises_bind, raises_save, returns_save, Raising.raises_require,
    Raising.returns_require, raises_flashDeploy, returns_flashDeploy, Raising.raises_pure,
    Remote.finishes]
  cases r.hfToken <;> cases r.deployOk <;> cases r.manifestEndpointIds <;> cases r.apiKey <;>
    cases r.listed <;> simp [Cloud.started]

theorem pods_covered {m : Mechanism} {c : Cloud} {st : ProvisionState} (h : c.pods = []) :
    ∀ pid ∈ c.pods, .pod pid ∈ (teardownAll m d st).1 := by
  rw [h]
  exact nofun

theorem covered_empty (m : Mechanism) (d : Deletions) :
    Cloud.empty.Covered (tearDownFailed m d .empty) := ⟨nofun, nofun, nofun⟩

/-- With the first state file alone, only what has a constant name is deleted. -/
theorem covered_deployed {m : Mechanism} {env : DeployEnv} :
    ((Cloud.started m runid).deployed r env).Covered
        (tearDownFailed m d ((Cloud.started m runid).deployed r env)) ↔
      (∀ name ∈ r.created env, name = endpointName baselineLabel ∨
        d.Reaches (m.undeploys (.new m runid)) name) ∧ r.createdVolumes env = [] := by
  rw [covered_saved rfl (pods_covered rfl)]
  refine and_congr_right fun _ => ?_
  show (∀ v ∈ r.createdVolumes env, v ∈ []) ↔ _
  rw [List.eq_nil_iff_forall_not_mem]
  simp only [List.not_mem_nil]

/-- Only the volume is not in the first state file. -/
theorem VolumeCacheMechanism.leavesNothing_iff :
    LeavesNothing .volumecache cfg runid r d ↔
      (r.hfToken.isSome → ¬ r.finishes .volumecache →
        r.createdVolumes (deployEnv .volumecache cfg) = []) := by
  have hstart : (Cloud.started .volumecache runid).Covered
      (tearDownFailed .volumecache d (.started .volumecache runid)) :=
    (covered_saved rfl (pods_covered rfl)).mpr
      ⟨fun _ hname => (List.not_mem_nil hname).elim, fun _ hv => (List.not_mem_nil hv).elim⟩
  -- both planned endpoints have constant names
  have hplan : ∀ name ∈ r.created (deployEnv .volumecache cfg),
      name = endpointName baselineLabel ∨
        d.Reaches (Mechanism.undeploys (.new .volumecache runid) .volumecache) name := by
    intro name hname
    simpa [planEndpoints, deployEnv, Mechanism.undeploys, Deletions.reaches_cons] using
      List.mem_of_mem_filter hname
  constructor
  · intro h htoken hfail
    exact (covered_deployed.mp (h _ (raises_iff.mpr (Or.inr ⟨htoken, hfail, rfl⟩)))).2
  · intro h c hc
    rcases raises_iff.mp hc with ⟨-, rfl⟩ | ⟨htoken, hfail, rfl⟩
    · exact hstart
    · exact covered_deployed.mpr ⟨hplan, h htoken hfail⟩

/-- The first state file names no endpoint; the last names those of the manifest. -/
theorem ModelStoreMechanism.raises_iff {c : Cloud} (hown : cfg.modelstoreEndpoints.items = []) :
    (provision cfg runid r).Raises .empty c ↔
      r.hfToken = none ∧ .empty = c ∨
        r.hfToken.isSome ∧ ¬ (r.deployOk ∧ r.manifestEndpointIds.isSome) ∧
          (Cloud.started .modelstore runid).deployed r (modelsEnv cfg) = c ∨
        r.hfToken.isSome ∧ r.deployOk ∧ r.apiKey = none ∧ ∃ ids ∈ r.manifestEndpointIds,
          { (Cloud.started .modelstore runid).deployed r (modelsEnv cfg) with
            saved := some { ProvisionState.new .modelstore runid with endpoints := ids } } = c := by
  have hreused : reusedEndpoints cfg r = pure .empty := if_pos hown
  simp only [provision, hreused, declareCachedModels, Raising.raises_bind, raises_save,
    returns_save, Raising.raises_require, Raising.returns_require, raises_flashDeploy,
    returns_flashDeploy, Raising.raises_pure, Raising.returns_pure]
  cases r.hfToken <;> cases r.deployOk <;> cases r.manifestEndpointIds <;> cases r.apiKey <;>
    simp [Cloud.started]

/-- With endpoints to reuse, nothing is checked after the deploy. -/
theorem ModelStoreMechanism.raises_reuse {c : Cloud} (hreuse : cfg.modelstoreEndpoints.items ≠ [])
    (h : (provision cfg runid r).Raises .empty c) :
    .empty = c ∨ (Cloud.started .modelstore runid).deployed r (modelsEnv cfg) = c := by
  simp only [provision, reusedEndpoints, if_neg hreuse, declareCachedModels, Raising.raises_bind,
    Raising.returns_bind, Raising.raises_ite, raises_save, returns_save, Raising.raises_require,
    Raising.returns_require, raises_flashDeploy, returns_flashDeploy, Raising.raises_pure, or_false,
    false_or, and_false, exists_false] at h
  rcases h with ⟨-, hc⟩ | ⟨_, _, ⟨-, rfl⟩, (⟨-, hc⟩ | ⟨_, _, ⟨-, rfl⟩, -, hc⟩) |
    ⟨_, _, ⟨key, _, ⟨hkey, rfl⟩, -, rfl⟩, _, _, rfl, ⟨-, hc⟩ | ⟨_, _, ⟨-, rfl⟩, ⟨-, hc⟩ |
      ⟨_, _, ⟨-, rfl⟩, _, _, rfl, -, hnone, -⟩⟩⟩⟩
  · exact Or.inl hc
  · exact Or.inl hc
  · exact Or.inl hc
  · exact Or.inr hc
  · exact Or.inr hc
  · -- the models are declared only with the key that was there before
    rw [hkey] at hnone
    cases hnone

/-- An endpoint of a model is deleted only if the last state file was saved, and names it. -/
theorem ModelStoreMechanism.leavesNothing_iff :
    LeavesNothing .modelstore cfg runid r d ↔
      (r.hfToken.isSome → ¬ r.finishes .modelstore → ∀ name ∈ r.created (modelsEnv cfg),
        name = endpointName baselineLabel ∨
          r.deployOk ∧ ∃ ids ∈ r.manifestEndpointIds, d.Reaches (owned ids) name) := by
  have hvolumes : r.createdVolumes (modelsEnv cfg) = [] := by
    rw [Remote.createdVolumes, if_neg]
    rw [modelsEnv]
    split <;> simp [planEndpoints, deployEnv]
  by_cases hown : cfg.modelstoreEndpoints.items = []
  · constructor
    · intro h htoken hfail name hname
      by_cases hdone : r.deployOk ∧ r.manifestEndpointIds.isSome
      · obtain ⟨ids, hids⟩ := Option.isSome_iff_exists.mp hdone.2
        have hkey : r.apiKey = none := by
          by_contra hkey
          exact hfail ⟨hdone.1, hdone.2, Option.isSome_iff_ne_none.mpr hkey⟩
        have hcov := h _ ((raises_iff hown).mpr
          (Or.inr (Or.inr ⟨htoken, hdone.1, hkey, ids, hids, rfl⟩)))
        rw [covered_saved rfl (pods_covered rfl)] at hcov
        exact (hcov.1 name hname).imp_right fun h => ⟨hdone.1, ids, hids, h⟩
      · have hcov := covered_deployed.mp
          (h _ ((raises_iff hown).mpr (Or.inr (Or.inl ⟨htoken, hdone, rfl⟩))))
        -- the first state file names no endpoint
        exact (hcov.1 name hname).imp_right fun h => absurd h Deletions.reaches_nil
    · intro h c hc
      rcases (raises_iff hown).mp hc with ⟨-, rfl⟩ | ⟨htoken, hdone, rfl⟩ |
        ⟨htoken, hok, hkey, ids, hids, rfl⟩
      · exact covered_empty .modelstore d
      · refine covered_deployed.mpr ⟨fun name hname => Or.inl ?_, hvolumes⟩
        refine (h htoken (fun hfin => hdone ⟨hfin.1, hfin.2.1⟩) name hname).resolve_right ?_
        rintro ⟨hok, ids, hids, -⟩
        exact hdone ⟨hok, Option.isSome_iff_exists.mpr ⟨ids, hids⟩⟩
      · rw [covered_saved rfl (pods_covered rfl)]
        refine ⟨fun name hname => ?_, fun v hv => ?_⟩
        · have hfail : ¬ r.finishes .modelstore := fun hfin => by
            have := hfin.2.2
            rw [hkey] at this
            cases this
          refine (h htoken hfail name hname).imp_right ?_
          rintro ⟨-, ids', hids', hreach⟩
          rw [Option.mem_def, hids, Option.some_inj] at hids'
          exact hids' ▸ hreach
        · have hv' : v ∈ r.createdVolumes (modelsEnv cfg) := hv
          rw [hvolumes] at hv'
          cases hv'
  · -- the baseline is all that is planned
    have hplan : ∀ name ∈ r.created (modelsEnv cfg), name = endpointName baselineLabel := by
      intro name hname
      have hmem := List.mem_of_mem_filter hname
      rw [modelsEnv, if_neg hown] at hmem
      simpa [planEndpoints, deployEnv] using hmem
    refine iff_of_true (fun c hc => ?_) fun _ _ name hname => Or.inl (hplan name hname)
    rcases raises_reuse hown hc with rfl | rfl
    · exact covered_empty .modelstore d
    · exact covered_deployed.mpr ⟨fun name hname => Or.inl (hplan name hname), hvolumes⟩

/-- So far pods are all that has been created, and the state file names them all. -/
structure ShimMechanism.Saved (st : ProvisionState) (c : Cloud) : Prop where
  pods : c.pods = st.pods.items.map Prod.snd
  endpoints : c.endpoints = []
  volumes : c.volumes = []
  saved : c.saved = none ∧ st.pods.items = [] ∨
    st.pods.items ≠ [] ∧ ∃ st', c.saved = some st' ∧ st'.pods = st.pods

/-- A pod is in the state file before the next one is created. -/
theorem ShimMechanism.createPods_keeps (gs : List Str) (st : ProvisionState)
    (hgs : gs.Nodup) (hnew : ∀ g ∈ gs, g ∉ st.pods.keys) :
    Raising.Keeps (Saved st) (createPods r gs st)
      (fun st' c => Saved st' c ∧ ∃ pods, st'.pods.items = st.pods.items ++ pods ∧
        pods.map Prod.fst = gs ∧ ∀ e ∈ pods, r.createPod e.1 = some e.2)
      (fun c => (∃ st', Saved st' c) ∧ ∃ g ∈ gs, r.createPod g = none) := by
  induction gs generalizing st with
  | nil =>
    intro c hc
    rw [createPods]
    refine ⟨fun st' c' h => ?_, fun c' h => absurd h Raising.raises_pure⟩
    obtain ⟨rfl, rfl⟩ := Raising.returns_pure.mp h
    exact ⟨hc, [], by simp⟩
  | cons g gs ih =>
    intro c hc
    obtain ⟨hg, hgs⟩ := List.nodup_cons.mp hgs
    have hitems : ∀ pid, (st.pods.set g pid).items = st.pods.items ++ [(g, pid)] :=
      OrderedDict.set_items_new (hnew g List.mem_cons_self)
    have hrest : ∀ pid, ∀ g' ∈ gs, g' ∉ (st.pods.set g pid).keys := by
      intro pid g' hg' hmem
      rw [OrderedDict.keys, hitems, List.map_append, List.mem_append] at hmem
      rcases hmem with hmem | hmem
      · exact hnew g' (List.mem_cons_of_mem _ hg') hmem
      · rw [List.map_singleton, List.mem_singleton] at hmem
        have heq : g' = g := hmem
        exact hg (heq ▸ hg')
    -- `save` follows each pod at once, so the next one starts from a saved state
    have hsaved : ∀ pid, Saved { st with pods := st.pods.set g pid }
        { c with pods := c.pods ++ [pid]
                 saved := some { st with pods := st.pods.set g pid } } := by
      intro pid
      refine ⟨?_, hc.endpoints, hc.volumes, Or.inr ⟨?_, _, rfl, rfl⟩⟩
      · show c.pods ++ [pid] = _
        rw [hitems, hc.pods, List.map_append]
        rfl
      · simp [hitems]
    simp only [createPods, Raising.returns_bind, Raising.raises_bind, Raising.returns_require,
      Raising.raises_require, Raising.returns_modify, Raising.raises_modify, returns_save,
      raises_save, false_or]
    constructor
    · rintro st' c' ⟨pid, _, ⟨hpid, rfl⟩, _, _, rfl, _, _, rfl, h⟩
      obtain ⟨hst', pods, hpods, hkeys, hcreated⟩ :=
        (ih { st with pods := st.pods.set g pid } hgs (hrest pid) _ (hsaved pid)).1 st' c' h
      refine ⟨hst', (g, pid) :: pods, ?_, by rw [List.map_cons, hkeys], ?_⟩
      · rw [hpods, hitems, List.append_assoc, List.singleton_append]
      · intro e he
        rcases List.mem_cons.mp he with rfl | he
        · exact hpid
        · exact hcreated e he
    · rintro c' (⟨hnone, rfl⟩ | ⟨pid, _, ⟨hpid, rfl⟩, _, _, rfl, _, _, rfl, h⟩)
      · exact ⟨⟨st, hc⟩, g, List.mem_cons_self, hnone⟩
      · obtain ⟨hst', g', hg', hnone⟩ :=
          (ih { st with pods := st.pods.set g pid } hgs (hrest pid) _ (hsaved pid)).2 c' h
        exact ⟨hst', g', List.mem_cons_of_mem _ hg', hnone⟩

theorem ShimMechanism.createPods_returns (gs : List Str) (st : ProvisionState) (c : Cloud)
    (h : ∀ g ∈ gs, (r.createPod g).isSome) : ∃ st' c', (createPods r gs st).Returns c st' c' := by
  induction gs generalizing st c with
  | nil => exact ⟨st, c, Raising.returns_pure.mpr ⟨rfl, rfl⟩⟩
  | cons g gs ih =>
    obtain ⟨pid, hpid⟩ := Option.isSome_iff_exists.mp (h g List.mem_cons_self)
    obtain ⟨st', c', hret⟩ := ih { st with pods := st.pods.set g pid }
      { c with pods := c.pods ++ [pid]
               saved := some { st with pods := st.pods.set g pid } }
      fun g' hg' => h g' (List.mem_cons_of_mem _ hg')
    refine ⟨st', c', ?_⟩
    simp only [createPods, Raising.returns_bind, Raising.returns_require, Raising.returns_modify,
      returns_save]
    exact ⟨pid, c, ⟨hpid, rfl⟩, (), _, rfl, (), _, rfl, hret⟩

/-- Waiting changes nothing that a teardown reads. -/
theorem ShimMechanism.waitPods_keeps (pods : List (Str × Str)) (st : ProvisionState) (c : Cloud) :
    Raising.Keeps (· = c) (waitPods r pods st)
      (fun st' c' => c' = c ∧ st'.pods = st.pods ∧ ∀ e ∈ pods, (r.waitPod e.2).isSome)
      (fun c' => c' = c ∧ ∃ e ∈ pods, r.waitPod e.2 = none) := by
  induction pods generalizing st with
  | nil =>
    rintro c rfl
    rw [waitPods]
    refine ⟨fun st' c' h => ?_, fun c' h => absurd h Raising.raises_pure⟩
    obtain ⟨rfl, rfl⟩ := Raising.returns_pure.mp h
    exact ⟨rfl, rfl, nofun⟩
  | cons e pods ih =>
    rintro c rfl
    obtain ⟨g, pid⟩ := e
    simp only [waitPods, Raising.returns_bind, Raising.raises_bind, Raising.returns_require,
      Raising.raises_require]
    constructor
    · rintro st' c' ⟨addr, _, ⟨haddr, rfl⟩, h⟩
      obtain ⟨rfl, hpods, hall⟩ := (ih _ _ rfl).1 st' c' h
      refine ⟨rfl, hpods, fun e he => ?_⟩
      rcases List.mem_cons.mp he with rfl | he
      · rw [haddr]
        rfl
      · exact hall e he
    · rintro c' (⟨hnone, rfl⟩ | ⟨addr, _, ⟨haddr, rfl⟩, h⟩)
      · exact ⟨rfl, _, List.mem_cons_self, hnone⟩
      · obtain ⟨rfl, e, he, hnone⟩ := (ih _ _ rfl).2 c' h
        exact ⟨rfl, e, List.mem_cons_of_mem _ he, hnone⟩

theorem ShimMechanism.waitPods_returns (pods : List (Str × Str)) (st : ProvisionState) (c : Cloud)
    (h : ∀ e ∈ pods, (r.waitPod e.2).isSome) : ∃ st', (waitPods r pods st).Returns c st' c := by
  induction pods generalizing st with
  | nil => exact ⟨st, Raising.returns_pure.mpr ⟨rfl, rfl⟩⟩
  | cons e pods ih =>
    obtain ⟨addr, haddr⟩ := Option.isSome_iff_exists.mp (h e List.mem_cons_self)
    obtain ⟨st', hret⟩ := ih { st with metricsUrls := st.metricsUrls.set e.1 addr }
      fun e' he' => h e' (List.mem_cons_of_mem _ he')
    refine ⟨st', ?_⟩
    simp only [waitPods, Raising.returns_bind, Raising.returns_require]
    exact ⟨addr, c, ⟨haddr, rfl⟩, hret⟩

/-- The services let the shim come to its deploy. -/
def Remote.fleetUp (r : Remote) (cfg : TestbedConfig) : Prop :=
  r.apiKey.isSome ∧ cfg.groups.length ≤ cfg.maxPods ∧
    (∀ g ∈ cfg.groups, ∃ pid ∈ r.createPod g, (r.waitPod pid).isSome) ∧ r.hfToken.isSome

theorem ShimMechanism.saved_empty (runid : Str) : Saved (.new .shim runid) .empty :=
  ⟨rfl, rfl, rfl, Or.inl ⟨rfl, rfl⟩⟩

/-- Before the deploy there are only pods, and they are saved; after it, they still are. -/
theorem ShimMechanism.raises_cases {c : Cloud} (h : (provision cfg runid r).Raises .empty c) :
    (∃ st, Saved st c) ∨
      r.fleetUp cfg ∧ ¬ r.finishes .shim ∧ ∃ st c₁, Saved st c₁ ∧
        st.pods.items.map Prod.fst = cfg.groups ∧ c₁.deployed r (deployEnv .shim cfg) = c := by
  have hcreate := createPods_keeps (r := r) cfg.groups (.new .shim runid) cfg.groups_nodup
    (fun _ _ => List.not_mem_nil) .empty (saved_empty runid)
  simp only [provision, Raising.raises_bind, Raising.raises_ite, Raising.raises_require,
    Raising.returns_require, Raising.raises_raise, raises_flashDeploy, returns_flashDeploy,
    raises_save, Raising.raises_pure, or_false, and_false, exists_false] at h
  rcases h with ⟨-, rfl⟩ | ⟨key, _, ⟨hkey, rfl⟩, ⟨-, rfl⟩ | ⟨hle, h | ⟨st, c₁, hst, h⟩⟩⟩
  · exact Or.inl ⟨_, saved_empty runid⟩
  · exact Or.inl ⟨_, saved_empty runid⟩
  · exact Or.inl (hcreate.2 c h).1
  · obtain ⟨hsaved, pods, hpods, hkeys, hcreated⟩ := hcreate.1 st c₁ hst
    have hpods : st.pods.items = pods := hpods
    have hwait := waitPods_keeps (r := r) st.pods.items st c₁ c₁ rfl
    rcases h with h | ⟨st₂, c₂, hst₂, h⟩
    · obtain ⟨rfl, -⟩ := hwait.2 c h
      exact Or.inl ⟨st, hsaved⟩
    · obtain ⟨rfl, hsame, hall⟩ := hwait.1 st₂ c₂ hst₂
      have hsaved₂ : Saved st₂ c₂ := ⟨by rw [hsame]; exact hsaved.pods, hsaved.endpoints,
        hsaved.volumes, by rw [hsame]; exact hsaved.saved⟩
      rcases h with ⟨-, rfl⟩ | ⟨token, _, ⟨htoken, rfl⟩, h⟩
      · exact Or.inl ⟨st₂, hsaved₂⟩
      · refine Or.inr ⟨⟨by rw [hkey]; rfl, Nat.not_lt.mp hle, fun g hg => ?_,
          by rw [htoken]; rfl⟩, ?_⟩
        · -- every group has a pod, and it was waited for
          obtain ⟨e, he, rfl⟩ := List.mem_map.mp (hkeys ▸ hg)
          exact ⟨e.2, hcreated e he, hall e (hpods ▸ he)⟩
        · have hgroups : st₂.pods.items.map Prod.fst = cfg.groups := by rw [hsame, hpods, hkeys]
          rcases h with ⟨hok, rfl⟩ | ⟨_, _, ⟨hok, rfl⟩, hnone, rfl⟩
          · exact ⟨fun hfin => Bool.false_ne_true (hok ▸ hfin.1), st₂, _, hsaved₂, hgroups, rfl⟩
          · refine ⟨fun hfin => ?_, st₂, _, hsaved₂, hgroups, rfl⟩
            have := hfin.2
            rw [hnone] at this
            cases this

theorem ShimMechanism.raises_of (runid : Str) (hup : r.fleetUp cfg) (hfail : ¬ r.finishes .shim) :
    ∃ st c₁, Saved st c₁ ∧ st.pods.items.map Prod.fst = cfg.groups ∧
      (provision cfg runid r).Raises .empty (c₁.deployed r (deployEnv .shim cfg)) := by
  obtain ⟨hkey, hle, hpods, htoken⟩ := hup
  obtain ⟨key, hkey⟩ := Option.isSome_iff_exists.mp hkey
  obtain ⟨token, htoken⟩ := Option.isSome_iff_exists.mp htoken
  obtain ⟨st, c₁, hst⟩ := createPods_returns (r := r) cfg.groups (.new .shim runid) .empty
    fun g hg => by
      obtain ⟨pid, hpid, -⟩ := hpods g hg
      rw [hpid]
      rfl
  obtain ⟨hsaved, pods, hnew, hkeys, hcreated⟩ := (createPods_keeps cfg.groups (.new .shim runid)
    cfg.groups_nodup (fun _ _ => List.not_mem_nil) .empty (saved_empty runid)).1 st c₁ hst
  have hnew : st.pods.items = pods := hnew
  obtain ⟨st₂, hst₂⟩ := waitPods_returns (r := r) st.pods.items st c₁ fun e he => by
    obtain ⟨pid, hpid, hwait⟩ := hpods e.1 (hkeys ▸ List.mem_map.mpr ⟨e, hnew ▸ he, rfl⟩)
    rw [Option.mem_def, hcreated e (hnew ▸ he), Option.some_inj] at hpid
    exact hpid ▸ hwait
  refine ⟨st, c₁, hsaved, by rw [hnew, hkeys], ?_⟩
  simp only [provision, Raising.raises_bind, Raising.raises_ite, Raising.raises_require,
    Raising.returns_require, raises_flashDeploy, returns_flashDeploy]
  refine Or.inr ⟨key, _, ⟨hkey, rfl⟩, Or.inr ⟨Nat.not_lt.mpr hle, Or.inr ⟨st, c₁, hst,
    Or.inr ⟨st₂, c₁, hst₂, Or.inr ⟨token, c₁, ⟨htoken, rfl⟩, ?_⟩⟩⟩⟩⟩
  by_cases hok : r.deployOk
  · refine Or.inr ⟨(), _, ⟨hok, rfl⟩, Or.inl ⟨?_, rfl⟩⟩
    by_contra hids
    exact hfail ⟨hok, Option.isSome_iff_ne_none.mpr hids⟩
  · exact Or.inl ⟨by simpa using hok, rfl⟩

/-- The pods of a state file are deleted; without one, nothing is. -/
theorem ShimMechanism.Saved.covered_iff {st : ProvisionState} {c : Cloud} (h : Saved st c)
    (names : List Str) :
    Cloud.Covered { c with endpoints := names }
        (tearDownFailed .shim d { c with endpoints := names }) ↔
      ∀ name ∈ names, st.pods.items ≠ [] ∧
        (name = endpointName baselineLabel ∨ d.Reaches (shimLabels.map endpointName) name) := by
  rcases h.saved with ⟨hnone, hempty⟩ | ⟨hne, st', hst', hpods⟩
  · have hdown : tearDownFailed .shim d { c with endpoints := names } = [] := by
      rw [tearDownFailed, hnone]
      rfl
    rw [hdown]
    constructor
    · intro hcov name hname
      exact absurd (hcov.endpoints name hname) List.not_mem_nil
    · intro hall
      refine ⟨fun pid hpid => ?_, fun name hname => absurd hempty (hall name hname).1,
        fun v hv => ?_⟩
      · rw [h.pods, hempty] at hpid
        cases hpid
      · rw [h.volumes] at hv
        cases hv
  · have hsaved : ({ c with endpoints := names } : Cloud).saved = some st' := hst'
    have hcov : ∀ pid ∈ c.pods, .pod pid ∈ (teardownAll .shim d st').1 := fun pid hpid =>
      pod_mem_teardownAll (by rw [hpods, ← h.pods]; exact hpid)
    rw [covered_saved hsaved hcov]
    constructor
    · intro hcov name hname
      exact ⟨hne, hcov.1 name hname⟩
    · intro hall
      refine ⟨fun name hname => (hall name hname).2, fun v hv => ?_⟩
      rw [h.volumes] at hv
      cases hv

/-- The pods are always deleted; the endpoints have constant names. -/
theorem ShimMechanism.leavesNothing_iff :
    LeavesNothing .shim cfg runid r d ↔
      (r.fleetUp cfg → ¬ r.finishes .shim → ∀ name ∈ r.created (deployEnv .shim cfg),
        cfg.groups ≠ [] ∧
          (name = endpointName baselineLabel ∨ d.Reaches (shimLabels.map endpointName) name)) := by
  have hvolumes : r.createdVolumes (deployEnv .shim cfg) = [] := by
    rw [Remote.createdVolumes, if_neg]
    simp [planEndpoints, deployEnv, shimLabels]
  -- what is deleted once a deploy has created its endpoints
  have hdeployed : ∀ {st c₁}, Saved st c₁ → st.pods.items.map Prod.fst = cfg.groups →
      ((c₁.deployed r (deployEnv .shim cfg)).Covered
        (tearDownFailed .shim d (c₁.deployed r (deployEnv .shim cfg))) ↔
      ∀ name ∈ r.created (deployEnv .shim cfg), cfg.groups ≠ [] ∧
        (name = endpointName baselineLabel ∨ d.Reaches (shimLabels.map endpointName) name)) := by
    intro st c₁ hsaved hgroups
    have heq : c₁.deployed r (deployEnv .shim cfg) =
        { c₁ with endpoints := r.created (deployEnv .shim cfg) } := by
      rw [Cloud.deployed, hvolumes, hsaved.endpoints, List.append_nil, List.nil_append]
    have hne : cfg.groups ≠ [] ↔ st.pods.items ≠ [] := by
      rw [← hgroups, Ne, List.map_eq_nil_iff]
    rw [heq, hsaved.covered_iff]
    simp only [hne]
  constructor
  · intro h hup hfail
    obtain ⟨st, c₁, hsaved, hgroups, hraise⟩ := raises_of runid hup hfail
    exact (hdeployed hsaved hgroups).mp (h _ hraise)
  · intro h c hc
    rcases raises_cases hc with ⟨st, hsaved⟩ | ⟨hup, hfail, st, c₁, hsaved, hgroups, rfl⟩
    · have hcov := (hsaved.covered_iff (d := d) []).mpr fun _ hname =>
        absurd hname List.not_mem_nil
      rwa [← hsaved.endpoints] at hcov
    · exact (hdeployed hsaved hgroups).mpr (h hup hfail)

end Mechanisms

/-! ### The result -/

/-- What has been created when a provision fails is named by the state file or a constant, and
an undeploy gets to it. -/
def Recoverable (m : Mechanism) (cfg : TestbedConfig) (r : Remote) (d : Deletions) : Prop :=
  match m with
  | .shim => r.fleetUp cfg → ¬ r.finishes .shim → ∀ name ∈ r.created (deployEnv .shim cfg),
    cfg.groups ≠ [] ∧
      (name = endpointName baselineLabel ∨ d.Reaches (shimLabels.map endpointName) name)
  | .volumecache => r.hfToken.isSome → ¬ r.finishes .volumecache →
    r.createdVolumes (deployEnv .volumecache cfg) = []
  | .modelstore => r.hfToken.isSome → ¬ r.finishes .modelstore →
    ∀ name ∈ r.created (ModelStoreMechanism.modelsEnv cfg),
      name = endpointName baselineLabel ∨
        r.deployOk ∧ ∃ ids ∈ r.manifestEndpointIds,
          d.Reaches (ModelStoreMechanism.owned ids) name

/-- **When a failed provision leaves nothing billing**: exactly if all it has created can be
named from the saved state.  The shim saves every pod and its endpoints have constant names;
a volume and the endpoints of models are saved only at the end. -/
theorem torn_down_iff (m : Mechanism) (cfg : TestbedConfig) (runid : Str) (r : Remote)
    (d : Deletions) : LeavesNothing m cfg runid r d ↔ Recoverable m cfg r d := by
  cases m with
  | shim => exact ShimMechanism.leavesNothing_iff
  | volumecache => exact VolumeCacheMechanism.leavesNothing_iff
  | modelstore => exact ModelStoreMechanism.leavesNothing_iff

/-- Where `flash undeploy` can always be run, no shim run leaves anything. -/
theorem shim_torn_down {cfg : TestbedConfig} {runid : Str} {r : Remote} {d : Deletions}
    (hgroups : cfg.groups ≠ []) (hrun : ∀ name, ∃ code, d.undeploy name = .ok code) :
    LeavesNothing .shim cfg runid r d := by
  refine ShimMechanism.leavesNothing_iff.mpr fun _ _ name hname => ⟨hgroups, ?_⟩
  have hplan := List.mem_of_mem_filter hname
  simp only [planEndpoints, deployEnv, List.map_cons, List.mem_cons] at hplan
  refine hplan.imp_right fun hlabel => ?_
  rw [List.map_map] at hlabel
  obtain ⟨before, after, heq⟩ := List.append_of_mem hlabel
  exact ⟨before, after, heq, fun n _ => hrun n⟩

/-- One model, and a volume for it. -/
def TestbedConfig.oneModel : TestbedConfig where
  models := ["org/x".toList]
  groups := []
  groups_nodup := List.nodup_nil
  maxPods := 0
  volumeGb := 50
  modelstoreEndpoints := .empty

/-- A deploy that creates all it is to, and then fails. -/
def Remote.deployFails : Remote where
  hfToken := some []
  apiKey := some []
  createPod _ := none
  waitPod _ := none
  deploys _ := true
  volume := some "vol-1".toList
  deployOk := false
  manifest := none
  listed := none
  live := none

/-- Every deletion succeeds. -/
def Deletions.succeed : Deletions := ⟨fun _ => .ok 0, fun _ => none, fun _ => none⟩

/-- The endpoint of the model, and the volume, are left when the deploy fails. -/
theorem failed_deploy_left_billing :
    ¬ LeavesNothing .modelstore .oneModel [] .deployFails .succeed ∧
      ¬ LeavesNothing .volumecache .oneModel [] .deployFails .succeed := by
  constructor
  · intro h
    have hfail : ¬ Remote.deployFails.finishes .modelstore := fun hfin =>
      Bool.false_ne_true hfin.1
    have hrec := ModelStoreMechanism.leavesNothing_iff.mp h rfl hfail
      (endpointName (modelLabel 0)) (by decide +kernel)
    rcases hrec with hrec | ⟨hok, -⟩
    · exact absurd hrec (by decide +kernel)
    · cases hok
  · intro h
    have hrec := VolumeCacheMechanism.leavesNothing_iff.mp h rfl fun hfin =>
      Bool.false_ne_true hfin.1
    exact absurd hrec (by decide +kernel)

end XetDcCache
