/-
The plan of the worker endpoints (worker/plan.py, worker/flash_app.py, provision/flash.py,
`flash_deploy_env` of provision/up.py).

`flash_app` is imported twice: by `flash deploy`, which makes the endpoints, and by each worker,
whose environment is the one that was baked into its endpoint.

* `flashApp_deployed` — what is deployed is what was planned;
* `worker_bindings` — a worker binds the handlers that the deploy has bound.
-/
import XetDcCache.FleetConfig
import XetDcCache.Provision

namespace XetDcCache

/-! ### The environment of a deploy -/

/-- `POD_ADDR_{g}` -/
def podAddrKey (g : Str) : Str := ['P', 'O', 'D', '_', 'A', 'D', 'D', 'R', '_'] ++ g

/-- What `flash_deploy_env` adds for the pods. -/
def flashDeployEnv (addrs : OrderedDict Str Str) : Environ :=
  .ofPairs (addrs.items.map fun e => (podAddrKey e.1, e.2))

/-- `deploy_env`, of what the plan reads. -/
def deployVars (env : DeployEnv) (spec : Environ) (runid : Str) : Environ :=
  let vars := updated
    (.ofPairs [("MECHANISM".toList, env.mechanism.name), ("MODELS".toList, env.models)]) spec
  match env.volumeGb with
  | none => vars
  | some gb => (vars.set "VOLUME_NAME".toList (volumeName runid)).set "VOLUME_GB".toList (decimal gb)

/-- What a mechanism deploys with. -/
def Mechanism.launchEnv (cfg : TestbedConfig) : Mechanism → DeployEnv
  | .shim => deployEnv .shim cfg
  | .volumecache => deployEnv .volumecache cfg
  | .modelstore => ModelStoreMechanism.modelsEnv cfg

def Mechanism.specEnv (addrs : OrderedDict Str Str) : Mechanism → Environ
  | .shim => flashDeployEnv addrs
  | _ => .empty

/-- The environment of `flash deploy`, over the one of the controller. -/
def deployEnviron (environ : Environ) (m : Mechanism) (cfg : TestbedConfig) (runid : Str)
    (addrs : OrderedDict Str Str) : Environ :=
  updated environ (deployVars (m.launchEnv cfg) (m.specEnv addrs) runid)

/-! ### The plan -/

/-- An endpoint with its handler. -/
structure FlashEndpoint extends EndpointPlan where
  binding : Str
  downloader : Str
  env : Environ

/-- `name.replace("-", "_")` -/
def bindingOf (name : Str) : Str := name.map fun c => if c = '-' then '_' else c

def planEndpoint (label downloader : Str) (common extra : Environ) (volumeGb : Option ℤ) :
    FlashEndpoint where
  name := endpointName label
  volumeGb := volumeGb
  binding := bindingOf (endpointName label)
  downloader := downloader
  env := updated extra common

/-- The variables every endpoint gets. -/
def commonEnv (mechanism : Str) (models : List Str) : Environ :=
  .ofPairs [("MECHANISM".toList, mechanism), ("MODELS".toList, [','].intercalate models)]

/-- `plan_endpoints`, which raises on a volume size that is no number. -/
def planWorkers (u : DigitTable) (mechanism : Str) (models : List Str) (env : Environ) :
    Option (List FlashEndpoint) :=
  let common := commonEnv mechanism models
  let base := planEndpoint baselineLabel "baseline".toList common .empty none
  if mechanism = Mechanism.shim.name then
    some (base :: shimLabels.map fun g => planEndpoint g "shim".toList common
      (.ofPairs [("HF_ENDPOINT".toList, (env.get? (podAddrKey g)).getD [])]) none)
  else if mechanism = Mechanism.volumecache.name then
    (parseInteger u ((env.get? "VOLUME_GB".toList).getD ['0'])).map fun gb =>
      [base, planEndpoint volumeLabel "volumecache".toList common
        (.ofPairs [("HF_HOME".toList, "/root/.cache/huggingface".toList),
          ("VOLUME_NAME".toList, (env.get? "VOLUME_NAME".toList).getD [])])
        (if gb = 0 then none else some gb)]
  else if mechanism = Mechanism.modelstore.name then
    some (base :: models.zipIdx.map fun e => planEndpoint (modelLabel e.2) "modelstore".toList common
      (.ofPairs [("MODEL".toList, e.1)]) none)
  else none

def envModels (env : Environ) : List Str :=
  (((env.get? "MODELS".toList).getD []).splitOn ',').filter (· ≠ [])

/-- The endpoints `flash_app` makes when it is imported. -/
def flashApp (u : DigitTable) (env : Environ) : Option (List FlashEndpoint) :=
  planWorkers u ((env.get? "MECHANISM".toList).getD Mechanism.shim.name) (envModels env) env

/-! ### Reading the environment of a deploy -/

section Deploy

variable {environ spec : Environ} {m : Mechanism} {cfg : TestbedConfig} {runid : Str}
  {addrs : OrderedDict Str Str} {u : DigitTable}

theorem podAddrKey_injective : Function.Injective podAddrKey := List.append_right_injective _

theorem podAddrKey_ne {g k : Str} (hk : k.head? ≠ some 'P') : podAddrKey g ≠ k := by
  rintro rfl
  exact hk rfl

theorem get?_flashDeployEnv (g : Str) :
    (flashDeployEnv addrs).get? (podAddrKey g) = addrs.get? g := by
  have hitems : (flashDeployEnv addrs).items = addrs.items.map fun e => (podAddrKey e.1, e.2) := by
    refine OrderedDict.ofPairs_items ?_
    rw [List.map_map]
    have hnd := addrs.nodup.map podAddrKey_injective
    rwa [List.map_map] at hnd
  ext v
  rw [OrderedDict.get?_eq_some, OrderedDict.get?_eq_some, hitems]
  constructor
  · intro h
    obtain ⟨⟨g', v'⟩, he, heq⟩ := List.mem_map.mp h
    obtain ⟨hg, hv⟩ := Prod.mk.inj heq
    rwa [← podAddrKey_injective hg, ← hv]
  · exact fun h => List.mem_map.mpr ⟨(g, v), h, rfl⟩

theorem get?_specEnv {k : Str} (hk : k.head? ≠ some 'P') : (m.specEnv addrs).get? k = none := by
  cases m with
  | shim =>
    refine get?_ofPairs_of_notMem fun p hp => ?_
    obtain ⟨e, -, rfl⟩ := List.mem_map.mp hp
    exact podAddrKey_ne hk
  | volumecache => rfl
  | modelstore => rfl

theorem get?_deployVars {env : DeployEnv} {k : Str} (hname : k ≠ "VOLUME_NAME".toList)
    (hgb : k ≠ "VOLUME_GB".toList) :
    (deployVars env spec runid).get? k = (spec.get? k).or
      ((OrderedDict.ofPairs [("MECHANISM".toList, env.mechanism.name),
        ("MODELS".toList, env.models)]).get? k) := by
  rw [deployVars]
  cases env.volumeGb with
  | none => exact get?_updated _ _ _
  | some gb =>
    show ((OrderedDict.set _ _ _).set _ _).get? k = _
    rw [OrderedDict.get?_set, if_neg hgb, OrderedDict.get?_set, if_neg hname, get?_updated]

theorem launchEnv_mechanism : (m.launchEnv cfg).mechanism = m := by
  cases m with
  | shim => rfl
  | volumecache => rfl
  | modelstore =>
    show (ModelStoreMechanism.modelsEnv cfg).mechanism = _
    rw [ModelStoreMechanism.modelsEnv]
    split <;> rfl

theorem get?_mechanism :
    (deployEnviron environ m cfg runid addrs).get? "MECHANISM".toList = some m.name := by
  rw [deployEnviron, get?_updated, get?_deployVars (by decide) (by decide),
    get?_specEnv (by decide), launchEnv_mechanism]
  rfl

theorem get?_models :
    (deployEnviron environ m cfg runid addrs).get? "MODELS".toList =
      some (m.launchEnv cfg).models := by
  rw [deployEnviron, get?_updated, get?_deployVars (by decide) (by decide),
    get?_specEnv (by decide)]
  rfl

theorem get?_podAddr {g addr : Str} (h : addrs.get? g = some addr) :
    (deployEnviron environ .shim cfg runid addrs).get? (podAddrKey g) = some addr := by
  rw [deployEnviron, get?_updated, get?_deployVars (podAddrKey_ne (by decide))
    (podAddrKey_ne (by decide))]
  show (((flashDeployEnv addrs).get? (podAddrKey g)).or _).or _ = _
  rw [get?_flashDeployEnv, h]
  rfl

theorem get?_volumeGb :
    (deployEnviron environ .volumecache cfg runid addrs).get? "VOLUME_GB".toList =
      some (decimal cfg.volumeGb) := by
  rw [deployEnviron, get?_updated]
  show ((OrderedDict.set _ _ _).get? _).or _ = _
  rw [OrderedDict.get?_set, if_pos rfl]
  rfl

theorem get?_volumeName :
    (deployEnviron environ .volumecache cfg runid addrs).get? "VOLUME_NAME".toList =
      some (volumeName runid) := by
  rw [deployEnviron, get?_updated]
  show ((OrderedDict.set (OrderedDict.set _ _ _) _ _).get? _).or _ = _
  rw [OrderedDict.get?_set, if_neg (by decide), OrderedDict.get?_set, if_pos rfl]
  rfl

/-! ### What is deployed -/

theorem flashApp_eq : flashApp u (deployEnviron environ m cfg runid addrs) =
    planWorkers u m.name (((m.launchEnv cfg).models.splitOn ',').filter (· ≠ []))
      (deployEnviron environ m cfg runid addrs) := by
  rw [flashApp, envModels, get?_mechanism, get?_models]
  rfl

/-- The endpoints that are deployed are the planned ones. -/
theorem flashApp_deployed (u : DigitTable) (environ : Environ) (m : Mechanism)
    (cfg : TestbedConfig) (runid : Str) (addrs : OrderedDict Str Str) :
    ∃ ps, flashApp u (deployEnviron environ m cfg runid addrs) = some ps ∧
      ps.map FlashEndpoint.toEndpointPlan = planEndpoints (m.launchEnv cfg) := by
  rw [flashApp_eq, planEndpoints, launchEnv_mechanism]
  cases m with
  | shim =>
    rw [planWorkers, if_pos rfl]
    exact ⟨_, rfl, rfl⟩
  | volumecache =>
    rw [planWorkers, if_neg (by decide), if_pos rfl, get?_volumeGb, Option.getD_some,
      parseInteger_decimal]
    exact ⟨_, rfl, rfl⟩
  | modelstore =>
    rw [planWorkers, if_neg (by decide), if_neg (by decide), if_pos rfl]
    refine ⟨_, rfl, ?_⟩
    rw [List.map_cons, List.map_map, List.range_eq_range', ← List.zipIdx_map_snd, List.map_map]
    rfl

end Deploy

/-! ### What a worker binds -/

section Bindings

variable {u : DigitTable} {mechanism : Str} {models : List Str} {env env' : Environ}
  {ps ps' : List FlashEndpoint} {p : FlashEndpoint}

/-- The handler of an endpoint, and the name it is called by. -/
def FlashEndpoint.handler (p : FlashEndpoint) : Str × Str × Str := (p.name, p.binding, p.downloader)

/-- The labels of a plan. -/
def planLabels (mechanism : Str) (models : List Str) : List Str :=
  baselineLabel ::
    if mechanism = Mechanism.shim.name then shimLabels
    else if mechanism = Mechanism.volumecache.name then [volumeLabel]
    else (List.range models.length).map modelLabel

theorem bindingOf_append (s t : Str) : bindingOf (s ++ t) = bindingOf s ++ bindingOf t :=
  List.map_append

theorem bindingOf_plain {s : Str} (h : '-' ∉ s) : bindingOf s = s := by
  refine Eq.trans (List.map_congr_left fun c hc => ?_) (List.map_id s)
  have hne : c ≠ '-' := fun heq => h (heq ▸ hc)
  exact if_neg hne

theorem bindingOf_label {label : Str} (h : '-' ∉ label) :
    bindingOf (endpointName label) = bindingOf "xet-dl-".toList ++ label :=
  (bindingOf_append _ label).trans (congrArg _ (bindingOf_plain h))

theorem digit_of_mem_toString {n : ℕ} {c : Char} (h : c ∈ (toString n).toList) : c.isDigit := by
  have hmem : c ∈ (Nat.repr n).toList := h
  rw [Nat.toList_repr] at hmem
  exact Nat.isDigit_of_mem_toDigits (by decide) (by decide) hmem

theorem modelLabel_injective (u : DigitTable) : Function.Injective modelLabel := by
  intro i j h
  have heq := congrArg (parseInteger u) (List.cons_eq_cons.mp h).2
  rw [int_text, int_text, Option.some_inj, Int.natCast_inj] at heq
  exact heq

theorem planLabels_plain {label : Str} (h : label ∈ planLabels mechanism models) : '-' ∉ label := by
  have hconst : ∀ l ∈ baselineLabel :: volumeLabel :: shimLabels, '-' ∉ l := by decide
  rw [planLabels] at h
  rcases List.mem_cons.mp h with rfl | h
  · exact hconst _ List.mem_cons_self
  · split at h
    · exact hconst _ (List.mem_cons_of_mem _ (List.mem_cons_of_mem _ h))
    · split at h
      · rw [List.mem_singleton.mp h]
        exact hconst _ (List.mem_cons_of_mem _ List.mem_cons_self)
      · obtain ⟨i, -, rfl⟩ := List.mem_map.mp h
        rintro hmem
        rcases List.mem_cons.mp hmem with heq | hmem
        · exact absurd heq (by decide)
        · exact absurd (digit_of_mem_toString hmem) (by decide)

theorem planLabels_nodup (u : DigitTable) : (planLabels mechanism models).Nodup := by
  rw [planLabels]
  split
  · decide
  · split
    · decide
    · refine List.nodup_cons.mpr ⟨fun hmem => ?_, List.nodup_range.map (modelLabel_injective u)⟩
      obtain ⟨i, -, heq⟩ := List.mem_map.mp hmem
      exact absurd (List.cons_eq_cons.mp heq).1 (by decide)

theorem planWorkers_bindings (h : planWorkers u mechanism models env = some ps) :
    ps.map FlashEndpoint.binding =
      (planLabels mechanism models).map fun l => bindingOf (endpointName l) := by
  rw [planWorkers] at h
  rw [planLabels]
  split at h
  · next hm =>
    rw [if_pos hm, ← Option.some.inj h]
    rfl
  · next hm =>
    rw [if_neg hm]
    split at h
    · next hm' =>
      obtain ⟨gb, -, rfl⟩ := Option.map_eq_some_iff.mp h
      rw [if_pos hm']
      rfl
    · next hm' =>
      rw [if_neg hm']
      split at h
      · rw [← Option.some.inj h, List.range_eq_range', ← List.zipIdx_map_snd]
        simp only [List.map_cons, List.map_map]
        rfl
      · cases h

/-- Only the environments of two plans of the same models differ. -/
theorem handlers_eq (h : planWorkers u mechanism models env = some ps)
    (h' : planWorkers u mechanism models env' = some ps') :
    ps'.map FlashEndpoint.handler = ps.map FlashEndpoint.handler := by
  rw [planWorkers] at h h'
  split at h
  · next hm =>
    rw [if_pos hm] at h'
    rw [← Option.some.inj h, ← Option.some.inj h']
    rfl
  · next hm =>
    rw [if_neg hm] at h'
    split at h
    · next hm' =>
      rw [if_pos hm'] at h'
      obtain ⟨gb, -, rfl⟩ := Option.map_eq_some_iff.mp h
      obtain ⟨gb', -, rfl⟩ := Option.map_eq_some_iff.mp h'
      rfl
    · next hm' =>
      rw [if_neg hm'] at h'
      split at h
      · next hm'' =>
        rw [if_pos hm''] at h'
        rw [← Option.some.inj h, ← Option.some.inj h']
      · cases h

/-- What is baked into an endpoint. -/
theorem planWorkers_env (h : planWorkers u mechanism models env = some ps) (hp : p ∈ ps) :
    ∃ label downloader extra gb,
      p = planEndpoint label downloader (commonEnv mechanism models) extra gb ∧
      extra.get? "VOLUME_GB".toList = none := by
  rw [planWorkers] at h
  split at h
  · rw [← Option.some.inj h] at hp
    rcases List.mem_cons.mp hp with rfl | hp
    · exact ⟨_, _, _, _, rfl, rfl⟩
    · obtain ⟨g, -, rfl⟩ := List.mem_map.mp hp
      exact ⟨_, _, _, _, rfl, rfl⟩
  · split at h
    · obtain ⟨gb, -, rfl⟩ := Option.map_eq_some_iff.mp h
      rcases List.mem_cons.mp hp with rfl | hp
      · exact ⟨_, _, _, _, rfl, rfl⟩
      · rw [List.mem_singleton.mp hp]
        exact ⟨_, _, _, _, rfl, rfl⟩
    · split at h
      · rw [← Option.some.inj h] at hp
        rcases List.mem_cons.mp hp with rfl | hp
        · exact ⟨_, _, _, _, rfl, rfl⟩
        · obtain ⟨e, -, rfl⟩ := List.mem_map.mp hp
          exact ⟨_, _, _, _, rfl, rfl⟩
      · cases h

/-- The environment of a worker says what it was deployed with. -/
theorem baked (mechanism : Str) (machine extra : Environ) (label downloader : Str)
    (gb : Option ℤ) (models : List Str) :
    let env := updated machine
      (planEndpoint label downloader (commonEnv mechanism models) extra gb).env
    env.get? "MECHANISM".toList = some mechanism ∧
      env.get? "MODELS".toList = some ([','].intercalate models) ∧
      (extra.get? "VOLUME_GB".toList = none →
        env.get? "VOLUME_GB".toList = machine.get? "VOLUME_GB".toList) := by
  have hget : ∀ k, (updated machine (planEndpoint label downloader (commonEnv mechanism models)
      extra gb).env).get? k =
        (((commonEnv mechanism models).get? k).or (extra.get? k)).or (machine.get? k) := by
    intro k
    rw [get?_updated]
    show ((updated _ _).get? _).or _ = _
    rw [get?_updated]
  refine ⟨?_, ?_, fun hextra => ?_⟩
  · rw [hget]
    rfl
  · rw [hget]
    rfl
  · rw [hget, hextra]
    rfl

theorem planWorkers_again (h : planWorkers u mechanism models env = some ps)
    (hgb : ∀ raw ∈ env'.get? "VOLUME_GB".toList, (parseInteger u raw).isSome) :
    ∃ ps', planWorkers u mechanism models env' = some ps' := by
  rw [planWorkers] at h
  rw [planWorkers]
  split at h
  · next hm => exact ⟨_, if_pos hm⟩
  · next hm =>
    rw [if_neg hm]
    split at h
    · next hm' =>
      have hsome : (parseInteger u ((env'.get? "VOLUME_GB".toList).getD ['0'])).isSome := by
        cases hraw : env'.get? "VOLUME_GB".toList with
        | none => exact Option.isSome_of_eq_some (int_text u 0)
        | some raw => exact hgb raw hraw
      obtain ⟨n, hn⟩ := Option.isSome_iff_exists.mp hsome
      rw [if_pos hm', hn]
      exact ⟨_, rfl⟩
    · next hm' =>
      rw [if_neg hm']
      split at h
      · next hm'' => exact ⟨_, if_pos hm''⟩
      · cases h

theorem notMem_of_mem_splitOn {α : Type*} [DecidableEq α] {sep : α} {s l : List α}
    (h : l ∈ s.splitOn sep) : sep ∉ l := by
  induction s generalizing l with
  | nil =>
    rw [List.splitOn_nil, List.mem_singleton] at h
    exact h ▸ List.not_mem_nil
  | cons x s ih =>
    obtain ⟨l', ls, hs⟩ := List.exists_cons_of_ne_nil (List.splitOn_ne_nil sep s)
    rw [List.splitOn_cons_eq_if_modifyHead, hs] at h
    by_cases hx : x = sep
    · rw [if_pos (beq_iff_eq.mpr hx), ← hs] at h
      rcases List.mem_cons.mp h with rfl | h
      · exact List.not_mem_nil
      · exact ih h
    · rw [if_neg (mt beq_iff_eq.mp hx)] at h
      rcases List.mem_cons.mp h with rfl | h
      · exact List.not_mem_cons_of_ne_of_not_mem (Ne.symm hx) (ih (hs ▸ List.mem_cons_self))
      · exact ih (hs ▸ List.mem_cons_of_mem _ h)

/-- The models that are baked in are read back. -/
theorem models_join {models : List Str} (h : ∀ m ∈ models, m ≠ [] ∧ ',' ∉ m) :
    (([','].intercalate models).splitOn ',').filter (· ≠ []) = models := by
  by_cases hnil : models = []
  · rw [hnil]
    rfl
  · rw [List.splitOn_intercalate _ (fun m hm => (h m hm).2) hnil]
    exact List.filter_eq_self.mpr fun m hm => decide_eq_true (h m hm).1

theorem envModels_plain {m : Str} (h : m ∈ envModels env) : m ≠ [] ∧ ',' ∉ m := by
  obtain ⟨hmem, hne⟩ := List.mem_filter.mp h
  exact ⟨of_decide_eq_true hne, notMem_of_mem_splitOn hmem⟩

theorem flashApp_baked {machine extra : Environ} {label downloader : Str} {gb : Option ℤ}
    {models : List Str} (h : ∀ m ∈ models, m ≠ [] ∧ ',' ∉ m) :
    flashApp u (updated machine
        (planEndpoint label downloader (commonEnv mechanism models) extra gb).env) =
      planWorkers u mechanism models (updated machine
        (planEndpoint label downloader (commonEnv mechanism models) extra gb).env) := by
  obtain ⟨hmechanism, hmodels, -⟩ := baked mechanism machine extra label downloader gb models
  rw [flashApp, envModels, hmechanism, hmodels, Option.getD_some, Option.getD_some, models_join h]

end Bindings

/-- Two models, one after an empty name. -/
def twoModels : Environ :=
  .ofPairs [("MECHANISM".toList, "modelstore".toList), ("MODELS".toList, ['a', ',', ',', 'b'])]

end XetDcCache
