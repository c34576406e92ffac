/-
From a provision to a drive: which worker runs a job (run.py, plan.py, mechanisms/*.py).

`provision` saves the endpoint ids that `flash deploy` wrote into its manifest, and the drive looks
them up by the labels of its jobs.

* `Serves` — the worker of an endpoint downloads what a job asks for, from where it should;
* `jobs_served` — after a provision, every job of the drive is run by a worker that serves it.
-/
import XetDcCache.Driver
import XetDcCache.WorkerPlan

namespace XetDcCache

/-! ### The manifest -/

/-- `flash deploy` has written the endpoints of the plan, each with its id, in some order. -/
def Remote.Wrote (r : Remote) (plan : List EndpointPlan) (ids : Str → Str) : Prop :=
  ∃ resources, r.manifest = some resources ∧
    resources.Perm (plan.map fun p => (p.name, some (ids p.name)))

/-- `name.rsplit("-", 1)[-1]` -/
def afterDash (name : Str) : Str := (name.reverse.takeWhile (· ≠ '-')).reverse

theorem afterDash_endpointName {label : Str} (h : '-' ∉ label) :
    afterDash (endpointName label) = label := by
  have hlabel : ∀ c ∈ label.reverse, decide (c ≠ '-') = true := fun c hc =>
    decide_eq_true fun heq => h (List.mem_reverse.mp (heq ▸ hc))
  have hreverse : (endpointName label).reverse =
      label.reverse ++ '-' :: ['l', 'd', '-', 't', 'e', 'x'] := List.reverse_append
  rw [afterDash, hreverse, List.takeWhile_append_of_pos hlabel,
    List.takeWhile_cons_of_neg (by simp), List.append_nil, List.reverse_reverse]

theorem endpointIds_eq {resources : List (Str × Option Str)} {pairs : List (Str × Str)}
    (h : resources.map (fun e => (afterDash e.1, e.2)) = pairs.map fun e => (e.1, some e.2)) :
    Remote.endpointIds resources = some (.ofPairs pairs) := by
  have hfold : ∀ d, resources.foldlM (fun (out : OrderedDict Str Str) e => e.2.map fun id =>
      out.set (afterDash e.1) id) d = some (pairs.foldl (fun d e => d.set e.1 e.2) d) := by
    induction resources generalizing pairs with
    | nil =>
      obtain rfl := List.map_eq_nil_iff.mp h.symm
      exact fun _ => rfl
    | cons e resources ih =>
      obtain ⟨p, pairs, rfl⟩ : ∃ p rest, pairs = p :: rest := by
        cases pairs with
        | nil => cases h
        | cons p rest => exact ⟨p, rest, rfl⟩
      intro d
      obtain ⟨hhead, hrest⟩ := List.cons_eq_cons.mp h
      obtain ⟨hkey, hid⟩ := Prod.mk.inj hhead
      rw [List.foldlM_cons, hid, hkey]
      exact ih hrest _
  exact hfold .empty

/-- The ids of a manifest are found by the labels of the plan. -/
theorem Remote.Wrote.get? {r : Remote} {plan : List EndpointPlan} {ids : Str → Str}
    (h : r.Wrote plan ids) {labels : List Str} (hnames : plan.map (·.name) = labels.map endpointName)
    (hnodup : labels.Nodup) (hplain : ∀ l ∈ labels, '-' ∉ l) :
    ∃ d, r.manifestEndpointIds = some d ∧
      ∀ l ∈ labels, d.get? l = some (ids (endpointName l)) := by
  obtain ⟨resources, hmanifest, hperm⟩ := h
  have hplan : plan.map (fun p => (p.name, some (ids p.name))) =
      labels.map fun l => (endpointName l, some (ids (endpointName l))) := by
    have hmap := congrArg (List.map fun n => (n, some (ids n))) hnames
    rwa [List.map_map, List.map_map] at hmap
  rw [hplan] at hperm
  -- the labels in the order of the manifest
  have hlabels : (resources.map fun e => afterDash e.1).Perm labels := by
    refine (hperm.map fun e => afterDash e.1).trans (List.Perm.of_eq ?_)
    rw [List.map_map]
    refine Eq.trans (List.map_congr_left fun l hl => ?_) (List.map_id labels)
    exact afterDash_endpointName (hplain l hl)
  have hids : ∀ e ∈ resources, e.2 = some (ids (endpointName (afterDash e.1))) := by
    intro e he
    obtain ⟨l, hl, rfl⟩ := List.mem_map.mp (hperm.mem_iff.mp he)
    rw [afterDash_endpointName (hplain l hl)]
  generalize hlabels' : (resources.map fun e => afterDash e.1) = labels' at hlabels
  have hd : Remote.endpointIds resources =
      some (.ofPairs (labels'.map fun l => (l, ids (endpointName l)))) := by
    refine endpointIds_eq ?_
    rw [← hlabels', List.map_map, List.map_map]
    exact List.map_congr_left fun e he => Prod.ext rfl (hids e he)
  refine ⟨_, by rw [Remote.manifestEndpointIds, hmanifest]; exact hd, fun l hl => ?_⟩
  have hkeys : ((labels'.map fun l => (l, ids (endpointName l))).map Prod.fst).Nodup := by
    rw [List.map_map]
    show (labels'.map id).Nodup
    rw [List.map_id]
    exact hlabels.nodup_iff.mpr hnodup
  rw [OrderedDict.get?_eq_some, OrderedDict.ofPairs_items hkeys]
  exact List.mem_map.mpr ⟨l, hlabels.mem_iff.mpr hl, rfl⟩

theorem planEndpoints_names (env : DeployEnv) :
    (planEndpoints env).map (·.name) =
      (planLabels env.mechanism.name ((env.models.splitOn ',').filter (· ≠ []))).map
        endpointName := by
  rw [planEndpoints, planLabels]
  cases env.mechanism with
  | shim => rfl
  | volumecache => rfl
  | modelstore =>
    rw [if_neg (by decide), if_neg (by decide)]
    simp only [List.map_cons, List.map_map]
    rfl

/-! ### What a provision returns -/

section Provision

variable {cfg : TestbedConfig} {runid : Str} {r : Remote} {st : ProvisionState} {c : Cloud}

/-- Every pod that was waited for has its address. -/
theorem ShimMechanism.waitPods_urls {pods : List (Str × Str)} {st₀ : ProvisionState} {c₀ : Cloud}
    (hnodup : (pods.map Prod.fst).Nodup) (h : (waitPods r pods st₀).Returns c₀ st c) :
    st.endpoints = st₀.endpoints ∧
      (∀ g, g ∉ pods.map Prod.fst → st.metricsUrls.get? g = st₀.metricsUrls.get? g) ∧
      ∀ e ∈ pods, ∃ addr, r.waitPod e.2 = some addr ∧ st.metricsUrls.get? e.1 = some addr := by
  induction pods generalizing st₀ with
  | nil =>
    obtain ⟨rfl, -⟩ := Raising.returns_pure.mp h
    exact ⟨rfl, fun _ _ => rfl, fun e he => (List.not_mem_nil he).elim⟩
  | cons e pods ih =>
    obtain ⟨g, pid⟩ := e
    obtain ⟨hg, hnodup⟩ := List.nodup_cons.mp hnodup
    simp only [waitPods, Raising.returns_bind, Raising.returns_require] at h
    obtain ⟨addr, _, ⟨haddr, rfl⟩, h⟩ := h
    obtain ⟨hendpoints, hother, hall⟩ := ih hnodup h
    refine ⟨hendpoints, fun g' hg' => ?_, fun e he => ?_⟩
    · obtain ⟨hne, hnot⟩ := not_or.mp (mt List.mem_cons.mpr hg')
      rw [hother g' hnot]
      show (st₀.metricsUrls.set g addr).get? g' = _
      rw [OrderedDict.get?_set, if_neg hne]
    · rcases List.mem_cons.mp he with rfl | he
      · refine ⟨addr, haddr, ?_⟩
        rw [hother g hg]
        show (st₀.metricsUrls.set g addr).get? g = _
        rw [OrderedDict.get?_set, if_pos rfl]
      · exact hall e he

theorem ShimMechanism.provision_returns (h : (provision cfg runid r).Returns .empty st c) :
    r.manifestEndpointIds = some st.endpoints ∧
      ∀ g ∈ cfg.groups, ∃ pid addr, r.createPod g = some pid ∧ r.waitPod pid = some addr ∧
        st.metricsUrls.get? g = some addr := by
  have hcreate := createPods_keeps (r := r) cfg.groups (.new .shim runid) cfg.groups_nodup
    (fun _ _ => List.not_mem_nil) .empty (saved_empty runid)
  simp only [provision, Raising.returns_bind, Raising.returns_require] at h
  obtain ⟨key, _, ⟨-, rfl⟩, h⟩ := h
  by_cases hmax : cfg.groups.length > cfg.maxPods
  · rw [if_pos hmax] at h
    exact absurd h Raising.returns_raise
  · rw [if_neg hmax] at h
    simp only [Raising.returns_bind, Raising.returns_require, returns_flashDeploy, returns_save,
      Raising.returns_pure] at h
    obtain ⟨st₁, c₁, hst₁, st₂, c₂, hst₂, token, _, ⟨-, rfl⟩, _, _, ⟨-, rfl⟩, ids, _, ⟨hids, rfl⟩,
      _, _, rfl, rfl, -⟩ := h
    obtain ⟨-, pods, hpods, hkeys, hcreated⟩ := hcreate.1 st₁ c₁ hst₁
    have hitems : st₁.pods.items = pods := hpods
    rw [hitems] at hst₂
    obtain ⟨-, -, hurls⟩ := waitPods_urls (hkeys ▸ cfg.groups_nodup) hst₂
    refine ⟨hids, fun g hg => ?_⟩
    obtain ⟨e, he, rfl⟩ := List.mem_map.mp (hkeys ▸ hg)
    obtain ⟨addr, haddr, hurl⟩ := hurls e he
    exact ⟨e.2, addr, hcreated e he, haddr, hurl⟩

theorem VolumeCacheMechanism.provision_returns (h : (provision cfg runid r).Returns .empty st c) :
    r.manifestEndpointIds = some st.endpoints := by
  simp only [provision, Raising.returns_bind, Raising.returns_require, returns_flashDeploy,
    returns_save, Raising.returns_pure] at h
  obtain ⟨_, _, rfl, _, _, ⟨-, rfl⟩, _, _, ⟨-, rfl⟩, ids, _, ⟨hids, rfl⟩, _, _, ⟨-, rfl⟩, _, _,
    ⟨-, rfl⟩, _, _, rfl, rfl, -⟩ := h
  exact hids

/-- The label of an endpoint of an earlier run. -/
def reusedLabel (i : ℕ) : Str := reusedPrefix ++ modelLabel i

theorem reusedLabel_ne_baseline (i : ℕ) : reusedLabel i ≠ baselineLabel := by
  intro h
  have hhead : (reusedLabel i).head? = some 'r' := rfl
  rw [h] at hhead
  exact absurd hhead (by decide)

/-- What `_validate_reused` returns: an endpoint of the account for each model. -/
theorem ModelStoreMechanism.validateReused_eq_some (u : DigitTable) {reused : OrderedDict Str Str}
    (h : validateReused cfg r = some reused) :
    reused.get? baselineLabel = none ∧ ∃ live, r.live = some live ∧
      ∀ e ∈ cfg.models.zipIdx, ∃ id ∈ live, cfg.modelstoreEndpoints.get? e.1 = some id ∧
        reused.get? (reusedLabel e.2) = some id := by
  rw [validateReused] at h
  by_cases hmapped : cfg.models.any (· ∉ cfg.modelstoreEndpoints.keys)
  · rw [if_pos hmapped] at h
    cases h
  · rw [if_neg hmapped] at h
    obtain ⟨live, hlive, h⟩ := Option.bind_eq_some_iff.mp h
    by_cases hknown : cfg.modelstoreEndpoints.items.any (·.2 ∉ live)
    · rw [if_pos hknown] at h
      cases h
    · rw [if_neg hknown, Option.some_inj] at h
      have hpairs : reused = .ofPairs (cfg.models.zipIdx.map fun e =>
          (reusedLabel e.2, (cfg.modelstoreEndpoints.get? e.1).getD [])) := by
        rw [OrderedDict.ofPairs, List.foldl_map]
        exact h.symm
      have hkeys : ((cfg.models.zipIdx.map fun e =>
          (reusedLabel e.2, (cfg.modelstoreEndpoints.get? e.1).getD [])).map Prod.fst).Nodup := by
        rw [List.map_map]
        show (cfg.models.zipIdx.map (reusedLabel ∘ Prod.snd)).Nodup
        rw [← List.map_map, List.zipIdx_map_snd, ← List.range_eq_range']
        exact List.nodup_range.map
          ((List.append_right_injective reusedPrefix).comp (modelLabel_injective u))
      refine ⟨?_, live, hlive, fun e he => ?_⟩
      · rw [hpairs]
        refine get?_ofPairs_of_notMem fun p hp => ?_
        obtain ⟨e, -, rfl⟩ := List.mem_map.mp hp
        exact reusedLabel_ne_baseline e.2
      · have hmodel : e.1 ∈ cfg.models := List.fst_mem_of_mem_zipIdx he
        have hkey : e.1 ∈ cfg.modelstoreEndpoints.keys := by
          by_contra hnot
          exact hmapped (List.any_eq_true.mpr ⟨e.1, hmodel, decide_eq_true hnot⟩)
        obtain ⟨id, hid⟩ := OrderedDict.mem_keys.mp hkey
        have hget := OrderedDict.get?_eq_some.mpr hid
        have hmem : id ∈ live := by
          by_contra hnot
          exact hknown (List.any_eq_true.mpr ⟨_, hid, decide_eq_true hnot⟩)
        refine ⟨id, hmem, hget, ?_⟩
        rw [hpairs, OrderedDict.get?_eq_some, OrderedDict.ofPairs_items hkeys]
        exact List.mem_map.mpr ⟨e, he, by rw [hget, Option.getD_some]⟩

theorem ModelStoreMechanism.provision_returns (h : (provision cfg runid r).Returns .empty st c) :
    ∃ ids reused, r.manifestEndpointIds = some ids ∧ st.endpoints = updated ids reused ∧
      if cfg.modelstoreEndpoints.items = [] then reused = .empty
      else validateReused cfg r = some reused := by
  simp only [provision, Raising.returns_bind, Raising.returns_require, returns_flashDeploy,
    returns_save] at h
  obtain ⟨token, _, ⟨-, rfl⟩, reused, c₁, hreused, _, _, rfl, _, _, ⟨-, rfl⟩, ids, _, ⟨hids, rfl⟩,
    _, _, rfl, h⟩ := h
  have hst : st.endpoints = updated ids reused := by
    by_cases hnone : reused.items = []
    · rw [if_pos hnone] at h
      obtain ⟨_, _, -, h⟩ := Raising.returns_bind.mp h
      exact (Raising.returns_pure.mp h).1 ▸ rfl
    · rw [if_neg hnone] at h
      exact (Raising.returns_pure.mp h).1 ▸ rfl
  refine ⟨ids, reused, hids, hst, ?_⟩
  rw [reusedEndpoints] at hreused
  by_cases hown : cfg.modelstoreEndpoints.items = []
  · rw [if_pos hown] at hreused ⊢
    exact (Raising.returns_pure.mp hreused).1.symm
  · rw [if_neg hown] at hreused ⊢
    simp only [Raising.returns_bind, Raising.returns_require] at hreused
    obtain ⟨key, _, -, hvalid, -⟩ := hreused
    exact hvalid

end Provision

/-! ### The workers of a drive -/

/-- The worker of an endpoint does what a job is there for: it downloads for the mechanism of the
job, through the pod that was created for the group, or the volume of the run, or the model that
the endpoint caches, and otherwise as if there were none of these. -/
structure Serves (r : Remote) (cfg : TestbedConfig) (runid : Str) (p : FlashEndpoint) (j : Job) :
    Prop where
  downloader : p.downloader = j.mechanism
  pod : if j.mechanism = Mechanism.shim.name then
      ∃ pid addr, r.createPod j.endpoint = some pid ∧ r.waitPod pid = some addr ∧
        p.env.get? "HF_ENDPOINT".toList = some addr
    else p.env.get? "HF_ENDPOINT".toList = none
  volume : if j.mechanism = Mechanism.volumecache.name then
      p.env.get? "VOLUME_NAME".toList = some (volumeName runid) ∧
        p.volumeGb = if cfg.volumeGb = 0 then none else some cfg.volumeGb
    else p.volumeGb = none
  model : p.env.get? "MODEL".toList =
    if j.mechanism = Mechanism.modelstore.name then some j.model else none

section Workers

variable {u : DigitTable} {environ : Environ} {cfg : DriveConfig} {m : Mechanism} {runid : Str}
  {r : Remote} {st : ProvisionState} {c : Cloud} {ids : Str → Str} {ps : List FlashEndpoint}

theorem get?_env (label downloader mechanism k : Str) (models : List Str) (extra : Environ)
    (gb : Option ℤ) :
    (planEndpoint label downloader (commonEnv mechanism models) extra gb).env.get? k =
      ((commonEnv mechanism models).get? k).or (extra.get? k) :=
  get?_updated _ _ _

/-- The first endpoint of a plan is the one of the baseline. -/
theorem serves_baseline {mechanism : Str} {models : List Str} {env : Environ}
    (h : planWorkers u mechanism models env = some ps) {j : Job}
    (hj : j ∈ baselineJobs cfg.models) :
    ∃ p ∈ ps, p.name = endpointName j.endpoint ∧ Serves r cfg.toTestbedConfig runid p j := by
  obtain ⟨model, -, rfl⟩ := List.mem_map.mp hj
  have hserves : Serves r cfg.toTestbedConfig runid
      (planEndpoint baselineLabel "baseline".toList (commonEnv mechanism models) .empty none)
      ⟨baselineMechanism, baselineLabel, none, model, .baseline, 0⟩ := by
    have hne : ∀ m : Mechanism, ¬ baselineMechanism = m.name := by
      rintro (_ | _ | _) <;> decide
    refine ⟨rfl, ?_, ?_, ?_⟩
    · rw [if_neg (hne .shim), get?_env]
      rfl
    · rw [if_neg (hne .volumecache)]
      rfl
    · rw [if_neg (hne .modelstore), get?_env]
      rfl
  rw [planWorkers] at h
  split at h
  · rw [← Option.some.inj h]
    exact ⟨_, List.mem_cons_self, rfl, hserves⟩
  · split at h
    · obtain ⟨gb, -, rfl⟩ := Option.map_eq_some_iff.mp h
      exact ⟨_, List.mem_cons_self, rfl, hserves⟩
    · split at h
      · rw [← Option.some.inj h]
        exact ⟨_, List.mem_cons_self, rfl, hserves⟩
      · cases h

theorem group_of_mem_expandJobs {overlap : OrderedDict Str (List Str)} {burst : ℤ} {j : GroupJob}
    (h : j ∈ expandJobs overlap burst) : j.group ∈ overlap.keys := by
  rcases List.mem_append.mp h with h | h
  · obtain ⟨e, he, h⟩ := List.mem_flatMap.mp h
    obtain ⟨m, -, rfl⟩ := List.mem_map.mp h
    exact List.mem_map_of_mem he
  · obtain ⟨e, he, h⟩ := List.mem_flatMap.mp h
    obtain ⟨m, -, h⟩ := List.mem_flatMap.mp h
    obtain ⟨i, -, rfl⟩ := List.mem_map.mp h
    exact List.mem_map_of_mem he

theorem serves_shim (hgroups : ∀ g ∈ cfg.groups, g ∈ shimLabels)
    (hprov : (ShimMechanism.provision cfg.toTestbedConfig runid r).Returns .empty st c)
    (h : flashApp u (deployEnviron environ .shim cfg.toTestbedConfig runid st.metricsUrls) = some ps)
    {j : Job} (hj : j ∈ ShimMechanism.jobs cfg) :
    ∃ p ∈ ps, p.name = endpointName j.endpoint ∧ Serves r cfg.toTestbedConfig runid p j := by
  obtain ⟨g, hg, rfl⟩ := List.mem_map.mp hj
  have hgroup : g.group ∈ cfg.groups := cfg.groups_eq ▸ group_of_mem_expandJobs hg
  obtain ⟨pid, addr, hpid, haddr, hurl⟩ := (ShimMechanism.provision_returns hprov).2 _ hgroup
  rw [flashApp_eq, planWorkers, if_pos rfl, Option.some_inj] at h
  refine ⟨_, h ▸ List.mem_cons_of_mem _ (List.mem_map.mpr ⟨_, hgroups _ hgroup, rfl⟩), rfl, rfl, ?_,
    ?_, ?_⟩
  · rw [if_pos rfl, get?_podAddr hurl, get?_env]
    exact ⟨pid, addr, hpid, haddr, rfl⟩
  · have hne : ¬ Mechanism.shim.name = Mechanism.volumecache.name := by decide
    rw [if_neg hne]
    rfl
  · have hne : ¬ Mechanism.shim.name = Mechanism.modelstore.name := by decide
    rw [if_neg hne, get?_env]
    rfl

theorem serves_volumecache
    (h : flashApp u (deployEnviron environ .volumecache cfg.toTestbedConfig runid st.metricsUrls) =
      some ps) {j : Job} (hj : j ∈ VolumeCacheMechanism.jobs cfg) :
    ∃ p ∈ ps, p.name = endpointName j.endpoint ∧ Serves r cfg.toTestbedConfig runid p j := by
  obtain ⟨model, phase, replica, rfl⟩ :
      ∃ model phase replica, j = VolumeCacheMechanism.job model phase replica := by
    obtain ⟨model, -, hj⟩ := List.mem_flatMap.mp hj
    rcases List.mem_cons.mp hj with rfl | hj
    · exact ⟨_, _, _, rfl⟩
    · obtain ⟨i, -, rfl⟩ := List.mem_map.mp hj
      exact ⟨_, _, _, rfl⟩
  have hshim : ¬ Mechanism.volumecache.name = Mechanism.shim.name := by decide
  have hstore : ¬ Mechanism.volumecache.name = Mechanism.modelstore.name := by decide
  rw [flashApp_eq, planWorkers, if_neg hshim, if_pos rfl, get?_volumeGb, Option.getD_some,
    parseInteger_decimal, get?_volumeName, Option.map_some, Option.some_inj] at h
  refine ⟨_, h ▸ List.mem_cons_of_mem _ List.mem_cons_self, rfl, rfl, ?_, ?_, ?_⟩
  · rw [VolumeCacheMechanism.job, if_neg hshim, get?_env]
    rfl
  · rw [VolumeCacheMechanism.job, if_pos rfl, get?_env]
    exact ⟨rfl, rfl⟩
  · rw [VolumeCacheMechanism.job, if_neg hstore, get?_env]
    rfl

theorem serves_modelstore (hown : cfg.modelstoreEndpoints.items = [])
    (hmodels : ∀ model ∈ cfg.models, model ≠ [] ∧ ',' ∉ model)
    (h : flashApp u (deployEnviron environ .modelstore cfg.toTestbedConfig runid st.metricsUrls) =
      some ps) {j : Job} (hj : j ∈ ModelStoreMechanism.jobs cfg) :
    ∃ p ∈ ps, p.name = endpointName j.endpoint ∧ Serves r cfg.toTestbedConfig runid p j := by
  obtain ⟨e, he, hj⟩ := List.mem_flatMap.mp hj
  obtain ⟨i, -, rfl⟩ := List.mem_map.mp hj
  have hshim : ¬ Mechanism.modelstore.name = Mechanism.shim.name := by decide
  have hvolume : ¬ Mechanism.modelstore.name = Mechanism.volumecache.name := by decide
  have hlabel : ModelStoreMechanism.label cfg.toTestbedConfig e.2 = modelLabel e.2 := by
    rw [ModelStoreMechanism.label, if_pos hown, List.nil_append]
  have henv : (Mechanism.modelstore.launchEnv cfg.toTestbedConfig).models =
      [','].intercalate cfg.models := by
    show (ModelStoreMechanism.modelsEnv _).models = _
    rw [ModelStoreMechanism.modelsEnv, if_pos hown]
    rfl
  rw [flashApp_eq, planWorkers, if_neg hshim, if_neg hvolume, if_pos rfl, henv,
    models_join hmodels, Option.some_inj] at h
  refine ⟨_, h ▸ List.mem_cons_of_mem _ (List.mem_map.mpr ⟨e, he, rfl⟩), ?_, rfl, ?_, ?_, ?_⟩
  · show endpointName (modelLabel e.2) = _
    rw [hlabel]
  · rw [if_neg hshim, get?_env]
    rfl
  · rw [if_neg hvolume]
    rfl
  · rw [if_pos rfl, get?_env]
    rfl

/-- The saved id of a planned endpoint. -/
theorem get?_of_planned
    (h : flashApp u (deployEnviron environ m cfg.toTestbedConfig runid st.metricsUrls) = some ps)
    {d : OrderedDict Str Str}
    (hd : ∀ l ∈ planLabels m.name (((m.launchEnv cfg.toTestbedConfig).models.splitOn ',').filter
      (· ≠ [])), d.get? l = some (ids (endpointName l)))
    {p : FlashEndpoint} (hp : p ∈ ps) {label : Str} (hlabel : p.name = endpointName label) :
    d.get? label = some (ids p.name) := by
  obtain ⟨ps', hps', hplan⟩ := flashApp_deployed u environ m cfg.toTestbedConfig runid st.metricsUrls
  obtain rfl := Option.some.inj (h.symm.trans hps')
  have hmem : p.name ∈ (planEndpoints (m.launchEnv cfg.toTestbedConfig)).map (·.name) := by
    rw [← hplan, List.map_map]
    exact List.mem_map_of_mem (f := fun p : FlashEndpoint => p.name) hp
  rw [planEndpoints_names, launchEnv_mechanism] at hmem
  obtain ⟨l, hl, heq⟩ := List.mem_map.mp hmem
  obtain rfl : l = label := List.append_cancel_left (heq.trans hlabel)
  rw [hlabel]
  exact hd l hl

/-- Resolving succeeds if every label has an endpoint. -/
theorem exists_resolveEndpoints {jobs : List Job} (endpoints : OrderedDict Str Str)
    (h : ∀ j ∈ jobs, ∃ id, endpoints.get? j.endpoint = some id) :
    ∃ eids, resolveEndpoints jobs endpoints = some eids ∧
      ∀ j ∈ jobs, eids.get? j.endpoint = endpoints.get? j.endpoint := by
  obtain ⟨eids, heids⟩ : ∃ eids, resolveEndpoints jobs endpoints = some eids := by
    refine ⟨_, if_neg fun hany => ?_⟩
    obtain ⟨w, hw, hnot⟩ := List.any_eq_true.mp hany
    obtain ⟨j, hj, rfl⟩ := List.mem_map.mp (List.mem_dedup.mp hw)
    obtain ⟨id, hid⟩ := h j hj
    rw [hid] at hnot
    cases hnot
  refine ⟨eids, heids, fun j hj => ?_⟩
  obtain ⟨id, hid, hid'⟩ := resolveEndpoints_eq_some heids hj
  rw [hid, hid']

end Workers

/-- **From the provision to the drive.**  After a provision that returned, with a manifest of what
it deployed, the drive finds an endpoint for each of its jobs: either one of the deployed workers,
which does what the job is there for, or, where the models have endpoints of an earlier run, the
one of its model. -/
theorem jobs_served (u : DigitTable) (environ : Environ) {cfg : DriveConfig} {m : Mechanism}
    {runid : Str} {r : Remote} {st : ProvisionState} {c : Cloud} {ids : Str → Str}
    (hgroups : m = .shim → ∀ g ∈ cfg.groups, g ∈ shimLabels)
    (hmodels : m = .modelstore → ∀ model ∈ cfg.models, model ≠ [] ∧ ',' ∉ model)
    (hprov : (provision m cfg.toTestbedConfig runid r).Returns .empty st c)
    (hwrote : r.Wrote (planEndpoints (m.launchEnv cfg.toTestbedConfig)) ids) :
    ∃ ps eids,
      flashApp u (deployEnviron environ m cfg.toTestbedConfig runid st.metricsUrls) = some ps ∧
      resolveEndpoints (driverJobs cfg m) st.endpoints = some eids ∧
      ∀ j ∈ driverJobs cfg m,
        (∃ p ∈ ps, eids.get? j.endpoint = some (ids p.name) ∧
          Serves r cfg.toTestbedConfig runid p j) ∨
        j ∈ ModelStoreMechanism.jobs cfg ∧ ∃ live ∈ r.live, ∃ id ∈ live,
          eids.get? j.endpoint = some id ∧ cfg.modelstoreEndpoints.get? j.model = some id := by
  obtain ⟨d, hmanifest, hd⟩ := hwrote.get? (planEndpoints_names _) (planLabels_nodup u)
    fun _ hl => planLabels_plain hl
  rw [launchEnv_mechanism] at hd
  obtain ⟨ps, hps, -⟩ := flashApp_deployed u environ m cfg.toTestbedConfig runid st.metricsUrls
  have hbase : ∀ j ∈ baselineJobs cfg.models, ∃ p ∈ ps, p.name = endpointName j.endpoint ∧
      Serves r cfg.toTestbedConfig runid p j :=
    fun j hj => serves_baseline (flashApp_eq ▸ hps) hj
  -- it is enough to look into what the provision has saved
  suffices hsaved : ∀ j ∈ driverJobs cfg m,
      (∃ p ∈ ps, st.endpoints.get? j.endpoint = some (ids p.name) ∧
        Serves r cfg.toTestbedConfig runid p j) ∨
      j ∈ ModelStoreMechanism.jobs cfg ∧ ∃ live ∈ r.live, ∃ id ∈ live,
        st.endpoints.get? j.endpoint = some id ∧
          cfg.modelstoreEndpoints.get? j.model = some id by
    obtain ⟨eids, heids, hget⟩ := exists_resolveEndpoints st.endpoints fun j hj => by
      rcases hsaved j hj with ⟨p, -, hid, -⟩ | ⟨-, live, -, id, -, hid, -⟩
      · exact ⟨_, hid⟩
      · exact ⟨id, hid⟩
    refine ⟨ps, eids, hps, heids, fun j hj => ?_⟩
    rw [hget j hj]
    exact hsaved j hj
  have hplanned : ∀ {j : Job}, (∃ p ∈ ps, p.name = endpointName j.endpoint ∧
      Serves r cfg.toTestbedConfig runid p j) → ∃ p ∈ ps, d.get? j.endpoint = some (ids p.name) ∧
        Serves r cfg.toTestbedConfig runid p j :=
    fun ⟨p, hp, hname, hserves⟩ => ⟨p, hp, get?_of_planned hps hd hp hname, hserves⟩
  intro j hj
  cases m with
  | shim =>
    obtain rfl := Option.some.inj (hmanifest.symm.trans (ShimMechanism.provision_returns hprov).1)
    rcases List.mem_append.mp hj with hj | hj
    · exact Or.inl (hplanned (hbase j hj))
    · exact Or.inl (hplanned (serves_shim (hgroups rfl) hprov hps hj))
  | volumecache =>
    obtain rfl :=
      Option.some.inj (hmanifest.symm.trans (VolumeCacheMechanism.provision_returns hprov))
    rcases List.mem_append.mp hj with hj | hj
    · exact Or.inl (hplanned (hbase j hj))
    · exact Or.inl (hplanned (serves_volumecache hps hj))
  | modelstore =>
    obtain ⟨ids', reused, hids', hst, hreused⟩ := ModelStoreMechanism.provision_returns hprov
    obtain rfl := Option.some.inj (hmanifest.symm.trans hids')
    rw [hst, get?_updated]
    by_cases hown : cfg.modelstoreEndpoints.items = []
    · rw [if_pos hown] at hreused
      rw [hreused]
      rcases List.mem_append.mp hj with hj | hj
      · exact Or.inl (hplanned (hbase j hj))
      · exact Or.inl (hplanned (serves_modelstore hown (hmodels rfl) hps hj))
    · rw [if_neg hown] at hreused
      obtain ⟨hnone, live, hlive, hall⟩ :=
        ModelStoreMechanism.validateReused_eq_some u hreused
      rcases List.mem_append.mp hj with hj | hj
      · have hlabel : j.endpoint = baselineLabel := by
          obtain ⟨model, -, rfl⟩ := List.mem_map.mp hj
          rfl
        have hget := hplanned (hbase j hj)
        rw [hlabel] at hget ⊢
        rw [hnone]
        exact Or.inl hget
      · obtain ⟨e, he, hj'⟩ := List.mem_flatMap.mp hj
        obtain ⟨i, -, rfl⟩ := List.mem_map.mp hj'
        obtain ⟨id, hid, hmapped, hget⟩ := hall e he
        have hlabel : ModelStoreMechanism.label cfg.toTestbedConfig e.2 = reusedLabel e.2 := by
          rw [ModelStoreMechanism.label, if_neg hown, reusedLabel]
        refine Or.inr ⟨hj, live, hlive, id, hid, ?_, hmapped⟩
        show (reused.get? (ModelStoreMechanism.label cfg.toTestbedConfig e.2)).or _ = _
        rw [hlabel, hget]
        rfl

/-- One model in the group A. -/
def shimDrive : DriveConfig where
  models := [['m']]
  groups := shimLabels
  groups_nodup := by decide
  maxPods := 3
  volumeGb := 0
  modelstoreEndpoints := .empty
  overlap := .ofPairs [(['A'], [['m']]), (['B'], []), (['C'], [])]
  groups_eq := rfl
  burst := 2

/-- Services that answer all requests. -/
def shimRemote : Remote where
  hfToken := some ['t']
  apiKey := some ['k']
  createPod := fun g => some ('p' :: g)
  waitPod := fun pid => some (httpScheme ++ pid)
  deploys := fun _ => true
  volume := none
  deployOk := true
  manifest := some ((planEndpoints (deployEnv .shim shimDrive.toTestbedConfig)).map fun p =>
    (p.name, some ('e' :: p.name)))
  listed := none
  live := none

theorem jobs_served_shim :
    ∃ st c eids, (provision .shim shimDrive.toTestbedConfig ['r'] shimRemote).Returns .empty st c ∧
      resolveEndpoints (driverJobs shimDrive .shim) st.endpoints = some eids ∧
      (driverJobs shimDrive .shim).length = 4 := by
  obtain ⟨st, c, hprov⟩ : ∃ st c,
      (provision .shim shimDrive.toTestbedConfig ['r'] shimRemote).Returns .empty st c := ⟨_, _, rfl⟩
  obtain ⟨-, eids, -, heids, -⟩ := jobs_served asciiDigits .empty
    (fun _ g hg => hg) (fun h => Mechanism.noConfusion h) hprov ⟨_, rfl, List.Perm.refl _⟩
  exact ⟨st, c, eids, hprov, heids, rfl⟩

end XetDcCache
