import Pillar.Manifest.Prune
import Pillar.QuotaLedger.Ledger

/-!
# Charging manifests

`pillar-manifest`'s admission hook: a manifest may ask for an amount of a budget, and applying it
reserves that amount on a quota ledger.

* `reserved_pass` — **one pass adds what it admits to what was reserved before**.
* `reserved_eq_liveQuota_iff` — **the ledger holds the quota of the live manifests precisely if
  nothing was reserved before**.
-/

namespace Pillar.Manifest.Admission

open Lib.Runs QuotaLedger Reconciler ControllerRegistry
open Std (ExtTreeMap)

variable {H : Bytes → Bytes}

/-! ## The hook -/

def quotaRequestField : Str := .lit "quota"

inductive AdmissionOutcome where
  | admitted (id : ReservationId)
  | noRequest
  | refused (e : LedgerError)
  deriving DecidableEq

def requestedQuota (crd : Crd) : Option ℕ :=
  match crd.spec[quotaRequestField]? with
  | some (.integer n) => if 0 ≤ n.toInt then some n.toInt.toNat else none
  | _ => none

/-- The amount that a manifest is charged. -/
def quotaOf (crd : Crd) : ℕ := (requestedQuota crd).getD 0

/-- A hook that charges a budget; the ledger is the cell. -/
structure QuotaAdmissionHook where
  candidate : NodeId
  voters : List NodeId

/-- The votes for the pending slot are collected, up to the first that is refused. -/
def grantAll (candidate : NodeId) :
    List NodeId → QuotaLedger H → QuotaLedger H × Except LedgerError Unit
  | [], ledger => (ledger, .ok ())
  | v :: voters, ledger =>
    match ledger.grant v candidate with
    | (ledger, .ok ()) => grantAll candidate voters ledger
    | (ledger, .error e) => (ledger, .error e)

namespace QuotaAdmissionHook

variable (hook : QuotaAdmissionHook)

/-- The quota that a manifest asks for is reserved. -/
def admitCrd (ledger : QuotaLedger H) (crd : Crd) : AdmissionOutcome × QuotaLedger H :=
  match requestedQuota crd with
  | none => (.noRequest, ledger)
  | some amount =>
    match grantAll hook.candidate hook.voters ledger with
    | (ledger, .error e) => (.refused e, ledger)
    | (ledger, .ok ()) =>
      match ledger.admitFor hook.candidate amount with
      | (ledger, .ok id) => (.admitted id, ledger)
      | (ledger, .error e) => (.refused e, ledger)

end QuotaAdmissionHook

def debugText : LedgerError → String
  | .notAQuotaBudget => "NotAQuotaBudget"
  | .wouldExceedBudget requested available =>
    "WouldExceedBudget \x7b requested: " ++ toString requested ++ ", available: " ++
      toString available ++ " \x7d"
  | .notQuorumFenced => "NotQuorumFenced"
  | .grant (.staleEpoch current) =>
    "Grant(StaleEpoch \x7b current: Epoch(" ++ toString current ++ ") \x7d)"
  | .unknownReservation id =>
    "UnknownReservation(ReservationId \x7b budget: Cid(\"" ++ id.budget.val ++ "\"), slot: " ++
      toString id.slot ++ " \x7d)"

def AdmissionOutcome.toReconcileOutcome : AdmissionOutcome → ReconcileOutcome
  | .admitted _ | .noRequest => .reconciled
  | .refused (.wouldExceedBudget requested available) =>
    .failed ("quota admission refused: requested " ++ toString requested ++ " exceeds available " ++
      toString available)
  | .refused e => .failed ("quota admission refused: " ++ debugText e)

def QuotaAdmissionHook.controllerHook (hook : QuotaAdmissionHook) :
    ControllerHook (QuotaLedger H) where
  reconcile ledger crd :=
    let (outcome, ledger) := hook.admitCrd ledger crd
    (outcome.toReconcileOutcome, ledger)
  delete ledger _ := (.reconciled, ledger)

/-! ## One manifest -/

def AdmissionOutcome.isAdmitted : AdmissionOutcome → Bool
  | .admitted _ | .noRequest => true
  | .refused _ => false

theorem toReconcileOutcome_eq_reconciled_iff {outcome : AdmissionOutcome} :
    outcome.toReconcileOutcome = .reconciled ↔ outcome.isAdmitted = true := by
  cases outcome with
  | admitted id | noRequest => exact iff_of_true rfl rfl
  | refused e => cases e <;> simp [AdmissionOutcome.toReconcileOutcome, AdmissionOutcome.isAdmitted]

variable {ledger : QuotaLedger H}

theorem grantAll_sound (candidate : NodeId) (voters : List NodeId) (h : ledger.Sound) :
    (grantAll candidate voters ledger).1.Sound ∧
      (grantAll candidate voters ledger).1.reserved = ledger.reserved := by
  induction voters generalizing ledger with
  | nil => exact ⟨h, rfl⟩
  | cons v voters ih =>
    have hsound : (ledger.grant v candidate).1.Sound := sound_apply h (.grant v candidate)
    rw [grantAll]
    split
    · next hgrant =>
      rw [hgrant] at hsound
      obtain ⟨hs, hr⟩ := ih hsound
      refine ⟨hs, hr.trans ?_⟩
      exact congrArg (fun g => (g : QuotaLedger H × _).1.reserved) hgrant.symm
    · next hgrant =>
      rw [hgrant] at hsound
      exact ⟨hsound, congrArg (fun g => (g : QuotaLedger H × _).1.reserved) hgrant.symm⟩

theorem reserved_admitFor (h : ledger.Sound) (candidate : NodeId) (amount : ℕ) :
    (ledger.admitFor candidate amount).1.reserved =
      ledger.reserved + if (ledger.admitFor candidate amount).2.isOk then amount else 0 := by
  by_cases hgates : ledger.Gates candidate amount
  · rw [if_pos (admitFor_isOk_iff.2 hgates)]
    exact reserved_insert h.fresh (admitFor_outstanding_of_gates hgates)
  · rw [if_neg (mt admitFor_isOk_iff.1 hgates), reserved,
      admitFor_outstanding_of_not_gates hgates]
    rfl

/-- **One manifest**: what it asks for is reserved, unless it is refused. -/
theorem reserved_admit (hook : QuotaAdmissionHook) (h : ledger.Sound) (crd : Crd) :
    (hook.admitCrd ledger crd).2.Sound ∧ (hook.admitCrd ledger crd).2.reserved =
      ledger.reserved + if (hook.admitCrd ledger crd).1.isAdmitted then quotaOf crd else 0 := by
  rw [QuotaAdmissionHook.admitCrd, quotaOf]
  cases hrequest : requestedQuota crd with
  | none => exact ⟨h, rfl⟩
  | some amount =>
    obtain ⟨hsound, hreserved⟩ := grantAll_sound hook.candidate hook.voters h
    cases hgrants : grantAll hook.candidate hook.voters ledger with
    | mk granted result =>
      rw [hgrants] at hsound hreserved
      cases result with
      | error e => exact ⟨hsound, hreserved⟩
      | ok _ =>
        have hadmit := reserved_admitFor hsound hook.candidate amount
        have hkept : (granted.admitFor hook.candidate amount).1.Sound :=
          sound_apply hsound (.admitFor hook.candidate amount)
        cases hresult : granted.admitFor hook.candidate amount with
        | mk charged result =>
          rw [hresult] at hadmit hkept
          rw [hreserved] at hadmit
          cases result with
          | error e | ok id =>
            simp only [hresult]
            exact ⟨hkept, hadmit⟩

/-! ## One pass -/

def registry (hook : QuotaAdmissionHook) (kind : Str × Str) :
    ControllerRegistry (QuotaLedger H) where
  hooks k := if k = kind then some hook.controllerHook else none

def admittedAt (source : ManifestSource) (o : PathOutcome) : Option Crd :=
  if o.outcome = some .reconciled then source.manifests[o.path]? else none

def charge (source : ManifestSource) (o : PathOutcome) : ℕ :=
  ((admittedAt source o).map quotaOf).getD 0

/-- A ledger is sound, and what it reserves is what it did and what was charged. -/
structure Charged (source : ManifestSource) (before : ℕ) (acc : List PathOutcome × QuotaLedger H) :
    Prop where
  sound : acc.2.Sound
  reserved : acc.2.reserved = before + (acc.1.map (charge source)).sum

section Pass

variable {hook : QuotaAdmissionHook} {kind : Str × Str} {r : Reconciler} {source : ManifestSource}
  {before : ℕ} {acc : List PathOutcome × QuotaLedger H} {entry : ManifestPath × Crd}

theorem charged_applyOne (h : Charged source before acc)
    (hentry : source.manifests[entry.1]? = some entry.2) :
    Charged source before (r.applyOne (registry hook kind) acc entry) := by
  rw [applyOne]
  split
  · next outcome ledger hdispatch =>
    have hkind : (entry.2.apiVersion, entry.2.kind) = kind := by
      by_contra hne
      simp [dispatch, registry, hne] at hdispatch
    obtain ⟨hsound, hreserved⟩ := reserved_admit hook h.sound entry.2
    obtain ⟨rfl, rfl⟩ : (hook.admitCrd acc.2 entry.2).1.toReconcileOutcome = outcome ∧
        (hook.admitCrd acc.2 entry.2).2 = ledger := by
      simpa [dispatch, registry, hkind, QuotaAdmissionHook.controllerHook]
        using hdispatch
    refine ⟨hsound, ?_⟩
    rw [hreserved, h.reserved]
    by_cases hadmitted : (hook.admitCrd acc.2 entry.2).1.isAdmitted = true <;>
      simp [charge, admittedAt, hentry, toReconcileOutcome_eq_reconciled_iff, hadmitted, add_assoc]
  · exact h

theorem charged_pruneOne (h : Charged source before acc)
    (hentry : source.manifests.contains entry.1 = false) :
    Charged source before (r.pruneOne (registry hook kind) acc entry) := by
  have hgone : source.manifests[entry.1]? = none :=
    ExtTreeMap.getElem?_eq_none_of_contains_eq_false hentry
  have hkept : ((registry hook kind).delete acc.2 entry.2).2 = acc.2 := by
    rw [delete]
    split
    · next hook' hhook =>
      simp only [registry] at hhook
      split at hhook
      · cases hhook
        rfl
      · cases hhook
    · rfl
  have hcharge : ∀ change outcome, charge source ⟨entry.1, change, outcome⟩ = 0 := by
    intro change outcome
    simp [charge, admittedAt, hgone]
  rw [pruneOne]
  split_ifs
  · refine ⟨?_, ?_⟩
    · show ((registry hook kind).delete acc.2 entry.2).2.Sound
      rw [hkept]
      exact h.sound
    · simp [hkept, h.reserved, hcharge]
  · refine ⟨h.sound, ?_⟩
    simp [h.reserved, hcharge]

/-- **One pass adds what it admits to what was reserved before.** -/
theorem reserved_pass {s : Reconciler × QuotaLedger H} (hs : s.2.Sound) {report : ReconcileReport}
    (h : Prune.answer s ⟨source, registry hook kind⟩ = .ok report) :
    (Prune.step s ⟨source, registry hook kind⟩).2.Sound ∧
      (Prune.step s ⟨source, registry hook kind⟩).2.reserved =
        s.2.reserved + (report.outcomes.map (charge source)).sum := by
  have hstart : Charged source s.2.reserved ([], s.2) := ⟨hs, rfl⟩
  have happlied : Charged source s.2.reserved
      (source.manifests.toList.foldl (s.1.applyOne (registry hook kind)) ([], s.2)) := by
    refine List.foldlRecOn _ _ hstart fun acc hacc entry hentry => charged_applyOne hacc ?_
    exact ExtTreeMap.mem_toList_iff_getElem?_eq_some.1 hentry
  have hpruned := List.foldlRecOn (s.1.removed source) (s.1.pruneOne (registry hook kind)) happlied
    fun acc hacc entry hentry =>
      charged_pruneOne hacc (by simpa using (List.mem_filter.1 hentry).2)
  rw [Prune.step, (reconcile_of_ok h).2]
  refine ⟨hpruned.sound, hpruned.reserved.trans ?_⟩
  rw [Prune.answer, reconcile] at h
  split at h
  · cases h
  · cases h
    rw [((List.mergeSort_perm _ _).map (charge source)).sum_eq]

end Pass

/-! ## Every path once -/

section Paths

variable {σ : Type} {controllers : ControllerRegistry σ} {r : Reconciler}

theorem paths_foldl_applyOne (l : List (ManifestPath × Crd))
    (hl : ∀ entry ∈ l, controllers.contains entry.2 = true) (acc : List PathOutcome × σ) :
    (l.foldl (r.applyOne controllers) acc).1.map (·.path) =
      acc.1.map (·.path) ++ l.map Prod.fst := by
  induction l generalizing acc with
  | nil => simp
  | cons entry l ih =>
    obtain ⟨hook, hhook⟩ := Option.isSome_iff_exists.1 (hl entry List.mem_cons_self)
    rw [List.foldl_cons, ih fun e he => hl e (List.mem_cons_of_mem entry he)]
    simp [applyOne, dispatch, hhook]

theorem paths_foldl_pruneOne (l : List (ManifestPath × Crd)) (acc : List PathOutcome × σ) :
    (l.foldl (r.pruneOne controllers) acc).1.map (·.path) =
      acc.1.map (·.path) ++ l.map Prod.fst := by
  induction l generalizing acc with
  | nil => simp
  | cons entry l ih =>
    rw [List.foldl_cons, ih, pruneOne]
    split_ifs <;> simp

theorem nodup_paths {s : Reconciler × σ} {source : ManifestSource} {report : ReconcileReport}
    (h : Prune.answer s ⟨source, controllers⟩ = .ok report) :
    (report.outcomes.map (·.path)).Nodup := by
  have hcontrolled := (reconcile_of_ok h).1
  rw [Prune.answer, reconcile] at h
  split at h
  · cases h
  · cases h
    rw [((List.mergeSort_perm _ _).map _).nodup_iff, paths_foldl_pruneOne,
      paths_foldl_applyOne _ hcontrolled, List.map_nil, List.nil_append, List.nodup_append]
    refine ⟨?_, ?_, ?_⟩
    · rw [ExtTreeMap.map_fst_toList_eq_keys]
      exact ExtTreeMap.nodup_keys
    · refine List.Nodup.sublist (List.filter_sublist.map _) ?_
      rw [ExtTreeMap.map_fst_toList_eq_keys]
      exact ExtTreeMap.nodup_keys
    · rintro p hp q hq rfl
      obtain ⟨entry, hentry, rfl⟩ := List.mem_map.1 hp
      obtain ⟨entry', hentry', hfst⟩ := List.mem_map.1 hq
      have hthere : source.manifests[entry.1]? = some entry.2 :=
        ExtTreeMap.mem_toList_iff_getElem?_eq_some.1 hentry
      have hgone : source.manifests.contains entry'.1 = false := by
        simpa using (List.mem_filter.1 hentry').2
      rw [← hfst, ExtTreeMap.getElem?_eq_none_of_contains_eq_false hgone] at hthere
      cases hthere

end Paths

/-! ## The manifests that are live -/

def Once (manifests : ExtTreeMap ManifestPath Crd) : Prop :=
  ∀ (p q : ManifestPath) (crd : Crd), manifests[p]? = some crd → manifests[q]? = some crd → p = q

def liveQuota (source : ManifestSource) (report : ReconcileReport) : ℕ :=
  ∑ crd ∈ (report.outcomes.filterMap (admittedAt source)).toFinset, quotaOf crd

variable {source : ManifestSource}

theorem admittedAt_eq_some_iff {o : PathOutcome} {crd : Crd} :
    admittedAt source o = some crd ↔
      o.outcome = some .reconciled ∧ source.manifests[o.path]? = some crd := by
  rw [admittedAt]
  split_ifs with h <;> simp [h]

theorem sum_charge (source : ManifestSource) (outcomes : List PathOutcome) :
    (outcomes.map (charge source)).sum =
      ((outcomes.filterMap (admittedAt source)).map quotaOf).sum := by
  induction outcomes with
  | nil => rfl
  | cons o outcomes ih =>
    cases ho : admittedAt source o <;> simp [charge, ho, ih]

variable {report : ReconcileReport} {s : Reconciler × QuotaLedger H}

theorem sum_charge_eq_liveQuota (honce : Once source.manifests)
    (hpaths : (report.outcomes.map (·.path)).Nodup) :
    (report.outcomes.map (charge source)).sum = liveQuota source report := by
  rw [sum_charge, liveQuota, List.sum_toFinset]
  refine List.pairwise_filterMap.2 ((List.pairwise_map.1 hpaths).imp ?_)
  rintro o o' hne crd ho crd' ho' rfl
  exact hne (honce _ _ crd (admittedAt_eq_some_iff.1 ho).2 (admittedAt_eq_some_iff.1 ho').2)

/-- **The ledger holds the quota of the live manifests precisely if nothing was reserved before the
pass.** -/
theorem reserved_eq_liveQuota_iff {hook : QuotaAdmissionHook} {kind : Str × Str} (hs : s.2.Sound)
    (honce : Once source.manifests) (h : Prune.answer s ⟨source, registry hook kind⟩ = .ok report) :
    (Prune.step s ⟨source, registry hook kind⟩).2.reserved = liveQuota source report ↔
      s.2.reserved = 0 := by
  rw [(reserved_pass hs h).2, sum_charge_eq_liveQuota honce (nodup_paths h)]
  omega

/-! ## Sequences of revisions -/

def step (hook : QuotaAdmissionHook) (kind : Str × Str) (s : Reconciler × QuotaLedger H)
    (source : ManifestSource) : Reconciler × QuotaLedger H :=
  Prune.step s ⟨source, registry hook kind⟩

theorem sound_step {hook : QuotaAdmissionHook} {kind : Str × Str} (hs : s.2.Sound)
    (source : ManifestSource) :
    (step hook kind s source).2.Sound := by
  cases hanswer : Prune.answer s ⟨source, registry hook kind⟩ with
  | ok report => exact (reserved_pass hs hanswer).1
  | error e =>
    rw [step, Prune.step, reconcile_of_error hanswer]
    exact hs

/-- **Quota is charged per live manifest precisely if it is never charged twice.** -/
theorem charged_per_workload_iff (hook : QuotaAdmissionHook) (kind : Str × Str)
    (schemas : SchemaRegistry) {cid : Cid} {quota : Option ℕ} {n : ℕ} {ledger : QuotaLedger H}
    (hledger : forBudget cid quota n = .ok ledger) (sources : List ManifestSource)
    (honce : ∀ source ∈ sources, Once source.manifests) :
    (∀ p source report, p ++ [source] <+: sources →
        Prune.answer (exec (step hook kind) (.new schemas, ledger) p)
          ⟨source, registry hook kind⟩ = .ok report →
        (exec (step hook kind) (.new schemas, ledger) (p ++ [source])).2.reserved =
          liveQuota source report) ↔
      ∀ p source report, p ++ [source] <+: sources →
        Prune.answer (exec (step hook kind) (.new schemas, ledger) p)
          ⟨source, registry hook kind⟩ = .ok report →
        (exec (step hook kind) (.new schemas, ledger) p).2.reserved = 0 := by
  have hsound : ∀ p, (exec (step hook kind) (new schemas, ledger) p).2.Sound :=
    exec_inv (I := fun s : Reconciler × QuotaLedger H => s.2.Sound)
      (fun _ source hs => sound_step hs source) (sound_forBudget hledger)
  refine forall_congr' fun p => forall_congr' fun source => forall_congr' fun report =>
    forall_congr' fun hp => forall_congr' fun hanswer => ?_
  rw [exec_concat]
  exact reserved_eq_liveQuota_iff (hsound p) (honce source (hp.subset (by simp))) hanswer

/-! ## A job that stays, and is taken out -/

def jobKind : Str := .lit "Job"

def job : Crd :=
  ⟨routeVersion, jobKind, ⟨routeX, ∅⟩,
    (∅ : ExtTreeMap Str Value).insert quotaRequestField (.integer 3)⟩

def jobSchemas : SchemaRegistry where
  schemas k := if k = (routeVersion, jobKind) then
      some ⟨routeVersion, jobKind, (∅ : ExtTreeMap Str FieldType).insert quotaRequestField .integer,
        ∅⟩
    else none

def soleVoter : QuotaAdmissionHook := ⟨"n", ["v"]⟩

def tenOfOne : QuotaLedger (tableDigest []) := ⟨⟨"q"⟩, 10, .new 1, 0, ∅, .new⟩

/-- The reconciler and the ledger after passes over these repositories. -/
def after (sources : List ManifestSource) : Reconciler × QuotaLedger (tableDigest []) :=
  exec (step soleVoter (routeVersion, jobKind)) (.new jobSchemas, tenOfOne) sources

def nextAnswer (sources : List ManifestSource) (source : ManifestSource) :
    Except ReconcileError ReconcileReport :=
  Prune.answer (after sources) ⟨source, registry soleVoter (routeVersion, jobKind)⟩

theorem once_single (path : ManifestPath) (crd : Crd) : Once (single path crd).manifests := by
  intro p q c hp hq
  exact (getElem?_single.1 hp).1.symm.trans (getElem?_single.1 hq).1

/-- A job is applied once: it is charged once. -/
theorem job_charged_once :
    ∃ report, nextAnswer [] (single "a.yaml" job) = .ok report ∧
      (after [single "a.yaml" job]).2.reserved = liveQuota (single "a.yaml" job) report := by
  refine ⟨_, rfl, (charged_per_workload_iff soleVoter (routeVersion, jobKind) jobSchemas
    (show forBudget ⟨"q"⟩ (some 10) 1 = .ok tenOfOne from rfl) [single "a.yaml" job] ?_).2 ?_
    [] (single "a.yaml" job) _ (List.prefix_refl _) rfl⟩
  · intro source hsource
    obtain rfl := List.mem_singleton.1 hsource
    exact once_single _ _
  · intro p source report hp _
    obtain rfl : p = [] := by
      have hlength := hp.length_le
      simpa using hlength
    rfl

/-- A job stays in the repository: it is charged again. -/
theorem charged_per_pass :
    (∃ report, nextAnswer [single "a.yaml" job] (single "a.yaml" job) = .ok report ∧
      liveQuota (single "a.yaml" job) report = 3 ∧
      (after [single "a.yaml" job, single "a.yaml" job]).2.reserved = 6) ∧
    ∃ report, nextAnswer [single "a.yaml" job] Prune.emptied = .ok report ∧
      liveQuota Prune.emptied report = 0 ∧
      (after [single "a.yaml" job, Prune.emptied]).2.reserved = 3 := by
  refine ⟨⟨⟨[⟨"a.yaml", .unchanged, some .reconciled⟩]⟩, ?_, ?_, ?_⟩,
    ⟨[⟨"a.yaml", .pruned, some .reconciled⟩]⟩, ?_, ?_, ?_⟩ <;> decide +kernel

end Pillar.Manifest.Admission
