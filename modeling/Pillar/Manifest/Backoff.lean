import Pillar.Manifest.RunHistory

/-!
# Failures and the backoff budget

A failure reported by `fail` is charged to the job, and refused when the budget is used up.

* `failures_eq` — **the account**: what became failed is what was charged and what was replaced,
  whatever calls are made.
-/

namespace Pillar.Manifest

open Std Lib.Runs Lib.SharedLedger Pillar.Topology

namespace Scheduler

/-- Whether the count of a job's failures starts again: it is registered, or a run succeeds. -/
def resets (s : Scheduler) (id : String) : Op → Bool
  | .register id' _ => id' == id
  | .succeed id' => id' == id && (s.succeed id').isOk
  | _ => false

def failedBy (id : String) (s : Scheduler) (op : Op) : ℕ :=
  (s.terminatedBy op).countP fun r => r.job == id && r.status == .failed

/-- The running runs of a job that a call replaces. -/
def replacedBy (id : String) (s : Scheduler) : Op → ℕ
  | .fire id' tier => (s.terminatedBy (.fire id' tier)).countP (·.job == id)
  | _ => 0

/-- What a count comes to over a sequence of calls, from the last call that starts it again. -/
def sinceReset (count : Scheduler → Op → ℕ) (id : String) (s : Scheduler) (n : ℕ) :
    List Op → ℕ
  | [] => n
  | op :: ops =>
    sinceReset count id (s.step op) (if s.resets id op then 0 else n + count s op) ops

def failures (hierarchy : TierHierarchy) (ops : List Op) (id : String) : ℕ :=
  sinceReset (failedBy id) id (.new hierarchy) 0 ops

def replacements (hierarchy : TierHierarchy) (ops : List Op) (id : String) : ℕ :=
  sinceReset (replacedBy id) id (.new hierarchy) 0 ops

theorem sinceReset_concat (count : Scheduler → Op → ℕ) (id : String) (s : Scheduler) (n : ℕ)
    (ops : List Op) (op : Op) :
    sinceReset count id s n (ops ++ [op]) = if (exec step s ops).resets id op then 0
      else sinceReset count id s n ops + count (exec step s ops) op := by
  induction ops generalizing s n with
  | nil => rfl
  | cons op' ops ih => exact ih _ _

variable {s : Scheduler} {id id' tier : String} {job : Job}

/-! ## One call -/

variable {op : Op}

theorem step_of_ne (h : op.id ≠ id) :
    (s.step op).jobs[id]? = s.jobs[id]? ∧ (s.step op).backoffOf id = s.backoffOf id := by
  cases op with
  | register id' job => simp_all [step, register, backoffOf, ExtTreeMap.getElem?_insert, Op.id]
  | unregister id' => simp_all [step, unregister, backoffOf, ExtTreeMap.getElem?_erase, Op.id]
  | fire id' tier =>
    rcases fire_cases s id' tier with ⟨err, hfire⟩ | ⟨job, -, hfire⟩ | ⟨job, -, -, -, hfire⟩
    · simp [step, hfire]
    · simp [step, hfire]
    · rw [step, hfire]
      exact ⟨congrArg (·[id]?) jobs_cleared, backoffOf_cleared⟩
  | succeed id' =>
    rcases succeed_cases s id' with ⟨err, herr⟩ | ⟨job, runs, -, -, hok⟩
    · simp [step, herr]
    · simp_all [step, backoffOf, ExtTreeMap.getElem?_insert, Op.id]
  | fail id' =>
    rcases fail_cases s id' with ⟨err, herr⟩ | ⟨job, runs, -, -, -, hok⟩
    · simp [step, herr]
    · simp_all [step, backoffOf, ExtTreeMap.getElem?_insert, Op.id]

theorem resets_of_ne (h : op.id ≠ id) : s.resets id op = false := by
  cases op <;> simp_all [resets, Op.id]

theorem failedBy_of_ne (h : op.id ≠ id) : failedBy id s op = 0 := by
  refine List.countP_eq_zero.2 fun r hr => ?_
  simp [job_of_mem_terminatedBy hr, h]

theorem replacedBy_of_ne (h : op.id ≠ id) : replacedBy id s op = 0 := by
  cases op with
  | fire id' tier =>
    refine List.countP_eq_zero.2 fun r hr => ?_
    simpa [job_of_mem_terminatedBy hr] using h
  | _ => rfl

theorem failedBy_fire : failedBy id s (.fire id' tier) = replacedBy id s (.fire id' tier) := by
  refine List.countP_congr fun r hr => ?_
  have hfailed : r.status = .failed := by
    rw [terminatedBy] at hr
    split at hr
    · split_ifs at hr
      · obtain ⟨r₀, -, rfl⟩ := List.mem_map.1 hr
        rfl
      · simp at hr
    · simp at hr
  simp [hfailed]

theorem failedBy_fail {runs : List Run} {s' : Scheduler} (hok : s.fail id = .ok s')
    (hmark : modifyFirst (Run.isRunning id) (Run.withStatus .failed) s.runs = some runs) :
    failedBy id s (.fail id) = 1 := by
  obtain ⟨t, r, rest, hruns, ht, hr, -⟩ := modifyFirst_eq_some_iff.1 hmark
  have hfound : s.runs.find? (Run.isRunning id) = some r := by
    rw [hruns, List.find?_append, List.find?_eq_none.2 (by simpa using ht)]
    simp [hr]
  rw [failedBy, terminatedBy, hok]
  simp [hfound, (Run.isRunning_iff.1 hr).1]

/-- What holds of a job's account after a call: what is charged is within the budget, and it is
nothing when the count starts again; otherwise what became failed was charged or replaced. -/
structure Accounted (s : Scheduler) (op : Op) (id : String) (job : Job) : Prop where
  budget : (s.step op).backoffOf id ≤ job.maxBackoff
  /-- Nothing is charged when the count starts again. -/
  reset : s.resets id op = true → (s.step op).backoffOf id = 0
  charged : s.resets id op = false → s.jobs[id]? = some job ∧
    (s.backoffOf id).toNat + failedBy id s op =
      ((s.step op).backoffOf id).toNat + replacedBy id s op

theorem Accounted.unchanged (hjob : s.jobs[id]? = some job)
    (hbudget : s.backoffOf id ≤ job.maxBackoff)
    (hbackoff : (s.step op).backoffOf id = s.backoffOf id) (hresets : s.resets id op = false)
    (hfailed : failedBy id s op = replacedBy id s op) : Accounted s op id job := by
  refine ⟨hbackoff ▸ hbudget, fun hreset => ?_, fun _ => ⟨hjob, by rw [hbackoff, hfailed]⟩⟩
  rw [hresets] at hreset
  cases hreset

theorem accounted_step (op : Op) (hjob : (s.step op).jobs[id]? = some job)
    (hbudget : ∀ job', s.jobs[id]? = some job' → s.backoffOf id ≤ job'.maxBackoff) :
    Accounted s op id job := by
  by_cases hid : op.id = id
  swap
  · obtain ⟨hjobs, hbackoff⟩ := step_of_ne (s := s) hid
    rw [hjobs] at hjob
    exact .unchanged hjob (hbudget job hjob) hbackoff (resets_of_ne hid)
      ((failedBy_of_ne hid).trans (replacedBy_of_ne hid).symm)
  · subst hid
    cases op with
    | register id job' =>
      have hzero : (s.register id job').backoffOf id = 0 := by simp [backoffOf, register]
      exact ⟨hzero ▸ UInt32.zero_le, fun _ => hzero, fun h => by simp [resets, Op.id] at h⟩
    | unregister id => simp [step, unregister, Op.id] at hjob
    | fire id tier =>
      rcases fire_cases s id tier with ⟨err, hfire⟩ | ⟨_, -, hfire⟩ | ⟨_, -, -, -, hfire⟩
      · rw [step, hfire] at hjob
        exact .unchanged hjob (hbudget job hjob) (by rw [step, hfire]) rfl failedBy_fire
      · rw [step, hfire] at hjob
        exact .unchanged hjob (hbudget job hjob) (by rw [step, hfire]) rfl failedBy_fire
      · rw [step, hfire] at hjob
        have hjob' : s.jobs[id]? = some job := jobs_cleared (s := s) ▸ hjob
        exact .unchanged hjob' (hbudget job hjob') (by rw [step, hfire]; exact backoffOf_cleared) rfl
          failedBy_fire
    | succeed id =>
      rcases succeed_cases s id with ⟨err, herr⟩ | ⟨_, runs, -, -, hok⟩
      · rw [step, herr] at hjob
        exact .unchanged hjob (hbudget job hjob) (by rw [step, herr])
          (by simp [resets, herr, Except.isOk, Except.toBool])
          (by simp [failedBy, terminatedBy, herr, replacedBy])
      · have hzero : (s.step (.succeed id)).backoffOf id = 0 := by
          rw [step, hok]
          simp [backoffOf]
        refine ⟨hzero ▸ UInt32.zero_le, fun _ => hzero, fun h => ?_⟩
        simp [resets, Op.id, hok, Except.isOk, Except.toBool] at h
    | fail id =>
      rcases fail_cases s id with ⟨err, herr⟩ | ⟨job', runs, hjob', hlt, hmark, hok⟩
      · rw [step, herr] at hjob
        exact .unchanged hjob (hbudget job hjob) (by rw [step, herr]) rfl
          (by simp [failedBy, terminatedBy, herr, replacedBy])
      · have hnext : (s.step (.fail id)).backoffOf id = s.backoffOf id + 1 := by
          rw [step, hok]
          simp [backoffOf]
        rw [step, hok] at hjob
        obtain rfl := Option.some.inj (hjob'.symm.trans hjob)
        refine ⟨hnext ▸ succ_le_of_lt hlt, fun h => by simp [resets] at h, fun _ => ⟨hjob', ?_⟩⟩
        have hone : failedBy id s (.fail id) = 1 := failedBy_fail hok hmark
        rw [show (Op.fail id).id = id from rfl, hone, hnext, toNat_succ_of_lt hlt]
        rfl

/-! ## Whole runs -/

/-- **The account of a job.** -/
theorem failures_eq (hierarchy : TierHierarchy) (ops : List Op)
    (hjob : (exec step (.new hierarchy) ops).jobs[id]? = some job) :
    (exec step (.new hierarchy) ops).backoffOf id ≤ job.maxBackoff ∧
      failures hierarchy ops id =
        ((exec step (.new hierarchy) ops).backoffOf id).toNat + replacements hierarchy ops id := by
  induction ops using List.reverseRecOn generalizing job with
  | nil => simp [Scheduler.new] at hjob
  | append_singleton ops op ih =>
    rw [exec_concat] at hjob ⊢
    have hnext := accounted_step op hjob fun job' hjob' => (ih hjob').1
    refine ⟨hnext.budget, ?_⟩
    rw [failures, replacements, sinceReset_concat, sinceReset_concat]
    cases hresets : (exec step (.new hierarchy) ops).resets id op with
    | true => simp [hnext.reset hresets]
    | false =>
      obtain ⟨hjob', hcharged⟩ := hnext.charged hresets
      have hbefore := (ih hjob').2
      rw [failures, replacements] at hbefore
      simp only [Bool.false_eq_true, if_false]
      omega

/-- Whether a call respects the budget: a job is fired only while it has budget left, and one that
would be replaced only while it is idle. -/
def withinBudget (s : Scheduler) : Op → Bool
  | .fire id tier =>
    match s.jobs[id]?, s.fire id tier with
    | some job, .ok (_, .fired) =>
      s.backoffOf id < job.maxBackoff && (job.policy != .replace || !s.hasRunning id)
    | _, _ => true
  | _ => true

theorem replacedBy_of_withinBudget (h : s.withinBudget op = true) : replacedBy id s op = 0 := by
  cases op with
  | fire id' tier =>
    refine List.countP_eq_zero.2 fun r hr => ?_
    rw [withinBudget] at h
    rw [terminatedBy] at hr
    split at hr
    · rename_i job s' hjob hfire
      rw [hjob, hfire] at h
      split_ifs at hr with hpolicy
      · simp only [hpolicy, Bool.and_eq_true, Bool.or_eq_true, bne_self_eq_false,
          Bool.false_eq_true, false_or, Bool.not_eq_true'] at h
        obtain ⟨r₀, hr₀, -⟩ := List.mem_map.1 hr
        obtain ⟨hmem, hrunning⟩ := List.mem_filter.1 hr₀
        exact absurd hrunning (by simpa using List.any_eq_false.1 h.2 r₀ hmem)
      · simp at hr
    · simp at hr
  | _ => rfl

theorem replacements_eq_zero (hierarchy : TierHierarchy) {ops : List Op}
    (h : Along step (fun s op => s.withinBudget op = true) (.new hierarchy) ops) :
    replacements hierarchy ops id = 0 := by
  induction ops using List.reverseRecOn with
  | nil => rfl
  | append_singleton ops op ih =>
    obtain ⟨hops, hop⟩ := along_append.1 h
    rw [replacements, sinceReset_concat]
    rw [replacements] at ih
    split_ifs
    · rfl
    · rw [ih hops, replacedBy_of_withinBudget (along_cons.1 hop).1]

end Scheduler

open Scheduler

/-- **Failures within the budget.** -/
theorem failures_within_budget (hierarchy : TierHierarchy) (ops : List Op) :
    (∀ id job, (exec step (.new hierarchy) ops).jobs[id]? = some job →
      (exec step (.new hierarchy) ops).backoffOf id ≤ job.maxBackoff ∧
        failures hierarchy ops id =
          ((exec step (.new hierarchy) ops).backoffOf id).toNat + replacements hierarchy ops id) ∧
    (Along step (fun s op => s.withinBudget op = true) (.new hierarchy) ops →
      (∀ p, p <+: ops → ∀ id job, (exec step (.new hierarchy) p).jobs[id]? = some job →
        failures hierarchy p id ≤ job.maxBackoff.toNat) ∧
      ∀ p id tier, p ++ [.fire id tier] <+: ops → ∀ job,
        (exec step (.new hierarchy) p).jobs[id]? = some job →
        job.maxBackoff.toNat ≤ failures hierarchy p id →
        ∀ s', (exec step (.new hierarchy) p).fire id tier ≠ .ok (s', .fired)) := by
  refine ⟨fun id job hjob => failures_eq hierarchy ops hjob, fun hwithin => ⟨?_, ?_⟩⟩
  · intro p hp id job hjob
    obtain ⟨hbudget, haccount⟩ := failures_eq hierarchy p hjob
    rw [haccount, replacements_eq_zero hierarchy (hwithin.between (p := []) hp)]
    exact UInt32.le_iff_toNat_le.1 hbudget
  · intro p id tier hp job hjob hused s' hfire
    have hcall := hwithin p _ hp
    have hbefore : Along step (fun s op => s.withinBudget op = true) (.new hierarchy) p :=
      hwithin.between (p := []) ((List.prefix_append _ _).trans hp)
    obtain ⟨-, haccount⟩ := failures_eq hierarchy p hjob
    rw [haccount, replacements_eq_zero hierarchy hbefore] at hused
    simp only [withinBudget, hjob, hfire, Bool.and_eq_true, decide_eq_true_eq] at hcall
    have hleft := UInt32.lt_iff_toNat_lt.1 hcall.1
    omega

/-- A backup with a budget of two failures, which fails twice. -/
def failingCalls : List Op :=
  [.register "backup" (.new .workload .replace "rack" 2 5), .fire "backup" "rack", .fail "backup",
   .fire "backup" "node", .fail "backup"]

/-- The calls respect the budget, and the two failures are all of it. -/
theorem failing_backup :
    Along step (fun s op => s.withinBudget op = true) (.new .default) failingCalls ∧
      failures .default failingCalls "backup" = 2 ∧
      failures .default failingCalls "backup" ≤
        (Job.new .workload .replace "rack" 2 5).maxBackoff.toNat := by
  have hwithin : Along step (fun s op => s.withinBudget op = true) (.new .default) failingCalls := by
    decide +kernel
  exact ⟨hwithin, by decide +kernel, ((failures_within_budget .default failingCalls).2 hwithin).1
    failingCalls (List.prefix_refl _) "backup" (.new .workload .replace "rack" 2 5)
    (by decide +kernel)⟩

def thriftyJob (policy : ConcurrencyPolicy) : Job := .new .workload policy "rack" 1 5

/-- A job with a budget of one failure that is replaced twice has two failed runs; and one that
failed once is fired again. -/
theorem replaced_beyond_budget :
    failures .default [.register "backup" (thriftyJob .replace), .fire "backup" "rack",
        .fire "backup" "rack", .fire "backup" "rack"] "backup" = 2 ∧
      (exec step (.new .default) [.register "backup" (thriftyJob .replace), .fire "backup" "rack",
        .fire "backup" "rack", .fire "backup" "rack"]).runs.map Run.status =
        [.failed, .failed, .running] ∧
      failures .default [.register "backup" (thriftyJob .forbid), .fire "backup" "rack",
        .fail "backup"] "backup" = 1 ∧
      ((exec step (.new .default) [.register "backup" (thriftyJob .forbid), .fire "backup" "rack",
        .fail "backup"]).fire "backup" "rack").toOption.map Prod.snd = some .fired := by
  decide +kernel

end Pillar.Manifest
