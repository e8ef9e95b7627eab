import Pillar.Lib.SharedLedger
import Pillar.Topology.Topology

/-!
# The scheduler

`pillar-manifest`'s `Scheduler`: one engine for all scheduled jobs. A due job is fired
into a tier, under its concurrency policy; its runs stand in one ledger with those of all
other jobs, and at most `history_cap` finished ones are kept.
-/

namespace Pillar.Manifest

open Std Lib.SharedLedger Pillar.Topology

inductive JobKind where
  | workload
  | observability
  deriving DecidableEq

/-- What happens when a job is due while a run of it is running. -/
inductive ConcurrencyPolicy where
  | allow
  | forbid
  /-- The running run is marked failed, then it is fired. -/
  | replace
  deriving DecidableEq

inductive RunStatus where
  | running
  | succeeded
  | failed
  deriving DecidableEq

/-- A job, with how its runs may overlap. -/
structure Job where
  kind : JobKind
  policy : ConcurrencyPolicy
  requiredTier : String
  maxBackoff : UInt32
  historyCap : ℕ
  one_le_historyCap : 1 ≤ historyCap
  deriving DecidableEq

/-- A job; one finished run is kept at least. -/
def Job.new (kind : JobKind) (policy : ConcurrencyPolicy) (requiredTier : String)
    (maxBackoff : UInt32) (historyCap : ℕ) : Job :=
  ⟨kind, policy, requiredTier, maxBackoff, max historyCap 1, le_max_right _ _⟩

structure Run where
  job : String
  kind : JobKind
  status : RunStatus
  tier : String
  deriving DecidableEq

namespace Run

def isRunning (id : String) (r : Run) : Bool := r.job == id && r.status == .running

def isTerminal (id : String) (r : Run) : Bool := r.job == id && r.status != .running

def withStatus (status : RunStatus) (r : Run) : Run := { r with status := status }

@[simp] theorem job_withStatus (status : RunStatus) (r : Run) : (r.withStatus status).job = r.job :=
  rfl

@[simp] theorem status_withStatus (status : RunStatus) (r : Run) :
    (r.withStatus status).status = status := rfl

@[simp] theorem tier_withStatus (status : RunStatus) (r : Run) :
    (r.withStatus status).tier = r.tier := rfl

theorem isRunning_iff {id : String} {r : Run} :
    r.isRunning id = true ↔ r.job = id ∧ r.status = .running := by
  simp [isRunning]

theorem isTerminal_iff {id : String} {r : Run} :
    r.isTerminal id = true ↔ r.job = id ∧ r.status ≠ .running := by
  simp [isTerminal]

end Run

inductive FireError where
  | unknownJob (id : String)
  | unknownTier (tier : String)
  | tierTooBroad (requested required : String)
  | forbiddenWhileRunning
  deriving DecidableEq

inductive FireOutcome where
  | fired
  | skipped
  deriving DecidableEq

inductive TerminateError where
  | unknownJob (id : String)
  | noRunning (id : String)
  | backoffExhausted (id : String)
  deriving DecidableEq

/-- The engine: the jobs, the ledger of runs, and the failures charged to each job. -/
structure Scheduler where
  hierarchy : TierHierarchy
  jobs : ExtTreeMap String Job
  runs : List Run
  backoff : ExtTreeMap String UInt32

def terminateOneRunning (id : String) (status : RunStatus) (runs : List Run) :
    Except TerminateError (List Run) :=
  match modifyFirst (Run.isRunning id) (Run.withStatus status) runs with
  | none => .error (.noRunning id)
  | some marked => .ok marked

def pruneTerminals (id : String) (cap : ℕ) (runs : List Run) : List Run :=
  prune (Run.isTerminal id) cap runs

namespace Scheduler

def new (hierarchy : TierHierarchy) : Scheduler := ⟨hierarchy, ∅, [], ∅⟩

variable (s : Scheduler)

def register (id : String) (job : Job) : Scheduler :=
  { s with backoff := s.backoff.insert id 0, jobs := s.jobs.insert id job }

/-- Drop a job and what is charged to it; its runs stay. -/
def unregister (id : String) : Scheduler × Bool :=
  ({ s with backoff := s.backoff.erase id, jobs := s.jobs.erase id }, s.jobs.contains id)

def backoffOf (id : String) : UInt32 := s.backoff[id]?.getD 0

def admissibleTiers (id : String) : List String :=
  match s.jobs[id]? with
  | none => []
  | some job =>
    match s.hierarchy.rank job.requiredTier with
    | none => []
    | some reqRank => s.hierarchy.tiers.filter fun t => (s.hierarchy.rank t).any (reqRank ≤ ·)

def hasRunning (id : String) : Bool := s.runs.any (Run.isRunning id)

/-- The number of finished runs of the job. -/
def terminalCount (id : String) : ℕ := s.runs.countP (Run.isTerminal id)

def failRunning (id : String) : Scheduler :=
  { s with runs := s.runs.map fun r => if r.isRunning id then r.withStatus .failed else r }

/-- A run is created, and the history of the job cut. -/
def launch (id : String) (job : Job) (tier : String) : Scheduler :=
  { s with runs := pruneTerminals id job.historyCap (s.runs ++ [⟨id, job.kind, .running, tier⟩]) }

/-- A run is started, as far as the policy of the job lets it. -/
def fire (id tier : String) : Except FireError (Scheduler × FireOutcome) :=
  match s.jobs[id]? with
  | none => .error (.unknownJob id)
  | some job =>
    match s.hierarchy.rank tier with
    | none => .error (.unknownTier tier)
    | some tierRank =>
      match s.hierarchy.rank job.requiredTier with
      | none => .error (.unknownTier job.requiredTier)
      | some reqRank =>
        if tierRank < reqRank then .error (.tierTooBroad tier job.requiredTier)
        else
          match job.policy with
          | .forbid =>
            if s.hasRunning id then .ok (s, .skipped) else .ok (s.launch id job tier, .fired)
          | .replace => .ok ((s.failRunning id).launch id job tier, .fired)
          | .allow => .ok (s.launch id job tier, .fired)

def succeed (id : String) : Except TerminateError Scheduler := do
  match s.jobs[id]? with
  | none => throw (.unknownJob id)
  | some job =>
    let runs ← terminateOneRunning id .succeeded s.runs
    return { s with
      runs := pruneTerminals id job.historyCap runs, backoff := s.backoff.insert id 0 }

def fail (id : String) : Except TerminateError Scheduler := do
  match s.jobs[id]? with
  | none => throw (.unknownJob id)
  | some job =>
    if job.maxBackoff ≤ s.backoffOf id then throw (.backoffExhausted id)
    else
      let runs ← terminateOneRunning id .failed s.runs
      return { s with
        runs := pruneTerminals id job.historyCap runs
        backoff := s.backoff.insert id (s.backoffOf id + 1) }

/-- What a job's policy does to the ledger before a run is created. -/
def cleared (id : String) (job : Job) : Scheduler :=
  if job.policy = .replace then s.failRunning id else s

variable {s} {id id' tier : String} {job : Job}

theorem mem_admissibleTiers {t : String} :
    t ∈ s.admissibleTiers id ↔ ∃ job reqRank rank, s.jobs[id]? = some job ∧
      s.hierarchy.rank job.requiredTier = some reqRank ∧ s.hierarchy.rank t = some rank ∧
      reqRank ≤ rank := by
  have hmem : ∀ rank, s.hierarchy.rank t = some rank → t ∈ s.hierarchy.tiers := fun rank hrank => by
    by_contra hout
    rw [TierHierarchy.rank_eq_none_iff.2 hout] at hrank
    cases hrank
  rw [admissibleTiers]
  cases s.jobs[id]? with
  | none => simp
  | some job =>
    cases hreq : s.hierarchy.rank job.requiredTier with
    | none => simp [hreq]
    | some reqRank =>
      simp only [hreq, List.mem_filter, Option.any_eq_true, decide_eq_true_eq]
      constructor
      · rintro ⟨-, rank, hrank, hle⟩
        exact ⟨job, reqRank, rank, rfl, hreq, hrank, hle⟩
      · rintro ⟨_, _, rank, hjob, hreq', hrank, hle⟩
        obtain rfl := Option.some.inj hjob
        obtain rfl := Option.some.inj (hreq.symm.trans hreq')
        exact ⟨hmem rank hrank, rank, hrank, hle⟩

theorem fire_cases (s : Scheduler) (id tier : String) :
    (∃ err, s.fire id tier = .error err) ∨
      (∃ job, s.jobs[id]? = some job ∧ s.fire id tier = .ok (s, .skipped)) ∨
      ∃ job, s.jobs[id]? = some job ∧ tier ∈ s.admissibleTiers id ∧
        (job.policy = .forbid → s.hasRunning id = false) ∧
        s.fire id tier = .ok ((s.cleared id job).launch id job tier, .fired) := by
  rw [fire]
  cases hjob : s.jobs[id]? with
  | none => exact .inl ⟨_, rfl⟩
  | some job =>
    cases htier : s.hierarchy.rank tier with
    | none => exact .inl ⟨_, rfl⟩
    | some tierRank =>
      cases hreq : s.hierarchy.rank job.requiredTier with
      | none => exact .inl ⟨.unknownTier job.requiredTier, by simp [hreq]⟩
      | some reqRank =>
        simp only [hreq]
        by_cases hbroad : tierRank < reqRank
        · exact .inl ⟨_, if_pos hbroad⟩
        · have hin : tier ∈ s.admissibleTiers id :=
            mem_admissibleTiers.2 ⟨job, reqRank, tierRank, hjob, hreq, htier, Nat.not_lt.1 hbroad⟩
          rw [if_neg hbroad]
          cases hpolicy : job.policy with
          | allow | replace =>
            exact .inr (.inr ⟨job, rfl, hin, by simp [hpolicy], by simp [cleared, hpolicy]⟩)
          | forbid =>
            cases hrunning : s.hasRunning id with
            | true => exact .inr (.inl ⟨job, rfl, rfl⟩)
            | false => exact .inr (.inr ⟨job, rfl, hin, fun _ => rfl, by simp [cleared, hpolicy]⟩)

theorem toNat_succ_of_lt {a b : UInt32} (h : a < b) : (a + 1).toNat = a.toNat + 1 := by
  have hlt := UInt32.lt_iff_toNat_lt.1 h
  have hb := b.toNat_lt
  rw [UInt32.toNat_add, UInt32.toNat_one, Nat.mod_eq_of_lt (by omega)]

theorem succ_le_of_lt {a b : UInt32} (h : a < b) : a + 1 ≤ b := by
  rw [UInt32.le_iff_toNat_le, toNat_succ_of_lt h]
  exact UInt32.lt_iff_toNat_lt.1 h

theorem succeed_cases (s : Scheduler) (id : String) :
    (∃ err, s.succeed id = .error err) ∨
      ∃ job runs, s.jobs[id]? = some job ∧
        modifyFirst (Run.isRunning id) (Run.withStatus .succeeded) s.runs = some runs ∧
        s.succeed id = .ok { s with
          runs := pruneTerminals id job.historyCap runs, backoff := s.backoff.insert id 0 } := by
  rw [succeed]
  cases s.jobs[id]? with
  | none => exact .inl ⟨_, rfl⟩
  | some job =>
    rw [terminateOneRunning]
    cases modifyFirst (Run.isRunning id) (Run.withStatus .succeeded) s.runs with
    | none => exact .inl ⟨_, rfl⟩
    | some runs => exact .inr ⟨job, runs, rfl, rfl, rfl⟩

theorem fail_cases (s : Scheduler) (id : String) :
    (∃ err, s.fail id = .error err) ∨
      ∃ job runs, s.jobs[id]? = some job ∧ s.backoffOf id < job.maxBackoff ∧
        modifyFirst (Run.isRunning id) (Run.withStatus .failed) s.runs = some runs ∧
        s.fail id = .ok { s with
          runs := pruneTerminals id job.historyCap runs
          backoff := s.backoff.insert id (s.backoffOf id + 1) } := by
  rw [fail]
  cases s.jobs[id]? with
  | none => exact .inl ⟨_, rfl⟩
  | some job =>
    by_cases hbackoff : job.maxBackoff ≤ s.backoffOf id
    · exact .inl ⟨_, if_pos hbackoff⟩
    · simp only [if_neg hbackoff, terminateOneRunning]
      cases modifyFirst (Run.isRunning id) (Run.withStatus .failed) s.runs with
      | none => exact .inl ⟨_, rfl⟩
      | some runs => exact .inr ⟨job, runs, rfl, UInt32.not_le.1 hbackoff, rfl, rfl⟩

end Scheduler

/-! ## The engine as a transition system -/

inductive Op where
  | register (id : String) (job : Job)
  | unregister (id : String)
  | fire (id tier : String)
  | succeed (id : String)
  | fail (id : String)
  deriving DecidableEq

def Op.id : Op → String
  | .register id _ => id
  | .unregister id => id
  | .fire id _ => id
  | .succeed id => id
  | .fail id => id

/-- The name a call registers a job under. -/
def Op.registers : Op → Option String
  | .register id _ => some id
  | _ => none

namespace Scheduler

def step (s : Scheduler) : Op → Scheduler
  | .register id job => s.register id job
  | .unregister id => (s.unregister id).1
  | .fire id tier =>
    match s.fire id tier with
    | .ok (s', _) => s'
    | .error _ => s
  | .succeed id =>
    match s.succeed id with
    | .ok s' => s'
    | .error _ => s
  | .fail id =>
    match s.fail id with
    | .ok s' => s'
    | .error _ => s

def terminatedBy (s : Scheduler) : Op → List Run
  | .register _ _ => []
  | .unregister _ => []
  | .fire id tier =>
    match s.jobs[id]?, s.fire id tier with
    | some job, .ok (_, .fired) =>
      if job.policy = .replace then (s.runs.filter (Run.isRunning id)).map (Run.withStatus .failed)
      else []
    | _, _ => []
  | .succeed id =>
    match s.succeed id with
    | .ok _ => ((s.runs.find? (Run.isRunning id)).map (Run.withStatus .succeeded)).toList
    | .error _ => []
  | .fail id =>
    match s.fail id with
    | .ok _ => ((s.runs.find? (Run.isRunning id)).map (Run.withStatus .failed)).toList
    | .error _ => []

def runsOf (s : Scheduler) (id : String) : List Run := s.runs.filter (·.job == id)

variable {s : Scheduler} {id id' tier : String} {job : Job}

theorem mem_runsOf {r : Run} : r ∈ s.runsOf id ↔ r ∈ s.runs ∧ r.job = id := by
  simp [runsOf]

/-! ## The ledger after a call, job by job -/

@[simp] theorem jobs_cleared : (s.cleared id job).jobs = s.jobs := by
  rw [cleared]
  split_ifs <;> rfl

@[simp] theorem hierarchy_cleared : (s.cleared id job).hierarchy = s.hierarchy := by
  rw [cleared]
  split_ifs <;> rfl

@[simp] theorem backoffOf_cleared : (s.cleared id job).backoffOf id' = s.backoffOf id' := by
  rw [cleared]
  split_ifs <;> rfl

theorem filter_pruneTerminals (cap : ℕ) (runs : List Run) :
    (pruneTerminals id cap runs).filter (·.job == id) =
      prune (Run.isTerminal id) cap (runs.filter (·.job == id)) :=
  filter_prune (fun r hr => by simpa using (Run.isTerminal_iff.1 hr).1) runs

theorem filter_pruneTerminals_of_ne (h : id' ≠ id) (cap : ℕ) (runs : List Run) :
    (pruneTerminals id cap runs).filter (·.job == id') = runs.filter (·.job == id') := by
  refine filter_prune_of_disjoint (fun r hr => ?_) runs
  simpa [(Run.isTerminal_iff.1 hr).1] using h.symm

theorem runsOf_launch :
    (s.launch id job tier).runsOf id = prune (Run.isTerminal id) job.historyCap
      (s.runsOf id ++ [⟨id, job.kind, .running, tier⟩]) := by
  rw [runsOf, launch, filter_pruneTerminals, List.filter_append]
  simp [runsOf]

theorem runsOf_launch_of_ne (h : id' ≠ id) : (s.launch id job tier).runsOf id' = s.runsOf id' := by
  rw [runsOf, launch, filter_pruneTerminals_of_ne h, List.filter_append]
  simp [runsOf, h.symm]

theorem runsOf_failRunning :
    (s.failRunning id).runsOf id' =
      (s.runsOf id').map fun r => if r.isRunning id then r.withStatus .failed else r := by
  rw [runsOf, runsOf, failRunning, List.filter_map]
  congr 2
  funext r
  by_cases hr : r.isRunning id = true <;> simp [hr]

theorem runsOf_cleared_of_ne (h : id' ≠ id) : (s.cleared id job).runsOf id' = s.runsOf id' := by
  rw [cleared]
  split_ifs
  · rw [runsOf_failRunning]
    refine (List.map_congr_left fun r hr => if_neg fun hrunning => h ?_).trans (List.map_id' _)
    rw [← (Run.isRunning_iff.1 hrunning).1, (mem_runsOf.1 hr).2]
  · rfl

theorem runsOf_marked {status : RunStatus} {runs : List Run}
    (h : modifyFirst (Run.isRunning id) (Run.withStatus status) s.runs = some runs) :
    modifyFirst (Run.isRunning id) (Run.withStatus status) (s.runsOf id) =
      some (runs.filter (·.job == id)) :=
  filter_modifyFirst (fun r hr => by simpa using (Run.isRunning_iff.1 hr).1)
    (fun r hr => by simpa using (Run.isRunning_iff.1 hr).1) h

theorem runsOf_marked_of_ne {status : RunStatus} {runs : List Run} (hne : id' ≠ id)
    (h : modifyFirst (Run.isRunning id) (Run.withStatus status) s.runs = some runs) :
    runs.filter (·.job == id') = s.runsOf id' := by
  refine filter_modifyFirst_of_disjoint (fun r hr => ?_) (fun r hr => ?_) h <;>
    simpa [(Run.isRunning_iff.1 hr).1] using hne.symm

end Scheduler
end Pillar.Manifest
