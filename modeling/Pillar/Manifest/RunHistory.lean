import Pillar.Manifest.Scheduler

/-!
# What the ledger keeps of each job

The runs of all jobs stand in one ledger. Seen from one job it is a book: all the runs that
have ended, of which the ledger keeps the last `history_cap`, and behind them those that are
running, oldest first.

* `scheduler_run` — **the ledger over a whole run**: history bounded and complete up to the bound,
  one running run under `Forbid` and `Replace`, tiers admissible, failures within the budget.
-/

namespace Pillar.Manifest

open Std Lib.TreeMap Lib.Runs Lib.SharedLedger Pillar.Topology

/-! ## The book of one job -/

structure Book (id : String) (cap : ℕ) (ended running runs : List Run) : Prop where
  runs_eq : runs = ended.rtake cap ++ running
  ended : ∀ r ∈ ended, r.isTerminal id = true
  running : ∀ r ∈ running, r.isRunning id = true

namespace Book

variable {id : String} {cap : ℕ} {ended running runs : List Run} {r : Run}

theorem not_running_of_isTerminal (h : r.isTerminal id = true) : r.isRunning id = false := by
  rw [Run.isTerminal_iff] at h
  simp [Run.isRunning, h.2]

theorem not_terminal_of_isRunning (h : r.isRunning id = true) : r.isTerminal id = false := by
  rw [Run.isRunning_iff] at h
  simp [Run.isTerminal, h.2]

theorem of_prune (cap : ℕ) {more : List Run} (hended : ∀ r ∈ ended, r.isTerminal id = true)
    (hmore : ∀ r ∈ more, r.isTerminal id = true)
    (hrunning : ∀ r ∈ running, r.isRunning id = true) :
    Book id cap (ended ++ more) running
      (prune (Run.isTerminal id) cap (ended.rtake cap ++ more ++ running)) := by
  have hkept : ∀ r ∈ ended.rtake cap ++ more, r.isTerminal id = true :=
    List.forall_mem_append.2 ⟨fun r hr => hended r (List.mem_of_mem_drop hr), hmore⟩
  refine ⟨?_, List.forall_mem_append.2 ⟨hended, hmore⟩, hrunning⟩
  rw [prune_append hkept (fun r hr => not_terminal_of_isRunning (hrunning r hr)),
    rtake_rtake_append]

theorem empty (id : String) (cap : ℕ) : Book id cap [] [] [] :=
  ⟨by simp [List.rtake], by simp, by simp⟩

variable (h : Book id cap ended running runs)
include h

theorem filter_running : runs.filter (Run.isRunning id) = running := by
  have hended : (ended.rtake cap).filter (Run.isRunning id) = [] := by
    refine List.filter_eq_nil_iff.2 fun r hr => ?_
    simp [not_running_of_isTerminal (h.ended r (List.mem_of_mem_drop hr))]
  rw [h.runs_eq, List.filter_append, hended, List.filter_eq_self.2 h.running, List.nil_append]

theorem filter_terminal : runs.filter (Run.isTerminal id) = ended.rtake cap := by
  have hended : (ended.rtake cap).filter (Run.isTerminal id) = ended.rtake cap :=
    List.filter_eq_self.2 fun r hr => h.ended r (List.mem_of_mem_drop hr)
  have hrunning : running.filter (Run.isTerminal id) = [] := by
    refine List.filter_eq_nil_iff.2 fun r hr => ?_
    simp [not_terminal_of_isRunning (h.running r hr)]
  rw [h.runs_eq, List.filter_append, hended, hrunning, List.append_nil]

theorem launched (hr : r.isRunning id = true) :
    Book id cap ended (running ++ [r]) (prune (Run.isTerminal id) cap (runs ++ [r])) := by
  have hrunning : ∀ r' ∈ running ++ [r], r'.isRunning id = true :=
    List.forall_mem_append.2 ⟨h.running, by simpa using hr⟩
  have hcut := of_prune cap h.ended (List.forall_mem_nil _) hrunning
  rw [List.append_nil, List.append_nil, ← List.append_assoc, ← h.runs_eq] at hcut
  exact hcut

theorem replaced (hr : r.isRunning id = true) :
    Book id cap (ended ++ running.map (Run.withStatus .failed)) [r]
      (prune (Run.isTerminal id) cap
        ((runs.map fun r => if r.isRunning id then r.withStatus .failed else r) ++ [r])) := by
  have hmap : (runs.map fun r => if r.isRunning id then r.withStatus .failed else r) =
      ended.rtake cap ++ running.map (Run.withStatus .failed) := by
    rw [h.runs_eq, List.map_append]
    congr 1
    · refine (List.map_congr_left fun r hr => if_neg ?_).trans (List.map_id' _)
      simp [not_running_of_isTerminal (h.ended r (List.mem_of_mem_drop hr))]
    · exact List.map_congr_left fun r hr => if_pos (h.running r hr)
  rw [hmap]
  refine of_prune _ h.ended (fun r' hr' => ?_) (by simpa using hr)
  obtain ⟨r₀, hr₀, rfl⟩ := List.mem_map.1 hr'
  exact Run.isTerminal_iff.2 ⟨(Run.isRunning_iff.1 (h.running r₀ hr₀)).1, by simp⟩

theorem marked {status : RunStatus} (hstatus : status ≠ .running) {runs' : List Run}
    (hmark : modifyFirst (Run.isRunning id) (Run.withStatus status) runs = some runs') :
    ∃ r rest, running = r :: rest ∧ Book id cap (ended ++ [r.withStatus status]) rest
      (prune (Run.isTerminal id) cap runs') := by
  have hnone : ∀ r ∈ ended.rtake cap, r.isRunning id = false := fun r hr =>
    not_running_of_isTerminal (h.ended r (List.mem_of_mem_drop hr))
  cases running with
  | nil =>
    rw [h.runs_eq, List.append_nil, modifyFirst_eq_none_iff.2 hnone] at hmark
    cases hmark
  | cons r rest =>
    have hr := h.running r List.mem_cons_self
    have hterminal : (r.withStatus status).isTerminal id = true :=
      Run.isTerminal_iff.2 ⟨(Run.isRunning_iff.1 hr).1, hstatus⟩
    rw [h.runs_eq, modifyFirst_append hnone hr, List.append_cons] at hmark
    obtain rfl := Option.some.inj hmark
    exact ⟨r, rest, rfl, of_prune _ h.ended (by simpa using hterminal)
      fun r' hr' => h.running r' (List.mem_cons_of_mem _ hr')⟩

end Book

namespace Scheduler

/-! ## The runs that ended -/

/-- The runs a sequence of calls ends, in the order they end. -/
def finished (s : Scheduler) : List Op → List Run
  | [] => []
  | op :: ops => s.terminatedBy op ++ (s.step op).finished ops

theorem finished_concat (s : Scheduler) (ops : List Op) (op : Op) :
    s.finished (ops ++ [op]) = s.finished ops ++ (exec step s ops).terminatedBy op := by
  induction ops generalizing s with
  | nil => simp [finished]
  | cons op' ops ih => simp [finished, ih, exec_cons]

variable {s s' : Scheduler} {id id' tier : String} {job : Job} {past ended running : List Run}

theorem filter_isRunning :
    s.runs.filter (Run.isRunning id) = (s.runsOf id).filter (Run.isRunning id) := by
  rw [runsOf, List.filter_filter]
  refine List.filter_congr fun r _ => ?_
  simpa [Run.isRunning] using fun h _ => h

theorem filter_isTerminal :
    s.runs.filter (Run.isTerminal id) = (s.runsOf id).filter (Run.isTerminal id) := by
  rw [runsOf, List.filter_filter]
  refine List.filter_congr fun r _ => ?_
  simpa [Run.isTerminal] using fun h _ => h

theorem job_of_mem_terminatedBy {op : Op} {r : Run} (hr : r ∈ s.terminatedBy op) :
    r.job = op.id := by
  cases op with
  | register id job | unregister id => simp [terminatedBy] at hr
  | fire id tier =>
    rw [terminatedBy] at hr
    split at hr
    · split_ifs at hr
      · obtain ⟨r₀, hr₀, rfl⟩ := List.mem_map.1 hr
        exact (Run.isRunning_iff.1 (List.mem_filter.1 hr₀).2).1
      · simp at hr
    · simp at hr
  | succeed id | fail id =>
    rw [terminatedBy] at hr
    split at hr
    · simp only [Option.mem_toList, Option.map_eq_some_iff] at hr
      obtain ⟨r₀, hr₀, rfl⟩ := hr
      exact (Run.isRunning_iff.1 (List.find?_some hr₀)).1
    · simp at hr

theorem filter_terminatedBy {op : Op} (h : op.id = id) :
    (s.terminatedBy op).filter (·.job == id) = s.terminatedBy op :=
  List.filter_eq_self.2 fun r hr => by simpa [← h] using job_of_mem_terminatedBy hr

/-! ## The invariant of one job -/

/-- The invariant of one job: its book, and the failures charged to it. -/
structure Kept (s : Scheduler) (past : List Run) (id : String) (job : Job) : Prop where
  book : ∃ running, Book id job.historyCap (past.filter (·.job == id)) running (s.runsOf id) ∧
    (job.policy ≠ .allow → running.length ≤ 1)
  backoff : s.backoffOf id ≤ job.maxBackoff

theorem Kept.frame (h : Kept s past id job) (hruns : s'.runsOf id = s.runsOf id)
    (hbackoff : s'.backoffOf id = s.backoffOf id) (hended : ended.filter (·.job == id) = []) :
    Kept s' (past ++ ended) id job := by
  obtain ⟨running, hbook, hlength⟩ := h.book
  refine ⟨⟨running, ?_, hlength⟩, hbackoff ▸ h.backoff⟩
  rwa [List.filter_append, hended, List.append_nil, hruns]

theorem Kept.fire (h : Kept s past id job) (hjob : s.jobs[id]? = some job)
    (hforbid : job.policy = .forbid → s.hasRunning id = false)
    (hfire : s.fire id tier = .ok ((s.cleared id job).launch id job tier, .fired)) :
    Kept ((s.cleared id job).launch id job tier) (past ++ s.terminatedBy (.fire id tier)) id job := by
  obtain ⟨running, hbook, hlength⟩ := h.book
  have hnew : Run.isRunning id ⟨id, job.kind, .running, tier⟩ = true := by simp [Run.isRunning]
  have hrunning : s.runs.filter (Run.isRunning id) = running :=
    filter_isRunning.trans hbook.filter_running
  have hown : (s.terminatedBy (.fire id tier)).filter (·.job == id) = s.terminatedBy (.fire id tier) :=
    filter_terminatedBy rfl
  refine ⟨?_, le_of_eq_of_le backoffOf_cleared h.backoff⟩
  rw [List.filter_append, hown, runsOf_launch, terminatedBy, hjob, hfire, cleared]
  by_cases hpolicy : job.policy = .replace
  · simp only [if_pos hpolicy, hrunning, runsOf_failRunning]
    exact ⟨_, hbook.replaced hnew, fun _ => by simp⟩
  · simp only [if_neg hpolicy, List.append_nil]
    refine ⟨_, hbook.launched hnew, fun hallow => ?_⟩
    have hforbidden : job.policy = .forbid := by
      cases hcase : job.policy <;> simp_all
    have hidle : running = [] := by
      rw [← hrunning, List.filter_eq_nil_iff]
      simpa [hasRunning] using hforbid hforbidden
    simp [hidle]

theorem Kept.marked (h : Kept s past id job) {status : RunStatus} (hstatus : status ≠ .running)
    {runs : List Run}
    (hmark : modifyFirst (Run.isRunning id) (Run.withStatus status) s.runs = some runs)
    (hended : ended = ((s.runs.find? (Run.isRunning id)).map (Run.withStatus status)).toList)
    (hjobs : ended.filter (·.job == id) = ended)
    (hruns : s'.runs = pruneTerminals id job.historyCap runs)
    (hbackoff : s'.backoffOf id ≤ job.maxBackoff) : Kept s' (past ++ ended) id job := by
  obtain ⟨running, hbook, hlength⟩ := h.book
  obtain ⟨r, rest, hcons, hnext⟩ := hbook.marked hstatus (runsOf_marked hmark)
  have hfound : s.runs.find? (Run.isRunning id) = some r := by
    rw [← List.head?_filter, filter_isRunning, hbook.filter_running, hcons]
    rfl
  refine ⟨⟨rest, ?_, fun hpolicy => ?_⟩, hbackoff⟩
  · rw [List.filter_append, hjobs, hended, hfound, runsOf, hruns, filter_pruneTerminals]
    exact hnext
  · have hle := hlength hpolicy
    rw [hcons, List.length_cons] at hle
    omega

/-! ## The invariant of the engine -/

structure Consistent (s : Scheduler) (past : List Run) : Prop where
  known : ∀ r ∈ past, r.job ∈ s.jobs
  tiers : ∀ r ∈ s.runs, r.tier ∈ s.admissibleTiers r.job
  kept : ∀ id job, s.jobs[id]? = some job → Kept s past id job

namespace Consistent

theorem new (hierarchy : TierHierarchy) : Consistent (.new hierarchy) [] :=
  ⟨by simp, by simp [Scheduler.new], fun id job hjob => by simp [Scheduler.new] at hjob⟩

variable (h : Consistent s past)
include h

theorem next (hjob : s.jobs[id]? = some job) (hjobs : s'.jobs = s.jobs)
    (hhierarchy : s'.hierarchy = s.hierarchy) (hended : ∀ r ∈ ended, r.job = id)
    (htiers : ∀ r ∈ s'.runs, (∃ r₀ ∈ s.runs, r₀.job = r.job ∧ r₀.tier = r.tier) ∨
      r.tier ∈ s.admissibleTiers r.job)
    (hself : Kept s' (past ++ ended) id job)
    (hothers : ∀ id', id' ≠ id → s'.runsOf id' = s.runsOf id' ∧
      s'.backoffOf id' = s.backoffOf id') : Consistent s' (past ++ ended) := by
  have hadmissible : s'.admissibleTiers = s.admissibleTiers := by
    funext id'
    rw [admissibleTiers, admissibleTiers, hjobs, hhierarchy]
  refine ⟨List.forall_mem_append.2 ⟨fun r hr => hjobs ▸ h.known r hr, fun r hr => ?_⟩,
    fun r hr => ?_, fun id' job' hjob' => ?_⟩
  · rw [hended r hr, hjobs]
    exact mem_iff_exists_getElem?.2 ⟨job, hjob⟩
  · rw [hadmissible]
    rcases htiers r hr with ⟨r₀, hr₀, hjob₀, htier₀⟩ | hnew
    · exact hjob₀ ▸ htier₀ ▸ h.tiers r₀ hr₀
    · exact hnew
  · rw [hjobs] at hjob'
    by_cases hid : id' = id
    · subst hid
      obtain rfl := Option.some.inj (hjob.symm.trans hjob')
      exact hself
    · obtain ⟨hruns, hbackoff⟩ := hothers id' hid
      refine (h.kept id' job' hjob').frame hruns hbackoff (List.filter_eq_nil_iff.2 fun r hr => ?_)
      rw [hended r hr]
      simpa using Ne.symm hid

theorem register (hnew : s.jobs[id]? = none) (job : Job) :
    Consistent (s.register id job) past := by
  have hother : ∀ {id' : String} {job' : Job}, s.jobs[id']? = some job' → id' ≠ id := by
    rintro id' job' hjob' rfl
    rw [hnew] at hjob'
    cases hjob'
  have hjobs : ∀ {id' : String} {job' : Job}, s.jobs[id']? = some job' →
      (s.register id job).jobs[id']? = some job' := by
    intro id' job' hjob'
    have hne : id ≠ id' := (hother hjob').symm
    simpa [Scheduler.register, ExtTreeMap.getElem?_insert, hne] using hjob'
  refine ⟨fun r hr => ?_, fun r hr => ?_, fun id' job' hjob' => ?_⟩
  · obtain ⟨job', hjob'⟩ := mem_iff_exists_getElem?.1 (h.known r hr)
    exact mem_iff_exists_getElem?.2 ⟨job', hjobs hjob'⟩
  · obtain ⟨job', reqRank, rank, hjob', hrest⟩ := mem_admissibleTiers.1 (h.tiers r hr)
    exact mem_admissibleTiers.2 ⟨job', reqRank, rank, hjobs hjob', hrest⟩
  · rcases eq_or_of_getElem?_insert hjob' with ⟨rfl, rfl⟩ | hjob'
    · -- nothing of a job that was never registered is in the ledger or has ended
      have hruns : (s.register id' job').runsOf id' = [] := by
        refine List.filter_eq_nil_iff.2 fun r hr hid => ?_
        obtain ⟨job, _, _, hjob, -⟩ := mem_admissibleTiers.1 (h.tiers r hr)
        exact hother hjob (by simpa using hid)
      have hpast : past.filter (·.job == id') = [] := by
        refine List.filter_eq_nil_iff.2 fun r hr hid => ?_
        obtain ⟨job, hjob⟩ := mem_iff_exists_getElem?.1 (h.known r hr)
        exact hother hjob (by simpa using hid)
      refine ⟨⟨[], ?_, fun _ => by simp⟩, ?_⟩
      · rw [hruns, hpast]
        exact Book.empty id' _
      · simp [backoffOf, Scheduler.register]
    · have hne := hother hjob'
      have hbackoff : (s.register id job).backoffOf id' = s.backoffOf id' := by
        simp [backoffOf, Scheduler.register, ExtTreeMap.getElem?_insert, hne.symm]
      have hframe : Kept (s.register id job) (past ++ []) id' job' :=
        (h.kept id' job' hjob').frame rfl hbackoff rfl
      rwa [List.append_nil] at hframe

theorem marked (hjob : s.jobs[id]? = some job) {status : RunStatus} (hstatus : status ≠ .running)
    {runs : List Run}
    (hmark : modifyFirst (Run.isRunning id) (Run.withStatus status) s.runs = some runs)
    (hended : ended = ((s.runs.find? (Run.isRunning id)).map (Run.withStatus status)).toList)
    (hjobs : ∀ r ∈ ended, r.job = id) {charged : UInt32} (hcharged : charged ≤ job.maxBackoff) :
    Consistent { s with
      runs := pruneTerminals id job.historyCap runs, backoff := s.backoff.insert id charged }
      (past ++ ended) := by
  refine h.next hjob rfl rfl hjobs (fun r hr => .inl ?_) ?_ fun id' hne => ⟨?_, ?_⟩
  · obtain ⟨t, r₁, rest, hruns, -, -, rfl⟩ := modifyFirst_eq_some_iff.1 hmark
    have hr := (prune_sublist _ _ _).subset hr
    rw [hruns]
    rcases List.mem_append.1 hr with hr | hr
    · exact ⟨r, by simp [hr], rfl, rfl⟩
    · rcases List.mem_cons.1 hr with rfl | hr
      · exact ⟨r₁, by simp, rfl, rfl⟩
      · exact ⟨r, by simp [hr], rfl, rfl⟩
  · refine (h.kept id job hjob).marked hstatus hmark hended ?_ rfl ?_
    · exact List.filter_eq_self.2 fun r hr => by simpa using hjobs r hr
    · simpa [backoffOf] using hcharged
  · exact (filter_pruneTerminals_of_ne hne _ _).trans (runsOf_marked_of_ne hne hmark)
  · simp [backoffOf, ExtTreeMap.getElem?_insert, hne.symm]

theorem fired (hjob : s.jobs[id]? = some job) (htier : tier ∈ s.admissibleTiers id)
    (hforbid : job.policy = .forbid → s.hasRunning id = false)
    (hfire : s.fire id tier = .ok ((s.cleared id job).launch id job tier, .fired)) :
    Consistent ((s.cleared id job).launch id job tier)
      (past ++ s.terminatedBy (.fire id tier)) := by
  refine h.next hjob jobs_cleared hierarchy_cleared (fun r hr => job_of_mem_terminatedBy hr)
    (fun r hr => ?_) ((h.kept id job hjob).fire hjob hforbid hfire)
    fun id' hne => ⟨(runsOf_launch_of_ne hne).trans (runsOf_cleared_of_ne hne), backoffOf_cleared⟩
  rcases List.mem_append.1 ((prune_sublist _ _ _).subset hr) with hr | hr
  · refine .inl ?_
    rw [cleared] at hr
    split_ifs at hr
    · obtain ⟨r₀, hr₀, rfl⟩ := List.mem_map.1 hr
      exact ⟨r₀, hr₀, by split_ifs <;> rfl, by split_ifs <;> rfl⟩
    · exact ⟨r, hr, rfl, rfl⟩
  · obtain rfl := List.mem_singleton.1 hr
    exact .inr htier

end Consistent

/-- **Every call keeps the invariant.** -/
theorem consistent_step (h : Consistent s past) {op : Op} (hdrop : ∀ id, op ≠ .unregister id)
    (hnew : ∀ id job, op = .register id job → s.jobs[id]? = none) :
    Consistent (s.step op) (past ++ s.terminatedBy op) := by
  cases op with
  | register id job =>
    rw [terminatedBy, List.append_nil]
    exact h.register (hnew id job rfl) job
  | unregister id => exact absurd rfl (hdrop id)
  | fire id tier =>
    rcases fire_cases s id tier with ⟨err, hfire⟩ | ⟨job, hjob, hfire⟩ |
      ⟨job, hjob, htier, hforbid, hfire⟩
    · simpa [step, terminatedBy, hfire] using h
    · simpa [step, terminatedBy, hfire] using h
    · have hnext := h.fired hjob htier hforbid hfire
      simpa only [step, hfire] using hnext
  | succeed id =>
    rcases succeed_cases s id with ⟨err, herr⟩ | ⟨job, runs, hjob, hmark, hok⟩
    · simpa [step, terminatedBy, herr] using h
    · have hended : s.terminatedBy (.succeed id) =
          ((s.runs.find? (Run.isRunning id)).map (Run.withStatus .succeeded)).toList := by
        rw [terminatedBy, hok]
      have hnext := h.marked hjob (by decide) hmark hended
        (fun r hr => job_of_mem_terminatedBy hr) (UInt32.zero_le)
      simpa only [step, hok] using hnext
  | fail id =>
    rcases fail_cases s id with ⟨err, herr⟩ | ⟨job, runs, hjob, hbackoff, hmark, hok⟩
    · simpa [step, terminatedBy, herr] using h
    · have hended : s.terminatedBy (.fail id) =
          ((s.runs.find? (Run.isRunning id)).map (Run.withStatus .failed)).toList := by
        rw [terminatedBy, hok]
      have hnext := h.marked hjob (by decide) hmark hended
        (fun r hr => job_of_mem_terminatedBy hr) (succ_le_of_lt hbackoff)
      simpa only [step, hok] using hnext

/-! ## Whole runs -/

theorem jobs_step {op : Op} (hdrop : ∀ id, op ≠ .unregister id) (hjob : s.jobs[id]? = none)
    (hop : op.registers ≠ some id) : (s.step op).jobs[id]? = none := by
  cases op with
  | register id' job =>
    have hne : id' ≠ id := fun heq => hop (congrArg some heq)
    simpa [step, register, ExtTreeMap.getElem?_insert, hne] using hjob
  | unregister id' => exact absurd rfl (hdrop id')
  | fire id' tier =>
    rcases fire_cases s id' tier with ⟨err, hfire⟩ | ⟨job, -, hfire⟩ | ⟨job, -, -, -, hfire⟩
    · simpa [step, hfire] using hjob
    · simpa [step, hfire] using hjob
    · simpa [step, hfire, launch] using hjob
  | succeed id' =>
    rcases succeed_cases s id' with ⟨err, herr⟩ | ⟨job, runs, -, -, hok⟩
    · simpa [step, herr] using hjob
    · simpa [step, hok] using hjob
  | fail id' =>
    rcases fail_cases s id' with ⟨err, herr⟩ | ⟨job, runs, -, -, -, hok⟩
    · simpa [step, herr] using hjob
    · simpa [step, hok] using hjob

theorem jobs_exec {ops : List Op} (hkeep : ∀ id, .unregister id ∉ ops) (hjob : s.jobs[id]? = none)
    (hops : id ∉ ops.filterMap Op.registers) : (exec step s ops).jobs[id]? = none := by
  induction ops generalizing s with
  | nil => exact hjob
  | cons op ops ih =>
    refine ih (fun id' hmem => hkeep id' (List.mem_cons_of_mem _ hmem)) (jobs_step ?_ hjob ?_) ?_
    · exact fun id' heq => hkeep id' (heq ▸ List.mem_cons_self)
    · exact fun hop => hops (List.mem_filterMap.2 ⟨op, List.mem_cons_self, hop⟩)
    · intro hmem
      obtain ⟨op', hop', hid⟩ := List.mem_filterMap.1 hmem
      exact hops (List.mem_filterMap.2 ⟨op', List.mem_cons_of_mem _ hop', hid⟩)

theorem consistent_exec (hierarchy : TierHierarchy) {ops : List Op}
    (honce : (ops.filterMap Op.registers).Nodup) (hkeep : ∀ id, .unregister id ∉ ops) :
    Consistent (exec step (.new hierarchy) ops) (finished (.new hierarchy) ops) := by
  induction ops using List.reverseRecOn with
  | nil => exact .new hierarchy
  | append_singleton ops op ih =>
    rw [List.filterMap_append, List.nodup_append] at honce
    have hkeep' : ∀ id, .unregister id ∉ ops := fun id hmem =>
      hkeep id (List.mem_append_left _ hmem)
    rw [exec_concat, finished_concat]
    refine consistent_step (ih honce.1 hkeep') (fun id heq => ?_) ?_
    · exact hkeep id (heq ▸ List.mem_append_right _ List.mem_cons_self)
    · rintro id job rfl
      exact jobs_exec hkeep' (by simp [Scheduler.new]) fun hmem =>
        honce.2.2 id hmem id (by simp [Op.registers]) rfl

/-- What holds of the ledger for one job, against all the runs of it that ended. -/
structure InOrder (s : Scheduler) (past : List Run) (id : String) (job : Job) : Prop where
  /-- At most the capacity is kept of the finished runs. -/
  bounded : s.terminalCount id ≤ job.historyCap
  latest : s.runs.filter (Run.isTerminal id) =
    (past.filter (·.job == id)).rtake job.historyCap
  /-- The finished runs stand before the running ones. -/
  ordered : s.runs.filter (·.job == id) =
    s.runs.filter (Run.isTerminal id) ++ s.runs.filter (Run.isRunning id)
  /-- At most one is running, unless the policy allows more. -/
  exclusive : job.policy = .forbid ∨ job.policy = .replace →
    s.runs.countP (Run.isRunning id) ≤ 1
  budget : s.backoffOf id ≤ job.maxBackoff

theorem Consistent.inOrder (h : Consistent s past) (hjob : s.jobs[id]? = some job) :
    InOrder s past id job := by
  obtain ⟨⟨running, hbook, hlength⟩, hbackoff⟩ := h.kept id job hjob
  have hterminal : s.runs.filter (Run.isTerminal id) =
      (past.filter (·.job == id)).rtake job.historyCap :=
    filter_isTerminal.trans hbook.filter_terminal
  have hrunning : s.runs.filter (Run.isRunning id) = running :=
    filter_isRunning.trans hbook.filter_running
  refine ⟨?_, hterminal, ?_, fun hpolicy => ?_, hbackoff⟩
  · rw [terminalCount, List.countP_eq_length_filter, hterminal, List.rtake, List.length_drop]
    omega
  · rw [hterminal, hrunning]
    exact hbook.runs_eq
  · rw [List.countP_eq_length_filter, hrunning]
    refine hlength ?_
    rcases hpolicy with hpolicy | hpolicy <;> simp [hpolicy]

end Scheduler

open Scheduler

/-- **The ledger over a whole run.** -/
theorem scheduler_run (hierarchy : TierHierarchy) (ops : List Op)
    (honce : (ops.filterMap Op.registers).Nodup) (hkeep : ∀ id, .unregister id ∉ ops) :
    (∀ id job, (exec step (.new hierarchy) ops).jobs[id]? = some job →
      InOrder (exec step (.new hierarchy) ops) (finished (.new hierarchy) ops) id job) ∧
    ∀ r ∈ (exec step (.new hierarchy) ops).runs,
      r.tier ∈ (exec step (.new hierarchy) ops).admissibleTiers r.job := by
  have hconsistent := consistent_exec hierarchy honce hkeep
  exact ⟨fun id job hjob => hconsistent.inOrder hjob, hconsistent.tiers⟩

/-- A backup that is replaced when it is due again, and a report that may run twice; one finished
run of each is kept. -/
def backupCalls : List Op :=
  [.register "backup" (.new .workload .replace "rack" 1 1),
   .register "report" (.new .observability .allow "zone" 3 1),
   .fire "backup" "rack", .fire "report" "node", .fire "report" "rack", .fire "backup" "node",
   .succeed "report", .fail "report", .fail "backup", .fire "backup" "zone"]

/-- The hypotheses are met by the two jobs, and of four finished runs two are kept. -/
theorem backup_run :
    (backupCalls.filterMap Op.registers).Nodup ∧
      InOrder (exec step (.new .default) backupCalls) (finished (.new .default) backupCalls) "backup"
        (.new .workload .replace "rack" 1 1) ∧
      (exec step (.new .default) backupCalls).runs =
        [⟨"report", .observability, .failed, "rack"⟩, ⟨"backup", .workload, .failed, "node"⟩] ∧
      (finished (.new .default) backupCalls).length = 4 := by
  have hrun := scheduler_run .default backupCalls (by decide +kernel)
    (fun id hmem => by simp [backupCalls] at hmem)
  exact ⟨by decide +kernel, hrun.1 "backup" _ (by decide +kernel), by decide +kernel,
    by decide +kernel⟩

end Pillar.Manifest
