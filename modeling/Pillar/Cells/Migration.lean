import Pillar.Lib.Runs
import Pillar.StreamDb.OpLog

/-!
# Rolling migration of a view

`pillar-cells`: a cell moves from one schema of its view to another without a pause.

* `no_operation_lost` — **every member reads all operations, at every moment.**
* `moved_when_supported` — **a member is moved only while it supports the new view**, as long as no
  member declares a refused version after an accepted one.
-/

namespace Pillar.Cells

open Lib.Runs StreamDb
open Std (ExtTreeMap)

/-! ## Versions of a surface -/

/-- How far apart two versions may be. -/
structure CompatWindow where
  val : UInt16
  deriving DecidableEq

/-- Two versions of a surface are too far apart. -/
structure NegotiationRefused where
  surface : String
  local_ : SurfaceVersion
  remote : SurfaceVersion
  window : CompatWindow
  deriving DecidableEq

def diff (a b : SurfaceVersion) : UInt16 := if b.val ≤ a.val then a.val - b.val else b.val - a.val

def negotiateSurface (surface : String) (local_ remote : SurfaceVersion) (window : CompatWindow) :
    Except NegotiationRefused Unit :=
  if diff local_ remote ≤ window.val then .ok () else .error ⟨surface, local_, remote, window⟩

/-! ## The code -/

/-- The view that a member is served. -/
inductive ViewChoice where
  | old
  | new
  deriving DecidableEq

inductive MigrationError where
  /-- The new view is not built, or a live member has not declared. -/
  | notReady
  | alreadyBuilding
  deriving DecidableEq

variable {H : Bytes → Bytes}

/-- A move of the members from one view of a log to the next. -/
structure MigrationCoordinator (H : Bytes → Bytes) where
  surface : String
  targetVersion : SurfaceVersion
  window : CompatWindow
  /-- How long a member counts as live after it was seen. -/
  livenessTimeout : ℕ
  members : Finset NodeId
  oldLog : OpLog H
  /-- The log behind the new view, once it is built. -/
  newLog : Option (OpLog H)
  /-- The nodes that declared a version close enough. -/
  declaredNewSupport : Finset NodeId
  lastSeen : ExtTreeMap NodeId ℕ
  now : ℕ
  cutOver : Bool

namespace MigrationCoordinator

def new (surface : String) (targetVersion : SurfaceVersion) (window : CompatWindow)
    (livenessTimeout : ℕ) (members : List NodeId) : MigrationCoordinator H where
  surface
  targetVersion
  window
  livenessTimeout
  members := members.toFinset
  oldLog := OpLog.new
  newLog := none
  declaredNewSupport := ∅
  lastSeen := members.foldl (fun seen m => seen.insert m 0) ∅
  now := 0
  cutOver := false

def addMember (m : MigrationCoordinator H) (node : NodeId) : MigrationCoordinator H :=
  { m with lastSeen := m.lastSeen.insert node m.now, members := insert node m.members }

def append (m : MigrationCoordinator H) (payload : Bytes) : MigrationCoordinator H :=
  { m with
    oldLog := (m.oldLog.append payload).1
    newLog := m.newLog.map fun log => (log.append payload).1 }

def beginBuildNewView (m : MigrationCoordinator H) :
    Except MigrationError Unit × MigrationCoordinator H :=
  if m.newLog.isSome then (.error .alreadyBuilding, m)
  else (.ok (), { m with newLog := some m.oldLog })

def heartbeat (m : MigrationCoordinator H) (node : NodeId) : MigrationCoordinator H :=
  { m with lastSeen := m.lastSeen.insert node m.now }

def declareMemberVersion (m : MigrationCoordinator H) (node : NodeId) (declared : SurfaceVersion) :
    Except NegotiationRefused Unit × MigrationCoordinator H :=
  let seen := m.heartbeat node
  match negotiateSurface m.surface m.targetVersion declared m.window with
  | .error refused => (.error refused, seen)
  | .ok () => (.ok (), { seen with declaredNewSupport := insert node m.declaredNewSupport })

def advanceTime (m : MigrationCoordinator H) (tick : ℕ) : MigrationCoordinator H :=
  if m.now < tick then { m with now := tick } else m

def isLive (m : MigrationCoordinator H) (node : NodeId) : Bool :=
  match m.lastSeen[node]? with
  | some seen => decide (m.now - seen ≤ m.livenessTimeout)
  | none => false

def liveMembers (m : MigrationCoordinator H) : Finset NodeId := m.members.filter fun n => m.isLive n

def readyForCutover (m : MigrationCoordinator H) : Bool :=
  if m.cutOver then true
  else m.newLog.isSome && decide (∀ n ∈ m.liveMembers, n ∈ m.declaredNewSupport)

def attemptCutover (m : MigrationCoordinator H) :
    Except MigrationError Unit × MigrationCoordinator H :=
  if !m.readyForCutover then (.error .notReady, m)
  else if !m.cutOver then (.ok (), { m with cutOver := true, oldLog := OpLog.new })
  else (.ok (), m)

def viewFor (m : MigrationCoordinator H) (node : NodeId) : Option ViewChoice :=
  if node ∉ m.members then none
  else if m.cutOver then some .new
  else
    match m.newLog with
    | none => some .old
    | some _ => if node ∈ m.declaredNewSupport then some .new else some .old

def readView (m : MigrationCoordinator H) (node : NodeId) : Option (OpLog H) :=
  match m.viewFor node with
  | none => none
  | some .old => some m.oldLog
  | some .new => m.newLog

end MigrationCoordinator

theorem MigrationCoordinator.readyForCutover_iff {m : MigrationCoordinator H}
    (hcut : m.cutOver = false) :
    m.readyForCutover = true ↔
      m.newLog.isSome = true ∧ ∀ n ∈ m.liveMembers, n ∈ m.declaredNewSupport := by
  simp [readyForCutover, hcut]

theorem MigrationCoordinator.attemptCutover_eq_ok_iff {m : MigrationCoordinator H}
    (hcut : m.cutOver = false) :
    m.attemptCutover.1 = .ok () ↔
      m.newLog.isSome = true ∧ ∀ n ∈ m.liveMembers, n ∈ m.declaredNewSupport := by
  rw [← readyForCutover_iff hcut, attemptCutover]
  cases m.readyForCutover <;> simp [hcut]

/-! ## Runs -/

namespace Migration

inductive Call where
  | append (payload : Bytes)
  | beginBuildNewView
  | declareMemberVersion (node : NodeId) (declared : SurfaceVersion)
  | heartbeat (node : NodeId)
  | advanceTime (tick : ℕ)
  | addMember (node : NodeId)
  | attemptCutover
  deriving DecidableEq

def step (m : MigrationCoordinator H) : Call → MigrationCoordinator H
  | .append payload => m.append payload
  | .beginBuildNewView => m.beginBuildNewView.2
  | .declareMemberVersion node declared => (m.declareMemberVersion node declared).2
  | .heartbeat node => m.heartbeat node
  | .advanceTime tick => m.advanceTime tick
  | .addMember node => m.addMember node
  | .attemptCutover => m.attemptCutover.2

/-- The payloads of the operations of a run, in order. -/
def appended (calls : List Call) : List Bytes :=
  calls.filterMap fun
    | .append payload => some payload
    | _ => none

/-! ## Both logs hold everything -/

def logOf (payloads : List Bytes) : OpLog H :=
  payloads.foldl (fun log p => (log.append p).1) OpLog.new

structure Mirrors (m : MigrationCoordinator H) (log : OpLog H) : Prop where
  old : m.cutOver = false → m.oldLog = log
  new : ∀ l, m.newLog = some l → l = log
  built : m.cutOver = true → m.newLog.isSome = true

variable {m : MigrationCoordinator H} {log : OpLog H}

theorem Mirrors.of_eq {m' : MigrationCoordinator H} (h : Mirrors m log)
    (hold : m'.oldLog = m.oldLog) (hnew : m'.newLog = m.newLog) (hcut : m'.cutOver = m.cutOver) :
    Mirrors m' log := by
  refine ⟨?_, ?_, ?_⟩
  · rw [hcut, hold]
    exact h.old
  · rw [hnew]
    exact h.new
  · rw [hcut, hnew]
    exact h.built

theorem mirrors_append (h : Mirrors m log) (payload : Bytes) :
    Mirrors (m.append payload) (log.append payload).1 := by
  refine ⟨?_, ?_, ?_⟩
  · intro hcut
    exact congrArg (fun l => (OpLog.append l payload).1) (h.old hcut)
  · intro l hl
    obtain ⟨l', hl', rfl⟩ := Option.map_eq_some_iff.1 hl
    rw [h.new l' hl']
  · intro hcut
    exact Option.isSome_map.trans (h.built hcut)

theorem mirrors_beginBuildNewView (h : Mirrors m log) : Mirrors m.beginBuildNewView.2 log := by
  rw [MigrationCoordinator.beginBuildNewView]
  split_ifs with hbuilt
  · exact h
  · -- nothing is built, so the old log was not given up
    have hcut : m.cutOver = false := Bool.eq_false_iff.2 fun hcut => hbuilt (h.built hcut)
    exact ⟨h.old, fun l hl => (Option.some.inj hl).symm.trans (h.old hcut), fun _ => rfl⟩

theorem mirrors_attemptCutover (h : Mirrors m log) : Mirrors m.attemptCutover.2 log := by
  rw [MigrationCoordinator.attemptCutover]
  split_ifs with hready hcut
  · exact h
  · -- the old log is given up only when the new one is there
    have hready' : m.readyForCutover = true := by simpa using hready
    have hbuilt := (MigrationCoordinator.readyForCutover_iff (by simpa using hcut)).1 hready'
    exact ⟨nofun, h.new, fun _ => hbuilt.1⟩
  · exact h

theorem mirrors_of_not_append (h : Mirrors m log) {a : Call} (ha : ∀ payload, a ≠ .append payload) :
    Mirrors (step m a) log := by
  cases a with
  | append payload => exact absurd rfl (ha payload)
  | beginBuildNewView => exact mirrors_beginBuildNewView h
  | attemptCutover => exact mirrors_attemptCutover h
  | declareMemberVersion node declared =>
    rw [step, MigrationCoordinator.declareMemberVersion]
    split <;> exact h.of_eq rfl rfl rfl
  | heartbeat node | addMember node => exact h.of_eq rfl rfl rfl
  | advanceTime tick =>
    rw [step, MigrationCoordinator.advanceTime]
    split_ifs
    · exact h.of_eq rfl rfl rfl
    · exact h

theorem mirrors_exec (surface : String) (target : SurfaceVersion) (window : CompatWindow)
    (timeout : ℕ) (members : List NodeId) (calls : List Call) :
    Mirrors
      (exec step (MigrationCoordinator.new (H := H) surface target window timeout members) calls)
      (logOf (appended calls)) := by
  induction calls using List.reverseRecOn with
  | nil => exact ⟨fun _ => rfl, nofun, nofun⟩
  | append_singleton calls a ih =>
    rw [exec_concat]
    by_cases ha : ∃ payload, a = .append payload
    · obtain ⟨payload, rfl⟩ := ha
      have hlog : logOf (H := H) (appended (calls ++ [.append payload])) =
          ((logOf (appended calls)).append payload).1 := by
        simp [appended, logOf]
      rw [hlog]
      exact mirrors_append ih payload
    · have hnot : ∀ payload, a ≠ .append payload := not_exists.1 ha
      have hsame : appended (calls ++ [a]) = appended calls := by
        cases a <;> simp_all [appended]
      rw [hsame]
      exact mirrors_of_not_append ih hnot

variable {node : NodeId}

theorem readView_of_mirrors (h : Mirrors m log) (hnode : node ∈ m.members) :
    m.readView node = some log := by
  have hnew : m.newLog.isSome = true → m.newLog = some log := by
    intro hsome
    obtain ⟨l, hl⟩ := Option.isSome_iff_exists.1 hsome
    rw [hl, h.new l hl]
  rw [MigrationCoordinator.readView, MigrationCoordinator.viewFor, if_neg (not_not_intro hnode)]
  cases hcut : m.cutOver with
  | true => simpa using hnew (h.built hcut)
  | false =>
    have hold := h.old hcut
    cases hlog : m.newLog with
    | none => simp [hold]
    | some l =>
      have hl := h.new l hlog
      by_cases hdeclared : node ∈ m.declaredNewSupport <;> simp [hdeclared, hold, hl]

theorem mem_logOf (hH : CollisionFree H) (payloads : List Bytes) (op : Op H) :
    op ∈ (logOf payloads : OpLog H) ↔ op.payload ∈ payloads := by
  induction payloads using List.reverseRecOn with
  | nil => simpa [logOf] using OpLog.not_mem_new op
  | append_singleton payloads payload ih =>
    rw [logOf, List.foldl_concat, OpLog.mem_append hH, List.mem_append,
      List.mem_singleton]
    have hnew : op = Op.new payload ↔ op.payload = payload :=
      ⟨fun h => by rw [h]; rfl, fun h => Op.ext_payload h⟩
    rw [hnew, ← ih, or_comm]
    rfl

/-- **No operation is lost.** -/
theorem no_operation_lost (surface : String) (target : SurfaceVersion) (window : CompatWindow)
    (timeout : ℕ) (members : List NodeId) (calls : List Call) (node : NodeId)
    (hnode : node ∈ (exec step (MigrationCoordinator.new (H := H) surface target window timeout
      members) calls).members) :
    ∃ log, (exec step (MigrationCoordinator.new (H := H) surface target window timeout
        members) calls).readView node = some log ∧
      log = logOf (appended calls) ∧
      (CollisionFree H → ∀ op, op ∈ log.order ↔ op.payload ∈ appended calls) := by
  refine ⟨_, readView_of_mirrors (mirrors_exec surface target window timeout members calls) hnode,
    rfl, ?_⟩
  intro hH op
  rw [OpLog.mem_order, mem_logOf hH]

/-- A migration with an operation before the new view, one beside it and one after the old view. -/
def rollingCalls : List Call :=
  [.append [1], .beginBuildNewView, .append [2], .declareMemberVersion "n" ⟨2⟩, .attemptCutover,
    .append [3]]

theorem rolling_not_lost :
    ∃ log, (exec step (MigrationCoordinator.new (H := tableDigest []) "materialized-view" ⟨2⟩ ⟨1⟩ 10
        ["n"]) rollingCalls).readView "n" = some log ∧
      log = logOf [[1], [2], [3]] ∧ ∀ op, op ∈ log.order ↔ op.payload ∈ [[1], [2], [3]] := by
  obtain ⟨log, hview, hlog, hops⟩ := no_operation_lost (H := tableDigest []) "materialized-view" ⟨2⟩
    ⟨1⟩ 10 ["n"] rollingCalls "n" (by decide +kernel)
  exact ⟨log, hview, hlog, hops tableDigest_nil_collisionFree⟩

/-! ## Who is moved -/

def Declares (node : NodeId) (m : MigrationCoordinator H) (a : Call) : Prop :=
  ∃ v, a = .declareMemberVersion node v ∧ (m.declareMemberVersion node v).1 = .ok ()

def Misses (node : NodeId) (m : MigrationCoordinator H) (a : Call) : Prop :=
  ∃ v, a = .declareMemberVersion node v ∧ (m.declareMemberVersion node v).1 ≠ .ok ()

def LastAccepted (start : MigrationCoordinator H) (node : NodeId) (calls : List Call) : Prop :=
  Since step (Declares node) (Misses node) start calls

def Lasting (start : MigrationCoordinator H) (calls : List Call) : Prop :=
  ∀ (p : List Call) (node : NodeId) (v : SurfaceVersion) (q : List Call),
    calls = p ++ .declareMemberVersion node v :: q →
    ((exec step start p).declareMemberVersion node v).1 ≠ .ok () →
    ¬ Ever step (Declares node) start p

theorem mem_declaredNewSupport_declare {other : NodeId} {v : SurfaceVersion} :
    node ∈ (m.declareMemberVersion other v).2.declaredNewSupport ↔
      other = node ∧ (m.declareMemberVersion other v).1 = .ok () ∨ node ∈ m.declaredNewSupport := by
  rw [MigrationCoordinator.declareMemberVersion]
  cases negotiateSurface m.surface m.targetVersion v m.window with
  | error refused => simp [MigrationCoordinator.heartbeat]
  | ok => simp [eq_comm]

theorem mem_declaredNewSupport_step (node : NodeId) (m : MigrationCoordinator H) (a : Call) :
    node ∈ (step m a).declaredNewSupport ↔ Declares node m a ∨ node ∈ m.declaredNewSupport := by
  cases a with
  | declareMemberVersion other v =>
    rw [step, mem_declaredNewSupport_declare]
    refine or_congr_left ⟨?_, ?_⟩
    · rintro ⟨rfl, hok⟩
      exact ⟨v, rfl, hok⟩
    · rintro ⟨w, hw, hok⟩
      obtain ⟨rfl, rfl⟩ := Call.declareMemberVersion.inj hw
      exact ⟨rfl, hok⟩
  | append | heartbeat | addMember => exact (or_iff_right nofun).symm
  | beginBuildNewView =>
    rw [step, MigrationCoordinator.beginBuildNewView]
    split_ifs <;> exact (or_iff_right nofun).symm
  | advanceTime tick =>
    rw [step, MigrationCoordinator.advanceTime]
    split_ifs <;> exact (or_iff_right nofun).symm
  | attemptCutover =>
    rw [step, MigrationCoordinator.attemptCutover]
    split_ifs <;> exact (or_iff_right nofun).symm

variable {start : MigrationCoordinator H}

theorem mem_declaredNewSupport_exec (hstart : start.declaredNewSupport = ∅) (node : NodeId)
    (calls : List Call) :
    node ∈ (exec step start calls).declaredNewSupport ↔ Ever step (Declares node) start calls :=
  exec_iff_ever (P := fun m => node ∈ m.declaredNewSupport) (s := start)
    (fun m a => mem_declaredNewSupport_step node m a) (hstart ▸ Finset.notMem_empty node) calls

theorem Lasting.of_append {p q : List Call} (h : Lasting start (p ++ q)) : Lasting start p := by
  rintro p' node v q' rfl
  exact h p' node v (q' ++ q) (by simp)

theorem lastAccepted_of_ever {calls : List Call} (h : Lasting start calls)
    (hever : Ever step (Declares node) start calls) : LastAccepted start node calls := by
  induction calls using List.reverseRecOn with
  | nil => exact absurd hever not_ever_nil
  | append_singleton calls a ih =>
    rw [LastAccepted, since_concat]
    rcases ever_concat.1 hever with hlast | hbefore
    · exact .inl hlast
    · refine .inr ⟨ih h.of_append hbefore, ?_⟩
      rintro ⟨v, rfl, hrefused⟩
      exact h calls node v [] rfl hrefused hbefore

theorem declared_of_viewFor (hcut : m.cutOver = false) (h : m.viewFor node = some .new) :
    node ∈ m.declaredNewSupport := by
  by_contra hnot
  cases hlog : m.newLog <;>
    simp [MigrationCoordinator.viewFor, hcut, hlog, hnot] at h

/-- **Only who supports the new schema is moved to it.** -/
theorem moved_when_supported (surface : String) (target : SurfaceVersion) (window : CompatWindow)
    (timeout : ℕ) (members : List NodeId) (calls : List Call)
    (h : Lasting (MigrationCoordinator.new (H := H) surface target window timeout members) calls) :
    let start := MigrationCoordinator.new (H := H) surface target window timeout members
    (∀ node, (exec step start calls).cutOver = false →
      (exec step start calls).viewFor node = some .new → LastAccepted start node calls) ∧
    (∀ p q, calls = p ++ .attemptCutover :: q → (exec step start p).cutOver = false →
      (exec step start p).attemptCutover.1 = .ok () →
      ∀ node ∈ (exec step start p).liveMembers, LastAccepted start node p) := by
  intro start
  have hstart : start.declaredNewSupport = ∅ := rfl
  constructor
  · intro node hcut hview
    have hdeclared := declared_of_viewFor hcut hview
    exact lastAccepted_of_ever h ((mem_declaredNewSupport_exec hstart node calls).1 hdeclared)
  · rintro p q rfl hcut hok node hnode
    have hdeclared := ((MigrationCoordinator.attemptCutover_eq_ok_iff hcut).1 hok).2 node hnode
    exact lastAccepted_of_ever h.of_append
      ((mem_declaredNewSupport_exec hstart node p).1 hdeclared)

/-- A migration to version 2, of a cell with one member; versions may differ by one. -/
def oneMember : MigrationCoordinator (tableDigest []) :=
  .new "materialized-view" ⟨2⟩ ⟨1⟩ 10 ["n"]

theorem member_moved :
    LastAccepted oneMember "n" [.beginBuildNewView, .declareMemberVersion "n" ⟨2⟩] := by
  refine (moved_when_supported "materialized-view" ⟨2⟩ ⟨1⟩ 10 ["n"] _ ?_).1 "n" ?_ ?_
  · intro p node v q hcalls hrefused
    -- the only declaration of the run is accepted
    rcases p with - | ⟨a, - | ⟨b, p⟩⟩
    · simp at hcalls
    · simp only [List.cons_append, List.nil_append, List.cons.injEq,
        Call.declareMemberVersion.injEq] at hcalls
      obtain ⟨rfl, ⟨rfl, rfl⟩, -⟩ := hcalls
      exact absurd (by decide +kernel) hrefused
    · simp at hcalls
  · decide +kernel
  · decide +kernel

/-- The member declares version 2, which is accepted, and then version 5, which is refused. -/
theorem moved_unsupported :
    let calls := [.beginBuildNewView, .declareMemberVersion "n" ⟨2⟩, .declareMemberVersion "n" ⟨5⟩]
    (exec step oneMember calls).cutOver = false ∧
      (exec step oneMember calls).viewFor "n" = some .new ∧
      (exec step oneMember calls).attemptCutover.1 = .ok () ∧
      "n" ∈ (exec step oneMember calls).liveMembers ∧ ¬ LastAccepted oneMember "n" calls := by
  refine ⟨by decide +kernel, by decide +kernel, by decide +kernel, by decide +kernel, ?_⟩
  intro h
  have hlast : LastAccepted oneMember "n"
      ([.beginBuildNewView, .declareMemberVersion "n" ⟨2⟩] ++ [.declareMemberVersion "n" ⟨5⟩]) := h
  rcases since_concat.1 hlast with ⟨v, hv, hok⟩ | ⟨-, hnot⟩
  · obtain ⟨-, rfl⟩ := Call.declareMemberVersion.inj hv
    exact absurd hok (by decide +kernel)
  · exact hnot ⟨⟨5⟩, rfl, by decide +kernel⟩

end Migration
end Pillar.Cells
