import Pillar.Lib.Runs
import Mathlib.Data.Finset.Insert

/-!
# Elevation for a window

`pillar-cli`'s ledger of authority: whoever has a level may pass it on for a window.

* `elevation_leaves_nothing` — **while nobody grants themselves anything, a subject has what others
  give it**, and nothing once their windows have passed.
-/

namespace Pillar.JitElevation

open Lib.Runs

/-- The top of the levels; 0 is no authority. -/
def maxLevel : ℕ := 8

inductive GrantKind where
  | grant
  | jit
  deriving DecidableEq

/-- A grant, with the level that its granter had when it was issued. -/
structure Grant where
  id : UInt64
  granter : String
  subject : String
  level : ℕ
  expiry : ℕ
  kind : GrantKind
  granterLevel : ℕ
  deriving DecidableEq

inductive ElevationError where
  | levelOutOfRange (requested : ℕ)
  | exceedsGranter (requested granterLevel : ℕ)
  | notAnElevation (requested subjectLevel : ℕ)
  | expiryInPast (expiry now : ℕ)
  deriving DecidableEq

/-- All grants that were issued, those revoked, and the time. -/
structure AuthorityLedger where
  grants : List Grant
  revoked : Finset UInt64
  now : ℕ
  nextId : UInt64
  owner : Option String

namespace AuthorityLedger

def new (owner : Option String) : AuthorityLedger := ⟨[], ∅, 0, 1, owner⟩

variable (l : AuthorityLedger)

def tickTo (t : ℕ) : AuthorityLedger := { l with now := max l.now t }

def isLive (g : Grant) : Bool := g.id ∉ l.revoked && l.now ≤ g.expiry

def liveGrantsFor (s : String) : List Grant :=
  l.grants.filter fun g => g.subject = s && l.isLive g

def highest (grants : List Grant) : ℕ := (grants.map (·.level)).max?.getD 0

def effAuth (s : String) : ℕ :=
  if l.owner = some s then maxLevel else highest (l.liveGrantsFor s)

def check (granter : String) (level expiry : ℕ) : Except ElevationError ℕ :=
  if level = 0 ∨ maxLevel < level then .error (.levelOutOfRange level)
  else if expiry < l.now then .error (.expiryInPast expiry l.now)
  else if l.effAuth granter < level then .error (.exceedsGranter level (l.effAuth granter))
  else .ok (l.effAuth granter)

def push (granter subject : String) (level expiry : ℕ) (kind : GrantKind) (granterLevel : ℕ) :
    UInt64 × AuthorityLedger :=
  (l.nextId, { l with
    nextId := l.nextId + 1
    grants := l.grants ++ [⟨l.nextId, granter, subject, level, expiry, kind, granterLevel⟩] })

def grant (granter subject : String) (level expiry : ℕ) :
    Except ElevationError (UInt64 × AuthorityLedger) := do
  let granterLevel ← l.check granter level expiry
  return l.push granter subject level expiry .grant granterLevel

def jitElevate (granter subject : String) (level expiry : ℕ) :
    Except ElevationError (UInt64 × AuthorityLedger) := do
  let granterLevel ← l.check granter level expiry
  if level ≤ l.effAuth subject then throw (.notAnElevation level (l.effAuth subject))
  return l.push granter subject level expiry .jit granterLevel

def revoke (id : UInt64) : AuthorityLedger := { l with revoked := insert id l.revoked }

/-! ## Histories -/

inductive Call where
  | grant (granter subject : String) (level expiry : ℕ)
  | jitElevate (granter subject : String) (level expiry : ℕ)
  | revoke (id : UInt64)
  | tickTo (t : ℕ)

def step : Call → AuthorityLedger
  | .grant granter subject level expiry =>
    (l.grant granter subject level expiry).toOption.elim l Prod.snd
  | .jitElevate granter subject level expiry =>
    (l.jitElevate granter subject level expiry).toOption.elim l Prod.snd
  | .revoke id => l.revoke id
  | .tickTo t => l.tickTo t

def othersLevel (s : String) : ℕ := highest ((l.liveGrantsFor s).filter fun g => g.granter ≠ s)

/-- Nobody but the owner grants themselves anything. -/
def Careful (call : Call) : Prop :=
  ∀ s level expiry, call = .grant s s level expiry → l.owner ≠ some s →
    ∃ e, l.grant s s level expiry = .error e

def ByOthers : Prop := ∀ g ∈ l.grants, l.owner ≠ some g.subject → g.granter ≠ g.subject

variable {l} {granter subject s : String} {level expiry : ℕ} {id : UInt64} {l' : AuthorityLedger}

theorem check_eq_ok {granterLevel : ℕ} (h : l.check granter level expiry = .ok granterLevel) :
    level ≤ l.effAuth granter := by
  rw [check] at h
  split_ifs at h with _ _ hlevel
  exact not_lt.1 hlevel

theorem grant_eq_ok (h : l.grant granter subject level expiry = .ok (id, l')) :
    ∃ granterLevel, l.push granter subject level expiry .grant granterLevel = (id, l') := by
  rw [grant] at h
  cases hcheck : l.check granter level expiry with
  | error e =>
    rw [hcheck] at h
    cases h
  | ok granterLevel =>
    rw [hcheck] at h
    exact ⟨granterLevel, Except.ok.inj h⟩

/-- **Nobody elevates themselves.** -/
theorem jitElevate_eq_ok (h : l.jitElevate granter subject level expiry = .ok (id, l')) :
    granter ≠ subject ∧
      ∃ granterLevel, l.push granter subject level expiry .jit granterLevel = (id, l') := by
  rw [jitElevate] at h
  cases hcheck : l.check granter level expiry with
  | error e =>
    rw [hcheck] at h
    cases h
  | ok granterLevel =>
    rw [hcheck] at h
    by_cases hraises : level ≤ l.effAuth subject
    · simp [hraises, bind, Except.bind, throw, throwThe, MonadExceptOf.throw] at h
    · have hlevel := check_eq_ok hcheck
      refine ⟨?_, granterLevel, ?_⟩
      · rintro rfl
        exact hraises hlevel
      · simpa [hraises, bind, Except.bind, pure, Except.pure] using h

theorem ByOthers.push (h : l.ByOthers) (hothers : l.owner ≠ some subject → granter ≠ subject)
    {kind : GrantKind} {granterLevel : ℕ}
    (hpush : l.push granter subject level expiry kind granterLevel = (id, l')) : l'.ByOthers := by
  obtain ⟨-, rfl⟩ := Prod.mk.inj hpush
  intro g hg howner
  rcases List.mem_append.1 hg with hg | hg
  · exact h g hg howner
  · obtain rfl := List.mem_singleton.1 hg
    exact hothers howner

/-- **A careful call leaves the grants by others.** -/
theorem ByOthers.step {call : Call} (h : l.ByOthers) (hcareful : l.Careful call) :
    (l.step call).ByOthers := by
  cases call with
  | grant granter subject level expiry =>
    cases hgrant : l.grant granter subject level expiry with
    | error e => simpa [AuthorityLedger.step, hgrant, Except.toOption] using h
    | ok r =>
      obtain ⟨granterLevel, hpush⟩ := grant_eq_ok hgrant
      have hothers : l.owner ≠ some subject → granter ≠ subject := by
        rintro howner rfl
        obtain ⟨e, he⟩ := hcareful _ _ _ rfl howner
        rw [he] at hgrant
        cases hgrant
      simpa [AuthorityLedger.step, hgrant, Except.toOption] using h.push hothers hpush
  | jitElevate granter subject level expiry =>
    cases hjit : l.jitElevate granter subject level expiry with
    | error e => simpa [AuthorityLedger.step, hjit, Except.toOption] using h
    | ok r =>
      obtain ⟨hne, granterLevel, hpush⟩ := jitElevate_eq_ok hjit
      simpa [AuthorityLedger.step, hjit, Except.toOption] using h.push (fun _ => hne) hpush
  | revoke id | tickTo t => exact h

theorem ByOthers.effAuth_eq (h : l.ByOthers) (howner : l.owner ≠ some s) :
    l.effAuth s = l.othersLevel s := by
  rw [effAuth, if_neg howner, othersLevel, List.filter_eq_self.2]
  intro g hg
  simp only [liveGrantsFor, List.mem_filter, Bool.and_eq_true, decide_eq_true_eq] at hg ⊢
  obtain ⟨hg, rfl, -⟩ := hg
  exact h g hg howner

theorem othersLevel_eq_zero (h : ∀ g ∈ l.grants, g.subject = s → g.granter ≠ s →
    l.isLive g = false) : l.othersLevel s = 0 := by
  have hnone : (l.liveGrantsFor s).filter (fun g => g.granter ≠ s) = [] := by
    simp only [List.filter_eq_nil_iff, liveGrantsFor, List.mem_filter, Bool.and_eq_true,
      decide_eq_true_eq]
    rintro g ⟨hg, hsubject, hlive⟩ hother
    rw [h g hg hsubject hother] at hlive
    cases hlive
  rw [othersLevel, hnone]
  rfl

end AuthorityLedger

open AuthorityLedger

/-- **An elevation leaves nothing standing, if nobody grants themselves anything.** -/
theorem elevation_leaves_nothing {l : AuthorityLedger} (hnew : l.grants = []) {calls : List Call}
    (hcareful : Along AuthorityLedger.step Careful l calls) :
    Throughout AuthorityLedger.step (fun l => ∀ s, l.owner ≠ some s →
      l.effAuth s ≤ l.othersLevel s ∧
      ((∀ g ∈ l.grants, g.subject = s → g.granter ≠ s → l.isLive g = false) →
        l.effAuth s = 0)) l calls := by
  have hstart : l.ByOthers := by
    intro g hg
    rw [hnew] at hg
    cases hg
  intro p hp s howner
  have h : (exec AuthorityLedger.step l p).ByOthers :=
    throughout_of_along (C := Careful) (fun _ _ h hc => h.step hc) hstart hcareful p hp
  rw [h.effAuth_eq howner]
  exact ⟨le_rfl, othersLevel_eq_zero⟩

/-! ## A window -/

def opened : List Call := [.jitElevate "o" "a" 5 3]

def after (calls : List Call) : AuthorityLedger := exec AuthorityLedger.step (.new (some "o")) calls

/-- The elevation is there, and is gone after its window. -/
theorem window_passes :
    (after opened).effAuth "a" = 5 ∧ (after (opened ++ [.tickTo 4])).effAuth "a" = 0 := by
  have hcareful : Along AuthorityLedger.step Careful (.new (some "o")) (opened ++ [.tickTo 4]) := by
    refine along_cons.2 ⟨?_, along_cons.2 ⟨?_, along_nil⟩⟩ <;>
    · intro s level expiry h
      cases h
  refine ⟨by decide +kernel, ?_⟩
  exact (elevation_leaves_nothing rfl hcareful _ List.prefix_rfl "a" (by decide +kernel)).2
    (by decide +kernel)

/-- In its window `a` grants itself its level: that stays when the window has passed. -/
theorem elevation_left_standing :
    (after (opened ++ [.grant "a" "a" 5 100, .tickTo 4])).effAuth "a" = 5 ∧
      (after (opened ++ [.grant "a" "a" 5 100, .tickTo 4])).othersLevel "a" = 0 := by
  decide +kernel

end Pillar.JitElevation
