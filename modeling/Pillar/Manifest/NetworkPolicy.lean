import Pillar.Manifest.Gitops

/-!
# Network policies

`pillar-manifest`'s network policies: a manifest allows or denies connections from one name to
another.

* `agrees_step_iff` — **a call keeps the agreement precisely if it is such a call**;
  `deny_wins_iff` — so does a sequence of calls.
-/

namespace Pillar.Manifest.NetworkPolicy

open Lib.Runs

/-! ## Rules -/

/-- Whether connections are allowed. -/
inductive PolicyAction where
  | allow
  | deny
  deriving DecidableEq

inductive RuleError where
  | malformedSpec (field : Str)
  | unknownAction (action : Str)
  deriving DecidableEq

structure NetworkPolicyRule where
  source : Str
  target : Str
  action : PolicyAction
  deriving DecidableEq

def NetworkPolicyRule.pair (r : NetworkPolicyRule) : Str × Str := (r.source, r.target)

def stringField (crd : Crd) (name : Str) : Except RuleError Str :=
  match crd.spec[name]? with
  | some (.string s) => .ok s
  | _ => .error (.malformedSpec name)

def actionOf (action : Str) : Except RuleError PolicyAction :=
  if action.val = "allow" then .ok .allow
  else if action.val = "deny" then .ok .deny
  else .error (.unknownAction action)

def NetworkPolicyRule.fromCrd (crd : Crd) : Except RuleError NetworkPolicyRule := do
  let source ← stringField crd (.lit "from")
  let target ← stringField crd (.lit "to")
  let action ← stringField crd (.lit "action")
  let action ← actionOf action
  return ⟨source, target, action⟩

/-- The rules that are installed, one for each pair. -/
structure NetworkPolicySet where
  rules : Str × Str → Option PolicyAction

namespace NetworkPolicySet

def new : NetworkPolicySet := ⟨fun _ => none⟩

def install (policies : NetworkPolicySet) (r : NetworkPolicyRule) : NetworkPolicySet :=
  ⟨Function.update policies.rules r.pair (some r.action)⟩

def rulePermits (policies : NetworkPolicySet) (source target : Str) : Bool :=
  match policies.rules (source, target) with
  | some .deny => false
  | some .allow | none => true

theorem rulePermits_eq_false_iff {policies : NetworkPolicySet} {source target : Str} :
    policies.rulePermits source target = false ↔ policies.rules (source, target) = some .deny := by
  rw [rulePermits]
  split <;> simp_all

end NetworkPolicySet

/-- The answer to a manifest without a rule. -/
def failure : RuleError → ReconcileOutcome
  | .malformedSpec field => .failed ("malformed spec field: " ++ field.val)
  | .unknownAction action => .failed ("unknown action: " ++ action.val)

def controllerHook : ControllerHook NetworkPolicySet where
  reconcile policies crd :=
    match NetworkPolicyRule.fromCrd crd with
    | .ok rule => (.reconciled, policies.install rule)
    | .error e => (failure e, policies)
  delete policies _ := (.reconciled, policies)

/-! ## Manifests that are declared -/

inductive Call where
  | reconcile (crd : Crd)
  | delete (crd : Crd)

structure Declared where
  policies : NetworkPolicySet
  /-- The rule that was applied last under a name, if it was not deleted since. -/
  live : Str → Option NetworkPolicyRule

/-- The manifests that are declared after a call. -/
def liveAfter (live : Str → Option NetworkPolicyRule) : Call → Str → Option NetworkPolicyRule
  | .reconcile crd =>
    match NetworkPolicyRule.fromCrd crd with
    | .ok rule => Function.update live crd.metadata.name (some rule)
    | .error _ => live
  | .delete crd => Function.update live crd.metadata.name none

def step (s : Declared) (call : Call) : Declared where
  policies :=
    match call with
    | .reconcile crd => (controllerHook.reconcile s.policies crd).2
    | .delete crd => (controllerHook.delete s.policies crd).2
  live := liveAfter s.live call

/-- A hook without rules, and no manifests. -/
def start : Declared := ⟨.new, fun _ => none⟩

def Denied (live : Str → Option NetworkPolicyRule) (pair : Str × Str) : Prop :=
  ∃ name rule, live name = some rule ∧ rule.pair = pair ∧ rule.action = .deny

def Agrees (s : Declared) : Prop :=
  ∀ source target, s.policies.rulePermits source target = false ↔ Denied s.live (source, target)

def Call.rule : Call → Option NetworkPolicyRule
  | .reconcile crd => (NetworkPolicyRule.fromCrd crd).toOption
  | .delete _ => none

/-- The call allows no pair that is denied after it, and every other pair that was denied before is
still denied by some manifest. -/
structure Keeps (s : Declared) (call : Call) : Prop where
  allowed : ∀ rule, call.rule = some rule → rule.action = .allow →
    ¬ Denied (step s call).live rule.pair
  denied : ∀ pair, (∀ rule, call.rule = some rule → rule.pair ≠ pair) → Denied s.live pair →
    Denied (step s call).live pair

/-! ## What a call does -/

section Step

variable {s : Declared} {call : Call} {rule : NetworkPolicyRule}

theorem step_of_rule_eq_none (h : call.rule = none) :
    (step s call).policies = s.policies ∧
      ∀ pair, Denied (step s call).live pair → Denied s.live pair := by
  cases call with
  | reconcile crd =>
    cases hrule : NetworkPolicyRule.fromCrd crd with
    | ok rule => simp [Call.rule, hrule, Except.toOption] at h
    | error e =>
      simp only [step, controllerHook, liveAfter, hrule]
      exact ⟨trivial, fun _ => id⟩
  | delete crd =>
    refine ⟨rfl, ?_⟩
    rintro pair ⟨name, rule, hlive, hrule⟩
    refine ⟨name, rule, ?_, hrule⟩
    by_cases hname : name = crd.metadata.name
    · simp [step, liveAfter, hname] at hlive
    · simpa [step, liveAfter, hname] using hlive

theorem step_of_rule_eq_some (h : call.rule = some rule) :
    (step s call).policies = s.policies.install rule ∧
      ∃ name, (step s call).live = Function.update s.live name (some rule) := by
  cases call with
  | reconcile crd =>
    cases hrule : NetworkPolicyRule.fromCrd crd with
    | ok r =>
      obtain rfl : r = rule := by simpa [Call.rule, hrule, Except.toOption] using h
      simp only [step, controllerHook, liveAfter, hrule]
      exact ⟨trivial, _, rfl⟩
    | error e => simp [Call.rule, hrule, Except.toOption] at h
  | delete crd => cases h

theorem denied_of_denied_update {live : Str → Option NetworkPolicyRule} {name : Str}
    {pair : Str × Str} (hne : rule.pair ≠ pair)
    (h : Denied (Function.update live name (some rule)) pair) : Denied live pair := by
  obtain ⟨n, r, hlive, hpair, hdeny⟩ := h
  by_cases hname : n = name
  · subst hname
    rw [Function.update_self] at hlive
    exact absurd (Option.some.inj hlive ▸ hpair) hne
  · rw [Function.update_of_ne hname] at hlive
    exact ⟨n, r, hlive, hpair, hdeny⟩

/-- **A call keeps the agreement precisely if it allows no pair that is denied, and takes no denial
away.** -/
theorem agrees_step_iff (hs : Agrees s) : Agrees (step s call) ↔ Keeps s call := by
  cases hcall : call.rule with
  | none =>
    obtain ⟨hpolicies, hlive⟩ := step_of_rule_eq_none (s := s) hcall
    constructor
    · intro h
      refine ⟨fun rule hrule => by simp [hcall] at hrule, fun pair _ hdenied => ?_⟩
      exact (h pair.1 pair.2).1 (hpolicies ▸ (hs pair.1 pair.2).2 hdenied)
    · intro h source target
      rw [hpolicies, hs]
      exact ⟨h.denied _ (fun rule hrule => by simp [hcall] at hrule), hlive _⟩
  | some rule =>
    obtain ⟨hpolicies, name, hlive⟩ := step_of_rule_eq_some (s := s) hcall
    -- the rules differ at the pair of the new rule only
    have hself : (step s call).policies.rules rule.pair = some rule.action := by
      rw [hpolicies]
      exact Function.update_self _ _ _
    have hother : ∀ pair, rule.pair ≠ pair →
        (step s call).policies.rules pair = s.policies.rules pair := by
      intro pair hne
      rw [hpolicies]
      exact Function.update_of_ne hne.symm _ _
    constructor
    · intro h
      refine ⟨fun r hr hallow hdenied => ?_, fun pair hne hdenied => ?_⟩
      · obtain rfl : rule = r := Option.some.inj (hcall ▸ hr)
        have hrefused := NetworkPolicySet.rulePermits_eq_false_iff.1
          ((h rule.source rule.target).2 hdenied)
        have hallowed : some rule.action = some .deny := hself.symm.trans hrefused
        rw [hallow] at hallowed
        cases hallowed
      · have hrefused := NetworkPolicySet.rulePermits_eq_false_iff.1
          ((hs pair.1 pair.2).2 hdenied)
        refine (h pair.1 pair.2).1 (NetworkPolicySet.rulePermits_eq_false_iff.2 ?_)
        exact (hother pair (hne rule hcall)).trans hrefused
    · intro h source target
      rw [NetworkPolicySet.rulePermits_eq_false_iff]
      by_cases hpair : rule.pair = (source, target)
      · rw [← hpair, hself, Option.some.injEq]
        constructor
        · intro hdeny
          exact ⟨name, rule, by rw [hlive, Function.update_self], rfl, hdeny⟩
        · intro hdenied
          cases haction : rule.action with
          | deny => rfl
          | allow => exact absurd hdenied (h.allowed rule hcall haction)
      · rw [hother _ hpair, ← NetworkPolicySet.rulePermits_eq_false_iff, hs]
        constructor
        · refine h.denied _ fun r hr => ?_
          obtain rfl : rule = r := Option.some.inj (hcall ▸ hr)
          exact hpair
        · rw [hlive]
          exact denied_of_denied_update hpair

end Step

/-- **A denial wins precisely as long as no call allows its pair or takes it away.** -/
theorem deny_wins_iff (calls : List Call) :
    Throughout step Agrees start calls ↔ Along step Keeps start calls := by
  refine throughout_iff_along (J := fun _ => True) (fun _ _ _ _ _ => trivial)
    (fun s call _ _ hs => agrees_step_iff hs) trivial ?_
  intro source target
  refine iff_of_false ?_ ?_
  · simp [start, NetworkPolicySet.new, NetworkPolicySet.rulePermits]
  · rintro ⟨name, rule, hlive, -⟩
    cases hlive

/-! ## A denial that is lost, and one that stays -/

def actionText : PolicyAction → Str
  | .allow => .lit "allow"
  | .deny => .lit "deny"

def policy (name : Str) (rule : NetworkPolicyRule) : Crd :=
  ⟨routeVersion, .lit "NetworkPolicy", ⟨name, ∅⟩,
    (((∅ : Std.ExtTreeMap Str Value).insert
      (.lit "from") (.string rule.source)).insert
      (.lit "to") (.string rule.target)).insert
      (.lit "action") (.string (actionText rule.action))⟩

theorem fromCrd_policy (name : Str) (rule : NetworkPolicyRule) :
    NetworkPolicyRule.fromCrd (policy name rule) = .ok rule := by
  obtain ⟨source, target, action⟩ := rule
  cases action <;> rfl

theorem live_reconcile_policy (s : Declared) (name : Str) (rule : NetworkPolicyRule) :
    (step s (.reconcile (policy name rule))).live = Function.update s.live name (some rule) := by
  simp only [step, liveAfter, fromCrd_policy]
  rfl

theorem live_delete_policy (s : Declared) (name : Str) (rule : NetworkPolicyRule) :
    (step s (.delete (policy name rule))).live = Function.update s.live name none := rfl

def closed : NetworkPolicyRule := ⟨routeX, routeY, .deny⟩

/-- From `x` to `y` everything may connect. -/
def opened : NetworkPolicyRule := ⟨routeX, routeY, .allow⟩

def reversed : NetworkPolicyRule := ⟨routeY, routeX, .deny⟩

/-- A manifest denies a pair, and another one allows it. -/
def overruled : Declared :=
  exec step start [.reconcile (policy routeX closed), .reconcile (policy routeY opened)]

/-- A manifest denies a pair and is deleted. -/
def withdrawn : Declared :=
  exec step start [.reconcile (policy routeX closed), .delete (policy routeX closed)]

/-- A manifest denies a pair and then another one. -/
def redirected : Declared :=
  exec step start [.reconcile (policy routeX closed), .reconcile (policy routeX reversed)]

/-- A manifest denies a pair and another one allows it: the later wins. -/
theorem deny_loses :
    (Denied overruled.live closed.pair ∧
      overruled.policies.rulePermits routeX routeY = true) ∧
    (¬ Denied withdrawn.live closed.pair ∧
      withdrawn.policies.rulePermits routeX routeY = false) ∧
    ¬ Denied redirected.live closed.pair ∧
      redirected.policies.rulePermits routeX routeY = false := by
  refine ⟨⟨⟨routeX, closed, by decide +kernel⟩, by decide +kernel⟩, ⟨?_, by decide +kernel⟩, ?_,
    by decide +kernel⟩
  · rintro ⟨name, rule, hlive, -⟩
    by_cases hname : name = routeX <;>
      simp [withdrawn, live_reconcile_policy, live_delete_policy, start, hname] at hlive
  · rintro ⟨name, rule, hlive, hpair, -⟩
    have hrule : rule = reversed := by
      by_cases hname : name = routeX
      · simpa [redirected, live_reconcile_policy, hname, eq_comm] using hlive
      · simp [redirected, live_reconcile_policy, start, hname] at hlive
    rw [hrule] at hpair
    exact absurd hpair (by decide)

end Pillar.Manifest.NetworkPolicy
