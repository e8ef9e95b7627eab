import Pillar.WotAuthority.Authority

/-!
# The decider

A request is decided on four rungs: an explicit denial, an explicit grant, the policy on trust
depth, and refusal.
-/

namespace Pillar.Rbac

/-! ## Requests and policies -/

abbrev Capability := String

/-- What kind of resource is asked for; `all` is the catch-all. -/
inductive ResourceClass
  | compute
  | network
  | storage
  | all
  deriving DecidableEq

inductive PolicyTarget
  | node (node : NodeId)
  | group (parent : NodeId)
  | labelSet (labels : Finset String)
  | resourceClass (class_ : ResourceClass)
  deriving DecidableEq

def PolicyTarget.specificity : PolicyTarget → ℕ
  | .node _ => 0
  | .group _ => 1
  | .labelSet _ => 2
  | .resourceClass .compute | .resourceClass .network | .resourceClass .storage => 3
  | .resourceClass .all => 4

/-- The target requires a trust depth for the capability. -/
structure PolicyEvent where
  target : PolicyTarget
  capability : Capability
  depthThreshold : ℕ
  deriving DecidableEq

inductive GrantEffect
  | allow
  | deny
  deriving DecidableEq

/-- An explicit grant, or denial, of one capability to one subject. -/
structure ExplicitGrant where
  subject : NodeId
  capability : Capability
  effect : GrantEffect
  deriving DecidableEq

inductive Decision
  | allow
  | deny
  deriving DecidableEq

/-- The proof of a re-authentication. -/
structure StepUpAssertion where
  verifiedAtSecs : ℕ
  credentialId : Bytes
  deriving DecidableEq

structure Request where
  subject : NodeId
  capability : Capability
  resourceClass : ResourceClass
  subjectLabels : Finset String
  nowSecs : ℕ
  stepUp : Option StepUpAssertion

/-- A request that names no class and no labels. -/
def Request.new (subject : NodeId) (capability : Capability) : Request :=
  ⟨subject, capability, .all, ∅, 0, none⟩

/-- Which capabilities need a re-authentication, and how fresh. -/
structure StepUpPolicy where
  required : Finset Capability
  maxAgeSecs : ℕ

def StepUpPolicy.requiresStepUp (p : StepUpPolicy) (capability : Capability) : Bool :=
  decide (capability ∈ p.required)

/-- Not older than allowed, and not from the future. -/
def StepUpPolicy.assertionIsFresh (p : StepUpPolicy) (a : StepUpAssertion) (nowSecs : ℕ) : Bool :=
  if a.verifiedAtSecs ≤ nowSecs then decide (nowSecs - a.verifiedAtSecs ≤ p.maxAgeSecs) else false

/-! ## The decision -/

/-- The view that a request is decided on; the signatures of the web of trust come in
some order of iteration. -/
structure RbacDecider where
  authority : WotAuthority
  iteration : authority.Iteration
  policies : List PolicyEvent
  grants : List ExplicitGrant
  stepUp : StepUpPolicy

/-- The rung that produced a decision. -/
inductive Exercised
  | explicitAllow
  | explicitDeny
  | wotDepthDefault (depth threshold : ℕ)
  | stepUpRequired
  | denyAll
  deriving DecidableEq

def Exercised.allows : Exercised → Bool
  | .explicitAllow | .wotDepthDefault _ _ => true
  | .explicitDeny | .stepUpRequired | .denyAll => false

namespace RbacDecider

def new (authority : WotAuthority) (iteration : authority.Iteration) (policies : List PolicyEvent)
    (grants : List ExplicitGrant) : RbacDecider :=
  ⟨authority, iteration, policies, grants, ⟨∅, 0⟩⟩

variable (d : RbacDecider)

def scanGrants (subject : NodeId) (capability : Capability) :
    List ExplicitGrant → Option GrantEffect → Option GrantEffect
  | [], allow => allow
  | g :: gs, allow =>
    if g.subject = subject ∧ g.capability = capability then
      match g.effect with
      | .deny => some .deny
      | .allow => scanGrants subject capability gs (some .allow)
    else scanGrants subject capability gs allow

def explicitGrant (subject : NodeId) (capability : Capability) : Option GrantEffect :=
  scanGrants subject capability d.grants none

def targetApplies (target : PolicyTarget) (request : Request) : Bool :=
  match target with
  | .node node => decide (node = request.subject)
  | .group parent => d.iteration.isGroupMember parent request.subject
  | .labelSet labels => decide (labels ⊆ request.subjectLabels)
  | .resourceClass .all => true
  | .resourceClass c => decide (c = request.resourceClass)

def applicable (request : Request) : List PolicyEvent :=
  (d.policies.filter fun p => decide (p.capability = request.capability)).filter fun p =>
    d.targetApplies p.target request

/-- The first of the most specific ones among the applicable policies that are met. -/
def mostSpecificSatisfiedPolicy (request : Request) (depth : ℕ) : Option PolicyEvent :=
  ((d.applicable request).filter fun p => decide (p.depthThreshold ≤ depth)).argmin fun p =>
    p.target.specificity

def satisfiesDepthDefault (request : Request) : Bool :=
  match d.iteration.reachableDepth request.subject with
  | none => false
  | some depth => (d.mostSpecificSatisfiedPolicy request depth).isSome

def satisfiesStepUp (request : Request) : Bool :=
  if d.stepUp.requiresStepUp request.capability then
    match request.stepUp with
    | some a => d.stepUp.assertionIsFresh a request.nowSecs
    | none => false
  else true

def decide (request : Request) : Decision :=
  match d.explicitGrant request.subject request.capability with
  | some .deny => .deny
  | some .allow => if d.satisfiesStepUp request then .allow else .deny
  | none =>
    if d.satisfiesDepthDefault request && d.satisfiesStepUp request then .allow else .deny

def explain (request : Request) : Exercised :=
  match d.explicitGrant request.subject request.capability with
  | some .deny => .explicitDeny
  | some .allow => if d.satisfiesStepUp request then .explicitAllow else .stepUpRequired
  | none =>
    match d.iteration.reachableDepth request.subject with
    | none => .denyAll
    | some depth =>
      match d.mostSpecificSatisfiedPolicy request depth with
      | none => .denyAll
      | some p =>
        if d.satisfiesStepUp request then .wotDepthDefault depth p.depthThreshold
        else .stepUpRequired

/-! ## What is allowed -/

variable {subject : NodeId} {capability : Capability}

variable {grants : List ExplicitGrant} {allow : Option GrantEffect}

theorem scanGrants_eq_none_iff :
    scanGrants subject capability grants allow = none ↔
      allow = none ∧ ∀ g ∈ grants, ¬ (g.subject = subject ∧ g.capability = capability) := by
  induction grants generalizing allow with
  | nil => simp [scanGrants]
  | cons g gs ih =>
    rw [scanGrants]
    by_cases hg : g.subject = subject ∧ g.capability = capability
    · cases heffect : g.effect <;> simp [hg, ih]
    · simp only [hg, if_false, ih, List.forall_mem_cons, not_false_eq_true, true_and]

theorem scanGrants_eq_allow
    (hdeny : ∀ g ∈ grants, g.subject = subject → g.capability = capability → g.effect = .allow)
    (h : allow = some .allow ∨ ∃ g ∈ grants, g.subject = subject ∧ g.capability = capability) :
    scanGrants subject capability grants allow = some .allow := by
  induction grants generalizing allow with
  | nil => simpa [scanGrants] using h
  | cons g gs ih =>
    obtain ⟨hg, hgs⟩ := List.forall_mem_cons.1 hdeny
    rw [scanGrants]
    split_ifs with hmatch
    · rw [hg hmatch.1 hmatch.2]
      exact ih hgs (.inl rfl)
    · refine ih hgs (h.imp_right ?_)
      rintro ⟨g', hg', hmatch'⟩
      rcases List.mem_cons.1 hg' with rfl | hg'
      · exact absurd hmatch' hmatch
      · exact ⟨g', hg', hmatch'⟩

theorem scanGrants_eq_deny (h : ⟨subject, capability, .deny⟩ ∈ grants) :
    scanGrants subject capability grants allow = some .deny := by
  induction grants generalizing allow with
  | nil => cases h
  | cons g gs ih =>
    rw [scanGrants]
    rcases List.mem_cons.1 h with rfl | h
    · rw [if_pos ⟨rfl, rfl⟩]
    · split_ifs
      · cases g.effect with
        | deny => rfl
        | allow => exact ih h
      · exact ih h

theorem explicitGrant_eq_none_iff :
    d.explicitGrant subject capability = none ↔
      ∀ g ∈ d.grants, ¬ (g.subject = subject ∧ g.capability = capability) := by
  simp [explicitGrant, scanGrants_eq_none_iff]

variable {request : Request}

theorem mostSpecificSatisfiedPolicy_isSome_iff {depth : ℕ} :
    (d.mostSpecificSatisfiedPolicy request depth).isSome = true ↔
      ∃ p ∈ d.applicable request, p.depthThreshold ≤ depth := by
  rw [← Option.ne_none_iff_isSome, mostSpecificSatisfiedPolicy, Ne, List.argmin_eq_none,
    List.filter_eq_nil_iff]
  simp

theorem satisfiesDepthDefault_iff :
    d.satisfiesDepthDefault request = true ↔
      ∃ depth, d.iteration.reachableDepth request.subject = some depth ∧
        ∃ p ∈ d.applicable request, p.depthThreshold ≤ depth := by
  rw [satisfiesDepthDefault]
  cases d.iteration.reachableDepth request.subject with
  | none => simp
  | some depth => simp [mostSpecificSatisfiedPolicy_isSome_iff]

/-- **What the decider allows.** -/
theorem decide_eq_allow_iff :
    d.decide request = .allow ↔
      (d.explicitGrant request.subject request.capability = some .allow ∨
        d.explicitGrant request.subject request.capability = none ∧
          d.satisfiesDepthDefault request = true) ∧ d.satisfiesStepUp request = true := by
  rw [decide]
  cases d.explicitGrant request.subject request.capability with
  | none => simp
  | some effect => cases effect <;> simp

/-- **The rung that is named is the one that decides.** -/
theorem allows_explain_iff : (d.explain request).allows = true ↔ d.decide request = .allow := by
  rw [explain, decide, satisfiesDepthDefault]
  cases d.explicitGrant request.subject request.capability with
  | some effect =>
    cases effect with
    | deny => simp [Exercised.allows]
    | allow => cases d.satisfiesStepUp request <;> simp [Exercised.allows]
  | none =>
    cases d.iteration.reachableDepth request.subject with
    | none => simp [Exercised.allows]
    | some depth =>
      cases hpolicy : d.mostSpecificSatisfiedPolicy request depth with
      | none => simp [Exercised.allows, hpolicy]
      | some p => cases d.satisfiesStepUp request <;> simp [Exercised.allows, hpolicy]

/-! ## The documented rule -/

/-- Of the smallest rank that occurs among the applicable policies. -/
def MostSpecific (request : Request) (p : PolicyEvent) : Prop :=
  p ∈ d.applicable request ∧
    ∀ q ∈ d.applicable request, p.target.specificity ≤ q.target.specificity

/-- The documented rule: a most specific policy is met. -/
def MeetsMostSpecific (request : Request) : Prop :=
  ∃ depth, d.iteration.reachableDepth request.subject = some depth ∧
    ∃ p, d.MostSpecific request p ∧ p.depthThreshold ≤ depth

/-- The subject is reachable, meets none of the most specific policies, and meets
another one that applies. -/
def Bypasses (request : Request) : Prop :=
  ∃ depth, d.iteration.reachableDepth request.subject = some depth ∧
    (∀ p, d.MostSpecific request p → depth < p.depthThreshold) ∧
    ∃ p ∈ d.applicable request, p.depthThreshold ≤ depth

/-- **The most specific policy and the decision.** -/
theorem most_specific_policy_decides_iff (request : Request)
    (hgrant : ∀ g ∈ d.grants,
      ¬ (g.subject = request.subject ∧ g.capability = request.capability))
    (hstep : d.satisfiesStepUp request = true) :
    (d.decide request = .allow ↔ d.MeetsMostSpecific request) ↔ ¬ d.Bypasses request := by
  have hallow : d.decide request = .allow ↔
      ∃ depth, d.iteration.reachableDepth request.subject = some depth ∧
        ∃ p ∈ d.applicable request, p.depthThreshold ≤ depth := by
    rw [decide_eq_allow_iff, d.explicitGrant_eq_none_iff.2 hgrant, ← satisfiesDepthDefault_iff]
    simp [hstep]
  rw [hallow]
  constructor
  · rintro hiff ⟨depth, hdepth, hunmet, hmet⟩
    obtain ⟨depth', hdepth', p, hp, hle⟩ := hiff.1 ⟨depth, hdepth, hmet⟩
    obtain rfl := Option.some.inj (hdepth.symm.trans hdepth')
    exact absurd hle (Nat.not_le.2 (hunmet p hp))
  · intro hno
    constructor
    · rintro ⟨depth, hdepth, hmet⟩
      by_contra hunmet
      refine hno ⟨depth, hdepth, fun p hp => ?_, hmet⟩
      exact Nat.lt_of_not_le fun hle => hunmet ⟨depth, hdepth, p, hp, hle⟩
    · rintro ⟨depth, hdepth, p, hp, hle⟩
      exact ⟨depth, hdepth, p, hp.1, hle⟩

def aliceTrusted : WotAuthority := (WotAuthority.new "owner" 5).issueEdge "owner" "alice" 1

/-- A policy for alice alone asks for a depth that she does not have, the catch-all for
one that she has. -/
def strictForAlice : RbacDecider :=
  .new aliceTrusted ⟨[⟨"owner", "alice", 1⟩], by decide⟩
    [⟨.node "alice", "compute:schedule", 3⟩, ⟨.resourceClass .all, "compute:schedule", 1⟩] []

/-- The policy for alice asks for a depth that she has, the catch-all for one that she does not
have: her own policy decides. -/
def lenientForAlice : RbacDecider :=
  .new aliceTrusted ⟨[⟨"owner", "alice", 1⟩], by decide⟩
    [⟨.node "alice", "compute:schedule", 1⟩, ⟨.resourceClass .all, "compute:schedule", 3⟩] []

theorem node_policy_decides :
    lenientForAlice.decide (.new "alice" "compute:schedule") = .allow ∧
      lenientForAlice.MeetsMostSpecific (.new "alice" "compute:schedule") := by
  have hallow : lenientForAlice.decide (.new "alice" "compute:schedule") = .allow := by
    decide +kernel
  refine ⟨hallow, ((lenientForAlice.most_specific_policy_decides_iff
    (.new "alice" "compute:schedule") (by decide) (by decide)).2 ?_).1 hallow⟩
  rintro ⟨depth, hdepth, hunmet, -⟩
  have hone : lenientForAlice.iteration.reachableDepth "alice" = some 1 := by decide +kernel
  obtain rfl : 1 = depth := Option.some.inj (hone.symm.trans hdepth)
  refine absurd (hunmet ⟨.node "alice", "compute:schedule", 1⟩ ⟨by decide, ?_⟩) (by decide)
  intro q hq
  have happlicable : lenientForAlice.applicable (.new "alice" "compute:schedule") =
      lenientForAlice.policies := by decide
  rw [happlicable] at hq
  rcases List.mem_pair.1 hq with rfl | rfl
  · exact le_rfl
  · decide

/-- Alice is allowed by the catch-all although her own policy is not met. -/
theorem catch_all_bypasses_node_policy :
    strictForAlice.decide (.new "alice" "compute:schedule") = .allow ∧
      ¬ strictForAlice.MeetsMostSpecific (.new "alice" "compute:schedule") := by
  refine ⟨by decide +kernel, ?_⟩
  rintro ⟨depth, hdepth, p, ⟨hp, hmin⟩, hle⟩
  have hone : strictForAlice.iteration.reachableDepth "alice" = some 1 := by decide +kernel
  have happlicable : strictForAlice.applicable (.new "alice" "compute:schedule") =
      strictForAlice.policies := by decide
  obtain rfl : 1 = depth := Option.some.inj (hone.symm.trans hdepth)
  rw [happlicable] at hp hmin
  -- of the two policies only the one for alice has rank 0
  rcases List.mem_pair.1 hp with rfl | rfl
  · exact absurd hle (by decide)
  · exact absurd (hmin _ List.mem_cons_self) (by decide)

end RbacDecider
end Pillar.Rbac
