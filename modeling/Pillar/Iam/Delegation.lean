import Pillar.Iam.Users
import Pillar.Rbac.Decider

/-!
# Delegated administration

`pillar-iam` lets an administrator pass on some capabilities over the users of some groups.

* `delegation_never_exceeds` — **a delegation does not exceed the granter** precisely when nothing
  that it grants is denied to the granter, and what is passed on from it stays within it as long as
  the granters hold only what they have received.
-/

namespace Pillar.Iam

open Rbac
open Std (ExtTreeMap ExtTreeSet)

/-! ## The bridge -/

structure Role where
  name : String
  capabilities : ExtTreeSet String

structure ManagedGroup where
  name : String
  /-- The members; what counts is the record of each. -/
  members : ExtTreeSet String
  roles : ExtTreeSet String

/-- What a decision is made on: users, roles, groups, and grants beside them. -/
structure Directory where
  records : Records
  roles : ExtTreeMap String Role
  groups : ExtTreeMap String ManagedGroup
  extraGrants : List ExplicitGrant

namespace Directory

variable (d : Directory)

def roleNames (record : UserRecord) : ExtTreeSet String :=
  record.groups.toList.foldl (fun names group =>
    match d.groups[group]? with
    | some group => names.insertMany group.roles.toList
    | none => names) record.roles

def effectiveCapabilities (handle : String) : ExtTreeSet String :=
  match d.records[handle]? with
  | none => ∅
  | some record =>
    (d.roleNames record).toList.foldl (fun caps name =>
      match d.roles[name]? with
      | some role => caps.insertMany role.capabilities.toList
      | none => caps) ∅

def roleGroupGrants (handle : String) : List ExplicitGrant :=
  (d.effectiveCapabilities handle).toList.map fun capability => ⟨handle, capability, .allow⟩

def decider {w : WotAuthority} (authority : w.Iteration) (policies : List PolicyEvent)
    (stepUp : StepUpPolicy) (subject : String) : RbacDecider :=
  { RbacDecider.new w authority policies (d.roleGroupGrants subject ++ d.extraGrants) with stepUp }

def request (subject capability : String) (nowSecs : ℕ) (stepUpAssertion : Option StepUpAssertion) :
    Request :=
  { Request.new subject capability with nowSecs, stepUp := stepUpAssertion }

def authorizeEffectiveCapability {w : WotAuthority} (authority : w.Iteration)
    (policies : List PolicyEvent) (stepUp : StepUpPolicy) (subject capability : String)
    (nowSecs : ℕ) (stepUpAssertion : Option StepUpAssertion) : Decision :=
  (d.decider authority policies stepUp subject).decide
    (request subject capability nowSecs stepUpAssertion)

end Directory

/-! ## Delegation -/

/-- Which groups a granter administers. -/
inductive GranterScope where
  | unscoped
  | scoped_ (groups : ExtTreeSet String)

/-- A part of an administrator's authority. -/
structure ScopedGrant where
  granter : String
  subject : String
  capabilities : ExtTreeSet String
  scopeGroups : ExtTreeSet String
  deriving DecidableEq

inductive ScopeGrantError where
  | capabilityExceedsGranter (capability : String)
  | scopeExceedsGranter (group : String)
  | unknownGroup (group : String)
  | emptyRequest
  deriving DecidableEq

def Directory.granterCaps (d : Directory) (granter : String) : ExtTreeSet String :=
  d.extraGrants.foldl (fun caps grant =>
    if grant.subject = granter ∧ grant.effect = .allow then caps.insert grant.capability else caps)
    (d.effectiveCapabilities granter)

def GranterScope.exceeded (scope : GranterScope) (groups : ExtTreeSet String) : Option String :=
  match scope with
  | .unscoped => none
  | .scoped_ granterGroups => groups.toList.find? fun group => !granterGroups.contains group

/-- Capabilities are handed on, over groups, if the granter holds and reaches them. -/
def delegateScopedAdmin (d : Directory) (granter : String) (granterScope : GranterScope)
    (subject : String) (requestedCapabilities requestedScopeGroups : ExtTreeSet String) :
    Except ScopeGrantError ScopedGrant :=
  if requestedCapabilities.isEmpty || requestedScopeGroups.isEmpty then .error .emptyRequest
  else
    match requestedCapabilities.toList.find? fun c => !(d.granterCaps granter).contains c with
    | some capability => .error (.capabilityExceedsGranter capability)
    | none =>
      match requestedScopeGroups.toList.find? fun group => !d.groups.contains group with
      | some group => .error (.unknownGroup group)
      | none =>
        match granterScope.exceeded requestedScopeGroups with
        | some group => .error (.scopeExceedsGranter group)
        | none => .ok ⟨granter, subject, requestedCapabilities, requestedScopeGroups⟩

def isAuthorizedForTarget (grant : ScopedGrant) (records : Records)
    (capability targetHandle : String) : Bool :=
  if grant.capabilities.contains capability then
    match records[targetHandle]? with
    | some target => target.groups.toList.any fun group => grant.scopeGroups.contains group
    | none => false
  else false

/-! ## One delegation -/

def GranterScope.Admits (group : String) : GranterScope → Prop
  | .unscoped => True
  | .scoped_ groups => group ∈ groups

section

variable {d : Directory} {granter subject : String} {scope : GranterScope}
  {capabilities groups : ExtTreeSet String} {g : ScopedGrant}

theorem find_not_contains_eq_none_iff {p : String → Bool} :
    (capabilities.toList.find? fun c => !p c) = none ↔ ∀ c ∈ capabilities, p c = true := by
  simp [List.find?_eq_none, ExtTreeSet.mem_toList]

theorem exceeded_eq_none_iff : scope.exceeded groups = none ↔ ∀ group ∈ groups, scope.Admits group := by
  cases scope with
  | unscoped => simp [GranterScope.exceeded, GranterScope.Admits]
  | scoped_ granterGroups =>
    rw [GranterScope.exceeded, find_not_contains_eq_none_iff]
    simp [GranterScope.Admits]

/-- **What an accepted delegation has been checked for.** -/
theorem delegateScopedAdmin_eq_ok_iff :
    delegateScopedAdmin d granter scope subject capabilities groups = .ok g ↔
      (capabilities.isEmpty = false ∧ groups.isEmpty = false) ∧
        (∀ c ∈ capabilities, c ∈ d.granterCaps granter) ∧
        (∀ group ∈ groups, group ∈ d.groups ∧ scope.Admits group) ∧
        g = ⟨granter, subject, capabilities, groups⟩ := by
  have hcapabilities := @find_not_contains_eq_none_iff capabilities (d.granterCaps granter).contains
  have hgroups := @find_not_contains_eq_none_iff groups d.groups.contains
  have hscope := @exceeded_eq_none_iff scope groups
  simp only [ExtTreeSet.contains_iff_mem, ExtTreeMap.contains_iff_mem] at hcapabilities hgroups
  rw [delegateScopedAdmin, forall₂_and, ← hcapabilities, ← hgroups, ← hscope,
    ← Bool.or_eq_false_iff]
  split_ifs with hempty
  · simp [hempty]
  · rw [Bool.not_eq_true] at hempty
    split
    · rename_i hfind
      simp [hfind]
    · rename_i hfind
      split
      · rename_i hunknown
        simp [hunknown]
      · rename_i hunknown
        split
        · rename_i hexceeded
          simp [hexceeded]
        · rename_i hexceeded
          simp [hempty, hfind, hunknown, hexceeded, eq_comm]

theorem mem_granterCaps {c : String} :
    c ∈ d.granterCaps granter ↔ c ∈ d.effectiveCapabilities granter ∨
      ∃ grant ∈ d.extraGrants, grant.subject = granter ∧ grant.effect = .allow ∧
        grant.capability = c := by
  rw [Directory.granterCaps]
  generalize d.effectiveCapabilities granter = caps
  induction d.extraGrants generalizing caps with
  | nil => simp
  | cons grant grants ih =>
    rw [List.foldl_cons, ih]
    simp only [List.exists_mem_cons_iff]
    split_ifs with hgrant
    · rw [ExtTreeSet.mem_insert, compare_eq_iff_eq]
      simp only [hgrant, true_and]
      rw [or_assoc, or_left_comm]
    · have hother : ¬ (grant.subject = granter ∧ grant.effect = .allow ∧ grant.capability = c) :=
        fun hboth => hgrant ⟨hboth.1, hboth.2.1⟩
      simp [hother]

theorem mem_grants_iff {grant : ExplicitGrant} {handle : String} :
    grant ∈ d.roleGroupGrants handle ↔ grant.subject = handle ∧
      grant.capability ∈ d.effectiveCapabilities handle ∧ grant.effect = .allow := by
  rw [Directory.roleGroupGrants, List.mem_map]
  constructor
  · rintro ⟨c, hc, rfl⟩
    exact ⟨rfl, ExtTreeSet.mem_toList.1 hc, rfl⟩
  · rintro ⟨rfl, hc, heffect⟩
    exact ⟨grant.capability, ExtTreeSet.mem_toList.2 hc, by rw [← heffect]⟩

end

/-- With its step-up satisfied, the handle is allowed the capability, whatever the web of trust and
the policies are. -/
def Directory.Allows (d : Directory) (handle capability : String) : Prop :=
  ∀ (w : WotAuthority) (authority : w.Iteration) (policies : List PolicyEvent)
    (stepUp : StepUpPolicy) (nowSecs : ℕ) (stepUpAssertion : Option StepUpAssertion),
    (d.decider authority policies stepUp handle).satisfiesStepUp
      (Directory.request handle capability nowSecs stepUpAssertion) = true →
    d.authorizeEffectiveCapability authority policies stepUp handle capability nowSecs
      stepUpAssertion = .allow

def Directory.Denies (d : Directory) (handle capability : String) : Prop :=
  (⟨handle, capability, .deny⟩ : ExplicitGrant) ∈ d.extraGrants

section

variable {d : Directory} {granter subject : String} {scope : GranterScope}
  {capabilities groups : ExtTreeSet String} {g g' : ScopedGrant}

/-- **What may be passed on is allowed.** -/
theorem allows_of_mem_granterCaps {c : String} (hc : c ∈ d.granterCaps granter)
    (hdeny : ¬ d.Denies granter c) : d.Allows granter c := by
  intro w authority policies stepUp nowSecs assertion hstepUp
  have hgrant : (d.decider authority policies stepUp granter).explicitGrant granter c =
      some .allow := by
    refine RbacDecider.scanGrants_eq_allow (fun grant hmem hsubject hcapability => ?_) (.inr ?_)
    · rcases List.mem_append.1 hmem with hrole | hextra
      · exact (mem_grants_iff.1 hrole).2.2
      · cases heffect : grant.effect with
        | allow => rfl
        | deny =>
          refine absurd ?_ hdeny
          rw [Directory.Denies, ← hsubject, ← hcapability, ← heffect]
          exact hextra
    · rcases mem_granterCaps.1 hc with heffective | ⟨grant, hmem, hsubject, -, hcapability⟩
      · exact ⟨⟨granter, c, .allow⟩,
          List.mem_append_left _ (mem_grants_iff.2 ⟨rfl, heffective, rfl⟩), rfl, rfl⟩
      · exact ⟨grant, List.mem_append_right _ hmem, hsubject, hcapability⟩
  exact (RbacDecider.decide_eq_allow_iff _).2 ⟨.inl hgrant, hstepUp⟩

/-- **What is denied is not allowed**, whatever else grants it. -/
theorem not_allows_of_denies {c : String} (h : d.Denies granter c) : ¬ d.Allows granter c := by
  intro hallows
  have hstepUp : (d.decider (w := .new granter 1) ⟨[], rfl⟩ [] ⟨∅, 0⟩ granter).satisfiesStepUp
      (Directory.request granter c 0 none) = true := by
    simp [Directory.decider, RbacDecider.satisfiesStepUp, StepUpPolicy.requiresStepUp]
  have hdeny : (d.decider (w := .new granter 1) ⟨[], rfl⟩ [] ⟨∅, 0⟩ granter).explicitGrant granter
      c = some .deny := RbacDecider.scanGrants_eq_deny (List.mem_append_right _ h)
  have hallow := (RbacDecider.decide_eq_allow_iff _).1 (hallows _ _ _ _ _ _ hstepUp)
  simp [Directory.request, Request.new, hdeny] at hallow

/-! ## Chains of delegations -/

def Redelegates (d : Directory) (g g' : ScopedGrant) : Prop :=
  ∃ subject capabilities groups,
    delegateScopedAdmin d g.subject (.scoped_ g.scopeGroups) subject capabilities groups = .ok g'

/-- One who has received a grant over some known group may pass on only what it has received. -/
def HoldsOnly (d : Directory) (g : ScopedGrant) : Prop :=
  (∃ group ∈ g.scopeGroups, group ∈ d.groups) → ∀ c ∈ d.granterCaps g.subject, c ∈ g.capabilities

/-- A chain of delegations, each at its own time, by granters who hold only what they have
received. -/
def Chain : ScopedGrant → ScopedGrant → Prop :=
  Relation.ReflTransGen fun g g' => ∃ d, Redelegates d g g' ∧ HoldsOnly d g

/-- **Everything passed on stays within the grant precisely when its holder holds nothing else.** -/
theorem within_iff_holdsOnly :
    (∀ g', Redelegates d g g' → ∀ c ∈ g'.capabilities, c ∈ g.capabilities) ↔ HoldsOnly d g := by
  constructor
  · rintro hwithin ⟨group, hgroup, hknown⟩ c hc
    -- the capability alone, over the one group
    refine hwithin ⟨g.subject, "", (∅ : ExtTreeSet String).insert c,
      (∅ : ExtTreeSet String).insert group⟩
      ⟨"", (∅ : ExtTreeSet String).insert c, (∅ : ExtTreeSet String).insert group,
        delegateScopedAdmin_eq_ok_iff.2 ?_⟩ c (by simp)
    simp [hc, hgroup, hknown, GranterScope.Admits]
  · rintro hholds g' ⟨subject, capabilities, groups, hok⟩ c hc
    obtain ⟨⟨-, hsome⟩, hcapabilities, hgroups, rfl⟩ := delegateScopedAdmin_eq_ok_iff.1 hok
    obtain ⟨group, hgroup⟩ : ∃ group, group ∈ groups := by
      simpa [ExtTreeSet.eq_empty_iff_forall_not_mem] using hsome
    exact hholds ⟨group, (hgroups group hgroup).2, (hgroups group hgroup).1⟩ c (hcapabilities c hc)

theorem capabilities_of_chain (h : Chain g g') : ∀ c ∈ g'.capabilities, c ∈ g.capabilities := by
  induction h with
  | refl => exact fun c hc => hc
  | tail _ hlast ih =>
    obtain ⟨d, hredelegates, hholds⟩ := hlast
    exact fun c hc => ih c (within_iff_holdsOnly.2 hholds _ hredelegates c hc)

theorem mem_capabilities_of_isAuthorizedForTarget {records : Records} {c target : String}
    (h : isAuthorizedForTarget g records c target = true) : c ∈ g.capabilities := by
  rw [isAuthorizedForTarget] at h
  split_ifs at h with hc
  exact ExtTreeSet.contains_iff_mem.1 hc

/-- **A delegation does not exceed the granter** precisely when nothing that it grants is denied to
the granter. -/
theorem delegation_never_exceeds
    (h : delegateScopedAdmin d granter scope subject capabilities groups = .ok g) :
    ((∀ c ∈ g.capabilities, d.Allows granter c) ↔ ∀ c ∈ g.capabilities, ¬ d.Denies granter c) ∧
      (∀ group ∈ g.scopeGroups, group ∈ d.groups ∧ scope.Admits group) ∧
      (∀ (d : Directory) (g : ScopedGrant), (∀ g', Redelegates d g g' →
        ∀ c ∈ g'.capabilities, c ∈ g.capabilities) ↔ HoldsOnly d g) ∧
      ((∀ c ∈ g.capabilities, ¬ d.Denies granter c) → ∀ g', Chain g g' →
        ∀ (records : Records) (c target : String),
          isAuthorizedForTarget g' records c target = true → d.Allows granter c) := by
  obtain ⟨-, hcapabilities, hgroups, hg⟩ := delegateScopedAdmin_eq_ok_iff.1 h
  subst hg
  have hallows : (∀ c ∈ capabilities, ¬ d.Denies granter c) →
      ∀ c ∈ capabilities, d.Allows granter c :=
    fun hdeny c hc => allows_of_mem_granterCaps (hcapabilities c hc) (hdeny c hc)
  refine ⟨⟨fun hallowed c hc hdenied => not_allows_of_denies hdenied (hallowed c hc), hallows⟩,
    hgroups, fun d g => within_iff_holdsOnly, fun hdeny g' hchain records c target hexercised => ?_⟩
  exact hallows hdeny c (capabilities_of_chain hchain c
    (mem_capabilities_of_isAuthorizedForTarget hexercised))

end

/-! ## Delegations that exceed -/

def only (name : String) : ExtTreeSet String := (∅ : ExtTreeSet String).insert name

def twoRoles : ExtTreeMap String Role :=
  ((∅ : ExtTreeMap String Role).insert "support" ⟨"support", only "iam:users:write"⟩).insert
    "billing" ⟨"billing", only "iam:credentials:manage"⟩

def staff : ExtTreeMap String ManagedGroup :=
  (∅ : ExtTreeMap String ManagedGroup).insert "staff" ⟨"staff", ∅, ∅⟩

def directory (bobsRole : String) (extraGrants : List ExplicitGrant) : Directory where
  records := replay
    [.invite "alice" "Alice" "alice@example.com" true false 1, .roleAssign "alice" "support" 2,
      .invite "bob" "Bob" "bob@example.com" true false 3, .roleAssign "bob" bobsRole 4,
      .invite "dave" "Dave" "dave@example.com" true false 5, .groupAdd "dave" "staff" 6]
  roles := twoRoles
  groups := staff
  extraGrants := extraGrants

def toBob : ScopedGrant := ⟨"alice", "bob", only "iam:users:write", only "staff"⟩

def toCarol (capability : String) : ScopedGrant :=
  ⟨"bob", "carol", only capability, only "staff"⟩

def ownerOnly : (WotAuthority.new "owner" 1).Iteration := ⟨[], rfl⟩

/-- Bob has the same role as alice and passes on what it received: alice is allowed what carol
exercises on dave. -/
theorem carol_within :
    isAuthorizedForTarget (toCarol "iam:users:write") (directory "support" []).records
        "iam:users:write" "dave" = true ∧
      (directory "support" []).Allows "alice" "iam:users:write" := by
  have hchain : Chain toBob (toCarol "iam:users:write") := by
    refine .single ⟨directory "support" [],
      ⟨"carol", only "iam:users:write", only "staff", by decide +kernel⟩, ?_⟩
    have hcaps : ∀ c ∈ ((directory "support" []).granterCaps "bob").toList,
        c ∈ toBob.capabilities := by decide +kernel
    exact fun _ c hc => hcaps c (ExtTreeSet.mem_toList.2 hc)
  have hdelegates : delegateScopedAdmin (directory "support" []) "alice" .unscoped "bob"
      (only "iam:users:write") (only "staff") = .ok toBob := by decide +kernel
  have hexercised : isAuthorizedForTarget (toCarol "iam:users:write")
      (directory "support" []).records "iam:users:write" "dave" = true := by decide +kernel
  refine ⟨hexercised, (delegation_never_exceeds hdelegates).2.2.2 (fun c _ hdenied => ?_) _ hchain _
    _ _ hexercised⟩
  cases hdenied

/-- **Delegations that exceed the granter.** -/
theorem delegation_exceeds :
    (delegateScopedAdmin (directory "support" [⟨"alice", "iam:users:write", .deny⟩]) "alice"
        .unscoped "bob" toBob.capabilities toBob.scopeGroups = .ok toBob ∧
      (directory "support" [⟨"alice", "iam:users:write", .deny⟩]).authorizeEffectiveCapability
        ownerOnly [] ⟨∅, 0⟩ "alice" "iam:users:write" 0 none = .deny) ∧
    delegateScopedAdmin (directory "billing" []) "alice" .unscoped "bob" toBob.capabilities
        toBob.scopeGroups = .ok toBob ∧
      Redelegates (directory "billing" []) toBob (toCarol "iam:credentials:manage") ∧
      isAuthorizedForTarget (toCarol "iam:credentials:manage") (directory "billing" []).records
        "iam:credentials:manage" "dave" = true ∧
      (directory "billing" []).authorizeEffectiveCapability ownerOnly [] ⟨∅, 0⟩ "alice"
        "iam:credentials:manage" 0 none = .deny := by
  refine ⟨⟨by decide +kernel, by decide +kernel⟩, by decide +kernel,
    ⟨"carol", only "iam:credentials:manage", only "staff", by decide +kernel⟩,
    by decide +kernel, by decide +kernel⟩

end Pillar.Iam
