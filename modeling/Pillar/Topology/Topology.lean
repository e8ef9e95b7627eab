import Pillar.Lib.TreeMap
import Pillar.TrustArtifacts.Artifacts

/-!
# Topology labels

`pillar-topology`: nodes are grouped by labels at the tiers of a configured hierarchy.
-/

namespace Pillar

open Std Lib.TreeMap TrustArtifacts

namespace Topology

/-! ## Labels -/

def attestAction : String := "topology:label"

@[ext] structure Label where
  tier : String
  value : String
  deriving DecidableEq

def Label.resource (l : Label) : String := l.tier ++ "=" ++ l.value

/-- A text up to the first separator, and behind it. -/
def splitOnce (sep : Char) (text : String) : Option (String × String) :=
  match text.toList.dropWhile (· ≠ sep) with
  | [] => none
  | _ :: rest => some (String.ofList (text.toList.takeWhile (· ≠ sep)), String.ofList rest)

def Label.fromResource (resource : String) : Option Label :=
  match splitOnce '=' resource with
  | none => none
  | some (tier, value) => if tier.isEmpty || value.isEmpty then none else some ⟨tier, value⟩

theorem append_of_splitOnce {sep : Char} {text a b : String}
    (h : splitOnce sep text = some (a, b)) :
    text = a ++ String.singleton sep ++ b := by
  rw [splitOnce] at h
  split at h
  · cases h
  · rename_i c rest hdrop
    have hc : c = sep := by
      have hhead := List.head?_dropWhile_not (fun x => decide (x ≠ sep)) text.toList
      rw [hdrop] at hhead
      simpa using hhead
    obtain ⟨rfl, rfl⟩ : String.ofList (text.toList.takeWhile (· ≠ sep)) = a ∧
        String.ofList rest = b := by simpa using h
    apply String.toList_inj.1
    conv_lhs => rw [← List.takeWhile_append_dropWhile (p := fun x => decide (x ≠ sep))
      (l := text.toList), hdrop, hc]
    simp

theorem Label.resource_of_fromResource {resource : String} {l : Label}
    (h : Label.fromResource resource = some l) : l.resource = resource := by
  rw [fromResource] at h
  split at h
  · cases h
  · rename_i tier value hsplit
    split at h
    · cases h
    · obtain rfl := Option.some.inj h
      exact (append_of_splitOnce hsplit).symm

/-! ## The hierarchy -/

structure TierHierarchy where
  tiers : List String
  nodup : tiers.Nodup
  ne_nil : tiers ≠ []
  deriving DecidableEq

namespace TierHierarchy

def default : TierHierarchy :=
  ⟨["region", "zone", "site", "room", "cage", "rack", "chassis", "node"], by decide, by decide⟩

def rank (h : TierHierarchy) (tier : String) : Option ℕ := h.tiers.findIdx? (· == tier)

theorem rank_eq_none_iff {h : TierHierarchy}
    {tier : String} : h.rank tier = none ↔ tier ∉ h.tiers := by
  rw [rank, List.findIdx?_eq_none_iff]
  constructor
  · intro hall hmem
    simpa using hall tier hmem
  · rintro hmem x hx
    simpa using fun hxt : x = tier => hmem (hxt ▸ hx)

end TierHierarchy

/-! ## The registry -/

/-- Where the labels of a node come from. -/
inductive Assignment where
  | declared (node : NodeId) (labels : List Label)
  /-- A claim, which is carried along with its address. -/
  | attested (attest : Attest) (cid : Cid)
  deriving DecidableEq

/-- Why an attested label is not recorded. -/
inductive TopologyError where
  | notAttested
  | wrongAction (action : String)
  | malformedLabel (resource : String)
  | unknownTier (tier : String)
  | unverifiedAttestation (cid : Cid)
  deriving DecidableEq

inductive PlacementError where
  | unknownTier (tier : String)
  | insufficientDomains (tier : String) (available requested : ℕ)
  deriving DecidableEq

abbrev Labels := ExtTreeMap String String

end Topology

/-- The labels that were declared and those that were attested, by node. -/
structure Topology where
  hierarchy : Topology.TierHierarchy
  declared : ExtTreeMap NodeId Topology.Labels
  attested : ExtTreeMap NodeId Topology.Labels

namespace Topology

def new (hierarchy : TierHierarchy) : Topology := ⟨hierarchy, ∅, ∅⟩

variable (t : Topology)

def declare (node : NodeId) (labels : List Label) : Topology :=
  { t with
    declared := t.declared.insert node
      (labels.foldl
        (fun m l => if (t.hierarchy.rank l.tier).isSome then m.insert l.tier l.value else m)
        (t.declared.getD node ∅)) }

def record (node : NodeId) (l : Label) : Topology :=
  { t with attested := t.attested.insert node ((t.attested.getD node ∅).insert l.tier l.value) }

/-- Record the label of an assignment if it is attested; a refusal leaves everything as it was. -/
def attest (store : TrustStore) : Assignment → Except TopologyError Topology
  | .declared _ _ => .error .notAttested
  | .attested a cid =>
    if a.predicate.action ≠ attestAction then .error (.wrongAction a.predicate.action)
    else
      match Label.fromResource a.predicate.resource with
      | none => .error (.malformedLabel a.predicate.resource)
      | some l =>
        if (t.hierarchy.rank l.tier).isNone then .error (.unknownTier l.tier)
        else
          match store.verify cid with
          | .error _ => .error (.unverifiedAttestation cid)
          | .ok _ => .ok (t.record a.subject l)

/-! ## Placement -/

def placement (node : NodeId) : Labels :=
  let labels := (t.declared.getD node ∅).toList.foldl (fun m e => m.insert e.1 e.2) ∅
  (t.attested.getD node ∅).toList.foldl (fun m e => m.insert e.1 e.2) labels

def label (tier : String) (node : NodeId) : Option String := (t.placement node)[tier]?

def domainsAt (tier : String) (nodes : List NodeId) : Finset String :=
  if (t.hierarchy.rank tier).isNone then ∅ else (nodes.filterMap (t.label tier)).toFinset

def choose (tier : String) (replicas : ℕ) :
    List NodeId → Finset String → List NodeId → Except PlacementError (List NodeId)
  | [], used, chosen =>
    if chosen.length < replicas then .error (.insufficientDomains tier used.card replicas)
    else .ok chosen
  | n :: candidates, used, chosen =>
    match t.label tier n with
    | none => choose tier replicas candidates used chosen
    | some domain =>
      if domain ∈ used then choose tier replicas candidates used chosen
      else if (chosen ++ [n]).length = replicas then .ok (chosen ++ [n])
      else choose tier replicas candidates (insert domain used) (chosen ++ [n])

def spread (candidates : List NodeId) (replicas : ℕ) (tier : String) :
    Except PlacementError (List NodeId) :=
  if (t.hierarchy.rank tier).isNone then .error (.unknownTier tier)
  else t.choose tier replicas candidates ∅ []

def quorumIsSafe (members : List NodeId) (tier : String) : Bool :=
  if (t.hierarchy.rank tier).isNone then false
  else members.all (fun n => (t.label tier n).isSome) && decide (2 ≤ (t.domainsAt tier members).card)

variable {t}

/-- **What is checked** before a label is recorded. -/
theorem attest_eq_ok_iff {store : TrustStore} {a : Attest} {cid : Cid} {t' : Topology} :
    t.attest store (.attested a cid) = .ok t' ↔
      ∃ l, a.predicate.action = attestAction ∧ Label.fromResource a.predicate.resource = some l ∧
        l.tier ∈ t.hierarchy.tiers ∧ (store.verify cid).isOk = true ∧ t' = t.record a.subject l := by
  rw [attest]
  by_cases haction : a.predicate.action = attestAction
  · rw [if_neg (not_not.2 haction)]
    cases hlabel : Label.fromResource a.predicate.resource with
    | none => simp
    | some l =>
      by_cases htier : l.tier ∈ t.hierarchy.tiers
      · have hrank : (t.hierarchy.rank l.tier).isNone = false := by
          rw [← Bool.not_eq_true, Option.isNone_iff_eq_none, TierHierarchy.rank_eq_none_iff]
          exact not_not.2 htier
        cases hverify : store.verify cid <;>
          simp [haction, htier, hrank, Except.isOk, Except.toBool, eq_comm]
      · simp [TierHierarchy.rank_eq_none_iff.2 htier, htier]
  · simp [haction]

/-- **An attested label comes before a declared one.** -/
theorem label_eq (tier : String) (node : NodeId) :
    t.label tier node = ((t.attested.getD node ∅)[tier]?).or (t.declared.getD node ∅)[tier]? := by
  rw [label, placement, getElem?_foldl_insert_toList, getElem?_foldl_insert_toList]
  simp

end Topology
end Pillar
