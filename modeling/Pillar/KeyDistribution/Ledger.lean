import Pillar.KeyedStore.Store
import Pillar.Lib.Runs

/-!
# The key-distribution ledger

`pillar-key-distribution`: a user offers an artifact into a cell, the cell accepts it, and admission
seals it to the nodes on the cell's allow-list; to a node of another owner only after a
confirmation.
-/

namespace Pillar.KeyDistribution

open Std KeyedStore

/-! ## Names, artifacts and records -/

/-- A user who may offer artifacts. -/
abbrev UserId := Str

/-- A cell, the layer between users and nodes. -/
abbrev CellId := Str

abbrev ArtifactId := Str

/-- Whether an artifact may be distributed at all. -/
inductive ArtifactKind where
  | root
  | operational
  deriving DecidableEq

structure Artifact where
  id : ArtifactId
  kind : ArtifactKind
  deriving DecidableEq

def Artifact.isRoot (a : Artifact) : Bool := decide (a.kind = .root)

/-- The unit of offer, acceptance and admission. -/
@[ext] structure RecordKey where
  user : UserId
  cell : CellId
  artifact : ArtifactId
  fits : (user.val ++ "/" ++ cell.val ++ "/" ++ artifact.val).utf8ByteSize < 2 ^ 63
  deriving DecidableEq

namespace RecordKey

def text (r : RecordKey) : Str := ⟨r.user.val ++ "/" ++ r.cell.val ++ "/" ++ r.artifact.val, r.fits⟩

instance : Ord RecordKey :=
  ⟨compareLex (compareOn user) (compareLex (compareOn cell) (compareOn artifact))⟩

theorem compare_def (a b : RecordKey) :
    compare a b = (compare a.user b.user).then
      ((compare a.cell b.cell).then (compare a.artifact b.artifact)) := rfl

instance : TransOrd RecordKey :=
  inferInstanceAs (TransCmp
    (compareLex (compareOn user) (compareLex (compareOn cell) (compareOn artifact))))

instance : LawfulEqOrd RecordKey where
  eq_of_compare := by
    intro a b h
    rw [compare_def, Ordering.then_eq_eq, Ordering.then_eq_eq] at h
    exact RecordKey.ext (LawfulEqCmp.eq_of_compare h.1) (LawfulEqCmp.eq_of_compare h.2.1)
      (LawfulEqCmp.eq_of_compare h.2.2)

end RecordKey

/-- Whom a cell selects and which nodes it distributes to. -/
structure CellPolicy where
  userSelector : Finset UserId
  nodeAllow : Finset NodeId
  deriving DecidableEq

namespace CellPolicy

def new : CellPolicy := ⟨∅, ∅⟩

def addUser (p : CellPolicy) (user : UserId) : CellPolicy :=
  { p with userSelector := insert user p.userSelector }

def removeUser (p : CellPolicy) (user : UserId) : CellPolicy :=
  { p with userSelector := p.userSelector.erase user }

def admits (p : CellPolicy) (user : UserId) : Bool := decide (user ∈ p.userSelector)

end CellPolicy

inductive KeyDistributionError where
  | unknownCell (cell : CellId)
  | unknownArtifact (artifact : ArtifactId)
  | rootArtifactNotDistributable (artifact : ArtifactId)
  | userNotSelected (user : UserId) (cell : CellId)
  | invalidTransition (record : RecordKey) (reason : String)
  deriving DecidableEq

/-! ## Seals -/

def isCrossOwner (nodeAllow foreignNodes : Finset NodeId) : Bool :=
  decide (∃ n ∈ nodeAllow, n ∈ foreignNodes)

/-- The nodes a record is entitled to: the whole allow-list once it is confirmed or if
it needs no confirmation, and without the foreign nodes otherwise. -/
def desiredSeal (nodeAllow foreignNodes : Finset NodeId) (confirmed : Bool) : Finset NodeId :=
  if confirmed || !isCrossOwner nodeAllow foreignNodes then nodeAllow
  else nodeAllow \ foreignNodes

variable {nodeAllow foreignNodes : Finset NodeId}

@[simp] theorem desiredSeal_true : desiredSeal nodeAllow foreignNodes true = nodeAllow := by
  simp [desiredSeal]

@[simp] theorem desiredSeal_empty {confirmed : Bool} :
    desiredSeal ∅ foreignNodes confirmed = ∅ := by
  simp [desiredSeal]

theorem desiredSeal_subset {confirmed : Bool} :
    desiredSeal nodeAllow foreignNodes confirmed ⊆ nodeAllow := by
  rw [desiredSeal]
  split_ifs
  · exact subset_rfl
  · exact Finset.sdiff_subset

theorem desiredSeal_false_disjoint :
    Disjoint (desiredSeal nodeAllow foreignNodes false) foreignNodes := by
  rw [desiredSeal]
  split_ifs with h
  · have hnone : ¬ ∃ n ∈ nodeAllow, n ∈ foreignNodes := by simpa [isCrossOwner] using h
    exact Finset.disjoint_left.2 fun n hn hf => hnone ⟨n, hn, hf⟩
  · exact Finset.sdiff_disjoint

/-! ## The ledger -/

def offersCollection : Str := ⟨"key-offers", by decide⟩

def ledgerAuthor : Str := ⟨"key-distribution-ledger", by decide⟩

/-- Where each record stands: offered, accepted, admitted, confirmed. -/
structure KeyDistributionLedger (H : Bytes → Bytes) (J : KeyedCodec) where
  cells : ExtTreeMap CellId CellPolicy
  artifacts : ExtTreeMap ArtifactId Artifact
  /-- The nodes of other owners, fixed once and for all. -/
  foreignNodes : Finset NodeId
  offered : KeyedStore H J
  offeredClock : UInt64
  accepted : ExtTreeSet RecordKey
  admitted : ExtTreeSet RecordKey
  crossConfirmed : ExtTreeSet RecordKey
  sealedTo : ExtTreeMap RecordKey (Finset NodeId)

inductive Outcome (H : Bytes → Bytes) (J : KeyedCodec) where
  | ok (after : KeyDistributionLedger H J)
  | error (e : KeyDistributionError)
  | panicked (left : KeyDistributionLedger H J)

namespace KeyDistributionLedger

variable {H : Bytes → Bytes} {J : KeyedCodec}

def new (foreignNodes : Finset NodeId) : KeyDistributionLedger H J where
  cells := ∅
  artifacts := ∅
  foreignNodes := foreignNodes
  offered := KeyedStore.new
  offeredClock := 0
  accepted := ∅
  admitted := ∅
  crossConfirmed := ∅
  sealedTo := ∅

variable (l : KeyDistributionLedger H J)

/-- The policy of a cell, which is made if it is missing; what is then done to it is the
caller's. -/
def cellMut (cell : CellId) (change : CellPolicy → CellPolicy) : KeyDistributionLedger H J :=
  { l with cells := l.cells.insert cell (change (l.cells.getD cell .new)) }

def registerArtifact (artifact : Artifact) : KeyDistributionLedger H J :=
  { l with artifacts := l.artifacts.insert artifact.id artifact }

/-! ### Offers as keys -/

def offerPresent (r : RecordKey) : Bool := (l.offered.kvGet offersCollection r.text).isSome

def nextHlc : Hlc := ⟨l.offeredClock + 1, 0, ledgerAuthor⟩

def insertOffered (r : RecordKey) : KeyDistributionLedger H J :=
  { l with
    offered := (l.offered.kvPut offersCollection r.text (utf8 "offered") l.nextHlc).1
    offeredClock := l.offeredClock + 1 }

def removeOffered (r : RecordKey) : KeyDistributionLedger H J :=
  { l with
    offered := (l.offered.kvDelete offersCollection r.text l.nextHlc).1
    offeredClock := l.offeredClock + 1 }

/-! ### Allow-lists -/

def resealAdmittedRecordsOf (cell : CellId) (allow : Finset NodeId) :
    ExtTreeMap RecordKey (Finset NodeId) :=
  (l.admitted.toList.filter fun r => decide (r.cell = cell)).foldl
    (fun seals r => seals.insert r (desiredSeal allow l.foreignNodes (l.crossConfirmed.contains r)))
    l.sealedTo

/-- Change the allow-list of a cell and seal its records anew. -/
def editAllowlist (cell : CellId) (edit : Finset NodeId → Finset NodeId) : Outcome H J :=
  match l.cells[cell]? with
  | none => .error (.unknownCell cell)
  | some policy =>
    .ok { l with
      cells := l.cells.insert cell { policy with nodeAllow := edit policy.nodeAllow }
      sealedTo := l.resealAdmittedRecordsOf cell (edit policy.nodeAllow) }

def addNodeToAllowlist (cell : CellId) (node : NodeId) : Outcome H J :=
  l.editAllowlist cell (insert node)

def removeNodeFromAllowlist (cell : CellId) (node : NodeId) : Outcome H J :=
  l.editAllowlist cell fun allow => allow.erase node

/-! ### Records -/

def offer (r : RecordKey) : Outcome H J :=
  match l.artifacts[r.artifact]? with
  | none => .error (.unknownArtifact r.artifact)
  | some a =>
    if a.isRoot then .error (.rootArtifactNotDistributable r.artifact)
    else
      match l.cells[r.cell]? with
      | none => .error (.unknownCell r.cell)
      | some policy =>
        if !policy.admits r.user then .error (.userNotSelected r.user r.cell)
        else if l.offerPresent r || l.admitted.contains r then
          .error (.invalidTransition r "already offered or already admitted")
        else .ok (l.insertOffered r)

def accept (r : RecordKey) : Outcome H J :=
  if !l.offerPresent r then .error (.invalidTransition r "not offered")
  else if l.accepted.contains r then .error (.invalidTransition r "already accepted")
  else .ok { l with accepted := l.accepted.insert r }

def crossOwner (r : RecordKey) : Bool :=
  match l.cells[r.cell]? with
  | some policy => isCrossOwner policy.nodeAllow l.foreignNodes
  | none => false

def confirmCrossOwner (r : RecordKey) : Outcome H J :=
  if !l.offerPresent r then .error (.invalidTransition r "not offered")
  else if !l.crossOwner r then .error (.invalidTransition r "not cross-owner")
  else if l.crossConfirmed.contains r then .error (.invalidTransition r "already confirmed")
  else if l.admitted.contains r then
    match l.cells[r.cell]? with
    | none => .panicked { l with crossConfirmed := l.crossConfirmed.insert r }
    | some policy =>
      .ok { l with
        crossConfirmed := l.crossConfirmed.insert r
        sealedTo := l.sealedTo.insert r policy.nodeAllow }
  else .ok { l with crossConfirmed := l.crossConfirmed.insert r }

/-- An accepted offer is admitted, across owners only when confirmed. -/
def admitRecord (r : RecordKey) : Outcome H J :=
  match l.artifacts[r.artifact]? with
  | none => .error (.unknownArtifact r.artifact)
  | some a =>
    if a.isRoot then .error (.rootArtifactNotDistributable r.artifact)
    else if !l.offerPresent r then .error (.invalidTransition r "not offered")
    else if !l.accepted.contains r then .error (.invalidTransition r "not accepted")
    else if l.admitted.contains r then .error (.invalidTransition r "already admitted")
    else if l.crossOwner r && !l.crossConfirmed.contains r then
      .error (.invalidTransition r "cross-owner offer requires ConfirmCrossOwner before Admit")
    else
      -- the cell is looked up by an index that panics if it is missing
      match l.cells[r.cell]? with
      | none => .panicked { l with admitted := l.admitted.insert r }
      | some policy =>
        .ok { l with
          admitted := l.admitted.insert r
          sealedTo := l.sealedTo.insert r
            (desiredSeal policy.nodeAllow l.foreignNodes (l.crossConfirmed.contains r)) }

def revokeOffer (r : RecordKey) : Outcome H J :=
  if !l.offerPresent r then .error (.invalidTransition r "not offered")
  else
    .ok { l.removeOffered r with
      admitted := l.admitted.erase r
      sealedTo := l.sealedTo.insert r ∅ }

/-! ### Queries -/

def sealOf (r : RecordKey) : Finset NodeId := l.sealedTo.getD r ∅

def isAdmitted (r : RecordKey) : Bool := l.admitted.contains r

def isOffered (r : RecordKey) : Bool := l.offerPresent r

end KeyDistributionLedger

/-! ## Calls -/

inductive Call where
  | cellMut (cell : CellId)
  | addUser (cell : CellId) (user : UserId)
  | removeUser (cell : CellId) (user : UserId)
  | registerArtifact (artifact : Artifact)
  | addNodeToAllowlist (cell : CellId) (node : NodeId)
  | removeNodeFromAllowlist (cell : CellId) (node : NodeId)
  | offer (r : RecordKey)
  | accept (r : RecordKey)
  | confirmCrossOwner (r : RecordKey)
  | admitRecord (r : RecordKey)
  | revokeOffer (r : RecordKey)
  deriving DecidableEq

variable {H : Bytes → Bytes} {J : KeyedCodec}

def call (l : KeyDistributionLedger H J) : Call → Outcome H J
  | .cellMut cell => .ok (l.cellMut cell id)
  | .addUser cell user => .ok (l.cellMut cell fun p => p.addUser user)
  | .removeUser cell user => .ok (l.cellMut cell fun p => p.removeUser user)
  | .registerArtifact artifact => .ok (l.registerArtifact artifact)
  | .addNodeToAllowlist cell node => l.addNodeToAllowlist cell node
  | .removeNodeFromAllowlist cell node => l.removeNodeFromAllowlist cell node
  | .offer r => l.offer r
  | .accept r => l.accept r
  | .confirmCrossOwner r => l.confirmCrossOwner r
  | .admitRecord r => l.admitRecord r
  | .revokeOffer r => l.revokeOffer r

/-- The ledger that an operation leaves behind. -/
def Outcome.state (before : KeyDistributionLedger H J) : Outcome H J → KeyDistributionLedger H J
  | .ok after => after
  | .error _ => before
  | .panicked left => left

def Outcome.isOk : Outcome H J → Bool
  | .ok _ => true
  | .error _ | .panicked _ => false

def step (l : KeyDistributionLedger H J) (c : Call) : KeyDistributionLedger H J :=
  (call l c).state l

def Succeeds (c : Call) (l : KeyDistributionLedger H J) (c' : Call) : Prop :=
  c' = c ∧ (call l c').isOk = true

def Call.record? : Call → Option RecordKey
  | .offer r | .accept r | .confirmCrossOwner r | .admitRecord r | .revokeOffer r => some r
  | _ => none

theorem Call.ne_of_record? {c c' : Call} {r : RecordKey} (hc : c.record? = none)
    (hc' : c'.record? = some r) : c ≠ c' := by
  rintro rfl
  rw [hc] at hc'
  cases hc'

/-! ## What a call can do -/

inductive Effect (l : KeyDistributionLedger H J) : Call → Outcome H J → Prop
  | refused {c : Call} {e : KeyDistributionError} : Effect l c (.error e)
  | selector {c : Call} {cell : CellId} {change : CellPolicy → CellPolicy} (hc : c.record? = none)
      (hchange : ∀ p, (change p).nodeAllow = p.nodeAllow) : Effect l c (.ok (l.cellMut cell change))
  | registered {a : Artifact} : Effect l (.registerArtifact a) (.ok (l.registerArtifact a))
  /-- An allow-list is changed, and its cell's records are sealed anew. -/
  | allowlist {c : Call} {cell : CellId} {policy : CellPolicy}
      {edit : Finset NodeId → Finset NodeId} (hc : c.record? = none)
      (hcell : l.cells[cell]? = some policy) :
      Effect l c (.ok { l with
        cells := l.cells.insert cell { policy with nodeAllow := edit policy.nodeAllow }
        sealedTo := l.resealAdmittedRecordsOf cell (edit policy.nodeAllow) })
  | offered {r : RecordKey} (hfresh : l.offerPresent r = false)
      (hnew : l.admitted.contains r = false) : Effect l (.offer r) (.ok (l.insertOffered r))
  | accepted {r : RecordKey} (hoffer : l.offerPresent r = true) :
      Effect l (.accept r) (.ok { l with accepted := l.accepted.insert r })
  /-- A confirmation; an admitted record is sealed to the whole allow-list. -/
  | confirmed {r : RecordKey} {policy : CellPolicy} (hoffer : l.offerPresent r = true)
      (hcell : l.cells[r.cell]? = some policy) :
      Effect l (.confirmCrossOwner r) (.ok { l with
        crossConfirmed := l.crossConfirmed.insert r
        sealedTo := if l.admitted.contains r then l.sealedTo.insert r policy.nodeAllow
          else l.sealedTo })
  | admitted {r : RecordKey} {policy : CellPolicy} (hoffer : l.offerPresent r = true)
      (haccepted : l.accepted.contains r = true) (hnew : l.admitted.contains r = false)
      (hcell : l.cells[r.cell]? = some policy) :
      Effect l (.admitRecord r) (.ok { l with
        admitted := l.admitted.insert r
        sealedTo := l.sealedTo.insert r
          (desiredSeal policy.nodeAllow l.foreignNodes (l.crossConfirmed.contains r)) })
  | noCell {r : RecordKey} (hoffer : l.offerPresent r = true)
      (haccepted : l.accepted.contains r = true) (hnew : l.admitted.contains r = false)
      (hcell : l.cells[r.cell]? = none) :
      Effect l (.admitRecord r) (.panicked { l with admitted := l.admitted.insert r })
  | revoked {r : RecordKey} (hoffer : l.offerPresent r = true) :
      Effect l (.revokeOffer r) (.ok { l.removeOffered r with
        admitted := l.admitted.erase r
        sealedTo := l.sealedTo.insert r ∅ })

variable (l : KeyDistributionLedger H J)

theorem effect_editAllowlist (c : Call) (hc : c.record? = none) (cell : CellId)
    (edit : Finset NodeId → Finset NodeId) : Effect l c (l.editAllowlist cell edit) := by
  rw [KeyDistributionLedger.editAllowlist]
  split
  · exact .refused
  · exact .allowlist hc ‹_›

theorem effect_offer (r : RecordKey) : Effect l (.offer r) (l.offer r) := by
  rw [KeyDistributionLedger.offer]
  split
  · exact .refused
  · split
    · exact .refused
    · split
      · exact .refused
      · split
        · exact .refused
        · split
          · exact .refused
          · rename_i hused
            obtain ⟨hfresh, hnew⟩ := Bool.or_eq_false_iff.1 (Bool.eq_false_iff.2 hused)
            exact .offered hfresh hnew

theorem effect_accept (r : RecordKey) : Effect l (.accept r) (l.accept r) := by
  rw [KeyDistributionLedger.accept]
  split_ifs with hoffer
  · exact .refused
  · exact .refused
  · exact .accepted (by simpa using hoffer)

theorem exists_cell_of_crossOwner {r : RecordKey} (h : l.crossOwner r = true) :
    ∃ policy, l.cells[r.cell]? = some policy := by
  rw [KeyDistributionLedger.crossOwner] at h
  cases hcell : l.cells[r.cell]? with
  | none => simp [hcell] at h
  | some policy => exact ⟨policy, rfl⟩

theorem effect_confirmCrossOwner (r : RecordKey) :
    Effect l (.confirmCrossOwner r) (l.confirmCrossOwner r) := by
  rw [KeyDistributionLedger.confirmCrossOwner]
  split
  · exact .refused
  · rename_i hoffer
    split
    · exact .refused
    · rename_i hcross
      split
      · exact .refused
      · obtain ⟨policy, hcell⟩ := exists_cell_of_crossOwner l (by simpa using hcross)
        have heffect := Effect.confirmed (by simpa using hoffer) hcell
        by_cases hadmitted : l.admitted.contains r = true
        · simpa only [hadmitted, hcell, if_true] using heffect
        · simpa [hadmitted] using heffect

theorem effect_admitRecord (r : RecordKey) : Effect l (.admitRecord r) (l.admitRecord r) := by
  rw [KeyDistributionLedger.admitRecord]
  split
  · exact .refused
  · split_ifs with _ hoffer haccepted hadmitted hconfirm
    · exact .refused
    · exact .refused
    · exact .refused
    · exact .refused
    · exact .refused
    · have hoffer : l.offerPresent r = true := by simpa using hoffer
      have haccepted : l.accepted.contains r = true := by simpa using haccepted
      have hnew : l.admitted.contains r = false := Bool.eq_false_iff.2 hadmitted
      split
      · exact .noCell hoffer haccepted hnew ‹_›
      · exact .admitted hoffer haccepted hnew ‹_›

theorem effect_revokeOffer (r : RecordKey) : Effect l (.revokeOffer r) (l.revokeOffer r) := by
  rw [KeyDistributionLedger.revokeOffer]
  split_ifs with hoffer
  · exact .refused
  · exact .revoked (by simpa using hoffer)

theorem effect_call (c : Call) : Effect l c (call l c) := by
  cases c with
  | cellMut cell | addUser cell user | removeUser cell user => exact .selector rfl fun _ => rfl
  | registerArtifact artifact => exact .registered
  | addNodeToAllowlist cell node => exact effect_editAllowlist l _ rfl cell _
  | removeNodeFromAllowlist cell node =>
    exact effect_editAllowlist l _ rfl cell fun allow => allow.erase node
  | offer r => exact effect_offer l r
  | accept r => exact effect_accept l r
  | confirmCrossOwner r => exact effect_confirmCrossOwner l r
  | admitRecord r => exact effect_admitRecord l r
  | revokeOffer r => exact effect_revokeOffer l r

end Pillar.KeyDistribution
