import Pillar.KeyDistribution.Consent

/-!
# Root artifacts

Offering and admitting look the artifact of the record up and refuse a root; but an artifact is
looked up by its name, and a name can be registered again, with another kind.

* `roots_kept_iff` — **a run distributes no root exactly when each of its calls spares the admitted
  artifacts.**
-/

namespace Pillar.KeyDistribution

open Std Lib.Runs KeyDistributionLedger

variable {H : Bytes → Bytes} {J : KeyedStore.KeyedCodec} {l : KeyDistributionLedger H J}

def KeyDistributionLedger.isRootArtifact (l : KeyDistributionLedger H J) (artifact : ArtifactId) :
    Bool :=
  match l.artifacts[artifact]? with
  | some a => a.isRoot
  | none => false

def RootsKept (l : KeyDistributionLedger H J) : Prop :=
  ∀ r : RecordKey, l.isRootArtifact r.artifact = true → l.isAdmitted r = false ∧ l.sealOf r = ∅

def SparesAdmitted (l : KeyDistributionLedger H J) (c : Call) : Prop :=
  ∀ a : Artifact, c = .registerArtifact a → a.isRoot = true →
    ∀ r : RecordKey, r.artifact = a.id → l.isAdmitted r = false

theorem rootsKept_iff (h : Sealed l) :
    RootsKept l ↔ ∀ r : RecordKey, l.isRootArtifact r.artifact = true → l.isAdmitted r = false := by
  refine forall₂_congr fun r _ => and_iff_left_of_imp fun hadmitted => ?_
  rw [h r, currentSeal, hadmitted]
  rfl

/-! ## One step -/

theorem isRootArtifact_registerArtifact (l : KeyDistributionLedger H J) (a : Artifact)
    (artifact : ArtifactId) :
    (l.registerArtifact a).isRootArtifact artifact =
      if a.id = artifact then a.isRoot else l.isRootArtifact artifact := by
  by_cases h : a.id = artifact
  · simp [isRootArtifact, registerArtifact, h]
  · simp [isRootArtifact, registerArtifact,
      ExtTreeMap.getElem?_insert, h]

theorem isRootArtifact_step {c : Call} (hc : ∀ a, c ≠ .registerArtifact a) (artifact : ArtifactId) :
    (step l c).isRootArtifact artifact = l.isRootArtifact artifact := by
  have heffect := effect_call l c
  rw [step]
  generalize call l c = outcome at heffect
  cases heffect with
  | registered => exact absurd rfl (hc _)
  | _ => rfl

theorem admitRecord_of_isRootArtifact {r : RecordKey} (h : l.isRootArtifact r.artifact = true) :
    l.admitRecord r = .error (.rootArtifactNotDistributable r.artifact) := by
  rw [isRootArtifact] at h
  rw [admitRecord]
  cases ha : l.artifacts[r.artifact]? with
  | none => simp [ha] at h
  | some a =>
    have hroot : a.isRoot = true := by simpa [ha] using h
    simp [hroot]

theorem isAdmitted_step_of_isRootArtifact {c : Call} {r : RecordKey}
    (hroot : l.isRootArtifact r.artifact = true) (hnew : l.isAdmitted r = false) :
    (step l c).isAdmitted r = false := by
  by_contra hadmitted
  rcases admitted_step (Bool.eq_true_of_not_eq_false hadmitted) with ⟨hold, -⟩ | ⟨rfl, -, -⟩
  · exact Bool.eq_false_iff.1 hnew hold
  · refine hadmitted ?_
    rw [step, call, admitRecord_of_isRootArtifact hroot]
    exact hnew

/-- **One step.** -/
theorem rootsKept_step_iff (hsealed : Sealed l) (h : RootsKept l) (c : Call) :
    RootsKept (step l c) ↔ SparesAdmitted l c := by
  rw [rootsKept_iff (sealed_step c hsealed)]
  by_cases hc : ∃ a, c = .registerArtifact a
  · obtain ⟨a, rfl⟩ := hc
    constructor
    · rintro hkept a' ⟨⟩ hroot r hr
      refine hkept r ?_
      rw [step, call, Outcome.state, isRootArtifact_registerArtifact, if_pos hr.symm, hroot]
    · intro hspares r hroot
      rw [step, call, Outcome.state, isRootArtifact_registerArtifact] at hroot
      split_ifs at hroot with hid
      · exact hspares a rfl hroot r hid.symm
      · exact (h r hroot).1
  · have hother : ∀ a, c ≠ .registerArtifact a := fun a ha => hc ⟨a, ha⟩
    refine iff_of_true (fun r hroot => ?_) fun a ha => absurd ha (hother a)
    rw [isRootArtifact_step hother] at hroot
    exact isAdmitted_step_of_isRootArtifact hroot (h r hroot).1

/-! ## Every run -/

/-- **When roots stay undistributed.** -/
theorem roots_kept_iff (foreignNodes : Finset NodeId) (calls : List Call) :
    Throughout step RootsKept (.new foreignNodes : KeyDistributionLedger H J) calls ↔
      Along step SparesAdmitted (.new foreignNodes : KeyDistributionLedger H J) calls := by
  have hnew : RootsKept (.new foreignNodes : KeyDistributionLedger H J) := by
    intro r hroot
    simp [isRootArtifact, new] at hroot
  exact throughout_iff_along (J := Sealed) (fun l c _ hsealed _ => sealed_step c hsealed)
    (fun l c _ hsealed h => rootsKept_step_iff hsealed h c) (sealed_new foreignNodes) hnew

/-- An operational key goes all the way to a node. -/
def distributed : List Call :=
  [.registerArtifact ⟨offeredRecord.artifact, .operational⟩,
    .addUser offeredRecord.cell offeredRecord.user, .addNodeToAllowlist offeredRecord.cell "n",
    .offer offeredRecord, .accept offeredRecord, .admitRecord offeredRecord]

/-- **A root is distributed.** -/
theorem root_distributed :
    let l := reached offerDigest offerCodec ∅
      (distributed ++ [.registerArtifact ⟨offeredRecord.artifact, .root⟩])
    l.isRootArtifact offeredRecord.artifact = true ∧ l.isAdmitted offeredRecord = true ∧
      l.sealOf offeredRecord = {"n"} ∧ ¬ RootsKept l := by
  intro l
  have hstate : l.isRootArtifact offeredRecord.artifact = true ∧
      l.isAdmitted offeredRecord = true ∧ l.sealOf offeredRecord = {"n"} := by
    decide +kernel
  refine ⟨hstate.1, hstate.2.1, hstate.2.2, fun hkept => ?_⟩
  rw [(hkept offeredRecord hstate.1).1] at hstate
  exact Bool.false_ne_true hstate.2.1

end Pillar.KeyDistribution
