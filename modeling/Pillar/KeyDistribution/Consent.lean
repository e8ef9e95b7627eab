import Pillar.KeyDistribution.Seal
import Pillar.KeyedStore.Compaction
import Pillar.Lib.Delimited

/-!
# Consent

An artifact is distributed only with the user's offer and the cell's acceptance.
-/

namespace Pillar.KeyDistribution

open Std Lib.Compare Lib.Delimited Lib.Runs KeyedStore KeyDistributionLedger Call Outcome CellPolicy

variable {H : Bytes → Bytes} {J : KeyedCodec}

/-! ## Offers are known by their text -/

/-- The ledger's clock is ahead of every write of its store. -/
def Stamped (l : KeyDistributionLedger H J) : Prop :=
  l.offered.StampedUpTo ⟨l.offeredClock, 0, ledgerAuthor⟩

def ClockLeft (l : KeyDistributionLedger H J) : Prop := l.offeredClock.toNat + 1 < 2 ^ 64

variable {l : KeyDistributionLedger H J}

theorem ClockLeft.toNat_succ (h : ClockLeft l) :
    (l.offeredClock + 1).toNat = l.offeredClock.toNat + 1 := by
  rw [UInt64.toNat_add]
  exact Nat.mod_eq_of_lt h

theorem ClockLeft.lt_nextHlc (h : ClockLeft l) :
    (⟨l.offeredClock, 0, ledgerAuthor⟩ : Hlc) < l.nextHlc := by
  refine Hlc.lt_of_physical_lt (UInt64.lt_iff_toNat_lt.2 ?_)
  show l.offeredClock.toNat < (l.offeredClock + 1).toNat
  rw [h.toNat_succ]
  exact Nat.lt_succ_self _

section Store

variable (hH : CollisionFree H) (hJ : J.RoundTrips) (hs : Stamped l) (hc : ClockLeft l)
include hH hJ hs hc

theorem stamped_insertOffered (r : RecordKey) : Stamped (l.insertOffered r) :=
  StampedUpTo.kvPut hH hJ hs hc.lt_nextHlc _ _ _

theorem stamped_removeOffered (r : RecordKey) : Stamped (l.removeOffered r) :=
  StampedUpTo.kvDelete hH hJ hs hc.lt_nextHlc _ _

theorem offerPresent_insertOffered (r r' : RecordKey) :
    (l.insertOffered r).offerPresent r' = true ↔ r.text = r'.text ∨ l.offerPresent r' = true := by
  rw [offerPresent, insertOffered,
    kvGet_kvPut hH hJ hs hc.lt_nextHlc]
  split_ifs with htext
  · simp [htext]
  · simp [htext, offerPresent]

theorem offerPresent_removeOffered (r r' : RecordKey) :
    (l.removeOffered r).offerPresent r' = true ↔ r.text ≠ r'.text ∧ l.offerPresent r' = true := by
  rw [offerPresent, removeOffered,
    kvGet_kvDelete hH hJ hs hc.lt_nextHlc]
  split_ifs with htext
  · simp [htext]
  · simp [htext, offerPresent]

end Store

/-- Whether a successful call writes to the store, and what. -/
inductive StoreEffect (l : KeyDistributionLedger H J) (c : Call) : Prop
  | put (r : RecordKey) (hcall : Succeeds (.offer r) l c)
      (hstore : (step l c).offered = (l.insertOffered r).offered)
      (hclock : (step l c).offeredClock = l.offeredClock + 1)
  | delete (r : RecordKey) (hcall : Succeeds (.revokeOffer r) l c)
      (hstore : (step l c).offered = (l.removeOffered r).offered)
      (hclock : (step l c).offeredClock = l.offeredClock + 1)
  | none (hcall : ∀ r, ¬ Succeeds (.offer r) l c ∧ ¬ Succeeds (.revokeOffer r) l c)
      (hstore : (step l c).offered = l.offered)
      (hclock : (step l c).offeredClock = l.offeredClock)

theorem storeEffect (l : KeyDistributionLedger H J) (c : Call) : StoreEffect l c := by
  have heffect := effect_call l c
  generalize houtcome : call l c = outcome at heffect
  have hok : (call l c).isOk = outcome.isOk := by rw [houtcome]
  have hstate : step l c = outcome.state l := by rw [step, houtcome]
  cases heffect with
  | refused =>
    refine .none (fun r => ⟨?_, ?_⟩) (by rw [hstate]; rfl) (by rw [hstate]; rfl)
    · exact fun h => absurd (hok.symm.trans h.2) Bool.false_ne_true
    · exact fun h => absurd (hok.symm.trans h.2) Bool.false_ne_true
  | offered _ _ => exact .put _ ⟨rfl, hok⟩ (by rw [hstate]; rfl) (by rw [hstate]; rfl)
  | revoked _ => exact .delete _ ⟨rfl, hok⟩ (by rw [hstate]; rfl) (by rw [hstate]; rfl)
  | selector hc _ | allowlist hc _ =>
    refine .none (fun r => ⟨?_, ?_⟩) (by rw [hstate]; rfl) (by rw [hstate]; rfl)
    · exact fun h => ne_of_record? hc rfl h.1
    · exact fun h => ne_of_record? hc rfl h.1
  | registered | accepted _ | confirmed _ _ | admitted _ _ _ _ | noCell _ _ _ _ =>
    refine .none (fun r => ⟨?_, ?_⟩) (by rw [hstate]; rfl) (by rw [hstate]; rfl)
    · exact fun h => Call.noConfusion h.1
    · exact fun h => Call.noConfusion h.1

theorem offerPresent_congr {l' : KeyDistributionLedger H J} (h : l'.offered = l.offered)
    (r : RecordKey) : l'.offerPresent r = l.offerPresent r := by
  rw [offerPresent, h, offerPresent]

section Step

variable (hH : CollisionFree H) (hJ : J.RoundTrips) (hs : Stamped l) (hc : ClockLeft l)
include hH hJ hs hc

/-- **Offers go by text.** -/
theorem offerPresent_step_iff (c : Call) (r : RecordKey) :
    (step l c).offerPresent r = true ↔
      (∃ r', Succeeds (.offer r') l c ∧ r'.text = r.text) ∨
        l.offerPresent r = true ∧ ∀ r', Succeeds (.revokeOffer r') l c → r'.text ≠ r.text := by
  cases storeEffect l c with
  | put r' hcall hstore _ =>
    rw [offerPresent_congr hstore, offerPresent_insertOffered hH hJ hs hc]
    obtain ⟨rfl, hok⟩ := hcall
    simp [Succeeds, hok]
  | delete r' hcall hstore _ =>
    rw [offerPresent_congr hstore, offerPresent_removeOffered hH hJ hs hc]
    obtain ⟨rfl, hok⟩ := hcall
    simp [Succeeds, hok, and_comm]
  | none hcall hstore _ =>
    rw [offerPresent_congr hstore]
    simp [hcall]

theorem stamped_step (c : Call) : Stamped (step l c) := by
  cases storeEffect l c with
  | put r _ hstore hclock =>
    rw [Stamped, hstore, hclock]
    exact stamped_insertOffered hH hJ hs hc r
  | delete r _ hstore hclock =>
    rw [Stamped, hstore, hclock]
    exact stamped_removeOffered hH hJ hs hc r
  | none _ hstore hclock =>
    rw [Stamped, hstore, hclock]
    exact hs

omit hH hJ hs in
theorem clock_step (c : Call) : (step l c).offeredClock.toNat ≤ l.offeredClock.toNat + 1 := by
  cases storeEffect l c with
  | put _ _ _ hclock | delete _ _ _ hclock => rw [hclock, hc.toNat_succ]
  | none _ _ hclock =>
    rw [hclock]
    exact Nat.le_succ _

end Step

/-! ## Acceptance and admission -/

theorem accepted_step_iff (l : KeyDistributionLedger H J) (c : Call) (r : RecordKey) :
    (step l c).accepted.contains r = true ↔
      Succeeds (.accept r) l c ∨ l.accepted.contains r = true := by
  have heffect := effect_call l c
  rw [step, Succeeds]
  generalize call l c = outcome at heffect
  cases heffect with
  | selector hc _ =>
    have hne : c ≠ .accept r := ne_of_record? hc rfl
    simp [Outcome.state, KeyDistributionLedger.cellMut, hne]
  | allowlist hc _ =>
    have hne : c ≠ .accept r := ne_of_record? hc rfl
    simp [state, hne]
  | accepted _ => simp [state, isOk, ExtTreeSet.contains_insert]
  | _ => simp [Outcome.state, Outcome.isOk, KeyDistributionLedger.registerArtifact,
      insertOffered, removeOffered]

variable {foreignNodes : Finset NodeId} {calls : List Call} {r : RecordKey}

theorem accepted_iff :
    (reached H J foreignNodes calls).accepted.contains r = true ↔
      Ever step (Succeeds (.accept r)) (.new foreignNodes : KeyDistributionLedger H J) calls :=
  exec_iff_ever (P := fun l : KeyDistributionLedger H J => l.accepted.contains r = true)
    (fun l c => accepted_step_iff l c r) (by simp [KeyDistributionLedger.new]) calls

theorem admitted_step {c : Call} (h : (step l c).admitted.contains r = true) :
    l.admitted.contains r = true ∧ ¬ Succeeds (.revokeOffer r) l c ∨
      c = .admitRecord r ∧ l.offerPresent r = true ∧ l.accepted.contains r = true := by
  have heffect := effect_call l c
  rw [step] at h
  rw [Succeeds]
  generalize call l c = outcome at heffect h
  cases heffect with
  | refused => exact .inl ⟨h, fun hr => Bool.false_ne_true hr.2⟩
  | selector hc _ | allowlist hc _ => exact .inl ⟨h, fun hr => ne_of_record? hc rfl hr.1⟩
  | registered | offered _ _ | accepted _ | confirmed _ _ =>
    exact .inl ⟨h, fun hr => Call.noConfusion hr.1⟩
  | @admitted r' _ hoffer haccepted _ _ | @noCell r' hoffer haccepted _ _ =>
    by_cases hr : r' = r
    · subst hr
      exact .inr ⟨rfl, hoffer, haccepted⟩
    · refine .inl ⟨?_, fun hr => Call.noConfusion hr.1⟩
      simpa [state, hr] using h
  | @revoked r' _ =>
    have hne : r' ≠ r ∧ l.admitted.contains r = true := by
      simpa [state, ExtTreeSet.mem_erase] using h
    exact .inl ⟨hne.2, fun hr => hne.1 (revokeOffer.inj hr.1)⟩

/-! ## The property -/

structure Consented (H : Bytes → Bytes) (J : KeyedCodec) (foreignNodes : Finset NodeId)
    (calls : List Call) : Prop where
  /-- An admitted record was itself offered, and not revoked since. -/
  offered : ∀ r, (reached H J foreignNodes calls).isAdmitted r = true →
    Since step (Succeeds (.offer r)) (Succeeds (.revokeOffer r))
      (.new foreignNodes : KeyDistributionLedger H J) calls
  accepted : ∀ r, (reached H J foreignNodes calls).isAdmitted r = true →
    Ever step (Succeeds (.accept r)) (.new foreignNodes : KeyDistributionLedger H J) calls
  revoked : ∀ r, Since step (Succeeds (.revokeOffer r)) (Succeeds (.offer r))
      (.new foreignNodes : KeyDistributionLedger H J) calls →
    (reached H J foreignNodes calls).isAdmitted r = false ∧
      (reached H J foreignNodes calls).isOffered r = false

def Names (R : Set RecordKey) (calls : List Call) : Prop :=
  ∀ c ∈ calls, ∀ r, c.record? = some r → r ∈ R

/-- What is kept while only records of `R` are named, if their texts differ: the store
has the records of `R` that are offered and not revoked, and what is admitted is among
them. -/
structure Kept (H : Bytes → Bytes) (J : KeyedCodec) (foreignNodes : Finset NodeId)
    (R : Set RecordKey) (calls : List Call) : Prop where
  stamped : Stamped (reached H J foreignNodes calls)
  clock : (reached H J foreignNodes calls).offeredClock.toNat ≤ calls.length
  offered : ∀ r ∈ R, (reached H J foreignNodes calls).offerPresent r = true ↔
    Since step (Succeeds (.offer r)) (Succeeds (.revokeOffer r))
      (.new foreignNodes : KeyDistributionLedger H J) calls
  admitted : ∀ r, (reached H J foreignNodes calls).admitted.contains r = true →
    r ∈ R ∧ (reached H J foreignNodes calls).offerPresent r = true ∧
      (reached H J foreignNodes calls).accepted.contains r = true

theorem kept_nil (foreignNodes : Finset NodeId) (R : Set RecordKey) :
    Kept H J foreignNodes R [] where
  stamped := stampedUpTo_new _
  clock := le_rfl
  offered r _ := by
    simp [reached, KeyDistributionLedger.offerPresent, KeyDistributionLedger.new, not_since_nil]
  admitted r h := by simp [reached, KeyDistributionLedger.new] at h

theorem reached_concat (foreignNodes : Finset NodeId) (calls : List Call) (c : Call) :
    reached H J foreignNodes (calls ++ [c]) = step (reached H J foreignNodes calls) c :=
  exec_concat step _ calls c

variable {R : Set RecordKey}

theorem kept_concat (hH : CollisionFree H) (hJ : J.RoundTrips) (hR : Set.InjOn RecordKey.text R)
    {c : Call} (hlen : calls.length + 1 < 2 ^ 64) (hc : ∀ r, c.record? = some r → r ∈ R)
    (h : Kept H J foreignNodes R calls) : Kept H J foreignNodes R (calls ++ [c]) := by
  have hleft : ClockLeft (reached H J foreignNodes calls) :=
    (Nat.add_le_add_right h.clock 1).trans_lt hlen
  have hpresent := offerPresent_step_iff hH hJ h.stamped hleft c
  -- among the records of `R` a text stands for one record
  have hoffer : ∀ r ∈ R, (∃ r', Succeeds (.offer r') (reached H J foreignNodes calls) c ∧
      r'.text = r.text) ↔ Succeeds (.offer r) (reached H J foreignNodes calls) c := by
    refine fun r hr => ⟨?_, fun h => ⟨r, h, rfl⟩⟩
    rintro ⟨r', hcall, htext⟩
    rwa [← hR (hc r' (hcall.1 ▸ rfl)) hr htext]
  have hrevoke : ∀ r ∈ R, (∀ r', Succeeds (.revokeOffer r') (reached H J foreignNodes calls) c →
      r'.text ≠ r.text) ↔ ¬ Succeeds (.revokeOffer r) (reached H J foreignNodes calls) c := by
    refine fun r hr => ⟨fun h hcall => h r hcall rfl, fun h r' hcall htext => h ?_⟩
    rwa [← hR (hc r' (hcall.1 ▸ rfl)) hr htext]
  constructor
  · rw [reached_concat]
    exact stamped_step hH hJ h.stamped hleft c
  · rw [reached_concat, List.length_append, List.length_singleton]
    exact (clock_step hleft c).trans (Nat.add_le_add_right h.clock 1)
  · intro r hr
    rw [reached_concat, hpresent, since_concat, hoffer r hr, hrevoke r hr, h.offered r hr]
    rfl
  · intro r hadmitted
    rw [reached_concat] at hadmitted ⊢
    rw [hpresent, accepted_step_iff]
    rcases admitted_step hadmitted with ⟨hold, hnot⟩ | ⟨rfl, hoffered, haccepted⟩
    · obtain ⟨hr, hoffered, haccepted⟩ := h.admitted r hold
      exact ⟨hr, .inr ⟨hoffered, (hrevoke r hr).2 hnot⟩, .inr haccepted⟩
    · have hr : r ∈ R := hc r rfl
      exact ⟨hr, .inr ⟨hoffered, (hrevoke r hr).2 fun h => Call.noConfusion h.1⟩, .inr haccepted⟩

theorem kept_of_names (hH : CollisionFree H) (hJ : J.RoundTrips) (foreignNodes : Finset NodeId)
    (hR : Set.InjOn RecordKey.text R) (hlen : calls.length < 2 ^ 64) (hnames : Names R calls) :
    Kept H J foreignNodes R calls := by
  induction calls using List.reverseRecOn with
  | nil => exact kept_nil foreignNodes R
  | append_singleton calls c ih =>
    rw [List.length_append, List.length_singleton] at hlen
    have hprev := ih (by omega) fun c' hc' => hnames c' (List.mem_append_left _ hc')
    exact kept_concat hH hJ hR hlen (hnames c (by simp)) hprev

theorem mem_of_since (hnames : Names R calls) {c : Call} (hc : c.record? = some r)
    {B : KeyDistributionLedger H J → Call → Prop} {s : KeyDistributionLedger H J}
    (h : Since step (Succeeds c) B s calls) : r ∈ R := by
  obtain ⟨p, c', q, rfl, ⟨rfl, -⟩, -⟩ := h
  exact hnames c' (by simp) r hc

theorem Kept.consented (hnames : Names R calls) (h : Kept H J foreignNodes R calls) :
    Consented H J foreignNodes calls where
  offered r hr := (h.offered r (h.admitted r hr).1).1 (h.admitted r hr).2.1
  accepted r hr := accepted_iff.1 (h.admitted r hr).2.2
  revoked r hrevoked := by
    have hmem : r ∈ R := mem_of_since hnames rfl hrevoked
    have hoffer : (reached H J foreignNodes calls).offerPresent r = false := by
      refine Bool.eq_false_iff.2 fun hpresent => ?_
      refine hrevoked.not_since (fun l c hc hc' => ?_) ((h.offered r hmem).1 hpresent)
      exact Call.noConfusion (hc.1.symm.trans hc'.1)
    refine ⟨Bool.eq_false_iff.2 fun hadmitted => ?_, hoffer⟩
    rw [(h.admitted r hadmitted).2.1] at hoffer
    cases hoffer

/-! ## Two records with one text -/

/-- Make everything ready for an offer of the one record and for admitting the other. -/
def setUp (r r' : RecordKey) : List Call :=
  [.registerArtifact ⟨r.artifact, .operational⟩, .registerArtifact ⟨r'.artifact, .operational⟩,
    .addUser r.cell r.user, .cellMut r'.cell]

def swapped (r r' : RecordKey) : List Call := setUp r r' ++ [.offer r, .accept r', .admitRecord r']

/-- A ledger that is ready for both records: nothing is offered, accepted or admitted
yet, the one cell selects the user and the other has no node. -/
structure Ready (l : KeyDistributionLedger H J) (r r' : RecordKey) : Prop where
  artifact : ∃ a, l.artifacts[r.artifact]? = some a ∧ a.isRoot = false
  artifact' : ∃ a, l.artifacts[r'.artifact]? = some a ∧ a.isRoot = false
  cell : ∃ p, l.cells[r.cell]? = some p ∧ p.admits r.user = true
  cell' : ∃ p, l.cells[r'.cell]? = some p ∧ p.nodeAllow = ∅
  offered : l.offered = KeyedStore.new
  clock : l.offeredClock = 0
  accepted : l.accepted = ∅
  admitted : l.admitted = ∅

theorem artifacts_setUp (foreignNodes : Finset NodeId) (r r' : RecordKey) (a : ArtifactId) :
    (reached H J foreignNodes (setUp r r')).artifacts[a]? =
      if r'.artifact = a then some ⟨r'.artifact, .operational⟩
      else if r.artifact = a then some ⟨r.artifact, .operational⟩ else none := by
  have h : (reached H J foreignNodes (setUp r r')).artifacts =
      ((∅ : ExtTreeMap ArtifactId Artifact).insert r.artifact ⟨r.artifact, .operational⟩).insert
        r'.artifact ⟨r'.artifact, .operational⟩ := rfl
  simp [h, ExtTreeMap.getElem?_insert]

theorem cells_setUp (foreignNodes : Finset NodeId) (r r' : RecordKey) (c : CellId) :
    (reached H J foreignNodes (setUp r r')).cells[c]? =
      if r.cell = c then some (new.addUser r.user)
      else if r'.cell = c then some new else none := by
  have h : (reached H J foreignNodes (setUp r r')).cells =
      ((∅ : ExtTreeMap CellId CellPolicy).insert r.cell (new.addUser r.user)).insert
        r'.cell (((∅ : ExtTreeMap CellId CellPolicy).insert r.cell
          (new.addUser r.user)).getD r'.cell .new) := rfl
  rw [h, ExtTreeMap.getElem?_insert]
  by_cases hc : r.cell = c
  · by_cases hc' : r'.cell = c
    · simp [hc, hc']
    · simp [hc, hc']
  · by_cases hc' : r'.cell = c
    · simp [hc, hc', ExtTreeMap.getD_insert]
    · simp [hc, hc']

theorem ready_setUp (foreignNodes : Finset NodeId) (r r' : RecordKey) :
    Ready (reached H J foreignNodes (setUp r r')) r r' where
  artifact := by
    rw [artifacts_setUp]
    by_cases h : r'.artifact = r.artifact
    · exact ⟨_, if_pos h, rfl⟩
    · exact ⟨⟨r.artifact, .operational⟩, by simp [h], rfl⟩
  artifact' := by
    rw [artifacts_setUp]
    exact ⟨_, if_pos rfl, rfl⟩
  cell := by
    rw [cells_setUp]
    exact ⟨_, if_pos rfl, by simp [CellPolicy.admits, CellPolicy.addUser]⟩
  cell' := by
    rw [cells_setUp]
    by_cases h : r.cell = r'.cell
    · exact ⟨_, if_pos h, rfl⟩
    · exact ⟨new, by simp [h], rfl⟩
  offered := rfl
  clock := rfl
  accepted := rfl
  admitted := rfl

theorem isAdmitted_admit {a : Artifact} (ha : l.artifacts[r.artifact]? = some a)
    (hroot : a.isRoot = false) {p : CellPolicy} (hp : l.cells[r.cell]? = some p)
    (hempty : p.nodeAllow = ∅) (hoffer : l.offerPresent r = true)
    (haccepted : l.accepted.contains r = true) (hnew : l.admitted.contains r = false) :
    (step l (.admitRecord r)).isAdmitted r = true := by
  have hcross : l.crossOwner r = false := by
    simp [KeyDistributionLedger.crossOwner, hp, hempty, isCrossOwner]
  rw [step, call, KeyDistributionLedger.admitRecord, ha]
  simp only [hroot, hoffer, haccepted, hnew, hcross, hp]
  exact ExtTreeSet.contains_insert_self

theorem not_consented_of_isAdmitted {r' : RecordKey} (hne : r ≠ r')
    (hadmitted : (reached H J foreignNodes (swapped r r')).isAdmitted r' = true) :
    ¬ Consented H J foreignNodes (swapped r r') := by
  intro h
  obtain ⟨p, c, q, hrun, ⟨rfl, -⟩, -⟩ := h.offered r' hadmitted
  have hmem : offer r' ∈ swapped r r' := by
    rw [hrun]
    simp
  simp [swapped, setUp, Ne.symm hne] at hmem

section Swap

variable (hH : CollisionFree H) (hJ : J.RoundTrips) {r r' : RecordKey} (htext : r.text = r'.text)
include hH hJ htext

theorem admitted_of_ready (h : Ready l r r') :
    (exec step l [.offer r, .accept r', .admitRecord r']).isAdmitted r' = true := by
  have hstamped : Stamped l := by
    rw [Stamped, h.offered]
    exact stampedUpTo_new _
  have hleft : ClockLeft l := by
    rw [ClockLeft, h.clock]
    decide
  have hnone : ∀ r, l.offerPresent r = false := by
    intro r
    rw [offerPresent, h.offered, kvGet_new]
    rfl
  obtain ⟨a, ha, hroot⟩ := h.artifact
  obtain ⟨a', ha', hroot'⟩ := h.artifact'
  obtain ⟨p, hp, hadmits⟩ := h.cell
  obtain ⟨p', hp', hempty⟩ := h.cell'
  have hoffer : step l (.offer r) = l.insertOffered r := by
    simp [step, call, KeyDistributionLedger.offer, ha, hroot, hp, hadmits, hnone, h.admitted,
      Outcome.state]
  -- the store answers for the text, so the other record counts as offered
  have hpresent : (l.insertOffered r).offerPresent r' = true :=
    (offerPresent_insertOffered hH hJ hstamped hleft r r').2 (.inl htext)
  have hnew : (l.insertOffered r).accepted.contains r' = false := by
    simp [KeyDistributionLedger.insertOffered, h.accepted]
  have haccept : step (l.insertOffered r) (.accept r') =
      { l.insertOffered r with accepted := (l.insertOffered r).accepted.insert r' } := by
    simp [step, call, KeyDistributionLedger.accept, hpresent, hnew, Outcome.state]
  rw [exec_cons, exec_cons, exec_cons, exec_nil, hoffer, haccept]
  refine isAdmitted_admit ha' hroot' hp' hempty ?_ ExtTreeSet.contains_insert_self ?_
  · exact (offerPresent_congr rfl r').trans hpresent
  · simp [insertOffered, h.admitted]

theorem not_consented_swapped (hne : r ≠ r') (foreignNodes : Finset NodeId) :
    ¬ Consented H J foreignNodes (swapped r r') := by
  refine not_consented_of_isAdmitted hne ?_
  rw [reached, swapped, exec_append]
  exact admitted_of_ready hH hJ htext (ready_setUp foreignNodes r r')

end Swap

/-- **Consent and texts.** -/
theorem consent_iff_injOn_text (hH : CollisionFree H) (hJ : J.RoundTrips)
    (foreignNodes : Finset NodeId) (R : Set RecordKey) :
    (∀ calls : List Call, calls.length < 2 ^ 64 → Names R calls →
      Consented H J foreignNodes calls) ↔ Set.InjOn RecordKey.text R := by
  constructor
  · intro h r hr r' hr' htext
    by_contra hne
    refine not_consented_swapped hH hJ htext hne foreignNodes (h _ ?_ ?_)
    · exact (by decide : 7 < 2 ^ 64)
    · simp [Names, swapped, setUp, record?, hr, hr']
  · intro hR calls hlen hnames
    exact (kept_of_names hH hJ foreignNodes hR hlen hnames).consented hnames

/-! ## Names without a slash -/

theorem injOn_text_of_no_slash :
    Set.InjOn RecordKey.text {r | '/' ∉ r.user.val.toList ∧ '/' ∉ r.cell.val.toList} := by
  rintro r ⟨huser, hcell⟩ r' ⟨huser', hcell'⟩ htext
  have hchars : r.user.val.toList ++ '/' :: (r.cell.val.toList ++ '/' :: r.artifact.val.toList) =
      r'.user.val.toList ++ '/' :: (r'.cell.val.toList ++ '/' :: r'.artifact.val.toList) := by
    have h := congrArg (fun t : Str => t.val.toList) htext
    simpa [RecordKey.text] using h
  obtain ⟨hu, hrest⟩ := append_sep_inj huser huser' hchars
  obtain ⟨hc, ha⟩ := append_sep_inj hcell hcell' hrest
  exact RecordKey.ext (Str.ext (String.toList_inj.1 hu)) (Str.ext (String.toList_inj.1 hc))
    (Str.ext (String.toList_inj.1 ha))

def plainRecord : RecordKey :=
  ⟨.lit "a", .lit "b", ⟨"d", by decide⟩, by decide⟩

/-- A record without a slash is offered, accepted and admitted with consent. -/
theorem plainRecord_consented :
    (reached (tableDigest []) framedCodec ∅ (swapped plainRecord plainRecord)).isAdmitted
        plainRecord = true ∧
      Consented (tableDigest []) framedCodec ∅ (swapped plainRecord plainRecord) := by
  have hH : CollisionFree (tableDigest []) := tableDigest_collisionFree (by simp) (by simp)
  refine ⟨?_, (consent_iff_injOn_text hH framedCodec_roundTrips ∅ _).2 injOn_text_of_no_slash _ ?_ ?_⟩
  · rw [reached, swapped, exec_append]
    exact admitted_of_ready hH framedCodec_roundTrips rfl (ready_setUp ∅ _ _)
  · exact (by decide : 7 < 2 ^ 64)
  · have hslash : '/' ∉ plainRecord.user.val.toList ∧ '/' ∉ plainRecord.cell.val.toList := by decide
    simpa [Names, swapped, setUp, record?] using hslash

/-! ## One text, two records

The run on two records with the text `a/b/c/d`, with the payload that `serde_json`
writes for the offer and the SHA2-256 digest of it. -/

def offeredRecord : RecordKey :=
  ⟨.lit "a", ⟨"b/c", by decide⟩, ⟨"d", by decide⟩, by decide⟩

def admittedRecord : RecordKey :=
  ⟨⟨"a/b", by decide⟩, .lit "c", ⟨"d", by decide⟩, by decide⟩

def offerOp : KeyedOp :=
  ⟨offersCollection, offeredRecord.text, kvField, ⟨1, 0, ledgerAuthor⟩, .put (.scalar (utf8 "offered"))⟩

def offerPayload : Bytes :=
  utf8 ("\x7b\"collection\":\"key-offers\",\"id\":\"a/b/c/d\",\"field\":\"\"," ++
    "\"hlc\":\x7b\"physical\":1,\"logical\":0,\"author\":\"key-distribution-ledger\"\x7d," ++
    "\"kind\":\x7b\"Put\":\x7b\"Scalar\":[111,102,102,101,114,101,100]\x7d\x7d\x7d")

def offerDigest : Bytes → Bytes :=
  tableDigest [(offerPayload,
    beBytes 32 0x40999d597b0d4f07c37fd92da63732370eb42d02742b9b2c93cd380eb8ef23ae)]

def offerCodec : KeyedCodec where
  encode k := if k = offerOp then offerPayload else []
  decode b := if b = offerPayload then some offerOp else none

/-- **A record is admitted that was never offered.** -/
theorem admitted_without_offer :
    (reached offerDigest offerCodec ∅ (swapped offeredRecord admittedRecord)).isAdmitted
        admittedRecord = true ∧
      Call.offer admittedRecord ∉ swapped offeredRecord admittedRecord ∧
      ¬ Consented offerDigest offerCodec ∅ (swapped offeredRecord admittedRecord) := by
  have hne : offeredRecord ≠ admittedRecord := by decide
  have hadmitted : (reached offerDigest offerCodec ∅
      (swapped offeredRecord admittedRecord)).isAdmitted admittedRecord = true := by
    decide +kernel
  exact ⟨hadmitted, by decide, not_consented_of_isAdmitted hne hadmitted⟩

end Pillar.KeyDistribution
