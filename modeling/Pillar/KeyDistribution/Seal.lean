import Pillar.KeyDistribution.Ledger

/-!
# Seals

The seal of a record is a cached value: the allow-list of its cell, without the foreign nodes as
long as it is not confirmed.
-/

namespace Pillar.KeyDistribution

open Std Lib.Runs Lib.TreeMap KeyDistributionLedger

variable {H : Bytes → Bytes} {J : KeyedStore.KeyedCodec}

def KeyDistributionLedger.allowOf (l : KeyDistributionLedger H J) (cell : CellId) : Finset NodeId :=
  match l.cells[cell]? with
  | some policy => policy.nodeAllow
  | none => ∅

def KeyDistributionLedger.currentSeal (l : KeyDistributionLedger H J) (r : RecordKey) :
    Finset NodeId :=
  if l.isAdmitted r then desiredSeal (l.allowOf r.cell) l.foreignNodes (l.crossConfirmed.contains r)
  else ∅

def Sealed (l : KeyDistributionLedger H J) : Prop := ∀ r, l.sealOf r = l.currentSeal r

variable {l : KeyDistributionLedger H J}

theorem sealed_new (foreignNodes : Finset NodeId) :
    Sealed (new foreignNodes : KeyDistributionLedger H J) := by
  intro r
  simp [sealOf, currentSeal,
    isAdmitted, new]

/-! ## One case for each effect -/

theorem allowOf_insert (l : KeyDistributionLedger H J) (cell c : CellId) (policy : CellPolicy) :
    ({ l with cells := l.cells.insert cell policy } : KeyDistributionLedger H J).allowOf c =
      if cell = c then policy.nodeAllow else l.allowOf c := by
  by_cases h : cell = c
  · simp [allowOf, h]
  · simp [allowOf, ExtTreeMap.getElem?_insert, h]

variable {change : CellPolicy → CellPolicy} {cell : CellId}

theorem allowOf_cellMut {c : CellId}
    (hchange : ∀ p, (change p).nodeAllow = p.nodeAllow) :
    (l.cellMut cell change).allowOf c = l.allowOf c := by
  rw [cellMut, allowOf_insert]
  split_ifs with h
  · subst h
    rw [hchange, allowOf, ExtTreeMap.getD_eq_getD_getElem?]
    cases l.cells[cell]? <;> rfl
  · rfl

theorem sealed_selector (hchange : ∀ p, (change p).nodeAllow = p.nodeAllow) (h : Sealed l) :
    Sealed (l.cellMut cell change) := by
  intro r
  rw [currentSeal, allowOf_cellMut hchange]
  exact h r

variable {policy : CellPolicy}

theorem sealed_allowlist {allow : Finset NodeId} (h : Sealed l) :
    Sealed { l with
      cells := l.cells.insert cell { policy with nodeAllow := allow }
      sealedTo := l.resealAdmittedRecordsOf cell allow } := by
  intro r
  have hr := h r
  have hloop : r ∈ l.admitted.toList.filter (fun r => decide (r.cell = cell)) ↔
      l.admitted.contains r = true ∧ r.cell = cell := by
    simp
  have hcurrent := congrArg
    (fun allowed => if l.isAdmitted r then
      desiredSeal allowed l.foreignNodes (l.crossConfirmed.contains r) else ∅)
    (allowOf_insert l cell r.cell { policy with nodeAllow := allow })
  rw [sealOf, resealAdmittedRecordsOf,
    getD_foldl_insert]
  rw [sealOf, currentSeal] at hr
  refine Eq.trans ?_ hcurrent.symm
  -- an admitted record of the cell is in the loop, any other keeps its seal and allow-list
  by_cases hcell : r.cell = cell
  · by_cases hadmitted : l.admitted.contains r = true
    · rw [if_pos (hloop.2 ⟨hadmitted, hcell⟩), if_pos hcell.symm]
      exact (if_pos hadmitted).symm
    · rw [if_neg fun hmem => hadmitted (hloop.1 hmem).1, hr]
      exact (if_neg hadmitted).trans (if_neg hadmitted).symm
  · rw [if_neg fun hmem => hcell (hloop.1 hmem).2, if_neg (Ne.symm hcell), hr]

theorem sealed_of_record {l' : KeyDistributionLedger H J} (h : Sealed l) (r : RecordKey)
    (hcells : l'.cells = l.cells) (hforeign : l'.foreignNodes = l.foreignNodes)
    (hother : ∀ r', r ≠ r' → l'.sealOf r' = l.sealOf r' ∧ l'.isAdmitted r' = l.isAdmitted r' ∧
      l'.crossConfirmed.contains r' = l.crossConfirmed.contains r')
    (hr : l'.sealOf r = l'.currentSeal r) : Sealed l' := by
  intro r'
  by_cases hne : r = r'
  · exact hne ▸ hr
  · obtain ⟨hseal, hadmitted, hconfirmed⟩ := hother r' hne
    have hallow : l'.allowOf r'.cell = l.allowOf r'.cell := by
      rw [allowOf, allowOf, hcells]
    rw [hseal, h r', currentSeal, currentSeal,
      hadmitted, hconfirmed, hforeign, hallow]

variable {r : RecordKey}

theorem sealed_confirmed (hcell : l.cells[r.cell]? = some policy) (h : Sealed l) :
    Sealed { l with
      crossConfirmed := l.crossConfirmed.insert r
      sealedTo := if l.admitted.contains r then l.sealedTo.insert r policy.nodeAllow
        else l.sealedTo } := by
  refine sealed_of_record h r rfl rfl (fun r' hne => ⟨?_, rfl, ?_⟩) ?_
  · by_cases hadmitted : l.admitted.contains r = true
    · simp [sealOf, hadmitted, ExtTreeMap.getD_insert, hne]
    · simp [sealOf, hadmitted]
  · simp [ExtTreeSet.contains_insert, hne]
  · have hr := h r
    by_cases hadmitted : l.admitted.contains r = true
    · simp [sealOf, currentSeal,
        isAdmitted, allowOf, hadmitted, hcell]
    · simpa [sealOf, currentSeal,
        isAdmitted, hadmitted] using hr

theorem sealed_admitted (hcell : l.cells[r.cell]? = some policy) (h : Sealed l) :
    Sealed { l with
      admitted := l.admitted.insert r
      sealedTo := l.sealedTo.insert r
        (desiredSeal policy.nodeAllow l.foreignNodes (l.crossConfirmed.contains r)) } := by
  refine sealed_of_record h r rfl rfl (fun r' hne => ⟨?_, ?_, rfl⟩) ?_
  · simp [sealOf, ExtTreeMap.getD_insert, hne]
  · simp [isAdmitted, ExtTreeSet.contains_insert, hne]
  · simp [sealOf, currentSeal,
      isAdmitted, allowOf, hcell]

theorem sealed_noCell (hcell : l.cells[r.cell]? = none) (hnew : l.admitted.contains r = false)
    (h : Sealed l) : Sealed { l with admitted := l.admitted.insert r } := by
  refine sealed_of_record h r rfl rfl (fun r' hne => ⟨rfl, ?_, rfl⟩) ?_
  · simp [isAdmitted, ExtTreeSet.contains_insert, hne]
  · have hr := h r
    simp only [currentSeal, isAdmitted, hnew] at hr
    simpa [sealOf, currentSeal,
      isAdmitted, allowOf, hcell] using hr

theorem sealed_revoked (h : Sealed l) :
    Sealed { l.removeOffered r with
      admitted := l.admitted.erase r
      sealedTo := l.sealedTo.insert r ∅ } := by
  refine sealed_of_record h r rfl rfl (fun r' hne => ⟨?_, ?_, rfl⟩) ?_
  · simp [sealOf, ExtTreeMap.getD_insert, hne]
  · simp [isAdmitted, ExtTreeSet.contains_erase, hne]
  · simp [sealOf, currentSeal,
      isAdmitted]

/-! ## Allow-lists and seals -/

theorem sealOf_subset (h : Sealed l) (r : RecordKey) : l.sealOf r ⊆ l.allowOf r.cell := by
  rw [h r, currentSeal]
  split_ifs
  · exact desiredSeal_subset
  · exact Finset.empty_subset _

theorem allowOf_removeNode (l : KeyDistributionLedger H J) (cell : CellId) (node : NodeId) :
    node ∉ (step l (.removeNodeFromAllowlist cell node)).allowOf cell := by
  rw [step, call, removeNodeFromAllowlist,
    editAllowlist]
  cases hcell : l.cells[cell]? with
  | none => simp [Outcome.state, allowOf, hcell]
  | some policy => simp [Outcome.state, allowOf]

/-! ## Every call and every run -/

/-- **One step.** -/
theorem sealed_step (c : Call) (h : Sealed l) : Sealed (step l c) := by
  have heffect := effect_call l c
  rw [step]
  generalize call l c = outcome at heffect
  cases heffect with
  | refused => exact h
  | selector _ hchange => exact sealed_selector hchange h
  | registered => exact h
  | allowlist _ _ => exact sealed_allowlist h
  | offered _ _ | accepted _ => exact h
  | confirmed _ hcell => exact sealed_confirmed hcell h
  | admitted _ _ _ hcell => exact sealed_admitted hcell h
  | noCell _ _ hnew hcell => exact sealed_noCell hcell hnew h
  | revoked _ => exact sealed_revoked h

theorem confirmed_step_iff (c : Call) (r : RecordKey) :
    (step l c).crossConfirmed.contains r = true ↔
      Succeeds (.confirmCrossOwner r) l c ∨ l.crossConfirmed.contains r = true := by
  have heffect := effect_call l c
  rw [step, Succeeds]
  generalize call l c = outcome at heffect
  cases heffect with
  | selector hc _ =>
    have hne : c ≠ .confirmCrossOwner r := Call.ne_of_record? hc rfl
    simp [Outcome.state, cellMut, hne]
  | allowlist hc _ =>
    have hne : c ≠ .confirmCrossOwner r := Call.ne_of_record? hc rfl
    simp [Outcome.state, hne]
  | confirmed _ _ => simp [Outcome.state, Outcome.isOk, ExtTreeSet.contains_insert]
  | _ => simp [Outcome.state, Outcome.isOk, registerArtifact,
      insertOffered, removeOffered]

def reached (H : Bytes → Bytes) (J : KeyedStore.KeyedCodec) (foreignNodes : Finset NodeId)
    (calls : List Call) : KeyDistributionLedger H J :=
  exec step (.new foreignNodes) calls

theorem sealed_reached (foreignNodes : Finset NodeId) (calls : List Call) :
    Sealed (reached H J foreignNodes calls) :=
  exec_inv (fun _ c => sealed_step c) (sealed_new foreignNodes) calls

theorem confirmed_iff {foreignNodes : Finset NodeId} {calls : List Call} :
    (reached H J foreignNodes calls).crossConfirmed.contains r = true ↔
      Ever step (Succeeds (.confirmCrossOwner r))
        (.new foreignNodes : KeyDistributionLedger H J) calls :=
  exec_iff_ever (P := fun l : KeyDistributionLedger H J => l.crossConfirmed.contains r = true)
    (fun _ c => confirmed_step_iff c r) (by simp [new]) calls

theorem foreignNodes_reached (foreignNodes : Finset NodeId) (calls : List Call) :
    (reached H J foreignNodes calls).foreignNodes = foreignNodes := by
  refine exec_inv (I := fun l : KeyDistributionLedger H J => l.foreignNodes = foreignNodes)
    (fun l c h => ?_) rfl calls
  have heffect := effect_call l c
  rw [step]
  generalize call l c = outcome at heffect
  cases heffect <;> exact h

/-- **Every seal is current.** -/
theorem seal_is_current (foreignNodes : Finset NodeId) (calls : List Call) (r : RecordKey) :
    let l := reached H J foreignNodes calls
    (l.sealOf r = if l.isAdmitted r
      then desiredSeal (l.allowOf r.cell) foreignNodes (l.crossConfirmed.contains r) else ∅) ∧
    (Ever step (Succeeds (.confirmCrossOwner r))
        (.new foreignNodes : KeyDistributionLedger H J) calls ∨
      Disjoint (l.sealOf r) foreignNodes) ∧
    l.sealOf r ⊆ l.allowOf r.cell ∧
    ∀ node, node ∉ (step l (.removeNodeFromAllowlist r.cell node)).sealOf r := by
  intro l
  have hseal : l.sealOf r = l.currentSeal r := sealed_reached foreignNodes calls r
  have hforeign : l.foreignNodes = foreignNodes := foreignNodes_reached foreignNodes calls
  refine ⟨?_, ?_, sealOf_subset (sealed_reached foreignNodes calls) r, fun node => ?_⟩
  · rw [hseal, currentSeal, hforeign]
  · rw [← confirmed_iff, or_iff_not_imp_left]
    intro hconfirmed
    rw [hseal, currentSeal, hforeign, Bool.eq_false_iff.2 hconfirmed]
    split_ifs
    · exact desiredSeal_false_disjoint
    · exact Finset.disjoint_empty_left _
  · intro hnode
    have hmem := sealOf_subset (sealed_step _ (sealed_reached foreignNodes calls)) r hnode
    exact allowOf_removeNode l r.cell node hmem

end Pillar.KeyDistribution
