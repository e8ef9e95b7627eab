import Pillar.Ipam.Operator

/-!
# Granting a released address again

A released address goes back to its pool "so it can be re-granted to a different actor".

* `regranted_iff` — **a released address can be allocated to another actor precisely if it is
  regrantable**, at one allocator and through the operator.
-/

namespace Pillar

open Std Lib.TreeMap Lib.Runs

namespace Coordination
namespace LeaseRegister

/-! ## Asking all voters -/

def mayGrant (r : LeaseRegister) (epoch : Epoch) (voter : NodeId) : Bool :=
  match r.grants[voter]? with
  | some (current, _) => decide (current < epoch)
  | none => true

def grantAll (r : LeaseRegister) (voters : List NodeId) (candidate : NodeId) (epoch : Epoch) :
    LeaseRegister :=
  voters.foldl (fun r voter => (r.grant voter candidate epoch).1) r

def backers (r : LeaseRegister) (voters : List NodeId) (candidate : NodeId) (epoch : Epoch) :
    Finset NodeId :=
  keysWhere r.grants (fun b => decide (b.1 = epoch ∧ b.2 = candidate)) ∪
    voters.toFinset.filter fun voter => r.mayGrant epoch voter

variable {r : LeaseRegister} {candidate : NodeId} {epoch : Epoch}

theorem backers_congr {r' : LeaseRegister} (h : r'.grants = r.grants) (voters : List NodeId)
    (candidate : NodeId) (epoch : Epoch) :
    r'.backers voters candidate epoch = r.backers voters candidate epoch := by
  have hmay : r'.mayGrant epoch = r.mayGrant epoch := by
    funext voter
    rw [mayGrant, mayGrant, h]
  rw [backers, backers, h, hmay]

theorem grant_eq (voter : NodeId) :
    (r.grant voter candidate epoch).1 =
      if r.mayGrant epoch voter then { r with grants := r.grants.insert voter (epoch, candidate) }
      else r := by
  rw [grant, mayGrant]
  cases r.grants[voter]? with
  | none => rfl
  | some b =>
    by_cases hle : epoch ≤ b.1
    · simp [hle, Nat.not_lt.2 hle]
    · simp [hle, Nat.not_le.1 hle]

theorem grantAll_keeps (voters : List NodeId) :
    (r.grantAll voters candidate epoch).clusterSize = r.clusterSize ∧
      (r.grantAll voters candidate epoch).holders = r.holders := by
  induction voters generalizing r with
  | nil => exact ⟨rfl, rfl⟩
  | cons voter voters ih =>
    obtain ⟨hsize, hholders⟩ := @ih (r.grant voter candidate epoch).1
    refine ⟨hsize.trans ?_, hholders.trans ?_⟩ <;>
      rcases r.grant_cases voter candidate epoch with h | h <;> rw [h]

/-- **The ballots after all voters were asked.** -/
theorem getElem?_grantAll (voters : List NodeId) (w : NodeId) :
    (r.grantAll voters candidate epoch).grants[w]? =
      if w ∈ voters ∧ r.mayGrant epoch w = true then some (epoch, candidate) else r.grants[w]? := by
  induction voters generalizing r with
  | nil => simp [grantAll]
  | cons voter voters ih =>
    show ((r.grant voter candidate epoch).1.grantAll voters candidate epoch).grants[w]? = _
    rw [ih, grant_eq]
    by_cases hmay : r.mayGrant epoch voter = true
    · rw [if_pos hmay]
      by_cases hw : voter = w
      · -- the voter has just granted, and cannot do so again
        subst hw
        have hno : mayGrant { r with grants := r.grants.insert voter (epoch, candidate) } epoch voter =
            false := by
          simp [mayGrant]
        simp [hno, hmay]
      · have hsame : mayGrant { r with grants := r.grants.insert voter (epoch, candidate) } epoch w =
            r.mayGrant epoch w := by
          simp [mayGrant, ExtTreeMap.getElem?_insert, hw]
        rw [hsame]
        simp [ExtTreeMap.getElem?_insert, hw, Ne.symm hw]
    · rw [if_neg hmay]
      by_cases hw : voter = w
      · subst hw
        simp [hmay]
      · simp [Ne.symm hw]

theorem votes_grantAll (voters : List NodeId) :
    (r.grantAll voters candidate epoch).votes candidate epoch =
      (r.backers voters candidate epoch).card := by
  refine (card_keysWhere _ fun b : Epoch × NodeId =>
    decide (b.1 = epoch ∧ b.2 = candidate)).symm.trans ?_
  congr 1
  ext w
  rw [mem_keysWhere, getElem?_grantAll, backers, Finset.mem_union, mem_keysWhere, Finset.mem_filter,
    List.mem_toFinset]
  by_cases hw : w ∈ voters ∧ r.mayGrant epoch w = true
  · simp [hw]
  · simp [hw]

theorem tryAcquire_grantAll (voters : List NodeId) (hfree : r.holders[epoch]? = none) :
    ((r.grantAll voters candidate epoch).tryAcquire candidate epoch).2 = true ↔
      r.clusterSize < 2 * (r.backers voters candidate epoch).card := by
  obtain ⟨hsize, hholders⟩ := @grantAll_keeps r candidate epoch voters
  rw [tryAcquire, hholders, hfree]
  simp only [isQuorum, votes_grantAll, hsize, gt_iff_lt, decide_eq_true_eq]
  split_ifs with h <;> simp [h]

/-! ## Ballots do not come back -/

def beyond (r : LeaseRegister) (epoch : Epoch) (candidate : NodeId) : Finset NodeId :=
  keysWhere r.grants fun b => decide (epoch < b.1 ∨ b = (epoch, candidate))

theorem mem_beyond {voter : NodeId} :
    voter ∈ r.beyond epoch candidate ↔
      ∃ b, r.grants[voter]? = some b ∧ (epoch < b.1 ∨ b = (epoch, candidate)) := by
  simp [beyond, mem_keysWhere]

def Committed (r : LeaseRegister) : Prop :=
  ∀ (epoch : Epoch) (holder : NodeId), r.holders[epoch]? = some holder →
    r.clusterSize < 2 * (r.beyond epoch holder).card

theorem beyond_subset_grant (voter c : NodeId) (e : Epoch) :
    r.beyond epoch candidate ⊆ (r.grant voter c e).1.beyond epoch candidate := by
  intro w hw
  obtain ⟨b, hb, hbeyond⟩ := mem_beyond.1 hw
  rw [mem_beyond, grant_eq]
  split_ifs with hmay
  · by_cases hvw : voter = w
    · subst hvw
      have hlt : b.1 < e := by simpa [mayGrant, hb] using hmay
      refine ⟨(e, c), by simp, .inl ?_⟩
      rcases hbeyond with h | rfl
      · exact h.trans hlt
      · exact hlt
    · exact ⟨b, by simpa [ExtTreeMap.getElem?_insert, hvw] using hb, hbeyond⟩
  · exact ⟨b, hb, hbeyond⟩

theorem committed_apply (r : LeaseRegister) (op : Op) (h : r.Committed) :
    (r.apply op).Committed := by
  intro epoch holder hholder
  rw [apply_clusterSize]
  cases op with
  | grant v c e =>
    have hsame : (r.grant v c e).1.holders = r.holders := by
      rcases r.grant_cases v c e with hr | hr <;> rw [hr]
    have hcard := Finset.card_le_card (@beyond_subset_grant r holder epoch v c e)
    exact (h epoch holder (hsame ▸ hholder)).trans_le (Nat.mul_le_mul_left 2 hcard)
  | tryAcquire c e =>
    rcases r.tryAcquire_cases c e with hr | ⟨hvotes, hr⟩ <;> rw [apply, hr] at hholder ⊢
    · exact h epoch holder hholder
    · rcases eq_or_of_getElem?_insert hholder with ⟨rfl, rfl⟩ | hold
      · -- the votes that were counted are among those who granted the epoch
        refine hvotes.trans_le (Nat.mul_le_mul_left 2 ?_)
        refine (card_keysWhere r.grants fun b =>
          decide (b.1 = epoch ∧ b.2 = holder)).symm.trans_le (Finset.card_le_card fun w hw => ?_)
        obtain ⟨b, hb, heq⟩ := mem_keysWhere.1 hw
        exact mem_beyond.2 ⟨b, hb, .inr (Prod.ext_iff.2 (of_decide_eq_true heq))⟩
      · exact h epoch holder hold
  | release c e =>
    rcases r.release_cases c e with hr | hr <;> rw [apply, hr] at hholder ⊢
    · exact h epoch holder hholder
    · rw [ExtTreeMap.getElem?_erase] at hholder
      split_ifs at hholder
      exact h epoch holder hholder

theorem committed_run (n : ℕ) (ops : List Op) : ((new n).run ops).Committed :=
  exec_inv committed_apply (by intro epoch holder h; simp [new] at h) ops

theorem not_majority_of_committed (h : r.Committed) {holder : NodeId}
    (hholder : r.holders[epoch]? = some holder) (hne : candidate ≠ holder) {voters : List NodeId}
    (hcard : voters.toFinset.card ≤ r.clusterSize)
    (hvoters : ∀ (v : NodeId) (b : Epoch × NodeId), r.grants[v]? = some b → v ∈ voters) :
    ¬ r.clusterSize < 2 * (r.backers voters candidate epoch).card := by
  have hmem : ∀ w, w ∈ r.backers voters candidate epoch ↔
      r.grants[w]? = some (epoch, candidate) ∨ w ∈ voters ∧ r.mayGrant epoch w = true := by
    simp [backers, mem_keysWhere]
  intro hmajority
  obtain ⟨w, hw⟩ := Lib.Quorum.majorities_meet hcard (A := r.beyond epoch holder)
    (fun w hw => by
      obtain ⟨b, hb, -⟩ := mem_beyond.1 hw
      exact List.mem_toFinset.2 (hvoters w b hb))
    (fun w hw => List.mem_toFinset.2 (((hmem w).1 hw).elim (hvoters w _) And.left))
    (h epoch holder hholder) hmajority
  obtain ⟨hw, hbacks⟩ := Finset.mem_inter.1 hw
  obtain ⟨b, hb, hbeyond⟩ := mem_beyond.1 hw
  rcases (hmem w).1 hbacks with hb' | ⟨-, hmay⟩
  · obtain rfl := Option.some.inj (hb.symm.trans hb')
    rcases hbeyond with hlt | heq
    · exact lt_irrefl _ hlt
    · exact hne (Prod.ext_iff.1 heq).2
  · have hlt : b.1 < epoch := by simpa [mayGrant, hb] using hmay
    rcases hbeyond with h' | rfl
    · exact lt_irrefl _ (h'.trans hlt)
    · exact lt_irrefl _ hlt

/-- **What is held is not granted again.** -/
theorem never_regranted {n : ℕ} {voters : List NodeId} (hcard : voters.toFinset.card ≤ n)
    {ops : List Op} (hops : ∀ v c e, Op.grant v c e ∈ ops → v ∈ voters) {holder : NodeId}
    (hholder : ((new n).run ops).holders[epoch]? = some holder) (hne : candidate ≠ holder) :
    ¬ n < 2 * (((new n).run ops).backers voters candidate epoch).card := by
  have hbacked := backed_run (G := {g | g.voter ∈ voters}) (backed_new n _) hops
  have hno := not_majority_of_committed (committed_run n ops) hholder hne
    (by rw [hbacked.size]; exact hcard) fun v b hb => hbacked.cast v b.1 b.2 hb
  rwa [hbacked.size] at hno

theorem held_not_regranted :
    ¬ 3 < 2 * (((new 3).run [.grant "v1" "a" 0, .grant "v2" "a" 0, .tryAcquire "a" 0]).backers
      ["v1", "v2", "v3"] "b" 0).card :=
  never_regranted (by decide) (by rintro v c e h; simp at h ⊢; tauto)
    (show _ = some "a" by decide +kernel) (by decide)

end LeaseRegister
end Coordination

namespace Ipam

open Coordination

/-! ## One pool -/

namespace DelegatedAllocator

def grantAll (A : DelegatedAllocator) (voters : List NodeId) (actor : NodeId) (addr : IpAddr) :
    DelegatedAllocator :=
  voters.foldl (fun A voter => (A.grant voter actor addr).1) A

/-- After the holder has released the address and voters were asked to grant it to an actor, the
actor gets it. -/
def Reallocates (A : DelegatedAllocator) (holder : NodeId) (voters : List NodeId) (actor : NodeId)
    (addr : IpAddr) : Prop :=
  (((A.release holder addr).1.grantAll voters actor addr).tryAllocate actor addr).2 = .ok true ∧
    (((A.release holder addr).1.grantAll voters actor addr).tryAllocate actor addr).1.allocatorOf
      addr = some actor

def Regrantable (A : DelegatedAllocator) (voters : List NodeId) (actor : NodeId) (addr : IpAddr) :
    Prop :=
  ∃ i, A.pool.indexOf addr = some i ∧
    A.register.clusterSize < 2 * (A.register.backers voters actor i).card

variable {A : DelegatedAllocator} {actor : NodeId} {addr : IpAddr}

theorem grantAll_eq {i : ℕ} (hi : A.pool.indexOf addr = some i) (voters : List NodeId) :
    A.grantAll voters actor addr = ⟨A.pool, A.register.grantAll voters actor i⟩ := by
  induction voters generalizing A with
  | nil => rfl
  | cons voter voters ih =>
    have hstep : (A.grant voter actor addr).1 = ⟨A.pool, (A.register.grant voter actor i).1⟩ := by
      rw [grant, epochOf, hi]
    show ((A.grant voter actor addr).1).grantAll voters actor addr = _
    rw [hstep]
    exact ih hi

theorem tryAllocate_grantAll (voters : List NodeId) (hfree : A.allocatorOf addr = none) :
    ((A.grantAll voters actor addr).tryAllocate actor addr).2 = .ok true ↔
      A.Regrantable voters actor addr := by
  rw [Regrantable]
  cases hi : A.pool.indexOf addr with
  | none =>
    have hsame : ∀ voters : List NodeId, A.grantAll voters actor addr = A := by
      intro voters
      induction voters with
      | nil => rfl
      | cons voter voters ih =>
        have hstep : (A.grant voter actor addr).1 = A := by rw [grant, epochOf, hi]
        show ((A.grant voter actor addr).1).grantAll voters actor addr = A
        rw [hstep, ih]
    simp [hsame, tryAllocate, epochOf, hi]
  | some i =>
    have hholder : A.register.holders[i]? = none := by
      simpa [allocatorOf, hi, LeaseRegister.holder] using hfree
    rw [grantAll_eq hi, tryAllocate, epochOf, hi]
    simp [LeaseRegister.tryAcquire_grantAll voters hholder]

theorem allocatorOf_of_tryAllocate (h : (A.tryAllocate actor addr).2 = .ok true) :
    (A.tryAllocate actor addr).1.allocatorOf addr = some actor := by
  rcases A.tryAllocate_cases actor addr with ⟨-, hfalse⟩ | ⟨i, hi, -, -, hpool, hafter⟩
  · exact absurd h hfalse
  · rw [allocatorOf_update hi hpool hafter, if_pos rfl]

theorem eq_of_tryAllocate {x : NodeId} (h : (A.tryAllocate actor addr).2 = .ok true)
    (hx : A.allocatorOf addr = some x) : x = actor := by
  rcases A.tryAllocate_cases actor addr with ⟨-, hfalse⟩ | ⟨i, hi, -, hbefore, -⟩
  · exact absurd h hfalse
  · obtain ⟨j, hj, hx⟩ := allocatorOf_eq_some_iff.1 hx
    obtain rfl := Option.some.inj (hi.symm.trans hj)
    exact hbefore x hx

theorem allocatorOf_grantAll (voters : List NodeId) (addr' : IpAddr) :
    (A.grantAll voters actor addr).allocatorOf addr' = A.allocatorOf addr' := by
  induction voters generalizing A with
  | nil => rfl
  | cons voter voters ih =>
    obtain ⟨hpool, hholders⟩ := A.grant_keeps voter actor addr
    exact (@ih (A.grant voter actor addr).1).trans (allocatorOf_congr hpool hholders addr')

theorem tryAllocate_grantAll_iff (voters : List NodeId) (hnot : A.allocatorOf addr ≠ some actor) :
    ((A.grantAll voters actor addr).tryAllocate actor addr).2 = .ok true ↔
      A.allocatorOf addr = none ∧ A.Regrantable voters actor addr := by
  constructor
  · intro h
    have hfree : A.allocatorOf addr = none := by
      rw [Option.eq_none_iff_forall_ne_some]
      intro x hx
      obtain rfl := eq_of_tryAllocate h ((allocatorOf_grantAll voters addr).trans hx)
      exact hnot hx
    exact ⟨hfree, (tryAllocate_grantAll voters hfree).1 h⟩
  · rintro ⟨hfree, hregrantable⟩
    exact (tryAllocate_grantAll voters hfree).2 hregrantable

theorem release_keeps {holder : NodeId} (h : A.allocatorOf addr = some holder) :
    (A.release holder addr).1.allocatorOf addr = none ∧
      ∀ voters b, (A.release holder addr).1.Regrantable voters b addr ↔
        A.Regrantable voters b addr := by
  obtain ⟨i, hi, hpool, hafter⟩ := release_of_allocatorOf h
  refine ⟨by rw [allocatorOf_update hi hpool hafter, if_pos rfl], fun voters b => ?_⟩
  have hballots : (A.release holder addr).1.register.grants = A.register.grants ∧
      (A.release holder addr).1.register.clusterSize = A.register.clusterSize := by
    rw [release, hi]
    rcases A.register.release_cases holder i with hr | hr <;> simp [hr]
  have hbackers : ∀ j, (A.release holder addr).1.register.backers voters b j =
      A.register.backers voters b j := by
    exact LeaseRegister.backers_congr hballots.1 voters b
  simp [Regrantable, hpool, hbackers, hballots.2]

/-- **A released address goes to another actor if it is regrantable.** -/
theorem regranted_iff_regrantable {holder : NodeId} (h : A.allocatorOf addr = some holder)
    (voters : List NodeId) :
    A.Reallocates holder voters actor addr ↔ A.Regrantable voters actor addr := by
  obtain ⟨hfree, hsame⟩ := release_keeps h
  rw [← hsame, ← tryAllocate_grantAll voters hfree]
  exact and_iff_left_of_imp allocatorOf_of_tryAllocate

end DelegatedAllocator

/-! ## Through the operator -/

namespace TopologyScopedIpam

def grantAllFor (I : TopologyScopedIpam) (voters : List NodeId) (node : NodeId) (addr : IpAddr) :
    TopologyScopedIpam :=
  voters.foldl (fun I voter => (I.grantFor voter node addr).1) I

/-- A majority backs the node in its own domain, where the address is the one that was released
or nobody's. -/
def Regrantable (I : TopologyScopedIpam) (voters : List NodeId) (holder node : NodeId)
    (addr : IpAddr) : Prop :=
  ∃ key A, I.allocatorFor node addr.isIpv6 = .ok (key, A) ∧
    (I.domain node = I.domain holder ∨ A.allocatorOf addr = none) ∧ A.Regrantable voters node addr

variable {I : TopologyScopedIpam} {node : NodeId} {addr : IpAddr} {wantV6 : Bool}
  {key : String × Bool} {A A' : DelegatedAllocator}

theorem allocatorFor_setSlot (h : I.allocatorFor node wantV6 = .ok (key, A)) :
    (I.setSlot key A').allocatorFor node wantV6 = .ok (key, A') := by
  obtain ⟨scope, hscope, rfl, -⟩ := allocatorFor_eq_ok_iff.1 h
  exact allocatorFor_eq_ok_iff.2 ⟨scope, hscope, rfl, by simp [slot_setSlot]⟩

theorem allocatorFor_grantAllFor (h : I.allocatorFor node addr.isIpv6 = .ok (key, A))
    (voters : List NodeId) :
    (I.grantAllFor voters node addr).allocatorFor node addr.isIpv6 =
      .ok (key, A.grantAll voters node addr) := by
  induction voters generalizing I A with
  | nil => exact h
  | cons voter voters ih =>
    have hstep : (I.grantFor voter node addr).1 = I.setSlot key (A.grant voter node addr).1 := by
      rw [grantFor, h]
    show ((I.grantFor voter node addr).1.grantAllFor voters node addr).allocatorFor _ _ = _
    rw [hstep]
    exact ih (allocatorFor_setSlot h)

theorem grantAllFor_of_error {e : ScopedError} (h : I.allocatorFor node addr.isIpv6 = .error e)
    (voters : List NodeId) : I.grantAllFor voters node addr = I := by
  induction voters with
  | nil => rfl
  | cons voter voters ih =>
    have hstep : (I.grantFor voter node addr).1 = I := by rw [grantFor, h]
    show (I.grantFor voter node addr).1.grantAllFor voters node addr = I
    rw [hstep, ih]

theorem allocateFor_grantAllFor (voters : List NodeId) :
    ((I.grantAllFor voters node addr).allocateFor node addr).2 = .ok true ↔
      ∃ key A, I.allocatorFor node addr.isIpv6 = .ok (key, A) ∧
        ((A.grantAll voters node addr).tryAllocate node addr).2 = .ok true := by
  rw [allocateFor]
  cases hA : I.allocatorFor node addr.isIpv6 with
  | error e => simp [grantAllFor_of_error hA, hA]
  | ok found =>
    obtain ⟨key, A⟩ := found
    simp [allocatorFor_grantAllFor hA, mapError_eq_ok_iff]

theorem allocatorFor_releaseAt_iff {holder : NodeId} {holderKey : String × Bool}
    {B : DelegatedAllocator} (hB : I.allocatorFor holder addr.isIpv6 = .ok (holderKey, B)) :
    (I.releaseAt holder addr.isIpv6 holder addr).1.allocatorFor node addr.isIpv6 = .ok (key, A') ↔
      ∃ A, I.allocatorFor node addr.isIpv6 = .ok (key, A) ∧
        A' = if I.domain node = I.domain holder then (A.release holder addr).1 else A := by
  obtain ⟨scope, hscope, rfl, hslot⟩ := allocatorFor_eq_ok_iff.1 hB
  have hafter : (I.releaseAt holder addr.isIpv6 holder addr).1 =
      I.setSlot (scope, addr.isIpv6) (B.release holder addr).1 := by
    rw [releaseAt, hB]
  rw [hafter, allocatorFor_eq_ok_iff]
  simp only [allocatorFor_eq_ok_iff, slot_setSlot, domain_setSlot]
  constructor
  · rintro ⟨scope', hscope', rfl, h⟩
    simp only [Prod.mk.injEq, and_true] at h
    split_ifs at h with hsame
    · subst hsame
      refine ⟨B, ⟨scope', hscope', rfl, hslot⟩, ?_⟩
      rw [if_pos (hscope'.trans hscope.symm), Option.some.inj h]
    · refine ⟨A', ⟨scope', hscope', rfl, h⟩, (if_neg ?_).symm⟩
      rw [hscope, hscope', Option.some.injEq]
      exact hsame
  · rintro ⟨A, ⟨scope', hscope', rfl, h⟩, rfl⟩
    refine ⟨scope', hscope', rfl, ?_⟩
    simp only [Prod.mk.injEq, and_true, hscope, hscope', Option.some.injEq]
    split_ifs with hsame
    · subst hsame
      rw [Option.some.inj (hslot.symm.trans h)]
    · exact h

/-- **An address that a holder has given back goes to another node if it is regrantable.** -/
theorem allocateFor_releaseAt_iff {holder : NodeId} (hholder : I.holds holder addr = true)
    (hnode : I.holds node addr = false) (voters : List NodeId) :
    (((I.releaseAt holder addr.isIpv6 holder addr).1.grantAllFor voters node addr).allocateFor
        node addr).2 = .ok true ↔ I.Regrantable voters holder node addr := by
  obtain ⟨scope, hscope, hheld⟩ := holds_iff.1 hholder
  obtain ⟨B, hslot, hB⟩ := Option.bind_eq_some_iff.1 hheld
  have hfor := allocatorFor_eq_ok_iff.2 ⟨scope, hscope, rfl, hslot⟩
  rw [allocateFor_grantAllFor, Regrantable]
  simp only [allocatorFor_releaseAt_iff hfor, and_assoc, ↓existsAndEq, true_and]
  refine exists_congr fun key => exists_congr fun A => and_congr_right fun hA => ?_
  obtain ⟨scope', hscope', rfl, hslot'⟩ := allocatorFor_eq_ok_iff.1 hA
  split_ifs with hsame
  · -- served by the allocator that took the address back
    obtain rfl := Option.some.inj (hscope'.symm.trans (hsame.trans hscope))
    obtain rfl := Option.some.inj (hslot.symm.trans hslot')
    obtain ⟨hfree, hballots⟩ := DelegatedAllocator.release_keeps hB
    rw [DelegatedAllocator.tryAllocate_grantAll voters hfree, hballots]
    exact (and_iff_right (.inl hsame)).symm
  · -- served elsewhere, where the node itself does not have the address
    have hnot : A.allocatorOf addr ≠ some node := by
      intro hx
      refine Bool.false_ne_true (hnode.symm.trans (holds_iff.2 ⟨scope', hscope', ?_⟩))
      rw [holderIn_of_slot hslot', hx]
    rw [DelegatedAllocator.tryAllocate_grantAll_iff voters hnot, or_iff_right hsame]

end TopologyScopedIpam

namespace IpamOperator

open TopologyScopedIpam

def grantAll (O : IpamOperator) (voters : List NodeId) (node : NodeId) (addr : IpAddr) : IpamOperator :=
  { O with ipam := O.ipam.grantAllFor voters node addr }

/-- After a name is released and voters were asked to grant its address to a node, the node gets
the address under another name. -/
def Reallocates (O : IpamOperator) (name : String) (voters : List NodeId) (name' : String)
    (node : NodeId) (addr : IpAddr) : Prop :=
  (((O.release name).1.grantAll voters node addr).allocate name' node addr).2 =
      .ok ⟨node, addr, true⟩ ∧
    (((O.release name).1.grantAll voters node addr).allocate name' node addr).1.ipam.holds node addr =
      true

variable {O : IpamOperator}

theorem allocate_ipam {name : String} {node : NodeId} {addr : IpAddr} {b : Binding}
    (h : (O.allocate name node addr).2 = .ok b) :
    (O.allocate name node addr).1.ipam = (O.ipam.allocateFor node addr).1 := by
  obtain ⟨hfree, htrue, -⟩ := allocate_eq_ok_iff.1 h
  simp [allocate, hfree, htrue]

/-- **A released address is allocated under another name as the pools decide.** -/
theorem reallocates_iff (hO : O.RecordedOnce) {name : String} {b : Binding}
    (hb : O.records[name]? = some b) (hholds : O.ipam.holds b.node b.addr = true) (name' : String)
    {node : NodeId} (hnode : O.ipam.holds node b.addr = false) (voters : List NodeId) :
    O.Reallocates name voters name' node b.addr ↔ O.ipam.Regrantable voters b.node node b.addr := by
  have hafter : (O.release name).1 =
      ⟨(O.ipam.releaseAt b.node b.addr.isIpv6 b.node b.addr).1, O.records.erase name⟩ := by
    rw [release, hb]
  -- no other name had the address
  have hfree : ((O.release name).1.grantAll voters node b.addr).ensureFree name' b.addr = .ok () := by
    rw [ensureFree_eq_ok_iff, hafter]
    intro n c hc haddr
    simp only [grantAll, ExtTreeMap.getElem?_erase] at hc
    split_ifs at hc with hn
    exact absurd (hO name n b c hb hc haddr.symm) (by simpa using hn)
  have hpools : ((O.release name).1.grantAll voters node b.addr).ipam =
      (O.ipam.releaseAt b.node b.addr.isIpv6 b.node b.addr).1.grantAllFor voters node b.addr := by
    rw [hafter, grantAll]
  rw [← allocateFor_releaseAt_iff hholds hnode, ← hpools]
  constructor
  · rintro ⟨hok, -⟩
    exact (allocate_eq_ok_iff.1 hok).2.1
  · intro htrue
    have hok := allocate_eq_ok_iff.2 ⟨hfree, htrue, rfl⟩
    refine ⟨hok, ?_⟩
    rw [allocate_ipam hok]
    exact (holds_allocateFor htrue node b.addr).2 (.inl ⟨rfl, rfl⟩)

end IpamOperator

/-- **When a released address can be granted again.** -/
theorem regranted_iff {A : DelegatedAllocator} {holder : NodeId} {addr : IpAddr}
    (hheld : A.allocatorOf addr = some holder) (actor : NodeId) {ipam : TopologyScopedIpam}
    {calls : List IpamOperator.Call} {name : String} {b : Binding}
    (hb : (IpamOperator.reached ipam calls).records[name]? = some b)
    (hholds : (IpamOperator.reached ipam calls).ipam.holds b.node b.addr = true) (name' : String)
    {node : NodeId} (hnode : (IpamOperator.reached ipam calls).ipam.holds node b.addr = false)
    (voters : List NodeId) :
    (A.Reallocates holder voters actor addr ↔ A.Regrantable voters actor addr) ∧
      ((IpamOperator.reached ipam calls).Reallocates name voters name' node b.addr ↔
        (IpamOperator.reached ipam calls).ipam.Regrantable voters b.node node b.addr) :=
  ⟨DelegatedAllocator.regranted_iff_regrantable hheld voters,
    IpamOperator.reallocates_iff (IpamOperator.recordedOnce_reached ipam calls) hb hholds name' hnode
      voters⟩

/-! ## Three voters, and a fourth -/

/-- Two of three voters grant 10.0.0.1 to `n1`, which gets it under the name `vip`. -/
def vipAllocated : List IpamOperator.Call :=
  [.grantFor "v1" "n1" (.v4 0x0a000001), .grantFor "v2" "n1" (.v4 0x0a000001),
   .allocate "vip" "n1" (.v4 0x0a000001)]

/-- The pool of that run, as one allocator. -/
def vipAllocator : DelegatedAllocator :=
  (((DelegatedAllocator.new ⟨.v4 0x0a000000, 8⟩ 3).grantAll ["v1", "v2"] "n1"
    (.v4 0x0a000001)).tryAllocate "n1" (.v4 0x0a000001)).1

/-- The three voters of the cluster cannot grant the address again: two of them are refused. -/
theorem released_vip_not_regranted :
    vipAllocator.allocatorOf (.v4 0x0a000001) = some "n1" ∧
      ¬ vipAllocator.Reallocates "n1" ["v1", "v2", "v3"] "n2" (.v4 0x0a000001) ∧
      (IpamOperator.reached onePool vipAllocated).recordedAddr "vip" = some (.v4 0x0a000001) ∧
      ¬ (IpamOperator.reached onePool vipAllocated).Reallocates "vip" ["v1", "v2", "v3"] "vip2" "n2"
        (.v4 0x0a000001) := by
  unfold DelegatedAllocator.Reallocates IpamOperator.Reallocates
  decide +kernel

/-- With a fourth voter there is a second majority. -/
theorem fourth_voter_regrants :
    vipAllocator.Reallocates "n1" ["v3", "v4"] "n2" (.v4 0x0a000001) ∧
      (IpamOperator.reached onePool vipAllocated).ipam.Regrantable ["v3", "v4"] "n1" "n2"
        (.v4 0x0a000001) := by
  have h := @regranted_iff vipAllocator "n1" (.v4 0x0a000001) (by decide +kernel) "n2" onePool
    vipAllocated "vip" ⟨"n1", .v4 0x0a000001, true⟩ (by decide +kernel) (by decide +kernel) "vip2"
    "n2" (by decide +kernel) ["v3", "v4"]
  refine ⟨h.1.2 ⟨1, by decide +kernel, by decide +kernel⟩, h.2.1 ?_⟩
  unfold IpamOperator.Reallocates
  decide +kernel

end Ipam
end Pillar
