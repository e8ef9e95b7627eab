import Pillar.Coordination
import Pillar.StreamDb.OpLog

/-!
# The quota ledger

`pillar-quota-ledger`'s `QuotaLedger`: reservations against the budget of one quota attestation.
-/

namespace Pillar

open Std Lib.TreeMap Coordination StreamDb

namespace QuotaLedger

/-- The content address of a trust artifact. -/
structure Cid where
  val : String
  deriving DecidableEq

/-- A handle to an admitted reservation. -/
structure ReservationId where
  budget : Cid
  slot : ℕ
  deriving DecidableEq

/-- Why a ledger operation was refused. -/
inductive LedgerError where
  | notAQuotaBudget
  /-- The reservation would push the outstanding total past the budget. -/
  | wouldExceedBudget (requested available : ℕ)
  /-- The slot is not backed by a quorum for the candidate. -/
  | notQuorumFenced
  | grant (error : GrantError)
  /-- Not an outstanding reservation of this ledger. -/
  | unknownReservation (id : ReservationId)
  deriving DecidableEq

structure Reservation where
  slot : ℕ
  candidate : NodeId
  amount : ℕ
  deriving DecidableEq

end QuotaLedger

open QuotaLedger

/-- A reservation ledger for one budget. -/
structure QuotaLedger (H : Bytes → Bytes) where
  budgetCid : Cid
  budget : ℕ
  register : LeaseRegister
  nextSlot : ℕ
  outstanding : ExtTreeMap ℕ Reservation
  log : OpLog H

namespace QuotaLedger

variable {H : Bytes → Bytes}

/-- Open a ledger for an attestation, of which it reads the address and the
quota. -/
def forBudget (cid : Cid) (quota : Option ℕ) (clusterSize : ℕ) :
    Except LedgerError (QuotaLedger H) :=
  match quota with
  | some budget => .ok ⟨cid, budget, .new clusterSize, 0, ∅, .new⟩
  | none => .error .notAQuotaBudget

def reserved (l : QuotaLedger H) : ℕ := (l.outstanding.toList.map fun e => e.2.amount).sum

def available (l : QuotaLedger H) : ℕ := l.budget - l.reserved

def record (l : QuotaLedger H) (entry : String) : QuotaLedger H :=
  { l with log := (l.log.append entry.toUTF8.data.toList).1 }

def grant (l : QuotaLedger H) (voter candidate : NodeId) : QuotaLedger H × Except LedgerError Unit :=
  let (register, result) := l.register.grant voter candidate l.nextSlot
  ({ l with register := register }, result.mapError .grant)

/-- An amount is reserved in the next slot, if it fits and a quorum has granted the slot. -/
def admitFor (l : QuotaLedger H) (candidate : NodeId) (amount : ℕ) :
    QuotaLedger H × Except LedgerError ReservationId :=
  if amount > l.available then
    -- the grants collected for the slot are spent, so the slot is skipped
    ({ l with nextSlot := l.nextSlot + 1 }, .error (.wouldExceedBudget amount l.available))
  else
    let acquired := l.register.tryAcquire candidate l.nextSlot
    if !acquired.2 then
      ({ l with register := acquired.1, nextSlot := l.nextSlot + 1 }, .error .notQuorumFenced)
    else
      let admitted : QuotaLedger H :=
        { l with
          register := acquired.1
          nextSlot := l.nextSlot + 1
          outstanding := l.outstanding.insert l.nextSlot ⟨l.nextSlot, candidate, amount⟩ }
      (admitted.record ("admit\x00" ++ l.budgetCid.val ++ "\x00" ++ toString l.nextSlot ++ "\x00" ++
        candidate ++ "\x00" ++ toString amount), .ok ⟨l.budgetCid, l.nextSlot⟩)

def release (l : QuotaLedger H) (id : ReservationId) : QuotaLedger H × Except LedgerError ℕ :=
  if id.budget ≠ l.budgetCid then (l, .error (.unknownReservation id))
  else
    match l.outstanding[id.slot]? with
    | none => (l, .error (.unknownReservation id))
    | some res =>
      let released : QuotaLedger H := { l with outstanding := l.outstanding.erase id.slot }
      (released.record ("release\x00" ++ l.budgetCid.val ++ "\x00" ++ toString res.slot ++ "\x00" ++
        toString res.amount), .ok res.amount)

inductive Call where
  | grant (voter candidate : NodeId)
  | admitFor (candidate : NodeId) (amount : ℕ)
  | release (id : ReservationId)
  deriving DecidableEq

def apply (l : QuotaLedger H) : Call → QuotaLedger H
  | .grant v c => (l.grant v c).1
  | .admitFor c amount => (l.admitFor c amount).1
  | .release id => (l.release id).1

/-! ## What one call can do -/

def Gates (l : QuotaLedger H) (candidate : NodeId) (amount : ℕ) : Prop :=
  amount ≤ l.available ∧ (l.register.tryAcquire candidate l.nextSlot).2 = true

instance (l : QuotaLedger H) (candidate : NodeId) (amount : ℕ) :
    Decidable (l.Gates candidate amount) :=
  inferInstanceAs (Decidable (_ ∧ _))

@[simp] theorem record_outstanding (l : QuotaLedger H) (entry : String) :
    (l.record entry).outstanding = l.outstanding := rfl

@[simp] theorem record_budget (l : QuotaLedger H) (entry : String) :
    (l.record entry).budget = l.budget := rfl

@[simp] theorem record_nextSlot (l : QuotaLedger H) (entry : String) :
    (l.record entry).nextSlot = l.nextSlot := rfl

@[simp] theorem record_register (l : QuotaLedger H) (entry : String) :
    (l.record entry).register = l.register := rfl

variable {l : QuotaLedger H}

theorem admitFor_outstanding_of_gates {c : NodeId} {amount : ℕ} (h : l.Gates c amount) :
    (l.admitFor c amount).1.outstanding =
      l.outstanding.insert l.nextSlot ⟨l.nextSlot, c, amount⟩ := by
  simp [admitFor, Nat.not_lt.2 h.1, h.2]

theorem admitFor_outstanding_of_not_gates {c : NodeId} {amount : ℕ} (h : ¬ l.Gates c amount) :
    (l.admitFor c amount).1.outstanding = l.outstanding := by
  by_cases hb : amount > l.available
  · simp [admitFor, hb]
  · have hq : (l.register.tryAcquire c l.nextSlot).2 = false := by
      simpa [Gates, Nat.not_lt.1 hb] using h
    simp [admitFor, hb, hq]

theorem admitFor_nextSlot (l : QuotaLedger H) (c : NodeId) (amount : ℕ) :
    (l.admitFor c amount).1.nextSlot = l.nextSlot + 1 := by
  simp only [admitFor]
  split_ifs <;> rfl

theorem release_outstanding (l : QuotaLedger H) (id : ReservationId) :
    (l.release id).1.outstanding = l.outstanding ∨
      ∃ res, l.outstanding[id.slot]? = some res ∧
        (l.release id).1.outstanding = l.outstanding.erase id.slot := by
  unfold release
  split_ifs with hb
  · exact .inl rfl
  · cases hres : l.outstanding[id.slot]? with
    | none => exact .inl rfl
    | some res => exact .inr ⟨res, rfl, rfl⟩

theorem release_nextSlot (l : QuotaLedger H) (id : ReservationId) :
    (l.release id).1.nextSlot = l.nextSlot := by
  unfold release
  split_ifs
  · rfl
  · cases l.outstanding[id.slot]? <;> rfl

@[simp] theorem apply_budget (l : QuotaLedger H) (call : Call) :
    (l.apply call).budget = l.budget := by
  cases call with
  | grant v c => rfl
  | admitFor c amount =>
    simp only [apply, admitFor]
    split_ifs <;> rfl
  | release id =>
    show (l.release id).1.budget = l.budget
    unfold release
    split_ifs
    · rfl
    · cases l.outstanding[id.slot]? <;> rfl

/-- **What a call does to the reservations.** -/
theorem apply_cases (l : QuotaLedger H) (call : Call) :
    (l.apply call).outstanding = l.outstanding ∨
      (∃ c amount, call = .admitFor c amount ∧ l.Gates c amount ∧
        (l.apply call).outstanding =
          l.outstanding.insert l.nextSlot ⟨l.nextSlot, c, amount⟩) ∨
      (∃ slot res, l.outstanding[slot]? = some res ∧
        (l.apply call).outstanding = l.outstanding.erase slot) := by
  cases call with
  | grant v c => exact .inl rfl
  | admitFor c amount =>
    by_cases h : l.Gates c amount
    · exact .inr (.inl ⟨c, amount, rfl, h, admitFor_outstanding_of_gates h⟩)
    · exact .inl (admitFor_outstanding_of_not_gates h)
  | release id =>
    rcases l.release_outstanding id with h | ⟨res, hres, h⟩
    · exact .inl h
    · exact .inr (.inr ⟨id.slot, res, hres, h⟩)

theorem le_apply_nextSlot (l : QuotaLedger H) (call : Call) :
    l.nextSlot ≤ (l.apply call).nextSlot := by
  cases call with
  | grant v c => exact le_rfl
  | admitFor c amount => exact (Nat.le_succ _).trans (l.admitFor_nextSlot c amount).ge
  | release id => exact (l.release_nextSlot id).ge

/-! ## The total -/

variable {l' : QuotaLedger H} {res : Reservation} {quota : Option ℕ}

theorem reserved_insert {slot : ℕ}
    (hfresh : slot ∉ l.outstanding) (h : l'.outstanding = l.outstanding.insert slot res) :
    l'.reserved = l.reserved + res.amount := by
  rw [reserved, h, ((toList_insert_perm hfresh res).map fun e => e.2.amount).sum_eq, List.map_cons,
    List.sum_cons, add_comm]
  rfl

theorem reserved_erase {slot : ℕ}
    (hres : l.outstanding[slot]? = some res) (h : l'.outstanding = l.outstanding.erase slot) :
    l.reserved = l'.reserved + res.amount := by
  rw [reserved, ((toList_erase_perm hres).map fun e => e.2.amount).sum_eq, List.map_cons,
    List.sum_cons, add_comm, ← h]
  rfl

/-! ## The invariant of one ledger -/

structure Sound (l : QuotaLedger H) : Prop where
  /-- A reservation sits under its own slot, below the pending one. -/
  slot_lt : ∀ slot res, l.outstanding[slot]? = some res → res.slot = slot ∧ slot < l.nextSlot
  /-- The ledger stays within its budget, so `available` never underflows. -/
  reserved_le : l.reserved ≤ l.budget

theorem reserved_forBudget {cid : Cid} {n : ℕ}
    (h : forBudget cid quota n = .ok l) : l.reserved = 0 := by
  cases quota with
  | none => cases h
  | some budget =>
    cases h
    rfl

theorem sound_forBudget {cid : Cid} {n : ℕ} (h : forBudget cid quota n = .ok l) :
    l.Sound := by
  refine ⟨fun slot res hres => ?_, by rw [reserved_forBudget h]; exact Nat.zero_le _⟩
  cases quota with
  | none => cases h
  | some budget =>
    cases h
    simp at hres

theorem Sound.fresh (h : l.Sound) : l.nextSlot ∉ l.outstanding := by
  intro hmem
  obtain ⟨res, hres⟩ := mem_iff_exists_getElem?.1 hmem
  exact absurd (h.slot_lt _ _ hres).2 (lt_irrefl _)

/-- **Every call keeps the ledger sound.** -/
theorem sound_apply (h : l.Sound) (call : Call) : (l.apply call).Sound := by
  have hnext := l.le_apply_nextSlot call
  rcases l.apply_cases call with hout | ⟨c, amount, rfl, hg, hout⟩ | ⟨slot, res, hres, hout⟩
  · refine ⟨fun slot res hslot => ?_, ?_⟩
    · obtain ⟨heq, hlt⟩ := h.slot_lt slot res (hout ▸ hslot)
      exact ⟨heq, hlt.trans_le hnext⟩
    · rw [reserved, hout, apply_budget]
      exact h.reserved_le
  · refine ⟨fun slot res hslot => ?_, ?_⟩
    · rw [hout, ExtTreeMap.getElem?_insert] at hslot
      have hsucc : (l.apply (.admitFor c amount)).nextSlot = l.nextSlot + 1 :=
        l.admitFor_nextSlot c amount
      by_cases hs : l.nextSlot = slot
      · subst hs
        obtain rfl : ⟨l.nextSlot, c, amount⟩ = res := by simpa using hslot
        exact ⟨rfl, by omega⟩
      · obtain ⟨heq, hlt⟩ := h.slot_lt slot res (by simpa [hs] using hslot)
        exact ⟨heq, hlt.trans_le hnext⟩
    · have hadd : (l.apply (.admitFor c amount)).reserved = l.reserved + amount :=
        reserved_insert h.fresh hout
      have hgate : amount ≤ l.budget - l.reserved := hg.1
      have hle := h.reserved_le
      rw [apply_budget]
      omega
  · refine ⟨fun s r hs => ?_, ?_⟩
    · rw [hout, ExtTreeMap.getElem?_erase] at hs
      by_cases heq : slot = s
      · simp [heq] at hs
      · obtain ⟨hr, hlt⟩ := h.slot_lt s r (by simpa [heq] using hs)
        exact ⟨hr, hlt.trans_le hnext⟩
    · have hsub := reserved_erase hres hout
      have hle := h.reserved_le
      rw [apply_budget]
      omega

end QuotaLedger
end Pillar

/-! ## What a refused admission costs

`LedgerError` documents a refusal as consuming no slot. It does consume one: the slot
counter moves on, and the votes on record are votes for the slot it moved away from.

* `admitFor_after_refusals_iff` — **what follows**: a candidate with a quorum at the pending slot and
  an amount that fits is admitted exactly when nobody was refused in between. -/

namespace Pillar.QuotaLedger

open Std Lib.Runs Lib.TreeMap Coordination StreamDb

variable {H : Bytes → Bytes}

/-! ## The slots ahead -/

structure Fresh (l : QuotaLedger H) : Prop where
  /-- Nobody holds the pending slot or one after it. -/
  holders : ∀ slot, l.nextSlot ≤ slot → l.register.holders[slot]? = none
  /-- Nobody has voted for a slot after the pending one. -/
  grants : ∀ (voter : NodeId) (slot : ℕ) (c : NodeId), l.register.grants[voter]? = some (slot, c) →
    slot ≤ l.nextSlot

variable {l : QuotaLedger H}

theorem fresh_forBudget {cid : Cid} {quota : Option ℕ} {n : ℕ} (h : forBudget cid quota n = .ok l) :
    l.Fresh := by
  cases quota with
  | none => cases h
  | some budget =>
    cases h
    exact ⟨by simp [LeaseRegister.new], by simp [LeaseRegister.new]⟩

theorem Fresh.grant (h : l.Fresh) (voter candidate : NodeId) :
    (l.grant voter candidate).1.Fresh := by
  have hregister : (l.grant voter candidate).1 =
      { l with register := (l.register.grant voter candidate l.nextSlot).1 } := rfl
  rw [hregister]
  rcases l.register.grant_cases voter candidate l.nextSlot with hsame | hrecord
  · rw [hsame]
    exact ⟨h.holders, h.grants⟩
  · rw [hrecord]
    refine ⟨h.holders, fun v slot c hv => ?_⟩
    rcases eq_or_of_getElem?_insert hv with ⟨-, hballot⟩ | hv
    · exact (congrArg Prod.fst hballot).le
    · exact h.grants v slot c hv

theorem Fresh.admitFor (h : l.Fresh) (candidate : NodeId) (amount : ℕ) :
    (l.admitFor candidate amount).1.Fresh := by
  have hskip : ∀ slot, l.nextSlot + 1 ≤ slot → l.register.holders[slot]? = none := fun slot hslot =>
    h.holders slot ((Nat.le_succ _).trans hslot)
  have hgrants : ∀ (voter : NodeId) (slot : ℕ) (c : NodeId),
      l.register.grants[voter]? = some (slot, c) → slot ≤ l.nextSlot + 1 := fun voter slot c hv =>
    (h.grants voter slot c hv).trans (Nat.le_succ _)
  have hacquired : ∀ slot, l.nextSlot + 1 ≤ slot →
      (l.register.tryAcquire candidate l.nextSlot).1.holders[slot]? = none := by
    intro slot hslot
    rcases l.register.tryAcquire_cases candidate l.nextSlot with hsame | ⟨-, hnew⟩
    · rw [hsame]
      exact hskip slot hslot
    · have hne : l.nextSlot ≠ slot := by omega
      rw [hnew, ExtTreeMap.getElem?_insert, if_neg (by simpa using hne)]
      exact hskip slot hslot
  have hballots : (l.register.tryAcquire candidate l.nextSlot).1.grants = l.register.grants := by
    rcases l.register.tryAcquire_cases candidate l.nextSlot with hsame | ⟨-, hnew⟩
    · rw [hsame]
    · rw [hnew]
  rw [QuotaLedger.admitFor]
  dsimp only
  split_ifs
  · exact ⟨hskip, hgrants⟩
  · exact ⟨hacquired, hballots ▸ hgrants⟩
  · exact ⟨hacquired, hballots ▸ hgrants⟩

theorem Fresh.release (h : l.Fresh) (id : ReservationId) : (l.release id).1.Fresh := by
  unfold QuotaLedger.release
  split_ifs
  · exact h
  · cases l.outstanding[id.slot]? with
    | none => exact h
    | some res => exact ⟨h.holders, h.grants⟩

theorem fresh_apply (h : l.Fresh) (call : Call) : (l.apply call).Fresh := by
  cases call with
  | grant v c => exact h.grant v c
  | admitFor c amount => exact h.admitFor c amount
  | release id => exact h.release id

theorem Fresh.votes_eq_zero (h : l.Fresh) (candidate : NodeId) {slot : ℕ}
    (hslot : l.nextSlot < slot) : l.register.votes candidate slot = 0 := by
  rw [LeaseRegister.votes, List.countP_eq_zero]
  rintro ⟨voter, epoch, c⟩ he hvote
  have hle := h.grants voter epoch c (ExtTreeMap.mem_toList_iff_getElem?_eq_some.1 he)
  obtain rfl : epoch = slot := (of_decide_eq_true hvote).1
  exact absurd hle hslot.not_ge

/-! ## Refusals -/

variable {candidate : NodeId}

variable {amount : ℕ}

theorem admitFor_isOk_iff :
    (l.admitFor candidate amount).2.isOk = true ↔ l.Gates candidate amount := by
  rw [admitFor, Gates]
  by_cases hfits : amount > l.available
  · simp [hfits, Except.isOk, Except.toBool]
  · cases hacquired : (l.register.tryAcquire candidate l.nextSlot).2 with
    | false => simp [hfits, hacquired, Except.isOk, Except.toBool]
    | true => simp [hfits, hacquired, Except.isOk, Except.toBool, Nat.not_lt.1 hfits]

theorem admitFor_of_refused (h : (l.admitFor candidate amount).2.isOk = false) :
    (l.admitFor candidate amount).1 = { l with nextSlot := l.nextSlot + 1 } := by
  have hgates : ¬ l.Gates candidate amount := by
    rw [← admitFor_isOk_iff, h]
    exact Bool.false_ne_true
  rw [admitFor]
  by_cases hfits : amount > l.available
  · rw [if_pos hfits]
  · have hfailed : l.register.tryAcquire candidate l.nextSlot = (l.register, false) :=
      (l.register.tryAcquire_spec candidate l.nextSlot).resolve_right fun hok =>
        hgates ⟨Nat.not_lt.1 hfits, hok.1⟩
    rw [if_neg hfits, hfailed]
    rfl

def attempt (l : QuotaLedger H) (request : NodeId × ℕ) : QuotaLedger H :=
  (l.admitFor request.1 request.2).1

def Refused (l : QuotaLedger H) (request : NodeId × ℕ) : Prop :=
  (l.admitFor request.1 request.2).2.isOk = false

theorem exec_attempt_of_refused {requests : List (NodeId × ℕ)}
    (h : Along attempt Refused l requests) :
    exec attempt l requests = { l with nextSlot := l.nextSlot + requests.length } := by
  induction requests generalizing l with
  | nil => rfl
  | cons request requests ih =>
    obtain ⟨hrefused, hlater⟩ := along_cons.1 h
    have hattempt : l.attempt request = { l with nextSlot := l.nextSlot + 1 } :=
      admitFor_of_refused hrefused
    rw [exec_cons, ih hlater, hattempt, List.length_cons, Nat.add_right_comm, Nat.add_assoc]

theorem Fresh.gates_skip_iff (h : l.Fresh)
    (hquorum : l.register.isQuorum (l.register.votes candidate l.nextSlot) = true)
    (hfits : amount ≤ l.available) (k : ℕ) :
    Gates { l with nextSlot := l.nextSlot + k } candidate amount ↔ k = 0 := by
  have hholder := h.holders (l.nextSlot + k) (Nat.le_add_right _ _)
  have hacquired : (l.register.tryAcquire candidate (l.nextSlot + k)).2 =
      l.register.isQuorum (l.register.votes candidate (l.nextSlot + k)) := by
    rw [LeaseRegister.tryAcquire, hholder]
    dsimp only
    split_ifs with hq
    · exact hq.symm
    · exact (Bool.not_eq_true _ ▸ hq).symm
  refine (and_iff_right hfits).trans ?_
  show (l.register.tryAcquire candidate (l.nextSlot + k)).2 = true ↔ k = 0
  rw [hacquired]
  constructor
  · intro hk
    by_contra hne
    rw [h.votes_eq_zero candidate (by omega)] at hk
    simp [LeaseRegister.isQuorum] at hk
  · rintro rfl
    exact hquorum

/-- **What a refusal costs.** -/
theorem admitFor_after_refusals_iff {cid : Cid} {quota : Option ℕ} {n : ℕ} {ledger : QuotaLedger H}
    (h : forBudget cid quota n = .ok ledger) (calls : List Call) {b : NodeId} {amount : ℕ}
    (hquorum : (exec apply ledger calls).register.isQuorum
      ((exec apply ledger calls).register.votes b (exec apply ledger calls).nextSlot) = true)
    (hfits : amount ≤ (exec apply ledger calls).available) {requests : List (NodeId × ℕ)}
    (hrefused : Along attempt Refused (exec apply ledger calls) requests) :
    ((exec attempt (exec apply ledger calls) requests).admitFor b amount).2.isOk = true ↔
      requests = [] := by
  have hfresh : (exec apply ledger calls).Fresh :=
    exec_inv (I := Fresh) (fun l call hl => fresh_apply hl call) (fresh_forBudget h) calls
  rw [exec_attempt_of_refused hrefused, admitFor_isOk_iff, hfresh.gates_skip_iff hquorum hfits,
    List.length_eq_zero_iff]

/-- Two of three voters back `b` for the first slot of a budget of 10. -/
def votedFor : List Call := [.grant "v" "b", .grant "w" "b"]

def tenOfThree : QuotaLedger (tableDigest []) := ⟨⟨"q"⟩, 10, .new 3, 0, ∅, .new⟩

/-- With no request in between, `b` is admitted. -/
theorem voted_then_admitted :
    ((exec attempt (exec apply tenOfThree votedFor) []).admitFor "b" 5).2.isOk = true :=
  (admitFor_after_refusals_iff (show forBudget ⟨"q"⟩ (some 10) 3 = .ok tenOfThree from rfl) votedFor
    (by decide +kernel) (by decide +kernel) along_nil).2 rfl

/-- A request of `c` is refused, because it asks for too much or because `c` has no votes. -/
theorem voted_then_spoiled :
    let l := exec apply tenOfThree votedFor
    l.register.isQuorum (l.register.votes "b" l.nextSlot) = true ∧ 5 ≤ l.available ∧
      (l.admitFor "b" 5).2 = .ok ⟨⟨"q"⟩, 0⟩ ∧
      (l.admitFor "c" 11).2 = .error (.wouldExceedBudget 11 10) ∧
      ((l.admitFor "c" 11).1.admitFor "b" 5).2 = .error .notQuorumFenced ∧
      (l.admitFor "c" 5).2 = .error .notQuorumFenced ∧
      ((l.admitFor "c" 5).1.admitFor "b" 5).2 = .error .notQuorumFenced := by
  decide +kernel

end Pillar.QuotaLedger
