import Pillar.Core
import Pillar.Lib.Quorum
import Pillar.Lib.Runs
import Pillar.Lib.TreeMap

/-!
# The lease register

`pillar-coordination`'s `LeaseRegister`: it accumulates voter grants and decides who acquires an
epoch.
-/

namespace Pillar.Coordination

open Std Lib.Runs

inductive GrantError where
  /-- The voter has already granted at an epoch at or above the requested one. -/
  | staleEpoch (current : Epoch)
  deriving DecidableEq

/-- The register of one node for a cluster of a known size. -/
structure LeaseRegister where
  clusterSize : ℕ
  /-- Voter to (highest granted epoch, candidate backed at that epoch). -/
  grants : ExtTreeMap NodeId (Epoch × NodeId)
  holders : ExtTreeMap Epoch NodeId

namespace LeaseRegister

def new (clusterSize : ℕ) : LeaseRegister := ⟨clusterSize, ∅, ∅⟩

def isQuorum (r : LeaseRegister) (votes : ℕ) : Bool := decide (2 * votes > r.clusterSize)

def grant (r : LeaseRegister) (voter candidate : NodeId) (epoch : Epoch) :
    LeaseRegister × Except GrantError Unit :=
  let record := ({ r with grants := r.grants.insert voter (epoch, candidate) }, .ok ())
  match r.grants[voter]? with
  | some (current, _) => if epoch ≤ current then (r, .error (.staleEpoch current)) else record
  | none => record

def votes (r : LeaseRegister) (candidate : NodeId) (epoch : Epoch) : ℕ :=
  r.grants.toList.countP fun e => decide (e.2.1 = epoch ∧ e.2.2 = candidate)

def tryAcquire (r : LeaseRegister) (candidate : NodeId) (epoch : Epoch) : LeaseRegister × Bool :=
  match r.holders[epoch]? with
  | some existing => (r, decide (existing = candidate))
  | none =>
    if r.isQuorum (r.votes candidate epoch) then
      ({ r with holders := r.holders.insert epoch candidate }, true)
    else (r, false)

def holder (r : LeaseRegister) (epoch : Epoch) : Option NodeId := r.holders[epoch]?

def release (r : LeaseRegister) (holder : NodeId) (epoch : Epoch) : LeaseRegister × Bool :=
  match r.holders[epoch]? with
  | some existing =>
    if existing = holder then ({ r with holders := r.holders.erase epoch }, true) else (r, false)
  | none => (r, false)

/-! ## What one call can do -/

theorem grant_cases (r : LeaseRegister) (voter candidate : NodeId) (epoch : Epoch) :
    (r.grant voter candidate epoch).1 = r ∨
      (r.grant voter candidate epoch).1 =
        { r with grants := r.grants.insert voter (epoch, candidate) } := by
  unfold grant
  cases hv : r.grants[voter]? with
  | none => exact .inr rfl
  | some p =>
    by_cases hle : epoch ≤ p.1
    · exact .inl (by simp [hle])
    · exact .inr (by simp [hle])

theorem tryAcquire_true {r : LeaseRegister} {candidate : NodeId} {epoch : Epoch}
    (h : (r.tryAcquire candidate epoch).2 = true) :
    r.holders[epoch]? = some candidate ∨
      (r.holders[epoch]? = none ∧ r.clusterSize < 2 * r.votes candidate epoch) := by
  unfold tryAcquire at h
  cases hh : r.holders[epoch]? with
  | some existing => rw [hh] at h; exact .inl (by simpa using h)
  | none =>
    rw [hh] at h
    by_cases hq : r.isQuorum (r.votes candidate epoch) = true
    · exact .inr ⟨rfl, by simpa [isQuorum] using hq⟩
    · simp [hq] at h

theorem tryAcquire_cases (r : LeaseRegister) (candidate : NodeId) (epoch : Epoch) :
    (r.tryAcquire candidate epoch).1 = r ∨
      (r.clusterSize < 2 * r.votes candidate epoch ∧
        (r.tryAcquire candidate epoch).1 =
          { r with holders := r.holders.insert epoch candidate }) := by
  unfold tryAcquire
  cases hh : r.holders[epoch]? with
  | some existing => exact .inl rfl
  | none =>
    by_cases hq : r.isQuorum (r.votes candidate epoch) = true
    · exact .inr ⟨by simpa [isQuorum] using hq, by simp [hq]⟩
    · exact .inl (by simp [hq])

theorem release_cases (r : LeaseRegister) (holder : NodeId) (epoch : Epoch) :
    (r.release holder epoch).1 = r ∨
      (r.release holder epoch).1 = { r with holders := r.holders.erase epoch } := by
  unfold release
  cases hh : r.holders[epoch]? with
  | none => exact .inl rfl
  | some existing =>
    by_cases he : existing = holder
    · exact .inr (by simp [he])
    · exact .inl (by simp [he])

theorem tryAcquire_spec (r : LeaseRegister) (candidate : NodeId) (epoch : Epoch) :
    r.tryAcquire candidate epoch = (r, false) ∨
      ((r.tryAcquire candidate epoch).2 = true ∧
        (∀ x, r.holders[epoch]? = some x → x = candidate) ∧
        ∀ e, (r.tryAcquire candidate epoch).1.holders[e]? =
          if e = epoch then some candidate else r.holders[e]?) := by
  unfold tryAcquire
  cases hh : r.holders[epoch]? with
  | some existing =>
    by_cases he : existing = candidate
    · subst he
      refine .inr ⟨by simp, fun x hx => (Option.some.inj hx).symm, fun e => ?_⟩
      by_cases hee : e = epoch
      · rw [if_pos hee, hee]
        exact hh
      · rw [if_neg hee]
    · exact .inl (by simp [he])
  | none =>
    by_cases hq : r.isQuorum (r.votes candidate epoch) = true
    · refine .inr ⟨by simp [hq], by simp, fun e => ?_⟩
      by_cases hee : e = epoch
      · simp [hq, hee]
      · simp [hq, hee, ExtTreeMap.getElem?_insert, Ne.symm hee]
    · exact .inl (by simp [hq])

theorem release_spec (r : LeaseRegister) (holder : NodeId) (epoch : Epoch) :
    r.release holder epoch = (r, false) ∨
      ((r.release holder epoch).2 = true ∧ r.holders[epoch]? = some holder ∧
        ∀ e, (r.release holder epoch).1.holders[e]? =
          if e = epoch then none else r.holders[e]?) := by
  unfold release
  cases hh : r.holders[epoch]? with
  | none => exact .inl rfl
  | some existing =>
    by_cases he : existing = holder
    · subst he
      refine .inr ⟨by simp, rfl, fun e => ?_⟩
      by_cases hee : e = epoch
      · simp [hee]
      · simp [hee, ExtTreeMap.getElem?_erase, Ne.symm hee]
    · exact .inl (by simp [he])

/-! ## The register as a state machine -/

inductive Op where
  | grant (voter candidate : NodeId) (epoch : Epoch)
  | tryAcquire (candidate : NodeId) (epoch : Epoch)
  | release (holder : NodeId) (epoch : Epoch)
  deriving DecidableEq

def apply (r : LeaseRegister) : Op → LeaseRegister
  | .grant v c e => (r.grant v c e).1
  | .tryAcquire c e => (r.tryAcquire c e).1
  | .release c e => (r.release c e).1

def run (r : LeaseRegister) (ops : List Op) : LeaseRegister := exec apply r ops

@[simp] theorem apply_clusterSize (r : LeaseRegister) (op : Op) :
    (r.apply op).clusterSize = r.clusterSize := by
  cases op with
  | grant v c e => rcases r.grant_cases v c e with h | h <;> simp [apply, h]
  | tryAcquire c e => rcases r.tryAcquire_cases c e with h | ⟨-, h⟩ <;> simp [apply, h]
  | release c e => rcases r.release_cases c e with h | h <;> simp [apply, h]

end LeaseRegister

/-! ## Agreement: one winner per epoch, over whole runs and across registers

A register keeps only a voter's newest ballot and `release` drops the cached decision: a majority may
be invisible later.

* `acquired_unique` — **agreement**: two acquisitions of one epoch, on any two registers at any two
  moments, have one candidate. -/

open Lib.Quorum Lib.TreeMap

structure Grant where
  voter : NodeId
  candidate : NodeId
  epoch : Epoch
  deriving DecidableEq

def Ballot (G : Set Grant) (v : NodeId) (e : Epoch) (c : NodeId) : Prop := ⟨v, c, e⟩ ∈ G

namespace LeaseRegister

/-- The calls a register may be fed when the grants made are `G`: any order, any
subset and any repetition of them, between arbitrary other calls. -/
def FedFrom (G : Set Grant) (ops : List Op) : Prop :=
  ∀ v c e, Op.grant v c e ∈ ops → ⟨v, c, e⟩ ∈ G

def Acquired (r : LeaseRegister) (ops : List Op) (c : NodeId) (e : Epoch) : Prop :=
  ∃ p, p ++ [Op.tryAcquire c e] <+: ops ∧ ((r.run p).tryAcquire c e).2 = true

/-! ## The invariant -/

structure Backed (n : ℕ) (G : Set Grant) (r : LeaseRegister) : Prop where
  size : r.clusterSize = n
  cast : ∀ v e c, r.grants[v]? = some (e, c) → Ballot G v e c
  won : ∀ e c, r.holders[e]? = some c → Won n (Ballot G) e c

theorem backed_new (n : ℕ) (G : Set Grant) : Backed n G (new n) where
  size := rfl
  cast := by intro v e c h; simp [new] at h
  won := by intro e c h; simp [new] at h

variable {n : ℕ} {G : Set Grant} {r : LeaseRegister} {c : NodeId} {e : Epoch}

section

variable (hb : Backed n G r)

include hb

theorem won_of_votes (h : r.clusterSize < 2 * r.votes c e) : Won n (Ballot G) e c := by
  refine ⟨keysWhere r.grants fun b => decide (b.1 = e ∧ b.2 = c), ?_, ?_⟩
  · rw [card_keysWhere, ← hb.size]
    exact h
  · intro v hv
    obtain ⟨⟨e', c'⟩, hg, hec⟩ := mem_keysWhere.1 hv
    obtain ⟨rfl, rfl⟩ : e' = e ∧ c' = c := by simpa using hec
    exact hb.cast v e' c' hg

theorem won_of_tryAcquire (h : (r.tryAcquire c e).2 = true) : Won n (Ballot G) e c := by
  rcases tryAcquire_true h with hheld | ⟨-, hvotes⟩
  · exact hb.won e c hheld
  · exact won_of_votes hb hvotes

theorem Backed.cast_apply {op : Op} (hop : ∀ v c e, op = Op.grant v c e → ⟨v, c, e⟩ ∈ G)
    {v : NodeId} (hg : (r.apply op).grants[v]? = some (e, c)) : Ballot G v e c := by
  cases op with
  | grant v' c' e' =>
    rcases r.grant_cases v' c' e' with h | h <;> rw [apply, h] at hg
    · exact hb.cast v e c hg
    · rw [ExtTreeMap.getElem?_insert] at hg
      by_cases hv : v' = v
      · -- the ballot just recorded
        subst hv
        obtain ⟨rfl, rfl⟩ : e' = e ∧ c' = c := by simpa using hg
        exact hop v' c' e' rfl
      · exact hb.cast v e c (by simpa [hv] using hg)
  | tryAcquire c' e' =>
    rcases r.tryAcquire_cases c' e' with h | ⟨-, h⟩ <;> rw [apply, h] at hg <;>
      exact hb.cast v e c hg
  | release c' e' =>
    rcases r.release_cases c' e' with h | h <;> rw [apply, h] at hg <;> exact hb.cast v e c hg

theorem Backed.won_apply {op : Op} (hh : (r.apply op).holders[e]? = some c) :
    Won n (Ballot G) e c := by
  cases op with
  | grant v' c' e' =>
    rcases r.grant_cases v' c' e' with h | h <;> rw [apply, h] at hh <;> exact hb.won e c hh
  | tryAcquire c' e' =>
    rcases r.tryAcquire_cases c' e' with h | ⟨hvotes, h⟩ <;> rw [apply, h] at hh
    · exact hb.won e c hh
    · rw [ExtTreeMap.getElem?_insert] at hh
      by_cases he : e' = e
      · -- the holder just elected
        subst he
        obtain rfl : c' = c := by simpa using hh
        exact won_of_votes hb hvotes
      · exact hb.won e c (by simpa [he] using hh)
  | release c' e' =>
    rcases r.release_cases c' e' with h | h <;> rw [apply, h] at hh
    · exact hb.won e c hh
    · rw [ExtTreeMap.getElem?_erase] at hh
      by_cases he : e' = e
      · simp [he] at hh
      · exact hb.won e c (by simpa [he] using hh)

theorem backed_apply {op : Op} (hop : ∀ v c e, op = Op.grant v c e → ⟨v, c, e⟩ ∈ G) :
    Backed n G (r.apply op) where
  size := by rw [apply_clusterSize, hb.size]
  cast _ _ _ hg := hb.cast_apply hop hg
  won _ _ hh := hb.won_apply hh

theorem backed_run {ops : List Op} (hfed : FedFrom G ops) : Backed n G (r.run ops) := by
  induction ops generalizing r with
  | nil => exact hb
  | cons op ops ih =>
    refine ih (backed_apply hb ?_) fun v c e h => hfed v c e (List.mem_cons_of_mem _ h)
    rintro v c e rfl
    exact hfed v c e (List.mem_cons_self ..)

end

theorem won_of_acquired {ops : List Op} (hfed : FedFrom G ops) (h : (new n).Acquired ops c e) :
    Won n (Ballot G) e c := by
  obtain ⟨p, hp, hacq⟩ := h
  have hfedp : FedFrom G p := fun v c' e' hmem =>
    hfed v c' e' (hp.subset (List.mem_append_left _ hmem))
  exact won_of_tryAcquire (backed_run (backed_new n G) hfedp) hacq

/-- **Agreement.** -/
theorem acquired_unique {n : ℕ} {voters : Finset NodeId} (hn : voters.card ≤ n) {G : Set Grant}
    (hvoters : ∀ g ∈ G, g.voter ∈ voters)
    (honce : ∀ g ∈ G, ∀ g' ∈ G, g.voter = g'.voter → g.epoch = g'.epoch →
      g.candidate = g'.candidate)
    {ops₁ ops₂ : List Op} (hfed₁ : FedFrom G ops₁) (hfed₂ : FedFrom G ops₂)
    {c₁ c₂ : NodeId} {e : Epoch} (h₁ : (new n).Acquired ops₁ c₁ e)
    (h₂ : (new n).Acquired ops₂ c₂ e) : c₁ = c₂ := by
  refine won_unique hn ?_ ?_ (won_of_acquired hfed₁ h₁) (won_of_acquired hfed₂ h₂)
  · intro v r c hb
    exact hvoters ⟨v, c, r⟩ hb
  · intro v r c c' hb hb'
    exact honce ⟨v, c, r⟩ hb ⟨v, c', r⟩ hb' rfl rfl

/-- A split vote: two of three voters back `cA`, the third backs `cB`. -/
def splitVote : List Grant := [⟨"n1", "cA", 1⟩, ⟨"n2", "cA", 1⟩, ⟨"n3", "cB", 1⟩]

/-- One register hears two voters, acquires and releases; the other hears all
three in another order, one of them twice. -/
theorem acquired_unique_splitVote :
    ∃ c₁ c₂ : NodeId,
      (new 3).Acquired [.grant "n1" "cA" 1, .grant "n2" "cA" 1, .tryAcquire "cA" 1,
        .release "cA" 1] c₁ 1 ∧
      (new 3).Acquired [.grant "n3" "cB" 1, .tryAcquire "cB" 1, .grant "n2" "cA" 1,
        .grant "n1" "cA" 1, .grant "n1" "cA" 1, .tryAcquire "cA" 1] c₂ 1 ∧ c₁ = c₂ := by
  have h₁ : (new 3).Acquired [.grant "n1" "cA" 1, .grant "n2" "cA" 1, .tryAcquire "cA" 1,
      .release "cA" 1] "cA" 1 :=
    ⟨[.grant "n1" "cA" 1, .grant "n2" "cA" 1], ⟨[.release "cA" 1], rfl⟩, by decide⟩
  have h₂ : (new 3).Acquired [.grant "n3" "cB" 1, .tryAcquire "cB" 1, .grant "n2" "cA" 1,
      .grant "n1" "cA" 1, .grant "n1" "cA" 1, .tryAcquire "cA" 1] "cA" 1 :=
    ⟨[.grant "n3" "cB" 1, .tryAcquire "cB" 1, .grant "n2" "cA" 1, .grant "n1" "cA" 1,
      .grant "n1" "cA" 1], ⟨[], rfl⟩, by decide⟩
  refine ⟨"cA", "cA", h₁, h₂, ?_⟩
  have hvoters : ∀ g ∈ splitVote, g.voter ∈ ({"n1", "n2", "n3"} : Finset NodeId) := by decide
  have honce : ∀ g ∈ splitVote, ∀ g' ∈ splitVote, g.voter = g'.voter → g.epoch = g'.epoch →
      g.candidate = g'.candidate := by decide
  refine acquired_unique (G := {g | g ∈ splitVote}) (by decide) hvoters honce ?_ ?_ h₁ h₂
  · intro v c e hmem
    simp at hmem
    rcases hmem with ⟨rfl, rfl, rfl⟩ | ⟨rfl, rfl, rfl⟩ <;> decide
  · intro v c e hmem
    simp at hmem
    rcases hmem with ⟨rfl, rfl, rfl⟩ | ⟨rfl, rfl, rfl⟩ | ⟨rfl, rfl, rfl⟩ <;> decide

end LeaseRegister

end Pillar.Coordination
