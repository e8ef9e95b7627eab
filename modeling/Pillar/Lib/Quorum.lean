import Mathlib

/-!
# Majorities of a fixed electorate

Voters cast ballots; a ballot names a round and a candidate. A candidate wins a round when a strict
majority of the electorate backs it there.

* `won_unique` — **two winners of one round are one**, if nobody casts two different ballots in it:
  the two majorities share a voter.
-/

namespace Lib.Quorum

variable {Voter Round Candidate : Type*}

def Won (n : ℕ) (ballot : Voter → Round → Candidate → Prop) (r : Round) (c : Candidate) : Prop :=
  ∃ Q : Finset Voter, n < 2 * Q.card ∧ ∀ v ∈ Q, ballot v r c

theorem majorities_meet [DecidableEq Voter] {electorate A B : Finset Voter} {n : ℕ}
    (hn : electorate.card ≤ n) (hA : A ⊆ electorate) (hB : B ⊆ electorate)
    (hAn : n < 2 * A.card) (hBn : n < 2 * B.card) : (A ∩ B).Nonempty :=
  Finset.inter_nonempty_of_card_lt_card_add_card hA hB (by omega)

/-- **Two winners of one round are one.** -/
theorem won_unique [DecidableEq Voter] {electorate : Finset Voter} {n : ℕ}
    {ballot : Voter → Round → Candidate → Prop} (hn : electorate.card ≤ n)
    (hel : ∀ v r c, ballot v r c → v ∈ electorate)
    (huniq : ∀ v r c₁ c₂, ballot v r c₁ → ballot v r c₂ → c₁ = c₂)
    {r : Round} {c₁ c₂ : Candidate} (h₁ : Won n ballot r c₁) (h₂ : Won n ballot r c₂) :
    c₁ = c₂ := by
  obtain ⟨Q₁, hcard₁, hQ₁⟩ := h₁
  obtain ⟨Q₂, hcard₂, hQ₂⟩ := h₂
  obtain ⟨v, hv⟩ := majorities_meet hn (fun v hv => hel v r c₁ (hQ₁ v hv))
    (fun v hv => hel v r c₂ (hQ₂ v hv)) hcard₁ hcard₂
  rw [Finset.mem_inter] at hv
  exact huniq v r c₁ c₂ (hQ₁ v hv.1) (hQ₂ v hv.2)

end Lib.Quorum
