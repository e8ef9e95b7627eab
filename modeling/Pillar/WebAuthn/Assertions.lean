import Pillar.Lib.Base64
import Pillar.Lib.Runs
import Pillar.WebAuthn.RelyingParty

/-!
# One assertion, one challenge

An assertion is signed over the challenge in its client data, and the relying party is given a
challenge beside it.

* `assertion_good_once` — **if the client data name the challenge beside them, an assertion is good
  once**, for the challenge it was signed over.
-/

namespace Pillar.WebAuthn

open Lib.Compare Lib.Runs

variable {P : Primitives} {rp : RelyingParty} {call : Call} {challenge : Bytes}

/-! ## Challenges -/

theorem mint_inj (hH : CollisionFree P.sha256) {n n' now now' : UInt64}
    {session session' cell cell' : String}
    (h : mint P n now session cell = mint P n' now' session' cell') : n = n' := by
  have hbytes := contentAddress_injective hH (ContentId.ext h)
  have hnonce := (List.append_inj (List.append_cancel_left hbytes) (by simp)).1
  exact UInt64.toNat_inj.1 (beBytes_inj n.toNat_lt n'.toNat_lt (List.reverse_injective hnonce))

def Issued (P : Primitives) (rp : RelyingParty) (challenge : Bytes) : Prop :=
  ∃ n now session cell, n.toNat ≤ rp.nonceSeq.toNat ∧ challenge = mint P n now session cell

def Outstanding (P : Primitives) (rp : RelyingParty) : Prop :=
  ∀ challenge o, rp.challenges challenge = some o → o.challenge = challenge ∧ Issued P rp challenge

def Spent (P : Primitives) (challenge : Bytes) (rp : RelyingParty) : Prop :=
  Issued P rp challenge ∧ rp.challenges challenge = none

/-- The client data of an assertion name the challenge that is presented with it, and the counter of
challenges does not run over. -/
def Checked (challengeOf : Bytes → Option String) (rp : RelyingParty) : Call → Prop
  | .begin _ _ _ _ => rp.nonceSeq.toNat + 1 < 2 ^ 64
  | .authenticateFinish c a =>
    challengeOf a.clientDataJson = some (Lib.Base64.encode c.challenge)
  | _ => True

/-- **A call hands out the next challenge, or some are no longer waited for.** -/
theorem step_challenges (P : Primitives) (rp : RelyingParty) (call : Call) :
    (∃ session cell now ttlSecs, call = .begin session cell now ttlSecs) ∨
      (step P rp call).nonceSeq = rp.nonceSeq ∧ ∀ challenge,
        (step P rp call).challenges challenge = rp.challenges challenge ∨
          (step P rp call).challenges challenge = none := by
  have hconsume : ∀ (c : Ceremony) challenge,
      (rp.consumeChallenge c).1.challenges challenge = rp.challenges challenge ∨
        (rp.consumeChallenge c).1.challenges challenge = none := by
    intro c challenge
    by_cases h : challenge = c.challenge <;> simp [RelyingParty.consumeChallenge, h]
  cases call with
  | begin session cell now ttlSecs => exact .inl ⟨_, _, _, _, rfl⟩
  | registerFinish c r =>
    right
    rw [step]
    rcases rp.registerFinish_cases (P := P) (c := c) r with ⟨e, h⟩ | ⟨record, -, -, h⟩ <;>
    · rw [h]
      exact ⟨rfl, hconsume c⟩
  | authenticateFinish c a =>
    right
    rw [step]
    rcases rp.authenticateFinish_cases (P := P) (c := c) (a := a) with
      ⟨e, h⟩ | ⟨o, record, count, unlock, -, -, -, -, -, -, -, h⟩ <;>
    · rw [h]
      exact ⟨rfl, hconsume c⟩
  | revoke credentialId => exact .inr ⟨rfl, fun _ => .inl rfl⟩
  | restoreCredential record =>
    right
    rw [step, RelyingParty.restoreCredential]
    split_ifs <;> exact ⟨rfl, fun _ => .inl rfl⟩
  | touchCredential credentialId signCount lastUsedAt =>
    right
    rw [step, RelyingParty.touchCredential]
    cases rp.records credentialId <;> exact ⟨rfl, fun _ => .inl rfl⟩
  | renameCredential userHandle credentialId label =>
    right
    rw [step, RelyingParty.renameCredential]
    cases rp.records credentialId with
    | none => exact ⟨rfl, fun _ => .inl rfl⟩
    | some record =>
      dsimp only
      split_ifs <;> exact ⟨rfl, fun _ => .inl rfl⟩

section Step

variable {challengeOf : Bytes → Option String}

theorem toNat_nonceSeq_begin (h : rp.nonceSeq.toNat + 1 < 2 ^ 64) :
    (rp.nonceSeq + 1).toNat = rp.nonceSeq.toNat + 1 := by
  rw [UInt64.toNat_add]
  exact Nat.mod_eq_of_lt h

theorem Issued.step (h : Issued P rp challenge) (hcall : Checked challengeOf rp call) :
    Issued P (step P rp call) challenge := by
  obtain ⟨n, now, session, cell, hn, rfl⟩ := h
  refine ⟨n, now, session, cell, ?_, rfl⟩
  rcases step_challenges P rp call with ⟨s, c, t, ttl, rfl⟩ | ⟨hnonce, -⟩
  · have hnext : (rp.nonceSeq + 1).toNat = rp.nonceSeq.toNat + 1 := toNat_nonceSeq_begin hcall
    exact hn.trans (hnext ▸ Nat.le_succ _)
  · rwa [hnonce]

theorem Outstanding.step (h : Outstanding P rp) (hcall : Checked challengeOf rp call) :
    Outstanding P (step P rp call) := by
  intro challenge o ho
  rcases step_challenges P rp call with ⟨s, c, t, ttl, rfl⟩ | ⟨-, hold⟩
  · simp only [WebAuthn.step, RelyingParty.begin, Function.update_apply] at ho
    split_ifs at ho with hnew
    · cases ho
      exact ⟨hnew.symm, _, _, _, _, le_rfl, hnew⟩
    · exact ⟨(h _ o ho).1, (h _ o ho).2.step hcall⟩
  · rcases hold challenge with hsame | hnone
    · rw [hsame] at ho
      exact ⟨(h _ o ho).1, (h _ o ho).2.step hcall⟩
    · rw [hnone] at ho
      cases ho

/-- **A challenge that is spent stays spent.** -/
theorem Spent.step (hH : CollisionFree P.sha256) (h : Spent P challenge rp)
    (hcall : Checked challengeOf rp call) : Spent P challenge (step P rp call) := by
  refine ⟨h.1.step hcall, ?_⟩
  rcases step_challenges P rp call with ⟨s, c, t, ttl, rfl⟩ | ⟨-, hold⟩
  · obtain ⟨n, now, session, cell, hn, rfl⟩ := h.1
    have hnext : (rp.nonceSeq + 1).toNat = rp.nonceSeq.toNat + 1 := toNat_nonceSeq_begin hcall
    simp only [WebAuthn.step, RelyingParty.begin]
    rw [Function.update_of_ne]
    · exact h.2
    · intro heq
      rw [mint_inj hH heq] at hn
      omega
  · rcases hold challenge with hsame | hnone
    · rw [hsame, h.2]
    · exact hnone

end Step

/-! ## Assertions -/

theorem Accepts.spent {c : Ceremony} {a : Assertion} (h : Accepts P rp c a)
    (hrp : Outstanding P rp) :
    (∃ o, rp.challenges c.challenge = some o ∧ o.challenge = c.challenge ∧
        o.session = c.session ∧ o.cell = c.cell) ∧
      Spent P c.challenge (step P rp (.authenticateFinish c a)) := by
  obtain ⟨unlock, hunlock⟩ := h
  rcases rp.authenticateFinish_cases (P := P) (c := c) (a := a) with
    ⟨e, h⟩ | ⟨o, record, count, _, ho, hsession, hcell, -, -, -, -, h⟩
  · rw [h] at hunlock
    cases hunlock
  · obtain ⟨hchallenge, hissued⟩ := hrp _ _ ho
    refine ⟨⟨o, ho, hchallenge, hsession, hcell⟩, ?_⟩
    rw [step, h]
    exact ⟨hissued, Function.update_self _ _ _⟩

def AcceptsTriple (P : Primitives) (credentialId authenticatorData clientDataJson signature : Bytes)
    (rp : RelyingParty) (call : Call) : Prop :=
  ∃ c a, call = .authenticateFinish c a ∧ Accepts P rp c a ∧ a.credentialId = credentialId ∧
    a.authenticatorData = authenticatorData ∧ a.clientDataJson = clientDataJson ∧
    a.signature = signature

/-- **An assertion is good once and for its own challenge, if somebody looks into the client data.**
-/
theorem assertion_good_once (hH : CollisionFree P.sha256) (challengeOf : Bytes → Option String)
    {calls : List Call} (hchecked : Along (step P) (Checked challengeOf) .new calls) :
    (∀ p c a, p ++ [.authenticateFinish c a] <+: calls → Accepts P (exec (step P) .new p) c a →
      ∃ o, (exec (step P) .new p).challenges c.challenge = some o ∧ o.session = c.session ∧
        o.cell = c.cell ∧
        challengeOf a.clientDataJson = some (Lib.Base64.encode o.challenge)) ∧
    ∀ credentialId authenticatorData clientDataJson signature,
      AtMostOnce (step P) (AcceptsTriple P credentialId authenticatorData clientDataJson signature)
        .new calls := by
  have hrun : Throughout (step P) (Outstanding P) .new calls :=
    throughout_of_along (C := Checked challengeOf) (fun _ _ h hc => h.step hc)
      (fun _ _ h => by cases h) hchecked
  constructor
  · intro p c a hp haccept
    obtain ⟨⟨o, ho, hchallenge, hsession, hcell⟩, -⟩ :=
      haccept.spent (hrun p ((List.prefix_append _ _).trans hp))
    have hnamed := hchecked p _ hp
    exact ⟨o, ho, hsession, hcell, by rw [hchallenge]; exact hnamed⟩
  · rintro credentialId authenticatorData clientDataJson signature p _ q rfl
      ⟨c, a, rfl, haccept, -, -, rfl, -⟩ ⟨p', _, q', rfl, c', a', rfl, ⟨unlock, hunlock⟩, -, -,
        hjson, -⟩
    obtain ⟨hbefore, hafter⟩ := along_append.1 hchecked
    obtain ⟨hnamed, hafter⟩ := along_cons.1 hafter
    obtain ⟨hbetween, hlast⟩ := along_append.1 hafter
    have hnamed' := (along_cons.1 hlast).1
    -- both name one challenge, which is spent after the first
    have hsame : c.challenge = c'.challenge := by
      refine Lib.Base64.encode_injective (Option.some.inj ?_)
      rw [← hnamed, ← hnamed', hjson]
    have hspent : Throughout (step P) (Spent P c.challenge) _ p' :=
      throughout_of_along (C := Checked challengeOf) (fun _ _ h hc => h.step hH hc)
        (haccept.spent (hrun p (List.prefix_append _ _))).2 hbetween
    have hnone := (hspent p' List.prefix_rfl).2
    rcases RelyingParty.authenticateFinish_cases (P := P) (c := c') (a := a') with
      ⟨e, h⟩ | ⟨o, record, count, _, ho, -⟩
    · rw [h] at hunlock
      cases hunlock
    · rw [← hsame, hnone] at ho
      cases ho

/-! ## An assertion that is presented again -/

/-- A signature that repeats the key and the message, digests that repeat their input, and
attestations that are only authenticator data. -/
def plain : Primitives where
  sha256 := tableDigest []
  readMap b := some [(some "authData", some b)]
  validateAttestedCoseKey _ := .ok ()
  verifyCose key message signature :=
    if signature = key ++ message then .ok () else .error .verificationFailed
  deriveUnlockSecret _ _ := .error .invalidLength

def record : CredentialRecord := ⟨[1], [7], [], 0, "u", "c", "", "", 0, none⟩

def twoChallenges : List Call :=
  [.restoreCredential record, .begin "s" "c" 0 60, .begin "s" "c" 0 60]

def waiting : RelyingParty := exec (step plain) .new twoChallenges

def answering (n : UInt64) : Ceremony := ⟨"s", "c", 0, mint plain n 0 "s" "c"⟩

def counting (count : UInt8) (clientDataJson : Bytes) : Assertion :=
  ⟨0, [1], List.replicate 36 0 ++ [count], clientDataJson,
    [7] ++ ((List.replicate 36 0 ++ [count]) ++ plain.sha256 clientDataJson), []⟩

def assertion (clientDataJson : Bytes) : Assertion := counting 0 clientDataJson

def firstChallenge : Bytes := utf8 (Lib.Base64.encode (answering 1).challenge)

def noChallenge : Bytes := utf8 "\x7b\x7d"

theorem accepts_iff {c : Ceremony} {a : Assertion} :
    Accepts P rp c a ↔ (rp.authenticateFinish P c a).2.isOk = true := by
  rw [Accepts]
  cases (rp.authenticateFinish P c a).2 <;> simp [Except.isOk, Except.toBool]

/-- The assertion is accepted, and not again with its challenge. -/
theorem first_challenge_once :
    Accepts plain waiting (answering 1) (assertion firstChallenge) ∧
      ¬ Ever (step plain)
        (AcceptsTriple plain [1] (assertion firstChallenge).authenticatorData firstChallenge
          (assertion firstChallenge).signature)
        (step plain waiting (.authenticateFinish (answering 1) (assertion firstChallenge)))
        [.authenticateFinish (answering 1) (assertion firstChallenge)] := by
  have haccept : Accepts plain waiting (answering 1) (assertion firstChallenge) :=
    accepts_iff.2 (by decide +kernel)
  refine ⟨haccept, ?_⟩
  let again : List Call := [.authenticateFinish (answering 1) (assertion firstChallenge),
    .authenticateFinish (answering 1) (assertion firstChallenge)]
  have hchecked : Along (step plain) (Checked fun json =>
      if json = firstChallenge then some (Lib.Base64.encode (answering 1).challenge) else none)
      .new (twoChallenges ++ again) :=
    along_cons.2 ⟨trivial, along_cons.2 ⟨show 0 + 1 < 2 ^ 64 by decide,
      along_cons.2 ⟨show 1 + 1 < 2 ^ 64 by decide, along_cons.2 ⟨if_pos rfl,
        along_cons.2 ⟨if_pos rfl, along_nil⟩⟩⟩⟩⟩
  exact (assertion_good_once tableDigest_nil_collisionFree _ hchecked).2 [1] _ firstChallenge
    (assertion firstChallenge).signature _ _ _ rfl ⟨_, _, rfl, haccept, rfl, rfl, rfl, rfl⟩

/-- One assertion, which does not name a challenge, is accepted for two of them: whatever is read
from its client data, it is not both. -/
theorem assertion_replayed :
    Accepts plain waiting (answering 1) (assertion noChallenge) ∧
    Accepts plain (step plain waiting (.authenticateFinish (answering 1) (assertion noChallenge)))
      (answering 2) (assertion noChallenge) ∧
    ∀ challengeOf : Bytes → Option String,
      ¬ (challengeOf noChallenge = some (Lib.Base64.encode (answering 1).challenge) ∧
        challengeOf noChallenge = some (Lib.Base64.encode (answering 2).challenge)) := by
  refine ⟨accepts_iff.2 (by decide +kernel), accepts_iff.2 (by decide +kernel), ?_⟩
  rintro challengeOf ⟨h₁, h₂⟩
  have hsame := Lib.Base64.encode_injective (Option.some.inj (h₁.symm.trans h₂))
  exact absurd (mint_inj tableDigest_nil_collisionFree hsame) (by decide)

end Pillar.WebAuthn
