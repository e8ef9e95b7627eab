import Pillar.WebAuthn.Assertions

/-!
# Credential records over time

Records are written by registration, by an assertion, and by the replay of a journal after a
restart, each under the id of the credential alone.

* `step_records` — **what a call does to the records**: it writes one that is not revoked, or takes
  one away for good.
* `records_move_forward` — **a record keeps its user and its count does not go back**, if nobody
  registers an id again and no assertion without a count is accepted against one that counts.
-/

namespace Pillar.WebAuthn

open Lib.Runs

variable {P : Primitives} {rp : RelyingParty} {call : Call} {id : Bytes}

def Follows (rp : RelyingParty) (id : Bytes) (record : CredentialRecord) : Prop :=
  ∀ r, rp.records id = some r →
    record.userHandle = r.userHandle ∧ r.signCount ≤ record.signCount

/-- Who registers or restores an id again keeps its user and does not lower its count, and an
assertion without a count is presented only where none is stored. -/
def Forward (P : Primitives) (rp : RelyingParty) : Call → Prop
  | .registerFinish c r => (rp.consumeChallenge c).2 = .ok () →
      ∀ k, parseAttestation P r.attestationObject = .ok k →
      ∀ old, rp.records k.credentialId = some old →
        r.userHandle = old.userHandle ∧ old.signCount ≤ k.signCount
  | .restoreCredential record => Follows rp record.credentialId record
  | .authenticateFinish _ a => ∀ r, rp.records a.credentialId = some r →
      verifyAssertion P r.cosePublicKey a.authenticatorData a.clientDataJson a.signature = .ok 0 →
      r.signCount = 0
  | _ => True

def Fenced (rp : RelyingParty) : Prop := ∀ id ∈ rp.revoked, rp.records id = none

variable {r : CredentialRecord}

theorem Fenced.not_mem (h : Fenced rp) (hr : rp.records id = some r) : id ∉ rp.revoked := by
  intro hid
  rw [h id hid] at hr
  cases hr

theorem Follows.of_eq {record : CredentialRecord} (hr : rp.records id = some r)
    (huser : record.userHandle = r.userHandle) (hcount : r.signCount ≤ record.signCount) :
    Follows rp id record := by
  intro r' hr'
  obtain rfl := Option.some.inj (hr.symm.trans hr')
  exact ⟨huser, hcount⟩

theorem CredentialRecord.le_used {count usedAt : ℕ} (h : count ≠ 0 → r.signCount < count) :
    r.signCount ≤ (r.used count usedAt).signCount := by
  rw [CredentialRecord.used]
  dsimp only
  split_ifs with hcount
  · exact (h hcount).le
  · exact le_rfl

/-- What a call does to the records: nothing, it writes one whose id is not revoked, or it revokes
one. -/
inductive Effect (rp rp' : RelyingParty) (forward : Prop) : Prop
  | same (hrecords : rp'.records = rp.records) (hrevoked : rp'.revoked = rp.revoked)
  | written (id : Bytes) (record : CredentialRecord) (hid : id ∉ rp.revoked)
      (hrecords : rp'.records = Function.update rp.records id (some record))
      (hrevoked : rp'.revoked = rp.revoked) (hfollows : forward → Follows rp id record)
  | gone (id : Bytes) (hrecords : rp'.records = Function.update rp.records id none)
      (hrevoked : rp'.revoked = insert id rp.revoked)

theorem step_records (P : Primitives) (h : Fenced rp) (call : Call) :
    Effect rp (step P rp call) (Forward P rp call) := by
  cases call with
  | begin session cell now ttlSecs => exact .same rfl rfl
  | registerFinish c r =>
    rw [step]
    rcases rp.registerFinish_cases (P := P) (c := c) r with ⟨e, heq⟩ | ⟨record, hgood, hrecord, heq⟩
    · rw [heq]
      exact .same rfl rfl
    · obtain ⟨hid, k, hk, hcredential, hcount, huser⟩ := RelyingParty.newRecord_eq_ok hrecord
      have hfollows : Forward P rp (.registerFinish c r) → Follows rp record.credentialId record :=
        fun hforward old hold => huser ▸ hcount ▸ hforward hgood k hk old (hcredential ▸ hold)
      rw [heq]
      exact .written _ record hid rfl rfl hfollows
  | authenticateFinish c a =>
    rw [step]
    rcases rp.authenticateFinish_cases (P := P) (c := c) (a := a) with
      ⟨e, heq⟩ | ⟨o, r, count, unlock, -, -, -, hid, hr, -, hcount, heq⟩
    · rw [heq]
      exact .same rfl rfl
    · rw [heq]
      exact .written _ _ hid rfl rfl fun _ => .of_eq hr rfl (CredentialRecord.le_used hcount)
  | revoke id => exact .gone id rfl rfl
  | restoreCredential record =>
    rw [step, RelyingParty.restoreCredential]
    split_ifs with hid
    · exact .same rfl rfl
    · exact .written _ record hid rfl rfl fun hforward => hforward
  | touchCredential id signCount lastUsedAt =>
    rw [step, RelyingParty.touchCredential]
    cases hr : rp.records id with
    | none => exact .same rfl rfl
    | some r =>
      exact .written id _ (h.not_mem hr) rfl rfl fun _ => .of_eq hr rfl (le_max_left _ _)
  | renameCredential userHandle id label =>
    rw [step, RelyingParty.renameCredential]
    cases hr : rp.records id with
    | none => exact .same rfl rfl
    | some r =>
      dsimp only
      split_ifs
      · exact .written id _ (h.not_mem hr) rfl rfl fun _ => .of_eq hr rfl le_rfl
      · exact .same rfl rfl

theorem mem_revoked_step (h : Fenced rp) (call : Call) (hid : id ∈ rp.revoked) :
    id ∈ (step P rp call).revoked := by
  cases step_records P h call with
  | same _ hrevoked | written _ _ _ _ hrevoked _ => rwa [hrevoked]
  | gone _ _ hrevoked =>
    rw [hrevoked]
    exact Finset.mem_insert_of_mem hid

theorem Fenced.step (h : Fenced rp) (call : Call) : Fenced (step P rp call) := by
  intro id hid
  cases step_records P h call with
  | same hrecords hrevoked =>
    rw [hrecords]
    exact h id (hrevoked ▸ hid)
  | written id' record hlive hrecords hrevoked _ =>
    rw [hrevoked] at hid
    have hne : id ≠ id' := by
      rintro rfl
      exact hlive hid
    rw [hrecords, Function.update_of_ne hne]
    exact h id hid
  | gone id' hrecords hrevoked =>
    rw [hrecords]
    by_cases heq : id = id'
    · rw [heq, Function.update_self]
    · rw [Function.update_of_ne heq]
      rw [hrevoked, Finset.mem_insert] at hid
      exact h id (hid.resolve_left heq)

/-- **A record that is not revoked is followed by one of its user that counts on.** -/
theorem records_step (h : Fenced rp) (hforward : Forward P rp call) (hr : rp.records id = some r)
    (hid : id ∉ (step P rp call).revoked) :
    ∃ r', (step P rp call).records id = some r' ∧ r'.userHandle = r.userHandle ∧
      r.signCount ≤ r'.signCount := by
  cases step_records P h call with
  | same hrecords _ => exact ⟨r, by rw [hrecords, hr], rfl, le_rfl⟩
  | written id' record _ hrecords _ hfollows =>
    by_cases heq : id = id'
    · subst heq
      exact ⟨record, by rw [hrecords, Function.update_self], hfollows hforward r hr⟩
    · exact ⟨r, by rw [hrecords, Function.update_of_ne heq, hr], rfl, le_rfl⟩
  | gone id' hrecords hrevoked =>
    rw [hrevoked, Finset.mem_insert, not_or] at hid
    exact ⟨r, by rw [hrecords, Function.update_of_ne hid.1, hr], rfl, le_rfl⟩

theorem Fenced.exec (h : Fenced rp) (q : List Call) :
    Fenced (Lib.Runs.exec (WebAuthn.step P) rp q) :=
  exec_inv (fun _ call h => h.step call) h q

theorem mem_revoked_exec (h : Fenced rp) (hid : id ∈ rp.revoked) (q : List Call) :
    id ∈ (exec (step P) rp q).revoked :=
  (exec_inv (I := fun rp => Fenced rp ∧ id ∈ rp.revoked)
    (fun _ call h => ⟨h.1.step call, mem_revoked_step h.1 call h.2⟩) ⟨h, hid⟩ q).2

theorem records_exec (h : Fenced rp) {q : List Call} (hforward : Along (step P) (Forward P) rp q)
    (hr : rp.records id = some r) (hid : id ∉ (exec (step P) rp q).revoked) :
    ∃ r', (exec (step P) rp q).records id = some r' ∧ r'.userHandle = r.userHandle ∧
      r.signCount ≤ r'.signCount := by
  induction q generalizing rp r with
  | nil => exact ⟨r, hr, rfl, le_rfl⟩
  | cons call q ih =>
    obtain ⟨hcall, hq⟩ := along_cons.1 hforward
    obtain ⟨r₁, hr₁, huser₁, hcount₁⟩ :=
      records_step h hcall hr fun hmem => hid (mem_revoked_exec (h.step call) hmem q)
    obtain ⟨r', hr', huser, hcount⟩ := ih (h.step call) hq hr₁ hid
    exact ⟨r', hr', huser.trans huser₁, hcount₁.trans hcount⟩

theorem fenced_new : Fenced .new := fun _ h => absurd h (Finset.notMem_empty _)

/-- **Records move forward, if nobody registers over them.** -/
theorem records_move_forward (P : Primitives) (calls : List Call) :
    (Along (step P) (Forward P) .new calls →
      (∀ p q id r, p ++ q <+: calls → (exec (step P) .new p).records id = some r →
        id ∉ (exec (step P) .new (p ++ q)).revoked →
        (∃ r', (exec (step P) .new (p ++ q)).records id = some r' ∧ r.signCount ≤ r'.signCount) ∧
          ∀ user, (exec (step P) .new p).userOwnsCredential user id = true →
            (exec (step P) .new (p ++ q)).userOwnsCredential user id = true) ∧
      ∀ p c a r count, p ++ [.authenticateFinish c a] <+: calls →
        (exec (step P) .new p).records a.credentialId = some r →
        verifyAssertion P r.cosePublicKey a.authenticatorData a.clientDataJson a.signature =
          .ok count →
        Accepts P (exec (step P) .new p) c a → r.signCount < count ∨ r.signCount = 0) ∧
    ∀ p q id, p ++ .revoke id :: q <+: calls →
      (exec (step P) .new (p ++ .revoke id :: q)).records id = none ∧
      ∀ c a, a.credentialId = id → ¬ Accepts P (exec (step P) .new (p ++ .revoke id :: q)) c a := by
  refine ⟨fun hforward => ⟨?_, ?_⟩, ?_⟩
  · intro p q id r hpq hr hid
    rw [exec_append] at hid ⊢
    obtain ⟨r', hr', huser, hcount⟩ :=
      records_exec (fenced_new.exec p) (hforward.between hpq) hr hid
    refine ⟨⟨r', hr', hcount⟩, fun user howns => ?_⟩
    simp only [RelyingParty.userOwnsCredential, hr, hr', Option.any_some, huser] at howns ⊢
    exact howns
  · rintro p c a r count hp hr hverify ⟨unlock, hunlock⟩
    rcases RelyingParty.authenticateFinish_cases (P := P) (c := c) (a := a) with
      ⟨e, h⟩ | ⟨o, r', count', _, -, -, -, -, hr', hverify', hcount, -⟩
    · rw [h] at hunlock
      cases hunlock
    · obtain rfl := Option.some.inj (hr.symm.trans hr')
      obtain rfl := Except.ok.inj (hverify.symm.trans hverify')
      by_cases hzero : count = 0
      · exact .inr (hforward p _ hp r hr (hzero ▸ hverify))
      · exact .inl (hcount hzero)
  · intro p q id _
    have hfenced : Fenced (exec (step P) .new (p ++ .revoke id :: q)) := fenced_new.exec _
    have hid : id ∈ (exec (step P) .new (p ++ .revoke id :: q)).revoked := by
      rw [exec_append, exec_cons]
      exact mem_revoked_exec ((fenced_new.exec p).step _) (Finset.mem_insert_self _ _) q
    refine ⟨hfenced id hid, ?_⟩
    rintro c a rfl ⟨unlock, hunlock⟩
    rcases RelyingParty.authenticateFinish_cases (P := P) (c := c) (a := a) with
      ⟨e, h⟩ | ⟨o, r, count, _, -, -, -, hlive, -⟩
    · rw [h] at hunlock
      cases hunlock
    · exact hlive hid

/-! ## A credential that is registered again -/

def registration (user : String) (count : UInt8) : Registration :=
  ⟨0, List.replicate 32 0 ++ [0x40, 0, 0, 0, count] ++ (List.replicate 16 0 ++ [0, 1, 1, 7]), [],
    user, "", ""⟩

/-- A registration for `u` with the count 5, and a further challenge. -/
def registering : List Call :=
  [.begin "s" "c" 0 60, .registerFinish (answering 1) (registration "u" 5), .begin "s" "c" 0 60]

def userAndCount (calls : List Call) : Option (String × ℕ) :=
  ((exec (step plain) .new calls).records [1]).map fun r => (r.userHandle, r.signCount)

/-- A count that goes up, and a credential that is revoked. -/
theorem count_goes_up :
    userAndCount (registering ++ [.authenticateFinish (answering 2) (counting 6 [])]) =
        some ("u", 6) ∧
      (exec (step plain) .new (registering ++
        [.authenticateFinish (answering 2) (counting 6 [])])).userOwnsCredential "u" [1] = true ∧
      (exec (step plain) .new (registering ++ [.revoke [1]])).records [1] = none := by
  refine ⟨by decide +kernel, ?_, ?_⟩
  · have hforward : Along (step plain) (Forward plain) .new
        (registering ++ [.authenticateFinish (answering 2) (counting 6 [])]) := by
      refine along_cons.2 ⟨trivial, along_cons.2 ⟨fun _ k _ r hr => ?_, along_cons.2 ⟨trivial,
        along_cons.2 ⟨fun r hr hzero => ?_, along_nil⟩⟩⟩⟩
      · cases hr
      · cases hr
        exact absurd hzero (by decide +kernel)
    refine (((records_move_forward plain _).1 hforward).1 registering _ [1] _ List.prefix_rfl rfl
      (by decide +kernel)).2 "u" (by decide +kernel)
  · exact ((records_move_forward plain (registering ++ [.revoke [1]])).2 registering [] [1]
      List.prefix_rfl).1

/-- The id is registered for another user: it is theirs, and its count starts again. -/
theorem records_move_back :
    userAndCount registering = some ("u", 5) ∧
    userAndCount (registering ++ [.registerFinish (answering 2) (registration "v" 0)]) =
      some ("v", 0) ∧
    verifyAssertion plain [7] (counting 0 []).authenticatorData [] (counting 0 []).signature =
      .ok 0 ∧
    Accepts plain (exec (step plain) .new registering) (answering 2) (counting 0 []) := by
  refine ⟨by decide +kernel, by decide +kernel, by decide +kernel, accepts_iff.2 (by decide +kernel)⟩

end Pillar.WebAuthn
