import Pillar.Crypto
import Pillar.Lib.Frames

/-!
# The relying party

`pillar-web`'s side of a WebAuthn ceremony: it hands out challenges that may be used once, keeps a
record for each credential, and checks assertions against the records.
-/

namespace Pillar.WebAuthn

open Lib.Compare Lib.Readers

/-! ## Authenticators -/

inductive CryptoError where
  | invalidLength
  | invalidKey
  | verificationFailed
  deriving DecidableEq

/-- The libraries below: SHA-256, the reader of CBOR, the keys and signatures of COSE, and HKDF. -/
structure Primitives where
  sha256 : Bytes → Bytes
  /-- The entries of a CBOR map: the keys that are texts, and the values that are byte strings. -/
  readMap : Bytes → Option (List (Option String × Option Bytes))
  validateAttestedCoseKey : Bytes → Except CryptoError Unit
  /-- Verify a signature over a message under a key of any of the supported algorithms. -/
  verifyCose : Bytes → Bytes → Bytes → Except CryptoError Unit
  deriveUnlockSecret : Bytes → Bytes → Except CryptoError Bytes

structure AuthenticatorData where
  rpIdHash : Bytes
  flags : UInt8
  signCount : ℕ

def parseAuthenticatorData (b : Bytes) : Except CryptoError (AuthenticatorData × Bytes) :=
  match b.take 32, b.drop 32 with
  | rpIdHash, flags :: c₀ :: c₁ :: c₂ :: c₃ :: rest =>
    .ok (⟨rpIdHash, flags, beNat [c₀, c₁, c₂, c₃]⟩, rest)
  | _, _ => .error .invalidLength

structure RegisteredCredential where
  credentialId : Bytes
  cosePublicKey : Bytes
  signCount : ℕ
  aaguid : Bytes

/-- The credential behind the header: the authenticator's id, the length of the credential's id in
two bytes, that id, and the key. -/
def attestedCredential (rest : Bytes) : Option (Bytes × Bytes × Bytes) := do
  let (aaguid, rest) ← takeBytes 16 rest
  let (length, rest) ← takeBe 2 rest
  let (credentialId, cose) ← takeBytes length rest
  return (aaguid, credentialId, cose)

/-- The credential that an attestation object is about. -/
def parseAttestation (P : Primitives) (attestationObject : Bytes) :
    Except CryptoError RegisteredCredential := do
  let some entries := P.readMap attestationObject | .error .invalidLength
  -- the last entry of that name counts
  let some authData := (entries.filter (·.1 = some "authData")).getLast?.bind Prod.snd
    | .error .invalidLength
  let (header, rest) ← parseAuthenticatorData authData
  if header.flags &&& 0x40 = 0 then .error .invalidLength
  let some (aaguid, credentialId, cose) := attestedCredential rest | .error .invalidLength
  P.validateAttestedCoseKey cose
  return ⟨credentialId, cose, header.signCount, aaguid⟩

def verifyAssertion (P : Primitives) (cose authenticatorData clientDataJson signature : Bytes) :
    Except CryptoError ℕ := do
  let (header, _) ← parseAuthenticatorData authenticatorData
  P.verifyCose cose (authenticatorData ++ P.sha256 clientDataJson) signature
  return header.signCount

/-! ## The relying party -/

inductive RpError where
  | staleChallenge
  | challengeBinding
  | unknownCredential
  | revoked
  | signCountRegression
  | crypto (e : CryptoError)
  deriving DecidableEq

structure OutstandingChallenge where
  challenge : Bytes
  session : String
  cell : String
  expiresAt : ℕ

structure CredentialRecord where
  credentialId : Bytes
  cosePublicKey : Bytes
  prfSalt : Bytes
  signCount : ℕ
  userHandle : String
  cell : String
  label : String
  rpId : String
  createdAt : ℕ
  lastUsedAt : Option ℕ

/-- Open challenges, the credentials, and those that are revoked. -/
structure RelyingParty where
  challenges : Bytes → Option OutstandingChallenge
  records : Bytes → Option CredentialRecord
  revoked : Finset Bytes
  nonceSeq : UInt64

/-- What both ceremonies present: a challenge, for a session and a cell, at a time. -/
structure Ceremony where
  session : String
  cell : String
  now : UInt64
  challenge : Bytes

/-- The rest of what a registration presents. -/
structure Registration where
  createdAt : ℕ
  attestationObject : Bytes
  prfSalt : Bytes
  userHandle : String
  label : String
  rpId : String

/-- The rest of what an authentication presents. -/
structure Assertion where
  usedAt : ℕ
  credentialId : Bytes
  authenticatorData : Bytes
  clientDataJson : Bytes
  signature : Bytes
  prfOutput : Bytes

def mint (P : Primitives) (nonce now : UInt64) (session cell : String) : Bytes :=
  (contentAddress P.sha256 (utf8 "pillar-webauthn/challenge-v1" ++
    ((beBytes 8 nonce.toNat).reverse ++ ((beBytes 8 now.toNat).reverse ++
      (utf8 session ++ utf8 cell))))).bytes

def CredentialRecord.used (record : CredentialRecord) (count usedAt : ℕ) :
    CredentialRecord :=
  { record with
    signCount := if count ≠ 0 then count else record.signCount
    lastUsedAt := some usedAt }

namespace RelyingParty

def new : RelyingParty := ⟨fun _ => none, fun _ => none, ∅, 0⟩

variable (P : Primitives) (rp : RelyingParty)

def begin (session cell : String) (now ttlSecs : UInt64) : Bytes × RelyingParty :=
  let challenge := mint P (rp.nonceSeq + 1) now session cell
  (challenge, { rp with
    nonceSeq := rp.nonceSeq + 1
    challenges := Function.update rp.challenges challenge
      (some ⟨challenge, session, cell, min (now.toNat + ttlSecs.toNat) (2 ^ 64 - 1)⟩) })

/-- The challenge is gone, whether or not it is good. -/
def consumeChallenge (c : Ceremony) : RelyingParty × Except RpError Unit :=
  ({ rp with challenges := Function.update rp.challenges c.challenge none },
    match rp.challenges c.challenge with
    | none => .error .staleChallenge
    | some o =>
      if o.expiresAt < c.now.toNat then .error .staleChallenge
      else if o.session ≠ c.session ∨ o.cell ≠ c.cell then .error .challengeBinding
      else .ok ())

def newRecord (c : Ceremony) (r : Registration) : Except RpError CredentialRecord :=
  match parseAttestation P r.attestationObject with
  | .error e => .error (.crypto e)
  | .ok k =>
    if k.credentialId ∈ rp.revoked then .error .revoked
    else .ok ⟨k.credentialId, k.cosePublicKey, r.prfSalt, k.signCount, r.userHandle, c.cell,
      r.label, r.rpId, r.createdAt, none⟩

/-- The challenge is used up, and a new credential recorded under its id. -/
def registerFinish (c : Ceremony) (r : Registration) :
    RelyingParty × Except RpError CredentialRecord :=
  match rp.consumeChallenge c with
  | (rp, .error e) => (rp, .error e)
  | (rp, .ok ()) =>
    match rp.newRecord P c r with
    | .error e => (rp, .error e)
    | .ok record =>
      ({ rp with records := Function.update rp.records record.credentialId (some record) },
        .ok record)

/-- The secret that unlocks the operational key, if the authenticator has one. -/
def unlockSecret (a : Assertion) : Except RpError (Option Bytes) :=
  if a.prfOutput = [] then .ok none
  else ((P.deriveUnlockSecret a.prfOutput a.credentialId).map some).mapError .crypto

/-- An assertion is checked: the record, the count and the unlock secret, if there is one. -/
def checkAssertion (a : Assertion) : Except RpError (CredentialRecord × ℕ × Option Bytes) :=
  if a.credentialId ∈ rp.revoked then .error .revoked
  else
    match rp.records a.credentialId with
    | none => .error .unknownCredential
    | some record =>
      match verifyAssertion P record.cosePublicKey a.authenticatorData a.clientDataJson
          a.signature with
      | .error e => .error (.crypto e)
      | .ok count =>
        if count ≠ 0 ∧ count ≤ record.signCount then .error .signCountRegression
        else (unlockSecret P a).map fun unlock => (record, count, unlock)

/-- The challenge is used up, and the record brought up to date if the assertion is good. -/
def authenticateFinish (c : Ceremony) (a : Assertion) :
    RelyingParty × Except RpError (Option Bytes) :=
  match rp.consumeChallenge c with
  | (rp, .error e) => (rp, .error e)
  | (rp, .ok ()) =>
    match rp.checkAssertion P a with
    | .error e => (rp, .error e)
    | .ok (record, count, unlock) =>
      ({ rp with
        records := Function.update rp.records a.credentialId (some (record.used count a.usedAt)) },
        .ok unlock)

def revoke (credentialId : Bytes) : RelyingParty :=
  { rp with
    records := Function.update rp.records credentialId none
    revoked := insert credentialId rp.revoked }

def restoreCredential (record : CredentialRecord) : RelyingParty :=
  if record.credentialId ∈ rp.revoked then rp
  else { rp with records := Function.update rp.records record.credentialId (some record) }

def touchCredential (credentialId : Bytes) (signCount lastUsedAt : ℕ) : RelyingParty :=
  match rp.records credentialId with
  | none => rp
  | some record =>
    { rp with
      records := Function.update rp.records credentialId (some { record with
        signCount := max record.signCount signCount
        lastUsedAt := some (record.lastUsedAt.elim lastUsedAt (max · lastUsedAt)) }) }

def userOwnsCredential (userHandle : String) (credentialId : Bytes) : Bool :=
  (rp.records credentialId).any (·.userHandle = userHandle)

def renameCredential (userHandle : String) (credentialId : Bytes) (label : String) :
    RelyingParty × Bool :=
  match rp.records credentialId with
  | none => (rp, false)
  | some record =>
    if rp.userOwnsCredential userHandle credentialId then
      ({ rp with
        records := Function.update rp.records credentialId (some { record with label := label }) },
        true)
    else (rp, false)

end RelyingParty

inductive Call where
  | begin (session cell : String) (now ttlSecs : UInt64)
  | registerFinish (c : Ceremony) (r : Registration)
  | authenticateFinish (c : Ceremony) (a : Assertion)
  | revoke (credentialId : Bytes)
  | restoreCredential (record : CredentialRecord)
  | touchCredential (credentialId : Bytes) (signCount lastUsedAt : ℕ)
  | renameCredential (userHandle : String) (credentialId : Bytes) (label : String)

def step (P : Primitives) (rp : RelyingParty) : Call → RelyingParty
  | .begin session cell now ttlSecs => (rp.begin P session cell now ttlSecs).2
  | .registerFinish c r => (rp.registerFinish P c r).1
  | .authenticateFinish c a => (rp.authenticateFinish P c a).1
  | .revoke credentialId => rp.revoke credentialId
  | .restoreCredential record => rp.restoreCredential record
  | .touchCredential credentialId signCount lastUsedAt =>
    rp.touchCredential credentialId signCount lastUsedAt
  | .renameCredential userHandle credentialId label =>
    (rp.renameCredential userHandle credentialId label).1

/-! ## What the ceremonies do -/

namespace RelyingParty

variable {P : Primitives} {rp : RelyingParty} {c : Ceremony} {a : Assertion}

theorem consumeChallenge_eq_ok (h : (rp.consumeChallenge c).2 = .ok ()) :
    ∃ o, rp.challenges c.challenge = some o ∧ o.session = c.session ∧ o.cell = c.cell := by
  cases ho : rp.challenges c.challenge with
  | none => simp [consumeChallenge, ho] at h
  | some o =>
    simp only [consumeChallenge, ho] at h
    split_ifs at h with hexpired hbound
    push Not at hbound
    exact ⟨o, rfl, hbound⟩

theorem newRecord_eq_ok {r : Registration} {record : CredentialRecord}
    (h : rp.newRecord P c r = .ok record) : record.credentialId ∉ rp.revoked ∧
      ∃ k, parseAttestation P r.attestationObject = .ok k ∧
        k.credentialId = record.credentialId ∧ k.signCount = record.signCount ∧
        r.userHandle = record.userHandle := by
  rw [newRecord] at h
  cases hparse : parseAttestation P r.attestationObject with
  | error e => simp [hparse] at h
  | ok k =>
    simp only [hparse] at h
    split_ifs at h with hrevoked
    rw [← Except.ok.inj h]
    exact ⟨hrevoked, k, rfl, rfl, rfl, rfl⟩

/-- **A registration with a good challenge writes the new record.** -/
theorem registerFinish_cases (r : Registration) :
    (∃ e, rp.registerFinish P c r = ((rp.consumeChallenge c).1, .error e)) ∨
      ∃ record, (rp.consumeChallenge c).2 = .ok () ∧
        (rp.consumeChallenge c).1.newRecord P c r = .ok record ∧ rp.registerFinish P c r =
        ({ (rp.consumeChallenge c).1 with
          records := Function.update rp.records record.credentialId (some record) },
          .ok record) := by
  rw [registerFinish]
  rcases hconsume : rp.consumeChallenge c with ⟨rp', e | u⟩
  · exact .inl ⟨e, rfl⟩
  · obtain rfl : (rp.consumeChallenge c).1 = rp' := congrArg Prod.fst hconsume
    cases hrecord : (rp.consumeChallenge c).1.newRecord P c r with
    | error e => exact .inl ⟨e, by simp [hrecord]⟩
    | ok record => exact .inr ⟨record, rfl, rfl, by simp [hrecord]; rfl⟩

theorem checkAssertion_eq_ok {record : CredentialRecord} {count : ℕ} {unlock : Option Bytes}
    (h : rp.checkAssertion P a = .ok (record, count, unlock)) :
    a.credentialId ∉ rp.revoked ∧ rp.records a.credentialId = some record ∧
      verifyAssertion P record.cosePublicKey a.authenticatorData a.clientDataJson a.signature =
        .ok count ∧ (count ≠ 0 → record.signCount < count) := by
  rw [checkAssertion] at h
  by_cases hrevoked : a.credentialId ∈ rp.revoked
  · simp [hrevoked] at h
  rw [if_neg hrevoked] at h
  cases hr : rp.records a.credentialId with
  | none => simp [hr] at h
  | some r =>
    simp only [hr] at h
    cases hv : verifyAssertion P r.cosePublicKey a.authenticatorData a.clientDataJson
        a.signature with
    | error e => simp [hv] at h
    | ok n =>
      simp only [hv] at h
      split_ifs at h with hcount
      cases hs : unlockSecret P a with
      | error e => simp [hs, Except.map] at h
      | ok secret =>
        rw [hs] at h
        cases h
        exact ⟨hrevoked, rfl, hv, fun hne => not_le.1 fun hle => hcount ⟨hne, hle⟩⟩

/-- **An assertion is accepted against an outstanding challenge and the record of its credential.**
-/
theorem authenticateFinish_cases :
    (∃ e, rp.authenticateFinish P c a = ((rp.consumeChallenge c).1, .error e)) ∨
      ∃ o record count unlock, rp.challenges c.challenge = some o ∧ o.session = c.session ∧
        o.cell = c.cell ∧ a.credentialId ∉ rp.revoked ∧ rp.records a.credentialId = some record ∧
        verifyAssertion P record.cosePublicKey a.authenticatorData a.clientDataJson a.signature =
          .ok count ∧ (count ≠ 0 → record.signCount < count) ∧
        rp.authenticateFinish P c a = ({ (rp.consumeChallenge c).1 with
          records := Function.update rp.records a.credentialId
            (some (record.used count a.usedAt)) }, .ok unlock) := by
  rw [authenticateFinish]
  rcases hconsume : rp.consumeChallenge c with ⟨rp', e | u⟩
  · exact .inl ⟨e, rfl⟩
  · obtain ⟨o, ho, hsession, hcell⟩ := consumeChallenge_eq_ok (congrArg Prod.snd hconsume)
    obtain rfl : (rp.consumeChallenge c).1 = rp' := congrArg Prod.fst hconsume
    rcases hcheck : (rp.consumeChallenge c).1.checkAssertion P a with e | ⟨record, count, unlock⟩
    · exact .inl ⟨e, by simp [hcheck]⟩
    · obtain ⟨hrevoked, hrecord, hverify, hcount⟩ := checkAssertion_eq_ok hcheck
      exact .inr ⟨o, record, count, unlock, ho, hsession, hcell, hrevoked, hrecord, hverify, hcount,
        by simp [hcheck]; rfl⟩

end RelyingParty

def Accepts (P : Primitives) (rp : RelyingParty) (c : Ceremony) (a : Assertion) : Prop :=
  ∃ unlock, (rp.authenticateFinish P c a).2 = .ok unlock

end Pillar.WebAuthn
