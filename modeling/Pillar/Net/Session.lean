import Pillar.Crypto
import Pillar.Lib.Runs

/-!
# Session authorizations

`pillar-net`'s session store: the cell-signed records under which a node may derive and serve the
key of a session, and the revocations that stop it.

* `admitted`, `revokes` — what a call brings in, which no state of the store
  changes; `effect_step` says **all that a call can do**.
-/

namespace Pillar.Session

open Std Lib.Compare Lib.Runs

variable {H : Bytes → Bytes}

/-! ## Keys and errors -/

/-- What is used of the X25519 and HKDF crates. -/
structure KeyExchange where
  /-- The shared secret of a 32-byte secret and a 32-byte public key. -/
  diffieHellman : Bytes → Bytes → Bytes
  /-- HKDF-SHA256 to 32 bytes: salt, input key material, info. -/
  hkdf : Bytes → Bytes → Bytes → Bytes

/-- The faults of the store's operations. -/
inductive SessionError where
  | crypto (err : CryptoError)
  | badPrincipalSignature
  /-- The cell's signature over a record or a revocation does not verify. -/
  | badCellSignature
  | notAuthorized
  | revoked
  deriving DecidableEq

def x25519SharedSecret (X : KeyExchange) (secret peerPublic : Bytes) : Except CryptoError Bytes :=
  if secret.length = 32 ∧ peerPublic.length = 32 then .ok (X.diffieHellman secret peerPublic)
  else .error .invalidKey

def deriveSessionKey (X : KeyExchange) (sharedSecret clientNonce : Bytes) : Bytes :=
  X.hkdf clientNonce sharedSecret (utf8 "pillar-udp/session/v1")

def cellNodeSessionKey (X : KeyExchange) (cellStaticSk ephPk clientNonce : Bytes) :
    Except SessionError Bytes :=
  match x25519SharedSecret X cellStaticSk ephPk with
  | .ok shared => .ok (deriveSessionKey X shared clientNonce)
  | .error err => .error (.crypto err)

/-! ## Grants -/

inductive Grant where
  | communicate
  /-- Access to sensitive data and privileged operations. -/
  | privileged
  deriving DecidableEq

/-- The grants of a session's principal. -/
abbrev PolicySet := List Grant

def PolicySet.restricted : PolicySet := [.communicate]

def PolicySet.attested : PolicySet := [.communicate, .privileged]

def PolicySet.toWire (p : PolicySet) : Bytes :=
  p.map fun
    | .communicate => 1
    | .privileged => 2

/-- The grants of a principal, by whether it holds an attestation. -/
def grantsFor (isAttested : Bool) : PolicySet :=
  if isAttested then .attested else .restricted

/-! ## Inits and records -/

abbrev Cid := ContentId

structure SessionInit where
  principalPk : Bytes
  ephPk : Bytes
  clientNonce : Bytes
  principalSig : Bytes
  deriving DecidableEq

namespace SessionInit

def signingMaterial (ephPk clientNonce : Bytes) : Bytes :=
  utf8 "pillar-udp/session-init/v1" ++ ephPk ++ clientNonce

def verify (E : Ed25519) (init : SessionInit) : Except SessionError Unit :=
  match Pillar.verify E init.principalPk (signingMaterial init.ephPk init.clientNonce)
    init.principalSig with
  | .ok () => .ok ()
  | .error _ => .error .badPrincipalSignature

def sessionId (H : Bytes → Bytes) (init : SessionInit) : Cid :=
  contentAddress H (init.ephPk ++ init.clientNonce)

end SessionInit

/-- A session as the cell signed it. -/
structure SessionRecord where
  sessionId : Cid
  principalPk : Bytes
  ephPk : Bytes
  clientNonce : Bytes
  grants : PolicySet
  cellSig : Bytes
  deriving DecidableEq

namespace SessionRecord

def signingMaterial (sessionId : Cid) (principalPk ephPk clientNonce : Bytes)
    (grants : PolicySet) : Bytes :=
  utf8 "pillar-udp/session-record/v1" ++ sessionId.bytes ++ principalPk ++ ephPk ++ clientNonce ++
    grants.toWire

def verifyCellSig (E : Ed25519) (r : SessionRecord) (cellSigningPk : Bytes) :
    Except SessionError Unit :=
  match Pillar.verify E cellSigningPk
    (signingMaterial r.sessionId r.principalPk r.ephPk r.clientNonce r.grants) r.cellSig with
  | .ok () => .ok ()
  | .error _ => .error .badCellSignature

end SessionRecord

/-- The key material a cell node works with. -/
structure CellKeys where
  staticSk : Bytes
  signingSk : Bytes
  signingPk : Bytes

/-! ## The store -/

/-- Sessions and revocations as they converge. -/
structure SessionStore where
  records : ExtTreeMap Cid SessionRecord
  /-- The sessions with a converged revocation, and its signature. -/
  revoked : ExtTreeMap Cid Bytes

/-- The record that `authorize` makes: the init verified, the grants decided, and
the cell's signature added. -/
def mintRecord (H : Bytes → Bytes) (E : Ed25519) (init : SessionInit) (isAttested : Bool)
    (cell : CellKeys) : Except SessionError SessionRecord :=
  match init.verify E with
  | .error err => .error err
  | .ok () =>
    let grants := grantsFor isAttested
    let material := SessionRecord.signingMaterial (init.sessionId H) init.principalPk init.ephPk
      init.clientNonce grants
    match sign E cell.signingSk material with
    | .error err => .error (.crypto err)
    | .ok cellSig =>
      .ok ⟨init.sessionId H, init.principalPk, init.ephPk, init.clientNonce, grants, cellSig⟩

namespace SessionStore

def new : SessionStore := ⟨∅, ∅⟩

def orInsert (s : SessionStore) (r : SessionRecord) : SessionStore :=
  { s with records := s.records.insertIfNew r.sessionId r }

def authorize (H : Bytes → Bytes) (E : Ed25519) (s : SessionStore) (init : SessionInit)
    (isAttested : Bool) (cell : CellKeys) : SessionStore × Except SessionError SessionRecord :=
  match mintRecord H E init isAttested cell with
  | .error err => (s, .error err)
  | .ok record => (s.orInsert record, .ok record)

def converge (E : Ed25519) (s : SessionStore) (record : SessionRecord) (cellSigningPk : Bytes) :
    SessionStore × Except SessionError Unit :=
  match record.verifyCellSig E cellSigningPk with
  | .error err => (s, .error err)
  | .ok () => (s.orInsert record, .ok ())

def authorization (s : SessionStore) (sid : Cid) : Option SessionRecord :=
  if s.revoked.contains sid then none else s.records[sid]?

def serveKey (X : KeyExchange) (s : SessionStore) (sid : Cid) (cell : CellKeys) :
    Except SessionError Bytes :=
  if s.revoked.contains sid then .error .revoked
  else
    match s.records[sid]? with
    | none => .error .notAuthorized
    | some record => cellNodeSessionKey X cell.staticSk record.ephPk record.clientNonce

def grants (s : SessionStore) (sid : Cid) : Option PolicySet :=
  (s.authorization sid).map SessionRecord.grants

def revocationMaterial (sid : Cid) : Bytes := utf8 "pillar-udp/session-revoke/v1" ++ sid.bytes

def revoke (E : Ed25519) (s : SessionStore) (sid : Cid) (revocationSig cellSigningPk : Bytes) :
    SessionStore × Except SessionError Unit :=
  match verify E cellSigningPk (revocationMaterial sid) revocationSig with
  | .error _ => (s, .error .badCellSignature)
  | .ok () => ({ s with revoked := s.revoked.insert sid revocationSig }, .ok ())

def gcErase (s : SessionStore) (sid : Cid) : SessionStore × Bool :=
  if s.revoked.contains sid then
    (⟨s.records.erase sid, s.revoked.erase sid⟩, s.records.contains sid)
  else (s, false)

end SessionStore

/-! ## Calls -/

inductive Call where
  | authorize (init : SessionInit) (isAttested : Bool) (cell : CellKeys)
  | converge (record : SessionRecord) (cellSigningPk : Bytes)
  | revoke (sid : Cid) (revocationSig cellSigningPk : Bytes)
  | gcErase (sid : Cid)

def step (H : Bytes → Bytes) (E : Ed25519) (s : SessionStore) : Call → SessionStore
  | .authorize init isAttested cell => (s.authorize H E init isAttested cell).1
  | .converge record pk => (s.converge E record pk).1
  | .revoke sid sig pk => (s.revoke E sid sig pk).1
  | .gcErase sid => (s.gcErase sid).1

def admitted (H : Bytes → Bytes) (E : Ed25519) : Call → Option SessionRecord
  | .authorize init isAttested cell => (mintRecord H E init isAttested cell).toOption
  | .converge record pk => if (record.verifyCellSig E pk).isOk then some record else none
  | .revoke _ _ _ => none
  | .gcErase _ => none

def revokes (E : Ed25519) : Call → Option Cid
  | .revoke sid sig pk =>
    if (verify E pk (SessionStore.revocationMaterial sid) sig).isOk then some sid else none
  | _ => none

/-- All that a call can do to a store. -/
inductive Effect (H : Bytes → Bytes) (E : Ed25519) (s : SessionStore) (c : Call) :
    SessionStore → Prop
  | bringIn {r : SessionRecord} (hr : admitted H E c = some r) (hsid : revokes E c = none) :
      Effect H E s c (s.orInsert r)
  | revoke {sid : Cid} (sig : Bytes) (hr : admitted H E c = none) (hsid : revokes E c = some sid) :
      Effect H E s c { s with revoked := s.revoked.insert sid sig }
  | erase {sid : Cid} (hc : c = .gcErase sid) (hmark : sid ∈ s.revoked) :
      Effect H E s c ⟨s.records.erase sid, s.revoked.erase sid⟩
  | keep (hr : admitted H E c = none) (hsid : revokes E c = none) : Effect H E s c s

/-- **All that a call can do.** -/
theorem effect_step (H : Bytes → Bytes) (E : Ed25519) (s : SessionStore) (c : Call) :
    Effect H E s c (step H E s c) := by
  cases c with
  | authorize init isAttested cell =>
    rw [step, SessionStore.authorize]
    cases hmint : mintRecord H E init isAttested cell with
    | error err => exact .keep (by rw [admitted, hmint]; rfl) rfl
    | ok r => exact .bringIn (by rw [admitted, hmint]; rfl) rfl
  | converge record pk =>
    rw [step, SessionStore.converge]
    cases hverify : record.verifyCellSig E pk with
    | error err => exact .keep (by rw [admitted, hverify]; rfl) rfl
    | ok u => exact .bringIn (by rw [admitted, hverify]; rfl) rfl
  | revoke sid sig pk =>
    rw [step, SessionStore.revoke]
    cases hverify : verify E pk (SessionStore.revocationMaterial sid) sig with
    | error err => exact .keep rfl (by rw [revokes, hverify]; rfl)
    | ok u => exact .revoke sig rfl (by rw [revokes, hverify]; rfl)
  | gcErase sid =>
    rw [step, SessionStore.gcErase]
    split_ifs with hmark
    · exact .erase rfl (ExtTreeMap.contains_iff_mem.1 hmark)
    · exact .keep rfl rfl

/-! ## What the store holds of a session -/

theorem records_orInsert (s : SessionStore) (r : SessionRecord) (sid : Cid) :
    (s.orInsert r).records[sid]? =
      (s.records[sid]?).or (if r.sessionId = sid then some r else none) := by
  rw [SessionStore.orInsert, ExtTreeMap.getElem?_insertIfNew]
  simp only [LawfulEqCmp.compare_eq_iff_eq]
  by_cases hsid : r.sessionId = sid
  · subst hsid
    cases hheld : s.records[r.sessionId]? with
    | none =>
      have hnot : r.sessionId ∉ s.records := by
        rw [ExtTreeMap.mem_iff_isSome_getElem?, hheld]
        simp
      simp [hnot]
    | some r₀ =>
      have hmem : r.sessionId ∈ s.records := by
        rw [ExtTreeMap.mem_iff_isSome_getElem?, hheld]
        rfl
      simp [hmem]
  · simp [hsid]

theorem cellNodeSessionKey_isOk_iff {X : KeyExchange} {sk ephPk nonce : Bytes} :
    (cellNodeSessionKey X sk ephPk nonce).isOk = true ↔ sk.length = 32 ∧ ephPk.length = 32 := by
  rw [cellNodeSessionKey, x25519SharedSecret]
  by_cases hlen : sk.length = 32 ∧ ephPk.length = 32
  · rw [if_pos hlen]
    exact ⟨fun _ => hlen, fun _ => rfl⟩
  · rw [if_neg hlen]
    exact ⟨fun h => absurd h Bool.false_ne_true, fun h => absurd h hlen⟩

/-- **When a key is served.** -/
theorem serveKey_isOk_iff {X : KeyExchange} {s : SessionStore} {sid : Cid} {cell : CellKeys} :
    (s.serveKey X sid cell).isOk = true ↔
      ∃ r, s.authorization sid = some r ∧ cell.staticSk.length = 32 ∧ r.ephPk.length = 32 := by
  rw [SessionStore.serveKey, SessionStore.authorization]
  split_ifs with hmark
  · exact ⟨fun h => absurd h Bool.false_ne_true, by simp⟩
  · cases hheld : s.records[sid]? with
    | none => exact ⟨fun h => absurd h Bool.false_ne_true, by simp⟩
    | some r =>
      rw [cellNodeSessionKey_isOk_iff]
      simp

/-! ## One session

An init of one client and the records two ingress nodes make of it, with the
digests, keys and signatures of the real primitives. -/

def cellSecret : Bytes := List.replicate 32 7

def clientSecret : Bytes := List.replicate 32 3

def cellPk : Bytes :=
  beBytes 32 0xea4a6c63e29c520abef5507b132ec5f9954776aebebe7b92421eea691446d22c

def clientPk : Bytes :=
  beBytes 32 0xed4928c628d1c2c6eae90338905995612959273a5c63f93636c14614ac8737d1

def clientEphPk : Bytes :=
  beBytes 32 0x50a61409b1ddd0325e9b16b700e719e9772c07000b1bd7786e907c653d20495d

/-- The digest of the ephemeral key and the nonce. -/
def sessionDigest : Bytes :=
  beBytes 32 0x22f84dce22d38e9259de409d9c5bb9670a68041e3aa769b46ea8389afda45e2a

def initSig : Bytes :=
  beBytes 32 0x702318858bd973f3f06fb68ff66522afa260d27c2bdb55a8642f67d3a2dfe6a1 ++
  beBytes 32 0x367db99d092316f6438bec3aae39cc1c688bd1c415705b281c6d7ab37065590b

/-- The cell's signature over the record of an attested principal. -/
def attestedSig : Bytes :=
  beBytes 32 0x7e50eab312420c4f237284ea840c76ff0be3a74c6aa12d6bdfbf456451b599e2 ++
  beBytes 32 0x424c282ef0e47ce4c6f244116a1a83309413334b2073f57025d877b33477a107

/-- The cell's signature over the record of an unattested principal. -/
def restrictedSig : Bytes :=
  beBytes 32 0x3738fe7afe6a864fe64e46a3771d0f455b7ac9db4b0ff0604a62423ea8b3c7a9 ++
  beBytes 32 0xe2936de3474dea551e476180fb173769612eab6ac6d9b3295272bb8192432801

/-- The cell's signature over the revocation. -/
def revocationSig : Bytes :=
  beBytes 32 0xfc4acd92f9bbf4e2c4ef33911acd0f14124924fe5557159157b8d30a8aace340 ++
  beBytes 32 0x1f1d9a08421637c5f6cc152ebc7c1bf012929f779af5add26caf08ab94ccae00

def sharedSecret : Bytes :=
  beBytes 32 0xfa61cd2bbaac24ef0951c0e23ce170e883850e03523505796b3fb3986bb2d133

def sessionKey : Bytes :=
  beBytes 32 0x94e43ff0a746b82edefb00288ed2a28258d031e407d2b13092000de56504af82

def clientSid : Cid := ⟨0x12 :: 0x20 :: sessionDigest⟩

def clientInit : SessionInit := ⟨clientPk, clientEphPk, [1, 2, 3], initSig⟩

def cellKeys : CellKeys := ⟨List.replicate 32 9, cellSecret, cellPk⟩

def attestedRecord : SessionRecord :=
  ⟨clientSid, clientPk, clientEphPk, [1, 2, 3], .attested, attestedSig⟩

def restrictedRecord : SessionRecord :=
  ⟨clientSid, clientPk, clientEphPk, [1, 2, 3], .restricted, restrictedSig⟩

/-- SHA2-256 on the input of this session. -/
def clientDigest : Bytes → Bytes := tableDigest [(clientEphPk ++ [1, 2, 3], sessionDigest)]

def clientScheme : Ed25519 :=
  tableEd25519
    [(clientSecret, clientPk,
        [(SessionInit.signingMaterial clientEphPk [1, 2, 3], initSig)]),
      (cellSecret, cellPk,
        [(SessionRecord.signingMaterial clientSid clientPk clientEphPk [1, 2, 3] .attested,
            attestedSig),
          (SessionRecord.signingMaterial clientSid clientPk clientEphPk [1, 2, 3] .restricted,
            restrictedSig),
          (SessionStore.revocationMaterial clientSid, revocationSig)])]

def clientExchange : KeyExchange where
  diffieHellman secret peer :=
    if secret = cellKeys.staticSk ∧ peer = clientEphPk then sharedSecret else []
  hkdf salt ikm info :=
    if salt = [1, 2, 3] ∧ ikm = sharedSecret ∧ info = utf8 "pillar-udp/session/v1" then sessionKey
    else []

/-! ## Revocation

Once a node has accepted a revocation, does it ever serve the session's key again? -/

variable {E : Ed25519} {X : KeyExchange}

def NoKey (X : KeyExchange) (sid : Cid) (s : SessionStore) : Prop :=
  ∀ cell key, s.serveKey X sid cell ≠ .ok key

/-- A record of the session that would yield a key comes in only while the store
holds its revocation marker, or another record. -/
def Remembered (H : Bytes → Bytes) (E : Ed25519) (sid : Cid) (s : SessionStore) (c : Call) : Prop :=
  ∀ r, admitted H E c = some r → r.sessionId = sid → r.ephPk.length = 32 →
    sid ∈ s.revoked ∨ sid ∈ s.records

variable {s : SessionStore}

theorem noKey_iff {sid : Cid} :
    NoKey X sid s ↔
      sid ∈ s.revoked ∨ ∀ r, s.records[sid]? = some r → r.ephPk.length ≠ 32 := by
  have hserve : NoKey X sid s ↔ ∀ cell, ¬ (s.serveKey X sid cell).isOk = true := by
    refine forall_congr' fun cell => ?_
    cases s.serveKey X sid cell <;> simp [Except.isOk, Except.toBool]
  rw [hserve]
  simp only [serveKey_isOk_iff, SessionStore.authorization, ExtTreeMap.contains_iff_mem]
  by_cases hmark : sid ∈ s.revoked
  · simp [hmark]
  · simp only [hmark, if_false, false_or]
    constructor
    · intro h r hr hlen
      -- a node with a static secret of 32 bytes would serve it
      exact h ⟨List.replicate 32 0, [], []⟩ ⟨r, hr, List.length_replicate, hlen⟩
    · rintro h cell ⟨r, hr, -, hlen⟩
      exact h r hr hlen

/-- **One step.** -/
theorem noKey_step_iff {sid : Cid} (c : Call) (h : NoKey X sid s) :
    NoKey X sid (step H E s c) ↔ Remembered H E sid s c := by
  have hcond : admitted H E c = none → Remembered H E sid s c := by
    intro hnone r hr
    rw [hnone] at hr
    cases hr
  rw [noKey_iff] at h ⊢
  generalize hstep : step H E s c = s'
  have heffect := effect_step H E s c
  rw [hstep] at heffect
  cases heffect with
  | @bringIn r hr _ =>
    by_cases hmark : sid ∈ s.revoked
    · exact iff_of_true (.inl hmark) fun _ _ _ _ => .inl hmark
    have hiff : Remembered H E sid s c ↔
        (r.sessionId = sid → r.ephPk.length = 32 → sid ∈ s.records) := by
      simp [Remembered, hr, hmark]
    rw [hiff, records_orInsert]
    simp only [SessionStore.orInsert, hmark, false_or]
    rw [ExtTreeMap.mem_iff_isSome_getElem?]
    cases hheld : s.records[sid]? with
    | some r₀ => simpa using h.resolve_left hmark r₀ hheld -- the record that is held stays
    | none => by_cases hsid : r.sessionId = sid <;> simp [hsid]
  | revoke sig hnone _ =>
    refine iff_of_true ?_ (hcond hnone)
    rcases h with hmark | hbad
    · exact .inl (ExtTreeMap.mem_insert.2 (.inr hmark))
    · exact .inr hbad
  | @erase sid' hc hmark =>
    refine iff_of_true ?_ (hcond (by rw [hc]; rfl))
    by_cases hsid : sid' = sid
    · -- the record goes with the marker
      subst hsid
      exact .inr (by simp)
    · simp only [ExtTreeMap.mem_erase, ExtTreeMap.getElem?_erase, ne_eq,
        LawfulEqCmp.compare_eq_iff_eq, hsid, not_false_eq_true, true_and, if_false]
      exact h
  | keep hnone _ => exact iff_of_true h (hcond hnone)

theorem noKey_revoke {sid : Cid} {sig pk : Bytes} (hok : (s.revoke E sid sig pk).2 = .ok ()) :
    NoKey X sid (s.revoke E sid sig pk).1 := by
  rw [noKey_iff]
  rw [SessionStore.revoke] at hok ⊢
  cases hverify : verify E pk (SessionStore.revocationMaterial sid) sig with
  | error err =>
    rw [hverify] at hok
    cases hok
  | ok u => exact .inl (by simp)

/-- **How long a revocation lasts.** -/
theorem noKey_after_revoke_iff (X : KeyExchange) {s : SessionStore} {sid : Cid} {sig pk : Bytes}
    (hok : (s.revoke E sid sig pk).2 = .ok ()) (calls : List Call) :
    Throughout (step H E) (NoKey X sid) (s.revoke E sid sig pk).1 calls ↔
      Along (step H E) (Remembered H E sid) (s.revoke E sid sig pk).1 calls :=
  throughout_iff_along (J := fun _ => True) (fun _ _ _ _ _ => trivial)
    (fun _ c _ _ h => noKey_step_iff c h) trivial (noKey_revoke hok)

def servingStore : SessionStore :=
  step clientDigest clientScheme .new (.authorize clientInit true cellKeys)

/-- Collecting the revoked session serves no key. -/
theorem collected_noKey :
    Throughout (step clientDigest clientScheme) (NoKey clientExchange clientSid)
      (servingStore.revoke clientScheme clientSid revocationSig cellPk).1 [.gcErase clientSid] :=
  (noKey_after_revoke_iff clientExchange (H := clientDigest) (by decide +kernel)
    [.gcErase clientSid]).2 (along_cons.2 ⟨(fun _ hr => nomatch hr), along_nil⟩)

/-- **A revoked session comes back.** -/
theorem revoked_served_again :
    (servingStore.revoke clientScheme clientSid revocationSig cellPk).2 = .ok () ∧
      (exec (step clientDigest clientScheme)
        (servingStore.revoke clientScheme clientSid revocationSig cellPk).1
        [.gcErase clientSid, .converge attestedRecord cellPk]).serveKey clientExchange clientSid
          cellKeys = .ok sessionKey := by
  decide +kernel

/-! ## What the cell's signature binds

The cell signs the fields of a session record one after the other, without their lengths. -/

/-- `PolicySet::default()`. -/
def PolicySet.default : PolicySet := []

/-- The grants that the source can make. -/
def PolicySet.Known (p : PolicySet) : Prop := p = .restricted ∨ p = .attested ∨ p = .default

namespace SessionRecord

def material (r : SessionRecord) : Bytes :=
  signingMaterial r.sessionId r.principalPk r.ephPk r.clientNonce r.grants

/-- The records agree in all fields but the signature. -/
def Agrees (r r' : SessionRecord) : Prop := { r with cellSig := r'.cellSig } = r'

instance (r r' : SessionRecord) : Decidable (r.Agrees r') := inferInstanceAs (Decidable (_ = _))

/-- Where the fields of a record are cut off: the lengths of those in front of the nonce, and
whether the grants are written at all. -/
def cut (r : SessionRecord) : ℕ × ℕ × ℕ × Bool :=
  (r.sessionId.bytes.length, r.principalPk.length, r.ephPk.length, decide (r.grants = .default))

/-- A record of the source's grants that is cut in one of these ways. -/
def CutIn (cuts : Set (ℕ × ℕ × ℕ × Bool)) (r : SessionRecord) : Prop :=
  r.grants.Known ∧ r.cut ∈ cuts

theorem verifyCellSig_eq_ok_iff {E : Ed25519} {r : SessionRecord} {pk : Bytes} :
    r.verifyCellSig E pk = .ok () ↔ verify E pk r.material r.cellSig = .ok () := by
  rw [verifyCellSig, material]
  split <;> simp_all

theorem append_toWire_inj {a b : Bytes} {p q : PolicySet} (hp : p.Known) (hq : q.Known)
    (hdefault : p = .default ↔ q = .default) (h : a ++ p.toWire = b ++ q.toWire) :
    a = b ∧ p = q := by
  have hgrants : p = q := by
    have hlast := congrArg List.getLast? h
    rcases hp with rfl | rfl | rfl <;> rcases hq with rfl | rfl | rfl <;>
      first
        | rfl
        | exact absurd hdefault (by decide)
        | simp [PolicySet.toWire, PolicySet.restricted, PolicySet.attested] at hlast
  rw [hgrants] at h
  exact ⟨List.append_cancel_right h, hgrants⟩

/-- **The signed bytes determine the fields of records that are cut alike.** -/
theorem agrees_of_material_eq {r r' : SessionRecord} (hr : r.grants.Known) (hr' : r'.grants.Known)
    (hcut : r.cut = r'.cut) (h : r.material = r'.material) : r.Agrees r' := by
  obtain ⟨hlid, hlprincipal, hleph, hdefault⟩ : _ ∧ _ ∧ _ ∧ _ := by
    simpa only [cut, Prod.mk.injEq, decide_eq_decide] using hcut
  simp only [material, signingMaterial, List.append_assoc] at h
  obtain ⟨hid, h⟩ := List.append_inj (List.append_cancel_left h) hlid
  obtain ⟨hprincipal, h⟩ := List.append_inj h hlprincipal
  obtain ⟨heph, h⟩ := List.append_inj h hleph
  obtain ⟨hnonce, hgrants⟩ := append_toWire_inj hr hr' hdefault h
  rw [Agrees, ContentId.ext hid, hprincipal, heph, hnonce, hgrants]

/-- A record cut in this way, all of whose bytes are the one that stands for the grant to
communicate. -/
def ones (c : ℕ × ℕ × ℕ × Bool) (nonce : ℕ) : SessionRecord where
  sessionId := ⟨.replicate c.1 1⟩
  principalPk := .replicate c.2.1 1
  ephPk := .replicate c.2.2.1 1
  clientNonce := .replicate (nonce + cond c.2.2.2 1 0) 1
  grants := cond c.2.2.2 .default .restricted
  cellSig := []

theorem cut_ones (c : ℕ × ℕ × ℕ × Bool) (nonce : ℕ) : (ones c nonce).cut = c := by
  obtain ⟨a, b, d, _ | _⟩ := c
  · simp [ones, cut, PolicySet.restricted, PolicySet.default]
  · simp [ones, cut]

theorem known_ones (c : ℕ × ℕ × ℕ × Bool) (nonce : ℕ) : (ones c nonce).grants.Known := by
  obtain ⟨a, b, d, _ | _⟩ := c
  · exact .inl rfl
  · exact .inr (.inr rfl)

theorem material_ones (c : ℕ × ℕ × ℕ × Bool) (nonce : ℕ) :
    (ones c nonce).material =
      utf8 "pillar-udp/session-record/v1" ++
        .replicate (c.1 + (c.2.1 + (c.2.2.1 + (nonce + 1)))) 1 := by
  have hend : (ones c nonce).clientNonce ++ (ones c nonce).grants.toWire =
      .replicate (nonce + 1) 1 := by
    obtain ⟨a, b, d, _ | _⟩ := c
    · exact List.replicate_append_replicate (m := 1)
    · exact List.append_nil _
  simp only [material, signingMaterial, List.append_assoc, hend]
  simp only [ones, List.replicate_append_replicate]

end SessionRecord

open SessionRecord

/-- **The signature binds the records** precisely if they are cut alike. Then no record is admitted
that differs from the ones the cell signed. -/
theorem record_bound (E : Ed25519) (cuts : Set (ℕ × ℕ × ℕ × Bool)) :
    ((∀ r r' : SessionRecord, r.CutIn cuts → r'.CutIn cuts → r.material = r'.material →
      r.Agrees r') ↔ cuts.Subsingleton) ∧
    (cuts.Subsingleton → ∀ (pk : Bytes) (signed : Set SessionRecord),
      (∀ (r : SessionRecord) sig, verify E pk r.material sig = .ok () →
        ∃ r' ∈ signed, r'.material = r.material) →
      ∀ (s : SessionStore) (record : SessionRecord), record.CutIn cuts →
        (∀ r ∈ signed, r.CutIn cuts) →
        (s.converge E record pk).2 = .ok () → ∃ r ∈ signed, r.Agrees record) := by
  refine ⟨⟨fun h c hc c' hc' => ?_, fun hone r r' hr hr' h =>
    agrees_of_material_eq hr.1 hr'.1 (hone hr.2 hr'.2) h⟩, ?_⟩
  · -- one run of equal bytes is cut in both ways
    have hagrees := h (ones c (c'.1 + c'.2.1 + c'.2.2.1)) (ones c' (c.1 + c.2.1 + c.2.2.1))
      ⟨known_ones _ _, (cut_ones _ _).symm ▸ hc⟩ ⟨known_ones _ _, (cut_ones _ _).symm ▸ hc'⟩
      (by rw [material_ones, material_ones]; congr 2; omega)
    exact (cut_ones c _).symm.trans ((congrArg cut hagrees).trans (cut_ones c' _))
  · intro hone pk signed hunforged s record hrecord hsigned hconverge
    have hverify : record.verifyCellSig E pk = .ok () := by
      rw [SessionStore.converge] at hconverge
      split at hconverge
      · cases hconverge
      · assumption
    obtain ⟨r, hr, hmaterial⟩ := hunforged record _ (verifyCellSig_eq_ok_iff.1 hverify)
    exact ⟨r, hr, agrees_of_material_eq (hsigned r hr).1 hrecord.1
      (hone (hsigned r hr).2 hrecord.2) hmaterial⟩

/-- The cell has signed the record of an unattested principal, and nothing else. -/
def restrictedScheme : Ed25519 :=
  tableEd25519 [(cellSecret, cellPk, [(restrictedRecord.material, restrictedSig)])]

theorem restricted_bound :
    ((SessionStore.new.converge restrictedScheme restrictedRecord cellPk).2 = .ok ()) ∧
      ∃ r ∈ ({restrictedRecord} : Set SessionRecord), r.Agrees restrictedRecord := by
  have hconverge :
      (SessionStore.new.converge restrictedScheme restrictedRecord cellPk).2 = .ok () := by
    decide +kernel
  refine ⟨hconverge, (record_bound restrictedScheme {restrictedRecord.cut}).2
    Set.subsingleton_singleton cellPk _ ?_ _ _ ⟨.inl rfl, rfl⟩ ?_ hconverge⟩
  · intro r sig hverify
    refine ⟨restrictedRecord, rfl, ?_⟩
    by_contra hne
    simp [verify, restrictedScheme, tableEd25519, Ne.symm hne] at hverify
  · rintro r rfl
    exact ⟨.inl rfl, rfl⟩

/-- The grant goes over into the nonce. -/
def withoutGrants : SessionRecord :=
  { restrictedRecord with clientNonce := [1, 2, 3, 1], grants := .default }

/-- The first byte of the ephemeral key goes over to the principal's key. -/
def withLongerKey : SessionRecord :=
  { restrictedRecord with
    principalPk := clientPk ++ clientEphPk.take 1, ephPk := clientEphPk.drop 1 }

/-- One signature of the cell stands for three records, and each of them is admitted. -/
theorem one_signature_three_records :
    withoutGrants.grants = .default ∧ withLongerKey.principalPk.length = 33 ∧
      ∀ r ∈ [withoutGrants, withLongerKey], r.material = restrictedRecord.material ∧
        ¬ restrictedRecord.Agrees r ∧
        (SessionStore.new.converge restrictedScheme r cellPk).2 = .ok () := by
  decide +kernel

/-! ## Do the nodes of a cell agree on a session?

Two nodes that have received the same records and the same revocations, in whatever orders, should
read the same.

* `records_run`, `mem_revoked_run` — **what a run leaves**: of every session the
  first record, and every revocation. -/

variable {cell : CellKeys}

inductive Delivery where
  /-- A client's init, with the node's attestation decision. -/
  | authorize (init : SessionInit) (isAttested : Bool)
  | converge (record : SessionRecord)
  | revoke (sid : Cid) (revocationSig : Bytes)

def Delivery.toCall (cell : CellKeys) : Delivery → Call
  | .authorize init isAttested => .authorize init isAttested cell
  | .converge record => .converge record cell.signingPk
  | .revoke sid sig => .revoke sid sig cell.signingPk

/-- The store of a node that got these deliveries. -/
def view (H : Bytes → Bytes) (E : Ed25519) (cell : CellKeys) (ds : List Delivery) : SessionStore :=
  exec (step H E) .new (ds.map (Delivery.toCall cell))

def received (H : Bytes → Bytes) (E : Ed25519) (cell : CellKeys) (ds : List Delivery) :
    List SessionRecord :=
  ds.filterMap fun d => admitted H E (d.toCall cell)

def revokedIds (E : Ed25519) (cell : CellKeys) (ds : List Delivery) : List Cid :=
  ds.filterMap fun d => revokes E (d.toCall cell)

/-- The same records and the same revocations. -/
structure SameDeliveries (H : Bytes → Bytes) (E : Ed25519) (cell : CellKeys)
    (ds ds' : List Delivery) : Prop where
  received : ∀ r, r ∈ received H E cell ds ↔ r ∈ received H E cell ds'
  revoked : ∀ sid, sid ∈ revokedIds E cell ds ↔ sid ∈ revokedIds E cell ds'

structure ViewsAgree (X : KeyExchange) (s s' : SessionStore) : Prop where
  authorization : ∀ sid, s.authorization sid = s'.authorization sid
  grants : ∀ sid, s.grants sid = s'.grants sid
  serveKey : ∀ sid cell, (s.serveKey X sid cell).isOk = (s'.serveKey X sid cell).isOk

/-! ## What a run leaves -/

theorem step_delivery (s : SessionStore) (d : Delivery) (sid : Cid) :
    (step H E s (d.toCall cell)).records[sid]? =
      (s.records[sid]?).or ((admitted H E (d.toCall cell)).filter fun r => r.sessionId = sid) ∧
    (sid ∈ (step H E s (d.toCall cell)).revoked ↔
      sid ∈ s.revoked ∨ revokes E (d.toCall cell) = some sid) := by
  generalize hstep : step H E s (d.toCall cell) = s'
  have heffect := effect_step H E s (d.toCall cell)
  rw [hstep] at heffect
  cases heffect with
  | @bringIn r hr hsid =>
    rw [records_orInsert, hr, hsid, Option.filter_some]
    simp [SessionStore.orInsert]
  | @revoke sid' sig hr hsid =>
    rw [hr, hsid]
    simp [ExtTreeMap.mem_insert, or_comm]
  | erase hc _ => cases d <;> cases hc
  | keep hr hsid =>
    rw [hr, hsid]
    simp

/-- **The first record stays.** -/
theorem records_run (H : Bytes → Bytes) (E : Ed25519) (cell : CellKeys) (s : SessionStore)
    (ds : List Delivery) (sid : Cid) :
    (exec (step H E) s (ds.map (Delivery.toCall cell))).records[sid]? =
      (s.records[sid]?).or ((received H E cell ds).find? fun r => r.sessionId = sid) := by
  induction ds generalizing s with
  | nil => simp [received]
  | cons d ds ih =>
    rw [List.map_cons, exec_cons, ih, (step_delivery s d sid).1, Option.or_assoc]
    congr 1
    rw [received, received, List.filterMap_cons]
    cases admitted H E (d.toCall cell) with
    | none => rfl
    | some r =>
      rw [Option.filter_some, List.find?_cons]
      by_cases h : r.sessionId = sid <;> simp [h]

/-- **Every revocation stays.** -/
theorem mem_revoked_run (H : Bytes → Bytes) (E : Ed25519) (cell : CellKeys) (s : SessionStore)
    (ds : List Delivery) (sid : Cid) :
    sid ∈ (exec (step H E) s (ds.map (Delivery.toCall cell))).revoked ↔
      sid ∈ s.revoked ∨ sid ∈ revokedIds E cell ds := by
  induction ds generalizing s with
  | nil => simp [revokedIds]
  | cons d ds ih =>
    rw [List.map_cons, exec_cons, ih, (step_delivery s d sid).2, or_assoc, revokedIds, revokedIds,
      List.mem_filterMap, List.mem_filterMap, List.exists_mem_cons_iff]

theorem authorization_view (ds : List Delivery) (sid : Cid) :
    (view H E cell ds).authorization sid =
      if sid ∈ revokedIds E cell ds then none
      else (received H E cell ds).find? fun r => r.sessionId = sid := by
  have hrecords := records_run H E cell .new ds sid
  have hrevoked := mem_revoked_run H E cell .new ds sid
  simp only [SessionStore.new, ExtTreeMap.getElem?_empty, Option.none_or, ExtTreeMap.not_mem_empty,
    false_or] at hrecords hrevoked
  rw [SessionStore.authorization, view]
  simp only [ExtTreeMap.contains_iff_mem]
  rw [SessionStore.new, hrecords]
  simp [hrevoked]

theorem viewsAgree_of_authorization {s s' : SessionStore}
    (h : ∀ sid, s.authorization sid = s'.authorization sid) : ViewsAgree X s s' where
  authorization := h
  grants := fun sid => by rw [SessionStore.grants, h, SessionStore.grants]
  serveKey := fun sid cell => by rw [Bool.eq_iff_iff, serveKey_isOk_iff, serveKey_isOk_iff, h]

/-! ## Agreement -/

def OneRecordEach (H : Bytes → Bytes) (E : Ed25519) (cell : CellKeys) (ds : List Delivery) : Prop :=
  ∀ r ∈ received H E cell ds, ∀ r' ∈ received H E cell ds, r.sessionId = r'.sessionId →
    r.sessionId ∉ revokedIds E cell ds → r = r'

theorem OneRecordEach.authorization_eq {ds ds' : List Delivery} (h : OneRecordEach H E cell ds)
    (hsame : SameDeliveries H E cell ds ds') (sid : Cid) :
    (view H E cell ds).authorization sid = (view H E cell ds').authorization sid := by
  rw [authorization_view, authorization_view]
  by_cases hrevoked : sid ∈ revokedIds E cell ds
  · rw [if_pos hrevoked, if_pos ((hsame.revoked sid).1 hrevoked)]
  rw [if_neg hrevoked, if_neg (mt (hsame.revoked sid).2 hrevoked)]
  cases hfind : (received H E cell ds).find? fun r => r.sessionId = sid with
  | none =>
    rw [List.find?_eq_none] at hfind
    exact (List.find?_eq_none.2 fun r hr => hfind r ((hsame.received r).2 hr)).symm
  | some r =>
    have hr := List.mem_of_find?_eq_some hfind
    have hsid : r.sessionId = sid := by simpa using List.find?_some hfind
    cases hfind' : (received H E cell ds').find? fun r => r.sessionId = sid with
    | none =>
      have hnone := List.find?_eq_none.1 hfind' r ((hsame.received r).1 hr)
      exact absurd (decide_eq_true hsid) hnone
    | some r' =>
      have hr' := (hsame.received r').2 (List.mem_of_find?_eq_some hfind')
      have hsid' : r'.sessionId = sid := by simpa using List.find?_some hfind'
      rw [h r hr r' hr' (hsid.trans hsid'.symm) (hsid ▸ hrevoked)]

theorem sameDeliveries_cons {ds : List Delivery} {d : Delivery} (hd : d ∈ ds) :
    SameDeliveries H E cell ds (d :: ds) where
  received := fun r => by
    rw [received, received, List.mem_filterMap, List.mem_filterMap, List.exists_mem_cons_iff]
    exact (or_iff_right_of_imp fun h => ⟨d, hd, h⟩).symm
  revoked := fun sid => by
    rw [revokedIds, revokedIds, List.mem_filterMap, List.mem_filterMap, List.exists_mem_cons_iff]
    exact (or_iff_right_of_imp fun h => ⟨d, hd, h⟩).symm

/-- **When the views of a cell agree.** -/
theorem viewsAgree_iff (X : KeyExchange) (ds : List Delivery) :
    (∀ ds', SameDeliveries H E cell ds ds' → ViewsAgree X (view H E cell ds) (view H E cell ds')) ↔
      OneRecordEach H E cell ds := by
  refine ⟨fun h => ?_, fun h ds' hsame => viewsAgree_of_authorization (h.authorization_eq hsame)⟩
  -- whichever of the two records a node got first is the one it reads
  have hfirst : ∀ r ∈ received H E cell ds, r.sessionId ∉ revokedIds E cell ds →
      (view H E cell ds).authorization r.sessionId = some r := by
    intro r hr hrevoked
    obtain ⟨d, hd, hdr⟩ := List.mem_filterMap.1 hr
    have hsame : SameDeliveries H E cell ds (d :: ds) := sameDeliveries_cons hd
    rw [(h (d :: ds) hsame).authorization, authorization_view,
      if_neg (mt (hsame.revoked _).2 hrevoked), received, List.filterMap_cons, hdr]
    exact List.find?_cons_of_pos (decide_eq_true rfl)
  intro r hr r' hr' hsid hrevoked
  have hread := hfirst r hr hrevoked
  rw [hsid, hfirst r' hr' (hsid ▸ hrevoked)] at hread
  exact (Option.some.inj hread).symm

/-- **Two ingress nodes disagree.** -/
theorem ingress_views_differ :
    received clientDigest clientScheme cellKeys
        [.authorize clientInit true, .converge restrictedRecord] =
      [attestedRecord, restrictedRecord] ∧
    received clientDigest clientScheme cellKeys
        [.authorize clientInit false, .converge attestedRecord] =
      [restrictedRecord, attestedRecord] ∧
    (view clientDigest clientScheme cellKeys
        [.authorize clientInit true, .converge restrictedRecord]).grants clientSid =
      some .attested ∧
    (view clientDigest clientScheme cellKeys
        [.authorize clientInit false, .converge attestedRecord]).grants clientSid =
      some .restricted := by
  decide +kernel

end Pillar.Session
