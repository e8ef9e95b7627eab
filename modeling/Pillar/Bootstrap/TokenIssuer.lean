import Pillar.Bootstrap.Token
import Pillar.Lib.Runs

/-!
# Login tokens

`pillar-bootstrap`'s token issuer: a user who presents their credential gets a signed token that is
good for a time.

* `tokens_good_for_their_lifetime` — **a token is good for its user and domain until it is revoked
  or its time is over**.
-/

namespace Pillar.Bootstrap

open Lib.Runs
open Std (ExtTreeMap)

/-! ## The issuer -/

inductive LoginTokenError where
  | badCredential
  | nonPositiveTtl
  | unknownToken
  | expired
  | revoked
  | wrongDomain
  deriving DecidableEq

structure LoginToken where
  value : String
  user : Str
  domain : Str
  expiry : UInt64
  deriving DecidableEq

/-- Who may log in, and which tokens are taken back. -/
structure TokenIssuer where
  credentials : ExtTreeMap Str Str
  revoked : Finset UInt64
  serial : UInt64
  signingKey : Bytes
  verifyingKey : Bytes

/-- A sum of two numbers of 64 bits. -/
def add64 (checks : Bool) (a b : UInt64) : Option UInt64 :=
  if checks ∧ 2 ^ 64 ≤ a.toNat + b.toNat then none else some (a + b)

namespace TokenIssuer

def new (H : Bytes → Bytes) (E : Ed25519) (seed : Bytes) : TokenIssuer :=
  let (verifyingKey, signingKey) := signingKeypairFromSeed H E seed
  ⟨∅, ∅, 0, signingKey, verifyingKey⟩

def registerUser (issuer : TokenIssuer) (user credential : Str) : TokenIssuer :=
  { issuer with credentials := issuer.credentials.insert user credential }

variable (checks : Bool) (E : Ed25519) (issuer : TokenIssuer)

/-- A token for a user who presents their credential. -/
def forwardAndMint (user domain presented : Str) (now ttl : UInt64) :
    Option (Except LoginTokenError LoginToken × TokenIssuer) :=
  if ttl = 0 then some (.error .nonPositiveTtl, issuer)
  else if issuer.credentials[user]? ≠ some presented then some (.error .badCredential, issuer)
  else do
    let serial ← add64 checks issuer.serial 1
    let expiry ← add64 checks now ttl
    let payload : TokenPayload := ⟨serial, expiry, user, domain⟩
    let sig ← (sign E issuer.signingKey payload.encode).toOption
    return (.ok ⟨encodeToken payload sig, user, domain, expiry⟩, { issuer with serial := serial })

def verify (token : String) (domain : Str) (now : UInt64) : Except LoginTokenError Str :=
  match decodeAndVerifyToken E issuer.verifyingKey token with
  | none => .error .unknownToken
  | some payload =>
    if payload.serial ∈ issuer.revoked then .error .revoked
    else if payload.expiry ≤ now then .error .expired
    else if payload.domain ≠ domain then .error .wrongDomain
    else .ok payload.user

def revoke (token : String) : TokenIssuer :=
  match decodeAndVerifyToken E issuer.verifyingKey token with
  | none => issuer
  | some payload => { issuer with revoked := insert payload.serial issuer.revoked }

end TokenIssuer

/-! ## Runs -/

inductive Call where
  | registerUser (user credential : Str)
  | forwardAndMint (user domain presented : Str) (now ttl : UInt64)
  | verify (token : String) (domain : Str) (now : UInt64)
  | revoke (token : String)

def Call.presents : Call → Option String
  | .verify token _ _ => some token
  | .revoke token => some token
  | _ => none

structure Minting where
  payload : TokenPayload
  now : UInt64
  ttl : UInt64
  deriving DecidableEq

structure Run where
  issuer : TokenIssuer
  minted : List Minting
  revoked : List String

section Steps

variable (checks : Bool) (E : Ed25519)

def Run.call (r : Run) : Call → Option Run
  | .registerUser user credential => some { r with issuer := r.issuer.registerUser user credential }
  | .forwardAndMint user domain presented now ttl =>
    (r.issuer.forwardAndMint checks E user domain presented now ttl).map fun
      | (.ok token, issuer) =>
        { r with
          issuer := issuer
          minted := ⟨⟨issuer.serial, token.expiry, user, domain⟩, now, ttl⟩ :: r.minted }
      | (.error _, issuer) => { r with issuer := issuer }
  | .verify _ _ _ => some r
  | .revoke token =>
    some { r with issuer := r.issuer.revoke E token, revoked := token :: r.revoked }

/-- A call; after a panic there is no issuer. -/
def step (s : Option Run) (call : Call) : Option Run := s.bind fun r => r.call checks E call

def start (H : Bytes → Bytes) (seed : Bytes) : Option Run := some ⟨.new H E seed, [], []⟩

def Run.Unforged (r : Run) (token : String) : Prop :=
  ∀ bytes sig, tokenParts token = some (bytes, sig) →
    Pillar.verify E r.issuer.verifyingKey bytes sig = .ok () →
    ∃ m ∈ r.minted, m.payload.encode = bytes

def Unforged (s : Option Run) (call : Call) : Prop :=
  ∀ r, s = some r → ∀ token, call.presents = some token → r.Unforged E token

/-- If a token is minted, its expiry and its number are numbers of 64 bits, and the lengths of its
texts of 32. -/
def Roomy (s : Option Run) (call : Call) : Prop :=
  ∀ r user domain presented now ttl, s = some r →
    call = .forwardAndMint user domain presented now ttl → ttl ≠ 0 →
    r.issuer.credentials[user]? = some presented →
    now.toNat + ttl.toNat < 2 ^ 64 ∧ r.issuer.serial.toNat + 1 < 2 ^ 64 ∧
      user.bytes.length < 2 ^ 32 ∧ domain.bytes.length < 2 ^ 32

end Steps

theorem add64_of_lt {checks : Bool} {a b : UInt64} (h : a.toNat + b.toNat < 2 ^ 64) :
    add64 checks a b = some (a + b) ∧ (a + b).toNat = a.toNat + b.toNat := by
  refine ⟨if_neg fun hover => absurd h (not_lt.2 hover.2), ?_⟩
  rw [UInt64.toNat_add, Nat.mod_eq_of_lt h]

/-! ## What a call does -/

section Mint

variable {checks : Bool} {E : Ed25519} {issuer : TokenIssuer} {user domain presented : Str}
  {now ttl : UInt64}

theorem forwardAndMint_of_add64 {serial expiry : UInt64} (httl : ttl ≠ 0)
    (hcred : issuer.credentials[user]? = some presented)
    (hserial : add64 checks issuer.serial 1 = some serial)
    (hexpiry : add64 checks now ttl = some expiry) (hkey : issuer.signingKey.length = 32) :
    issuer.forwardAndMint checks E user domain presented now ttl =
      some (.ok ⟨encodeToken ⟨serial, expiry, user, domain⟩
          (E.sign issuer.signingKey (TokenPayload.encode ⟨serial, expiry, user, domain⟩)),
          user, domain, expiry⟩, { issuer with serial := serial }) := by
  rw [TokenIssuer.forwardAndMint, if_neg httl, if_neg (not_not.2 hcred), hserial, hexpiry]
  simp [sign, hkey, Except.toOption]

theorem verify_eq_expired {token : String} {payload : TokenPayload}
    (hdecode : decodeAndVerifyToken E issuer.verifyingKey token = some payload)
    (hlive : payload.serial ∉ issuer.revoked) (hexpiry : payload.expiry ≤ now) :
    issuer.verify E token domain now = .error .expired := by
  rw [TokenIssuer.verify, hdecode]
  exact (if_neg hlive).trans (if_pos hexpiry)

theorem decodeAndVerifyToken_sign (hE : E.Correct) {secret : Bytes} (hlength : secret.length = 32)
    {payload : TokenPayload} (hfits : payload.Fits) :
    decodeAndVerifyToken E (E.verifyingKey secret)
      (encodeToken payload (E.sign secret payload.encode)) = some payload := by
  refine decodeAndVerifyToken_encodeToken hfits (if_pos ⟨?_, ?_, ?_⟩)
  · exact hE.length_verifyingKey _ hlength
  · exact hE.length_sign _ _ hlength
  · exact hE.verify_sign _ _ hlength

theorem forwardAndMint_of_refused (h : ¬ (ttl ≠ 0 ∧ issuer.credentials[user]? = some presented)) :
    ∃ e, issuer.forwardAndMint checks E user domain presented now ttl =
      some (.error e, issuer) := by
  rw [TokenIssuer.forwardAndMint]
  by_cases httl : ttl = 0
  · exact ⟨_, if_pos httl⟩
  · exact ⟨_, by rw [if_neg httl, if_pos fun hcred => h ⟨httl, hcred⟩]⟩

end Mint

/-! ## The invariant -/

structure Sound (E : Ed25519) (secret : Bytes) (r : Run) : Prop where
  signingKey : r.issuer.signingKey = secret
  verifyingKey : r.issuer.verifyingKey = E.verifyingKey secret
  serial_le : ∀ m ∈ r.minted, m.payload.serial.toNat ≤ r.issuer.serial.toNat
  serial_inj : ∀ m ∈ r.minted, ∀ m' ∈ r.minted, m.payload.serial = m'.payload.serial → m = m'
  expiry : ∀ m ∈ r.minted, m.payload.expiry.toNat = m.now.toNat + m.ttl.toNat
  fits : ∀ m ∈ r.minted, m.payload.Fits
  revoked_minted : ∀ token ∈ r.revoked, ∀ payload,
    decodeAndVerifyToken E r.issuer.verifyingKey token = some payload →
    ∃ m ∈ r.minted, m.payload = payload
  /-- The numbers that are revoked are those of the strings. -/
  revoked_iff : ∀ serial, serial ∈ r.issuer.revoked ↔ ∃ token ∈ r.revoked, ∃ payload,
    decodeAndVerifyToken E r.issuer.verifyingKey token = some payload ∧ payload.serial = serial

section Sound

variable {checks : Bool} {E : Ed25519} {secret : Bytes} {r : Run}

theorem Sound.minted_of_unforged (hr : Sound E secret r) {token : String} (h : r.Unforged E token)
    {payload : TokenPayload}
    (hdecode : decodeAndVerifyToken E r.issuer.verifyingKey token = some payload) :
    ∃ m ∈ r.minted, m.payload = payload := by
  obtain ⟨hfits, sig, hparts, hsig⟩ := exists_of_decodeAndVerifyToken hdecode
  obtain ⟨m, hm, hencode⟩ := h _ sig hparts hsig
  refine ⟨m, hm, ?_⟩
  have hread : TokenPayload.decode payload.encode = some m.payload :=
    TokenPayload.decode_eq_some_iff.2 ⟨hr.fits m hm, hencode.symm⟩
  rw [TokenPayload.decode_eq_some_iff.2 ⟨hfits, rfl⟩] at hread
  exact (Option.some.inj hread).symm

theorem Sound.revoked_iff_token (hr : Sound E secret r) {m : Minting} (hm : m ∈ r.minted) :
    m.payload.serial ∈ r.issuer.revoked ↔ ∃ token ∈ r.revoked,
      decodeAndVerifyToken E r.issuer.verifyingKey token = some m.payload := by
  rw [hr.revoked_iff]
  refine exists_congr fun token => and_congr_right fun htoken => ?_
  constructor
  · rintro ⟨payload, hdecode, hserial⟩
    obtain ⟨m', hm', rfl⟩ := hr.revoked_minted token htoken payload hdecode
    rwa [hr.serial_inj m' hm' m hm hserial] at hdecode
  · intro hdecode
    exact ⟨m.payload, hdecode, rfl⟩

theorem sound_start (H : Bytes → Bytes) (E : Ed25519) (seed : Bytes) :
    Sound E (ed25519SecretBytes H seed) ⟨.new H E seed, [], []⟩ where
  signingKey := rfl
  verifyingKey := rfl
  serial_le := by simp
  serial_inj := by simp
  expiry := by simp
  fits := by simp
  revoked_minted := by simp
  revoked_iff := by simp [TokenIssuer.new]

theorem Sound.mint (hr : Sound E secret r) {user domain : Str} {now ttl : UInt64}
    (hserial : r.issuer.serial.toNat + 1 < 2 ^ 64) (hexpiry : now.toNat + ttl.toNat < 2 ^ 64)
    (huser : user.bytes.length < 2 ^ 32) (hdomain : domain.bytes.length < 2 ^ 32) :
    Sound E secret
      { r with
        issuer := { r.issuer with serial := r.issuer.serial + 1 }
        minted := ⟨⟨r.issuer.serial + 1, now + ttl, user, domain⟩, now, ttl⟩ :: r.minted } := by
  have hnext : (r.issuer.serial + 1).toNat = r.issuer.serial.toNat + 1 :=
    (@add64_of_lt true _ _ hserial).2
  -- the new number is above all others
  have hnew : ∀ m ∈ r.minted, m.payload.serial ≠ r.issuer.serial + 1 := by
    intro m hm heq
    have hle := hr.serial_le m hm
    rw [heq, hnext] at hle
    omega
  refine ⟨hr.signingKey, hr.verifyingKey, ?_, ?_, ?_, ?_, ?_, hr.revoked_iff⟩
  · rintro m (_ | ⟨_, hm⟩)
    · exact le_rfl
    · exact (hr.serial_le m hm).trans (by rw [hnext]; omega)
  · rintro m (_ | ⟨_, hm⟩) m' (_ | ⟨_, hm'⟩) heq
    · rfl
    · exact absurd heq.symm (hnew m' hm')
    · exact absurd heq (hnew m hm)
    · exact hr.serial_inj m hm m' hm' heq
  · rintro m (_ | ⟨_, hm⟩)
    · exact (@add64_of_lt true _ _ hexpiry).2
    · exact hr.expiry m hm
  · rintro m (_ | ⟨_, hm⟩)
    · exact ⟨huser, hdomain⟩
    · exact hr.fits m hm
  · intro token htoken payload hdecode
    obtain ⟨m, hm, hpayload⟩ := hr.revoked_minted token htoken payload hdecode
    exact ⟨m, List.mem_cons_of_mem _ hm, hpayload⟩

theorem Sound.revoke (hr : Sound E secret r) {token : String} (h : r.Unforged E token) :
    Sound E secret { r with issuer := r.issuer.revoke E token, revoked := token :: r.revoked } := by
  have hkey : (r.issuer.revoke E token).verifyingKey = r.issuer.verifyingKey := by
    rw [TokenIssuer.revoke]
    split <;> rfl
  have hsame : (r.issuer.revoke E token).signingKey = r.issuer.signingKey ∧
      (r.issuer.revoke E token).serial = r.issuer.serial := by
    rw [TokenIssuer.revoke]
    split <;> exact ⟨rfl, rfl⟩
  refine ⟨hsame.1.trans hr.signingKey, hkey.trans hr.verifyingKey, ?_, hr.serial_inj, hr.expiry,
    hr.fits, ?_, ?_⟩
  · intro m hm
    show m.payload.serial.toNat ≤ (r.issuer.revoke E token).serial.toNat
    rw [hsame.2]
    exact hr.serial_le m hm
  · intro t ht payload hdecode
    rw [hkey] at hdecode
    rcases List.mem_cons.1 ht with rfl | ht
    · exact hr.minted_of_unforged h hdecode
    · exact hr.revoked_minted t ht payload hdecode
  · intro serial
    rw [hkey]
    simp only [List.mem_cons, exists_eq_or_imp, ← hr.revoked_iff]
    show serial ∈ (r.issuer.revoke E token).revoked ↔ _
    rw [TokenIssuer.revoke]
    cases decodeAndVerifyToken E r.issuer.verifyingKey token with
    | none => simp
    | some payload => simp [eq_comm]

/-- **A call keeps the invariant.** -/
theorem Sound.call (hr : Sound E secret r) (hlength : secret.length = 32) {call : Call}
    (hunforged : Unforged E (some r) call) (hroomy : Roomy (some r) call) :
    ∃ r', r.call checks E call = some r' ∧ Sound E secret r' := by
  cases call with
  | registerUser user credential =>
    exact ⟨_, rfl, hr.signingKey, hr.verifyingKey, hr.serial_le, hr.serial_inj, hr.expiry, hr.fits,
      hr.revoked_minted, hr.revoked_iff⟩
  | forwardAndMint user domain presented now ttl =>
    by_cases h : ttl ≠ 0 ∧ r.issuer.credentials[user]? = some presented
    · obtain ⟨hexpiry, hserial, huser, hdomain⟩ :=
        hroomy r user domain presented now ttl rfl rfl h.1 h.2
      refine ⟨_, ?_, hr.mint hserial hexpiry huser hdomain⟩
      rw [Run.call, forwardAndMint_of_add64 h.1 h.2 (add64_of_lt hserial).1 (add64_of_lt hexpiry).1
        (by rw [hr.signingKey]; exact hlength)]
      rfl
    · obtain ⟨e, he⟩ : ∃ e, r.issuer.forwardAndMint checks E user domain presented now ttl =
          some (.error e, r.issuer) := forwardAndMint_of_refused h
      exact ⟨r, by rw [Run.call, he]; rfl, hr⟩
  | verify token domain now => exact ⟨r, rfl, hr⟩
  | revoke token => exact ⟨_, rfl, hr.revoke (hunforged r rfl token rfl)⟩

theorem Sound.verify_eq_ok_iff (hr : Sound E secret r) {token : String} (h : r.Unforged E token)
    {domain : Str} {now : UInt64} {user : Str} :
    r.issuer.verify E token domain now = .ok user ↔ ∃ m ∈ r.minted,
      decodeAndVerifyToken E r.issuer.verifyingKey token = some m.payload ∧
      m.payload.user = user ∧ m.payload.domain = domain ∧
      (∀ t ∈ r.revoked,
        decodeAndVerifyToken E r.issuer.verifyingKey t ≠ some m.payload) ∧
      now.toNat < m.now.toNat + m.ttl.toNat := by
  rw [TokenIssuer.verify]
  cases hdecode : decodeAndVerifyToken E r.issuer.verifyingKey token with
  | none => simp
  | some payload =>
    obtain ⟨m, hm, rfl⟩ := hr.minted_of_unforged h hdecode
    have hrevoked := hr.revoked_iff_token hm
    have hexpiry := hr.expiry m hm
    constructor
    · intro hok
      simp only at hok
      split at hok
      · cases hok
      · next hnot =>
        split at hok
        · cases hok
        · next hlt =>
          split at hok
          · cases hok
          · next hdomain =>
            refine ⟨m, hm, rfl, Except.ok.inj hok, not_not.1 hdomain, ?_, ?_⟩
            · intro t ht heq
              exact hnot (hrevoked.2 ⟨t, ht, heq⟩)
            · rw [← hexpiry]
              exact UInt64.lt_iff_toNat_lt.1 (UInt64.not_le.1 hlt)
    · rintro ⟨m', hm', hpayload, huser, hdomain, hnot, hlt⟩
      have hserial : m.payload.serial = m'.payload.serial := by rw [Option.some.inj hpayload]
      obtain rfl := hr.serial_inj m hm m' hm' hserial
      have hlive : m.payload.serial ∉ r.issuer.revoked := by
        intro hmem
        obtain ⟨t, ht, heq⟩ := hrevoked.1 hmem
        exact hnot t ht heq
      have hbefore : ¬ m.payload.expiry ≤ now := by
        rw [UInt64.not_le, UInt64.lt_iff_toNat_lt, hexpiry]
        exact hlt
      simp only
      rw [if_neg hlive, if_neg hbefore, if_neg (not_not.2 hdomain), huser]

theorem Sound.exists_token (hr : Sound E secret r) (hE : E.Correct) (hlength : secret.length = 32)
    {user domain presented : Str} {now ttl : UInt64} (httl : ttl ≠ 0)
    (hcred : r.issuer.credentials[user]? = some presented)
    (hroomy : Roomy (some r) (.forwardAndMint user domain presented now ttl)) :
    ∃ token issuer, r.issuer.forwardAndMint checks E user domain presented now ttl =
        some (.ok token, issuer) ∧ token.expiry.toNat = now.toNat + ttl.toNat ∧
      decodeAndVerifyToken E r.issuer.verifyingKey token.value =
        some ⟨issuer.serial, token.expiry, user, domain⟩ := by
  obtain ⟨hexpiry, hserial, huser, hdomain⟩ :=
    hroomy r user domain presented now ttl rfl rfl httl hcred
  have hkey : r.issuer.signingKey.length = 32 := by
    rw [hr.signingKey]
    exact hlength
  refine ⟨_, _, forwardAndMint_of_add64 httl hcred (add64_of_lt hserial).1 (add64_of_lt hexpiry).1
    hkey, (@add64_of_lt checks _ _ hexpiry).2, ?_⟩
  rw [hr.verifyingKey, hr.signingKey]
  exact decodeAndVerifyToken_sign hE hlength ⟨huser, hdomain⟩

end Sound

/-- **A token is good for its lifetime.** -/
theorem tokens_good_for_their_lifetime (checks : Bool) (H : Bytes → Bytes) (E : Ed25519)
    (seed : Bytes) (hE : E.Correct) (hH : ∀ b, (H b).length = 32) (calls : List Call)
    (hunforged : Along (step checks E) (Unforged E) (start E H seed) calls)
    (hroomy : Along (step checks E) Roomy (start E H seed) calls) :
    ∀ p, p <+: calls → ∃ r, exec (step checks E) (start E H seed) p = some r ∧
      (∀ user domain presented now ttl,
        p ++ [.forwardAndMint user domain presented now ttl] <+: calls → ttl ≠ 0 →
        r.issuer.credentials[user]? = some presented →
        ∃ token issuer, r.issuer.forwardAndMint checks E user domain presented now ttl =
            some (.ok token, issuer) ∧ token.expiry.toNat = now.toNat + ttl.toNat ∧
          decodeAndVerifyToken E r.issuer.verifyingKey token.value =
            some ⟨issuer.serial, token.expiry, user, domain⟩) ∧
      ∀ token, r.Unforged E token → ∀ domain now user,
        (r.issuer.verify E token domain now = .ok user ↔ ∃ m ∈ r.minted,
          decodeAndVerifyToken E r.issuer.verifyingKey token = some m.payload ∧
          m.payload.user = user ∧ m.payload.domain = domain ∧
          (∀ t ∈ r.revoked,
            decodeAndVerifyToken E r.issuer.verifyingKey t ≠ some m.payload) ∧
          now.toNat < m.now.toNat + m.ttl.toNat) := by
  have hlength : (ed25519SecretBytes H seed).length = 32 := hH _
  have hsound : ∀ p, p <+: calls → ∃ r, exec (step checks E) (start E H seed) p = some r ∧
      Sound E (ed25519SecretBytes H seed) r := by
    refine throughout_of_along
      (I := fun s => ∃ r, s = some r ∧ Sound E (ed25519SecretBytes H seed) r)
      (C := fun s call => Unforged E s call ∧ Roomy s call) ?_ ⟨_, rfl, sound_start H E seed⟩
      (fun p call hp => ⟨hunforged p call hp, hroomy p call hp⟩)
    rintro s call ⟨r, rfl, hr⟩ ⟨hu, hro⟩
    exact hr.call hlength hu hro
  intro p hp
  obtain ⟨r, hrun, hr⟩ := hsound p hp
  refine ⟨r, hrun, ?_, fun token htoken domain now user => hr.verify_eq_ok_iff htoken⟩
  intro user domain presented now ttl hnext httl hcred
  exact hr.exists_token hE hlength httl hcred (hrun ▸ hroomy p _ hnext)

/-! ## A token for a user of a cell -/

/-- A user, who has their name as their credential. -/
def someUser : Str := .lit "u"

def someDomain : Str := .lit "d"

def login (now ttl : UInt64) : List Call :=
  [.registerUser someUser someUser, .forwardAndMint someUser someDomain someUser now ttl]

def newIssuer : Option Run := start plainEd25519 tailDigest []

def registered : Run :=
  ⟨(TokenIssuer.new tailDigest plainEd25519 []).registerUser someUser someUser, [], []⟩

def payload : TokenPayload := ⟨1, 10, someUser, someDomain⟩

def token : String :=
  encodeToken payload (plainEd25519.sign registered.issuer.signingKey payload.encode)

def afterLogin : Run := ⟨{ registered.issuer with serial := 1 }, [⟨payload, 7, 3⟩], []⟩

theorem exec_login :
    exec (step true plainEd25519) newIssuer (login 7 3) = some afterLogin := by
  rfl

/-- It is good at 9, and not at 10. -/
theorem token_good_until_ten :
    ∃ r, exec (step true plainEd25519) newIssuer (login 7 3) = some r ∧
      r.issuer.verify plainEd25519 token someDomain 9 = .ok someUser ∧
      r.issuer.verify plainEd25519 token someDomain 10 ≠ .ok someUser := by
  have hunforged :
      Along (step true plainEd25519) (Unforged plainEd25519) newIssuer (login 7 3) := by
    refine along_cons.2 ⟨?_, along_cons.2 ⟨?_, along_nil⟩⟩ <;>
    · intro _ _ _ h
      cases h
  have hroomy : Along (step true plainEd25519) Roomy newIssuer (login 7 3) := by
    refine along_cons.2 ⟨?_, along_cons.2 ⟨?_, along_nil⟩⟩
    · intro _ _ _ _ _ _ _ hcall
      cases hcall
    · rintro r user domain presented now ttl hr hcall - -
      obtain rfl : registered = r := Option.some.inj hr
      cases hcall
      decide
  obtain ⟨r, hrun, -, hverify⟩ := tokens_good_for_their_lifetime true tailDigest plainEd25519 []
    plainEd25519_correct length_tailDigest (login 7 3) hunforged hroomy _ List.prefix_rfl
  obtain rfl : afterLogin = r := Option.some.inj (exec_login.symm.trans hrun)
  have hmem : (⟨payload, 7, 3⟩ : Minting) ∈ afterLogin.minted := List.mem_singleton_self _
  have htoken : afterLogin.Unforged plainEd25519 token := by
    intro bytes sig hparts _
    rw [token, tokenParts_encodeToken] at hparts
    exact ⟨_, hmem, (Prod.mk.inj (Option.some.inj hparts)).1⟩
  refine ⟨afterLogin, hrun, (hverify token htoken _ _ _).2 ⟨_, hmem, ?_, rfl, rfl, ?_, by decide⟩,
    fun h => ?_⟩
  · exact decodeAndVerifyToken_sign plainEd25519_correct (length_tailDigest _)
      ⟨by decide, by decide⟩
  · intro t ht
    cases ht
  · obtain ⟨m, hm, -, -, -, -, hlt⟩ := (hverify token htoken _ _ _).1 h
    obtain rfl := List.mem_singleton.1 hm
    exact absurd hlt (by decide)

/-- A token for the last second of the clock: its expiry is no number of 64 bits. -/
theorem expiry_overflows :
    exec (step true plainEd25519) newIssuer (login (2 ^ 64 - 1) 1) = none ∧
    ∃ token issuer, registered.issuer.forwardAndMint false plainEd25519 someUser someDomain someUser
        (2 ^ 64 - 1) 1 = some (.ok token, issuer) ∧
      issuer.verify plainEd25519 token.value someDomain (2 ^ 64 - 1) = .error .expired ∧
      (2 ^ 64 - 1 : UInt64).toNat < (2 ^ 64 - 1 : UInt64).toNat + (1 : UInt64).toNat := by
  have hserial : add64 false registered.issuer.serial 1 = some 1 := by decide +kernel
  have hwraps : add64 false (2 ^ 64 - 1) 1 = some 0 := by decide +kernel
  refine ⟨by decide +kernel, _, _, forwardAndMint_of_add64 (by decide) (by decide +kernel)
    hserial hwraps (length_tailDigest _), ?_, by decide +kernel⟩
  refine verify_eq_expired (decodeAndVerifyToken_sign plainEd25519_correct (length_tailDigest _)
    ⟨by decide, by decide⟩) (Finset.notMem_empty _) (by decide +kernel)

end Pillar.Bootstrap
