import Pillar.Crypto
import Pillar.Iam.Users
import Pillar.Oidc.Registry

/-!
# The authorization server

`pillar-oidc`'s provider. A user who has consented lets a client obtain a code, the client redeems
the code for an access token and a refresh token, and the refresh token for the next pair. What a
byte string is hashed to, SHA2-256 in base64url, is a parameter `H`.
-/

namespace Pillar.Oidc

open Iam (UserStatus)
open Std

/-! ## Types -/

/-- What a client asks for in the name of a user. -/
structure AuthorizeRequest where
  responseType : String
  clientId : String
  redirectUri : String
  scopes : Finset String
  user : String
  /-- The hash of the verifier that the code is redeemed with. -/
  codeChallenge : Option String
  /-- How the challenge is computed; only `"S256"` is accepted. -/
  codeChallengeMethod : Option String
  deriving DecidableEq

def AuthorizeRequest.key (req : AuthorizeRequest) : GrantKey := ⟨req.user, req.clientId⟩

inductive AuthorizeError where
  | unsupportedResponseType
  | unknownClient
  | invalidRedirectUri
  | unauthorizedClient
  | pkceRequired
  | unsupportedPkceMethod
  | userNotActive
  | consentRequired
  deriving DecidableEq

inductive TokenKind where
  | access
  | refresh
  deriving DecidableEq

/-- What the token endpoint returns. -/
structure TokenResponse where
  accessToken : String
  tokenType : String
  expiresIn : ℕ
  refreshToken : Option String
  idToken : Option String
  deriving DecidableEq

def TokenResponse.token (r : TokenResponse) : TokenKind → Option String
  | .access => some r.accessToken
  | .refresh => r.refreshToken

inductive TokenError where
  | unsupportedGrantType
  | invalidGrant
  | unauthorizedClient
  deriving DecidableEq

/-- A code, and what it was given out for. -/
structure AuthCode where
  clientId : String
  user : String
  redirectUri : String
  scopes : Finset String
  codeChallenge : String
  consumed : Bool
  deriving DecidableEq

def AuthCode.key (ac : AuthCode) : GrantKey := ⟨ac.user, ac.clientId⟩

/-- The tokens of a user and a client. -/
structure GrantRecord where
  accessToken : Option String := none
  refreshToken : Option String := none
  scopes : Finset String := ∅
  rotations : ℕ := 0
  deriving DecidableEq

def GrantRecord.token (g : GrantRecord) : TokenKind → Option String
  | .access => g.accessToken
  | .refresh => g.refreshToken

structure IdTokenClaims where
  iss : String
  sub : String
  aud : String
  iat : ℤ
  exp : ℤ
  deriving DecidableEq

/-- The signing keys: the signed claims, `none` where the source panics. -/
abbrev SigningKeySet := IdTokenClaims → Option String

/-- Codes and grants, with an index of the tokens in force. -/
structure Provider where
  registry : ClientRegistry
  users : ExtTreeMap String UserStatus
  codes : ExtTreeMap String AuthCode
  grants : ExtTreeMap GrantKey GrantRecord
  accessIndex : ExtTreeMap String GrantKey
  refreshIndex : ExtTreeMap String GrantKey
  keys : SigningKeySet
  issuer : String
  counter : ℕ

def pkceMethodS256 : String := "S256"

variable (H : Bytes → String)

/-- The string drawn at a value of the counter. -/
def freshText (label : String) (n : ℕ) : String :=
  H (utf8 label ++ Lib.Compare.beBytes 8 n)

def s256 (verifier : String) : String := H (utf8 verifier)

def codeLabel (key : GrantKey) : String := "code:" ++ key.user ++ ":" ++ key.clientId

def TokenKind.label (kind : TokenKind) (key : GrantKey) (rotation : ℕ) : String :=
  (match kind with | .access => "access:" | .refresh => "refresh:") ++
    key.user ++ ":" ++ key.clientId ++ ":" ++ toString rotation

/-- What a token for a client alone is drawn under. -/
def credentialsLabel (clientId : String) : String := "client-credentials:" ++ clientId

def forget (index : ExtTreeMap String GrantKey) (t : Option String) : ExtTreeMap String GrantKey :=
  t.elim index index.erase

/-! ## The code -/

namespace Provider

def new (issuer : String) (keys : SigningKeySet) : Provider :=
  ⟨⟨∅, ∅⟩, ∅, ∅, ∅, ∅, ∅, keys, issuer, 0⟩

def index (p : Provider) : TokenKind → ExtTreeMap String GrantKey
  | .access => p.accessIndex
  | .refresh => p.refreshIndex

def held (p : Provider) (kind : TokenKind) (key : GrantKey) : Option String :=
  p.grants[key]?.bind fun g => g.token kind

def freshOpaque (p : Provider) (label : String) : Option (String × Provider) :=
  if p.counter + 1 < 2 ^ 64 then
    some (freshText H label (p.counter + 1), { p with counter := p.counter + 1 })
  else none

def putClient (p : Provider) (client : OAuthClient) : Provider :=
  { p with
    registry := { p.registry with clients := p.registry.clients.insert client.clientId client } }

def applyRegistryOp (p : Provider) (op : ClientOp) : Provider :=
  { p with registry := applyOp p.registry op }

/-- The tokens of a user and a client are gone. -/
def revokeGrantTokens (p : Provider) (key : GrantKey) : Provider :=
  match p.grants[key]? with
  | none => p
  | some g =>
    { p with
      grants := p.grants.insert key { g with accessToken := none, refreshToken := none }
      accessIndex := forget p.accessIndex g.accessToken
      refreshIndex := forget p.refreshIndex g.refreshToken }

def revokeAllGrantsForUser (p : Provider) (user : String) : Provider :=
  (p.grants.keys.filter fun key => key.user = user).foldl revokeGrantTokens p

def setUserStatus (p : Provider) (user : String) (status : UserStatus) : Provider :=
  let p := { p with users := p.users.insert user status }
  if status = .disabled then p.revokeAllGrantsForUser user else p

def grantConsent (p : Provider) (user clientId : String) (scopes : Finset String) (at_ : ℕ) :
    Provider :=
  p.applyRegistryOp (.grantConsent user clientId scopes at_)

def revokeConsent (p : Provider) (user clientId : String) (at_ : ℕ) : Provider :=
  (p.applyRegistryOp (.revokeConsent user clientId at_)).revokeGrantTokens ⟨user, clientId⟩

/-- The checks on a request, in order; what is left is its code challenge. -/
def checkAuthorize (p : Provider) (req : AuthorizeRequest) : Except AuthorizeError String :=
  if req.responseType ≠ "code" then .error .unsupportedResponseType
  else match p.registry.clients[req.clientId]? with
  | none => .error .unknownClient
  | some client =>
    if req.redirectUri ∉ client.redirectUris then .error .invalidRedirectUri
    else if .authorizationCode ∉ client.allowedGrants then .error .unauthorizedClient
    else match req.codeChallenge with
    | none => .error .pkceRequired
    | some codeChallenge =>
      if req.codeChallengeMethod ≠ some pkceMethodS256 then .error .unsupportedPkceMethod
      else if p.users[req.user]? ≠ some .active then .error .userNotActive
      else match p.registry.consents[req.key]?.filter fun c => !c.revoked with
      | none => .error .consentRequired
      | some consent =>
        if ¬ req.scopes ⊆ consent.scopes then .error .consentRequired else .ok codeChallenge

/-- A code is drawn and kept for a request that passes the checks. -/
def authorize (p : Provider) (req : AuthorizeRequest) :
    Option (Except AuthorizeError String × Provider) :=
  match p.checkAuthorize req with
  | .error e => some (.error e, p)
  | .ok codeChallenge => do
    let (code, p) ← p.freshOpaque H (codeLabel req.key)
    some (.ok code, { p with
      codes := p.codes.insert code
        ⟨req.clientId, req.user, req.redirectUri, req.scopes, codeChallenge, false⟩ })

/-- The next pair of tokens; the previous one is gone. -/
def mintGrantTokens (p : Provider) (key : GrantKey) (scopes : Finset String) (now : ℤ) :
    Option (TokenResponse × Provider) := do
  let record := p.grants[key]?.getD {}
  let rotation := record.rotations + 1
  guard (rotation < 2 ^ 64)
  let (accessToken, p) ← p.freshOpaque H (TokenKind.access.label key rotation)
  let (refreshToken, p) ← p.freshOpaque H (TokenKind.refresh.label key rotation)
  guard (now + 3600 < 2 ^ 63)
  let idToken ← p.keys ⟨p.issuer, key.user, key.clientId, now, now + 3600⟩
  some (⟨accessToken, "Bearer", 3600, some refreshToken, some idToken⟩, { p with
    grants := p.grants.insert key ⟨some accessToken, some refreshToken, scopes, rotation⟩
    accessIndex := (forget p.accessIndex record.accessToken).insert accessToken key
    refreshIndex := (forget p.refreshIndex record.refreshToken).insert refreshToken key })

def checkCode (p : Provider) (code redirectUri codeVerifier : String) :
    Except TokenError AuthCode :=
  match p.codes[code]? with
  | none => .error .invalidGrant
  | some ac =>
    if ac.consumed then .error .invalidGrant
    else if ac.redirectUri ≠ redirectUri then .error .invalidGrant
    else if s256 H codeVerifier ≠ ac.codeChallenge then .error .invalidGrant
    else if p.users[ac.user]? ≠ some .active then .error .invalidGrant
    else if ¬ p.registry.consented ac.key then .error .invalidGrant
    else .ok ac

/-- A code is redeemed for the first pair of tokens. -/
def tokenAuthorizationCode (p : Provider) (code redirectUri codeVerifier : String) (now : ℤ) :
    Option (Except TokenError TokenResponse × Provider) :=
  match p.checkCode H code redirectUri codeVerifier with
  | .error e => some (.error e, p)
  | .ok ac => do
    let p := { p with codes := p.codes.insert code { ac with consumed := true } }
    let (r, p) ← p.mintGrantTokens H ac.key ac.scopes now
    some (.ok r, p)

def checkRefresh (p : Provider) (refreshToken : String) :
    Except TokenError (GrantKey × GrantRecord) :=
  match p.refreshIndex[refreshToken]? with
  | none => .error .invalidGrant
  | some key =>
    match p.grants[key]? with
    | none => .error .invalidGrant
    | some record =>
      if record.refreshToken ≠ some refreshToken then .error .invalidGrant
      else if p.users[key.user]? ≠ some .active then .error .invalidGrant
      else if ¬ p.registry.consented key then .error .invalidGrant
      else .ok (key, record)

/-- A refresh token is exchanged for the next pair. -/
def tokenRefresh (p : Provider) (refreshToken : String) (now : ℤ) :
    Option (Except TokenError TokenResponse × Provider) :=
  match p.checkRefresh refreshToken with
  | .error e => some (.error e, p)
  | .ok (key, record) => do
    let p := { p with refreshIndex := p.refreshIndex.erase refreshToken }
    let (r, p) ← p.mintGrantTokens H key record.scopes now
    some (.ok r, p)

def checkCredentials (p : Provider) (clientId : String) : Except TokenError Unit :=
  match p.registry.clients[clientId]? with
  | none => .error .unauthorizedClient
  | some client =>
    if client.clientType ≠ .confidential ∨ .clientCredentials ∉ client.allowedGrants then
      .error .unauthorizedClient
    else .ok ()

def tokenClientCredentials (p : Provider) (clientId : String) :
    Option (Except TokenError TokenResponse × Provider) :=
  match p.checkCredentials clientId with
  | .error e => some (.error e, p)
  | .ok () => do
    let (accessToken, p) ← p.freshOpaque H (credentialsLabel clientId)
    some (.ok ⟨accessToken, "Bearer", 3600, none, none⟩, p)

def introspect (p : Provider) (accessToken : String) : Bool :=
  match p.accessIndex[accessToken]? with
  | none => false
  | some key =>
    match p.grants[key]? with
    | none => false
    | some record =>
      if record.accessToken ≠ some accessToken then false
      else p.registry.consented key && decide (p.users[key.user]? = some .active)

def revoke (p : Provider) (accessToken : String) : Provider :=
  match p.accessIndex[accessToken]? with
  | none => p
  | some key =>
    { p with
      accessIndex := p.accessIndex.erase accessToken
      grants := p.grants.modify key fun record =>
        if record.accessToken = some accessToken then { record with accessToken := none }
        else record }

end Provider

/-! ## Calls -/

inductive Call where
  | putClient (client : OAuthClient)
  | setUserStatus (user : String) (status : UserStatus)
  | grantConsent (user clientId : String) (scopes : Finset String) (at_ : ℕ)
  | revokeConsent (user clientId : String) (at_ : ℕ)
  /-- The registry is public, and operations are applied to it. -/
  | registryOp (op : ClientOp)
  | authorize (req : AuthorizeRequest)
  | tokenAuthorizationCode (code redirectUri codeVerifier : String) (now : ℤ)
  | tokenRefresh (refreshToken : String) (now : ℤ)
  | tokenClientCredentials (clientId : String) (now : ℤ)
  | revoke (accessToken : String)
  deriving DecidableEq

inductive Answer where
  | done
  | authorized (r : Except AuthorizeError String)
  | token (r : Except TokenError TokenResponse)
  deriving DecidableEq

/-- One call and its answer; none if it panics. -/
def call (p : Provider) : Call → Option (Answer × Provider)
  | .putClient client => some (.done, p.putClient client)
  | .setUserStatus user status => some (.done, p.setUserStatus user status)
  | .grantConsent user clientId scopes at_ =>
    some (.done, p.grantConsent user clientId scopes at_)
  | .revokeConsent user clientId at_ => some (.done, p.revokeConsent user clientId at_)
  | .registryOp op => some (.done, p.applyRegistryOp op)
  | .authorize req => (p.authorize H req).map fun (r, p) => (.authorized r, p)
  | .tokenAuthorizationCode code redirectUri codeVerifier now =>
    (p.tokenAuthorizationCode H code redirectUri codeVerifier now).map fun (r, p) => (.token r, p)
  | .tokenRefresh refreshToken now =>
    (p.tokenRefresh H refreshToken now).map fun (r, p) => (.token r, p)
  | .tokenClientCredentials clientId _ =>
    (p.tokenClientCredentials H clientId).map fun (r, p) => (.token r, p)
  | .revoke accessToken => some (.done, p.revoke accessToken)

def step (s : Option Provider) (a : Call) : Option Provider :=
  s.bind fun p => (call H p a).map Prod.snd

def Answers (ans : Answer) (s : Option Provider) (a : Call) : Prop :=
  ∃ p, s = some p ∧ (call H p a).map Prod.fst = some ans

instance (ans : Answer) (s : Option Provider) (a : Call) : Decidable (Answers H ans s a) :=
  decidable_of_iff (s.any (fun p => (call H p a).map Prod.fst = some ans) = true)
    (by simp [Answers, Option.any_eq_true])

def Call.asksToken : Call → Bool
  | .tokenAuthorizationCode .. | .tokenRefresh .. | .tokenClientCredentials .. => true
  | _ => false

def Call.key (p : Provider) : Call → Option GrantKey
  | .tokenAuthorizationCode code _ _ _ => p.codes[code]?.map AuthCode.key
  | .tokenRefresh refreshToken _ => p.refreshIndex[refreshToken]?
  | _ => none

end Pillar.Oidc
