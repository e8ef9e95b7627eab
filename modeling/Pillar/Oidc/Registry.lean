import Pillar.Core

/-!
# Clients and consents

`pillar-oidc`'s registry: the clients, with what each of them may ask for, and for every user and
client the scopes that the user has consented to.
-/

namespace Pillar.Oidc

open Std

/-! ## Types -/

/-- Whether a client can keep a secret. -/
inductive ClientType where
  | confidential
  | public_
  deriving DecidableEq

inductive GrantType where
  | authorizationCode
  | refreshToken
  | clientCredentials
  deriving DecidableEq

/-- Whether only a client that can keep a secret may have the grant. -/
def GrantType.requiresConfidential : GrantType → Bool
  | .clientCredentials => true
  | .authorizationCode | .refreshToken => false

/-- A client, and what it may ask for. -/
structure OAuthClient where
  clientId : String
  clientType : ClientType
  redirectUris : Finset String
  allowedScopes : Finset String
  allowedGrants : Finset GrantType
  createdAt : ℕ
  updatedAt : ℕ
  deriving DecidableEq

@[ext] structure GrantKey where
  user : String
  clientId : String
  deriving DecidableEq

instance : Ord GrantKey := ⟨compareLex (compareOn GrantKey.user) (compareOn GrantKey.clientId)⟩

instance : TransOrd GrantKey :=
  inferInstanceAs (TransCmp (compareLex (compareOn GrantKey.user) (compareOn GrantKey.clientId)))

instance : LawfulEqOrd GrantKey where
  compare_self := by
    intro a
    show compareLex (compareOn GrantKey.user) (compareOn GrantKey.clientId) a a = .eq
    exact ReflCmp.compare_self
  eq_of_compare := by
    intro a b h
    have hboth := compareLex_eq_eq.1 h
    exact GrantKey.ext (LawfulEqCmp.eq_of_compare hboth.1) (LawfulEqCmp.eq_of_compare hboth.2)

structure Consent where
  user : String
  clientId : String
  scopes : Finset String
  grantedAt : ℕ
  updatedAt : ℕ
  revoked : Bool
  deriving DecidableEq

structure ClientRegistry where
  clients : ExtTreeMap String OAuthClient
  consents : ExtTreeMap GrantKey Consent

inductive ClientOp where
  | registerClient (clientId : String) (clientType : ClientType) (redirectUris : Finset String)
      (allowedScopes : Finset String) (allowedGrants : Finset GrantType) (at_ : ℕ)
  | setRedirectUris (clientId : String) (redirectUris : Finset String) (at_ : ℕ)
  | setGrants (clientId : String) (allowedGrants : Finset GrantType) (at_ : ℕ)
  | grantConsent (user clientId : String) (scopes : Finset String) (at_ : ℕ)
  | revokeConsent (user clientId : String) (at_ : ℕ)
  deriving DecidableEq

/-! ## The code -/

/-- A client that cannot keep a secret does not get grants that need one. -/
def sanitizeGrants (clientType : ClientType) (grants : Finset GrantType) : Finset GrantType :=
  if clientType = .public_ then grants.filter fun g => g.requiresConfidential = false else grants

def Consent.extend (c : Consent) (scopes : Finset String) (at_ : ℕ) : Consent :=
  { c with scopes := c.scopes ∪ scopes, revoked := false, updatedAt := at_ }

def applyOp (r : ClientRegistry) : ClientOp → ClientRegistry
  | .registerClient clientId clientType redirectUris allowedScopes allowedGrants at_ =>
    { r with
      clients := r.clients.insertIfNew clientId
        ⟨clientId, clientType, redirectUris, allowedScopes, sanitizeGrants clientType allowedGrants,
          at_, at_⟩ }
  | .setRedirectUris clientId redirectUris at_ =>
    { r with
      clients := r.clients.modify clientId fun c => { c with redirectUris, updatedAt := at_ } }
  | .setGrants clientId allowedGrants at_ =>
    { r with
      clients := r.clients.modify clientId fun c =>
        { c with allowedGrants := sanitizeGrants c.clientType allowedGrants, updatedAt := at_ } }
  | .grantConsent user clientId scopes at_ =>
    { r with
      consents :=
        match r.consents[(⟨user, clientId⟩ : GrantKey)]? with
        | some c => r.consents.insert ⟨user, clientId⟩ (c.extend scopes at_)
        | none => r.consents.insert ⟨user, clientId⟩ ⟨user, clientId, scopes, at_, at_, false⟩ }
  | .revokeConsent user clientId at_ =>
    { r with
      consents := r.consents.modify ⟨user, clientId⟩ fun c =>
        { c with revoked := true, updatedAt := at_ } }

def ClientRegistry.consented (r : ClientRegistry) (key : GrantKey) : Bool :=
  r.consents[key]?.any fun c => !c.revoked

/-! ## What an operation does -/

def GrantsConsent (key : GrantKey) (op : ClientOp) : Prop :=
  ∃ scopes at_, op = .grantConsent key.user key.clientId scopes at_

theorem not_consented_revoke (r : ClientRegistry) (key : GrantKey) (at_ : ℕ) :
    (applyOp r (.revokeConsent key.user key.clientId at_)).consented key = false := by
  simp only [applyOp, ClientRegistry.consented, ExtTreeMap.getElem?_modify_self]
  cases r.consents[key]? <;> rfl

variable {r : ClientRegistry}

theorem consented_applyOp {op : ClientOp} {key : GrantKey}
    (h : (applyOp r op).consented key = true) :
    r.consented key = true ∨ GrantsConsent key op := by
  cases op with
  | registerClient | setRedirectUris | setGrants => exact .inl h
  | grantConsent user clientId scopes at_ =>
    by_cases hkey : (⟨user, clientId⟩ : GrantKey) = key
    · exact .inr ⟨scopes, at_, by rw [← hkey]⟩
    · refine .inl ?_
      simp only [applyOp, ClientRegistry.consented] at h ⊢
      cases hc : r.consents[(⟨user, clientId⟩ : GrantKey)]? <;>
        simpa [hc, ExtTreeMap.getElem?_insert, hkey] using h
  | revokeConsent user clientId at_ =>
    refine .inl ?_
    by_cases hkey : (⟨user, clientId⟩ : GrantKey) = key
    · subst hkey
      rw [not_consented_revoke r ⟨user, clientId⟩] at h
      cases h
    · simpa [applyOp, ClientRegistry.consented, ExtTreeMap.getElem?_modify, hkey] using h

theorem consents_applyOp {key : GrantKey} {c : Consent} (h : r.consents[key]? = some c)
    (op : ClientOp) : ∃ c', (applyOp r op).consents[key]? = some c' ∧ c.scopes ⊆ c'.scopes := by
  cases op with
  | registerClient | setRedirectUris | setGrants => exact ⟨c, h, Finset.Subset.refl _⟩
  | grantConsent user clientId scopes at_ =>
    by_cases hkey : (⟨user, clientId⟩ : GrantKey) = key
    · subst hkey
      exact ⟨c.extend scopes at_, by simp [applyOp, h], Finset.subset_union_left⟩
    · refine ⟨c, ?_, Finset.Subset.refl _⟩
      simp only [applyOp]
      cases r.consents[(⟨user, clientId⟩ : GrantKey)]? <;>
        simpa [ExtTreeMap.getElem?_insert, hkey] using h
  | revokeConsent user clientId at_ =>
    simp only [applyOp, ExtTreeMap.getElem?_modify]
    by_cases hkey : (⟨user, clientId⟩ : GrantKey) = key
    · subst hkey
      simp [h]
    · simp [hkey, h]

theorem clients_applyOp {clientId : String} {client : OAuthClient}
    (h : r.clients[clientId]? = some client) (op : ClientOp)
    (hop : ∀ grants at_, op = .setGrants clientId grants at_ →
      client.allowedGrants ⊆ sanitizeGrants client.clientType grants) :
    ∃ client', (applyOp r op).clients[clientId]? = some client' ∧
      client.allowedGrants ⊆ client'.allowedGrants ∧
      client.allowedScopes ⊆ client'.allowedScopes := by
  cases op with
  | registerClient id =>
    refine ⟨client, ?_, Finset.Subset.refl _, Finset.Subset.refl _⟩
    have hmem : clientId ∈ r.clients := ExtTreeMap.isSome_getElem?_iff_mem.1 (by rw [h]; rfl)
    simp only [applyOp, ExtTreeMap.getElem?_insertIfNew]
    rw [if_neg, h]
    rintro ⟨heq, hnot⟩
    rw [LawfulEqOrd.eq_of_compare heq] at hnot
    exact hnot hmem
  | setRedirectUris id uris at_ =>
    simp only [applyOp, ExtTreeMap.getElem?_modify]
    split_ifs with heq
    · rw [LawfulEqOrd.eq_of_compare heq, h]
      exact ⟨_, rfl, Finset.Subset.refl _, Finset.Subset.refl _⟩
    · exact ⟨client, h, Finset.Subset.refl _, Finset.Subset.refl _⟩
  | setGrants id grants at_ =>
    simp only [applyOp, ExtTreeMap.getElem?_modify]
    split_ifs with heq
    · obtain rfl := LawfulEqOrd.eq_of_compare heq
      rw [h]
      exact ⟨_, rfl, hop grants at_ rfl, Finset.Subset.refl _⟩
    · exact ⟨client, h, Finset.Subset.refl _, Finset.Subset.refl _⟩
  | grantConsent | revokeConsent =>
    exact ⟨client, h, Finset.Subset.refl _, Finset.Subset.refl _⟩

end Pillar.Oidc
