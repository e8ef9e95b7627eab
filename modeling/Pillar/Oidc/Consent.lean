import Pillar.Oidc.Grants

/-!
# The end of a consent

When a user revokes its consent, the tokens of the client are gone: nothing brings them back, not
even the same consent granted again.
-/

namespace Pillar.Oidc

open Function (Injective)
open Lib.Base64 Lib.Runs Std

variable {H : Bytes → String} {p p' : Provider} {key : GrantKey} {kind : TokenKind} {t : String}
  {a : Call} {ans : Answer}

def Regrants (key : GrantKey) (a : Call) : Prop :=
  (∃ scopes at_, a = .grantConsent key.user key.clientId scopes at_) ∨
    ∃ op, a = .registryOp op ∧ GrantsConsent key op

theorem registry_revokeGrantTokens (p : Provider) (key : GrantKey) :
    (p.revokeGrantTokens key).registry = p.registry := by
  rw [Provider.revokeGrantTokens]
  split <;> rfl

theorem registry_revokeAllGrantsForUser (p : Provider) (user : String) :
    (p.revokeAllGrantsForUser user).registry = p.registry := by
  rw [Provider.revokeAllGrantsForUser]
  generalize p.grants.keys.filter (fun key => decide (key.user = user)) = l
  induction l generalizing p with
  | nil => rfl
  | cons key l ih => rw [List.foldl_cons, ih, registry_revokeGrantTokens]

theorem registry_revoke (p : Provider) (t : String) : (p.revoke t).registry = p.registry := by
  rw [Provider.revoke]
  split <;> rfl

theorem Minted.registry {scopes : Finset String} {r : TokenResponse}
    (h : Minted H p key scopes r p') : p'.registry = p.registry := by rw [h.after]

theorem Effect.registry (h : Effect H p a ans p') :
    p'.registry = p.registry ∨ (∃ client, a = .putClient client ∧ p' = p.putClient client) ∨
      ∃ op, p'.registry = applyOp p.registry op ∧
        (a = .registryOp op ∨
          (∃ user clientId scopes at_, a = .grantConsent user clientId scopes at_ ∧
            op = .grantConsent user clientId scopes at_) ∨
          ∃ user clientId at_, a = .revokeConsent user clientId at_ ∧
            op = .revokeConsent user clientId at_) := by
  cases h with
  | notAuthorized | noToken | statusSet | issued | credentials => exact .inl rfl
  | clientPut => exact .inr (.inl ⟨_, rfl, rfl⟩)
  | operated => exact .inr (.inr ⟨_, rfl, .inl rfl⟩)
  | consentGranted => exact .inr (.inr ⟨_, rfl, .inr (.inl ⟨_, _, _, _, rfl, rfl⟩)⟩)
  | @consentRevoked user clientId at_ =>
    exact .inr (.inr ⟨.revokeConsent user clientId at_,
      registry_revokeGrantTokens (p.applyRegistryOp _) _, .inr (.inr ⟨_, _, _, rfl, rfl⟩)⟩)
  | disabled => exact .inl (registry_revokeAllGrantsForUser _ _)
  | redeemed hcheck hmint | refreshed hcheck hmint => exact .inl hmint.registry
  | revoked => exact .inl (registry_revoke p _)

theorem consented_effect (h : Effect H p a ans p') (hp' : p'.registry.consented key = true) :
    p.registry.consented key = true ∨ Regrants key a := by
  rcases h.registry with hsame | ⟨client, rfl, rfl⟩ | ⟨op, hop, hcall⟩
  · exact .inl (by rwa [hsame] at hp')
  · exact .inl hp'
  · rw [hop] at hp'
    refine (consented_applyOp hp').imp_right ?_
    rintro ⟨scopes, at_, rfl⟩
    rcases hcall with rfl | ⟨_, _, _, _, rfl, heq⟩ | ⟨_, _, _, -, heq⟩
    · exact .inr ⟨_, rfl, scopes, at_, rfl⟩
    · cases heq
      exact .inl ⟨scopes, at_, rfl⟩
    · cases heq

theorem not_consented_step (s : Option Provider) (a : Call)
    (hs : Alive (fun p => p.registry.consented key = false) s) (ha : ¬ Regrants key a) :
    Alive (fun p => p.registry.consented key = false) (step H s a) := by
  intro p' hp'
  obtain ⟨p, ans, rfl, hcall⟩ := step_eq_some_iff.1 hp'
  have hbefore := hs p rfl
  by_contra hafter
  rcases consented_effect (effect_call hcall) (by simpa using hafter) with h | h
  · rw [hbefore] at h
    cases h
  · exact ha h

section Revocation

variable (hH : Injective H) (issuer : String) (keys : SigningKeySet) (l₁ l₂ : List Call)
  (key : GrantKey) (at_ : ℕ)

def afterRevocation (H : Bytes → String) (issuer : String) (keys : SigningKeySet) (l₁ : List Call)
    (key : GrantKey) (at_ : ℕ) : Option Provider :=
  step H (exec (step H) (start issuer keys) l₁) (.revokeConsent key.user key.clientId at_)

theorem not_consented_afterRevocation :
    Alive (fun p => p.registry.consented key = false)
      (afterRevocation H issuer keys l₁ key at_) := by
  intro p' hp'
  obtain ⟨p, ans, -, hcall⟩ := step_eq_some_iff.1 hp'
  cases hcall
  rw [Provider.revokeConsent, registry_revokeGrantTokens]
  exact not_consented_revoke p.registry key at_

include hH

theorem dead_afterRevocation
    (h : Ever (step H) (Mints H kind key t) (start issuer keys) l₁) (kind' : TokenKind) :
    Alive (Dead H kind' t) (afterRevocation H issuer keys l₁ key at_) := by
  have howned : Alive (Owned H kind' key t) (afterRevocation H issuer keys l₁ key at_) :=
    owned_step hH _ _ (owned_exec hH issuer keys h kind')
  intro p' hp'
  obtain ⟨hknown, honly⟩ := howned p' hp'
  refine ⟨hknown, fun key' hkey' => ?_⟩
  obtain rfl := honly key' hkey'
  obtain ⟨p, ans, -, hcall⟩ := step_eq_some_iff.1 hp'
  cases hcall
  rw [Provider.revokeConsent, Provider.held_revokeGrantTokens, if_pos rfl] at hkey'
  cases hkey'

theorem dead_later (h : Ever (step H) (Mints H kind key t) (start issuer keys) l₁)
    (kind' : TokenKind) :
    Alive (Dead H kind' t) (exec (step H) (afterRevocation H issuer keys l₁ key at_) l₂) :=
  exec_inv (dead_step hH) (dead_afterRevocation hH issuer keys l₁ key at_ h kind') l₂

end Revocation

/-- **The end of a consent.** -/
theorem revoked_consent_kills (hH : Injective H) (issuer : String) (keys : SigningKeySet)
    (l₁ l₂ : List Call) (key : GrantKey) (at_ : ℕ) :
    (∀ kind t, Ever (step H) (Mints H kind key t) (start issuer keys) l₁ →
      (∀ p, exec (step H) (afterRevocation H issuer keys l₁ key at_) l₂ = some p →
        p.introspect t = false) ∧
      ¬ Ever (step H) (Refreshes H t) (afterRevocation H issuer keys l₁ key at_) l₂) ∧
    ∀ req code, req.key = key → Ever (step H) (Issues H req code) (start issuer keys) l₁ →
      ((∃ redirectUri codeVerifier,
          Ever (step H) (Redeems H code redirectUri codeVerifier) (start issuer keys) l₁) ∨
        ¬ Ever (step H) (fun _ => Regrants key) (afterRevocation H issuer keys l₁ key at_) l₂) →
      ∀ redirectUri codeVerifier, ¬ Ever (step H) (Redeems H code redirectUri codeVerifier)
        (afterRevocation H issuer keys l₁ key at_) l₂ := by
  refine ⟨fun kind t hmint => ⟨fun p hp => ?_, ?_⟩, ?_⟩
  · by_contra hactive
    obtain ⟨key', -, hheld, -⟩ := introspect_iff.1 (by simpa using hactive)
    exact (dead_later hH issuer keys l₁ l₂ key at_ hmint .access p hp).2 key' hheld
  · exact not_ever_of_inv (dead_step hH) (fun s a hs => not_refreshes_of_dead hs)
      (dead_afterRevocation hH issuer keys l₁ key at_ hmint .refresh) l₂
  · rintro req code rfl hissued hcondition redirectUri codeVerifier hredeemed
    rcases hcondition with ⟨uri, verifier, hbefore⟩ | hnot
    · -- redeemed before: it is spent, and stays so
      have hspent : Alive (Spent H code) (exec (step H) (start issuer keys) l₁) :=
        exec_of_ever (sound_step hH) (fun _ _ hs h => spent_of_redeems hs h) (spent_step hH)
          (sound_start issuer keys) hbefore
      exact not_ever_of_inv (spent_step hH) (fun s a hs => not_redeems_of_spent hs)
        (spent_step hH _ _ hspent) l₂ hredeemed
    · -- not granted again: the check of the consent fails
      obtain ⟨q, a, q', rfl, h⟩ := hredeemed
      obtain ⟨p, ac, r, p', hp, hcheck, -⟩ := redeems_cases h
      obtain ⟨hcode, -, -, -, -, hconsent⟩ := checkCode_eq_ok hcheck
      have hbound : Alive (Bound H req code)
          (exec (step H) (afterRevocation H issuer keys l₁ req.key at_) q) :=
        exec_inv (bound_step hH) (bound_step hH _ _ (bound_exec hH issuer keys hissued)) q
      have hnone := throughout_of_along not_consented_step
        (not_consented_afterRevocation issuer keys l₁ req.key at_) (not_ever_iff_along.1 hnot) q
        (List.prefix_append q (a :: q')) p hp
      rw [((hbound p hp).2 ac hcode).1, hnone] at hconsent
      cases hconsent

/-- The code is redeemed, and the consent revoked. -/
def appRevoked : Option Provider :=
  afterRevocation encode "op" (signer "op") (appAuthorized ++ [appRedeems]) ⟨"ann", "app"⟩ 1

/-- The consent is granted again, and the code and the refresh token are presented. -/
def appRetries : List Call :=
  [.grantConsent "ann" "app" {"openid"} 2, appRedeems, .tokenRefresh (appToken .refresh) 0]

/-- The consent is there again, the tokens and the code are not. -/
theorem revoked_token_dead :
    (∃ p, exec (step encode) appRevoked appRetries = some p ∧
      p.registry.consented ⟨"ann", "app"⟩ = true ∧ p.introspect (appToken .access) = false) ∧
    ¬ Ever (step encode) (Refreshes encode (appToken .refresh)) appRevoked appRetries ∧
    ¬ Ever (step encode) (Redeems encode appCode "app:/back" "verifier") appRevoked appRetries := by
  obtain ⟨htokens, hcodes⟩ := revoked_consent_kills encode_injective "op" (signer "op")
    (appAuthorized ++ [appRedeems]) appRetries ⟨"ann", "app"⟩ 1
  have haccess := htokens .access (appToken .access)
    ⟨appAuthorized, appRedeems, [], rfl, appResponse, by decide +kernel, rfl⟩
  have hrefresh := htokens .refresh (appToken .refresh)
    ⟨appAuthorized, appRedeems, [], rfl, appResponse, by decide +kernel, rfl⟩
  have hcode := hcodes appRequest appCode rfl
    ⟨appAuthorized.take 3, .authorize appRequest, [appRedeems], rfl, by decide +kernel⟩
    (.inl ⟨"app:/back", "verifier", appAuthorized, appRedeems, [], rfl, 0, appResponse, rfl,
      by decide +kernel⟩)
  have hrun : (exec (step encode) appRevoked appRetries).any
      (fun p => p.registry.consented ⟨"ann", "app"⟩) = true := by decide +kernel
  obtain ⟨p, hp, hconsent⟩ := (Option.any_eq_true _ _).1 hrun
  exact ⟨⟨p, hp, hconsent, haccess.1 p hp⟩, hrefresh.2, hcode "app:/back" "verifier"⟩

/-- **A consent that is granted again revives the codes.** -/
theorem revived_consent_redeems :
    appRequest.key = ⟨"ann", "app"⟩ ∧
      Ever (step encode) (Issues encode appRequest appCode) appStart
        appAuthorized ∧
      Ever (step encode) (Redeems encode appCode "app:/back" "verifier")
        (afterRevocation encode "op" (signer "op") appAuthorized ⟨"ann", "app"⟩ 1)
        [.grantConsent "ann" "app" {"openid"} 2, appRedeems] := by
  refine ⟨rfl, ?_, ?_⟩
  · exact ⟨appAuthorized.take 3, .authorize appRequest, [], rfl, by decide +kernel⟩
  · exact ⟨[.grantConsent "ann" "app" {"openid"} 2], appRedeems, [], rfl, 0, appResponse, rfl,
      by decide +kernel⟩

end Pillar.Oidc
