import Pillar.Oidc.Provider

/-!
# The tokens of a provider

What a call does to the codes and the tokens. A token is held by a user and a client, and the index
says whose token a string is.

* `Sound` — **every code and token was drawn, and a token that is held is indexed.**
-/

namespace Pillar.Oidc

open Function (Injective)
open Std Provider

/-! ## Which tokens are held -/

theorem getElem?_forget (index : ExtTreeMap String GrantKey) (held : Option String) (t : String) :
    (forget index held)[t]? = if held = some t then none else index[t]? := by
  cases held with
  | none => simp [forget]
  | some t' => simp [forget, ExtTreeMap.getElem?_erase]

namespace Provider

theorem held_of_grants {p p' : Provider} (h : p'.grants = p.grants) : p'.held = p.held := by
  funext kind key
  rw [held, held, h]

theorem held_revokeGrantTokens (p : Provider) (key key' : GrantKey) (kind : TokenKind) :
    (p.revokeGrantTokens key).held kind key' = if key' = key then none else p.held kind key' := by
  rw [revokeGrantTokens]
  cases hg : p.grants[key]? with
  | none =>
    split_ifs with h
    · simp [held, h, hg]
    · rfl
  | some g =>
    split_ifs with h
    · cases kind <;> simp [held, h, GrantRecord.token]
    · simp [held, ExtTreeMap.getElem?_insert, Ne.symm h]

theorem index_revokeGrantTokens (p : Provider) (key : GrantKey) (kind : TokenKind) (t : String) :
    ((p.revokeGrantTokens key).index kind)[t]? =
      if p.held kind key = some t then none else (p.index kind)[t]? := by
  rw [revokeGrantTokens, held]
  cases hg : p.grants[key]? with
  | none => simp
  | some g =>
    cases kind with
    | access => exact getElem?_forget p.accessIndex g.accessToken t
    | refresh => exact getElem?_forget p.refreshIndex g.refreshToken t

theorem held_revoke (p : Provider) (t : String) (kind : TokenKind) (key : GrantKey) :
    (p.revoke t).held kind key =
      if kind = .access ∧ p.accessIndex[t]? = some key ∧ p.held .access key = some t then none
      else p.held kind key := by
  rw [revoke]
  cases hkey : p.accessIndex[t]? with
  | none => simp
  | some key' =>
    by_cases h : key' = key
    · subst h
      cases hg : p.grants[key']? with
      | none => cases kind <;> simp [held, hg]
      | some g =>
        by_cases ht : g.accessToken = some t <;> cases kind <;>
          simp [held, hg, ht, GrantRecord.token]
    · simp [held, ExtTreeMap.getElem?_modify, h]

theorem index_revoke (p : Provider) (t t' : String) (kind : TokenKind) :
    ((p.revoke t).index kind)[t']? =
      if kind = .access ∧ t = t' then none else (p.index kind)[t']? := by
  rw [revoke]
  cases hkey : p.accessIndex[t]? with
  | none =>
    split_ifs with h
    · rw [h.1, ← h.2]
      exact hkey
    · rfl
  | some key => cases kind <;> simp [index, ExtTreeMap.getElem?_erase]

end Provider

def Indexed (p : Provider) : Prop :=
  ∀ kind key t, p.held kind key = some t → (p.index kind)[t]? = some key

/-- No code and no token has come up: codes may have been consumed and tokens lost. -/
structure Shrinks (p p' : Provider) : Prop where
  counter : p.counter ≤ p'.counter
  codes : ∀ (code : String) (ac' : AuthCode), p'.codes[code]? = some ac' →
    ∃ ac, p.codes[code]? = some ac ∧ (ac' = ac ∨ ac' = { ac with consumed := true })
  held : ∀ kind key t, p'.held kind key = some t → p.held kind key = some t
  index : ∀ kind (t : String) key, (p'.index kind)[t]? = some key → (p.index kind)[t]? = some key
  indexed : Indexed p → Indexed p'

theorem Shrinks.trans {p₁ p₂ p₃ : Provider} (h : Shrinks p₁ p₂) (h' : Shrinks p₂ p₃) :
    Shrinks p₁ p₃ where
  counter := h.counter.trans h'.counter
  codes code ac₃ hcode := by
    obtain ⟨ac₂, hcode, h₃⟩ := h'.codes code ac₃ hcode
    obtain ⟨ac₁, hcode, h₂⟩ := h.codes code ac₂ hcode
    refine ⟨ac₁, hcode, ?_⟩
    rcases h₃ with rfl | rfl <;> rcases h₂ with rfl | rfl <;> simp
  held kind key t ht := h.held kind key t (h'.held kind key t ht)
  index kind t key ht := h.index kind t key (h'.index kind t key ht)
  indexed hp := h'.indexed (h.indexed hp)

theorem Shrinks.of_eq {p p' : Provider} (hcounter : p.counter ≤ p'.counter)
    (hcodes : p'.codes = p.codes) (hgrants : p'.grants = p.grants) (hindex : p'.index = p.index) :
    Shrinks p p' where
  counter := hcounter
  codes code ac h := ⟨ac, hcodes ▸ h, .inl rfl⟩
  held kind key t h := by rwa [held_of_grants hgrants] at h
  index kind t key h := by rwa [hindex] at h
  indexed h := by
    intro kind key t ht
    rw [held_of_grants hgrants] at ht
    rw [hindex]
    exact h kind key t ht

theorem shrinks_revokeGrantTokens (p : Provider) (key : GrantKey) :
    Shrinks p (p.revokeGrantTokens key) where
  counter := by
    rw [revokeGrantTokens]
    split <;> exact le_rfl
  codes code ac h := by
    refine ⟨ac, ?_, .inl rfl⟩
    rw [revokeGrantTokens] at h
    split at h <;> exact h
  held kind key' t h := by
    rw [held_revokeGrantTokens] at h
    split_ifs at h
    exact h
  index kind t key' h := by
    rw [index_revokeGrantTokens] at h
    split_ifs at h
    exact h
  indexed h := by
    intro kind key' t ht
    rw [held_revokeGrantTokens] at ht
    split_ifs at ht with hne
    rw [index_revokeGrantTokens, if_neg, h kind key' t ht]
    -- a token that two of them held would be in the index twice
    intro ht'
    have := h kind key t ht'
    rw [h kind key' t ht] at this
    exact hne (Option.some.inj this)

theorem shrinks_revoke (p : Provider) (t : String) : Shrinks p (p.revoke t) where
  counter := by
    rw [revoke]
    split <;> exact le_rfl
  codes code ac h := by
    refine ⟨ac, ?_, .inl rfl⟩
    rw [revoke] at h
    split at h <;> exact h
  held kind key t' h := by
    rw [held_revoke] at h
    split_ifs at h
    exact h
  index kind t' key h := by
    rw [index_revoke] at h
    split_ifs at h
    exact h
  indexed h := by
    intro kind key t' ht
    rw [held_revoke] at ht
    split_ifs at ht with hlost
    rw [index_revoke, if_neg, h kind key t' ht]
    rintro ⟨rfl, rfl⟩
    exact hlost ⟨rfl, h .access key t ht, ht⟩

theorem shrinks_foldl_revoke (keys : List GrantKey) (p : Provider) :
    Shrinks p (keys.foldl revokeGrantTokens p) := by
  induction keys generalizing p with
  | nil => exact .of_eq le_rfl rfl rfl rfl
  | cons key keys ih => exact (shrinks_revokeGrantTokens p key).trans (ih _)

theorem held_foldl_revoke (keys : List GrantKey) (p : Provider) (kind : TokenKind)
    (key : GrantKey) :
    (keys.foldl revokeGrantTokens p).held kind key =
      if key ∈ keys then none else p.held kind key := by
  induction keys generalizing p with
  | nil => rfl
  | cons key' keys ih =>
    rw [List.foldl_cons, ih, held_revokeGrantTokens]
    by_cases hkey : key = key' <;> by_cases hkeys : key ∈ keys <;> simp [hkey, hkeys]

theorem held_revokeAllGrantsForUser (p : Provider) (kind : TokenKind) (key : GrantKey) :
    (p.revokeAllGrantsForUser key.user).held kind key = none := by
  rw [revokeAllGrantsForUser, held_foldl_revoke]
  split_ifs with h
  · rfl
  · have hkey : p.grants[key]? = none := by
      apply ExtTreeMap.getElem?_eq_none
      simpa using h
    rw [held, hkey]
    rfl

/-! ## A pair of tokens -/

variable (H : Bytes → String)

def Provider.rotation (p : Provider) (key : GrantKey) : ℕ := (p.grants[key]?.getD {}).rotations + 1

/-- How far the counter has come when the token is drawn. -/
def TokenKind.offset : TokenKind → ℕ
  | .access => 1
  | .refresh => 2

def Provider.nextToken (p : Provider) (kind : TokenKind) (key : GrantKey) : String :=
  freshText H (kind.label key (p.rotation key)) (p.counter + kind.offset)

structure Minted (p : Provider) (key : GrantKey) (scopes : Finset String) (r : TokenResponse)
    (p' : Provider) : Prop where
  bound : p.counter + 2 < 2 ^ 64
  token : ∀ kind, r.token kind = some (p.nextToken H kind key)
  after : p' = { p with
    counter := p.counter + 2
    grants := p.grants.insert key ⟨p.nextToken H .access key, p.nextToken H .refresh key, scopes,
      p.rotation key⟩
    accessIndex := (forget p.accessIndex (p.held .access key)).insert
      (p.nextToken H .access key) key
    refreshIndex := (forget p.refreshIndex (p.held .refresh key)).insert
      (p.nextToken H .refresh key) key }

variable {H} {p p' : Provider} {key : GrantKey} {scopes : Finset String} {r : TokenResponse}

theorem freshOpaque_eq_some {label text : String} (h : p.freshOpaque H label = some (text, p')) :
    p.counter + 1 < 2 ^ 64 ∧ text = freshText H label (p.counter + 1) ∧
      p' = { p with counter := p.counter + 1 } := by
  rw [freshOpaque] at h
  split_ifs at h with hbound
  cases h
  exact ⟨hbound, rfl, rfl⟩

theorem minted_of_mintGrantTokens {now : ℤ}
    (h : p.mintGrantTokens H key scopes now = some (r, p')) : Minted H p key scopes r p' := by
  simp only [mintGrantTokens, Option.bind_eq_bind, Option.bind_eq_some_iff, Prod.exists]
    at h
  obtain ⟨-, -, access, p₁, haccess, refresh, p₂, hrefresh, -, -, idToken, -, h⟩ := h
  obtain ⟨-, rfl, rfl⟩ := freshOpaque_eq_some haccess
  obtain ⟨hbound, rfl, rfl⟩ := freshOpaque_eq_some hrefresh
  cases h
  refine ⟨hbound, ?_, ?_⟩
  · intro kind
    cases kind <;> rfl
  · cases hg : p.grants[key]? <;>
      simp [Provider.nextToken, Provider.rotation, Provider.held, GrantRecord.token,
        TokenKind.offset, hg]

theorem Minted.held (h : Minted H p key scopes r p') (kind : TokenKind) (key' : GrantKey) :
    p'.held kind key' = if key' = key then some (p.nextToken H kind key) else p.held kind key' := by
  rw [h.after, Provider.held]
  by_cases hkey : key' = key
  · cases kind <;> simp [hkey, GrantRecord.token]
  · simp [hkey, Ne.symm hkey, ExtTreeMap.getElem?_insert, Provider.held]

theorem Minted.index (h : Minted H p key scopes r p') (kind : TokenKind) (t : String) :
    (p'.index kind)[t]? =
      if t = p.nextToken H kind key then some key
      else if p.held kind key = some t then none else (p.index kind)[t]? := by
  rw [h.after]
  by_cases ht : t = p.nextToken H kind key
  · cases kind <;> simp [Provider.index, ht]
  · cases kind <;>
      simp [Provider.index, ht, Ne.symm ht, ExtTreeMap.getElem?_insert, getElem?_forget]

theorem Minted.counter (h : Minted H p key scopes r p') : p'.counter = p.counter + 2 := by
  rw [h.after]

theorem Minted.codes (h : Minted H p key scopes r p') : p'.codes = p.codes := by rw [h.after]

/-! ## What a call can do -/

variable (H) in
inductive Effect (p : Provider) : Call → Answer → Provider → Prop
  | notAuthorized {req : AuthorizeRequest} {e : AuthorizeError} :
      Effect p (.authorize req) (.authorized (.error e)) p
  | noToken {a : Call} {e : TokenError} (ha : a.asksToken = true) :
      Effect p a (.token (.error e)) p
  | clientPut {client : OAuthClient} : Effect p (.putClient client) .done (p.putClient client)
  | operated {op : ClientOp} : Effect p (.registryOp op) .done (p.applyRegistryOp op)
  | consentGranted {user clientId : String} {scopes : Finset String} {at_ : ℕ} :
      Effect p (.grantConsent user clientId scopes at_) .done
        (p.applyRegistryOp (.grantConsent user clientId scopes at_))
  | consentRevoked {user clientId : String} {at_ : ℕ} :
      Effect p (.revokeConsent user clientId at_) .done (p.revokeConsent user clientId at_)
  | statusSet {user : String} {status : Iam.UserStatus} (h : status ≠ .disabled) :
      Effect p (.setUserStatus user status) .done { p with users := p.users.insert user status }
  | disabled {user : String} :
      Effect p (.setUserStatus user .disabled) .done
        (Provider.revokeAllGrantsForUser { p with users := p.users.insert user .disabled } user)
  | issued {req : AuthorizeRequest} {challenge : String}
      (hcheck : p.checkAuthorize req = .ok challenge) (hbound : p.counter + 1 < 2 ^ 64) :
      Effect p (.authorize req)
        (.authorized (.ok (freshText H (codeLabel req.key) (p.counter + 1))))
        { p with
          counter := p.counter + 1
          codes := p.codes.insert (freshText H (codeLabel req.key) (p.counter + 1))
            ⟨req.clientId, req.user, req.redirectUri, req.scopes, challenge, false⟩ }
  | redeemed {code redirectUri codeVerifier : String} {now : ℤ} {ac : AuthCode}
      {r : TokenResponse} {p' : Provider}
      (hcheck : p.checkCode H code redirectUri codeVerifier = .ok ac)
      (hmint : Minted H { p with codes := p.codes.insert code { ac with consumed := true } } ac.key
        ac.scopes r p') :
      Effect p (.tokenAuthorizationCode code redirectUri codeVerifier now) (.token (.ok r)) p'
  | refreshed {t : String} {now : ℤ} {key : GrantKey} {record : GrantRecord} {r : TokenResponse}
      {p' : Provider} (hcheck : p.checkRefresh t = .ok (key, record))
      (hmint : Minted H p key record.scopes r p') :
      Effect p (.tokenRefresh t now) (.token (.ok r)) p'
  | credentials {clientId text : String} {now : ℤ} (hcheck : p.checkCredentials clientId = .ok ())
      (hbound : p.counter + 1 < 2 ^ 64)
      (htext : text = freshText H (credentialsLabel clientId) (p.counter + 1)) :
      Effect p (.tokenClientCredentials clientId now)
        (.token (.ok ⟨text, "Bearer", 3600, none, none⟩)) { p with counter := p.counter + 1 }
  | revoked {t : String} : Effect p (.revoke t) .done (p.revoke t)

theorem checkAuthorize_eq_ok {req : AuthorizeRequest} {challenge : String}
    (h : p.checkAuthorize req = .ok challenge) :
    ∃ client consent, p.registry.clients[req.clientId]? = some client ∧
      .authorizationCode ∈ client.allowedGrants ∧ req.codeChallenge = some challenge ∧
      p.registry.consents[req.key]? = some consent ∧ req.scopes ⊆ consent.scopes := by
  rw [checkAuthorize] at h
  split at h
  · cases h
  split at h
  · cases h
  rename_i client hclient
  split at h
  · cases h
  split at h
  · cases h
  rename_i hgrant
  split at h
  · cases h
  rename_i challenge' hchallenge
  split at h
  · cases h
  split at h
  · cases h
  split at h
  · cases h
  rename_i consent hconsent
  split at h
  · cases h
  rename_i hscopes
  cases h
  exact ⟨client, consent, hclient, not_not.1 hgrant, hchallenge,
    (Option.filter_eq_some_iff.1 hconsent).1, not_not.1 hscopes⟩

variable {code : String} {record : GrantRecord} {I : Provider → Prop} {s : Option Provider}

theorem checkCode_eq_ok {redirectUri codeVerifier : String} {ac : AuthCode}
    (h : p.checkCode H code redirectUri codeVerifier = .ok ac) :
    p.codes[code]? = some ac ∧ ac.consumed = false ∧ ac.redirectUri = redirectUri ∧
      s256 H codeVerifier = ac.codeChallenge ∧ p.users[ac.user]? = some .active ∧
      p.registry.consented ac.key = true := by
  rw [checkCode] at h
  split at h
  · cases h
  · rename_i ac' hac
    split_ifs at h with hconsumed huri hchallenge hactive hconsent
    cases h
    exact ⟨hac, by simpa using hconsumed, by simpa using huri, by simpa using hchallenge,
      by simpa using hactive, by simpa using hconsent⟩

variable {t : String}

theorem checkRefresh_eq_ok (h : p.checkRefresh t = .ok (key, record)) :
    p.refreshIndex[t]? = some key ∧ p.grants[key]? = some record ∧
      record.refreshToken = some t ∧ p.users[key.user]? = some .active ∧
      p.registry.consented key = true := by
  rw [checkRefresh] at h
  split at h
  · cases h
  · rename_i key' hkey
    split at h
    · cases h
    · rename_i record' hrecord
      split_ifs at h with htoken hactive hconsent
      cases h
      exact ⟨hkey, hrecord, by simpa using htoken, by simpa using hactive, by simpa using hconsent⟩

theorem held_of_checkRefresh (h : p.checkRefresh t = .ok (key, record)) :
    p.held .refresh key = some t := by
  obtain ⟨-, hrecord, htoken, -⟩ := checkRefresh_eq_ok h
  rw [held, hrecord]
  exact htoken

theorem minted_erase (hheld : p.held .refresh key = some t)
    (h : Minted H { p with refreshIndex := p.refreshIndex.erase t } key scopes r p') :
    Minted H p key scopes r p' := by
  obtain ⟨hbound, htoken, hafter⟩ := h
  refine ⟨hbound, htoken, ?_⟩
  have hindex : forget (p.refreshIndex.erase t) (some t) = forget p.refreshIndex (some t) := by
    apply ExtTreeMap.ext_getElem?
    intro t'
    rw [getElem?_forget, getElem?_forget, ExtTreeMap.getElem?_erase]
    split_ifs <;> simp_all
  have hheld' : held { p with refreshIndex := p.refreshIndex.erase t } = p.held := rfl
  rw [hafter, hheld', hheld, hindex]
  rfl

variable {a : Call} {ans : Answer}

theorem effect_call (h : call H p a = some (ans, p')) : Effect H p a ans p' := by
  cases a with
  | putClient client =>
    cases h
    exact .clientPut
  | setUserStatus user status =>
    cases h
    by_cases hstatus : status = .disabled
    · subst hstatus
      exact .disabled
    · simp only [setUserStatus, if_neg hstatus]
      exact .statusSet hstatus
  | grantConsent user clientId scopes at_ =>
    cases h
    exact .consentGranted
  | revokeConsent user clientId at_ =>
    cases h
    exact .consentRevoked
  | registryOp op =>
    cases h
    exact .operated
  | authorize req =>
    simp only [call, Option.map_eq_some_iff, Prod.exists, Prod.mk.injEq] at h
    obtain ⟨r, p₁, h, rfl, rfl⟩ := h
    rw [authorize] at h
    split at h
    · cases h
      exact .notAuthorized
    · rename_i challenge hcheck
      simp only [Option.bind_eq_bind, Option.bind_eq_some_iff, Prod.exists] at h
      obtain ⟨code, p₁, hcode, h⟩ := h
      obtain ⟨hbound, rfl, rfl⟩ := freshOpaque_eq_some hcode
      cases h
      exact .issued hcheck hbound
  | tokenAuthorizationCode code redirectUri codeVerifier now =>
    simp only [call, Option.map_eq_some_iff, Prod.exists, Prod.mk.injEq] at h
    obtain ⟨r, p₁, h, rfl, rfl⟩ := h
    rw [tokenAuthorizationCode] at h
    split at h
    · cases h
      exact .noToken rfl
    · rename_i ac hcheck
      simp only [Option.bind_eq_bind, Option.bind_eq_some_iff, Prod.exists] at h
      obtain ⟨r, p₁, hmint, h⟩ := h
      cases h
      exact .redeemed hcheck (minted_of_mintGrantTokens hmint)
  | tokenRefresh t now =>
    simp only [call, Option.map_eq_some_iff, Prod.exists, Prod.mk.injEq] at h
    obtain ⟨r, p₁, h, rfl, rfl⟩ := h
    rw [tokenRefresh] at h
    split at h
    · cases h
      exact .noToken rfl
    · rename_i key record hcheck
      simp only [Option.bind_eq_bind, Option.bind_eq_some_iff, Prod.exists] at h
      obtain ⟨r, p₁, hmint, h⟩ := h
      cases h
      exact .refreshed hcheck
        (minted_erase (held_of_checkRefresh hcheck) (minted_of_mintGrantTokens hmint))
  | tokenClientCredentials clientId now =>
    simp only [call, Option.map_eq_some_iff, Prod.exists, Prod.mk.injEq] at h
    obtain ⟨r, p₁, h, rfl, rfl⟩ := h
    rw [tokenClientCredentials] at h
    split at h
    · cases h
      exact .noToken rfl
    · rename_i hcheck
      simp only [Option.bind_eq_bind, Option.bind_eq_some_iff, Prod.exists] at h
      obtain ⟨text, p₁, hdraw, h⟩ := h
      obtain ⟨hbound, htext, rfl⟩ := freshOpaque_eq_some hdraw
      cases h
      exact .credentials hcheck hbound htext
  | revoke t =>
    cases h
    exact .revoked

variable (H) in
inductive Move (p : Provider) : Call → Answer → Provider → Prop
  | shrinks {a : Call} {ans : Answer} {p' : Provider} (h : Shrinks p p')
      (htoken : ∀ r, ans = .token (.ok r) → a.key p = none)
      (hcode : ∀ code, ans ≠ .authorized (.ok code)) : Move p a ans p'
  | issued {req : AuthorizeRequest} {challenge : String}
      (hcheck : p.checkAuthorize req = .ok challenge) (hbound : p.counter + 1 < 2 ^ 64) :
      Move p (.authorize req)
        (.authorized (.ok (freshText H (codeLabel req.key) (p.counter + 1))))
        { p with
          counter := p.counter + 1
          codes := p.codes.insert (freshText H (codeLabel req.key) (p.counter + 1))
            ⟨req.clientId, req.user, req.redirectUri, req.scopes, challenge, false⟩ }
  | minted {a : Call} {key : GrantKey} {scopes : Finset String} {r : TokenResponse}
      {p₁ p' : Provider} (hkey : a.key p = some key) (h₁ : Shrinks p p₁)
      (hnext : p₁.nextToken H = p.nextToken H) (hmint : Minted H p₁ key scopes r p') :
      Move p a (.token (.ok r)) p'

theorem shrinks_consume {ac : AuthCode} (h : p.codes[code]? = some ac) :
    Shrinks p { p with codes := p.codes.insert code { ac with consumed := true } } where
  counter := le_rfl
  codes code' ac' hcode := by
    rw [ExtTreeMap.getElem?_insert] at hcode
    split_ifs at hcode with heq
    · cases hcode
      rw [← LawfulEqOrd.eq_of_compare heq]
      exact ⟨ac, h, .inr rfl⟩
    · exact ⟨ac', hcode, .inl rfl⟩
  held _ _ _ ht := ht
  index _ _ _ ht := ht
  indexed hp := hp

theorem Effect.move (h : Effect H p a ans p') : Move H p a ans p' := by
  cases h with
  | notAuthorized | noToken | clientPut | operated | consentGranted | statusSet =>
    exact .shrinks (.of_eq le_rfl rfl rfl rfl) (by simp) (by simp)
  | @consentRevoked user clientId at_ =>
    have hregistry : Shrinks p (p.applyRegistryOp (.revokeConsent user clientId at_)) :=
      .of_eq le_rfl rfl rfl rfl
    exact .shrinks (hregistry.trans (shrinks_revokeGrantTokens _ ⟨user, clientId⟩)) (by simp)
      (by simp)
  | disabled =>
    refine .shrinks (Shrinks.trans ?_ (shrinks_foldl_revoke _ _)) (by simp) (by simp)
    exact .of_eq le_rfl rfl rfl rfl
  | issued hcheck hbound => exact .issued hcheck hbound
  | redeemed hcheck hmint =>
    have hcode := (checkCode_eq_ok hcheck).1
    exact .minted (by rw [Call.key, hcode]; rfl) (shrinks_consume hcode) rfl hmint
  | refreshed hcheck hmint =>
    exact .minted (checkRefresh_eq_ok hcheck).1 (.of_eq le_rfl rfl rfl rfl) rfl hmint
  | credentials =>
    exact .shrinks (.of_eq (Nat.le_succ _) rfl rfl rfl) (fun _ _ => rfl) (by simp)
  | revoked => exact .shrinks (shrinks_revoke p _) (by simp) (by simp)

theorem Move.code_cases {ac' : AuthCode} (h : Move H p a ans p')
    (hcode : p'.codes[code]? = some ac') :
    (∃ ac, p.codes[code]? = some ac ∧ (ac' = ac ∨ ac' = { ac with consumed := true })) ∨
      ∃ req challenge, a = .authorize req ∧ ans = .authorized (.ok code) ∧
        p.checkAuthorize req = .ok challenge ∧ p.counter + 1 < 2 ^ 64 ∧
        code = freshText H (codeLabel req.key) (p.counter + 1) ∧
        ac' = ⟨req.clientId, req.user, req.redirectUri, req.scopes, challenge, false⟩ := by
  cases h with
  | shrinks h => exact .inl (h.codes code ac' hcode)
  | @issued req challenge hcheck hbound =>
    rw [ExtTreeMap.getElem?_insert] at hcode
    split_ifs at hcode with heq
    · cases hcode
      rw [← LawfulEqOrd.eq_of_compare heq]
      exact .inr ⟨req, challenge, rfl, rfl, hcheck, hbound, rfl, rfl⟩
    · exact .inl ⟨ac', hcode, .inl rfl⟩
  | minted hkey h₁ hnext hmint =>
    rw [hmint.codes] at hcode
    exact .inl (h₁.codes code ac' hcode)

theorem Move.held_cases {kind : TokenKind} (h : Move H p a ans p') (ht : p'.held kind key = some t)
    :
    (p.held kind key = some t ∧ ∀ r, ans = .token (.ok r) → a.key p ≠ some key) ∨
      ∃ r, ans = .token (.ok r) ∧ a.key p = some key ∧ r.token kind = some t ∧
        p.counter + 2 < 2 ^ 64 ∧ t = p.nextToken H kind key := by
  cases h with
  | shrinks h htoken =>
    refine .inl ⟨h.held kind key t ht, fun r hr => ?_⟩
    rw [htoken r hr]
    simp
  | issued => exact .inl ⟨ht, by simp⟩
  | @minted _ key' scopes r _ _ hkey h₁ hnext hmint =>
    rw [hmint.held] at ht
    split_ifs at ht with heq
    · subst heq
      have hbound := (Nat.add_le_add_right h₁.counter 2).trans_lt hmint.bound
      refine .inr ⟨r, rfl, hkey, by rw [hmint.token, ht], hbound, ?_⟩
      rw [← hnext]
      exact (Option.some.inj ht).symm
    · refine .inl ⟨h₁.held kind key t ht, fun _ _ => ?_⟩
      rw [hkey]
      exact fun hsome => heq (Option.some.inj hsome).symm

/-! ## Runs -/

/-- It holds of the provider, unless there is none any more. -/
def Alive (I : Provider → Prop) (s : Option Provider) : Prop := ∀ p, s = some p → I p

theorem alive_some : Alive I (some p) ↔ I p := by simp [Alive]

theorem step_eq_some_iff :
    step H s a = some p' ↔ ∃ p ans, s = some p ∧ call H p a = some (ans, p') := by
  simp [step, Option.bind_eq_some_iff]

theorem Answers.effect (h : Answers H ans s a) :
    ∃ p p', s = some p ∧ step H s a = some p' ∧ Effect H p a ans p' := by
  obtain ⟨p, rfl, h⟩ := h
  obtain ⟨⟨ans', p'⟩, hcall, rfl⟩ := Option.map_eq_some_iff.1 h
  exact ⟨p, p', rfl, step_eq_some_iff.2 ⟨p, _, rfl, hcall⟩, effect_call hcall⟩

theorem Alive.step (hstep : ∀ p a ans p', Effect H p a ans p' → I p → I p')
    (s : Option Provider) (a : Call) (hs : Alive I s) : Alive I (step H s a) := by
  intro p' hp'
  obtain ⟨p, ans, rfl, hcall⟩ := step_eq_some_iff.1 hp'
  exact hstep p a ans p' (effect_call hcall) (hs p rfl)

/-! ## Strings are drawn once -/

variable (H) in
def Known (p : Provider) (t : String) : Prop :=
  ∃ label n, n ≤ p.counter ∧ t = freshText H label n

theorem freshText_inj (hH : Injective H) {label label' : String} {m n : ℕ} (hm : m < 2 ^ 64)
    (hn : n < 2 ^ 64) (h : freshText H label m = freshText H label' n) :
    label = label' ∧ m = n := by
  have hbytes := hH h
  obtain ⟨hlabel, hcounter⟩ := List.append_inj' hbytes (by simp)
  exact ⟨utf8_injective hlabel, Lib.Compare.beBytes_inj hm hn hcounter⟩

theorem Known.ne (hH : Injective H) {label : String} {n : ℕ} (h : Known H p t)
    (hlt : p.counter < n) (hn : n < 2 ^ 64) : t ≠ freshText H label n := by
  obtain ⟨label', m, hm, rfl⟩ := h
  intro heq
  have := (freshText_inj hH (by omega) hn heq).2
  omega

theorem Known.mono (h : Known H p t) (hle : p.counter ≤ p'.counter) : Known H p' t := by
  obtain ⟨label, n, hn, rfl⟩ := h
  exact ⟨label, n, hn.trans hle, rfl⟩

theorem Minted.known (h : Minted H p key scopes r p') (kind : TokenKind) :
    Known H p' (p.nextToken H kind key) := by
  refine ⟨_, p.counter + kind.offset, ?_, rfl⟩
  rw [h.counter]
  cases kind <;> simp [TokenKind.offset]

theorem Known.ne_nextToken (hH : Injective H) (ht : Known H p t)
    (hbound : p.counter + 2 < 2 ^ 64) (kind : TokenKind) : t ≠ p.nextToken H kind key := by
  refine ht.ne hH ?_ ?_ <;> cases kind <;> simp only [TokenKind.offset] <;> omega

variable (H) in
structure Sound (p : Provider) : Prop where
  codes : ∀ (code : String) (ac : AuthCode), p.codes[code]? = some ac → Known H p code
  index : ∀ kind (t : String) key, (p.index kind)[t]? = some key → Known H p t
  indexed : Indexed p

theorem Sound.held (h : Sound H p) {kind : TokenKind} (ht : p.held kind key = some t) :
    Known H p t :=
  h.index kind t key (h.indexed kind key t ht)

theorem Sound.shrinks (h : Sound H p) (hp : Shrinks p p') : Sound H p' where
  codes code ac' hac' := by
    obtain ⟨ac, hac, -⟩ := hp.codes code ac' hac'
    exact (h.codes code ac hac).mono hp.counter
  index kind t key ht := (h.index kind t key (hp.index kind t key ht)).mono hp.counter
  indexed := hp.indexed h.indexed

theorem Sound.minted (hH : Injective H) (h : Sound H p) (hm : Minted H p key scopes r p') :
    Sound H p' where
  codes code ac hac := by
    rw [hm.codes] at hac
    exact (h.codes code ac hac).mono (by rw [hm.counter]; omega)
  index kind t key' ht := by
    rw [hm.index] at ht
    split_ifs at ht with hnew hold
    · rw [hnew]
      exact hm.known kind
    · exact (h.index kind t key' ht).mono (by rw [hm.counter]; omega)
  indexed := by
    intro kind key' t ht
    rw [hm.held] at ht
    split_ifs at ht with hkey
    · cases ht
      rw [hm.index, if_pos rfl, hkey]
    · have hindex := h.indexed kind key' t ht
      rw [hm.index, if_neg ((h.held ht).ne_nextToken hH hm.bound kind), if_neg, hindex]
      intro ht'
      have := h.indexed kind key t ht'
      rw [hindex] at this
      exact hkey (Option.some.inj this)

theorem Move.sound (hH : Injective H) (h : Move H p a ans p') (hp : Sound H p) :
    Sound H p' := by
  cases h with
  | shrinks h => exact hp.shrinks h
  | issued hcheck hbound =>
    refine ⟨fun code ac hac => ?_, fun kind t key ht => ?_, hp.indexed⟩
    · rw [ExtTreeMap.getElem?_insert] at hac
      split_ifs at hac with heq
      · rw [← LawfulEqOrd.eq_of_compare heq]
        exact ⟨_, _, le_rfl, rfl⟩
      · exact (hp.codes code ac hac).mono (Nat.le_succ _)
    · exact (hp.index kind t key ht).mono (Nat.le_succ _)
  | minted hkey h₁ hnext hmint => exact (hp.shrinks h₁).minted hH hmint

theorem sound_new (issuer : String) (keys : SigningKeySet) :
    Sound H (new issuer keys) := by
  refine ⟨fun code ac h => ?_, fun kind t key h => ?_, fun kind key t h => ?_⟩
  · simp [new] at h
  · cases kind <;> simp [new, index] at h
  · simp [new, held] at h

def start (issuer : String) (keys : SigningKeySet) : Option Provider :=
  some (Provider.new issuer keys)

theorem sound_start (issuer : String) (keys : SigningKeySet) :
    Alive (Sound H) (start issuer keys) :=
  alive_some.2 (sound_new issuer keys)

theorem sound_step (hH : Injective H) (s : Option Provider) (a : Call)
    (hs : Alive (Sound H) s) : Alive (Sound H) (step H s a) :=
  Alive.step (fun _ _ _ _ heffect hp => heffect.move.sound hH hp) s a hs

end Pillar.Oidc
