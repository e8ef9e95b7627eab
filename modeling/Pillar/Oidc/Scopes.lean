import Pillar.Oidc.Consent

/-!
# What a client is registered for

A client is registered with the grants that it may use and the scopes that it may ask for.
-/

namespace Pillar.Oidc

open Lib.Base64 Lib.Runs Std

variable {H : Bytes → String} {p p' : Provider} {key : GrantKey} {scopes : Finset String}
  {a : Call} {ans : Answer}

/-! ## The scopes of codes and records -/

def Scoped (p : Provider) (key : GrantKey) (scopes : Finset String) : Prop :=
  (∃ (code : String) (ac : AuthCode), p.codes[code]? = some ac ∧ ac.key = key ∧
    ac.scopes = scopes) ∨
  ∃ g : GrantRecord, p.grants[key]? = some g ∧ g.scopes = scopes

theorem Scoped.of_kept (hcodes : ∀ (code : String) (ac' : AuthCode), p'.codes[code]? = some ac' →
      ∃ ac, p.codes[code]? = some ac ∧ (ac' = ac ∨ ac' = { ac with consumed := true }))
    (hgrants : ∀ g' : GrantRecord, p'.grants[key]? = some g' →
      ∃ g, p.grants[key]? = some g ∧ g'.scopes = g.scopes)
    (h : Scoped p' key scopes) : Scoped p key scopes := by
  rcases h with ⟨code, ac', hcode, hkey, hscopes⟩ | ⟨g', hg', hscopes⟩
  · obtain ⟨ac, hac, rfl | rfl⟩ := hcodes code ac' hcode
    · exact .inl ⟨code, ac', hac, hkey, hscopes⟩
    · exact .inl ⟨code, ac, hac, hkey, hscopes⟩
  · obtain ⟨g, hg, heq⟩ := hgrants g' hg'
    exact .inr ⟨g, hg, heq.symm.trans hscopes⟩

variable {g' : GrantRecord}

theorem grants_revokeGrantTokens {key' : GrantKey}
    (h : (p.revokeGrantTokens key').grants[key]? = some g') :
    ∃ g, p.grants[key]? = some g ∧ g'.scopes = g.scopes := by
  rw [Provider.revokeGrantTokens] at h
  cases hg : p.grants[key']? with
  | none =>
    rw [hg] at h
    exact ⟨g', h, rfl⟩
  | some g =>
    simp only [hg] at h
    rw [ExtTreeMap.getElem?_insert] at h
    split_ifs at h with heq
    · cases h
      rw [← LawfulEqOrd.eq_of_compare heq]
      exact ⟨g, hg, rfl⟩
    · exact ⟨g', h, rfl⟩

theorem grants_revokeAllGrantsForUser {user : String}
    (h : (p.revokeAllGrantsForUser user).grants[key]? = some g') :
    ∃ g, p.grants[key]? = some g ∧ g'.scopes = g.scopes := by
  rw [Provider.revokeAllGrantsForUser] at h
  generalize p.grants.keys.filter (fun key => decide (key.user = user)) = l at h
  induction l generalizing p with
  | nil => exact ⟨g', h, rfl⟩
  | cons key' l ih =>
    obtain ⟨g, hg, hscopes⟩ := ih h
    obtain ⟨g₀, hg₀, hscopes₀⟩ := grants_revokeGrantTokens hg
    exact ⟨g₀, hg₀, hscopes.trans hscopes₀⟩

theorem grants_revoke {t : String} (h : (p.revoke t).grants[key]? = some g') :
    ∃ g, p.grants[key]? = some g ∧ g'.scopes = g.scopes := by
  rw [Provider.revoke] at h
  split at h
  · exact ⟨g', h, rfl⟩
  · rename_i key' _
    simp only [ExtTreeMap.getElem?_modify] at h
    split_ifs at h with heq
    · obtain ⟨g, hg, rfl⟩ := Option.map_eq_some_iff.1 h
      refine ⟨g, by rwa [← LawfulEqOrd.eq_of_compare heq], ?_⟩
      split_ifs <;> rfl
    · exact ⟨g', h, rfl⟩

theorem Scoped.of_minted {key' : GrantKey} {scopes' : Finset String} {r : TokenResponse}
    (hmint : Minted H p key' scopes' r p') (h : Scoped p' key scopes) :
    Scoped p key scopes ∨ key = key' ∧ scopes = scopes' := by
  rcases h with ⟨code, ac, hcode, hkey, hscopes⟩ | ⟨g, hg, hscopes⟩
  · rw [hmint.codes] at hcode
    exact .inl (.inl ⟨code, ac, hcode, hkey, hscopes⟩)
  · simp only [hmint.after, ExtTreeMap.getElem?_insert] at hg
    split_ifs at hg with heq
    · cases hg
      exact .inr ⟨(LawfulEqOrd.eq_of_compare heq).symm, hscopes.symm⟩
    · exact .inl (.inr ⟨g, hg, hscopes⟩)

theorem Effect.scoped (h : Effect H p a ans p') (hp' : Scoped p' key scopes) :
    Scoped p key scopes ∨ ∃ req challenge, a = .authorize req ∧
      p.checkAuthorize req = .ok challenge ∧ key = req.key ∧ scopes = req.scopes := by
  cases h with
  | notAuthorized | noToken | clientPut | operated | consentGranted | statusSet | credentials =>
    exact .inl hp'
  | @consentRevoked user clientId at_ =>
    refine .inl (hp'.of_kept (p := p.applyRegistryOp (.revokeConsent user clientId at_)) ?_ ?_)
    · exact (shrinks_revokeGrantTokens _ _).codes
    · exact fun _ => grants_revokeGrantTokens
  | @disabled user =>
    refine .inl (hp'.of_kept (p := { p with users := p.users.insert user .disabled }) ?_ ?_)
    · exact (shrinks_foldl_revoke _ _).codes
    · exact fun _ => grants_revokeAllGrantsForUser
  | revoked => exact .inl (hp'.of_kept (shrinks_revoke p _).codes fun _ => grants_revoke)
  | @issued req challenge hcheck hbound =>
    rcases hp' with ⟨code, ac, hcode, rfl, rfl⟩ | hgrant
    · rw [ExtTreeMap.getElem?_insert] at hcode
      split_ifs at hcode with heq
      · cases hcode
        exact .inr ⟨req, challenge, rfl, hcheck, rfl, rfl⟩
      · exact .inl (.inl ⟨code, ac, hcode, rfl, rfl⟩)
    · exact .inl (.inr hgrant)
  | @redeemed code _ _ _ ac _ _ hcheck hmint =>
    have hac := (checkCode_eq_ok hcheck).1
    refine .inl ?_
    rcases hp'.of_minted hmint with hbefore | ⟨rfl, rfl⟩
    · exact hbefore.of_kept (shrinks_consume hac).codes fun g hg => ⟨g, hg, rfl⟩
    · exact .inl ⟨code, ac, hac, rfl, rfl⟩
  | @refreshed _ _ _ record _ _ hcheck hmint =>
    refine .inl ?_
    rcases hp'.of_minted hmint with hbefore | ⟨rfl, rfl⟩
    · exact hbefore
    · exact .inr ⟨record, (checkRefresh_eq_ok hcheck).2.1, rfl⟩

/-! ## Consents -/

/-- The user has consented to the scopes, even if the consent was revoked since. -/
def WithinConsent (p : Provider) (key : GrantKey) (scopes : Finset String) : Prop :=
  ∃ consent : Consent, p.registry.consents[key]? = some consent ∧ scopes ⊆ consent.scopes

theorem WithinConsent.effect (h : Effect H p a ans p') (hp : WithinConsent p key scopes) :
    WithinConsent p' key scopes := by
  obtain ⟨consent, hconsent, hscopes⟩ := hp
  rcases h.registry with hsame | ⟨client, -, rfl⟩ | ⟨op, hop, -⟩
  · exact ⟨consent, by rwa [hsame], hscopes⟩
  · exact ⟨consent, hconsent, hscopes⟩
  · obtain ⟨consent', hconsent', hle⟩ := consents_applyOp hconsent op
    exact ⟨consent', by rwa [hop], hscopes.trans hle⟩

/-- Codes and records carry only scopes that the user has consented to. -/
def AllConsented (p : Provider) : Prop :=
  ∀ key scopes, Scoped p key scopes → WithinConsent p key scopes

theorem allConsented_step (s : Option Provider) (a : Call) (hs : Alive AllConsented s) :
    Alive AllConsented (step H s a) := by
  refine Alive.step (fun p a ans p' h hp key scopes hscoped => ?_) s a hs
  rcases h.scoped hscoped with hbefore | ⟨req, challenge, rfl, hcheck, rfl, rfl⟩
  · exact (hp key scopes hbefore).effect h
  · obtain ⟨client, consent, -, -, -, hconsent, hscopes⟩ := checkAuthorize_eq_ok hcheck
    exact WithinConsent.effect h ⟨consent, hconsent, hscopes⟩

/-! ## Registrations -/

/-- A call that takes no grant and no scope from a client that is there, and asks only for scopes
of the client, which may also refresh. -/
def Provider.Careful (p : Provider) : Call → Prop
  | .putClient client => ∀ old ∈ p.registry.clients[client.clientId]?,
      old.allowedGrants ⊆ client.allowedGrants ∧ old.allowedScopes ⊆ client.allowedScopes
  | .registryOp (.setGrants clientId grants _) => ∀ old ∈ p.registry.clients[clientId]?,
      old.allowedGrants ⊆ sanitizeGrants old.clientType grants
  | .authorize req => ∀ client ∈ p.registry.clients[req.clientId]?,
      (.authorizationCode ∈ client.allowedGrants → .refreshToken ∈ client.allowedGrants) ∧
        req.scopes ⊆ client.allowedScopes
  | _ => True

instance (p : Provider) : (a : Call) → Decidable (p.Careful a)
  | .putClient _ => inferInstanceAs (Decidable (∀ old ∈ _, _))
  | .registryOp (.setGrants _ _ _) => inferInstanceAs (Decidable (∀ old ∈ _, _))
  | .authorize _ => inferInstanceAs (Decidable (∀ client ∈ _, _))
  | .registryOp (.registerClient ..) | .registryOp (.setRedirectUris ..)
  | .registryOp (.grantConsent ..) | .registryOp (.revokeConsent ..) | .setUserStatus ..
  | .grantConsent .. | .revokeConsent .. | .tokenAuthorizationCode .. | .tokenRefresh ..
  | .tokenClientCredentials .. | .revoke _ => isTrue trivial

def CarefulCall (s : Option Provider) (a : Call) : Prop := ∀ p ∈ s, p.Careful a

instance (s : Option Provider) (a : Call) : Decidable (CarefulCall s a) :=
  inferInstanceAs (Decidable (∀ p ∈ s, _))

def WithinClient (p : Provider) (key : GrantKey) (scopes : Finset String) : Prop :=
  ∃ client : OAuthClient, p.registry.clients[key.clientId]? = some client ∧
    .authorizationCode ∈ client.allowedGrants ∧ .refreshToken ∈ client.allowedGrants ∧
    scopes ⊆ client.allowedScopes

theorem clients_effect (h : Effect H p a ans p') (ha : p.Careful a) {clientId : String}
    {client : OAuthClient} (hclient : p.registry.clients[clientId]? = some client) :
    ∃ client', p'.registry.clients[clientId]? = some client' ∧
      client.allowedGrants ⊆ client'.allowedGrants ∧
      client.allowedScopes ⊆ client'.allowedScopes := by
  rcases h.registry with hsame | ⟨new, rfl, rfl⟩ | ⟨op, hop, hcall⟩
  · exact ⟨client, by rwa [hsame], Finset.Subset.refl _, Finset.Subset.refl _⟩
  · simp only [Provider.putClient, ExtTreeMap.getElem?_insert]
    split_ifs with heq
    · rw [← LawfulEqOrd.eq_of_compare heq] at hclient
      exact ⟨new, rfl, ha client hclient⟩
    · exact ⟨client, hclient, Finset.Subset.refl _, Finset.Subset.refl _⟩
  · rw [hop]
    refine clients_applyOp hclient op fun grants at_ hset => ?_
    subst hset
    rcases hcall with rfl | ⟨_, _, _, _, -, heq⟩ | ⟨_, _, _, -, heq⟩
    · exact ha client hclient
    · cases heq
    · cases heq

theorem WithinClient.effect (h : Effect H p a ans p') (ha : p.Careful a)
    (hp : WithinClient p key scopes) : WithinClient p' key scopes := by
  obtain ⟨client, hclient, hcode, hrefresh, hscopes⟩ := hp
  obtain ⟨client', hclient', hgrants, hscopes'⟩ := clients_effect h ha hclient
  exact ⟨client', hclient', hgrants hcode, hgrants hrefresh, hscopes.trans hscopes'⟩

/-- Codes and records carry only what the client is registered for. -/
def AllRegistered (p : Provider) : Prop :=
  ∀ key scopes, Scoped p key scopes → WithinClient p key scopes

theorem allRegistered_step (s : Option Provider) (a : Call) (hs : Alive AllRegistered s)
    (ha : CarefulCall s a) : Alive AllRegistered (step H s a) := by
  intro p' hp' key scopes hscoped
  obtain ⟨p, ans, rfl, hcall⟩ := step_eq_some_iff.1 hp'
  have h := effect_call hcall
  have hcareful : p.Careful a := ha p rfl
  rcases h.scoped hscoped with hbefore | ⟨req, challenge, rfl, hcheck, rfl, rfl⟩
  · exact (hs p rfl key scopes hbefore).effect h hcareful
  · obtain ⟨client, consent, hclient, hgrant, -⟩ := checkAuthorize_eq_ok hcheck
    obtain ⟨hrefresh, hscopes⟩ := hcareful client hclient
    exact WithinClient.effect h hcareful ⟨client, hclient, hgrant, hrefresh hgrant, hscopes⟩

/-! ## Token responses -/

def Call.grantType : Call → Option GrantType
  | .tokenAuthorizationCode .. => some .authorizationCode
  | .tokenRefresh .. => some .refreshToken
  | .tokenClientCredentials .. => some .clientCredentials
  | _ => none

def Call.client (p : Provider) : Call → Option String
  | .tokenClientCredentials clientId _ => some clientId
  | a => (a.key p).map GrantKey.clientId

variable (H) in
/-- If the call obtains a token response, the client is allowed the grant at that moment. -/
def Allowed (s : Option Provider) (a : Call) : Prop :=
  ∀ p r, s = some p → Answers H (.token (.ok r)) s a →
    ∃ clientId grant client, a.client p = some clientId ∧ a.grantType = some grant ∧
      p.registry.clients[clientId]? = some client ∧ grant ∈ client.allowedGrants

theorem checkCredentials_eq_ok {clientId : String} (h : p.checkCredentials clientId = .ok ()) :
    ∃ client, p.registry.clients[clientId]? = some client ∧
      .clientCredentials ∈ client.allowedGrants := by
  rw [Provider.checkCredentials] at h
  split at h
  · cases h
  · rename_i client hclient
    split_ifs at h with hrefused
    rw [not_or, not_not, not_not] at hrefused
    exact ⟨client, hclient, hrefused.2⟩

theorem allowed_credentials (s : Option Provider) (clientId : String) (now : ℤ) :
    Allowed H s (.tokenClientCredentials clientId now) := by
  rintro p r rfl hanswers
  obtain ⟨q, p', hq, -, heffect⟩ := hanswers.effect
  cases hq
  generalize hans : Answer.token (.ok r) = ans at heffect
  cases heffect with
  | noToken ha => cases hans
  | credentials hcheck hbound htext =>
    obtain ⟨client, hclient, hgrant⟩ := checkCredentials_eq_ok hcheck
    exact ⟨clientId, .clientCredentials, client, rfl, rfl, hclient, hgrant⟩

theorem allowed_of_registered {s : Option Provider} (hs : Alive AllRegistered s) :
    Allowed H s a := by
  rintro p r rfl hanswers
  have hp : AllRegistered p := hs p rfl
  obtain ⟨q, p', hq, -, heffect⟩ := hanswers.effect
  cases hq
  generalize hans : Answer.token (.ok r) = ans at heffect
  cases heffect with
  | notAuthorized | noToken | issued | clientPut | operated | consentGranted | consentRevoked
  | statusSet | disabled | revoked => cases hans
  | credentials => exact allowed_credentials (some p) _ _ p r rfl hanswers
  | @redeemed code _ _ _ ac _ _ hcheck hmint =>
    have hac := (checkCode_eq_ok hcheck).1
    obtain ⟨client, hclient, hgrant, -⟩ := hp ac.key ac.scopes (.inl ⟨code, ac, hac, rfl, rfl⟩)
    refine ⟨ac.clientId, .authorizationCode, client, ?_, rfl, hclient, hgrant⟩
    simp [Call.client, Call.key, hac, AuthCode.key]
  | @refreshed _ _ key record _ _ hcheck hmint =>
    obtain ⟨hkey, hrecord, -⟩ := checkRefresh_eq_ok hcheck
    obtain ⟨client, hclient, -, hgrant, -⟩ := hp key record.scopes (.inr ⟨record, hrecord, rfl⟩)
    refine ⟨key.clientId, .refreshToken, client, ?_, rfl, hclient, hgrant⟩
    simp [Call.client, Call.key, hkey]

theorem not_scoped_new (issuer : String) (keys : SigningKeySet) :
    ¬ Scoped (Provider.new issuer keys) key scopes := by
  rintro (⟨code, ac, h, -⟩ | ⟨g, h, -⟩) <;> simp [Provider.new] at h

/-- **What a client is registered for.** -/
theorem within_registration (issuer : String) (keys : SigningKeySet) (l : List Call) :
    (Along (step H) CarefulCall (start issuer keys) l →
      Along (step H) (Allowed H) (start issuer keys) l ∧
      ∀ p, exec (step H) (start issuer keys) l = some p → ∀ key scopes, Scoped p key scopes →
        ∃ client, p.registry.clients[key.clientId]? = some client ∧
          scopes ⊆ client.allowedScopes) ∧
    Along (step H) (fun s a => ∀ clientId now, a = .tokenClientCredentials clientId now →
      Allowed H s a) (start issuer keys) l ∧
    ∀ p, exec (step H) (start issuer keys) l = some p → ∀ key scopes, Scoped p key scopes →
      WithinConsent p key scopes := by
  refine ⟨fun hcareful => ?_, ?_, ?_⟩
  · have hwithin : Throughout (step H) (Alive AllRegistered) (start issuer keys) l :=
      throughout_of_along allRegistered_step
        (alive_some.2 fun _ _ h => absurd h (not_scoped_new issuer keys)) hcareful
    refine ⟨fun q a hq => ?_, fun p hp key scopes hscoped => ?_⟩
    · exact allowed_of_registered (hwithin q ((List.prefix_append q [a]).trans hq))
    · obtain ⟨client, hclient, -, -, hscopes⟩ := hwithin l List.prefix_rfl p hp key scopes hscoped
      exact ⟨client, hclient, hscopes⟩
  · rintro q a - clientId now rfl
    exact allowed_credentials _ clientId now
  · exact exec_inv (I := Alive AllConsented) allConsented_step
      (alive_some.2 fun _ _ h => absurd h (not_scoped_new issuer keys)) l

/-- The client redeems its code and refreshes. -/
theorem app_within :
    Along (step encode) CarefulCall appStart
        (appAuthorized ++ [appRedeems, .tokenRefresh (appToken .refresh) 0]) ∧
      Along (step encode) (Allowed encode) appStart
        (appAuthorized ++ [appRedeems, .tokenRefresh (appToken .refresh) 0]) := by
  have hcareful : Along (step encode) CarefulCall appStart
      (appAuthorized ++ [appRedeems, .tokenRefresh (appToken .refresh) 0]) := by decide +kernel
  exact ⟨hcareful, ((within_registration "op" (signer "op") _).1 hcareful).1⟩

def coder : OAuthClient := { app with allowedGrants := {.authorizationCode} }

def appRefreshed : TokenResponse :=
  ⟨freshText encode (TokenKind.access.label ⟨"ann", "app"⟩ 2) 4, "Bearer", 3600,
    some (freshText encode (TokenKind.refresh.label ⟨"ann", "app"⟩ 2) 5), some "op:ann"⟩

/-- **Without care the registration is exceeded.** -/
theorem beyond_registration :
    (∃ p, exec (step encode) appStart
          (appAuthorized ++ [.registryOp (.setGrants "app" ∅ 1)]) = some p ∧
        (∀ client ∈ p.registry.clients["app"]?, .authorizationCode ∉ client.allowedGrants) ∧
        Answers encode (.token (.ok appResponse)) (some p) appRedeems) ∧
    (∃ p, exec (step encode) appStart
          (.putClient coder :: appAuthorized.tail ++ [appRedeems]) = some p ∧
        (∀ client ∈ p.registry.clients["app"]?, .refreshToken ∉ client.allowedGrants) ∧
        Answers encode (.token (.ok appRefreshed)) (some p) (.tokenRefresh (appToken .refresh) 0)) ∧
    ∃ p, exec (step encode) appStart
          [.putClient app, .setUserStatus "ann" .active,
            .grantConsent "ann" "app" {"openid", "admin"} 0,
            .authorize { appRequest with scopes := {"admin"} }] = some p ∧
        Scoped p ⟨"ann", "app"⟩ {"admin"} ∧
        ∀ client ∈ p.registry.clients["app"]?, ¬ {"admin"} ⊆ client.allowedScopes := by
  refine ⟨?_, ?_, ?_⟩
  · have hrun : (exec (step encode) appStart
        (appAuthorized ++ [.registryOp (.setGrants "app" ∅ 1)])).any (fun p =>
          (∀ client ∈ p.registry.clients["app"]?, .authorizationCode ∉ client.allowedGrants) ∧
            Answers encode (.token (.ok appResponse)) (some p) appRedeems) = true := by
      decide +kernel
    obtain ⟨p, hp, h⟩ := (Option.any_eq_true _ _).1 hrun
    exact ⟨p, hp, of_decide_eq_true h⟩
  · have hrun : (exec (step encode) appStart
        (.putClient coder :: appAuthorized.tail ++ [appRedeems])).any (fun p =>
          (∀ client ∈ p.registry.clients["app"]?, .refreshToken ∉ client.allowedGrants) ∧
            Answers encode (.token (.ok appRefreshed)) (some p)
              (.tokenRefresh (appToken .refresh) 0)) = true := by decide +kernel
    obtain ⟨p, hp, h⟩ := (Option.any_eq_true _ _).1 hrun
    exact ⟨p, hp, of_decide_eq_true h⟩
  · have hrun : (exec (step encode) appStart
        [.putClient app, .setUserStatus "ann" .active,
          .grantConsent "ann" "app" {"openid", "admin"} 0,
          .authorize { appRequest with scopes := {"admin"} }]).any (fun p =>
          p.codes[appCode]? =
            some ⟨"app", "ann", "app:/back", {"admin"}, s256 encode "verifier", false⟩ ∧
            ∀ client ∈ p.registry.clients["app"]?, ¬ {"admin"} ⊆ client.allowedScopes) = true := by
      decide +kernel
    obtain ⟨p, hp, h⟩ := (Option.any_eq_true _ _).1 hrun
    obtain ⟨hcode, hclient⟩ := of_decide_eq_true h
    exact ⟨p, hp, .inl ⟨appCode, _, hcode, rfl, rfl⟩, hclient⟩

end Pillar.Oidc
