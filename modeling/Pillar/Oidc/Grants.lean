import Pillar.Lib.Base64
import Pillar.Oidc.Tokens

/-!
# The life cycle of a grant

A code is redeemed once, by whoever knows its verifier.  A refresh token is exchanged once.
-/

namespace Pillar.Oidc

open Function (Injective)
open Lib.Base64 Lib.Runs Std

variable {H : Bytes → String} {p p' : Provider} {key : GrantKey} {kind : TokenKind} {t : String}
  {a : Call} {ans : Answer}

/-! ## What stays so -/

variable (H) in
def Dead (kind : TokenKind) (t : String) (p : Provider) : Prop :=
  Known H p t ∧ ∀ key, p.held kind key ≠ some t

variable (H) in
def Owned (kind : TokenKind) (key : GrantKey) (t : String) (p : Provider) : Prop :=
  Known H p t ∧ ∀ key', p.held kind key' = some t → key' = key

variable (H) in
/-- The code was drawn, and it was redeemed. -/
def Spent (code : String) (p : Provider) : Prop :=
  Known H p code ∧ ∀ ac, p.codes[code]? = some ac → ac.consumed = true

variable (H) in
/-- The code was drawn, for that user and client, that place and that challenge. -/
def Bound (req : AuthorizeRequest) (code : String) (p : Provider) : Prop :=
  Known H p code ∧ ∀ ac, p.codes[code]? = some ac →
    ac.key = req.key ∧ ac.redirectUri = req.redirectUri ∧
      req.codeChallenge = some ac.codeChallenge

theorem Move.held (hH : Injective H) (h : Move H p a ans p') (ht : Known H p t)
    (hheld : p'.held kind key = some t) : p.held kind key = some t := by
  rcases h.held_cases hheld with ⟨hbefore, -⟩ | ⟨r, -, -, -, hbound, hnext⟩
  · exact hbefore
  · exact absurd hnext (ht.ne_nextToken hH hbound kind)

theorem Move.code (hH : Injective H) (h : Move H p a ans p') {code : String} {ac' : AuthCode}
    (ht : Known H p code) (hcode : p'.codes[code]? = some ac') :
    ∃ ac, p.codes[code]? = some ac ∧ (ac' = ac ∨ ac' = { ac with consumed := true }) := by
  rcases h.code_cases hcode with hbefore | ⟨req, challenge, -, -, -, hbound, hfresh, -⟩
  · exact hbefore
  · exact absurd hfresh (ht.ne hH (Nat.lt_succ_self _) hbound)

theorem Move.known (h : Move H p a ans p') (ht : Known H p t) : Known H p' t := by
  cases h with
  | shrinks h => exact ht.mono h.counter
  | issued => exact ht.mono (Nat.le_succ _)
  | minted hkey h₁ hnext hmint => exact ht.mono (h₁.counter.trans (by rw [hmint.counter]; omega))

theorem dead_step (hH : Injective H) (s : Option Provider) (a : Call)
    (hs : Alive (Dead H kind t) s) : Alive (Dead H kind t) (step H s a) :=
  Alive.step (fun _ _ _ _ h hp =>
    ⟨h.move.known hp.1, fun key hkey => hp.2 key (h.move.held hH hp.1 hkey)⟩) s a hs

theorem owned_step (hH : Injective H) (s : Option Provider) (a : Call)
    (hs : Alive (Owned H kind key t) s) : Alive (Owned H kind key t) (step H s a) :=
  Alive.step (fun _ _ _ _ h hp =>
    ⟨h.move.known hp.1, fun key' hkey => hp.2 key' (h.move.held hH hp.1 hkey)⟩) s a hs

theorem spent_step (hH : Injective H) {code : String} (s : Option Provider) (a : Call)
    (hs : Alive (Spent H code) s) : Alive (Spent H code) (step H s a) := by
  refine Alive.step (fun p a ans p' h hp => ⟨h.move.known hp.1, fun ac' hac' => ?_⟩) s a hs
  obtain ⟨ac, hac, rfl | rfl⟩ := h.move.code hH hp.1 hac'
  · exact hp.2 _ hac
  · rfl

variable {req : AuthorizeRequest}

theorem bound_step (hH : Injective H) {code : String} (s : Option Provider) (a : Call)
    (hs : Alive (Bound H req code) s) : Alive (Bound H req code) (step H s a) := by
  refine Alive.step (fun p a ans p' h hp => ⟨h.move.known hp.1, fun ac' hac' => ?_⟩) s a hs
  obtain ⟨ac, hac, rfl | rfl⟩ := h.move.code hH hp.1 hac'
  · exact hp.2 _ hac
  · exact hp.2 ac hac

/-! ## What happens in a run -/

section Events

variable (H)

def Issues (req : AuthorizeRequest) (code : String) (s : Option Provider) (a : Call) : Prop :=
  a = .authorize req ∧ Answers H (.authorized (.ok code)) s a

def Redeems (code redirectUri codeVerifier : String) (s : Option Provider) (a : Call) : Prop :=
  ∃ now r, a = .tokenAuthorizationCode code redirectUri codeVerifier now ∧
    Answers H (.token (.ok r)) s a

def Refreshes (t : String) (s : Option Provider) (a : Call) : Prop :=
  ∃ now r, a = .tokenRefresh t now ∧ Answers H (.token (.ok r)) s a

/-- A token call for the user and the client succeeds. -/
def TokenCall (key : GrantKey) (r : TokenResponse) (s : Option Provider) (a : Call) : Prop :=
  ∃ p, s = some p ∧ a.key p = some key ∧ Answers H (.token (.ok r)) s a

instance (req : AuthorizeRequest) (code : String) (s : Option Provider) (a : Call) :
    Decidable (Issues H req code s a) :=
  inferInstanceAs (Decidable (_ ∧ _))

instance (key : GrantKey) (r : TokenResponse) (s : Option Provider) (a : Call) :
    Decidable (TokenCall H key r s a) :=
  decidable_of_iff (s.any (fun p => a.key p = some key) = true ∧ Answers H (.token (.ok r)) s a)
    (by simp [TokenCall, Option.any_eq_true, ← and_assoc])

/-- A token of the user and the client is returned. -/
def Mints (kind : TokenKind) (key : GrantKey) (t : String) (s : Option Provider) (a : Call) :
    Prop :=
  ∃ r, TokenCall H key r s a ∧ r.token kind = some t

/-- What ends an access token: the next one, its revocation, the end of the consent or the user
being disabled. -/
def Ends (key : GrantKey) (t : String) (s : Option Provider) (a : Call) : Prop :=
  (∃ r, TokenCall H key r s a) ∨ a = .revoke t ∨
    (∃ at_, a = .revokeConsent key.user key.clientId at_) ∨ a = .setUserStatus key.user .disabled

end Events

/-! ## Codes -/

variable {s : Option Provider}

theorem issues_cases {code : String} (h : Issues H req code s a) :
    ∃ p challenge, s = some p ∧ p.checkAuthorize req = .ok challenge ∧
      p.counter + 1 < 2 ^ 64 ∧ code = freshText H (codeLabel req.key) (p.counter + 1) ∧
      step H s a = some { p with
        counter := p.counter + 1
        codes := p.codes.insert code
          ⟨req.clientId, req.user, req.redirectUri, req.scopes, challenge, false⟩ } := by
  obtain ⟨rfl, h⟩ := h
  obtain ⟨p, p', rfl, hstep, heffect⟩ := h.effect
  generalize hans : Answer.authorized (.ok code) = ans at heffect
  cases heffect with
  | notAuthorized | noToken => cases hans
  | issued hcheck hbound =>
    cases hans
    exact ⟨p, _, rfl, hcheck, hbound, rfl, hstep⟩

variable {redirectUri : String} {codeVerifier : String}

theorem redeems_cases {code : String} (h : Redeems H code redirectUri codeVerifier s a) :
    ∃ p ac r p', s = some p ∧ p.checkCode H code redirectUri codeVerifier = .ok ac ∧
      Minted H { p with codes := p.codes.insert code { ac with consumed := true } } ac.key
        ac.scopes r p' ∧ step H s a = some p' := by
  obtain ⟨now, r, rfl, h⟩ := h
  obtain ⟨p, p', rfl, hstep, heffect⟩ := h.effect
  generalize hans : Answer.token (.ok r) = ans at heffect
  cases heffect with
  | noToken ha => cases hans
  | redeemed hcheck hmint => exact ⟨p, _, _, p', rfl, hcheck, hmint, hstep⟩

theorem refreshes_cases (h : Refreshes H t s a) :
    ∃ p key record r p', s = some p ∧ p.checkRefresh t = .ok (key, record) ∧
      Minted H p key record.scopes r p' ∧ step H s a = some p' := by
  obtain ⟨now, r, rfl, h⟩ := h
  obtain ⟨p, p', rfl, hstep, heffect⟩ := h.effect
  generalize hans : Answer.token (.ok r) = ans at heffect
  cases heffect with
  | noToken ha => cases hans
  | refreshed hcheck hmint => exact ⟨p, _, _, _, p', rfl, hcheck, hmint, hstep⟩

theorem issued_of_mem {issuer : String} {keys : SigningKeySet} {l : List Call} {code : String}
    {ac : AuthCode} (h : exec (step H) (start issuer keys) l = some p)
    (hcode : p.codes[code]? = some ac) :
    ∃ req, Ever (step H) (Issues H req code) (start issuer keys) l := by
  have hever : Ever (step H) (fun s a => ∃ req, Issues H req code s a) (start issuer keys) l := by
    refine ever_of_exec (I := fun _ => True)
      (P := fun s => ∃ p, s = some p ∧ (p.codes[code]?).isSome = true) (fun _ _ _ => trivial) ?_
      trivial ?_ l ⟨p, h, by rw [hcode]; rfl⟩
    · rintro s a - ⟨p', hp', hcode'⟩
      obtain ⟨ac', hac'⟩ := Option.isSome_iff_exists.1 hcode'
      obtain ⟨p, ans, rfl, hcall⟩ := step_eq_some_iff.1 hp'
      rcases (effect_call hcall).move.code_cases hac' with ⟨ac, hac, -⟩ | ⟨req, -, rfl, rfl, -⟩
      · exact .inr ⟨p, rfl, by rw [hac]; rfl⟩
      · exact .inl ⟨req, rfl, p, rfl, by rw [hcall]; rfl⟩
    · rintro ⟨p, hp, hcode⟩
      cases hp
      simp [Provider.new] at hcode
  obtain ⟨l₁, a, l₂, hl, req, hreq⟩ := hever
  exact ⟨req, l₁, a, l₂, hl, hreq⟩

theorem bound_of_issues {code : String} (h : Issues H req code s a) :
    Alive (Bound H req code) (step H s a) := by
  obtain ⟨p, challenge, rfl, hcheck, -, hcode, hstep⟩ := issues_cases h
  obtain ⟨client, consent, -, -, hchallenge, -⟩ := checkAuthorize_eq_ok hcheck
  rw [hstep, alive_some]
  refine ⟨⟨_, _, le_rfl, hcode⟩, fun ac hac => ?_⟩
  rw [ExtTreeMap.getElem?_insert_self] at hac
  cases hac
  exact ⟨rfl, rfl, hchallenge⟩

theorem spent_of_redeems {code : String} (hs : Alive (Sound H) s)
    (h : Redeems H code redirectUri codeVerifier s a) : Alive (Spent H code) (step H s a) := by
  obtain ⟨p, ac, r, p', rfl, hcheck, hmint, hstep⟩ := redeems_cases h
  have hknown : Known H p code := (hs p rfl).codes code ac (checkCode_eq_ok hcheck).1
  rw [hstep, alive_some]
  refine ⟨hknown.mono (by rw [hmint.counter]; exact Nat.le_add_right _ 2), fun ac' hac' => ?_⟩
  rw [hmint.codes, ExtTreeMap.getElem?_insert_self] at hac'
  cases hac'
  rfl

theorem not_redeems_of_spent {code : String} (hs : Alive (Spent H code) s) :
    ¬ Redeems H code redirectUri codeVerifier s a := by
  intro h
  obtain ⟨p, ac, r, p', rfl, hcheck, -⟩ := redeems_cases h
  obtain ⟨hcode, hnew, -⟩ := checkCode_eq_ok hcheck
  have hconsumed := (hs p rfl).2 ac hcode
  rw [hnew] at hconsumed
  cases hconsumed

/-! ## Tokens -/

theorem mints_cases (h : Mints H kind key t s a) :
    ∃ p p₁ scopes r p', s = some p ∧ Shrinks p p₁ ∧ Minted H p₁ key scopes r p' ∧
      t = p₁.nextToken H kind key ∧ step H s a = some p' := by
  obtain ⟨r, ⟨p, rfl, hkey, hanswers⟩, ht⟩ := h
  obtain ⟨q, p', hq, hstep, heffect⟩ := hanswers.effect
  cases hq
  generalize hans : Answer.token (.ok r) = ans at heffect
  cases heffect.move with
  | shrinks h htoken =>
    rw [htoken r hans.symm] at hkey
    cases hkey
  | issued => cases hans
  | minted hkey' h₁ hnext hmint =>
    cases hans
    rw [hkey] at hkey'
    cases hkey'
    rw [hmint.token kind] at ht
    exact ⟨p, _, _, r, p', rfl, h₁, hmint, (Option.some.inj ht).symm, hstep⟩

theorem owned_of_mints (hH : Injective H) (hs : Alive (Sound H) s) (h : Mints H kind key t s a)
    (kind' : TokenKind) : Alive (Owned H kind' key t) (step H s a) := by
  obtain ⟨p, p₁, scopes, r, p', rfl, h₁, hmint, rfl, hstep⟩ := mints_cases h
  rw [hstep, alive_some]
  refine ⟨hmint.known kind, fun key' hkey' => ?_⟩
  rw [hmint.held] at hkey'
  split_ifs at hkey' with heq
  · exact heq
  · have hsound : Sound H p₁ := (hs p rfl).shrinks h₁
    exact absurd rfl ((hsound.held hkey').ne_nextToken hH hmint.bound kind)

theorem dead_of_refreshes (hH : Injective H) (hs : Alive (Sound H) s) (h : Refreshes H t s a) :
    Alive (Dead H .refresh t) (step H s a) := by
  obtain ⟨p, key, record, r, p', rfl, hcheck, hmint, hstep⟩ := refreshes_cases h
  have hsound : Sound H p := hs p rfl
  have hheld := held_of_checkRefresh hcheck
  have hknown : Known H p t := hsound.held hheld
  rw [hstep, alive_some]
  refine ⟨hknown.mono (by rw [hmint.counter]; exact Nat.le_add_right _ 2), fun key' hkey' => ?_⟩
  rw [hmint.held] at hkey'
  split_ifs at hkey' with heq
  · exact hknown.ne_nextToken hH hmint.bound .refresh (Option.some.inj hkey').symm
  · have hindex := hsound.indexed .refresh key t hheld
    rw [hsound.indexed .refresh key' t hkey'] at hindex
    exact heq (Option.some.inj hindex)

theorem not_refreshes_of_dead (hs : Alive (Dead H .refresh t) s) : ¬ Refreshes H t s a := by
  intro h
  obtain ⟨p, key, record, r, p', rfl, hcheck, -⟩ := refreshes_cases h
  exact (hs p rfl).2 key (held_of_checkRefresh hcheck)

theorem introspect_iff :
    p.introspect t = true ↔ ∃ key, p.accessIndex[t]? = some key ∧ p.held .access key = some t ∧
      p.registry.consented key = true ∧ p.users[key.user]? = some .active := by
  rw [Provider.introspect]
  cases hkey : p.accessIndex[t]? with
  | none => simp
  | some key =>
    cases hg : p.grants[key]? with
    | none => simp [hg, Provider.held]
    | some g =>
      by_cases ht : g.accessToken = some t <;> simp [hg, Provider.held, GrantRecord.token, ht]

theorem held_step (hs : Alive (Sound H) s)
    (h : ∃ p', step H s a = some p' ∧ p'.held .access key = some t) :
    Mints H .access key t s a ∨
      (∃ p, s = some p ∧ p.held .access key = some t) ∧ ¬ Ends H key t s a := by
  obtain ⟨p', hp', ht⟩ := h
  obtain ⟨p, ans, rfl, hcall⟩ := step_eq_some_iff.1 hp'
  rcases (effect_call hcall).move.held_cases ht with ⟨hheld, hno⟩ | ⟨r, rfl, hkey, hr, -⟩
  · refine .inr ⟨⟨p, rfl, hheld⟩, ?_⟩
    rintro (⟨r, q, hq, hkey, q', hq', hanswers⟩ | rfl | ⟨at_, rfl⟩ | rfl)
    · cases hq
      cases hq'
      rw [hcall] at hanswers
      exact hno r (Option.some.inj hanswers) hkey
    · cases hcall
      rw [Provider.held_revoke, if_pos ⟨rfl, (hs p rfl).indexed .access key t hheld, hheld⟩] at ht
      cases ht
    · cases hcall
      rw [Provider.revokeConsent, Provider.held_revokeGrantTokens, if_pos rfl] at ht
      cases ht
    · cases hcall
      simp only [Provider.setUserStatus, if_pos] at ht
      rw [held_revokeAllGrantsForUser] at ht
      cases ht
  · exact .inl ⟨r, ⟨p, rfl, hkey, p, rfl, by rw [hcall]; rfl⟩, hr⟩

/-! ## The life cycle -/

section LifeCycle

variable (hH : Injective H) (issuer : String) (keys : SigningKeySet)

include hH

variable {l : List Call}

theorem bound_exec {req : AuthorizeRequest} {code : String}
    (h : Ever (step H) (Issues H req code) (start issuer keys) l) :
    Alive (Bound H req code) (exec (step H) (start issuer keys) l) :=
  exec_of_ever (I := fun _ => True) (fun _ _ _ => trivial) (fun _ _ _ h => bound_of_issues h)
    (bound_step hH) trivial h

theorem redeemed_as_issued {code redirectUri codeVerifier : String}
    (h : Redeems H code redirectUri codeVerifier (exec (step H) (start issuer keys) l) a) :
    (∃ req, Ever (step H) (Issues H req code) (start issuer keys) l) ∧
      ∀ req, Ever (step H) (Issues H req code) (start issuer keys) l →
        req.redirectUri = redirectUri ∧ req.codeChallenge = some (s256 H codeVerifier) := by
  obtain ⟨p, ac, r, p', hp, hcheck, -⟩ := redeems_cases h
  obtain ⟨hcode, -, huri, hchallenge, -⟩ := checkCode_eq_ok hcheck
  refine ⟨issued_of_mem hp hcode, fun req hreq => ?_⟩
  have hbound := bound_exec hH issuer keys hreq
  obtain ⟨-, huri', hchallenge'⟩ := (hbound p hp).2 ac hcode
  rw [hchallenge', hchallenge, ← huri', huri]
  exact ⟨rfl, rfl⟩

theorem owned_exec (h : Ever (step H) (Mints H kind key t) (start issuer keys) l)
    (kind' : TokenKind) : Alive (Owned H kind' key t) (exec (step H) (start issuer keys) l) :=
  exec_of_ever (sound_step hH) (fun _ _ hs h => owned_of_mints hH hs h kind') (owned_step hH)
    (sound_start issuer keys) h

theorem since_of_held (h : exec (step H) (start issuer keys) l = some p)
    (ht : p.held .access key = some t) :
    Since (step H) (Mints H .access key t) (Ends H key t) (start issuer keys) l := by
  refine since_of_exec (I := Alive (Sound H))
    (P := fun s => ∃ p, s = some p ∧ p.held .access key = some t) (sound_step hH)
    (fun s a hs h => held_step hs h) (sound_start issuer keys) ?_ l ⟨p, h, ht⟩
  rintro ⟨p, hp, ht⟩
  cases hp
  simp [Provider.new, Provider.held] at ht

end LifeCycle

/-- **The life cycle of a grant.** -/
theorem token_life_cycle (hH : Injective H) (issuer : String) (keys : SigningKeySet)
    (l : List Call) :
    (∀ code, AtMostOnce (step H)
      (fun s a => ∃ redirectUri codeVerifier, Redeems H code redirectUri codeVerifier s a)
      (start issuer keys) l) ∧
    (∀ l₁ a l₂ code redirectUri codeVerifier, l = l₁ ++ a :: l₂ →
      Redeems H code redirectUri codeVerifier (exec (step H) (start issuer keys) l₁) a →
      (∃ req, Ever (step H) (Issues H req code) (start issuer keys) l₁) ∧
        ∀ req, Ever (step H) (Issues H req code) (start issuer keys) l₁ →
          req.redirectUri = redirectUri ∧ req.codeChallenge = some (s256 H codeVerifier)) ∧
    (∀ t, AtMostOnce (step H) (Refreshes H t) (start issuer keys) l) ∧
    ∀ p, exec (step H) (start issuer keys) l = some p →
      (∀ key t t', Ever (step H) (Mints H .access key t) (start issuer keys) l →
        Ever (step H) (Mints H .access key t') (start issuer keys) l →
        p.introspect t = true → p.introspect t' = true → t = t') ∧
      ∀ t, p.introspect t = true → ∃ key : GrantKey, p.registry.consented key = true ∧
        p.users[key.user]? = some .active ∧
        Since (step H) (Mints H .access key t) (Ends H key t) (start issuer keys) l := by
  refine ⟨fun code => ?_, ?_, fun t => ?_, fun p hp => ⟨?_, fun t ht => ?_⟩⟩
  · refine atMostOnce_of_inv (D := Alive (Spent H code)) (sound_step hH) ?_ (spent_step hH) ?_
      (sound_start issuer keys) l
    · rintro s a hs ⟨redirectUri, codeVerifier, h⟩
      exact spent_of_redeems hs h
    · rintro s a hs ⟨redirectUri, codeVerifier, h⟩
      exact not_redeems_of_spent hs h
  · intro l₁ a l₂ code redirectUri codeVerifier _ h
    exact redeemed_as_issued hH issuer keys h
  · exact atMostOnce_of_inv (D := Alive (Dead H .refresh t)) (sound_step hH)
      (fun s a hs h => dead_of_refreshes hH hs h) (dead_step hH)
      (fun s a hs => not_refreshes_of_dead hs) (sound_start issuer keys) l
  · intro key t t' hmint hmint' ht ht'
    obtain ⟨key₁, -, hheld, -⟩ := introspect_iff.1 ht
    obtain ⟨key₂, -, hheld', -⟩ := introspect_iff.1 ht'
    have h₁ : key₁ = key := (owned_exec hH issuer keys hmint .access p hp).2 key₁ hheld
    have h₂ : key₂ = key := (owned_exec hH issuer keys hmint' .access p hp).2 key₂ hheld'
    rw [h₁] at hheld
    rw [h₂, hheld] at hheld'
    exact Option.some.inj hheld'
  · obtain ⟨key, -, hheld, hconsent, hactive⟩ := introspect_iff.1 ht
    exact ⟨key, hconsent, hactive, since_of_held hH issuer keys hp hheld⟩

/-! ## A run -/

def signer (name : String) : SigningKeySet := fun claims => some (name ++ ":" ++ claims.sub)

def app : OAuthClient :=
  ⟨"app", .public_, {"app:/back"}, {"openid"}, {.authorizationCode, .refreshToken}, 0, 0⟩

abbrev appStart : Option Provider := start "op" (signer "op")

/-- The request of the client; a byte string is hashed to its base64. -/
def appRequest : AuthorizeRequest :=
  ⟨"code", "app", "app:/back", {"openid"}, "ann", some (s256 encode "verifier"), some "S256"⟩

def appAuthorized : List Call :=
  [.putClient app, .setUserStatus "ann" .active, .grantConsent "ann" "app" {"openid"} 0,
    .authorize appRequest]

def appCode : String := freshText encode (codeLabel ⟨"ann", "app"⟩) 1

def appRedeems : Call := .tokenAuthorizationCode appCode "app:/back" "verifier" 0

def appToken (kind : TokenKind) : String :=
  freshText encode (kind.label ⟨"ann", "app"⟩ 1) (1 + kind.offset)

def appResponse : TokenResponse :=
  ⟨appToken .access, "Bearer", 3600, some (appToken .refresh), some "op:ann"⟩

theorem first_token_active :
    ∃ p, exec (step encode) appStart (appAuthorized ++ [appRedeems]) = some p ∧
      p.introspect (appToken .access) = true ∧
      ∃ key : GrantKey, p.registry.consented key = true ∧ p.users[key.user]? = some .active ∧
        Since (step encode) (Mints encode .access key (appToken .access))
          (Ends encode key (appToken .access))
          appStart (appAuthorized ++ [appRedeems]) := by
  have hrun : (exec (step encode) appStart (appAuthorized ++ [appRedeems])).any
      (fun p => p.introspect (appToken .access)) = true := by decide +kernel
  obtain ⟨p, hp, ht⟩ := (Option.any_eq_true _ _).1 hrun
  exact ⟨p, hp, ht, ((token_life_cycle encode_injective "op" (signer "op")
    (appAuthorized ++ [appRedeems])).2.2.2 p hp).2 (appToken .access) ht⟩

end Pillar.Oidc
