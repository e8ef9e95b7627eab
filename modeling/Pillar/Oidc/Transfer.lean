import Pillar.Oidc.Grants

/-!
# Tokens of another provider

Codes and tokens are drawn from what they are for and from a counter. Nothing of the provider goes
into them, neither its name nor its keys.
-/

namespace Pillar.Oidc

open Function (Injective)
open Lib.Base64 Lib.Runs Std

variable {H : Bytes → String} {p p' : Provider} {key : GrantKey} {t : String} {a : Call}
  {ans : Answer} {s : Option Provider}

/-! ## What is drawn -/

def Provider.toDraw (p : Provider) : Call → List (String × ℕ)
  | .authorize req => [(codeLabel req.key, p.counter + 1)]
  | .tokenClientCredentials clientId _ => [(credentialsLabel clientId, p.counter + 1)]
  | a => (a.key p).elim [] fun key => [TokenKind.access, .refresh].map fun kind =>
      (kind.label key (p.rotation key), p.counter + kind.offset)

/-- Whether the answer holds a code or tokens. -/
def Answer.isOk : Answer → Bool
  | .authorized (.ok _) | .token (.ok _) => true
  | _ => false

variable (H)

def drawn (s : Option Provider) (a : Call) : List (String × ℕ) :=
  s.elim [] fun p => if ((call H p a).any fun (ans, _) => ans.isOk) then p.toDraw a else []

def drawnIn (s : Option Provider) : List Call → List (String × ℕ)
  | [] => []
  | a :: l => drawn H s a ++ drawnIn (step H s a) l

variable {H}

variable {pair : String × ℕ}

theorem mem_drawn (hanswers : Answers H ans (some p) a) (hok : ans.isOk = true)
    (h : pair ∈ p.toDraw a) : pair ∈ drawn H (some p) a := by
  obtain ⟨q, hq, hans⟩ := hanswers
  cases hq
  obtain ⟨⟨ans', p'⟩, hcall, rfl⟩ := Option.map_eq_some_iff.1 hans
  simp [drawn, hcall, hok, h]

theorem mem_drawnIn {l : List Call} (h : Ever (step H) (fun s a => pair ∈ drawn H s a) s l) :
    pair ∈ drawnIn H s l := by
  obtain ⟨l₁, a, l₂, rfl, h⟩ := h
  induction l₁ generalizing s with
  | nil => exact List.mem_append_left _ h
  | cons b l₁ ih => exact List.mem_append_right _ (ih h)

theorem mem_toDraw_of_key (hkey : a.key p = some key) (kind : TokenKind) :
    (kind.label key (p.rotation key), p.counter + kind.offset) ∈ p.toDraw a := by
  cases a with
  | tokenAuthorizationCode | tokenRefresh =>
    simp only [Provider.toDraw, hkey]
    cases kind <;> simp
  | _ => cases hkey

variable (H) in
def IsDraw (t : String) (pair : String × ℕ) : Prop :=
  pair.2 < 2 ^ 64 ∧ t = freshText H pair.1 pair.2

theorem isDraw_inj (hH : Injective H) {pair' : String × ℕ} (h : IsDraw H t pair)
    (h' : IsDraw H t pair') : pair = pair' := by
  obtain ⟨hlabel, hcounter⟩ := freshText_inj hH h.1 h'.1 (h.2.symm.trans h'.2)
  exact Prod.ext hlabel hcounter

theorem isDraw_nextToken (hbound : p.counter + 2 < 2 ^ 64) (kind : TokenKind) :
    IsDraw H (p.nextToken H kind key)
      (kind.label key (p.rotation key), p.counter + kind.offset) := by
  refine ⟨?_, rfl⟩
  cases kind <;> simp only [TokenKind.offset] <;> omega

/-! ## What is returned -/

variable (H) in
def Returns (t : String) (s : Option Provider) (a : Call) : Prop :=
  Answers H (.authorized (.ok t)) s a ∨
    ∃ r kind, Answers H (.token (.ok r)) s a ∧ r.token kind = some t

theorem drawn_of_returns (h : Returns H t s a) : ∃ pair ∈ drawn H s a, IsDraw H t pair := by
  rcases h with h | ⟨r, kind, h, ht⟩
  · obtain ⟨p, p', rfl, -, heffect⟩ := h.effect
    generalize hans : Answer.authorized (.ok t) = ans at heffect
    cases heffect with
    | issued hcheck hbound =>
      cases hans
      exact ⟨_, mem_drawn h rfl List.mem_cons_self, hbound, rfl⟩
    | _ => cases hans
  · obtain ⟨p, p', rfl, -, heffect⟩ := h.effect
    generalize hans : Answer.token (.ok r) = ans at heffect
    cases heffect with
    | redeemed hcheck hmint =>
      cases hans
      cases (hmint.token kind).symm.trans ht
      refine ⟨_, mem_drawn h rfl (mem_toDraw_of_key ?_ kind), isDraw_nextToken hmint.bound kind⟩
      rw [Call.key, (checkCode_eq_ok hcheck).1]
      rfl
    | refreshed hcheck hmint =>
      cases hans
      cases (hmint.token kind).symm.trans ht
      refine ⟨_, mem_drawn h rfl (mem_toDraw_of_key ?_ kind), isDraw_nextToken hmint.bound kind⟩
      exact (checkRefresh_eq_ok hcheck).1
    | credentials hcheck hbound htext =>
      cases hans
      cases kind with
      | access =>
        cases ht
        exact ⟨_, mem_drawn h rfl List.mem_cons_self, hbound, htext⟩
      | refresh => cases ht
    | _ => cases hans

/-! ## What is accepted -/

def Present (t : String) (p : Provider) : Prop :=
  (p.codes[t]?).isSome = true ∨ ∃ kind key, p.held kind key = some t

theorem drawn_of_step (h : ∃ p', step H s a = some p' ∧ Present t p') :
    (∃ pair ∈ drawn H s a, IsDraw H t pair) ∨ ∃ p, s = some p ∧ Present t p := by
  obtain ⟨p', hp', hpresent⟩ := h
  obtain ⟨p, ans, rfl, hcall⟩ := step_eq_some_iff.1 hp'
  have hanswers : Answers H ans (some p) a := ⟨p, rfl, by rw [hcall]; rfl⟩
  have hmove := (effect_call hcall).move
  rcases hpresent with hcode | ⟨kind, key, hheld⟩
  · obtain ⟨ac', hac'⟩ := Option.isSome_iff_exists.1 hcode
    rcases hmove.code_cases hac' with ⟨ac, hac, -⟩ | ⟨req, -, rfl, rfl, -, hbound, hfresh, -⟩
    · exact .inr ⟨p, rfl, .inl (by rw [hac]; rfl)⟩
    · exact .inl ⟨_, mem_drawn hanswers rfl List.mem_cons_self, hbound, hfresh⟩
  · rcases hmove.held_cases hheld with ⟨hbefore, -⟩ | ⟨r, rfl, hkey, -, hbound, rfl⟩
    · exact .inr ⟨p, rfl, .inr ⟨kind, key, hbefore⟩⟩
    · exact .inl ⟨_, mem_drawn hanswers rfl (mem_toDraw_of_key hkey kind),
        isDraw_nextToken hbound kind⟩

theorem drawn_of_present {issuer : String} {keys : SigningKeySet} {l : List Call}
    (h : exec (step H) (start issuer keys) l = some p) (ht : Present t p) :
    Ever (step H) (fun s a => ∃ pair ∈ drawn H s a, IsDraw H t pair) (start issuer keys) l := by
  refine ever_of_exec (I := fun _ => True) (P := fun s => ∃ p, s = some p ∧ Present t p)
    (fun _ _ _ => trivial) (fun s a _ h => drawn_of_step h) trivial ?_ l ⟨p, h, ht⟩
  rintro ⟨p, hp, hcode | ⟨kind, key, hheld⟩⟩
  · cases hp
    simp [Provider.new] at hcode
  · cases hp
    simp [Provider.new, Provider.held] at hheld

theorem mem_drawnIn_of_ever {l : List Call}
    (h : Ever (step H) (fun s a => ∃ pair ∈ drawn H s a, IsDraw H t pair) s l) :
    ∃ pair ∈ drawnIn H s l, IsDraw H t pair := by
  obtain ⟨l₁, a, l₂, rfl, pair, hpair, ht⟩ := h
  exact ⟨pair, mem_drawnIn ⟨l₁, a, l₂, rfl, hpair⟩, ht⟩

theorem drawnIn_append (s : Option Provider) (l₁ l₂ : List Call) :
    drawnIn H s (l₁ ++ l₂) = drawnIn H s l₁ ++ drawnIn H (exec (step H) s l₁) l₂ := by
  induction l₁ generalizing s with
  | nil => rfl
  | cons a l₁ ih => rw [List.cons_append, drawnIn, drawnIn, ih, List.append_assoc, exec_cons]

/-- **Tokens of another provider.** -/
theorem not_transferable (hH : Injective H) (issuer issuer' : String)
    (keys keys' : SigningKeySet) (l l' : List Call)
    (hdisjoint : List.Disjoint (drawnIn H (start issuer keys) l)
      (drawnIn H (start issuer' keys') l'))
    (t : String) (ht : Ever (step H) (Returns H t) (start issuer keys) l) :
    Throughout (step H) (Alive fun p => p.introspect t = false) (start issuer' keys') l' ∧
      (∀ redirectUri codeVerifier,
        ¬ Ever (step H) (Redeems H t redirectUri codeVerifier) (start issuer' keys') l') ∧
      ¬ Ever (step H) (Refreshes H t) (start issuer' keys') l' := by
  obtain ⟨pair, hpair, hdraw⟩ : ∃ pair ∈ drawnIn H (start issuer keys) l, IsDraw H t pair := by
    obtain ⟨l₁, a, l₂, hl, hreturns⟩ := ht
    exact mem_drawnIn_of_ever ⟨l₁, a, l₂, hl, drawn_of_returns hreturns⟩
  -- the other provider never holds it
  have habsent : ∀ q, q <+: l' → ∀ p, exec (step H) (start issuer' keys') q = some p →
      ¬ Present t p := by
    rintro q ⟨q', rfl⟩ p hp hpresent
    obtain ⟨pair', hpair', hdraw'⟩ := mem_drawnIn_of_ever (drawn_of_present hp hpresent)
    refine hdisjoint hpair ?_
    rw [isDraw_inj hH hdraw hdraw', drawnIn_append]
    exact List.mem_append_left _ hpair'
  refine ⟨fun q hq p hp => ?_, ?_, ?_⟩
  · by_contra hactive
    obtain ⟨key, -, hheld, -⟩ := introspect_iff.1 (by simpa using hactive)
    exact habsent q hq p hp (.inr ⟨.access, key, hheld⟩)
  · rintro redirectUri codeVerifier ⟨q, a, q', rfl, h⟩
    obtain ⟨p, ac, r, p', hp, hcheck, -⟩ := redeems_cases h
    refine habsent q (List.prefix_append q _) p hp (.inl ?_)
    rw [(checkCode_eq_ok hcheck).1]
    rfl
  · rintro ⟨q, a, q', rfl, h⟩
    obtain ⟨p, key, record, r, p', hp, hcheck, -⟩ := refreshes_cases h
    have hheld := held_of_checkRefresh hcheck
    exact habsent q (List.prefix_append q _) p hp (.inr ⟨.refresh, key, hheld⟩)

/-- The other provider issues a code to another user. -/
def otherAuthorized : List Call :=
  [.putClient app, .setUserStatus "bob" .active, .grantConsent "bob" "app" {"openid"} 0,
    .authorize { appRequest with user := "bob" }]

theorem code_not_transferred :
    ¬ Ever (step encode) (Redeems encode appCode "app:/back" "verifier")
      (start "other" (signer "other")) (otherAuthorized ++ [appRedeems]) := by
  have hreturned :
      Ever (step encode) (Returns encode appCode) appStart appAuthorized :=
    ⟨appAuthorized.take 3, .authorize appRequest, [], rfl, .inl (by decide +kernel)⟩
  have hdisjoint : List.Disjoint (drawnIn encode appStart appAuthorized)
      (drawnIn encode (start "other" (signer "other")) (otherAuthorized ++ [appRedeems])) := by
    unfold List.Disjoint
    decide +kernel
  exact (not_transferable encode_injective "op" "other" (signer "op") (signer "other")
    appAuthorized (otherAuthorized ++ [appRedeems]) hdisjoint appCode hreturned).2.1 _ _

/-- **The keys do not keep providers apart.** -/
theorem transferable :
    signer "op" ≠ signer "other" ∧
      Ever (step encode) (Returns encode appCode) appStart
        (appAuthorized ++ [appRedeems]) ∧
      (∀ kind, Ever (step encode) (Returns encode (appToken kind)) appStart
        (appAuthorized ++ [appRedeems])) ∧
      Ever (step encode) (Redeems encode appCode "app:/back" "verifier")
        (start "other" (signer "other")) (appAuthorized ++ [appRedeems]) ∧
      ∃ p, exec (step encode) (start "other" (signer "other"))
          (appAuthorized ++ [appRedeems]) = some p ∧
        p.introspect (appToken .access) = true ∧
        Refreshes encode (appToken .refresh) (some p) (.tokenRefresh (appToken .refresh) 0) := by
  refine ⟨?_, ?_, fun kind => ?_, ?_, ?_⟩
  · intro h
    have hsigned := congrFun h ⟨"", "", "", 0, 0⟩
    revert hsigned
    decide +kernel
  · exact ⟨appAuthorized.take 3, .authorize appRequest, [appRedeems], rfl,
      .inl (by decide +kernel)⟩
  · refine ⟨appAuthorized, appRedeems, [], rfl, .inr ⟨appResponse, kind, by decide +kernel, ?_⟩⟩
    cases kind <;> rfl
  · exact ⟨appAuthorized, appRedeems, [], rfl, 0, { appResponse with idToken := some "other:ann" },
      rfl, by decide +kernel⟩
  · have hrun : (exec (step encode) (start "other" (signer "other"))
        (appAuthorized ++ [appRedeems])).any (fun p =>
          p.introspect (appToken .access) = true ∧
          Answers encode (.token (.ok ⟨freshText encode (TokenKind.access.label ⟨"ann", "app"⟩ 2) 4,
            "Bearer", 3600, some (freshText encode (TokenKind.refresh.label ⟨"ann", "app"⟩ 2) 5),
            some "other:ann"⟩)) (some p) (.tokenRefresh (appToken .refresh) 0)) = true := by
      decide +kernel
    obtain ⟨p, hp, h⟩ := (Option.any_eq_true _ _).1 hrun
    obtain ⟨hactive, hanswers⟩ := of_decide_eq_true h
    exact ⟨p, hp, hactive, 0, _, rfl, hanswers⟩

end Pillar.Oidc
