import Pillar.TrustArtifacts.Chains

/-!
# The budget of a claim

A claim may carry a quota, and `admit_quota` admits amounts against it.

* `quota_budget_iff` — **budgets are kept, and nothing overflows, exactly along the runs in
  which every sum fits.**
-/

namespace Pillar.TrustArtifacts

open Std Lib.Compare Lib.Runs Lib.TreeMap TrustStore

theorem Attest.quota_eq_of_cid_eq {H : Bytes → Bytes} (hH : CollisionFree H) {a b : Attest}
    (h : a.cid H = b.cid H) : a.predicate.quota = b.predicate.quota := by
  have htext : (a.predicate.quota.map toString).getD "" = (b.predicate.quota.map toString).getD "" := by
    have hparts := parts_eq_of_cid_eq hH h
    simp only [AttestFields.parts, List.cons.injEq] at hparts
    exact hparts.2.2.2.2.2.2.2.2.1
  have hsome : ∀ q : UInt64, toString q ≠ "" := fun q => Nat.repr_ne_empty
  cases ha : a.predicate.quota with
  | none =>
    cases hb : b.predicate.quota with
    | none => rfl
    | some q => exact absurd (by simpa [ha, hb] using htext.symm) (hsome q)
  | some p =>
    cases hb : b.predicate.quota with
    | none => exact absurd (by simpa [ha, hb] using htext) (hsome p)
    | some q =>
      rw [ha, hb, Option.map_some, Option.map_some] at htext
      have hpq : p.toNat.repr = q.toNat.repr := htext
      rw [UInt64.toNat_inj.1 (Nat.repr_injective hpq)]

namespace TrustStore

variable {s : TrustStore} {cid : Cid}

def quotaOf (s : TrustStore) (cid : Cid) : Option UInt64 :=
  s.attests[cid]?.bind fun a => a.predicate.quota

/-- What was admitted so far against the quota of a claim. -/
def admittedAmount (s : TrustStore) (cid : Cid) : UInt64 := s.admitted.getD cid 0

/-- The quota that an amount is held against: that of a claim which verifies. -/
def charged (s : TrustStore) (cid : Cid) : Option UInt64 :=
  if (s.verify cid).isOk then s.quotaOf cid else none

theorem quotaOf_of_charged {quota : UInt64} (h : s.charged cid = some quota) :
    s.quotaOf cid = some quota := by
  rw [charged] at h
  split_ifs at h
  exact h

theorem admitQuota_of_charged {quota : UInt64} (h : s.charged cid = some quota) (amt : UInt64) :
    s.admitQuota cid amt =
      if quota < s.admittedAmount cid + amt then
        (.error (.quotaExceeded amt (quota - s.admittedAmount cid)), s)
      else
        (.ok (), { s with admitted := s.admitted.insert cid (s.admittedAmount cid + amt) }) := by
  have hquota := quotaOf_of_charged h
  obtain ⟨a, ha, hq⟩ := Option.bind_eq_some_iff.1 hquota
  rw [charged] at h
  split_ifs at h with hok
  obtain ⟨proof, hproof⟩ := exists_of_verify_isOk hok
  rw [admitQuota]
  simp only [ha, hq, hproof]
  rfl

theorem revoke_cases {H : Bytes → Bytes} {E : Ed25519} (s : TrustStore) (r : Revoke) :
    ((s.revoke H E r).2 = s ∧ (s.revoke H E r).1.isOk = false) ∨
      ((s.revoke H E r).2 = { s with revoked := insert r.target s.revoked, epoch := s.epoch + 1 } ∧
        (s.revoke H E r).1.isOk = true) := by
  rw [revoke]
  split_ifs
  · exact .inl ⟨rfl, rfl⟩
  · exact .inr ⟨rfl, rfl⟩
  · exact .inl ⟨rfl, rfl⟩

theorem admitQuota_of_not_charged (h : s.charged cid = none) (amt : UInt64) :
    (s.admitQuota cid amt).2 = s ∧ (s.admitQuota cid amt).1.isOk = false := by
  rw [admitQuota]
  cases ha : s.attests[cid]? with
  | none => exact ⟨rfl, rfl⟩
  | some a =>
    cases hq : a.predicate.quota with
    | none => simp [hq, Except.isOk, Except.toBool]
    | some quota =>
      cases hv : s.verify cid with
      | error e => simp [hq, Except.isOk, Except.toBool]
      | ok proof => simp [charged, quotaOf, ha, hq, hv, Except.isOk, Except.toBool] at h

end TrustStore

/-! ## The account -/

inductive QuotaCall where
  | issueAttest (a : Attest)
  | revoke (r : Revoke)
  | admitQuota (cid : Cid) (amt : UInt64)
  deriving DecidableEq

structure Account where
  store : TrustStore
  /-- The sum of the amounts that were admitted on a claim. -/
  sum : Cid → ℕ
  revocations : ℕ

namespace Account

def opened (genesis : NodeId) : Account := ⟨.new genesis, fun _ => 0, 0⟩

variable (H : Bytes → Bytes) (E : Ed25519)

def step (x : Account) : QuotaCall → Account
  | .issueAttest a => { x with store := (x.store.issueAttest H E a).2 }
  | .revoke r =>
    let (result, store) := x.store.revoke H E r
    { x with store := store, revocations := if result.isOk then x.revocations + 1 else x.revocations }
  | .admitQuota cid amt =>
    let (result, store) := x.store.admitQuota cid amt
    { x with
      store := store
      sum := if result.isOk then Function.update x.sum cid (x.sum cid + amt.toNat) else x.sum }

inductive Effect (x : Account) : QuotaCall → Account → Prop
  | refused (c : QuotaCall) : Effect x c x
  | issued (a : Attest) : Effect x (.issueAttest a)
      { x with store := { x.store with attests := x.store.attests.insert (a.cid H) a } }
  | revoked {r : Revoke} (h : (x.store.revoke H E r).1.isOk = true) : Effect x (.revoke r)
      { x with
        store := { x.store with
          revoked := insert r.target x.store.revoked
          epoch := x.store.epoch + 1 }
        revocations := x.revocations + 1 }
  | admitted {cid : Cid} {amt quota : UInt64} (h : x.store.charged cid = some quota)
      (hle : x.store.admittedAmount cid + amt ≤ quota) : Effect x (.admitQuota cid amt)
      { x with
        store := { x.store with
          admitted := x.store.admitted.insert cid (x.store.admittedAmount cid + amt) }
        sum := Function.update x.sum cid (x.sum cid + amt.toNat) }

/-- The store has added up right, and stayed within the quota. -/
def Budgeted (x : Account) : Prop :=
  ∀ cid, (x.store.admittedAmount cid).toNat = x.sum cid ∧
    x.sum cid ≤ ((x.store.quotaOf cid).map UInt64.toNat).getD 0

/-- Machine arithmetic overflows in the call: the sum of the amounts, the rest of the quota
that a refusal reports, or the epoch. -/
def Overflows (x : Account) : QuotaCall → Prop
  | .issueAttest _ => False
  | .revoke r => (x.store.revoke H E r).1.isOk = true ∧ 2 ^ 64 ≤ x.store.epoch.toNat + 1
  | .admitQuota cid amt => ∃ quota, x.store.charged cid = some quota ∧
      (2 ^ 64 ≤ (x.store.admittedAmount cid).toNat + amt.toNat ∨
        quota < x.store.admittedAmount cid + amt ∧ quota < x.store.admittedAmount cid)

/-- What the call adds up fits into 64 bits: what was and is to be admitted on a claim, if
it is held against a quota, and the number of revocations, if it is one. -/
def Fits (x : Account) : QuotaCall → Prop
  | .issueAttest _ => True
  | .revoke r => (x.store.revoke H E r).1.isOk = true → x.revocations + 1 < 2 ^ 64
  | .admitQuota cid amt => (x.store.charged cid).isSome = true → x.sum cid + amt.toNat < 2 ^ 64

variable {H E} {x : Account}

theorem effect_step (x : Account) (c : QuotaCall) : Effect H E x c (x.step H E c) := by
  cases c with
  | issueAttest a =>
    rw [step, issueAttest]
    cases hd : x.store.decideAttest H E a with
    | error e => exact .refused _
    | ok cid =>
      obtain rfl : a.cid H = cid := (decideAttest_eq_ok_iff.1 hd).2.2.2
      exact .issued a
  | revoke r =>
    rw [step]
    rcases x.store.revoke_cases (H := H) (E := E) r with ⟨hstore, hrefused⟩ | ⟨hstore, hok⟩
    · simp only [hstore, hrefused]
      exact .refused _
    · have hrevoked := Effect.revoked hok
      simpa only [hstore, hok, if_true] using hrevoked
  | admitQuota cid amt =>
    rw [step]
    cases hcharged : x.store.charged cid with
    | none =>
      obtain ⟨hstore, hrefused⟩ := admitQuota_of_not_charged hcharged amt
      simp only [hstore, hrefused]
      exact .refused _
    | some quota =>
      rw [admitQuota_of_charged hcharged]
      split_ifs with hlt
      · exact .refused _
      · exact .admitted hcharged (not_lt.1 hlt)

/-! ## What a call keeps -/

/-- What the account keeps as long as every sum fits. -/
structure Kept (H : Bytes → Bytes) (x : Account) : Prop where
  keyed : ∀ (k : Cid) (a : Attest), x.store.attests[k]? = some a → a.cid H = k
  epoch : x.store.epoch.toNat = x.revocations
  budgeted : x.Budgeted

theorem kept_opened (genesis : NodeId) : Kept H (opened genesis) where
  keyed k a h := by simp [opened, new] at h
  epoch := rfl
  budgeted cid := by simp [opened, new, admittedAmount]

theorem Kept.fits_iff (h : Kept H x) (c : QuotaCall) : Fits H E x c ↔ ¬ Overflows H E x c := by
  cases c with
  | issueAttest a => exact iff_of_true trivial not_false
  | revoke r => rw [Fits, Overflows, h.epoch, not_and, Nat.not_le]
  | admitQuota cid amt =>
    obtain ⟨hsum, hle⟩ := h.budgeted cid
    rw [Fits, Overflows, Option.isSome_iff_exists]
    constructor
    · rintro hfits ⟨quota, hcharged, hover | ⟨-, hunder⟩⟩
      · have := hfits ⟨quota, hcharged⟩
        omega
      · rw [quotaOf_of_charged hcharged, Option.map_some, Option.getD_some, ← hsum] at hle
        exact absurd (UInt64.lt_iff_toNat_lt.1 hunder) hle.not_gt
    · rintro hover ⟨quota, hcharged⟩
      by_contra hlarge
      exact hover ⟨quota, hcharged, .inl (by omega)⟩

theorem Kept.issued (hH : CollisionFree H) (h : Kept H x) (a : Attest) :
    Kept H { x with store := { x.store with attests := x.store.attests.insert (a.cid H) a } } where
  keyed k b hb := by
    rcases eq_or_of_getElem?_insert hb with ⟨rfl, rfl⟩ | hb
    · rfl
    · exact h.keyed k b hb
  epoch := h.epoch
  budgeted cid := by
    obtain ⟨hsum, hle⟩ := h.budgeted cid
    refine ⟨hsum, ?_⟩
    by_cases hcid : a.cid H = cid
    · subst hcid
      have hnew : quotaOf
          { x.store with attests := x.store.attests.insert (a.cid H) a } (a.cid H) =
            a.predicate.quota := by
        simp [quotaOf]
      rw [hnew]
      cases hb : x.store.attests[a.cid H]? with
      | none =>
        rw [quotaOf, hb] at hle
        exact hle.trans (Nat.zero_le _)
      | some b =>
        rw [quotaOf, hb, Option.bind_some,
          Attest.quota_eq_of_cid_eq hH (h.keyed _ _ hb)] at hle
        exact hle
    · have hsame : quotaOf
          { x.store with attests := x.store.attests.insert (a.cid H) a } cid =
            x.store.quotaOf cid := by
        simp [quotaOf, ExtTreeMap.getElem?_insert, hcid]
      rw [hsame]
      exact hle

theorem Kept.admitted (h : Kept H x) {cid : Cid} {amt quota : UInt64}
    (hcharged : x.store.charged cid = some quota)
    (hle : x.store.admittedAmount cid + amt ≤ quota) (hfits : x.sum cid + amt.toNat < 2 ^ 64) :
    Kept H
      { x with
        store := { x.store with
          admitted := x.store.admitted.insert cid (x.store.admittedAmount cid + amt) }
        sum := Function.update x.sum cid (x.sum cid + amt.toNat) } where
  keyed := h.keyed
  epoch := h.epoch
  budgeted k := by
    by_cases hk : cid = k
    · subst hk
      -- the sum fits, so adding did not wrap around
      have hadd : (x.store.admittedAmount cid + amt).toNat = x.sum cid + amt.toNat := by
        rw [UInt64.toNat_add, (h.budgeted cid).1, Nat.mod_eq_of_lt hfits]
      have hquota : (x.store.quotaOf cid).map UInt64.toNat = some quota.toNat := by
        rw [quotaOf_of_charged hcharged, Option.map_some]
      have hbound := UInt64.le_iff_toNat_le.1 hle
      rw [hadd] at hbound
      refine ⟨?_, ?_⟩
      · simp only [admittedAmount, ExtTreeMap.getD_insert_self, Function.update_self]
        exact hadd
      · simp only [Function.update_self]
        exact hbound.trans_eq (congrArg (fun o => Option.getD o 0) hquota).symm
    · obtain ⟨hsum, hlimit⟩ := h.budgeted k
      have hother : Function.update x.sum cid (x.sum cid + amt.toNat) k = x.sum k :=
        Function.update_of_ne (Ne.symm hk) _ _
      refine ⟨Eq.trans ?_ hother.symm, hother.le.trans hlimit⟩
      rw [admittedAmount, ExtTreeMap.getD_insert, if_neg (by simpa using hk)]
      exact hsum

theorem kept_step (hH : CollisionFree H) (h : Kept H x) {c : QuotaCall} (hfits : Fits H E x c) :
    Kept H (x.step H E c) := by
  have heffect := x.effect_step (H := H) (E := E) c
  generalize x.step H E c = x' at heffect ⊢
  cases heffect with
  | refused => exact h
  | issued a => exact h.issued hH a
  | revoked hok =>
    refine ⟨h.keyed, ?_, h.budgeted⟩
    have hnext : x.revocations + 1 < 2 ^ 64 := hfits hok
    show (x.store.epoch + 1).toNat = x.revocations + 1
    rw [UInt64.toNat_add, h.epoch]
    exact Nat.mod_eq_of_lt hnext
  | admitted hcharged hle =>
    exact h.admitted hcharged hle (hfits (by rw [hcharged]; rfl))

/-- **When budgets are kept.** -/
theorem quota_budget_iff (hH : CollisionFree H) (genesis : NodeId) (calls : List QuotaCall) :
    Throughout (step H E) Budgeted (opened genesis) calls ∧
        Along (step H E) (fun x c => ¬ Overflows H E x c) (opened genesis) calls ↔
      Along (step H E) (Fits H E) (opened genesis) calls := by
  have hsame : Along (step H E) (Fits H E) (opened genesis) calls ↔
      Along (step H E) (fun x c => ¬ Overflows H E x c) (opened genesis) calls :=
    along_congr (I := Kept H) (fun x c hx hfits => kept_step hH hx hfits)
      (fun x c hx => hx.fits_iff c) (kept_opened genesis) calls
  rw [hsame, and_iff_right_iff_imp]
  intro hover
  have hkept := throughout_of_along (I := Kept H) (fun x c hx hfits => kept_step hH hx hfits)
    (kept_opened genesis) (hsame.2 hover)
  exact fun p hp => (hkept p hp).budgeted

end Account

/-! ## A quota of ten

The owner lets alice append ten times; with the digest, key and signature of the real
primitives. -/

def budgetDigest : Bytes :=
  beBytes 32 0xd085232439f9859d9eca4427804391d18b4c1d28880271ddf0cb31f32ab70060

def budgetSig : Bytes :=
  beBytes 32 0xb8a55c681a5b5ed3625ff7e69d26f4b0eb12d926a2b6c50a8ce4e6e18f7e1c34 ++
  beBytes 32 0xa93a1bd1ae74764a6048aa0677143c03a3abbefe773230478c2c6ed91aa70909

def budgetCid : Cid :=
  "trust:1220d085232439f9859d9eca4427804391d18b4c1d28880271ddf0cb31f32ab70060"

def mayAppendTen : AttestFields :=
  ⟨"owner", .selfCap, none, "alice", ⟨"stream:append", "cell-b/streams/*", some 10⟩, "cell-b", 0⟩

/-- SHA2-256 on the inputs of the two runs. -/
def budgetTable : List (Bytes × Bytes) :=
  [(utf8 "pillar-trust-artifacts/identity-keyname-seed-v1owner", ownerSeed),
   (utf8 "pillar-crypto/sign/ed25519/seed-v1" ++ ownerSeed, ownerSecret),
   (encodeParts mayAppendTen.parts, budgetDigest)]

/-- Ed25519 on the inputs of the two runs. -/
def budgetScheme : Ed25519 := tableEd25519 [(ownerSecret, ownerPk, [(utf8 budgetCid, budgetSig)])]

def budgetClaim : Attest := ⟨mayAppendTen, ⟨"owner", ownerPk, budgetSig⟩, by decide +kernel⟩

def fiveThen (amt : UInt64) : List QuotaCall :=
  [.issueAttest budgetClaim, .admitQuota budgetCid 5, .admitQuota budgetCid amt]

def budgetOpened : Account :=
  ⟨{ TrustStore.new "owner" with attests := ExtTreeMap.empty.insert budgetCid budgetClaim },
    fun _ => 0, 0⟩

def budgetStep : Account → QuotaCall → Account :=
  Account.step (tableDigest budgetTable) budgetScheme

theorem budgetOpened_eq :
    budgetStep (.opened "owner") (.issueAttest budgetClaim) = budgetOpened := by
  have hdecide : (new "owner").decideAttest (tableDigest budgetTable) budgetScheme
      budgetClaim = .ok budgetCid := by
    decide +kernel
  rw [budgetStep, Account.step, Account.opened, issueAttest, hdecide]
  rfl

theorem exec_fiveThen (amt : UInt64) :
    exec budgetStep (.opened "owner") (fiveThen amt) =
      exec budgetStep budgetOpened [.admitQuota budgetCid 5, .admitQuota budgetCid amt] := by
  rw [fiveThen, exec_cons, budgetOpened_eq]

/-- Another five are within the budget, and so is everything on the way. -/
theorem budget_of_ten_kept :
    CollisionFree (tableDigest budgetTable) ∧
      Throughout budgetStep Account.Budgeted (.opened "owner") (fiveThen 5) ∧
      (exec budgetStep (.opened "owner") (fiveThen 5)).sum budgetCid = 10 := by
  have hfree : CollisionFree (tableDigest budgetTable) :=
    tableDigest_collisionFree (by decide +kernel) (by decide +kernel)
  refine ⟨hfree, ((Account.quota_budget_iff hfree "owner" _).2 ?_).1, ?_⟩
  · refine along_cons.2 ⟨trivial, ?_⟩
    rw [← budgetStep, budgetOpened_eq]
    refine along_cons.2 ⟨?_, along_cons.2 ⟨?_, along_nil⟩⟩
    · rw [Account.Fits]
      decide +kernel
    · rw [Account.Fits]
      decide +kernel
  · rw [exec_fiveThen]
    decide +kernel

/-- **A budget is overrun.** -/
theorem budget_overrun :
    let x := exec budgetStep (.opened "owner") (fiveThen (0 - 5))
    CollisionFree (tableDigest budgetTable) ∧ x.store.quotaOf budgetCid = some 10 ∧
      x.sum budgetCid = 2 ^ 64 ∧ x.store.admittedAmount budgetCid = 0 ∧ ¬ x.Budgeted := by
  rw [exec_fiveThen]
  intro x
  have hstate : x.store.quotaOf budgetCid = some 10 ∧ x.sum budgetCid = 2 ^ 64 ∧
      x.store.admittedAmount budgetCid = 0 := by
    decide +kernel
  refine ⟨tableDigest_collisionFree (by decide +kernel) (by decide +kernel), hstate.1, hstate.2.1,
    hstate.2.2, fun hbudgeted => ?_⟩
  have hle := (hbudgeted budgetCid).2
  rw [hstate.1, hstate.2.1] at hle
  exact absurd hle (UInt64.toNat_lt 10).not_ge

end Pillar.TrustArtifacts
