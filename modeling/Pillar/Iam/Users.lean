import Pillar.Core
import Pillar.Lib.Runs

/-!
# Users and their addresses

`pillar-iam`'s user records, which change by folding operations over them.

* `only_verified_address_found` — **only a verified address is found**, in every careful history.
-/

namespace Pillar.Iam

open Lib.Runs
open Std (ExtTreeMap ExtTreeSet)

/-! ## Records and operations -/

inductive UserStatus where
  | invited
  | active
  | disabled
  deriving DecidableEq

/-- An operational key, sealed under a password. -/
structure SealedOperationalKey where
  memKib : UInt32
  iterations : UInt32
  parallelism : UInt32
  outputLen : ℕ
  salt : Bytes
  wrapped : Bytes
  deriving DecidableEq

structure UserRecord where
  handle : String
  displayName : String
  email : String
  status : UserStatus
  roles : ExtTreeSet String
  groups : ExtTreeSet String
  forcePasswordChange : Bool
  requirePasskeyEnrollment : Bool
  passwordChangedAt : Option UInt64
  createdAt : UInt64
  updatedAt : UInt64
  sealedOperationalKey : Option SealedOperationalKey
  retiredOperationalKeys : List SealedOperationalKey
  verifiedEmail : Bool

abbrev Records := ExtTreeMap String UserRecord

inductive UserOp where
  | invite (handle displayName email : String) (forcePasswordChange requirePasskeyEnrollment : Bool)
    (at_ : UInt64)
  | passkeyEnrolled (handle : String) (at_ : UInt64)
  | profileUpdate (handle displayName email : String) (at_ : UInt64)
  | passwordChanged (handle : String) (at_ : UInt64)
  | requireChange (handle : String) (at_ : UInt64)
  | roleAssign (handle role : String) (at_ : UInt64)
  | roleRevoke (handle role : String) (at_ : UInt64)
  | groupAdd (handle group : String) (at_ : UInt64)
  | groupRemove (handle group : String) (at_ : UInt64)
  | statusChange (handle : String) (status : UserStatus) (at_ : UInt64)
  | provisionOperationalKey (handle : String) (sealed_ : SealedOperationalKey) (at_ : UInt64)
  | adminReset (handle : String) (sealed_ : SealedOperationalKey) (at_ : UInt64)
  | emailVerified (handle : String) (at_ : UInt64)
  deriving DecidableEq

namespace UserOp

def handle : UserOp → String
  | .invite handle .. | .passkeyEnrolled handle _ | .profileUpdate handle .. |
    .passwordChanged handle _ | .requireChange handle _ | .roleAssign handle .. |
    .roleRevoke handle .. | .groupAdd handle .. | .groupRemove handle .. |
    .statusChange handle .. | .provisionOperationalKey handle .. | .adminReset handle .. |
    .emailVerified handle _ => handle

def newRecord (handle displayName email : String)
    (forcePasswordChange requirePasskeyEnrollment : Bool) (at_ : UInt64) : UserRecord where
  handle := handle
  displayName := displayName
  email := email
  status := .invited
  roles := ∅
  groups := ∅
  forcePasswordChange := forcePasswordChange
  requirePasskeyEnrollment := requirePasskeyEnrollment
  passwordChangedAt := none
  createdAt := at_
  updatedAt := at_
  sealedOperationalKey := none
  retiredOperationalKeys := []
  verifiedEmail := false

/-- A record after an operation on it. -/
def edit (op : UserOp) (record : UserRecord) : UserRecord :=
  match op with
  | .invite .. => record
  | .passkeyEnrolled _ at_ => { record with requirePasskeyEnrollment := false, updatedAt := at_ }
  | .profileUpdate _ displayName email at_ => { record with displayName, email, updatedAt := at_ }
  | .passwordChanged _ at_ =>
    { record with forcePasswordChange := false, passwordChangedAt := some at_, updatedAt := at_ }
  | .requireChange _ at_ => { record with forcePasswordChange := true, updatedAt := at_ }
  | .roleAssign _ role at_ => { record with roles := record.roles.insert role, updatedAt := at_ }
  | .roleRevoke _ role at_ => { record with roles := record.roles.erase role, updatedAt := at_ }
  | .groupAdd _ group at_ => { record with groups := record.groups.insert group, updatedAt := at_ }
  | .groupRemove _ group at_ => { record with groups := record.groups.erase group, updatedAt := at_ }
  | .statusChange _ status at_ => { record with status, updatedAt := at_ }
  | .provisionOperationalKey _ sealed_ at_ =>
    { record with sealedOperationalKey := some sealed_, updatedAt := at_ }
  | .adminReset _ sealed_ at_ =>
    -- the old key is retired
    { record with
      retiredOperationalKeys := record.retiredOperationalKeys ++ record.sealedOperationalKey.toList
      sealedOperationalKey := some sealed_
      forcePasswordChange := true
      updatedAt := at_ }
  | .emailVerified _ at_ => { record with verifiedEmail := true, updatedAt := at_ }

end UserOp

def applyOp (records : Records) : UserOp → Records
  | .invite handle displayName email forcePasswordChange requirePasskeyEnrollment at_ =>
    records.insertIfNew handle
      (UserOp.newRecord handle displayName email forcePasswordChange requirePasskeyEnrollment at_)
  | op => records.modify op.handle op.edit

def replay (ops : List UserOp) : Records := exec applyOp ∅ ops

def findByVerifiedEmail (records : Records) (email : String) : Option UserRecord :=
  (records.toList.map Prod.snd).find? fun r => r.verifiedEmail && r.email == email

/-! ## One operation -/

section

variable {records : Records} {op : UserOp} {handle email : String} {r r₀ : UserRecord}

theorem getElem?_applyOp_of_some (h : records[handle]? = some r) :
    (applyOp records op)[handle]? = some (if op.handle = handle then op.edit r else r) := by
  have hmodify : (records.modify op.handle op.edit)[handle]? =
      some (if op.handle = handle then op.edit r else r) := by
    rw [ExtTreeMap.getElem?_modify]
    by_cases hhandle : op.handle = handle
    · rw [if_pos (compare_eq_iff_eq.2 hhandle), if_pos hhandle, hhandle, h, Option.map_some]
    · rw [if_neg fun heq => hhandle (compare_eq_iff_eq.1 heq), if_neg hhandle, h]
  cases op with
  | invite handle' displayName email force passkey at_ =>
    -- the user is there already
    have hnone : ¬ (compare handle' handle = .eq ∧ handle' ∉ records) := by
      rintro ⟨heq, hnot⟩
      rw [compare_eq_iff_eq.1 heq, ExtTreeMap.mem_iff_isSome_getElem?, h] at hnot
      exact hnot rfl
    rw [applyOp, ExtTreeMap.getElem?_insertIfNew, if_neg hnone, h]
    simp [UserOp.edit]
  | _ => exact hmodify

theorem eq_invite_of_applyOp (hnone : records[handle]? = none)
    (h : (applyOp records op)[handle]? = some r) :
    ∃ displayName email force passkey at_,
      op = .invite handle displayName email force passkey at_ ∧
        r = UserOp.newRecord handle displayName email force passkey at_ := by
  have hmodify : (records.modify op.handle op.edit)[handle]? = none := by
    rw [ExtTreeMap.getElem?_modify]
    split_ifs with heq
    · rw [compare_eq_iff_eq.1 heq, hnone, Option.map_none]
    · exact hnone
  cases op with
  | invite handle' displayName email force passkey at_ =>
    rw [applyOp, ExtTreeMap.getElem?_insertIfNew] at h
    split_ifs at h with heq
    · obtain rfl := compare_eq_iff_eq.1 heq.1
      exact ⟨displayName, email, force, passkey, at_, rfl, (Option.some.inj h).symm⟩
    · cases hnone.symm.trans h
  | _ => cases hmodify.symm.trans h

/-- **What an operation does to a record.** -/
theorem applyOp_cases (h : (applyOp records op)[handle]? = some r) :
    (∃ r₀, records[handle]? = some r₀ ∧ r = if op.handle = handle then op.edit r₀ else r₀) ∨
      ∃ displayName email force passkey at_,
        op = .invite handle displayName email force passkey at_ ∧
          r = UserOp.newRecord handle displayName email force passkey at_ := by
  cases hrecord : records[handle]? with
  | none => exact .inr (eq_invite_of_applyOp hrecord h)
  | some r₀ =>
    rw [getElem?_applyOp_of_some hrecord] at h
    exact .inl ⟨r₀, rfl, (Option.some.inj h).symm⟩

theorem handle_edit : (op.edit r).handle = r.handle := by
  cases op <;> rfl

theorem email_edit : (op.edit r).email = r.email ∨
    ∃ displayName at_, op = .profileUpdate op.handle displayName (op.edit r).email at_ := by
  cases op with
  | profileUpdate handle displayName email at_ => exact .inr ⟨displayName, at_, rfl⟩
  | _ => exact .inl rfl

theorem verifiedEmail_edit : (op.edit r).verifiedEmail = true ↔
    r.verifiedEmail = true ∨ ∃ at_, op = .emailVerified op.handle at_ := by
  cases op with
  | emailVerified handle at_ => exact iff_of_true rfl (.inr ⟨at_, rfl⟩)
  | _ => simp [UserOp.edit]

def Keyed (records : Records) : Prop :=
  ∀ (handle : String) (r : UserRecord), records[handle]? = some r → r.handle = handle

theorem keyed_applyOp (h : Keyed records) (op : UserOp) : Keyed (applyOp records op) := by
  intro handle r hr
  rcases applyOp_cases hr with ⟨r₀, hr₀, rfl⟩ | ⟨_, _, _, _, _, -, rfl⟩
  · split_ifs
    · rw [handle_edit, h handle r₀ hr₀]
    · exact h handle r₀ hr₀
  · rfl

theorem keyed_replay (ops : List UserOp) : Keyed (replay ops) :=
  exec_inv (I := Keyed) (fun _ op h => keyed_applyOp h op)
    (fun handle r h => by cases ExtTreeMap.getElem?_empty.symm.trans h) ops

/-- **The rule for records.** -/
theorem exists_record_exec {P : UserRecord → Prop} {ops : List UserOp}
    (hkeep : ∀ op ∈ ops, op.handle = handle → ∀ r, P r → P (op.edit r))
    (h : ∃ r, records[handle]? = some r ∧ P r) :
    ∃ r, (exec applyOp records ops)[handle]? = some r ∧ P r := by
  induction ops generalizing records with
  | nil => exact h
  | cons op ops ih =>
    obtain ⟨hfirst, hrest⟩ := List.forall_mem_cons.1 hkeep
    obtain ⟨r, hr, hP⟩ := h
    refine ih hrest ⟨_, getElem?_applyOp_of_some hr, ?_⟩
    split_ifs with hhandle
    · exact hfirst hhandle r hP
    · exact hP

end

/-! ## Verified addresses -/

/-- The user has this address, and it is verified. -/
def Verified (handle email : String) (records : Records) : Prop :=
  ∃ r, records[handle]? = some r ∧ r.verifiedEmail = true ∧ r.email = email

def Verifies (handle email : String) (records : Records) (op : UserOp) : Prop :=
  (∃ at_, op = .emailVerified handle at_) ∧ ∃ r, records[handle]? = some r ∧ r.email = email

def ChangesEmail (handle : String) (records : Records) (op : UserOp) : Prop :=
  ∃ r r', records[handle]? = some r ∧ (applyOp records op)[handle]? = some r' ∧ r'.email ≠ r.email

def VerifiedFor (ops : List UserOp) (handle email : String) : Prop :=
  Since applyOp (Verifies handle email) (ChangesEmail handle) ∅ ops

/-- A verified address is not changed, and an address is not verified if it is verified for another
user. -/
def Careful (records : Records) : UserOp → Prop
  | .profileUpdate handle _ email _ =>
    ∀ r ∈ records[handle]?, r.verifiedEmail = true → r.email = email
  | .emailVerified handle _ =>
    ∀ r ∈ records[handle]?, ∀ other ∈ records.toList, other.1 ≠ handle →
      other.2.verifiedEmail = true → other.2.email ≠ r.email
  | _ => True

instance (records : Records) : (op : UserOp) → Decidable (Careful records op)
  | .profileUpdate handle _ email _ => inferInstanceAs (Decidable
      (∀ r ∈ records[handle]?, r.verifiedEmail = true → r.email = email))
  | .emailVerified handle _ => inferInstanceAs (Decidable
      (∀ r ∈ records[handle]?, ∀ other ∈ records.toList, other.1 ≠ handle →
        other.2.verifiedEmail = true → other.2.email ≠ r.email))
  | .invite .. | .passkeyEnrolled .. | .passwordChanged .. | .requireChange .. | .roleAssign .. |
    .roleRevoke .. | .groupAdd .. | .groupRemove .. | .statusChange .. |
    .provisionOperationalKey .. | .adminReset .. => isTrue trivial

section

variable {records : Records} {op : UserOp} {handle email : String}

theorem not_changesEmail {r r' : UserRecord} (hr : records[handle]? = some r)
    (hr' : (applyOp records op)[handle]? = some r') (h : r'.email = r.email) :
    ¬ ChangesEmail handle records op := by
  rintro ⟨r₁, r₁', h₁, h₁', hne⟩
  obtain rfl := Option.some.inj (hr.symm.trans h₁)
  obtain rfl := Option.some.inj (hr'.symm.trans h₁')
  exact hne h

theorem email_edit_of_careful (hcareful : Careful records op) {r : UserRecord}
    (hr : records[op.handle]? = some r) (hverified : r.verifiedEmail = true) :
    (op.edit r).email = r.email := by
  rcases (email_edit : (op.edit r).email = r.email ∨ _) with hsame | ⟨displayName, at_, hop⟩
  · exact hsame
  · rw [hop] at hcareful
    exact (hcareful r hr hverified).symm

theorem verified_applyOp_iff (hcareful : Careful records op) :
    Verified handle email (applyOp records op) ↔
      Verifies handle email records op ∨
        Verified handle email records ∧ ¬ ChangesEmail handle records op := by
  constructor
  · rintro ⟨r, hr, hverified, rfl⟩
    rcases applyOp_cases hr with ⟨r₀, hr₀, rfl⟩ | ⟨_, _, _, _, _, -, rfl⟩
    · by_cases hhandle : op.handle = handle
      · subst hhandle
        rw [if_pos rfl] at hr hverified ⊢
        rcases verifiedEmail_edit.1 hverified with hbefore | ⟨at_, hop⟩
        · have hsame := email_edit_of_careful hcareful hr₀ hbefore
          rw [hsame]
          exact .inr ⟨⟨r₀, hr₀, hbefore, rfl⟩, not_changesEmail hr₀ hr hsame⟩
        · refine .inl ⟨⟨at_, hop⟩, r₀, hr₀, ?_⟩
          rw [hop]
          rfl
      · rw [if_neg hhandle] at hr hverified ⊢
        exact .inr ⟨⟨r₀, hr₀, hverified, rfl⟩, not_changesEmail hr₀ hr rfl⟩
    · cases hverified
  · rintro (⟨⟨at_, rfl⟩, r, hr, rfl⟩ | ⟨⟨r, hr, hverified, rfl⟩, hsame⟩)
    · exact ⟨_, getElem?_applyOp_of_some hr, by simp [UserOp.handle, UserOp.edit],
        by simp [UserOp.handle, UserOp.edit]⟩
    · have hr' : (applyOp records op)[handle]? = _ := getElem?_applyOp_of_some hr
      refine ⟨_, hr', ?_, by_contra fun hne => hsame ⟨r, _, hr, hr', hne⟩⟩
      split_ifs
      · exact verifiedEmail_edit.2 (.inl hverified)
      · exact hverified

variable {ops : List UserOp}

/-- **The fields and the history agree.** -/
theorem verified_iff_verifiedFor (hcareful : Along applyOp Careful ∅ ops) :
    Verified handle email (replay ops) ↔ VerifiedFor ops handle email := by
  induction ops using List.reverseRecOn with
  | nil =>
    refine iff_of_false ?_ not_since_nil
    rintro ⟨r, hr, -⟩
    cases ExtTreeMap.getElem?_empty.symm.trans hr
  | append_singleton ops op ih =>
    obtain ⟨hops, hop⟩ := along_append.1 hcareful
    rw [VerifiedFor, since_concat, replay, exec_concat, verified_applyOp_iff (along_cons.1 hop).1]
    exact or_congr_right (and_congr_left' (ih hops))

/-- An address is verified for one user at most. -/
def Unique (records : Records) : Prop :=
  ∀ handle handle' email, Verified handle email records → Verified handle' email records →
    handle = handle'

theorem not_verified_of_verifies {handle' : String} (hcareful : Careful records op)
    (h : Verifies handle email records op) (hne : handle' ≠ handle) :
    ¬ Verified handle' email records := by
  obtain ⟨⟨at_, rfl⟩, r, hr, rfl⟩ := h
  rintro ⟨r', hr', hverified, hemail⟩
  exact hcareful r hr (handle', r') (ExtTreeMap.mem_toList_iff_getElem?_eq_some.2 hr') hne hverified
    hemail

theorem unique_applyOp (h : Unique records) (hcareful : Careful records op) :
    Unique (applyOp records op) := by
  intro handle handle' email hverified hverified'
  by_contra hne
  rcases (verified_applyOp_iff hcareful).1 hverified with hnow | ⟨hbefore, -⟩
  · rcases (verified_applyOp_iff hcareful).1 hverified' with hnow' | ⟨hbefore', -⟩
    · obtain ⟨⟨at_, rfl⟩, -⟩ := hnow
      obtain ⟨⟨at_', hop⟩, -⟩ := hnow'
      exact hne (UserOp.emailVerified.inj hop).1
    · exact not_verified_of_verifies hcareful hnow (Ne.symm hne) hbefore'
  · rcases (verified_applyOp_iff hcareful).1 hverified' with hnow' | ⟨hbefore', -⟩
    · exact not_verified_of_verifies hcareful hnow' hne hbefore
    · exact hne (h handle handle' email hbefore hbefore')

theorem unique_replay (hcareful : Along applyOp Careful ∅ ops) : Unique (replay ops) := by
  have hempty : Unique ∅ := by
    rintro handle handle' email ⟨r, hr, -⟩
    cases ExtTreeMap.getElem?_empty.symm.trans hr
  exact throughout_of_along (fun _ _ h hop => unique_applyOp h hop) hempty hcareful ops
    (List.prefix_refl ops)

theorem verified_of_findByVerifiedEmail {r : UserRecord}
    (h : findByVerifiedEmail (replay ops) email = some r) :
    Verified r.handle email (replay ops) := by
  have hfound := List.find?_some h
  rw [Bool.and_eq_true, beq_iff_eq] at hfound
  obtain ⟨⟨handle, r'⟩, hmem, rfl⟩ := List.mem_map.1 (List.mem_of_find?_eq_some h)
  have hr := ExtTreeMap.mem_toList_iff_getElem?_eq_some.1 hmem
  rw [keyed_replay ops handle r' hr]
  exact ⟨r', hr, hfound⟩

/-- **Only a verified address is found.** -/
theorem only_verified_address_found (ops : List UserOp) (hcareful : Along applyOp Careful ∅ ops)
    (email : String) (r : UserRecord) (h : findByVerifiedEmail (replay ops) email = some r) :
    VerifiedFor ops r.handle email ∧
      ∀ handle, handle ≠ r.handle → ¬ VerifiedFor ops handle email := by
  have hverified := verified_of_findByVerifiedEmail h
  refine ⟨(verified_iff_verifiedFor hcareful).1 hverified, fun handle hne hother => ?_⟩
  exact hne (unique_replay hcareful handle r.handle email
    ((verified_iff_verifiedFor hcareful).2 hother) hverified)

end

def carefulOps : List UserOp :=
  [.invite "alice" "Alice" "alice@example.com" true false 1, .emailVerified "alice" 2,
    .invite "bob" "Bob" "bob@example.com" true false 3, .emailVerified "bob" 4,
    .profileUpdate "alice" "Alice A." "alice@example.com" 5]

/-- Alice is found, and the address was verified. -/
theorem alice_found : ∃ r, findByVerifiedEmail (replay carefulOps) "alice@example.com" = some r ∧
    r.handle = "alice" ∧ VerifiedFor carefulOps r.handle "alice@example.com" ∧
      ∀ handle, handle ≠ r.handle → ¬ VerifiedFor carefulOps handle "alice@example.com" := by
  have hfound : (findByVerifiedEmail (replay carefulOps) "alice@example.com").map
      UserRecord.handle = some "alice" := by decide +kernel
  obtain ⟨r, hr, hhandle⟩ := Option.map_eq_some_iff.1 hfound
  exact ⟨r, hr, hhandle, only_verified_address_found carefulOps (by decide +kernel) _ r hr⟩

def changedOps : List UserOp :=
  [.invite "alice" "Alice" "alice@example.com" true false 1, .emailVerified "alice" 2,
    .profileUpdate "alice" "Alice" "bob@example.com" 3]

def sharedOps : List UserOp :=
  [.invite "alice" "Alice" "team@example.com" true false 1, .emailVerified "alice" 2,
    .invite "bob" "Bob" "team@example.com" true false 3, .emailVerified "bob" 4]

/-- **An address is found that was not verified.** -/
theorem unverified_address_found :
    ((findByVerifiedEmail (replay changedOps) "bob@example.com").map UserRecord.handle =
        some "alice" ∧ ¬ VerifiedFor changedOps "alice" "bob@example.com") ∧
      (findByVerifiedEmail (replay sharedOps) "team@example.com").map UserRecord.handle =
        some "alice" ∧ VerifiedFor sharedOps "bob" "team@example.com" := by
  refine ⟨⟨by decide +kernel, fun h => ?_⟩, by decide +kernel, ?_⟩
  · -- the last operation changes the address, and verifies none
    have hbefore : ((replay (changedOps.take 2))["alice"]?).map UserRecord.email =
        some "alice@example.com" := by decide +kernel
    have hafter : ((replay changedOps)["alice"]?).map UserRecord.email =
        some "bob@example.com" := by decide +kernel
    obtain ⟨r, hr, hemail⟩ := Option.map_eq_some_iff.1 hbefore
    obtain ⟨r', hr', hemail'⟩ := Option.map_eq_some_iff.1 hafter
    rcases since_concat.1 (show Since _ _ _ _ (changedOps.take 2 ++ [_]) from h) with
      ⟨⟨at_, hop⟩, -⟩ | ⟨-, hsame⟩
    · cases hop
    · exact hsame ⟨r, r', hr, hr', by rw [hemail, hemail']; decide⟩
  · have hbob : ((replay (sharedOps.take 3))["bob"]?).map UserRecord.email =
        some "team@example.com" := by decide +kernel
    obtain ⟨r, hr, hemail⟩ := Option.map_eq_some_iff.1 hbob
    show Since _ _ _ _ (sharedOps.take 3 ++ [_])
    exact since_concat.2 (.inl ⟨⟨4, rfl⟩, r, hr, hemail⟩)

end Pillar.Iam
