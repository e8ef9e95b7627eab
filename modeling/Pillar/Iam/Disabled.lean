import Pillar.Iam.Users
import Pillar.Identity.SessionRegistry

/-!
# Disabled users

`pillar-iam` disables a user by a change of the status and a sweep of the sessions; the gates for
logins, actions and bearers are to reflect it.

* `disabled_acts_nowhere` — **a user whom `disable_user` disables can act nowhere**, as long
  as the gate for actions has another reason to refuse and the registry that sweeps is up to date.
-/

namespace Pillar.Iam

open Lib.Runs Identity KeyedStore

/-! ## The gates -/

inductive AdmitDenied where
  | noSuchUser
  | accountDisabled
  deriving DecidableEq

def admitCredentialUnlock (records : Records) (handle : String) : Except AdmitDenied Unit :=
  match records[handle]? with
  | none => .error .noSuchUser
  | some record => if record.status = .disabled then .error .accountDisabled else .ok ()

inductive GatedAction where
  | ownProfile
  | ownPasswordChange
  | ownPasskeyEnrollment
  | other
  deriving DecidableEq

def GatedAction.exempt : GatedAction → Bool
  | .ownProfile | .ownPasswordChange | .ownPasskeyEnrollment => true
  | .other => false

inductive AdmitError where
  | unknownUser
  | passwordChangeRequired
  | passkeyEnrollmentRequired
  deriving DecidableEq

/-- The password, or else the record, is older than allowed. -/
def isPasswordOverAge (record : UserRecord) (now : UInt64) (maxPasswordAgeSecs : Option UInt64) :
    Bool :=
  match maxPasswordAgeSecs with
  | none => false
  | some maxAge =>
    let lastChanged := record.passwordChangedAt.getD record.createdAt
    decide (maxAge.toNat < now.toNat - lastChanged.toNat)

def admitGatedAction (records : Records) (handle : String) (action : GatedAction) (now : UInt64)
    (maxPasswordAgeSecs : Option UInt64) : Except AdmitError Unit :=
  match records[handle]? with
  | none => .error .unknownUser
  | some record =>
    let forceContained :=
      record.forcePasswordChange || isPasswordOverAge record now maxPasswordAgeSecs
    if forceContained && !action.exempt then .error .passwordChangeRequired
    else if record.requirePasskeyEnrollment && !action.exempt then .error .passkeyEnrollmentRequired
    else .ok ()

/-! ## Disabling -/

inductive StatusChangeError where
  | notFound
  | alreadyInStatus
  deriving DecidableEq

def statusChangeOp (records : Records) (handle : String) (status : UserStatus) (at_ : UInt64) :
    Except StatusChangeError UserOp :=
  match records[handle]? with
  | none => .error .notFound
  | some record =>
    if record.status = status then .error .alreadyInStatus
    else .ok (.statusChange handle status at_)

def disableUser (records : Records) (handle : String) (at_ : UInt64) :
    Except StatusChangeError UserOp :=
  statusChangeOp records handle .disabled at_

theorem disableUser_eq_ok_iff {records : Records} {handle : String} {r : UserRecord}
    (hr : records[handle]? = some r) {at_ : UInt64} :
    disableUser records handle at_ = .ok (.statusChange handle .disabled at_) ↔
      r.status ≠ .disabled := by
  simp [disableUser, statusChangeOp, hr]

section

variable {H : Bytes → Bytes} {J : KeyedCodec} {C : SessionCodec}

def revokeAllSessions (C : SessionCodec) (registry : SessionRegistry H J) (handle : Str)
    (order : List Slot) : SessionRegistry H J :=
  registry.call C (.revokeAll handle order)

def disableUserAndRevoke (C : SessionCodec) (records : Records) (registry : SessionRegistry H J)
    (op : UserOp) (fits : op.handle.utf8ByteSize < 2 ^ 63) (order : List Slot) :
    Records × SessionRegistry H J :=
  (applyOp records op, revokeAllSessions C registry ⟨op.handle, fits⟩ order)

structure World (H : Bytes → Bytes) (J : KeyedCodec) (ι : Type*) where
  records : Records
  sessions : Cell H J ι

inductive Event (ι : Type*) where
  | apply (op : UserOp)
  | session (i : ι) (call : Call)
  /-- `disable_user_and_revoke` with an operation, on a registry. -/
  | disable (i : ι) (op : UserOp) (fits : op.handle.utf8ByteSize < 2 ^ 63) (order : List Slot)

def Event.userOp {ι : Type*} : Event ι → Option UserOp
  | .apply op | .disable _ op _ _ => some op
  | .session _ _ => none

def Event.call {ι : Type*} : Event ι → Option (ι × Call)
  | .apply _ => none
  | .session i call => some (i, call)
  | .disable i op fits order => some (i, .revokeAll ⟨op.handle, fits⟩ order)

namespace World

variable {ι : Type*} [DecidableEq ι]

/-- No users, and registries that have just been built. -/
def new (store : KeyedStore H J) : World H J ι := ⟨∅, .new store⟩

def step (C : SessionCodec) (world : World H J ι) : Event ι → World H J ι
  | .apply op => { world with records := applyOp world.records op }
  | .session i call => { world with sessions := world.sessions.step C (i, call) }
  | .disable i op fits order =>
    let (records, registry) :=
      disableUserAndRevoke C world.records (world.sessions.registry i) op fits order
    ⟨records, registry.store, Function.update world.sessions.books i registry.toBook⟩

theorem records_exec (world : World H J ι) (events : List (Event ι)) :
    (exec (step C) world events).records =
      exec applyOp world.records (events.filterMap Event.userOp) := by
  induction events generalizing world with
  | nil => rfl
  | cons event events ih =>
    rw [exec_cons, ih]
    cases event <;> rfl

theorem exists_record {P : UserRecord → Prop} {world : World H J ι} {handle : String}
    {events : List (Event ι)}
    (hkeep : ∀ event ∈ events, ∀ op, event.userOp = some op → op.handle = handle →
      ∀ r, P r → P (op.edit r)) {r : UserRecord} (hr : world.records[handle]? = some r) (h : P r) :
    ∃ r, (exec (step C) world events).records[handle]? = some r ∧ P r := by
  rw [records_exec]
  refine exists_record_exec (fun op hop => ?_) ⟨r, hr, h⟩
  obtain ⟨event, hevent, heq⟩ := List.mem_filterMap.1 hop
  exact hkeep event hevent op heq

theorem sessions_exec (world : World H J ι) (events : List (Event ι)) :
    (exec (step C) world events).sessions =
      exec (Cell.step C) world.sessions (events.filterMap Event.call) := by
  induction events generalizing world with
  | nil => rfl
  | cons event events ih =>
    rw [exec_cons, ih]
    cases event <;> rfl

end World

/-! ## What a disabled user keeps -/

section

variable {records : Records} {op : UserOp} {handle : String} {r : UserRecord}

theorem disabled_edit (hop : ∀ status at_, op = .statusChange op.handle status at_ →
    status = .disabled) (h : r.status = .disabled) : (op.edit r).status = .disabled := by
  cases op with
  | statusChange handle status at_ => exact hop status at_ rfl
  | _ => exact h

theorem forcePasswordChange_edit (hop : ∀ at_, op ≠ .passwordChanged op.handle at_)
    (h : r.forcePasswordChange = true) : (op.edit r).forcePasswordChange = true := by
  cases op with
  | passwordChanged handle at_ => exact absurd rfl (hop at_)
  | requireChange handle at_ | adminReset handle sealed_ at_ => rfl
  | _ => exact h

theorem requirePasskeyEnrollment_edit (hop : ∀ at_, op ≠ .passkeyEnrolled op.handle at_)
    (h : r.requirePasskeyEnrollment = true) : (op.edit r).requirePasskeyEnrollment = true := by
  cases op with
  | passkeyEnrolled handle at_ => exact absurd rfl (hop at_)
  | _ => exact h

theorem admitGatedAction_of_contained (hr : records[handle]? = some r)
    (h : r.forcePasswordChange = true ∨ r.requirePasskeyEnrollment = true) {action : GatedAction}
    (haction : action.exempt = false) (now : UInt64) (maxPasswordAgeSecs : Option UInt64) :
    ∃ e, admitGatedAction records handle action now maxPasswordAgeSecs = .error e := by
  simp only [admitGatedAction, hr, haction, Bool.not_false, Bool.and_true]
  rcases h with hforce | hpasskey
  · exact ⟨_, if_pos (by rw [hforce, Bool.true_or])⟩
  · split_ifs
    · exact ⟨_, rfl⟩
    · exact ⟨_, rfl⟩

end

/-- The user has to change the password, and does not; or has to enroll a passkey, and does not. -/
def StaysContained {ι : Type*} (handle : String) (r : UserRecord) (later : List (Event ι)) : Prop :=
  (r.forcePasswordChange = true ∧
    ∀ event ∈ later, ∀ at_, event.userOp ≠ some (.passwordChanged handle at_)) ∨
  (r.requirePasskeyEnrollment = true ∧
    ∀ event ∈ later, ∀ at_, event.userOp ≠ some (.passkeyEnrolled handle at_))

def StaysDisabled {ι : Type*} (handle : String) (later : List (Event ι)) : Prop :=
  ∀ event ∈ later, ∀ status at_,
    event.userOp = some (.statusChange handle status at_) → status = .disabled

section

variable {ι : Type*} [DecidableEq ι] {world : World H J ι} {handle : String} {r : UserRecord}
  {later : List (Event ι)} {at_ : UInt64}

theorem disabled_exec (hr : world.records[handle]? = some r) (h : r.status = .disabled)
    (hlater : StaysDisabled handle later) :
    ∃ r, (exec (World.step C) world later).records[handle]? = some r ∧ r.status = .disabled := by
  refine World.exists_record (P := fun r => r.status = .disabled) ?_ hr h
  rintro event hevent op hop rfl r
  exact disabled_edit fun status at_ heq =>
    hlater event hevent status at_ (hop.trans (congrArg some heq))

theorem contained_exec (hr : world.records[handle]? = some r)
    (hlater : StaysContained handle r later) :
    ∃ r, (exec (World.step C) world later).records[handle]? = some r ∧
      (r.forcePasswordChange = true ∨ r.requirePasskeyEnrollment = true) := by
  rcases hlater with ⟨hforce, hnever⟩ | ⟨hpasskey, hnever⟩
  · have hkeep : ∀ event ∈ later, ∀ op, event.userOp = some op → op.handle = handle →
        ∀ r : UserRecord, r.forcePasswordChange = true →
          (op.edit r).forcePasswordChange = true := by
      rintro event hevent op hop rfl r
      exact forcePasswordChange_edit fun at_ heq =>
        hnever event hevent at_ (hop.trans (congrArg some heq))
    obtain ⟨r', hr', hforce'⟩ := World.exists_record hkeep hr hforce
    exact ⟨r', hr', .inl hforce'⟩
  · have hkeep : ∀ event ∈ later, ∀ op, event.userOp = some op → op.handle = handle →
        ∀ r : UserRecord, r.requirePasskeyEnrollment = true →
          (op.edit r).requirePasskeyEnrollment = true := by
      rintro event hevent op hop rfl r
      exact requirePasskeyEnrollment_edit fun at_ heq =>
        hnever event hevent at_ (hop.trans (congrArg some heq))
    obtain ⟨r', hr', hpasskey'⟩ := World.exists_record hkeep hr hpasskey
    exact ⟨r', hr', .inr hpasskey'⟩

end

/-! ## Disabled -/

section

variable (hH : CollisionFree H) (hJ : J.RoundTrips) (hC : C.RoundTrips) {ι : Type*}
  [DecidableEq ι]
include hH hJ hC

/-- **A disabled user can act nowhere.** -/
theorem disabled_acts_nowhere {store : KeyedStore H J} (hblank : ∀ key, lookup C store key = none)
    {earlier : List (Event ι)} {world : World H J ι}
    (hworld : world = exec (World.step C) (.new store) earlier) (handle : String)
    (fits : handle.utf8ByteSize < 2 ^ 63) {r : UserRecord}
    (hr : world.records[handle]? = some r) (i : ι) (at_ : UInt64) (order : List Slot)
    (horder : (world.sessions.registry i).Iterates ⟨handle, fits⟩ order) (later : List (Event ι))
    (hlater : StaysDisabled handle later) {after : World H J ι}
    (hafter : after = exec (World.step C) world
      (.disable i (.statusChange handle .disabled at_) fits order :: later)) :
    (disableUser world.records handle at_ = .ok (.statusChange handle .disabled at_) ↔
      r.status ≠ .disabled) ∧
    admitCredentialUnlock after.records handle = .error .accountDisabled ∧
    (StaysContained handle r later → ∀ action now maxPasswordAgeSecs, action.exempt = false →
      ∃ e, admitGatedAction after.records handle action now maxPasswordAgeSecs = .error e) ∧
    ∀ slot ∈ (world.sessions.books i).byPrincipal, slot.principal.val = handle →
      UpToDate (world.sessions.registry i) slot.kvKey →
      (world.sessions.books i).clock.toNat + (world.sessions.books i).byPrincipal.card + 1 < 2 ^ 64 →
      (∀ event ∈ later, ∀ call ∈ event.call, ∀ minted ∈ call.2.minted,
        minted.kvKey ≠ slot.kvKey) →
      ∀ (v : SessionView) (j k : ι) (now : UInt64) (snapshot : AdmittedSnapshot),
        (v.refresh (after.sessions.registry j)).admitSession C (after.sessions.registry k) slot now ≠
          .ok snapshot := by
  obtain ⟨first, hfirst⟩ : ∃ first, first = world.step C
      (.disable i (.statusChange handle .disabled at_) fits order) := ⟨_, rfl⟩
  have hedit : first.records[handle]? =
      some ((UserOp.statusChange handle .disabled at_).edit r) := by
    rw [hfirst]
    exact (getElem?_applyOp_of_some hr).trans (congrArg some (if_pos rfl))
  have hnext : after = exec (World.step C) first later := by rw [hafter, hfirst, exec_cons]
  refine ⟨disableUser_eq_ok_iff hr, ?_, fun hcontained action now maxAge haction => ?_, ?_⟩
  · obtain ⟨r', hr', hstatus⟩ := disabled_exec (C := C) hedit rfl hlater
    rw [← hnext] at hr'
    rw [admitCredentialUnlock, hr']
    exact if_pos hstatus
  · obtain ⟨r', hr', hcontained'⟩ := contained_exec (C := C) hedit hcontained
    rw [← hnext] at hr'
    exact admitGatedAction_of_contained hr' hcontained' haction now maxAge
  · intro slot hslot hprincipal hup hroom hmint v j k now snapshot
    have hmem : slot ∈ order := by
      rw [← List.mem_toFinset, horder.2, Finset.mem_filter]
      exact ⟨hslot, Str.ext hprincipal⟩
    have hfiled : Filed C world.sessions.store := by
      rw [hworld, World.sessions_exec]
      exact filed_exec hH hJ hC hblank _
    have hout := signedOut_exec_of_signsOut hH hJ hC hfiled i
      (c := .revokeAll ⟨handle, fits⟩ order) ⟨horder, hmem⟩ hup hroom
      (later.filterMap Event.call) (by
        intro call hcall
        obtain ⟨event, hevent, heq⟩ := List.mem_filterMap.1 hcall
        exact hmint event hevent call heq)
    have hsessions : after.sessions = exec (Cell.step C) world.sessions
        ((i, .revokeAll ⟨handle, fits⟩ order) :: later.filterMap Event.call) := by
      rw [hafter, World.sessions_exec]
      rfl
    rw [← hsessions] at hout
    exact admit_ne_ok hout _ k now snapshot

end

end

/-! ## A disabled user, and one who acts -/

def inviteAlice (forcePasswordChange : Bool) : UserOp :=
  .invite "alice" "Alice" "alice@example.com" forcePasswordChange false 1

def disableAlice : UserOp := .statusChange "alice" .disabled 5

def disableAt (i : ℕ) (order : List Slot) : Event ℕ := .disable i disableAlice (by decide) order

noncomputable def users : List (Event ℕ) → World (tableDigest []) serdeJson ℕ :=
  exec (World.step sessionJson) (.new .new)

noncomputable def aliceIn : World (tableDigest []) serdeJson ℕ :=
  users [.apply (inviteAlice true), .session 0 aliceMint]

/-- Alice is disabled through the registry of the session, which another registry then touches. -/
noncomputable def aliceOut : World (tableDigest []) serdeJson ℕ :=
  exec (World.step sessionJson) aliceIn
    (disableAt 0 [aliceSlot] :: [.session 1 (.touch aliceSlot 7)])

theorem alice_acts_nowhere :
    disableUser aliceIn.records "alice" 5 = .ok disableAlice ∧
    admitCredentialUnlock aliceOut.records "alice" = .error .accountDisabled ∧
      (∃ e, admitGatedAction aliceOut.records "alice" .other 10 none = .error e) ∧
      ∀ (v : SessionView) (j k : ℕ) (now : UInt64) (snapshot : AdmittedSnapshot),
        (v.refresh (aliceOut.sessions.registry j)).admitSession sessionJson
          (aliceOut.sessions.registry k) aliceSlot now ≠ .ok snapshot := by
  have hJ := serdeJson_serde.roundTrips
  have hforce : (aliceIn.records["alice"]?).map UserRecord.forcePasswordChange = some true := by
    decide +kernel
  have hactive : (aliceIn.records["alice"]?).map UserRecord.status ≠ some .disabled := by
    decide +kernel
  obtain ⟨r, hr, hforce⟩ := Option.map_eq_some_iff.1 hforce
  rw [hr] at hactive
  have hup : UpToDate (aliceIn.sessions.registry 0) aliceSlot.kvKey := by
    refine upToDate_put tableDigest_nil_collisionFree hJ ?_ (by decide) _
    intro m hm
    cases (winner_new _ _ _).symm.trans hm
  have hroom : (aliceIn.sessions.books 0).clock.toNat + (aliceIn.sessions.books 0).byPrincipal.card +
      1 < 2 ^ 64 := by decide
  have hin : aliceIn = exec (World.step sessionJson) (.new .new)
    [.apply (inviteAlice true), .session 0 aliceMint] := rfl
  have hout : aliceOut = exec (World.step sessionJson) aliceIn
    (disableAt 0 [aliceSlot] :: [.session 1 (.touch aliceSlot 7)]) := rfl
  obtain ⟨hdisable, hlogin, haction, hsession⟩ := disabled_acts_nowhere
    tableDigest_nil_collisionFree hJ sessionJson_roundTrips (fun key => by simp [lookup]) hin
    "alice" (by decide) hr 0 5 [aliceSlot] (by decide) [.session 1 (.touch aliceSlot 7)]
    (by simp [StaysDisabled, Event.userOp]) hout
  refine ⟨hdisable.2 fun h => hactive (congrArg some h), hlogin,
    haction (.inl ⟨hforce, by simp [Event.userOp]⟩) .other 10 none rfl, ?_⟩
  exact hsession aliceSlot (by decide) rfl hup hroom (by simp [Event.call, Call.minted])

/-- **A disabled user acts.** -/
theorem disabled_acts :
    (disableUser (users [.apply (inviteAlice false)]).records "alice" 5 = .ok disableAlice ∧
      admitGatedAction (users [.apply (inviteAlice false), disableAt 0 []]).records "alice" .other 10
        none = .ok ()) ∧
    (∀ (v : SessionView) (j : ℕ), ∃ snapshot,
      (v.refresh ((users [.apply (inviteAlice true), .session 0 aliceMint,
        disableAt 1 []]).sessions.registry j)).admitSession sessionJson
          ((users [.apply (inviteAlice true), .session 0 aliceMint,
            disableAt 1 []]).sessions.registry j) aliceSlot 10 = .ok snapshot) ∧
    admitCredentialUnlock (users [disableAt 0 [], .apply (inviteAlice true)]).records "alice" =
      .ok () := by
  refine ⟨⟨by decide +kernel, by decide +kernel⟩, fun v j => ?_, by decide +kernel⟩
  have hstore : (users [.apply (inviteAlice true), .session 0 aliceMint,
      disableAt 1 []]).sessions.store = (registries [(0, aliceMint)]).store := by
    show (((registries [(0, aliceMint)]).registry 1).call sessionJson
      (.revokeAll ⟨"alice", by decide⟩ [])).store = _
    rw [SessionRegistry.call]
    split_ifs <;> rfl
  have hget : ((users [.apply (inviteAlice true), .session 0 aliceMint,
      disableAt 1 []]).sessions.registry j).get sessionJson aliceSlot = some (aliceSession 0) := by
    show lookup sessionJson (users _).sessions.store aliceSlot.kvKey = _
    rw [hstore]
    exact lookup_of_winner sessionJson_roundTrips winner_aliceMint
  exact ⟨_, SessionView.admit_refresh v hget rfl rfl⟩

end Pillar.Iam
