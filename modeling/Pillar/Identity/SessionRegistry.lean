import Pillar.KeyedStore.Writers

/-!
# Session registries over one store

`pillar-identity`'s `SessionRegistry`: several registries share a keyed store of sessions, each with
its own clock, revocation epoch and index.

* `SignedOut`, `signedOut_call` — **a record that reads as revoked keeps to it** until its key is
  minted again.
-/

namespace Pillar.Identity

open Std Lib.Delimited Lib.Runs Lib.Writers KeyedStore

/-! ## Sessions -/

/-- A principal and a session id of it, short enough that their key can be allocated. -/
@[ext] structure Slot where
  principal : Str
  id : Str
  fits : (principal.val ++ "\x00" ++ id.val).utf8ByteSize < 2 ^ 63
  deriving DecidableEq

def Slot.kvKey (slot : Slot) : Str := ⟨slot.principal.val ++ "\x00" ++ slot.id.val, slot.fits⟩

@[ext] structure Session where
  slot : Slot
  origin : Str
  issuedAt : UInt64
  lastSeen : UInt64
  expiry : UInt64
  mintEpoch : UInt64
  revokedEpoch : Option UInt64
  deriving DecidableEq

namespace Session

def isRevoked (s : Session) : Bool := s.revokedEpoch.isSome

def isExpired (s : Session) (now : UInt64) : Bool := decide (s.expiry ≤ now)

end Session

structure SessionCodec where
  encode : Session → Bytes
  /-- `serde_json::from_slice`, `none` if the bytes are no session. -/
  decode : Bytes → Option Session

def SessionCodec.RoundTrips (C : SessionCodec) : Prop := ∀ s, C.decode (C.encode s) = some s

/-! ## The registry -/

/-- What a registry keeps to itself. -/
structure Book where
  revEpoch : UInt64
  clock : UInt64
  /-- The slots that this registry has written, as a set of pairs. -/
  byPrincipal : Finset Slot

def Book.new : Book := ⟨0, 0, ∅⟩

structure SessionRegistry (H : Bytes → Bytes) (J : KeyedCodec) extends Book where
  store : KeyedStore H J

inductive RevokeError where
  | noSuchSession
  deriving DecidableEq

def sessionsCollection : Str := ⟨"sessions", by decide⟩

def registryAuthor : Str := ⟨"session-registry", by decide⟩

variable {H : Bytes → Bytes} {J : KeyedCodec} {C : SessionCodec}

def lookup (C : SessionCodec) (store : KeyedStore H J) (key : Str) : Option Session :=
  (store.kvGet sessionsCollection key).bind C.decode

namespace SessionRegistry

def withSharedStore (store : KeyedStore H J) : SessionRegistry H J := { Book.new with store }

def nextHlc (r : SessionRegistry H J) : Hlc := ⟨r.clock + 1, 0, registryAuthor⟩

def get (C : SessionCodec) (r : SessionRegistry H J) (slot : Slot) : Option Session :=
  lookup C r.store slot.kvKey

def put (C : SessionCodec) (r : SessionRegistry H J) (s : Session) : SessionRegistry H J where
  revEpoch := r.revEpoch
  clock := r.clock + 1
  byPrincipal := insert s.slot r.byPrincipal
  store := (r.store.kvPut sessionsCollection s.slot.kvKey (C.encode s) r.nextHlc).1

def mintWithOrigin (C : SessionCodec) (r : SessionRegistry H J) (slot : Slot)
    (issuedAt expiry : UInt64) (origin : Str) : SessionRegistry H J × Session :=
  let session : Session :=
    { slot, origin, issuedAt, lastSeen := issuedAt, expiry, mintEpoch := r.revEpoch,
      revokedEpoch := none }
  (r.put C session, session)

def touch (C : SessionCodec) (r : SessionRegistry H J) (slot : Slot) (now : UInt64) :
    SessionRegistry H J × Bool :=
  match r.get C slot with
  | some session => (r.put C { session with lastSeen := now }, true)
  | none => (r, false)

def revokeOne (C : SessionCodec) (r : SessionRegistry H J) (slot : Slot) :
    SessionRegistry H J × Except RevokeError Unit :=
  match r.get C slot with
  | some session =>
    let r := { r with revEpoch := r.revEpoch + 1 }
    (r.put C { session with revokedEpoch := some r.revEpoch }, .ok ())
  | none => (r, .error .noSuchSession)

def sweep (C : SessionCodec) (epoch : UInt64) (r : SessionRegistry H J) (slot : Slot) :
    SessionRegistry H J :=
  match r.get C slot with
  | some session =>
    if session.revokedEpoch = none then r.put C { session with revokedEpoch := some epoch } else r
  | none => r

def Iterates (r : SessionRegistry H J) (principal : Str) (order : List Slot) : Prop :=
  order.Nodup ∧ order.toFinset = r.byPrincipal.filter (·.principal = principal)

instance (r : SessionRegistry H J) (principal : Str) (order : List Slot) :
    Decidable (r.Iterates principal order) :=
  inferInstanceAs (Decidable (_ ∧ _))

def revokeAll (C : SessionCodec) (r : SessionRegistry H J) (order : List Slot) :
    SessionRegistry H J :=
  order.foldl (sweep C (r.revEpoch + 1)) { r with revEpoch := r.revEpoch + 1 }

def revokeAllButCurrent (C : SessionCodec) (r : SessionRegistry H J) (keepId : Str)
    (order : List Slot) : SessionRegistry H J :=
  r.revokeAll C (order.filter (·.id ≠ keepId))

end SessionRegistry

/-- A call to a registry. The sweeps come with the order in which they find the slots. -/
inductive Call where
  | mint (slot : Slot) (issuedAt expiry : UInt64) (origin : Str)
  | touch (slot : Slot) (now : UInt64)
  | revokeOne (slot : Slot)
  | revokeAll (principal : Str) (order : List Slot)
  | revokeAllButCurrent (principal keepId : Str) (order : List Slot)

def SessionRegistry.call (C : SessionCodec) (r : SessionRegistry H J) : Call → SessionRegistry H J
  | .mint slot issuedAt expiry origin => (r.mintWithOrigin C slot issuedAt expiry origin).1
  | .touch slot now => (r.touch C slot now).1
  | .revokeOne slot => (r.revokeOne C slot).1
  | .revokeAll principal order => if r.Iterates principal order then r.revokeAll C order else r
  | .revokeAllButCurrent principal keepId order =>
    if r.Iterates principal order then r.revokeAllButCurrent C keepId order else r

/-! ## Views -/

inductive AdmitError where
  | staleView (view current : UInt64)
  | noSuchSession
  | revoked
  | expired
  deriving DecidableEq

structure AdmittedSnapshot where
  epoch : UInt64
  slot : Slot
  deriving DecidableEq

/-- A caller's view of a registry. -/
structure SessionView where
  watermark : UInt64

namespace SessionView

def refresh (_ : SessionView) (r : SessionRegistry H J) : SessionView := ⟨r.revEpoch⟩

def admitSession (C : SessionCodec) (v : SessionView) (r : SessionRegistry H J) (slot : Slot)
    (now : UInt64) : Except AdmitError AdmittedSnapshot :=
  if v.watermark ≠ r.revEpoch then .error (.staleView v.watermark r.revEpoch)
  else
    match r.get C slot with
    | none => .error .noSuchSession
    | some session =>
      if session.isRevoked then .error .revoked
      else if session.isExpired now then .error .expired
      else .ok ⟨r.revEpoch, slot⟩

theorem admit_refresh (v : SessionView) {r : SessionRegistry H J} {slot : Slot} {s : Session}
    {now : UInt64} (hget : r.get C slot = some s) (hrevoked : s.isRevoked = false)
    (hexpired : s.isExpired now = false) :
    (v.refresh r).admitSession C r slot now = .ok ⟨r.revEpoch, slot⟩ := by
  simp [admitSession, refresh, hget, hrevoked, hexpired]

end SessionView

/-! ## The cell -/

structure Cell (H : Bytes → Bytes) (J : KeyedCodec) (ι : Type*) where
  store : KeyedStore H J
  books : ι → Book

namespace Cell

variable {ι : Type*} [DecidableEq ι]

/-- All registries are as they are built; one that is built later has not been used before. -/
def new (store : KeyedStore H J) : Cell H J ι := ⟨store, fun _ => .new⟩

def registry (cell : Cell H J ι) (i : ι) : SessionRegistry H J :=
  { cell.books i with store := cell.store }

def step (C : SessionCodec) (cell : Cell H J ι) (event : ι × Call) : Cell H J ι :=
  let r := (cell.registry event.1).call C event.2
  ⟨r.store, Function.update cell.books event.1 r.toBook⟩

end Cell

/-! ## Reading and writing records -/

section Records

variable (hH : CollisionFree H) (hJ : J.RoundTrips) (hC : C.RoundTrips)
  {r : SessionRegistry H J} {s : Session} {key : Str}

def record (C : SessionCodec) (s : Session) (hlc : Hlc) : KeyedOp :=
  ⟨sessionsCollection, s.slot.kvKey, kvField, hlc, .put (.scalar (C.encode s))⟩

include hC in
theorem lookup_of_winner {store : KeyedStore H J} {hlc : Hlc}
    (h : store.winner sessionsCollection key kvField = some (record C s hlc)) :
    lookup C store key = some s := by
  rw [lookup, kvGet, fieldValue, h]
  exact hC s

theorem lookup_congr {store store' : KeyedStore H J}
    (h : store'.winner sessionsCollection key kvField =
      store.winner sessionsCollection key kvField) : lookup C store' key = lookup C store key := by
  rw [lookup, lookup, kvGet, kvGet, fieldValue, fieldValue, h]

include hH hJ

theorem winner_put_cases (key : Str) :
    (r.put C s).store.winner sessionsCollection key kvField =
        r.store.winner sessionsCollection key kvField ∨
      s.slot.kvKey = key ∧ (r.put C s).store.winner sessionsCollection key kvField =
        some (record C s r.nextHlc) := by
  have hk := hJ (record C s r.nextHlc) ⟨_, rfl⟩
  by_cases hkey : s.slot.kvKey = key
  · subst hkey
    exact (winner_appendOp_cases hH hk).symm.imp_right fun h => ⟨rfl, h⟩
  · exact .inl (winner_appendOp_of_ne hH hk fun hslot => hkey hslot.2.1)

theorem winner_put_of_later
    (hlater : ∀ m, r.store.winner sessionsCollection s.slot.kvKey kvField = some m →
      m.hlc < r.nextHlc) :
    (r.put C s).store.winner sessionsCollection s.slot.kvKey kvField =
      some (record C s r.nextHlc) :=
  winner_appendOp_of_later hH (hJ (record C s r.nextHlc) ⟨_, rfl⟩) hlater

theorem winner_put_of_earlier {m : KeyedOp}
    (hm : r.store.winner sessionsCollection s.slot.kvKey kvField = some m)
    (hlt : r.nextHlc < m.hlc) :
    (r.put C s).store.winner sessionsCollection s.slot.kvKey kvField = some m :=
  winner_appendOp_of_earlier hH (hJ (record C s r.nextHlc) ⟨_, rfl⟩) hm hlt

include hC

theorem lookup_put_cases (key : Str) :
    lookup C (r.put C s).store key = lookup C r.store key ∨
      s.slot.kvKey = key ∧ lookup C (r.put C s).store key = some s :=
  (winner_put_cases hH hJ key).imp lookup_congr fun h => ⟨h.1, lookup_of_winner hC h.2⟩

theorem lookup_put_of_later
    (hlater : ∀ m, r.store.winner sessionsCollection s.slot.kvKey kvField = some m →
      m.hlc < r.nextHlc) : lookup C (r.put C s).store s.slot.kvKey = some s :=
  lookup_of_winner hC (winner_put_of_later hH hJ hlater)

end Records

/-! ## Signed out -/

def Filed (C : SessionCodec) (store : KeyedStore H J) : Prop :=
  ∀ key s, lookup C store key = some s → s.slot.kvKey = key

def SignedOut (C : SessionCodec) (store : KeyedStore H J) (key : Str) : Prop :=
  ∀ s, lookup C store key = some s → s.isRevoked = true

def Call.minted : Call → Option Slot
  | .mint slot _ _ _ => some slot
  | _ => none

/-- What a call may write, given what the store reads. -/
inductive Written (C : SessionCodec) (store : KeyedStore H J) (c : Call) : Session → Prop
  | revoked {s : Session} (h : s.isRevoked = true) : Written C store c s
  | minted {s : Session} (h : s.slot ∈ c.minted) : Written C store c s
  | touched {s : Session} {key : Str} {now : UInt64} (h : lookup C store key = some s) :
      Written C store c { s with lastSeen := now }

section

variable (I : KeyedStore H J → Prop)

section

variable (hput : ∀ (r : SessionRegistry H J) (s : Session), I r.store → s.isRevoked = true →
    I (r.put C s).store)
include hput

variable {r : SessionRegistry H J}

theorem sweep_keeps (epoch : UInt64) (h : I r.store) (slot : Slot) :
    I (r.sweep C epoch slot).store := by
  rw [SessionRegistry.sweep]
  split
  · split_ifs
    · exact hput r _ h rfl
    · exact h
  · exact h

theorem foldl_sweep_keeps (epoch : UInt64) (h : I r.store) (order : List Slot) :
    I (order.foldl (SessionRegistry.sweep C epoch) r).store := by
  induction order generalizing r with
  | nil => exact h
  | cons slot order ih => exact ih (sweep_keeps I hput epoch h slot)

theorem revokeAll_keeps (h : I r.store) (order : List Slot) : I (r.revokeAll C order).store :=
  foldl_sweep_keeps I hput _ (r := { r with revEpoch := r.revEpoch + 1 }) h order

end

/-- **What all writes keep, a call keeps.** -/
theorem call_keeps {c : Call}
    (hput : ∀ (r : SessionRegistry H J) (s : Session), I r.store → Written C r.store c s →
      I (r.put C s).store) {r : SessionRegistry H J} (h : I r.store) :
    I (r.call C c).store := by
  cases c with
  | mint slot issuedAt expiry origin => exact hput r _ h (.minted rfl)
  | touch slot now =>
    rw [SessionRegistry.call, SessionRegistry.touch]
    split
    · rename_i session hget
      exact hput r _ h (.touched hget)
    · exact h
  | revokeOne slot =>
    rw [SessionRegistry.call, SessionRegistry.revokeOne]
    split
    · exact hput { r with revEpoch := r.revEpoch + 1 } _ h (.revoked rfl)
    · exact h
  | revokeAll principal order | revokeAllButCurrent principal keepId order =>
    rw [SessionRegistry.call]
    split_ifs
    · exact revokeAll_keeps I (fun r s h hs => hput r s h (.revoked hs)) h _
    · exact h

end

section

variable (hH : CollisionFree H) (hJ : J.RoundTrips) (hC : C.RoundTrips)
include hH hJ hC

variable {r : SessionRegistry H J}

theorem filed_put (h : Filed C r.store) (s : Session) : Filed C (r.put C s).store := by
  intro key s' hs'
  rcases lookup_put_cases hH hJ hC key with hold | ⟨hkey, hnew⟩
  · exact h key s' (hold ▸ hs')
  · obtain rfl : s = s' := Option.some.inj (hnew ▸ hs')
    exact hkey

theorem signedOut_put {key : Str} (h : SignedOut C r.store key) {s : Session}
    (hs : s.slot.kvKey = key → s.isRevoked = true) : SignedOut C (r.put C s).store key := by
  intro s' hs'
  rcases lookup_put_cases hH hJ hC key with hold | ⟨hkey, hnew⟩
  · exact h s' (hold ▸ hs')
  · obtain rfl : s = s' := Option.some.inj (hnew ▸ hs')
    exact hs hkey

theorem filed_call (h : Filed C r.store) (c : Call) : Filed C (r.call C c).store :=
  call_keeps (Filed C) (fun _ s h _ => filed_put hH hJ hC h s) h

/-- **A record that reads as revoked keeps to it.** -/
theorem signedOut_call {key : Str} (hfiled : Filed C r.store) (h : SignedOut C r.store key)
    {c : Call} (hmint : ∀ slot ∈ c.minted, slot.kvKey ≠ key) :
    SignedOut C (r.call C c).store key := by
  refine (call_keeps (fun store => Filed C store ∧ SignedOut C store key) ?_ ⟨hfiled, h⟩).2
  rintro r s ⟨hfiled, h⟩ hs
  refine ⟨filed_put hH hJ hC hfiled s, signedOut_put hH hJ hC h fun hkey => ?_⟩
  cases hs with
  | revoked hs => exact hs
  | minted hs => exact absurd hkey (hmint _ hs)
  | @touched s key' now hread =>
    -- what is written back is what was read, and that is revoked
    obtain rfl : key' = key := (hfiled key' s hread).symm.trans hkey
    exact h s hread

end

/-! ## A sign-out takes effect -/

def UpToDate (r : SessionRegistry H J) (key : Str) : Prop :=
  ∀ m, r.store.winner sessionsCollection key kvField = some m →
    m.hlc ≤ ⟨r.clock, 0, registryAuthor⟩

theorem lt_nextHlc {r : SessionRegistry H J} (hroom : r.clock.toNat + 1 < 2 ^ 64) :
    (⟨r.clock, 0, registryAuthor⟩ : Hlc) < r.nextHlc := by
  refine Hlc.lt_of_physical_lt (UInt64.lt_iff_toNat_lt.2 ?_)
  show r.clock.toNat < (r.clock + 1).toNat
  rw [UInt64.toNat_add, UInt64.toNat_one, Nat.mod_eq_of_lt hroom]
  exact Nat.lt_succ_self _

section

variable (hH : CollisionFree H) (hJ : J.RoundTrips) (hC : C.RoundTrips)
include hH hJ

variable {r : SessionRegistry H J}

theorem upToDate_put {key : Str} (h : UpToDate r key) (hroom : r.clock.toNat + 1 < 2 ^ 64)
    (s : Session) : UpToDate (r.put C s) key := by
  intro m hm
  rcases winner_put_cases hH hJ key with hold | ⟨-, hnew⟩
  · exact (h m (hold ▸ hm)).trans (lt_nextHlc hroom).le
  · obtain rfl := Option.some.inj (hnew ▸ hm)
    exact le_rfl

include hC

theorem signedOut_put_revoked {s : Session} (h : UpToDate r s.slot.kvKey)
    (hroom : r.clock.toNat + 1 < 2 ^ 64) (hs : s.isRevoked = true) :
    SignedOut C (r.put C s).store s.slot.kvKey := by
  intro s' hs'
  have hseen := lookup_put_of_later hH hJ hC fun m hm => (h m hm).trans_lt (lt_nextHlc hroom)
  obtain rfl : s = s' := Option.some.inj (hseen ▸ hs')
  exact hs

theorem signedOut_revokeOne {slot : Slot} (hfiled : Filed C r.store) (h : UpToDate r slot.kvKey)
    (hroom : r.clock.toNat + 1 < 2 ^ 64) : SignedOut C (r.revokeOne C slot).1.store slot.kvKey := by
  rw [SessionRegistry.revokeOne]
  split
  · rename_i session hget
    have hkey : session.slot.kvKey = slot.kvKey := hfiled _ _ hget
    rw [← hkey] at h ⊢
    exact signedOut_put_revoked hH hJ hC h hroom rfl
  · rename_i hget
    intro s hs
    cases hget.symm.trans hs

theorem signedOut_sweep (epoch : UInt64) {slot : Slot} (hfiled : Filed C r.store)
    (h : UpToDate r slot.kvKey) (hroom : r.clock.toNat + 1 < 2 ^ 64) :
    SignedOut C (r.sweep C epoch slot).store slot.kvKey := by
  rw [SessionRegistry.sweep]
  split
  · rename_i session hget
    split_ifs with hactive
    · have hkey : session.slot.kvKey = slot.kvKey := hfiled _ _ hget
      rw [← hkey] at h ⊢
      exact signedOut_put_revoked hH hJ hC h hroom rfl
    · intro s hs
      obtain rfl := Option.some.inj (hget.symm.trans hs)
      exact Option.isSome_iff_ne_none.2 hactive
  · rename_i hget
    intro s hs
    cases hget.symm.trans hs

omit hC in
theorem upToDate_sweep (epoch : UInt64) {key : Str} {n : ℕ} (h : UpToDate r key)
    (hroom : r.clock.toNat + (n + 1) < 2 ^ 64) (slot : Slot) :
    UpToDate (r.sweep C epoch slot) key ∧
      (r.sweep C epoch slot).clock.toNat + n < 2 ^ 64 := by
  have hput : ∀ s : Session,
      UpToDate (r.put C s) key ∧ (r.put C s).clock.toNat + n < 2 ^ 64 := by
    refine fun s => ⟨upToDate_put hH hJ h (by omega) s, ?_⟩
    show (r.clock + 1).toNat + n < 2 ^ 64
    rw [UInt64.toNat_add, UInt64.toNat_one, Nat.mod_eq_of_lt (by omega)]
    omega
  rw [SessionRegistry.sweep]
  split
  · split_ifs
    · exact hput _
    · exact ⟨h, by omega⟩
  · exact ⟨h, by omega⟩

/-- **The sweep signs out every slot it comes to.** -/
theorem signedOut_foldl_sweep (epoch : UInt64) {order : List Slot} {slot : Slot}
    (hslot : slot ∈ order) (hfiled : Filed C r.store) (h : UpToDate r slot.kvKey)
    (hroom : r.clock.toNat + order.length < 2 ^ 64) :
    SignedOut C (order.foldl (SessionRegistry.sweep C epoch) r).store slot.kvKey := by
  induction order generalizing r with
  | nil => cases hslot
  | cons first order ih =>
    rw [List.length_cons] at hroom
    by_cases hfirst : slot = first
    · -- from this round on the record reads as revoked
      subst hfirst
      exact (foldl_sweep_keeps (SignedOut C · slot.kvKey)
        (fun r s h hs => signedOut_put hH hJ hC h fun _ => hs) epoch
        (signedOut_sweep hH hJ hC epoch hfiled h (by omega)) order)
    · obtain ⟨hup, hleft⟩ := upToDate_sweep hH hJ epoch h hroom first
      exact ih (List.mem_of_ne_of_mem hfirst hslot)
        (sweep_keeps (Filed C) (fun r s h _ => filed_put hH hJ hC h s) epoch hfiled first) hup hleft

end

/-- The call signs a session out: `revoke_one` of it, or `revoke_all` if the registry knows it. -/
def Call.SignsOut (r : SessionRegistry H J) (slot : Slot) : Call → Prop
  | .revokeOne slot' => slot' = slot
  | .revokeAll principal order => r.Iterates principal order ∧ slot ∈ order
  | _ => False

theorem signedOut_of_signsOut (hH : CollisionFree H) (hJ : J.RoundTrips) (hC : C.RoundTrips)
    {r : SessionRegistry H J} {slot : Slot} {c : Call} (hfiled : Filed C r.store)
    (hc : c.SignsOut r slot) (h : UpToDate r slot.kvKey)
    (hroom : r.clock.toNat + r.byPrincipal.card + 1 < 2 ^ 64) :
    SignedOut C (r.call C c).store slot.kvKey := by
  cases c with
  | mint | touch => cases hc
  | revokeOne slot' =>
    obtain rfl := hc
    exact signedOut_revokeOne hH hJ hC hfiled h (by omega)
  | revokeAll principal order =>
    obtain ⟨horder, hslot⟩ := hc
    have hlength : order.length ≤ r.byPrincipal.card := by
      rw [← List.toFinset_card_of_nodup horder.1, horder.2]
      exact Finset.card_filter_le _ _
    rw [SessionRegistry.call, if_pos horder]
    refine signedOut_foldl_sweep hH hJ hC _ hslot hfiled h ?_
    show r.clock.toNat + order.length < 2 ^ 64
    omega
  | revokeAllButCurrent => cases hc

/-! ## Every run -/

section

variable {ι : Type*} [DecidableEq ι] {cell : Cell H J ι} {slot : Slot}

omit [DecidableEq ι] in
theorem admit_ne_ok (h : SignedOut C cell.store slot.kvKey) (v : SessionView) (i : ι)
    (now : UInt64) (snapshot : AdmittedSnapshot) :
    v.admitSession C (cell.registry i) slot now ≠ .ok snapshot := by
  rw [SessionView.admitSession]
  split_ifs
  · exact fun hok => by cases hok
  · split
    · exact fun hok => by cases hok
    · rename_i session hget
      rw [if_pos (h session hget)]
      exact fun hok => by cases hok

variable (hH : CollisionFree H) (hJ : J.RoundTrips) (hC : C.RoundTrips)
include hH hJ hC

theorem filed_step (event : ι × Call) (h : Filed C cell.store) :
    Filed C (cell.step C event).store :=
  filed_call hH hJ hC (r := cell.registry event.1) h event.2

theorem signedOut_exec (hfiled : Filed C cell.store) (h : SignedOut C cell.store slot.kvKey)
    (events : List (ι × Call))
    (hmint : ∀ event ∈ events, ∀ minted ∈ event.2.minted, minted.kvKey ≠ slot.kvKey) :
    SignedOut C (exec (Cell.step C) cell events).store slot.kvKey := by
  induction events generalizing cell with
  | nil => exact h
  | cons event events ih =>
    obtain ⟨hfirst, hrest⟩ := List.forall_mem_cons.1 hmint
    exact ih (filed_step hH hJ hC event hfiled)
      (signedOut_call hH hJ hC (r := cell.registry event.1) hfiled h hfirst) hrest

theorem signedOut_exec_of_signsOut (hfiled : Filed C cell.store) (i : ι) {c : Call}
    (hc : c.SignsOut (cell.registry i) slot) (hup : UpToDate (cell.registry i) slot.kvKey)
    (hroom : (cell.books i).clock.toNat + (cell.books i).byPrincipal.card + 1 < 2 ^ 64)
    (events : List (ι × Call))
    (hmint : ∀ event ∈ events, ∀ minted ∈ event.2.minted, minted.kvKey ≠ slot.kvKey) :
    SignedOut C (exec (Cell.step C) cell ((i, c) :: events)).store slot.kvKey :=
  signedOut_exec hH hJ hC (filed_step hH hJ hC (i, c) hfiled)
    (signedOut_of_signsOut hH hJ hC hfiled hc hup hroom) events hmint

theorem filed_exec {store : KeyedStore H J} (hblank : ∀ key, lookup C store key = none)
    (events : List (ι × Call)) : Filed C (exec (Cell.step C) (.new store) events).store := by
  refine exec_inv (I := fun cell : Cell H J ι => Filed C cell.store)
    (fun cell event h => filed_step hH hJ hC event h) ?_ events
  intro key s hs
  cases (hblank key).symm.trans hs

/-- **A sign-out holds on every registry.** -/
theorem signed_out {store : KeyedStore H J} (hblank : ∀ key, lookup C store key = none)
    {earlier : List (ι × Call)} (hcell : cell = exec (Cell.step C) (.new store) earlier)
    (i : ι) {c : Call} (hc : c.SignsOut (cell.registry i) slot)
    (hup : UpToDate (cell.registry i) slot.kvKey)
    (hroom : (cell.books i).clock.toNat + (cell.books i).byPrincipal.card + 1 < 2 ^ 64)
    (later : List (ι × Call))
    (hmint : ∀ event ∈ later, ∀ minted ∈ event.2.minted, minted.kvKey ≠ slot.kvKey)
    (v : SessionView) (j k : ι) (now : UInt64) (snapshot : AdmittedSnapshot) :
    (v.refresh ((exec (Cell.step C) cell ((i, c) :: later)).registry j)).admitSession C
      ((exec (Cell.step C) cell ((i, c) :: later)).registry k) slot now ≠ .ok snapshot := by
  have hfiled : Filed C cell.store := hcell ▸ filed_exec hH hJ hC hblank earlier
  exact admit_ne_ok (signedOut_exec_of_signsOut hH hJ hC hfiled i hc hup hroom later hmint) _ k now
    snapshot

end

/-! ## The records that `serde_json` writes -/

def jsonEpoch : Option UInt64 → List Char
  | none => lit "null"
  | some epoch => Nat.toDigits 10 epoch.toNat

def Session.json (s : Session) : List Char :=
  lit "\x7b\"id\":" ++ (jsonStr s.slot.id ++ (lit ",\"principal\":" ++ (jsonStr s.slot.principal ++
    (lit ",\"origin\":" ++ (jsonStr s.origin ++ (lit ",\"issued_at\":" ++
      (Nat.toDigits 10 s.issuedAt.toNat ++ (lit ",\"last_seen\":" ++
        (Nat.toDigits 10 s.lastSeen.toNat ++ (lit ",\"expiry\":" ++
          (Nat.toDigits 10 s.expiry.toNat ++ (lit ",\"mint_epoch\":" ++
            (Nat.toDigits 10 s.mintEpoch.toNat ++ (lit ",\"revoked_epoch\":" ++
              (jsonEpoch s.revokedEpoch ++ ['\x7d'])))))))))))))))

theorem number_append_inj {name : String} (hname : (lit name).head? = some ',') {m n : UInt64}
    {x y : List Char}
    (h : Nat.toDigits 10 m.toNat ++ (lit name ++ x) = Nat.toDigits 10 n.toNat ++ (lit name ++ y)) :
    m = n ∧ x = y := by
  have hcomma : ∀ z : List Char, ∀ c ∈ (lit name ++ z).head?, c.isDigit = false := by
    intro z c hc
    rw [List.head?_append, hname] at hc
    obtain rfl : ',' = c := Option.some.inj hc
    decide
  obtain ⟨hmn, hrest⟩ := decimal_append_inj (hcomma x) (hcomma y) h
  exact ⟨UInt64.toNat_inj.1 hmn, List.append_cancel_left hrest⟩

theorem jsonEpoch_append_inj {e f : Option UInt64}
    (h : jsonEpoch e ++ ['\x7d'] = jsonEpoch f ++ ['\x7d']) : e = f := by
  have hnull : ∀ n : UInt64, lit "null" ≠ Nat.toDigits 10 n.toNat := by
    intro n hn
    have hmem : 'n' ∈ Nat.toDigits 10 n.toNat := hn ▸ (by decide +kernel : 'n' ∈ lit "null")
    exact absurd (isDigit_of_mem_decimal hmem) (by decide)
  have hepoch := List.append_cancel_right h
  cases e with
  | none =>
    cases f with
    | none => rfl
    | some n => exact absurd hepoch (hnull n)
  | some m =>
    cases f with
    | none => exact absurd hepoch.symm (hnull m)
    | some n =>
      have hdigits : Nat.toDigits 10 m.toNat ++ [] = Nat.toDigits 10 n.toNat ++ [] := by
        simpa [jsonEpoch] using hepoch
      rw [UInt64.toNat_inj.1 (decimal_append_inj (by simp) (by simp) hdigits).1]

/-- **No two sessions have one text.** -/
theorem Session.json_injective : Function.Injective Session.json := by
  intro s t h
  obtain ⟨hid, h⟩ := splits_jsonStr (List.append_cancel_left h)
  obtain ⟨hprincipal, h⟩ := splits_jsonStr (List.append_cancel_left h)
  obtain ⟨horigin, h⟩ := splits_jsonStr (List.append_cancel_left h)
  obtain ⟨hissued, h⟩ := number_append_inj (by decide +kernel) (List.append_cancel_left h)
  obtain ⟨hseen, h⟩ := number_append_inj (by decide +kernel) h
  obtain ⟨hexpiry, h⟩ := number_append_inj (by decide +kernel) h
  obtain ⟨hmint, h⟩ := number_append_inj (by decide +kernel) h
  exact Session.ext (Slot.ext hprincipal hid) horigin hissued hseen hexpiry hmint
    (jsonEpoch_append_inj h)

open Classical in
/-- The codec, as far as it is used on what it has written itself. -/
noncomputable def sessionJson : SessionCodec where
  encode s := utf8 (String.ofList s.json)
  decode b := if h : ∃ s : Session, utf8 (String.ofList s.json) = b then some h.choose else none

theorem sessionJson_roundTrips : sessionJson.RoundTrips := by
  intro s
  have hex : ∃ t : Session, utf8 (String.ofList t.json) = sessionJson.encode s := ⟨s, rfl⟩
  have hdecode : sessionJson.decode (sessionJson.encode s) = some hex.choose := dif_pos hex
  rw [hdecode, Session.json_injective (String.ofList_injective (utf8_injective hex.choose_spec))]

/-! ## A sign-out that is seen, and one that is lost -/

def aliceSlot : Slot := ⟨.lit "alice", ⟨"s1", by decide⟩, by decide⟩

def aliceMint : Call := .mint aliceSlot 0 1000 ⟨"unknown", by decide⟩

noncomputable def registries : List (ℕ × Call) → Cell (tableDigest []) serdeJson ℕ :=
  exec (Cell.step sessionJson) (.new .new)

/-- The registry that minted the session signs it out, and another one touches it: no view of any
registry admits it. -/
theorem revoked_on_all_registries :
    UpToDate ((registries [(0, aliceMint)]).registry 0) aliceSlot.kvKey ∧
      ∀ (v : SessionView) (j k : ℕ) (now : UInt64) (snapshot : AdmittedSnapshot),
        (v.refresh ((registries [(0, aliceMint), (0, .revokeOne aliceSlot),
          (1, .touch aliceSlot 7)]).registry j)).admitSession sessionJson
            ((registries [(0, aliceMint), (0, .revokeOne aliceSlot),
              (1, .touch aliceSlot 7)]).registry k) aliceSlot now ≠ .ok snapshot := by
  have hJ := serdeJson_serde.roundTrips
  have hup : UpToDate ((registries [(0, aliceMint)]).registry 0) aliceSlot.kvKey := by
    refine upToDate_put tableDigest_nil_collisionFree hJ ?_ (by decide) _
    intro m hm
    rw [Cell.registry, Cell.new, winner_new] at hm
    cases hm
  have hc : Call.SignsOut ((registries [(0, aliceMint)]).registry 0) aliceSlot
    (.revokeOne aliceSlot) := rfl
  have hroom : ((registries [(0, aliceMint)]).books 0).clock.toNat +
      ((registries [(0, aliceMint)]).books 0).byPrincipal.card + 1 < 2 ^ 64 := by
    decide
  refine ⟨hup, signed_out tableDigest_nil_collisionFree hJ sessionJson_roundTrips
    (fun key => by simp [lookup]) rfl 0 hc hup hroom [(1, .touch aliceSlot 7)] ?_⟩
  simp [Call.minted]

def aliceSession (lastSeen : UInt64) : Session :=
  { slot := aliceSlot, origin := ⟨"unknown", by decide⟩, issuedAt := 0, lastSeen, expiry := 1000,
    mintEpoch := 0, revokedEpoch := none }

theorem winner_aliceMint :
    (registries [(0, aliceMint)]).store.winner sessionsCollection aliceSlot.kvKey kvField =
      some (record sessionJson (aliceSession 0) ⟨1, 0, registryAuthor⟩) := by
  refine winner_put_of_later tableDigest_nil_collisionFree serdeJson_serde.roundTrips
    (r := (registries []).registry 0) (s := aliceSession 0) fun m hm => ?_
  rw [Cell.registry] at hm
  cases (winner_new _ _ _).symm.trans hm

theorem winner_aliceTouch :
    (registries [(0, aliceMint), (0, .touch aliceSlot 5)]).store.winner sessionsCollection
      aliceSlot.kvKey kvField =
      some (record sessionJson (aliceSession 5) ⟨2, 0, registryAuthor⟩) := by
  have hget : ((registries [(0, aliceMint)]).registry 0).get sessionJson aliceSlot =
      some (aliceSession 0) := lookup_of_winner sessionJson_roundTrips winner_aliceMint
  have hcall : ((registries [(0, aliceMint)]).registry 0).call sessionJson (.touch aliceSlot 5) =
      ((registries [(0, aliceMint)]).registry 0).put sessionJson (aliceSession 5) := by
    rw [SessionRegistry.call, SessionRegistry.touch, hget]
    rfl
  show (((registries [(0, aliceMint)]).registry 0).call sessionJson
    (.touch aliceSlot 5)).store.winner _ _ _ = _
  rw [hcall]
  refine winner_put_of_later tableDigest_nil_collisionFree serdeJson_serde.roundTrips
    (s := aliceSession 5) fun m hm => ?_
  obtain rfl := Option.some.inj (winner_aliceMint.symm.trans hm)
  exact Hlc.lt_of_physical_lt (by decide)

/-- **A rebuilt registry signs the session out and is told that it did.** -/
theorem stale_revoke_lost :
    (((registries [(0, aliceMint), (0, .touch aliceSlot 5)]).registry 1).revokeOne sessionJson
        aliceSlot).2 = .ok () ∧
      ∀ (v : SessionView) (j : ℕ), ∃ snapshot,
        (v.refresh ((registries [(0, aliceMint), (0, .touch aliceSlot 5),
          (1, .revokeOne aliceSlot)]).registry j)).admitSession sessionJson
            ((registries [(0, aliceMint), (0, .touch aliceSlot 5),
              (1, .revokeOne aliceSlot)]).registry j) aliceSlot 10 = .ok snapshot := by
  have hget : ((registries [(0, aliceMint), (0, .touch aliceSlot 5)]).registry 1).get sessionJson
      aliceSlot = some (aliceSession 5) := lookup_of_winner sessionJson_roundTrips winner_aliceTouch
  have hwinner : (registries [(0, aliceMint), (0, .touch aliceSlot 5),
      (1, .revokeOne aliceSlot)]).store.winner sessionsCollection aliceSlot.kvKey kvField =
      some (record sessionJson (aliceSession 5) ⟨2, 0, registryAuthor⟩) := by
    show (((registries [(0, aliceMint), (0, .touch aliceSlot 5)]).registry 1).revokeOne sessionJson
      aliceSlot).1.store.winner _ _ _ = _
    rw [SessionRegistry.revokeOne, hget]
    exact winner_put_of_earlier tableDigest_nil_collisionFree serdeJson_serde.roundTrips
      (s := { aliceSession 5 with revokedEpoch := some 1 }) winner_aliceTouch
      (Hlc.lt_of_physical_lt (by decide))
  refine ⟨by rw [SessionRegistry.revokeOne, hget], fun v j => ?_⟩
  have hstill : ((registries [(0, aliceMint), (0, .touch aliceSlot 5),
      (1, .revokeOne aliceSlot)]).registry j).get sessionJson aliceSlot = some (aliceSession 5) :=
    lookup_of_winner sessionJson_roundTrips hwinner
  exact ⟨_, SessionView.admit_refresh v hstill rfl rfl⟩

end Pillar.Identity
