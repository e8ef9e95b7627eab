import Pillar.Wire.ContentStore

/-!
# Geo-replication

`pillar-streamdb`'s `geo_replication`: an owner authorises a remote cell to pin its encrypted
segments, by a signed grant that is good for one epoch of their trust.

* `exists_grant` — **an epoch of the owner's table was minted**, after the last revocation.
* `spent_of_revoke` — **a grant from before a revocation never authorises again**.
-/

namespace Pillar.GeoReplication

open Std Wire Lib.Compare Lib.Runs

structure ReplicationGrant where
  owner : Bytes
  remote : Bytes
  epoch : Epoch
  signature : Bytes
  deriving DecidableEq

inductive ReplicationError where
  | badGrant
  | notAuthorized
  | notEncrypted
  | store (err : StoreError)
  | notReplicated
  deriving DecidableEq

def grantSigningMaterial (owner remote : Bytes) (epoch : Epoch) : Bytes :=
  utf8 "pillar-streamdb/geo-replication/grant-v1" ++ owner ++ remote ++ beBytes 8 epoch

namespace ReplicationGrant

def author (E : Ed25519) (owner remote : Bytes) (epoch : Epoch) (secret : Bytes) :
    Except CryptoError ReplicationGrant :=
  (sign E secret (grantSigningMaterial owner remote epoch)).map fun signature =>
    ⟨owner, remote, epoch, signature⟩

def verify (E : Ed25519) (g : ReplicationGrant) : Except ReplicationError Unit :=
  (Pillar.verify E g.owner (grantSigningMaterial g.owner g.remote g.epoch) g.signature).mapError
    fun _ => .badGrant

end ReplicationGrant

/-- The owner's side: the epoch of every remote ever trusted, and the remotes that are revoked. -/
structure ReplicationTrust where
  owner : Bytes
  secret : Bytes
  epochs : ExtTreeMap Bytes Epoch
  revoked : ExtTreeSet Bytes

namespace ReplicationTrust

def new (owner secret : Bytes) : ReplicationTrust := ⟨owner, secret, ∅, ∅⟩

variable (t : ReplicationTrust)

/-- The epoch of the next grant: a new one if the remote was revoked. -/
def nextEpoch (remote : Bytes) : Epoch :=
  if t.revoked.contains remote then t.epochs[remote]?.getD 0 + 1 else t.epochs[remote]?.getD 0

def grant (E : Ed25519) (remote : Bytes) :
    ReplicationTrust × Except CryptoError ReplicationGrant :=
  ({ t with
      epochs := t.epochs.insert remote (t.nextEpoch remote), revoked := t.revoked.erase remote },
    ReplicationGrant.author E t.owner remote (t.nextEpoch remote) t.secret)

def revoke (remote : Bytes) : ReplicationTrust :=
  if t.epochs.contains remote then { t with revoked := t.revoked.insert remote } else t

def authorizes (E : Ed25519) (g : ReplicationGrant) : Bool :=
  (g.verify E).isOk && g.owner == t.owner && !t.revoked.contains g.remote &&
    t.epochs[g.remote]? == some g.epoch

end ReplicationTrust

/-- The remote's side: a content store, and the ids that were pinned for an owner. -/
structure RemoteReplica where
  store : ContentStore
  replicated : ExtTreeSet Cid

/-- A segment is kept and pinned under a grant in force. -/
def RemoteReplica.authorizeAndPin (H : Bytes → Bytes) (E : Ed25519) (r : RemoteReplica)
    (backend : Option Backend) (trust : ReplicationTrust) (g : ReplicationGrant)
    (segment : SignedSegment) : RemoteReplica × Except ReplicationError Cid :=
  if trust.authorizes E g = false then (r, .error .notAuthorized)
  else if segment.visibility ≠ .cell then (r, .error .notEncrypted)
  else
    match r.store.put H E backend segment with
    | (store, .error err) => ({ r with store := store }, .error (.store err))
    | (store, .ok cid) =>
      match store.pin backend cid with
      | (store, .error err) => ({ r with store := store }, .error (.store err))
      | (store, .ok ()) => (⟨store, r.replicated.insert cid⟩, .ok cid)

/-- A call on the trust. Pinning only reads it, for a replica in whatever state. -/
inductive Call where
  | grant (remote : Bytes)
  | revoke (remote : Bytes)
  deriving DecidableEq

def step (E : Ed25519) (t : ReplicationTrust) : Call → ReplicationTrust
  | .grant remote => (t.grant E remote).1
  | .revoke remote => t.revoke remote

variable {H : Bytes → Bytes} {E : Ed25519} {t : ReplicationTrust} {g : ReplicationGrant}

/-! ## Epochs -/

theorem authorizes_iff : t.authorizes E g = true ↔
    Pillar.verify E g.owner (grantSigningMaterial g.owner g.remote g.epoch) g.signature = .ok () ∧
      g.owner = t.owner ∧ g.remote ∉ t.revoked ∧ t.epochs[g.remote]? = some g.epoch := by
  have hverify : (g.verify E).isOk = true ↔ Pillar.verify E g.owner
      (grantSigningMaterial g.owner g.remote g.epoch) g.signature = .ok () := by
    rw [ReplicationGrant.verify]
    cases Pillar.verify E g.owner _ g.signature <;>
      simp [Except.mapError, Except.isOk, Except.toBool]
  simp only [ReplicationTrust.authorizes, Bool.and_eq_true, hverify, beq_iff_eq, Bool.not_eq_true',
    ← Bool.not_eq_true, ExtTreeSet.contains_iff_mem, and_assoc]

variable {owner secret remote : Bytes} {calls : List Call} {epoch : Epoch}

theorem keys_exec (calls : List Call) : (exec (step E) (.new owner secret) calls).owner = owner ∧
    (exec (step E) (.new owner secret) calls).secret = secret := by
  refine exec_inv (I := fun t : ReplicationTrust => t.owner = owner ∧ t.secret = secret)
    (fun t c h => ?_) ⟨rfl, rfl⟩ calls
  cases c <;> grind [step, ReplicationTrust.grant, ReplicationTrust.revoke]

theorem exists_grant (hepoch : (exec (step E) (.new owner secret) calls).epochs[remote]? = some epoch)
    (hlive : remote ∉ (exec (step E) (.new owner secret) calls).revoked) :
    ∃ p q, calls = p ++ .grant remote :: q ∧ .revoke remote ∉ q ∧
      (exec (step E) (.new owner secret) p).nextEpoch remote = epoch := by
  induction calls using List.reverseRecOn with
  | nil => simp [ReplicationTrust.new] at hepoch
  | append_singleton calls c ih =>
    rw [exec_concat] at hepoch hlive
    -- a call about another remote leaves this one's entry as it is
    have hother (hentry : (exec (step E) (.new owner secret) calls).epochs[remote]? = some epoch)
        (hin : remote ∉ (exec (step E) (.new owner secret) calls).revoked)
        (hc : c ≠ .revoke remote) : ∃ p q, calls ++ [c] = p ++ .grant remote :: q ∧
          .revoke remote ∉ q ∧ (exec (step E) (.new owner secret) p).nextEpoch remote = epoch := by
      obtain ⟨p, q, rfl, hq, hnext⟩ := ih hentry hin
      exact ⟨p, q ++ [c], by simp, by simp [hq, hc.symm], hnext⟩
    cases c with
    | grant r =>
      simp only [step, ReplicationTrust.grant] at hepoch hlive
      by_cases hr : r = remote
      · subst hr
        exact ⟨calls, [], rfl, by simp, by simpa using hepoch⟩
      · rw [ExtTreeMap.getElem?_insert] at hepoch
        exact hother (by simpa [hr] using hepoch) (by simpa [hr] using hlive) (by simp)
    | revoke r =>
      simp only [step, ReplicationTrust.revoke] at hepoch hlive
      by_cases hr : r = remote
      · subst hr
        split_ifs at hepoch hlive with hknown <;> simp_all
      · split_ifs at hepoch hlive with hknown
        · exact hother hepoch (by simpa [hr] using hlive) (by simpa using hr)
        · exact hother hepoch hlive (by simpa using hr)

def Reached (remote : Bytes) (epoch : Epoch) (t : ReplicationTrust) : Prop :=
  ∃ current, t.epochs[remote]? = some current ∧ epoch ≤ current

/-- The grants of `epoch` for `remote` are spent: the epoch is over, or revoked. -/
def Spent (remote : Bytes) (epoch : Epoch) (t : ReplicationTrust) : Prop :=
  Reached remote (epoch + 1) t ∨ Reached remote epoch t ∧ remote ∈ t.revoked

theorem reached_grant (t : ReplicationTrust) (remote : Bytes) :
    Reached remote (t.nextEpoch remote) (t.grant E remote).1 :=
  ⟨t.nextEpoch remote, by simp [ReplicationTrust.grant], le_rfl⟩

theorem Reached.step (h : Reached remote epoch t) (c : Call) : Reached remote epoch
    (step E t c) := by
  obtain ⟨current, hcurrent, hle⟩ := h
  cases c with
  | grant r =>
    by_cases hr : r = remote
    · subst hr
      obtain ⟨next, hnext, hge⟩ := reached_grant (E := E) t r
      exact ⟨next, hnext, by grind [ReplicationTrust.nextEpoch]⟩
    · exact ⟨current, by
        simp [GeoReplication.step, ReplicationTrust.grant, ExtTreeMap.getElem?_insert, hr, hcurrent],
        hle⟩
  | revoke r => exact ⟨current, by grind [GeoReplication.step, ReplicationTrust.revoke], hle⟩

theorem Spent.step (h : Spent remote epoch t) (c : Call) : Spent remote epoch (step E t c) := by
  rcases h with hover | ⟨hreached, hrevoked⟩
  · exact .inl (hover.step c)
  cases c with
  | grant r =>
    by_cases hr : r = remote
    · subst hr
      obtain ⟨next, hnext, hge⟩ := reached_grant (E := E) t r
      obtain ⟨current, hcurrent, hle⟩ := hreached
      exact .inl ⟨next, hnext, by grind [ReplicationTrust.nextEpoch]⟩
    · exact .inr ⟨hreached.step _, by
        simpa [GeoReplication.step, ReplicationTrust.grant, hr] using hrevoked⟩
  | revoke r =>
    exact .inr ⟨hreached.step _, by grind [GeoReplication.step, ReplicationTrust.revoke]⟩

theorem Spent.not_authorizes (h : Spent g.remote g.epoch t) : t.authorizes E g = false := by
  rw [← Bool.not_eq_true, authorizes_iff]
  rintro ⟨_, _, hlive, hepoch⟩
  rcases h with ⟨current, hcurrent, hle⟩ | ⟨_, hrevoked⟩
  · obtain rfl : current = g.epoch := by simpa [hcurrent] using hepoch
    exact absurd hle (Nat.not_succ_le_self _)
  · exact hlive hrevoked

theorem spent_of_revoke (hmint : (t.grant E remote).2 = .ok g) (q r : List Call) :
    Spent g.remote g.epoch (exec (step E) t (.grant remote :: (q ++ .revoke remote :: r))) := by
  obtain ⟨hr, he⟩ : g.remote = remote ∧ g.epoch = t.nextEpoch remote := by
    simp only [ReplicationTrust.grant, ReplicationGrant.author] at hmint
    cases hsign : sign E t.secret (grantSigningMaterial t.owner remote (t.nextEpoch remote)) with
    | error err => simp [hsign, Except.map] at hmint
    | ok signature =>
      obtain rfl := by simpa [hsign, Except.map] using hmint
      exact ⟨rfl, rfl⟩
  rw [hr, he, exec_cons, exec_append, exec_cons]
  have hreached := exec_inv (I := Reached remote (t.nextEpoch remote)) (fun _ c h => h.step (E := E) c)
    (reached_grant (E := E) t remote) q
  refine exec_inv (I := Spent remote (t.nextEpoch remote)) (fun _ c h => h.step c)
    (.inr ⟨hreached.step (.revoke remote), ?_⟩) r
  obtain ⟨current, hcurrent, _⟩ := hreached
  grind [step, ReplicationTrust.revoke]

/-! ## What a replica pins -/

variable {r r' : RemoteReplica} {backend : Option Backend} {segment : SignedSegment} {cid : Cid}

theorem authorizeAndPin_eq_ok
    (h : r.authorizeAndPin H E backend t g segment = (r', .ok cid)) :
    t.authorizes E g = true ∧ segment.visibility = .cell ∧ segment.verify E = .ok () ∧
      segment.cid H = cid := by
  rw [RemoteReplica.authorizeAndPin] at h
  split_ifs at h with hauth hvis
  · simp at h
  · simp at h
  · rcases r.store.put_cases (H := H) (E := E) backend segment with ⟨err, hput⟩ | ⟨hverify, hput⟩
    · simp [hput] at h
    · rw [hput] at h
      obtain ⟨err, hpin⟩ | ⟨_, hpin⟩ := ContentStore.pin_cases
        ⟨r.store.held.insertIfNew (segment.cid H) segment, r.store.pinned, r.store.dht,
          r.store.heads⟩ backend (segment.cid H)
      · simp [hpin] at h
      · simp only [hpin, Prod.mk.injEq, Except.ok.injEq] at h
        obtain ⟨rfl, rfl⟩ := h
        exact ⟨by simpa using hauth, not_not.1 hvis, hverify, rfl⟩

/-- **A replica pins what the trusting owner authorised.** -/
theorem pinned_as_granted
    (hunforgeable : ∀ remote epoch signature,
      Pillar.verify E owner (grantSigningMaterial owner remote epoch) signature = .ok () →
        sign E secret (grantSigningMaterial owner remote epoch) = .ok signature)
    (calls : List Call) :
    (∀ (r r' : RemoteReplica) (backend : Option Backend) (g : ReplicationGrant)
        (segment : SignedSegment) (cid : Cid),
      r.authorizeAndPin H E backend (exec (step E) (.new owner secret) calls) g segment =
        (r', .ok cid) →
      (segment.verify E = .ok () ∧ segment.visibility = .cell ∧ segment.cid H = cid) ∧
        (segment.signer = owner →
          verifySigned E owner (segmentSigningMaterial segment.bytes) segment.signature = .ok ()) ∧
        ∃ p q, calls = p ++ .grant g.remote :: q ∧ .revoke g.remote ∉ q ∧
          ((exec (step E) (.new owner secret) p).grant E g.remote).2 = .ok g) ∧
      ∀ (p q q' : List Call) (remote : Bytes) (old : ReplicationGrant),
        calls = p ++ .grant remote :: (q ++ .revoke remote :: q') →
        ((exec (step E) (.new owner secret) p).grant E remote).2 = .ok old →
        (exec (step E) (.new owner secret) calls).authorizes E old = false := by
  constructor
  · intro r r' backend g segment cid h
    obtain ⟨hauth, hvis, hverify, hcid⟩ := authorizeAndPin_eq_ok h
    obtain ⟨hsigned, howner, hlive, hepoch⟩ := authorizes_iff.1 hauth
    rw [(keys_exec calls).1] at howner
    refine ⟨⟨hverify, hvis, hcid⟩, fun hsigner => hsigner ▸ hverify, ?_⟩
    obtain ⟨p, q, hcalls, hq, hnext⟩ := exists_grant hepoch hlive
    refine ⟨p, q, hcalls, hq, ?_⟩
    obtain ⟨gowner, gremote, gepoch, signature⟩ := g
    subst howner
    simp [ReplicationTrust.grant, ReplicationGrant.author, keys_exec p, hnext,
      hunforgeable _ _ _ hsigned, Except.map]
  · rintro p q q' remote old rfl hmint
    rw [exec_append]
    exact (spent_of_revoke hmint q q').not_authorizes

def ownerPk : Bytes := List.replicate 32 1

def otherPk : Bytes := List.replicate 32 2

def remotePk : Bytes := List.replicate 32 3

def report (signer : Bytes) : SignedSegment :=
  ⟨utf8 "report", signer, plainEd25519.sign signer (segmentSigningMaterial (utf8 "report")), .cell⟩

def granted (epoch : Epoch) : ReplicationGrant :=
  ⟨ownerPk, remotePk, epoch, plainEd25519.sign ownerPk (grantSigningMaterial ownerPk remotePk epoch)⟩

/-- The remote is trusted, revoked and trusted again. -/
def regranting : List Call := [.grant remotePk, .revoke remotePk, .grant remotePk]

def atRemote (signer : Bytes) (epoch : Epoch) : RemoteReplica × Except ReplicationError Cid :=
  RemoteReplica.authorizeAndPin tailDigest plainEd25519 ⟨.new, ∅⟩ none
    (exec (step plainEd25519) (.new ownerPk ownerPk) regranting) (granted epoch) (report signer)

theorem report_pinned :
    (∃ cid, (atRemote ownerPk 1).2 = .ok cid ∧ (report ownerPk).cid tailDigest = cid ∧
      verifySigned plainEd25519 ownerPk (segmentSigningMaterial (report ownerPk).bytes)
        (report ownerPk).signature = .ok () ∧
      ∃ p q, regranting = p ++ .grant remotePk :: q ∧ .revoke remotePk ∉ q) ∧
    (exec (step plainEd25519) (.new ownerPk ownerPk) regranting).authorizes plainEd25519
      (granted 0) = false := by
  have hunforgeable (remote : Bytes) (epoch : Epoch) (signature : Bytes)
      (h : Pillar.verify plainEd25519 ownerPk (grantSigningMaterial ownerPk remote epoch) signature =
        .ok ()) :
      sign plainEd25519 ownerPk (grantSigningMaterial ownerPk remote epoch) = .ok signature := by
    simp only [Pillar.verify, plainEd25519, decide_eq_true_eq] at h
    split_ifs at h with hsig
    simp [sign, plainEd25519, hsig, ownerPk]
  have hgranted := pinned_as_granted (H := tailDigest) hunforgeable regranting
  have hpin : atRemote ownerPk 1 = ((atRemote ownerPk 1).1, .ok ((report ownerPk).cid tailDigest)) :=
    Prod.ext rfl (by decide +kernel)
  obtain ⟨⟨_, _, hcid⟩, hsigned, p, q, hp, hq, _⟩ :=
    hgranted.1 _ _ none (granted 1) (report ownerPk) _ hpin
  exact ⟨⟨_, congrArg Prod.snd hpin, hcid, hsigned rfl, p, q, hp, hq⟩,
    hgranted.2 [] [] [.grant remotePk] remotePk (granted 0) rfl (by decide +kernel)⟩

/-- With a grant in force, a segment another key signed is pinned as well. -/
theorem others_report_pinned :
    (atRemote otherPk 1).2 = .ok ((report otherPk).cid tailDigest) ∧
      (report otherPk).verify plainEd25519 = .ok () ∧ (report otherPk).signer ≠ ownerPk := by
  decide +kernel

end Pillar.GeoReplication
