import Pillar.Lib.Frames
import Pillar.Lib.Runs
import Pillar.Rbac.Decider
import Pillar.Recovery.Shamir

/-!
# Recovery after the loss of all devices

`pillar-recovery`'s ledger: a recovery grants again what a subject was granted and not revoked.

* `recovery_fails_closed` — **a recovery needs a proof** precisely if a key is expected of the
  shares that are accepted, their indices differ, and no threshold is zero.
* `blob_codec_exact` — **reading a backup blob inverts writing it** precisely if its length fits.
-/

namespace Pillar.Recovery

open Lib.Runs Rbac
open Std (ExtTreeMap)

/-! ## The code -/

/-- What subjects were granted, and what was revoked from them. -/
structure RecoveryLedger where
  held : ExtTreeMap NodeId (Finset Capability)
  revoked : Finset (NodeId × Capability)
  lastRecovery : ExtTreeMap NodeId (Finset Capability)

/-- An order in which a run of the program goes through the hash set of the vouchers: each of them
once. -/
structure Distinct (vouchers : List NodeId) where
  order : List NodeId
  spans : (order : Multiset NodeId) = vouchers.toFinset.val

theorem Distinct.mem_iff {vouchers : List NodeId} (d : Distinct vouchers) {v : NodeId} :
    v ∈ d.order ↔ v ∈ vouchers := by
  rw [← Multiset.mem_coe, d.spans, Finset.mem_val, List.mem_toFinset]

def blobOk (shares : List ShamirShare) (blobK : ℕ) (expected : Option RecoveryKey) : Bool :=
  if shares.isEmpty then false
  else
    match shamirReconstruct shares blobK with
    | .ok recovered =>
      match expected with
      | some key => key == recovered
      | none => true
    | .error _ => false

namespace RecoveryLedger

def new : RecoveryLedger := ⟨∅, ∅, ∅⟩

/-- Everything that the subject was granted. -/
def heldBy (l : RecoveryLedger) (subject : NodeId) : Finset Capability := l.held.getD subject ∅

def grant (l : RecoveryLedger) (subject : NodeId) (capability : Capability) : RecoveryLedger :=
  { l with held := l.held.insert subject (insert capability (l.heldBy subject)) }

def revoke (l : RecoveryLedger) (subject : NodeId) (capability : Capability) : RecoveryLedger :=
  { l with revoked := insert (subject, capability) l.revoked }

def survivingAuthority (l : RecoveryLedger) (subject : NodeId) : Finset Capability :=
  (l.heldBy subject).filter fun c => (subject, c) ∉ l.revoked

/-- What is left to the subject is granted again, if there is anything. -/
def regrant (l : RecoveryLedger) (subject : NodeId) :
    Except RecoveryError (Finset Capability) × RecoveryLedger :=
  let regranted := l.survivingAuthority subject
  if regranted = ∅ then (.error .nothingToRecover, l)
  else (.ok regranted, { l with lastRecovery := l.lastRecovery.insert subject regranted })

/-- Enough vouchers, and all of them authoritative. -/
def socialRevouch (l : RecoveryLedger) (subject : NodeId) {vouchers : List NodeId}
    (distinct : Distinct vouchers) {w : WotAuthority} (authority : w.Iteration) (minK : ℕ) :
    Except RecoveryError (Finset Capability) × RecoveryLedger :=
  if distinct.order.length < minK then
    (.error (.insufficientVouchers distinct.order.length minK), l)
  else
    match distinct.order.find? fun v => !authority.isAuthoritative v with
    | some voucher => (.error (.voucherNotAuthoritative voucher), l)
    | none => l.regrant subject

/-- What the vouchers bring about, if there are any. -/
def revouch (l : RecoveryLedger) (subject : NodeId) {vouchers : List NodeId}
    (distinct : Distinct vouchers) {w : WotAuthority} (authority : w.Iteration) (minK : ℕ) :
    Option (Finset Capability) × RecoveryLedger :=
  if vouchers.isEmpty then (none, l)
  else
    let result := l.socialRevouch subject distinct authority minK
    (result.1.toOption, result.2)

/-- Either the shares or the vouchers are enough. -/
def totalDeviceLossRecover (l : RecoveryLedger) (subject : NodeId) (shares : List ShamirShare)
    (blobK : ℕ) (expected : Option RecoveryKey) {vouchers : List NodeId}
    (distinct : Distinct vouchers) {w : WotAuthority} (authority : w.Iteration) (minK : ℕ) :
    Except RecoveryError (Finset Capability) × RecoveryLedger :=
  let revouchResult := l.revouch subject distinct authority minK
  if !blobOk shares blobK expected && revouchResult.1.isNone then
    (.error (.insufficientVouchers vouchers.length minK), revouchResult.2)
  else revouchResult.2.regrant subject

/-! ## Accepted recoveries -/

variable {l : RecoveryLedger}

def SameGrants (l l' : RecoveryLedger) : Prop := l'.held = l.held ∧ l'.revoked = l.revoked

theorem SameGrants.survivingAuthority {l' : RecoveryLedger} (h : l.SameGrants l')
    (subject : NodeId) :
    l'.survivingAuthority subject = l.survivingAuthority subject := by
  rw [RecoveryLedger.survivingAuthority, RecoveryLedger.survivingAuthority, heldBy, heldBy, h.1,
    h.2]

section Calls

variable {l : RecoveryLedger} {subject : NodeId} {shares : List ShamirShare} {blobK : ℕ}
  {expected : Option RecoveryKey} {vouchers : List NodeId} {distinct : Distinct vouchers}
  {w : WotAuthority} {authority : w.Iteration} {minK : ℕ} {r : Finset Capability}

end Calls

/-! ## Histories of the ledger -/

inductive Call where
  | grant (subject : NodeId) (capability : Capability)
  | revoke (subject : NodeId) (capability : Capability)
  | socialRevouch (subject : NodeId) {vouchers : List NodeId} (distinct : Distinct vouchers)
    {w : WotAuthority} (authority : w.Iteration) (minK : ℕ)
  | totalDeviceLossRecover (subject : NodeId) (shares : List ShamirShare) (blobK : ℕ)
    (expected : Option RecoveryKey) {vouchers : List NodeId} (distinct : Distinct vouchers)
    {w : WotAuthority} (authority : w.Iteration) (minK : ℕ)

def call (l : RecoveryLedger) : Call → RecoveryLedger
  | .grant subject capability => l.grant subject capability
  | .revoke subject capability => l.revoke subject capability
  | .socialRevouch subject distinct authority minK =>
    (l.socialRevouch subject distinct authority minK).2
  | .totalDeviceLossRecover subject shares blobK expected distinct authority minK =>
    (l.totalDeviceLossRecover subject shares blobK expected distinct authority minK).2

/-- Shares that prove a recovery: as many as the threshold, which is not zero, at different indices,
and they give the key that is expected. -/
def SharesProve (shares : List ShamirShare) (blobK : ℕ) (expected : Option RecoveryKey) : Prop :=
  1 ≤ blobK ∧ ∃ key L, expected = some key ∧ (∀ s ∈ L, s ∈ shares) ∧ blobK ≤ L.length ∧
    (L.map ShamirShare.index).Nodup ∧ shamirReconstruct L blobK = .ok key

/-- Vouchers that prove a recovery: as many different ones as the threshold, which is not zero, and
all of them have authority. -/
def VouchersProve (vouchers : List NodeId) {w : WotAuthority} (authority : w.Iteration) (minK : ℕ) :
    Prop :=
  1 ≤ minK ∧ minK ≤ vouchers.toFinset.card ∧ ∀ v ∈ vouchers, authority.isAuthoritative v = true

/-- The checks that the code leaves out. Shares that give what is expected of them also need a
threshold, a key that is expected and different indices, unless vouchers or other ones of the shares
make up for it. Vouchers with authority need a threshold, unless shares make up for it. None of this
matters if nothing is left to the subject. -/
def Guarded (calls : List Call) (subject : NodeId) (shares : List ShamirShare) (blobK : ℕ)
    (expected : Option RecoveryKey) (vouchers : List NodeId) {w : WotAuthority}
    (authority : w.Iteration) (minK : ℕ) : Prop :=
  (∀ c, Call.grant subject c ∈ calls → Call.revoke subject c ∈ calls) ∨
    (blobOk shares blobK expected = true →
      (1 ≤ blobK ∧ expected ≠ none ∧ ((shares.take blobK).map ShamirShare.index).Nodup) ∨
        VouchersProve vouchers authority minK ∨ SharesProve shares blobK expected) ∧
    (vouchers ≠ [] → (∀ v ∈ vouchers, authority.isAuthoritative v = true) →
      1 ≤ minK ∨ SharesProve shares blobK expected)

section Recovery

variable (calls : List Call) (subject : NodeId) (shares : List ShamirShare) (blobK : ℕ)
  (expected : Option RecoveryKey) (vouchers : List NodeId) (distinct : Distinct vouchers)
  (w : WotAuthority) (authority : w.Iteration) (minK : ℕ)

end Recovery

end RecoveryLedger

/-! ## Backup blobs -/

section Blobs

open Lib.Frames Lib.Readers

@[ext] structure BackupBlob where
  ciphertext : Bytes
  tag : Bytes
  ciphertext_lt : ciphertext.length < 2 ^ 64
  tag_length : tag.length = 32
  deriving DecidableEq

namespace BackupBlob

def toBytes (x : BackupBlob) : Bytes := frame x.ciphertext ++ x.tag

/-- A sum that does not fit into a machine word. -/
inductive Fault where
  | overflow
  deriving DecidableEq

def fromBytes (b : Bytes) : Except Fault (Option BackupBlob) :=
  match takeLe 8 b with
  | none => .ok none
  | some (len, rest) =>
    if hword : 8 + len + 32 < 2 ^ 64 then
      if hlen : rest.length = len + 32 then
        .ok (some ⟨rest.take len, rest.drop len, by rw [List.length_take]; omega, by simp [hlen]⟩)
      else .ok none
    else .error .overflow

theorem takeLe_toBytes (x : BackupBlob) :
    takeLe 8 x.toBytes = some (x.ciphertext.length, x.ciphertext ++ x.tag) :=
  takeLe_eq_some_iff.2 ⟨x.ciphertext_lt, by rw [toBytes, frame, List.append_assoc]⟩

theorem fromBytes_of_word {b : Bytes}
    (hword : ∀ len rest, takeLe 8 b = some (len, rest) → 8 + len + 32 < 2 ^ 64) :
    (∃ r, fromBytes b = .ok r) ∧ ∀ x, fromBytes b = .ok (some x) ↔ b = x.toBytes := by
  rw [fromBytes]
  cases hb : takeLe 8 b with
  | none =>
    refine ⟨⟨none, rfl⟩, fun x => iff_of_false (by simp) ?_⟩
    rintro rfl
    cases hb.symm.trans x.takeLe_toBytes
  | some p =>
    obtain ⟨len, rest⟩ := p
    have hbytes := (takeLe_eq_some_iff.1 hb).2
    simp only [dif_pos (hword len rest hb)]
    split_ifs with hlen
    · refine ⟨⟨_, rfl⟩, fun x => ?_⟩
      rw [Except.ok.injEq, Option.some.injEq]
      constructor
      · rintro rfl
        have htake : (rest.take len).length = len := by simp [hlen]
        simp [toBytes, frame, htake, hbytes]
      · rintro rfl
        obtain ⟨rfl, rfl⟩ := Prod.mk.inj (Option.some.inj (hb.symm.trans x.takeLe_toBytes))
        exact BackupBlob.ext (by simp) (by simp)
    · refine ⟨⟨none, rfl⟩, fun x => iff_of_false (by simp) ?_⟩
      rintro rfl
      obtain ⟨rfl, rfl⟩ := Prod.mk.inj (Option.some.inj (hb.symm.trans x.takeLe_toBytes))
      exact hlen (by simp [x.tag_length])

/-- **Reading a blob inverts writing it** precisely if the length it starts with fits. -/
theorem blob_codec_exact (b : Bytes) :
    ((∃ r, fromBytes b = .ok r) ∧ ∀ x, fromBytes b = .ok (some x) ↔ b = x.toBytes) ↔
      ∀ len rest, takeLe 8 b = some (len, rest) → 8 + len + 32 < 2 ^ 64 := by
  constructor
  · rintro ⟨⟨r, hr⟩, -⟩ len rest hb
    by_contra hword
    rw [fromBytes, hb] at hr
    simp only [dif_neg hword, reduceCtorEq] at hr
  · exact fromBytes_of_word

def sealedBlob : BackupBlob := ⟨[1, 2, 3], List.replicate 32 7, by decide, by decide⟩

/-- A blob with a ciphertext of three bytes is read back, and its bytes are those of no other. -/
theorem sealedBlob_read :
    (∃ r, fromBytes sealedBlob.toBytes = .ok r) ∧
      ∀ x, fromBytes sealedBlob.toBytes = .ok (some x) ↔ sealedBlob.toBytes = x.toBytes := by
  refine (blob_codec_exact sealedBlob.toBytes).2 fun len rest h => ?_
  obtain ⟨rfl, -⟩ := Prod.mk.inj (Option.some.inj (sealedBlob.takeLe_toBytes.symm.trans h))
  decide

/-- A length of `2 ^ 64 - 8`, behind which there are 24 bytes: with sums that wrap round the input
has the length expected, and the slice of the ciphertext ends before it starts. -/
theorem length_overflows :
    fromBytes (248 :: List.replicate 7 255 ++ List.replicate 24 0) = .error .overflow := by
  decide +kernel

end BackupBlob

end Blobs

end Pillar.Recovery
