import Pillar.Core
import Pillar.Lib.Writers

/-!
# Content addresses

`pillar-crypto`'s content addressing. The digest, SHA2-256, is a parameter `H`; the multihash
around it is written out.
-/

namespace Pillar

open Std Lib.Compare Lib.Writers

/-- A content address: the multihash bytes. -/
@[ext] structure ContentId where
  bytes : Bytes
  deriving DecidableEq

namespace ContentId

instance : Ord ContentId := ⟨fun a b => compare a.bytes b.bytes⟩

theorem compare_def (a b : ContentId) : compare a b = compare a.bytes b.bytes := rfl

instance : TransOrd ContentId where
  eq_swap := by
    intro a b
    rw [compare_def, compare_def]
    exact OrientedOrd.eq_swap
  isLE_trans := by
    intro a b c hab hbc
    rw [compare_def] at hab hbc ⊢
    exact TransCmp.isLE_trans hab hbc

instance : LawfulEqOrd ContentId where
  compare_self := by
    intro a
    rw [compare_def]
    exact ReflCmp.compare_self
  eq_of_compare := by
    intro a b h
    rw [compare_def] at h
    exact ContentId.ext (LawfulEqCmp.eq_of_compare h)

instance : LinearOrder ContentId := linearOrderOfOrd ContentId

end ContentId

/-- The content address of a byte string: the multihash code and length of
SHA2-256, then the digest `H`. -/
def contentAddress (H : Bytes → Bytes) (bytes : Bytes) : ContentId := ⟨0x12 :: 0x20 :: H bytes⟩

/-- Distinct inputs have distinct digests, as the contract of `content_address`
states. -/
def CollisionFree (H : Bytes → Bytes) : Prop := Function.Injective H

theorem contentAddress_injective {H : Bytes → Bytes} (hH : CollisionFree H) :
    Function.Injective (contentAddress H) := by
  intro a b hab
  have hbytes : (0x12 :: 0x20 :: H a : Bytes) = 0x12 :: 0x20 :: H b := congrArg ContentId.bytes hab
  simp only [List.cons.injEq, true_and] at hbytes
  exact hH hbytes

/-! ## Digests of known inputs

To evaluate a model on a concrete input, the digests of the byte strings it
addresses are tabulated. -/

/-- A tabulated digest. Any other input goes, injectively, to a byte string that
is longer than a digest. -/
def tableDigest (table : List (Bytes × Bytes)) (b : Bytes) : Bytes :=
  match table.lookup b with
  | some digest => digest
  | none => List.replicate 33 0 ++ b

theorem tableDigest_collisionFree {table : List (Bytes × Bytes)}
    (hlen : ∀ e ∈ table, e.2.length = 32)
    (hinj : ∀ e ∈ table, ∀ e' ∈ table, e.2 = e'.2 → e.1 = e'.1) :
    CollisionFree (tableDigest table) := by
  have hlong : ∀ b digest c, table.lookup b = some digest → digest ≠ List.replicate 33 0 ++ c := by
    rintro b digest c hb rfl
    have := hlen _ (mem_of_lookup_eq_some hb)
    simp at this
  intro a b h
  rw [tableDigest, tableDigest] at h
  cases ha : table.lookup a with
  | some d =>
    cases hb : table.lookup b with
    | some d' =>
      rw [ha, hb] at h
      exact hinj _ (mem_of_lookup_eq_some ha) _ (mem_of_lookup_eq_some hb) h
    | none =>
      rw [ha, hb] at h
      exact absurd h (hlong a d b ha)
  | none =>
    cases hb : table.lookup b with
    | some d' =>
      rw [ha, hb] at h
      exact absurd h.symm (hlong b d' a hb)
    | none =>
      rw [ha, hb] at h
      exact List.append_cancel_left h

theorem tableDigest_nil_collisionFree : CollisionFree (tableDigest []) :=
  tableDigest_collisionFree (by simp) (by simp)

/-! ## Signatures

`pillar-crypto`'s `sign` module: what it adds to the ed25519 of a crate outside the repository,
which is a parameter. -/

structure Ed25519 where
  verifyingKey : Bytes → Bytes
  /-- The signature of a message under a 32-byte secret. -/
  sign : Bytes → Bytes → Bytes
  /-- Whether a 64-byte signature of a message verifies under a 32-byte key. -/
  verify : Bytes → Bytes → Bytes → Bool

structure Ed25519.Correct (E : Ed25519) : Prop where
  length_verifyingKey : ∀ secret : Bytes, secret.length = 32 → (E.verifyingKey secret).length = 32
  length_sign : ∀ secret message : Bytes, secret.length = 32 → (E.sign secret message).length = 64
  verify_sign : ∀ secret message : Bytes, secret.length = 32 →
    E.verify (E.verifyingKey secret) message (E.sign secret message) = true

/-- The failures of the operations modelled here. -/
inductive CryptoError where
  | invalidKey
  | verificationFailed
  deriving DecidableEq

/-- The secret derived from seed material, separated by domain. -/
def ed25519SecretBytes (H : Bytes → Bytes) (seed : Bytes) : Bytes :=
  H (utf8 "pillar-crypto/sign/ed25519/seed-v1" ++ seed)

def signingKeypairFromSeed (H : Bytes → Bytes) (E : Ed25519) (seed : Bytes) : Bytes × Bytes :=
  (E.verifyingKey (ed25519SecretBytes H seed), ed25519SecretBytes H seed)

def sign (E : Ed25519) (secret message : Bytes) : Except CryptoError Bytes :=
  if secret.length = 32 then .ok (E.sign secret message) else .error .invalidKey

def verify (E : Ed25519) (pk message signature : Bytes) : Except CryptoError Unit :=
  if pk.length = 32 ∧ signature.length = 64 ∧ E.verify pk message signature = true then .ok ()
  else .error .verificationFailed

/-! ## Keys and signatures of known inputs -/

/-- A tabulated scheme: secrets with their verifying key and the messages they
have signed. -/
def tableEd25519 (table : List (Bytes × Bytes × List (Bytes × Bytes))) : Ed25519 where
  verifyingKey secret := ((table.lookup secret).map Prod.fst).getD []
  sign secret message := ((table.lookup secret).bind fun e => e.2.lookup message).getD []
  verify pk message signature :=
    table.any fun e => e.2.1 = pk && e.2.2.contains (message, signature)

/-- A scheme that hides nothing: the verifying key is the secret, and a signature starts with it. -/
def plainEd25519 : Ed25519 where
  verifyingKey secret := secret
  sign secret message := (secret ++ message ++ List.replicate 64 0).take 64
  verify pk message signature :=
    decide (signature = (pk ++ message ++ List.replicate 64 0).take 64)

theorem plainEd25519_correct : plainEd25519.Correct where
  length_verifyingKey _ h := h
  length_sign secret message _ := by
    simp only [plainEd25519, List.length_take, List.length_append, List.length_replicate]
    omega
  verify_sign secret message _ := by simp [plainEd25519]

/-- A digest of 32 bytes: the last ones of its input. -/
def tailDigest (b : Bytes) : Bytes := (b.reverse ++ List.replicate 32 0).take 32

theorem length_tailDigest (b : Bytes) : (tailDigest b).length = 32 := by
  simp [tailDigest]

/-! ## Version stamps

`pillar-crypto`'s per-surface version stamp and the bounds check a reader makes. -/

/-- The version number of one surface. -/
structure SurfaceVersion where
  val : UInt16
  deriving DecidableEq

/-- The two ways reading a stamped surface can fail. -/
inductive VersionError where
  | malformed
  /-- A legible version outside the supported range. -/
  | unsupported (found min max : SurfaceVersion)
  deriving DecidableEq

/-- The stamp as two bytes, the high one first. -/
def SurfaceVersion.toBeBytes (self : SurfaceVersion) : Bytes :=
  [(self.val >>> 8).toUInt8, self.val.toUInt8]

def SurfaceVersion.fromBeBytes : Bytes → Except VersionError SurfaceVersion
  | high :: low :: _ => .ok ⟨high.toUInt16 <<< 8 ||| low.toUInt16⟩
  | _ => .error .malformed

/-- Whether this build can interpret the stamp, given the range it supports. -/
def SurfaceVersion.checkSupported (self min max : SurfaceVersion) : Except VersionError Unit :=
  if self.val < min.val ∨ self.val > max.val then .error (.unsupported self min max) else .ok ()

end Pillar
