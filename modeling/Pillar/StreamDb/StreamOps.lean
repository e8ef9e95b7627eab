import Pillar.Wire.Envelope

/-!
# Stream ops as messages

`pillar-streamdb`'s `seal_stream_op` and `open_stream_op`: an op travels as the body of a signed
message, sealed to the cell or in the clear.

* `opened_as_sealed` — **an op that opens was sealed by its author**, in that class; and always
  under that header precisely when the author seals everything to the cell.
-/

namespace Pillar.StreamDb

open Wire

inductive Confidentiality where
  | cellEncrypted
  | public_
  deriving DecidableEq

inductive Body where
  | streamOp (payload : Bytes)
  | signal (payload : Bytes)
  | control (payload : Bytes)
  | controlOp (payload : Bytes)
  | queryOp (payload : Bytes)
  deriving DecidableEq

inductive StreamOpMessageError where
  | notAStreamOp
  | envelope (err : EnvelopeError)
  | crypto (err : CryptoError)
  | missingGroupKey
  deriving DecidableEq

/-- What is used of other crates: the convergent seal, by group key, and CBOR. -/
structure Codec where
  /-- Key, plaintext, domain and associated data. -/
  cellSealConvergent : Bytes → Bytes → Bytes → Bytes → Except CryptoError Bytes
  /-- Key, ciphertext and associated data. -/
  cellOpenConvergent : Bytes → Bytes → Bytes → Except CryptoError Bytes
  toCanonicalCbor : Body → Bytes
  fromCanonicalCbor : Bytes → Option Body

/-- The ideal seal and an injective encoding. -/
structure Codec.Ideal (C : Codec) : Prop where
  decode_encode : ∀ b, C.fromCanonicalCbor (C.toCanonicalCbor b) = some b
  /-- A ciphertext opens to what was sealed, with its own associated data, or not at all. -/
  binds : ∀ key plain domain aad ct, C.cellSealConvergent key plain domain aad = .ok ct →
    ∀ key' aad' plain', C.cellOpenConvergent key' ct aad' = .ok plain' → aad' = aad ∧ plain' = plain
  /-- A ciphertext is no body in the clear. -/
  apart : ∀ key plain domain aad ct, C.cellSealConvergent key plain domain aad = .ok ct →
    C.fromCanonicalCbor ct = none
  /-- A body in the clear does not open. -/
  clear : ∀ b key aad plain, C.cellOpenConvergent key (C.toCanonicalCbor b) aad ≠ .ok plain

def streamOpSealDomain : Bytes := utf8 "pillar-streamdb/stream-op-v1"

def headerAad (visibility : Visibility) (cell : Bytes) : Bytes := visibility.toU8 :: cell

def signingMaterial (bodySealed : Bytes) : Bytes :=
  utf8 "pillar-wire/pillar-message/signature-v1" ++ bodySealed

/-- What the author of an op asks for. -/
structure SealCall where
  payload : Bytes
  group : Option Bytes
  cell : Bytes
  visibility : Visibility
  confidentiality : Confidentiality
  deriving DecidableEq

variable (E : Ed25519) (C : Codec)

def sealBody (c : SealCall) : Except StreamOpMessageError Bytes :=
  let plaintext := C.toCanonicalCbor (.streamOp c.payload)
  match c.confidentiality with
  | .public_ => .ok plaintext
  | .cellEncrypted =>
    match c.group with
    | none => .error .missingGroupKey
    | some group => (C.cellSealConvergent group plaintext streamOpSealDomain
        (headerAad c.visibility c.cell)).mapError .crypto

def sealStreamOp (c : SealCall) (signer secret : Bytes) :
    Except StreamOpMessageError PillarMessage := do
  let bodySealed ← sealBody C c
  let signature ← (sign E secret (signingMaterial bodySealed)).mapError .crypto
  return .new signer signature c.visibility c.cell bodySealed

def openBody (msg : PillarMessage) (group : Option Bytes) :
    Confidentiality → Except StreamOpMessageError Bytes
  | .public_ => .ok msg.bodySealed
  | .cellEncrypted =>
    match group with
    | none => .error .missingGroupKey
    | some group => (C.cellOpenConvergent group msg.bodySealed
        (headerAad msg.visibility msg.cell)).mapError .crypto

def openStreamOp (msg : PillarMessage) (group : Option Bytes) (confidentiality : Confidentiality) :
    Except StreamOpMessageError Bytes :=
  match verify E msg.signer (signingMaterial msg.bodySealed) msg.signature with
  | .error err => .error (.crypto err)
  | .ok () =>
    match openBody C msg group confidentiality with
    | .error err => .error err
    | .ok plaintext =>
      match C.fromCanonicalCbor plaintext with
      | none => .error (.envelope .malformed)
      | some (.streamOp payload) => .ok payload
      | some _ => .error .notAStreamOp

variable {E C} {msg : PillarMessage} {group : Option Bytes} {class_ : Confidentiality}
  {payload : Bytes}

theorem openStreamOp_eq_ok_iff : openStreamOp E C msg group class_ = .ok payload ↔
    verify E msg.signer (signingMaterial msg.bodySealed) msg.signature = .ok () ∧
      ∃ plaintext, openBody C msg group class_ = .ok plaintext ∧
        C.fromCanonicalCbor plaintext = some (.streamOp payload) := by
  rw [openStreamOp]
  split
  · simp_all
  · split
    · simp_all
    · split <;> simp_all

theorem open_sealBody (hC : C.Ideal) {c : SealCall} (hseal : sealBody C c = .ok msg.bodySealed)
    {plaintext : Bytes} (hopen : openBody C msg group class_ = .ok plaintext)
    (hbody : C.fromCanonicalCbor plaintext = some (.streamOp payload)) :
    c.payload = payload ∧ c.confidentiality = class_ ∧
      (class_ = .cellEncrypted → c.cell = msg.cell ∧ c.visibility = msg.visibility) := by
  have hpayload : plaintext = C.toCanonicalCbor (.streamOp c.payload) → c.payload = payload := by
    rintro rfl
    rw [hC.decode_encode] at hbody
    exact Body.streamOp.inj (Option.some.inj hbody)
  obtain ⟨p, g, cell, visibility, confidentiality⟩ := c
  cases confidentiality with
  | public_ =>
    have hclear : C.toCanonicalCbor (.streamOp p) = msg.bodySealed := Except.ok.inj hseal
    cases class_ with
    | public_ => exact ⟨hpayload (Except.ok.inj hopen ▸ hclear.symm), rfl, nofun⟩
    | cellEncrypted =>
      cases group with
      | none => cases hopen
      | some key =>
        rw [openBody, ← hclear, mapError_eq_ok_iff] at hopen
        exact absurd hopen (hC.clear _ _ _ _)
  | cellEncrypted =>
    cases g with
    | none => cases hseal
    | some g =>
      simp only [sealBody, mapError_eq_ok_iff] at hseal
      cases class_ with
      | public_ =>
        rw [← Except.ok.inj hopen, hC.apart _ _ _ _ _ hseal] at hbody
        cases hbody
      | cellEncrypted =>
        cases group with
        | none => cases hopen
        | some key =>
          rw [openBody, mapError_eq_ok_iff] at hopen
          obtain ⟨haad, hplain⟩ := hC.binds _ _ _ _ _ hseal _ _ _ hopen
          obtain ⟨hvisibility, hcell⟩ := List.cons.inj haad
          refine ⟨hpayload hplain, rfl, fun _ => ⟨hcell.symm, ?_⟩⟩
          have hread := Visibility.fromU8_eq_some_iff.2 hvisibility
          rw [Visibility.fromU8_eq_some_iff.2 rfl] at hread
          exact (Option.some.inj hread).symm

/-- **A public op opens under any header.** -/
theorem open_relabelled (hC : C.Ideal) {c : SealCall} (hpublic : c.confidentiality = .public_)
    {body author signature : Bytes} (hseal : sealBody C c = .ok body)
    (hverify : verify E author (signingMaterial body) signature = .ok ()) (visibility : Visibility)
    (cell : Bytes) : openStreamOp E C (.new author signature visibility cell body) none .public_ =
      .ok c.payload := by
  rw [sealBody, hpublic] at hseal
  refine openStreamOp_eq_ok_iff.2 ⟨hverify, body, rfl, ?_⟩
  rw [← Except.ok.inj hseal, hC.decode_encode]

variable (E C) in
/-- What opens in the author's name was sealed by one of the calls, with this relation to the
message and its class. -/
def OpensAs (author : Bytes) (calls : Set SealCall)
    (rel : SealCall → PillarMessage → Confidentiality → Prop) : Prop :=
  ∀ msg group class_ payload, msg.signer = author →
    openStreamOp E C msg group class_ = .ok payload →
      ∃ c ∈ calls, c.payload = payload ∧ c.confidentiality = class_ ∧ rel c msg class_

/-- **An op that opens was sealed by its author**, and always under that header precisely when the
author seals nothing in the clear. -/
theorem opened_as_sealed (hC : C.Ideal) {author : Bytes} {calls : Set SealCall}
    (hfinite : calls.Finite)
    (hsigned : ∀ body, (∃ signature, verify E author (signingMaterial body) signature = .ok ()) ↔
      ∃ c ∈ calls, sealBody C c = .ok body) :
    (OpensAs E C author calls fun c msg class_ =>
        class_ = .cellEncrypted → c.cell = msg.cell ∧ c.visibility = msg.visibility) ∧
      ((OpensAs E C author calls fun c msg _ => c.cell = msg.cell ∧ c.visibility = msg.visibility) ↔
        ∀ c ∈ calls, c.confidentiality = .cellEncrypted) := by
  have hopened : OpensAs E C author calls fun c msg class_ =>
      class_ = .cellEncrypted → c.cell = msg.cell ∧ c.visibility = msg.visibility := by
    intro msg group class_ payload hsigner hopen
    obtain ⟨hverify, plaintext, hplain, hbody⟩ := openStreamOp_eq_ok_iff.1 hopen
    obtain ⟨c, hc, hseal⟩ := (hsigned _).1 ⟨_, hsigner ▸ hverify⟩
    exact ⟨c, hc, open_sealBody hC hseal hplain hbody⟩
  refine ⟨hopened, fun h c hc => ?_, fun hall msg group class_ payload hsigner hopen => ?_⟩
  · cases hclass : c.confidentiality with
    | cellEncrypted => rfl
    | public_ =>
      -- the op is sent on to a cell that no call has named
      have hseal : sealBody C c = .ok (C.toCanonicalCbor (.streamOp c.payload)) := by
        rw [sealBody, hclass]
      obtain ⟨signature, hverify⟩ := (hsigned _).2 ⟨c, hc, hseal⟩
      obtain ⟨cell, hcell⟩ := (hfinite.image SealCall.cell).exists_notMem
      obtain ⟨c', hc', -, -, hsame, -⟩ :=
        h _ _ _ _ rfl (open_relabelled hC hclass hseal hverify c.visibility cell)
      exact absurd ⟨c', hc', hsame⟩ hcell
  · obtain ⟨c, hc, hpayload, rfl, hheader⟩ := hopened msg group class_ payload hsigner hopen
    exact ⟨c, hc, hpayload, rfl, hheader (hall c hc)⟩

/-! ## One op of each class -/

def opCell : Bytes := utf8 "cell-a"

def opOf (class_ : Confidentiality) : SealCall := ⟨[1, 2], some [9], opCell, .cell, class_⟩

/-- A seal that is used once, and bodies behind a byte for their kind. -/
def oneSeal : Codec where
  cellSealConvergent key plain domain aad :=
    if key = [9] ∧ plain = [0, 1, 2] ∧ domain = streamOpSealDomain ∧ aad = headerAad .cell opCell
    then .ok [255] else .error .invalidKey
  cellOpenConvergent key ct aad :=
    if key = [9] ∧ ct = [255] ∧ aad = headerAad .cell opCell then .ok [0, 1, 2]
    else .error .verificationFailed
  toCanonicalCbor
    | .streamOp b => 0 :: b
    | .signal b => 1 :: b
    | .control b => 2 :: b
    | .controlOp b => 3 :: b
    | .queryOp b => 4 :: b
  fromCanonicalCbor
    | 0 :: b => some (.streamOp b)
    | 1 :: b => some (.signal b)
    | 2 :: b => some (.control b)
    | 3 :: b => some (.controlOp b)
    | 4 :: b => some (.queryOp b)
    | _ => none

theorem oneSeal_ideal : oneSeal.Ideal where
  decode_encode b := by cases b <;> rfl
  binds key plain domain aad ct hseal key' aad' plain' hopen := by
    simp only [oneSeal] at hseal hopen
    split_ifs at hseal with hs
    split_ifs at hopen with ho
    exact ⟨ho.2.2.trans hs.2.2.2.symm, (Except.ok.inj hopen).symm.trans hs.2.1.symm⟩
  apart key plain domain aad ct hseal := by
    simp only [oneSeal] at hseal
    split_ifs at hseal
    obtain rfl := Except.ok.inj hseal
    rfl
  clear b key aad plain := by
    cases b <;> simp [oneSeal]

def opSecret : Bytes := List.replicate 32 3

def opAuthor : Bytes := List.replicate 32 4

def opBody (class_ : Confidentiality) : Bytes :=
  (sealBody oneSeal (opOf class_)).toOption.getD []

/-- The author signs the one body that a call seals. -/
def opScheme (class_ : Confidentiality) : Ed25519 :=
  tableEd25519 [(opSecret, opAuthor, [(signingMaterial (opBody class_), List.replicate 64 5)])]

def sent (class_ : Confidentiality) : PillarMessage :=
  .new opAuthor (List.replicate 64 5) .cell opCell (opBody class_)

theorem sent_opens :
    sealStreamOp (opScheme .cellEncrypted) oneSeal (opOf .cellEncrypted) opAuthor opSecret =
        .ok (sent .cellEncrypted) ∧
      ∃ c ∈ ({opOf .cellEncrypted} : Set SealCall), c.payload = [1, 2] ∧
        c.confidentiality = .cellEncrypted ∧ c.cell = opCell ∧ c.visibility = .cell := by
  have hsealed : sealBody oneSeal (opOf .cellEncrypted) = .ok [255] := by decide +kernel
  have hsigned : ∀ body, (∃ signature, verify (opScheme .cellEncrypted) opAuthor
      (signingMaterial body) signature = .ok ()) ↔
      ∃ c ∈ ({opOf .cellEncrypted} : Set SealCall), sealBody oneSeal c = .ok body := by
    intro body
    constructor
    · rintro ⟨signature, hverify⟩
      simp [verify, opScheme, tableEd25519, signingMaterial, opBody, hsealed, Except.toOption]
        at hverify
      exact ⟨_, rfl, hverify.2.2.1 ▸ hsealed⟩
    · rintro ⟨c, rfl, hseal⟩
      obtain rfl := Except.ok.inj (hsealed.symm.trans hseal)
      exact ⟨List.replicate 64 5, by decide +kernel⟩
  have hopen : openStreamOp (opScheme .cellEncrypted) oneSeal (sent .cellEncrypted) (some [9])
      .cellEncrypted = .ok [1, 2] := by decide +kernel
  refine ⟨by decide +kernel,
    ((opened_as_sealed oneSeal_ideal (Set.finite_singleton _) hsigned).2.2 ?_) _ _ _ _ rfl hopen⟩
  rintro c rfl
  rfl

/-- A public op of one cell is taken for a public anchor of another. -/
def relabelled : PillarMessage :=
  { sent .public_ with cell := utf8 "cell-b", visibility := .publicAnchor }

theorem header_changed_in_transit :
    sealStreamOp (opScheme .public_) oneSeal (opOf .public_) opAuthor opSecret =
        .ok (sent .public_) ∧
      openStreamOp (opScheme .public_) oneSeal relabelled none .public_ = .ok [1, 2] ∧
      (opOf .public_).cell ≠ relabelled.cell ∧
      (opOf .public_).visibility ≠ relabelled.visibility := by
  decide +kernel

end Pillar.StreamDb
