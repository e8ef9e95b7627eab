import Pillar.Crypto
import Pillar.Lib.Delimited
import Pillar.Lib.Frames
import Pillar.Lib.Hex

/-!
# The text of a login token

`pillar-bootstrap`'s login tokens: a payload and a signature over it, both in hex.

* `decode_eq_some_iff` — **what is read is what was written**, if the lengths fit into 32 bits.
-/

namespace Pillar.Bootstrap

open Lib.Hex Lib.Compare Lib.Readers Lib.Delimited

/-! ## Hex -/

/-- The value of a hex digit, in either case. -/
def toDigit (c : Char) : Option ℕ :=
  if '0' ≤ c ∧ c ≤ '9' then some (c.toNat - 48)
  else if 'a' ≤ c ∧ c ≤ 'f' then some (c.toNat - 87)
  else if 'A' ≤ c ∧ c ≤ 'F' then some (c.toNat - 55)
  else none

/-- Bytes from hex. The source reads the bytes of the text; a character outside of ASCII is no
digit, and none of its bytes is. -/
def hexDecode : List Char → Option Bytes
  | [] => some []
  | [_] => none
  | hi :: lo :: rest => do
    let hi ← toDigit hi
    let lo ← toDigit lo
    let rest ← hexDecode rest
    return UInt8.ofNat (16 * hi + lo) :: rest

theorem toDigit_digit : ∀ n < 16, toDigit (digit n) = some n := by decide

theorem hexDecode_hex (b : Bytes) : hexDecode (hex b) = some b := by
  induction b with
  | nil => rfl
  | cons d b ih =>
    have hd := d.toNat_lt
    have hbyte : UInt8.ofNat (16 * (d.toNat / 16) + d.toNat % 16) = d := by
      rw [Nat.div_add_mod, UInt8.ofNat_toNat]
    show hexDecode (digit (d.toNat / 16) :: digit (d.toNat % 16) :: hex b) = some (d :: b)
    rw [hexDecode, toDigit_digit _ (by omega), toDigit_digit _ (by omega), ih]
    exact congrArg (fun d => some (d :: b)) hbyte

/-! ## Payloads -/

structure TokenPayload where
  serial : UInt64
  expiry : UInt64
  user : Str
  domain : Str
  deriving DecidableEq

namespace TokenPayload

def encode (p : TokenPayload) : Bytes :=
  beBytes 8 p.serial.toNat ++ beBytes 8 p.expiry.toNat ++ beBytes 4 p.user.bytes.length ++
    p.user.bytes ++ beBytes 4 p.domain.bytes.length ++ p.domain.bytes

def takeText (b : Bytes) : Option (Str × Bytes) := do
  let (bytes, rest) ← (takeBe 4 b).bind fun p => takeBytes p.1 p.2
  let text ← Str.fromUtf8 bytes
  return (text, rest)

def decode (b : Bytes) : Option TokenPayload :=
  if b.length < 8 + 8 + 4 then none
  else do
    let (serial, b) ← takeBe 8 b
    let (expiry, b) ← takeBe 8 b
    let (user, b) ← takeText b
    let (domain, b) ← takeText b
    if b.isEmpty then some ⟨.ofNat serial, .ofNat expiry, user, domain⟩ else none

structure Fits (p : TokenPayload) : Prop where
  user : p.user.bytes.length < 256 ^ 4
  domain : p.domain.bytes.length < 256 ^ 4

theorem takeText_eq_some_iff {b rest : Bytes} {text : Str} :
    takeText b = some (text, rest) ↔
      text.bytes.length < 256 ^ 4 ∧ b = beBytes 4 text.bytes.length ++ (text.bytes ++ rest) := by
  have hframe := fun rest => @bind_takeBytes_eq_some_iff b rest (takeBe 4) (beBytes 4) (256 ^ 4)
    fun _ _ _ => takeBe_eq_some_iff
  simp only [takeText, Option.bind_eq_bind, Option.bind_eq_some_iff, Prod.exists, hframe,
    Str.fromUtf8_eq_some_iff, List.append_assoc]
  constructor
  · rintro ⟨bytes, rest, ⟨hlength, rfl⟩, text, rfl, h⟩
    obtain ⟨rfl, rfl⟩ := Prod.mk.inj (Option.some.inj h)
    exact ⟨hlength, rfl⟩
  · rintro ⟨hlength, rfl⟩
    exact ⟨text.bytes, rest, ⟨hlength, rfl⟩, text, rfl, rfl⟩

/-- **What is read is what was written.** -/
theorem decode_eq_some_iff {b : Bytes} {p : TokenPayload} :
    decode b = some p ↔ p.Fits ∧ b = p.encode := by
  constructor
  · intro h
    rw [decode] at h
    split at h
    · cases h
    · simp only [Option.bind_eq_bind, Option.bind_eq_some_iff, Prod.exists, takeBe_eq_some_iff,
        takeText_eq_some_iff] at h
      obtain ⟨serial, _, ⟨hserial, rfl⟩, expiry, _, ⟨hexpiry, rfl⟩, user, _, ⟨huser, rfl⟩, domain,
        rest, ⟨hdomain, rfl⟩, h⟩ := h
      split at h
      · next hempty =>
        obtain rfl := Option.some.inj h
        obtain rfl := List.isEmpty_iff.1 hempty
        refine ⟨⟨huser, hdomain⟩, ?_⟩
        have hs : (UInt64.ofNat serial).toNat = serial := UInt64.toNat_ofNat_of_lt' hserial
        have he : (UInt64.ofNat expiry).toNat = expiry := UInt64.toNat_ofNat_of_lt' hexpiry
        simp [encode, hs, he]
      · cases h
  · rintro ⟨hfits, rfl⟩
    have hlength : ¬ p.encode.length < 8 + 8 + 4 := by
      simp only [encode, List.length_append, length_beBytes]
      omega
    rw [decode, if_neg hlength]
    simp only [encode, List.append_assoc, Option.bind_eq_bind, Option.bind_eq_some_iff, Prod.exists,
      takeBe_eq_some_iff, takeText_eq_some_iff]
    refine ⟨p.serial.toNat, _, ⟨p.serial.toNat_lt, rfl⟩,
      p.expiry.toNat, _, ⟨p.expiry.toNat_lt, rfl⟩, p.user, _, ⟨hfits.user, rfl⟩,
      p.domain, [], ⟨hfits.domain, by rw [List.append_nil]⟩, ?_⟩
    simp

end TokenPayload

/-! ## Tokens -/

def encodeToken (payload : TokenPayload) (sig : Bytes) : String :=
  "pt2." ++ String.ofList (hex payload.encode) ++ "." ++ String.ofList (hex sig)

def tokenParts (token : String) : Option (Bytes × Bytes) :=
  if "pt2.".toList.isPrefixOf token.toList then
    let rest := token.toList.drop 4
    if '.' ∈ rest then do
      let (payloadHex, sigHex) := splitFirst '.' rest
      let payload ← hexDecode payloadHex
      let sig ← hexDecode sigHex
      return (payload, sig)
    else none
  else none

def decodeAndVerifyToken (E : Ed25519) (verifyingKey : Bytes) (token : String) :
    Option TokenPayload := do
  let (bytes, sig) ← tokenParts token
  let payload ← TokenPayload.decode bytes
  if (verify E verifyingKey bytes sig).isOk then some payload else none

theorem tokenParts_encodeToken (payload : TokenPayload) (sig : Bytes) :
    tokenParts (encodeToken payload sig) = some (payload.encode, sig) := by
  have htext : (encodeToken payload sig).toList =
      "pt2.".toList ++ (hex payload.encode ++ '.' :: hex sig) := by
    simp [encodeToken]
  have hfront : "pt2.".toList.isPrefixOf (encodeToken payload sig).toList = true := by
    rw [htext, List.isPrefixOf_iff_prefix]
    exact List.prefix_append _ _
  have hrest : (encodeToken payload sig).toList.drop 4 = hex payload.encode ++ '.' :: hex sig := by
    rw [htext]
    rfl
  rw [tokenParts, if_pos hfront]
  simp only [hrest]
  rw [if_pos (by simp), splitFirst_append (dot_not_mem_hex _), hexDecode_hex, hexDecode_hex]
  rfl

variable {payload : TokenPayload} {verifyingKey : Bytes}

theorem decodeAndVerifyToken_encodeToken {E : Ed25519} (hfits : payload.Fits) {sig : Bytes}
    (hsig : verify E verifyingKey payload.encode sig = .ok ()) :
    decodeAndVerifyToken E verifyingKey (encodeToken payload sig) = some payload := by
  rw [decodeAndVerifyToken, tokenParts_encodeToken]
  simp only [Option.bind_eq_bind, Option.bind_some,
    TokenPayload.decode_eq_some_iff.2 ⟨hfits, rfl⟩, hsig]
  rfl

theorem exists_of_decodeAndVerifyToken {E : Ed25519} {token : String}
    (h : decodeAndVerifyToken E verifyingKey token = some payload) :
    payload.Fits ∧ ∃ sig, tokenParts token = some (payload.encode, sig) ∧
      verify E verifyingKey payload.encode sig = .ok () := by
  simp only [decodeAndVerifyToken, Option.bind_eq_bind, Option.bind_eq_some_iff, Prod.exists,
    TokenPayload.decode_eq_some_iff] at h
  obtain ⟨_, sig, hparts, p, ⟨hfits, rfl⟩, h⟩ := h
  split at h
  · next hverified =>
    obtain rfl := Option.some.inj h
    refine ⟨hfits, sig, hparts, ?_⟩
    cases hv : verify E verifyingKey p.encode sig with
    | ok _ => rfl
    | error e =>
      rw [hv] at hverified
      cases hverified
  · cases h

end Pillar.Bootstrap
