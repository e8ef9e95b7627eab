import Pillar.Crypto
import Pillar.Lib.Frames

/-!
# Signed segments and heads

`pillar-wire`'s two content objects: a segment is a byte string with an authorship signature, a head
is an owner's pointer to a content id.

* `SignedSegment.fromWire_eq_some_iff`, `HeadRecord.fromWire_eq_some_iff` — **what is read is what
  was written, followed by anything**.
-/

namespace Pillar.Wire

open Lib.Compare Lib.Readers

/-- The content id of a stored object. -/
abbrev Cid := ContentId

inductive StoreError where
  | notFound
  /-- The bytes do not hash to the content id asked for. -/
  | cidMismatch
  | badSignature
  /-- An object that is not public was offered for advertisement. -/
  | notPublic
  /-- The sequence number of a head does not advance. -/
  | staleHead
  /-- A disk operation failed, with the number of its `std::io::ErrorKind`. -/
  | io (kind : ℕ)
  | ipfs
  deriving DecidableEq

/-! ## Visibility -/

inductive Visibility where
  | publicAnchor
  | cell
  | sealed
  deriving DecidableEq

namespace Visibility

/-- Only public objects may be advertised. -/
def mayReachDht : Visibility → Bool
  | publicAnchor => true
  | cell => false
  | sealed => false

/-- The byte that stands for a visibility. -/
def toU8 : Visibility → UInt8
  | publicAnchor => 0
  | cell => 1
  | sealed => 2

/-- The visibility that a byte stands for. -/
def fromU8 (b : UInt8) : Option Visibility :=
  if b = 0 then some publicAnchor
  else if b = 1 then some cell
  else if b = 2 then some sealed
  else none

theorem mayReachDht_iff {v : Visibility} : v.mayReachDht = true ↔ v = publicAnchor := by
  cases v <;> decide

theorem fromU8_eq_some_iff {b : UInt8} {v : Visibility} : fromU8 b = some v ↔ b = v.toU8 := by
  constructor
  · intro h
    rw [fromU8] at h
    split_ifs at h with h0 h1 h2 <;> cases h <;> assumption
  · rintro rfl
    cases v <;> rfl

end Visibility

/-! ## Fields -/

/-- A byte string behind its length, which is cut to a `u32`. -/
def wirePutBytes (b : Bytes) : Bytes := beBytes 4 b.length ++ b

def wireTakeBytes (b : Bytes) : Option (Bytes × Bytes) :=
  (takeBe 4 b).bind fun p => takeBytes p.1 p.2

theorem wireTakeBytes_eq_some_iff {b x rest : Bytes} :
    wireTakeBytes b = some (x, rest) ↔ x.length < 256 ^ 4 ∧ b = wirePutBytes x ++ rest :=
  bind_takeBytes_eq_some_iff fun _ _ _ => takeBe_eq_some_iff

def takeVisibility : Bytes → Option (Visibility × Bytes)
  | [] => none
  | b :: rest => (Visibility.fromU8 b).map fun v => (v, rest)

theorem takeVisibility_eq_some_iff {b rest : Bytes} {v : Visibility} :
    takeVisibility b = some (v, rest) ↔ b = v.toU8 :: rest := by
  cases b with
  | nil => simp [takeVisibility]
  | cons d b =>
    simp only [takeVisibility, Option.map_eq_some_iff, Visibility.fromU8_eq_some_iff,
      Prod.mk.injEq, List.cons.injEq]
    constructor
    · rintro ⟨v, rfl, rfl, rfl⟩
      exact ⟨rfl, rfl⟩
    · rintro ⟨rfl, rfl⟩
      exact ⟨v, rfl, rfl, rfl⟩

/-- The check that both objects make of their signature. -/
def verifySigned (E : Ed25519) (signer material signature : Bytes) : Except StoreError Unit :=
  (verify E signer material signature).mapError fun _ => .badSignature

theorem verifySigned_eq_ok_iff {E : Ed25519} {signer material signature : Bytes} :
    verifySigned E signer material signature = .ok () ↔
      verify E signer material signature = .ok () := by
  rw [verifySigned]
  cases verify E signer material signature <;> simp [Except.mapError]

/-! ## Segments -/

structure SignedSegment where
  bytes : Bytes
  signer : Bytes
  signature : Bytes
  visibility : Visibility
  deriving DecidableEq

def segmentSigningMaterial (bytes : Bytes) : Bytes :=
  utf8 "pillar-streamdb/ipfs-store/segment-v1" ++ bytes

namespace SignedSegment

def author (E : Ed25519) (bytes signer secret : Bytes) (visibility : Visibility) :
    Except CryptoError SignedSegment :=
  (sign E secret (segmentSigningMaterial bytes)).map fun signature =>
    ⟨bytes, signer, signature, visibility⟩

def verify (E : Ed25519) (s : SignedSegment) : Except StoreError Unit :=
  verifySigned E s.signer (segmentSigningMaterial s.bytes) s.signature

def toWire (s : SignedSegment) : Bytes :=
  wirePutBytes s.bytes ++ (wirePutBytes s.signer ++ (wirePutBytes s.signature ++
    [s.visibility.toU8]))

def fromWire (w : Bytes) : Option SignedSegment := do
  let (bytes, w) ← wireTakeBytes w
  let (signer, w) ← wireTakeBytes w
  let (signature, w) ← wireTakeBytes w
  let (visibility, _) ← takeVisibility w
  some ⟨bytes, signer, signature, visibility⟩

def cid (H : Bytes → Bytes) (s : SignedSegment) : Cid := contentAddress H s.toWire

def Fits (s : SignedSegment) : Prop :=
  s.bytes.length < 256 ^ 4 ∧ s.signer.length < 256 ^ 4 ∧ s.signature.length < 256 ^ 4

/-- **A segment is read exactly from its stored form, followed by anything.** -/
theorem fromWire_eq_some_iff {w : Bytes} {s : SignedSegment} :
    fromWire w = some s ↔ s.Fits ∧ ∃ rest, w = s.toWire ++ rest := by
  simp only [fromWire, Option.bind_eq_bind, Option.bind_eq_some_iff, Prod.exists,
    wireTakeBytes_eq_some_iff, takeVisibility_eq_some_iff, Option.some.injEq]
  constructor
  · rintro ⟨bytes, _, ⟨hb, rfl⟩, signer, _, ⟨hs, rfl⟩, signature, _, ⟨hg, rfl⟩, visibility, rest,
      rfl, rfl⟩
    exact ⟨⟨hb, hs, hg⟩, rest, by simp [toWire]⟩
  · rintro ⟨⟨hb, hs, hg⟩, rest, rfl⟩
    refine ⟨s.bytes, _, ⟨hb, ?_⟩, s.signer, _, ⟨hs, rfl⟩, s.signature, _, ⟨hg, rfl⟩,
      s.visibility, rest, rfl, rfl⟩
    simp [toWire]

end SignedSegment

/-! ## Heads -/

structure HeadRecord where
  owner : Bytes
  seq : UInt64
  target : Cid
  ttlSecs : UInt64
  visibility : Visibility
  signature : Bytes
  deriving DecidableEq

def headSigningMaterial (owner : Bytes) (seq : UInt64) (target : Cid) (ttlSecs : UInt64) : Bytes :=
  utf8 "pillar-streamdb/ipfs-store/ipns-head-v1" ++ (owner ++ (beBytes 8 seq.toNat ++
    (target.bytes ++ beBytes 8 ttlSecs.toNat)))

namespace HeadRecord

def author (E : Ed25519) (owner : Bytes) (seq : UInt64) (target : Cid) (ttlSecs : UInt64)
    (visibility : Visibility) (secret : Bytes) : Except CryptoError HeadRecord :=
  (sign E secret (headSigningMaterial owner seq target ttlSecs)).map fun signature =>
    ⟨owner, seq, target, ttlSecs, visibility, signature⟩

def verify (E : Ed25519) (r : HeadRecord) : Except StoreError Unit :=
  verifySigned E r.owner (headSigningMaterial r.owner r.seq r.target r.ttlSecs) r.signature

def toWire (r : HeadRecord) : Bytes :=
  wirePutBytes r.owner ++ (beBytes 8 r.seq.toNat ++ (wirePutBytes r.target.bytes ++
    (beBytes 8 r.ttlSecs.toNat ++ (r.visibility.toU8 :: wirePutBytes r.signature))))

def fromWire (w : Bytes) : Option HeadRecord := do
  let (owner, w) ← wireTakeBytes w
  let (seq, w) ← takeBe 8 w
  let (target, w) ← wireTakeBytes w
  let (ttlSecs, w) ← takeBe 8 w
  let (visibility, w) ← takeVisibility w
  let (signature, _) ← wireTakeBytes w
  some ⟨owner, .ofNat seq, ⟨target⟩, .ofNat ttlSecs, visibility, signature⟩

def Fits (r : HeadRecord) : Prop :=
  r.owner.length < 256 ^ 4 ∧ r.target.bytes.length < 256 ^ 4 ∧ r.signature.length < 256 ^ 4

/-- **A head is read exactly from its stored form, followed by anything.** -/
theorem fromWire_eq_some_iff {w : Bytes} {r : HeadRecord} :
    fromWire w = some r ↔ r.Fits ∧ ∃ rest, w = r.toWire ++ rest := by
  simp only [fromWire, Option.bind_eq_bind, Option.bind_eq_some_iff, Prod.exists,
    wireTakeBytes_eq_some_iff, takeBe_eq_some_iff, takeVisibility_eq_some_iff, Option.some.injEq]
  constructor
  · rintro ⟨owner, _, ⟨ho, rfl⟩, seq, _, ⟨hseq, rfl⟩, target, _, ⟨ht, rfl⟩, ttlSecs, _,
      ⟨httl, rfl⟩, visibility, _, rfl, signature, rest, ⟨hg, rfl⟩, rfl⟩
    refine ⟨⟨ho, ht, hg⟩, rest, ?_⟩
    simp [toWire, UInt64.toNat_ofNat_of_lt' hseq, UInt64.toNat_ofNat_of_lt' httl]
  · rintro ⟨⟨ho, ht, hg⟩, rest, rfl⟩
    refine ⟨r.owner, _, ⟨ho, ?_⟩, r.seq.toNat, _, ⟨r.seq.toNat_lt, rfl⟩, r.target.bytes, _,
      ⟨ht, rfl⟩, r.ttlSecs.toNat, _, ⟨r.ttlSecs.toNat_lt, rfl⟩, r.visibility, _, rfl, r.signature,
      rest, ⟨hg, rfl⟩, ?_⟩
    · simp [toWire]
    · rw [UInt64.ofNat_toNat, UInt64.ofNat_toNat]

end HeadRecord

/-! ## The cursor

The source reads with a position into the input, and adds to it what it wants to read: sums of
`usize`, here of 64 bits, that are not checked. -/

/-- A sum that does not fit into a `usize`. -/
inductive Overflow where
  | usize
  deriving DecidableEq

/-- A reader moves the position, or finds the input too short, or overflows. -/
abbrev Cursor := StateT ℕ (OptionT (Except Overflow))

namespace Cursor

/-- `inp.get(pos..pos + n)?`, after which the position is `pos + n`. -/
def get (inp : Bytes) (n : ℕ) : Cursor Bytes := fun pos =>
  if pos + n < 2 ^ 64 then
    .mk (.ok (if pos + n ≤ inp.length then some ((inp.drop pos).take n, pos + n) else none))
  else .mk (.error .usize)

def be (inp : Bytes) (w : ℕ) : Cursor ℕ := beNat <$> get inp w

/-- `wire_take_bytes`. -/
def wireTakeBytes (inp : Bytes) : Cursor Bytes := do
  let len ← be inp 4
  get inp len

/-- `vis_from_u8(*w.get(pos)?)?`. -/
def visibility (inp : Bytes) : Cursor Visibility := fun pos =>
  .mk (.ok ((inp[pos]?.bind Visibility.fromU8).map fun v => (v, pos)))

/-- The reader does on the input from its position on what the other one does on a list, and the
position stays within the input: no sum overflows. -/
def Follows {α : Type} (inp : Bytes) (c : Cursor α) (read : Bytes → Option (α × Bytes)) : Prop :=
  ∀ pos ≤ inp.length, ∃ r, c pos = .mk (.ok r) ∧
    r.map (fun p => (p.1, inp.drop p.2)) = read (inp.drop pos) ∧ ∀ p ∈ r, p.2 ≤ inp.length

variable {inp : Bytes} {α β : Type}

theorem bind_of_none {c : Cursor α} {k : α → Cursor β} {pos : ℕ} (h : c pos = .mk (.ok none)) :
    (c >>= k) pos = .mk (.ok none) := by
  have hstep : (c >>= k) pos = c pos >>= fun p => k p.1 p.2 := rfl
  rw [hstep, h]
  rfl

theorem bind_of_some {c : Cursor α} {k : α → Cursor β} {pos : ℕ} {p : α × ℕ}
    (h : c pos = .mk (.ok (some p))) : (c >>= k) pos = k p.1 p.2 := by
  have hstep : (c >>= k) pos = c pos >>= fun p => k p.1 p.2 := rfl
  rw [hstep, h]
  rfl

theorem Follows.bind {c : Cursor α} {read : Bytes → Option (α × Bytes)} (h : Follows inp c read)
    {k : α → Cursor β} {next : α → Bytes → Option (β × Bytes)}
    (hk : ∀ x, (∃ b rest, read b = some (x, rest)) → Follows inp (k x) (next x)) :
    Follows inp (c >>= k) fun b => (read b).bind fun p => next p.1 p.2 := by
  intro pos hpos
  obtain ⟨r, hrun, hread, hin⟩ := h pos hpos
  dsimp only
  rw [← hread]
  cases r with
  | none => exact ⟨none, bind_of_none hrun, rfl, by simp⟩
  | some p =>
    rw [bind_of_some hrun]
    exact hk p.1 ⟨_, _, hread.symm⟩ p.2 (hin p rfl)

end Cursor

open Cursor

variable {w : Bytes}

end Pillar.Wire
