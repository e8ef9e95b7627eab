import Pillar.Wire.Segments

/-!
# Message envelopes

`pillar-wire`'s `PillarMessage`: the header of a message, its sealed body, and the number of hops it
has made. The CBOR writer is one outside the repository, and a parameter `W`.

* `cid_withHops_inj` — **the content address tells the number of hops**: two copies of a message
  have one address only if they made equally many.
-/

namespace Pillar.Wire

/-- The fields of an envelope as they are written. -/
structure WireEnvelope where
  version : UInt16
  signer : Bytes
  signature : Bytes
  visibility : UInt8
  cell : Bytes
  bodySealed : Bytes
  hops : UInt32
  deriving DecidableEq

/-- Envelopes that differ in their hops are written differently. -/
def TellsHops (W : WireEnvelope → Bytes) : Prop :=
  ∀ w : WireEnvelope, Function.Injective fun hops => W { w with hops := hops }

/-- Why an envelope could not be read. -/
inductive EnvelopeError where
  | malformed
  | unsupportedVersion (version : SurfaceVersion)
  | unknownVisibility (tag : UInt8)
  deriving DecidableEq

def pillarMessageMaxSupported : SurfaceVersion := ⟨3⟩

/-- A message, signed and sealed. -/
structure PillarMessage where
  version : SurfaceVersion
  signer : Bytes
  signature : Bytes
  visibility : Visibility
  cell : Bytes
  bodySealed : Bytes
  hops : UInt32
  deriving DecidableEq

namespace PillarMessage

def new (signer signature : Bytes) (visibility : Visibility) (cell bodySealed : Bytes) :
    PillarMessage :=
  ⟨pillarMessageMaxSupported, signer, signature, visibility, cell, bodySealed, 0⟩

def withHops (msg : PillarMessage) (hops : UInt32) : PillarMessage := { msg with hops := hops }

/-- The message one hop later; the counter stays at its greatest value. -/
def incrementedHop (msg : PillarMessage) : PillarMessage :=
  msg.withHops (if msg.hops = 0xffffffff then msg.hops else msg.hops + 1)

def wire (msg : PillarMessage) : WireEnvelope :=
  ⟨msg.version.val, msg.signer, msg.signature, msg.visibility.toU8, msg.cell, msg.bodySealed,
    msg.hops⟩

def toCanonicalCbor (W : WireEnvelope → Bytes) (msg : PillarMessage) : Bytes := W msg.wire

def cid (W : WireEnvelope → Bytes) (H : Bytes → Bytes) (msg : PillarMessage) : ContentId :=
  contentAddress H (msg.toCanonicalCbor W)

/-- **The content address tells the number of hops.** -/
theorem cid_withHops_inj {W : WireEnvelope → Bytes} {H : Bytes → Bytes} (hW : TellsHops W)
    (hH : CollisionFree H) {msg : PillarMessage} {a b : UInt32}
    (h : (msg.withHops a).cid W H = (msg.withHops b).cid W H) : a = b :=
  hW msg.wire (contentAddress_injective hH h)

end PillarMessage

end Pillar.Wire
