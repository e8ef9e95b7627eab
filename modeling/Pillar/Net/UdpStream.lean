import Pillar.Core
import Pillar.Lib.Frames
import Pillar.Lib.Runs
import Pillar.Lib.StopAndWait

/-!
# Streams over datagrams

`pillar-net`'s reliable stream over UDP: a pump on each side sends one chunk at a time again and
again until it is acknowledged, and the receiving pump acknowledges every copy and delivers the
one that is next.
-/

namespace Pillar.Net.UdpStream

open Lib.Compare Lib.Readers Lib.Runs Lib.StopAndWait

/-! ## Datagrams -/

def maxPayload : ℕ := 1100

/-- The length of a header: tag, number and length. -/
def hdr : ℕ := 13

def tagData : UInt8 := 1

def tagAck : UInt8 := 2

def tagSyn : UInt8 := 3

def frame (tag : UInt8) (seq : UInt64) (payload : Bytes) : Bytes :=
  tag :: (beBytes 8 seq.toNat ++ (beBytes 4 payload.length ++ payload))

structure Datagram where
  tag : UInt8
  seq : UInt64
  payload : Bytes
  deriving DecidableEq

def parse (dgram : Bytes) : Option Datagram :=
  match dgram with
  | [] => none
  | tag :: rest =>
    if dgram.length < hdr then none
    else
      let seq := UInt64.ofNat (beNat (rest.take 8))
      let len := beNat ((rest.drop 8).take 4)
      if hdr + len > dgram.length then none
      else some ⟨tag, seq, (dgram.drop hdr).take len⟩

def recvBuf : ℕ := maxPayload + hdr + 16

/-- What is read of a datagram that arrives: a longer one is cut off. -/
def received (dgram : Bytes) : Option Datagram := parse (dgram.take recvBuf)

variable {payload : Bytes}

theorem parse_frame (tag : UInt8) (seq : UInt64) (h : payload.length < 256 ^ 4) :
    parse (frame tag seq payload) = some ⟨tag, seq, payload⟩ := by
  have hseq : beNat (beBytes 8 seq.toNat) = seq.toNat := beNat_beBytes seq.toNat_lt
  have hlength : (frame tag seq payload).length = hdr + payload.length := by
    simp only [frame, List.length_cons, List.length_append, length_beBytes, hdr]
    omega
  have htake : (beBytes 8 seq.toNat ++ (beBytes 4 payload.length ++ payload)).take 8 =
      beBytes 8 seq.toNat := List.take_left' (length_beBytes 8 _)
  have hdrop : (beBytes 8 seq.toNat ++ (beBytes 4 payload.length ++ payload)).drop 8 =
      beBytes 4 payload.length ++ payload := List.drop_left' (length_beBytes 8 _)
  have hlen : (beBytes 4 payload.length ++ payload).take 4 = beBytes 4 payload.length :=
    List.take_left' (length_beBytes 4 _)
  have hpayload : (frame tag seq payload).drop hdr = payload := by
    rw [frame, hdr, List.drop_succ_cons, ← List.append_assoc]
    exact List.drop_left' (by simp)
  rw [frame, parse, ← frame, hlength, if_neg (by omega), htake, hdrop, hlen, hseq,
    beNat_beBytes h, if_neg (by omega), hpayload, List.take_length, UInt64.ofNat_toNat]

theorem received_frame (tag : UInt8) (seq : UInt64) (h : payload.length ≤ maxPayload) :
    received (frame tag seq payload) = some ⟨tag, seq, payload⟩ := by
  have hlength : (frame tag seq payload).length ≤ recvBuf := by
    simp only [frame, List.length_cons, List.length_append, length_beBytes, recvBuf, hdr]
    omega
  rw [received, List.take_of_length_le hlength]
  refine parse_frame tag seq (lt_of_le_of_lt h ?_)
  decide

/-! ## An endpoint -/

structure Endpoint where
  writeBuf : Bytes
  /-- Chunks on their way from the stream to the pump. -/
  outRx : List Bytes
  dropped : Bool
  running : Bool
  pending : Option Bytes
  sendSeq : UInt64
  recvSeq : UInt64
  wire : List Bytes
  /-- The chunks that the pump has taken from the stream and sent. -/
  sent : List Bytes
  /-- The chunks of which the pump has accepted an acknowledgement. -/
  accepted : List Bytes
  /-- The chunks that the pump has handed to the stream. -/
  delivered : List Bytes
  deriving DecidableEq

inductive Act where
  | pollWrite (buf : Bytes)
  | pollFlush
  | drop
  /-- The pump asks for the next chunk: `out_rx.recv()`. -/
  | recvOut
  /-- The pump is handed a datagram: `recv_one(…)`. -/
  | recvOne (dgram : Bytes)
  | tick
  | closed
  deriving DecidableEq

namespace Endpoint

def new (sendSyn : Bool) : Endpoint where
  writeBuf := []
  outRx := []
  dropped := false
  running := true
  pending := none
  sendSeq := 0
  recvSeq := 0
  wire := if sendSyn then [frame tagSyn 0 []] else []
  sent := []
  accepted := []
  delivered := []

/-- The loop of `poll_write`; it ends early if the pump has ended. -/
def drain : ℕ → Endpoint → Endpoint
  | 0, e => e
  | fuel + 1, e =>
    if e.writeBuf.length < maxPayload then e
    else if e.running then
      drain fuel { e with
        writeBuf := e.writeBuf.drop maxPayload
        outRx := e.outRx ++ [e.writeBuf.take maxPayload] }
    else { e with writeBuf := e.writeBuf.drop maxPayload }

def pollWrite (e : Endpoint) (buf : Bytes) : Endpoint :=
  drain (e.writeBuf ++ buf).length { e with writeBuf := e.writeBuf ++ buf }

/-- What is left in the buffer becomes a chunk. -/
def pollFlush (e : Endpoint) : Endpoint :=
  if e.writeBuf = [] then e
  else if e.running then { e with writeBuf := [], outRx := e.outRx ++ [e.writeBuf] }
  else { e with writeBuf := [] }

def sendTo (e : Endpoint) (dgram : Bytes) : Endpoint := { e with wire := e.wire ++ [dgram] }

/-- The next chunk is taken up; without one, the pump ends if the stream is gone. -/
def recvOut (e : Endpoint) : Endpoint :=
  match e.outRx with
  | chunk :: rest =>
    { e with pending := some chunk, outRx := rest, sent := e.sent ++ [chunk] }.sendTo
      (frame tagData e.sendSeq chunk)
  | [] => if e.dropped then { e with running := false } else e

/-- Data is acknowledged, and delivered if it is next; an acknowledgement frees the sender. -/
def handleDatagram (e : Endpoint) (dgram : Bytes) : Endpoint :=
  match received dgram with
  | none => e
  | some ⟨tag, seq, payload⟩ =>
    if tag = tagData then
      if seq = e.recvSeq then
        if e.dropped then
          { e with recvSeq := e.recvSeq + 1, running := false }.sendTo (frame tagAck seq [])
        else
          { e with recvSeq := e.recvSeq + 1, delivered := e.delivered ++ [payload] }.sendTo
            (frame tagAck seq [])
      else e.sendTo (frame tagAck seq [])
    else if tag = tagAck ∧ seq = e.sendSeq then
      match e.pending with
      | some chunk =>
        { e with pending := none, sendSeq := e.sendSeq + 1, accepted := e.accepted ++ [chunk] }
      | none => e
    else e

/-- The chunk on its way is sent once more. -/
def tick (e : Endpoint) : Endpoint :=
  match e.pending with
  | some chunk => e.sendTo (frame tagData e.sendSeq chunk)
  | none => e

/-- What happens to an endpoint. -/
def act (e : Endpoint) : Act → Endpoint
  | .pollWrite buf => if e.dropped then e else e.pollWrite buf
  | .pollFlush => if e.dropped then e else e.pollFlush
  | .drop => { e with dropped := true }
  | .recvOut => if e.running ∧ e.pending = none then e.recvOut else e
  | .recvOne dgram => if e.running then e.handleDatagram dgram else e
  | .tick => if e.running then e.tick else e
  | .closed => { e with running := false }

end Endpoint

/-! ## What an act does -/

/-- Chunks are not too long. Once the pump has ended, the buffer does not matter. -/
structure Sized (e : Endpoint) : Prop where
  outRx : ∀ chunk ∈ e.outRx, chunk.length ≤ maxPayload
  pending : ∀ chunk ∈ e.pending, chunk.length ≤ maxPayload
  writeBuf : e.running = true → e.writeBuf.length < maxPayload

namespace Endpoint

variable {e e' : Endpoint} {a : Act} {dgram : Bytes}

theorem sized_new (sendSyn : Bool) : Sized (new sendSyn) :=
  ⟨by simp [new], by simp [new], fun _ => by simp [new, maxPayload]⟩

theorem sized_drain (fuel : ℕ) (e : Endpoint) (hfuel : e.writeBuf.length ≤ fuel)
    (hout : ∀ chunk ∈ e.outRx, chunk.length ≤ maxPayload)
    (hpending : ∀ chunk ∈ e.pending, chunk.length ≤ maxPayload) : Sized (drain fuel e) := by
  induction fuel generalizing e with
  | zero => exact ⟨hout, hpending, fun _ => lt_of_le_of_lt hfuel (by decide)⟩
  | succ fuel ih =>
    rw [drain]
    split_ifs with hshort hrunning
    · exact ⟨hout, hpending, fun _ => hshort⟩
    · refine ih _ ?_ (List.forall_mem_append.2 ⟨hout, ?_⟩) hpending
      · have hpos : 0 < maxPayload := by decide
        simp only [List.length_drop]
        omega
      · simp
    · exact ⟨hout, hpending, fun h => absurd h hrunning⟩

theorem sized_sendTo (h : Sized e) (dgram : Bytes) : Sized (e.sendTo dgram) :=
  ⟨h.outRx, h.pending, h.writeBuf⟩

theorem sized_act (h : Sized e) (a : Act) : Sized (e.act a) := by
  cases a with
  | pollWrite buf =>
    rw [act]
    split_ifs with hdropped
    · exact h
    · exact sized_drain _ _ le_rfl h.outRx h.pending
  | pollFlush =>
    rw [act]
    split_ifs with hdropped
    · exact h
    · rw [pollFlush]
      split_ifs with hempty hrunning
      · exact h
      · refine ⟨List.forall_mem_append.2 ⟨h.outRx, ?_⟩, h.pending, fun _ => by simp [maxPayload]⟩
        simpa using (h.writeBuf hrunning).le
      · exact ⟨h.outRx, h.pending, fun hr => absurd hr hrunning⟩
  | drop => exact ⟨h.outRx, h.pending, h.writeBuf⟩
  | recvOut =>
    rw [act]
    split_ifs with hready
    · rw [recvOut]
      split
      · rename_i chunk rest hqueue
        obtain ⟨hchunk, hrest⟩ := List.forall_mem_cons.1 (hqueue ▸ h.outRx)
        exact ⟨hrest, by simpa [Endpoint.sendTo] using hchunk, h.writeBuf⟩
      · split_ifs
        · exact ⟨h.outRx, h.pending, fun hr => absurd hr (by simp)⟩
        · exact h
    · exact h
  | recvOne dgram =>
    rw [act]
    split_ifs with hrunning
    · rw [handleDatagram]
      split
      · exact h
      · split_ifs
        · exact ⟨h.outRx, h.pending, fun hr => absurd hr (by simp [Endpoint.sendTo])⟩
        · exact ⟨h.outRx, h.pending, h.writeBuf⟩
        · exact sized_sendTo h _
        · split
          · exact ⟨h.outRx, by simp, h.writeBuf⟩
          · exact h
        · exact h
    · exact h
  | tick =>
    rw [act]
    split_ifs with hrunning
    · rw [tick]
      split
      · exact sized_sendTo h _
      · exact h
    · exact h
  | closed => exact ⟨h.outRx, h.pending, fun hr => absurd hr (by simp [act])⟩

/-- What an act can do, as far as the numbers and the wire are concerned. -/
inductive Effect (e : Endpoint) (a : Act) : Endpoint → Prop
  | quiet {writeBuf : Bytes} {outRx : List Bytes} {dropped running : Bool}
      (hdropped : e.dropped = true → dropped = true)
      (hrunning : e.running = false → running = false) :
      Effect e a { e with
        writeBuf := writeBuf, outRx := outRx, dropped := dropped, running := running }
  | sent {chunk : Bytes} {rest : List Bytes} (hqueue : e.outRx = chunk :: rest)
      (hpending : e.pending = none) :
      Effect e a ({ e with pending := some chunk, outRx := rest, sent := e.sent ++ [chunk] }.sendTo
        (frame tagData e.sendSeq chunk))
  | resent {chunk : Bytes} (hpending : e.pending = some chunk) :
      Effect e a (e.sendTo (frame tagData e.sendSeq chunk))
  | repeated {dgram payload : Bytes} {seq : UInt64} (hact : a = .recvOne dgram)
      (hreceived : received dgram = some ⟨tagData, seq, payload⟩) (hseq : seq ≠ e.recvSeq) :
      Effect e a (e.sendTo (frame tagAck seq []))
  /-- The chunk that is expected is acknowledged and delivered. -/
  | delivered {dgram payload : Bytes} (hact : a = .recvOne dgram)
      (hreceived : received dgram = some ⟨tagData, e.recvSeq, payload⟩)
      (hdropped : e.dropped = false) :
      Effect e a ({ e with
        recvSeq := e.recvSeq + 1, delivered := e.delivered ++ [payload] }.sendTo
          (frame tagAck e.recvSeq []))
  /-- The chunk that is expected is acknowledged, and the stream is gone. -/
  | lost {dgram payload : Bytes} (hact : a = .recvOne dgram)
      (hreceived : received dgram = some ⟨tagData, e.recvSeq, payload⟩)
      (hdropped : e.dropped = true) (hrunning : e.running = true) :
      Effect e a ({ e with recvSeq := e.recvSeq + 1, running := false }.sendTo
        (frame tagAck e.recvSeq []))
  | accepted {dgram payload chunk : Bytes} (hact : a = .recvOne dgram)
      (hreceived : received dgram = some ⟨tagAck, e.sendSeq, payload⟩)
      (hpending : e.pending = some chunk) :
      Effect e a { e with
        pending := none, sendSeq := e.sendSeq + 1, accepted := e.accepted ++ [chunk] }

theorem effect_refl (e : Endpoint) (a : Act) : Effect e a e := .quiet id id

theorem effect_drain (fuel : ℕ) (e : Endpoint) (a : Act) (buf : Bytes) (queue : List Bytes) :
    Effect e a (drain fuel { e with writeBuf := buf, outRx := queue }) := by
  induction fuel generalizing buf queue with
  | zero => exact .quiet id id
  | succ fuel ih =>
    rw [drain]
    split_ifs
    · exact .quiet id id
    · exact ih _ _
    · exact .quiet id id

theorem effect_handleDatagram (hrunning : e.running = true) (dgram : Bytes) :
    Effect e (.recvOne dgram) (e.handleDatagram dgram) := by
  rw [handleDatagram]
  split
  · exact effect_refl e _
  · rename_i tag seq payload hreceived
    split_ifs with htag hseq hdropped hack
    · subst htag hseq
      exact .lost rfl hreceived hdropped hrunning
    · subst htag hseq
      exact .delivered rfl hreceived (Bool.eq_false_iff.2 hdropped)
    · subst htag
      exact .repeated rfl hreceived hseq
    · obtain ⟨rfl, rfl⟩ := hack
      split
      · rename_i chunk hpending
        exact .accepted rfl hreceived hpending
      · exact effect_refl e _
    · exact effect_refl e _

/-- **All that an act can do.** -/
theorem effect_act (e : Endpoint) (a : Act) : Effect e a (e.act a) := by
  cases a with
  | pollWrite buf =>
    rw [act]
    split_ifs
    · exact effect_refl e _
    · exact effect_drain _ e _ _ e.outRx
  | pollFlush =>
    rw [act, pollFlush]
    split_ifs
    · exact effect_refl e _
    · exact effect_refl e _
    · exact .quiet id id
    · exact .quiet id id
  | drop => exact .quiet (fun _ => rfl) id
  | recvOut =>
    rw [act]
    split_ifs with hready
    · rw [recvOut]
      split
      · rename_i chunk rest hqueue
        exact .sent hqueue hready.2
      · split_ifs
        · exact .quiet id fun _ => rfl
        · exact effect_refl e _
    · exact effect_refl e _
  | recvOne dgram =>
    rw [act]
    split_ifs with hrunning
    · exact effect_handleDatagram hrunning dgram
    · exact effect_refl e _
  | tick =>
    rw [act]
    split_ifs
    · rw [tick]
      split
      · rename_i chunk hpending
        exact .resent hpending
      · exact effect_refl e _
    · exact effect_refl e _
  | closed => exact .quiet id fun _ => rfl

theorem Effect.length_sent_le (h : Effect e a e') : e.sent.length ≤ e'.sent.length := by
  cases h with
  | sent hqueue hpending => simp [sendTo]
  | quiet | resent | repeated | delivered | lost | accepted => exact le_rfl

end Endpoint

/-! ## One direction -/

structure Represents (x : Exchange Bytes) (s r : Endpoint) : Prop where
  sent : s.sent = x.sent
  accepted : s.accepted = x.sent.take x.acked
  pending : s.pending.toList = x.sent.drop x.acked
  sendSeq : s.sendSeq = UInt64.ofNat x.acked
  recvSeq : r.recvSeq = UInt64.ofNat x.taken
  /-- What was taken was delivered, unless the stream was gone; then the pump has ended. -/
  delivered : r.delivered = x.sent.take x.taken ∨
    (r.dropped = true ∧ r.running = false ∧ r.delivered <+: x.sent ∧
      x.taken = r.delivered.length + 1)
  /-- The sender's datagrams carry the chunks under their numbers. -/
  data : ∀ dgram ∈ s.wire, ∀ seq payload, received dgram = some ⟨tagData, seq, payload⟩ →
    ∃ i, x.sent[i]? = some payload ∧ seq = UInt64.ofNat i
  /-- The receiver's datagrams acknowledge what was taken. -/
  acks : ∀ dgram ∈ r.wire, ∀ seq payload, received dgram = some ⟨tagAck, seq, payload⟩ →
    ∃ i < x.taken, seq = UInt64.ofNat i

theorem ofNat_inj {i j : ℕ} (hi : i < 2 ^ 64) (hj : j < 2 ^ 64)
    (h : UInt64.ofNat i = UInt64.ofNat j) : i = j := by
  rw [← UInt64.toNat_ofNat_of_lt' hi, h, UInt64.toNat_ofNat_of_lt' hj]

theorem forall_received_concat {wire : List Bytes} {P : UInt64 → Bytes → Prop} {tag : UInt8}
    {want : UInt8} {seq : UInt64} (hlength : payload.length ≤ maxPayload)
    (hwire : ∀ dgram ∈ wire, ∀ seq payload, received dgram = some ⟨want, seq, payload⟩ →
      P seq payload) (hnew : tag = want → P seq payload) :
    ∀ dgram ∈ wire ++ [frame tag seq payload], ∀ seq payload,
      received dgram = some ⟨want, seq, payload⟩ → P seq payload := by
  refine List.forall_mem_append.2 ⟨hwire, ?_⟩
  intro dgram hdgram seq' payload' hreceived
  rw [List.mem_singleton.1 hdgram, received_frame tag seq hlength] at hreceived
  cases hreceived
  exact hnew rfl

section

variable {x : Exchange Bytes} {s r s' r' : Endpoint} {a : Act}

theorem represents_new (sendSyn sendSyn' : Bool) :
    Represents .new (Endpoint.new sendSyn) (Endpoint.new sendSyn') where
  sent := rfl
  accepted := rfl
  pending := rfl
  sendSeq := rfl
  recvSeq := rfl
  delivered := .inl rfl
  data := by
    intro dgram hdgram seq payload hreceived
    cases sendSyn with
    | false => cases hdgram
    | true =>
      rw [List.mem_singleton.1 hdgram, received_frame tagSyn 0 (by simp)] at hreceived
      cases hreceived
  acks := by
    intro dgram hdgram seq payload hreceived
    cases sendSyn' with
    | false => cases hdgram
    | true =>
      rw [List.mem_singleton.1 hdgram, received_frame tagSyn 0 (by simp)] at hreceived
      cases hreceived

namespace Represents

theorem sender (h : Represents x s r) (hsized : Sized s) (hcount : s.sent.length < 2 ^ 64)
    (hwire : ∀ dgram, a = .recvOne dgram → dgram ∈ r.wire) (heffect : s.Effect a s') :
    ∃ x', Represents x' s' r := by
  have hdata (seq : UInt64) : ∀ dgram ∈ s.wire ++ [frame tagAck seq []], ∀ seq payload,
      received dgram = some ⟨tagData, seq, payload⟩ →
        ∃ i, x.sent[i]? = some payload ∧ seq = UInt64.ofNat i :=
    forall_received_concat (by simp) h.data fun htag => by cases htag
  cases heffect with
  | quiet hdropped hrunning =>
    exact ⟨x, { h with }⟩
  | @sent chunk rest hqueue hpending =>
    have hall : x.sent.length = x.acked := by
      have hdrop := h.pending
      rw [hpending, Option.toList_none] at hdrop
      exact le_antisymm (List.drop_eq_nil_iff.1 hdrop.symm) (x.acked_le.trans x.taken_le)
    have hchunk : chunk.length ≤ maxPayload := hsized.outRx chunk (hqueue ▸ List.mem_cons_self)
    refine ⟨x.offer hall chunk, ?_, ?_, ?_, h.sendSeq, h.recvSeq, ?_, ?_, h.acks⟩
    · simp [Endpoint.sendTo, Exchange.offer, h.sent]
    · simp [Endpoint.sendTo, Exchange.offer, h.accepted, hall]
    · simp [Endpoint.sendTo, Exchange.offer, hall]
    · rcases h.delivered with hall | ⟨hdropped, hrunning, hle, htaken⟩
      · refine .inl ?_
        rw [hall]
        exact (List.take_append_of_le_length x.taken_le).symm
      · exact .inr ⟨hdropped, hrunning, hle.trans (List.prefix_append _ _), htaken⟩
    · refine forall_received_concat hchunk (fun dgram hdgram seq payload hreceived => ?_) fun _ => ?_
      · obtain ⟨i, hi, hseq⟩ := h.data dgram hdgram seq payload hreceived
        refine ⟨i, ?_, hseq⟩
        exact (List.getElem?_append_left (List.getElem?_eq_some_iff.1 hi).1).trans hi
      · exact ⟨x.acked, by simp [Exchange.offer, ← hall], h.sendSeq⟩
  | @resent chunk hpending =>
    have hdrop : x.sent.drop x.acked = [chunk] := by rw [← h.pending, hpending]; rfl
    exact ⟨x, { h with
      data := forall_received_concat (hsized.pending chunk hpending) h.data
        fun _ => ⟨x.acked, Exchange.sent_drop_acked hdrop, h.sendSeq⟩ }⟩
  | repeated hact hreceived hseq | delivered hact hreceived hdropped
  | lost hact hreceived hdropped hrunning =>
    exact ⟨x, { h with data := hdata _ }⟩
  | @accepted dgram payload chunk hact hreceived hpending =>
    obtain ⟨i, hi, hseq⟩ := h.acks dgram (hwire dgram hact) _ _ hreceived
    have hlength : x.sent.length < 2 ^ 64 := h.sent ▸ hcount
    have htaken := x.taken_le
    have hacked := x.acked_le
    obtain rfl : x.acked = i :=
      ofNat_inj (by omega) (by omega) (h.sendSeq.symm.trans hseq)
    have hdrop : x.sent.drop x.acked = [chunk] := by rw [← h.pending, hpending]; rfl
    refine ⟨x.acknowledge hi, h.sent, ?_, ?_, ?_, h.recvSeq, h.delivered, h.data, h.acks⟩
    · rw [Exchange.acknowledge, Exchange.take_succ_acked hdrop, ← h.accepted]
    · rw [Exchange.acknowledge, ← List.drop_drop, hdrop]
      rfl
    · rw [h.sendSeq]
      exact (UInt64.ofNat_add _ 1).symm

theorem next (h : Represents x s r) (hcount : s.sent.length < 2 ^ 64) {dgram payload : Bytes}
    (hdgram : dgram ∈ s.wire) (hreceived : received dgram = some ⟨tagData, r.recvSeq, payload⟩) :
    x.sent[x.taken]? = some payload := by
  obtain ⟨i, hi, hseq⟩ := h.data dgram hdgram _ _ hreceived
  have hlength : x.sent.length < 2 ^ 64 := h.sent ▸ hcount
  have hlt := (List.getElem?_eq_some_iff.1 hi).1
  have htaken := x.taken_le
  obtain rfl : x.taken = i := ofNat_inj (by omega) (by omega) (h.recvSeq.symm.trans hseq)
  exact hi

theorem recvSeq_succ (h : Represents x s r) : r.recvSeq + 1 = UInt64.ofNat (x.taken + 1) := by
  rw [h.recvSeq]
  exact (UInt64.ofNat_add _ 1).symm

theorem acks_succ (h : Represents x s r) :
    ∀ dgram ∈ r.wire ++ [frame tagAck r.recvSeq []], ∀ seq payload,
      received dgram = some ⟨tagAck, seq, payload⟩ →
        ∃ i < x.taken + 1, seq = UInt64.ofNat i := by
  refine forall_received_concat (by simp) (fun dgram hdgram seq payload hreceived => ?_)
    fun _ => ⟨x.taken, Nat.lt_succ_self _, h.recvSeq⟩
  obtain ⟨i, hi, hseq⟩ := h.acks dgram hdgram seq payload hreceived
  exact ⟨i, Nat.lt_succ_of_lt hi, hseq⟩

theorem receiver (h : Represents x s r) (hsized : Sized r) (hcount : s.sent.length < 2 ^ 64)
    (hwire : ∀ dgram, a = .recvOne dgram → dgram ∈ s.wire) (heffect : r.Effect a r') :
    ∃ x', Represents x' s r' := by
  cases heffect with
  | quiet hdropped hrunning =>
    refine ⟨x, { h with delivered := h.delivered.imp_right ?_ }⟩
    exact fun ⟨hd, hr, hrest⟩ => ⟨hdropped hd, hrunning hr, hrest⟩
  | @sent chunk rest hqueue hpending =>
    have hchunk : chunk.length ≤ maxPayload := hsized.outRx chunk (hqueue ▸ List.mem_cons_self)
    exact ⟨x, { h with acks := forall_received_concat hchunk h.acks fun htag => by cases htag }⟩
  | @resent chunk hpending =>
    have hchunk := hsized.pending chunk hpending
    exact ⟨x, { h with acks := forall_received_concat hchunk h.acks fun htag => by cases htag }⟩
  | @repeated dgram payload seq hact hreceived hseq =>
    -- a chunk that was sent and is not the next one has been taken
    obtain ⟨i, hi, rfl⟩ := h.data dgram (hwire dgram hact) _ _ hreceived
    have hne : i ≠ x.taken := fun heq => hseq (heq ▸ h.recvSeq.symm)
    have hle := Exchange.le_taken (List.getElem?_eq_some_iff.1 hi).1
    exact ⟨x, { h with
      acks := forall_received_concat (by simp) h.acks fun _ => ⟨i, by omega, rfl⟩ }⟩
  | @delivered dgram payload hact hreceived hdropped =>
    have hnext := h.next hcount (hwire dgram hact) hreceived
    have hall : r.delivered = x.sent.take x.taken :=
      h.delivered.resolve_right fun hlost => by simp [hdropped] at hlost
    refine ⟨x.take (List.getElem?_eq_some_iff.1 hnext).1, h.sent, h.accepted, h.pending, h.sendSeq,
      h.recvSeq_succ, .inl ?_, h.data, h.acks_succ⟩
    simp [Endpoint.sendTo, Exchange.take, List.take_add_one, hnext, hall]
  | @lost dgram payload hact hreceived hdropped hrunning =>
    have hnext := h.next hcount (hwire dgram hact) hreceived
    have hall : r.delivered = x.sent.take x.taken :=
      h.delivered.resolve_right fun hlost => by simp [hrunning] at hlost
    refine ⟨x.take (List.getElem?_eq_some_iff.1 hnext).1, h.sent, h.accepted, h.pending, h.sendSeq,
      h.recvSeq_succ, .inr ⟨hdropped, rfl, hall ▸ List.take_prefix _ _, ?_⟩, h.data, h.acks_succ⟩
    simp [Endpoint.sendTo, Exchange.take, hall, x.taken_le]
  | accepted hact hreceived hpending =>
    exact ⟨x, { h with }⟩

end Represents

end

/-! ## The link -/

inductive Side where
  | dialer
  | listener
  deriving DecidableEq

def Side.peer : Side → Side
  | .dialer => .listener
  | .listener => .dialer

@[simp] theorem Side.peer_peer (side : Side) : side.peer.peer = side := by cases side <;> rfl

@[simp] theorem Side.peer_ne (side : Side) : side.peer ≠ side := by cases side <;> simp [peer]

theorem Side.eq_or_eq_peer (side side' : Side) : side' = side ∨ side' = side.peer := by
  cases side <;> cases side' <;> simp [peer]

abbrev Link := Side → Endpoint

/-- A connection is opened; the dialer says so. -/
def start : Link := fun side => Endpoint.new (side = .dialer)

def Act.datagram : Act → Option Bytes
  | .recvOne dgram => some dgram
  | _ => none

/-- What the network may do: it hands over only what was sent. -/
def Possible (link : Link) (side : Side) (a : Act) : Prop :=
  ∀ dgram ∈ a.datagram, dgram ∈ (link side.peer).wire

instance (link : Link) (side : Side) (a : Act) : Decidable (Possible link side a) :=
  inferInstanceAs (Decidable (∀ dgram ∈ a.datagram, dgram ∈ (link side.peer).wire))

def step (link : Link) (event : Side × Act) : Link :=
  if Possible link event.1 event.2 then
    Function.update link event.1 ((link event.1).act event.2)
  else link

/-- Chunks are not too long, and each direction follows an exchange until its numbers repeat. -/
structure Follows (link : Link) : Prop where
  sized : ∀ side, Sized (link side)
  represents : ∀ side, (link side).sent.length < 2 ^ 64 →
    ∃ x, Represents x (link side) (link side.peer)

theorem follows_start : Follows start :=
  ⟨fun _ => Endpoint.sized_new _, fun _ _ => ⟨.new, represents_new _ _⟩⟩

theorem follows_step (link : Link) (event : Side × Act) (h : Follows link) :
    Follows (step link event) := by
  obtain ⟨at', a⟩ := event
  rw [step]
  split_ifs with hpossible
  · have hwire : ∀ dgram, a = .recvOne dgram → dgram ∈ (link at'.peer).wire := by
      rintro dgram rfl
      exact hpossible dgram rfl
    refine ⟨fun side => ?_, fun side hcount => ?_⟩
    · by_cases hside : side = at'
      · subst hside
        simpa using Endpoint.sized_act (h.sized side) a
      · simpa [hside] using h.sized side
    · rcases side.eq_or_eq_peer at' with rfl | rfl
      · simp only [Function.update_self] at hcount
        have heffect := Endpoint.effect_act (link at') a
        obtain ⟨x, hx⟩ := h.represents at' (heffect.length_sent_le.trans_lt hcount)
        simpa using hx.sender (h.sized at') (heffect.length_sent_le.trans_lt hcount) hwire heffect
      · simp only [ne_eq, (Side.peer_ne side).symm, not_false_eq_true,
          Function.update_of_ne] at hcount
        obtain ⟨x, hx⟩ := h.represents side hcount
        simp only [Side.peer_peer] at hwire
        simpa [(Side.peer_ne side).symm] using
          hx.receiver (h.sized side.peer) hcount hwire (Endpoint.effect_act (link side.peer) a)
  · exact h

/-- **A stream over a lossy link.** -/
theorem lossy_link (events : List (Side × Act)) (side : Side)
    (hcount : (exec step start events side).sent.length < 2 ^ 64) :
    (exec step start events side.peer).delivered <+: (exec step start events side).sent ∧
      ((exec step start events side.peer).dropped = false →
        (exec step start events side).accepted <+: (exec step start events side.peer).delivered) ∧
      (exec step start events side).accepted.length ≤
        (exec step start events side.peer).delivered.length + 1 := by
  obtain ⟨-, hrepresents⟩ := exec_inv follows_step follows_start events
  obtain ⟨x, h⟩ := hrepresents side hcount
  have hacked := x.acked_le
  rw [h.sent, h.accepted]
  rcases h.delivered with hall | ⟨hdropped, -, hle, htaken⟩
  · rw [hall]
    refine ⟨List.take_prefix _ _, fun _ => List.take_prefix_take_left hacked, ?_⟩
    have htaken := x.taken_le
    simp only [List.length_take]
    omega
  · refine ⟨hle, fun hopen => absurd hdropped (by simp [hopen]), ?_⟩
    rw [← htaken]
    exact (List.length_take_le _ _).trans hacked

/-- The first of two chunks is sent twice, and its copies come three times, once when the second
chunk is on its way; so do its acknowledgements. -/
def lateCopies : List (Side × Act) :=
  [(.dialer, .pollWrite (utf8 "hi")), (.dialer, .pollFlush), (.dialer, .recvOut), (.dialer, .tick),
    (.listener, .recvOne (frame tagData 0 (utf8 "hi"))),
    (.listener, .recvOne (frame tagData 0 (utf8 "hi"))),
    (.dialer, .recvOne (frame tagAck 0 [])), (.dialer, .recvOne (frame tagAck 0 [])),
    (.dialer, .pollWrite (utf8 "ho")), (.dialer, .pollFlush), (.dialer, .recvOut),
    (.listener, .recvOne (frame tagData 0 (utf8 "hi"))), (.dialer, .recvOne (frame tagAck 0 []))]

/-- The first chunk is delivered once. -/
theorem delivered_once :
    (exec step start lateCopies .dialer).sent.length < 2 ^ 64 ∧
      (exec step start lateCopies .listener).dropped = false ∧
      (exec step start lateCopies .dialer).accepted = [utf8 "hi"] ∧
      (exec step start lateCopies .dialer).accepted <+:
        (exec step start lateCopies .listener).delivered ∧
      (exec step start lateCopies .listener).delivered <+:
        (exec step start lateCopies .dialer).sent := by
  have hcount : (exec step start lateCopies .dialer).sent.length < 2 ^ 64 := by decide +kernel
  have hopen : (exec step start lateCopies .listener).dropped = false := by decide +kernel
  obtain ⟨hdelivered, haccepted, -⟩ := lossy_link lateCopies .dialer hcount
  exact ⟨hcount, hopen, by decide +kernel, haccepted hopen, hdelivered⟩

/-- The listener has a chunk on its way when its stream is dropped; then a chunk arrives, and its
acknowledgement gets through. -/
def ackedAndGone : List (Side × Act) :=
  [(.listener, .pollWrite (utf8 "bye")), (.listener, .pollFlush), (.listener, .recvOut),
    (.listener, .drop), (.dialer, .pollWrite (utf8 "hi")), (.dialer, .pollFlush),
    (.dialer, .recvOut), (.listener, .recvOne (frame tagData 0 (utf8 "hi"))),
    (.dialer, .recvOne (frame tagAck 0 []))]

/-- **The acknowledgement goes out before the chunk is delivered.** -/
theorem acknowledged_but_lost :
    (exec step start ackedAndGone .dialer).sent = [utf8 "hi"] ∧
      (exec step start ackedAndGone .dialer).accepted = [utf8 "hi"] ∧
      (exec step start ackedAndGone .listener).delivered = [] ∧
      (exec step start ackedAndGone .listener).running = false := by
  decide +kernel

/-! ## When the numbers repeat -/

def pair (d l : Endpoint) : Link
  | .dialer => d
  | .listener => l

theorem step_pair {d l : Endpoint} {side : Side} {a : Act} (h : Possible (pair d l) side a) :
    step (pair d l) (side, a) = Side.casesOn side (pair (d.act a) l) (pair d (l.act a)) := by
  rw [step, if_pos h]
  funext side'
  cases side <;> cases side' <;> rfl

/-- A chunk of one byte is sent, delivered and acknowledged. -/
def round (n : ℕ) : List (Side × Act) :=
  [(.dialer, .pollWrite [0]), (.dialer, .pollFlush), (.dialer, .recvOut),
    (.listener, .recvOne (frame tagData (UInt64.ofNat n) [0])),
    (.dialer, .recvOne (frame tagAck (UInt64.ofNat n) []))]

def senderAfter (n : ℕ) : Endpoint :=
  { Endpoint.new true with
    sendSeq := UInt64.ofNat n
    wire := frame tagSyn 0 [] :: (List.range n).map fun i => frame tagData (UInt64.ofNat i) [0]
    sent := List.replicate n [0]
    accepted := List.replicate n [0] }

def receiverAfter (n : ℕ) : Endpoint :=
  { Endpoint.new false with
    recvSeq := UInt64.ofNat n
    wire := (List.range n).map fun i => frame tagAck (UInt64.ofNat i) []
    delivered := List.replicate n [0] }

theorem act_send (n : ℕ) :
    (((senderAfter n).act (.pollWrite [0])).act .pollFlush).act .recvOut =
      { senderAfter n with
        pending := some [0]
        wire := (senderAfter n).wire ++ [frame tagData (UInt64.ofNat n) [0]]
        sent := List.replicate n [0] ++ [[0]] } := by
  simp [senderAfter, Endpoint.new, Endpoint.act, Endpoint.pollWrite, Endpoint.drain,
    Endpoint.pollFlush, Endpoint.recvOut, Endpoint.sendTo, maxPayload]

theorem exec_round (n : ℕ) :
    exec step (pair (senderAfter n) (receiverAfter n)) (round n) =
      pair (senderAfter (n + 1)) (receiverAfter (n + 1)) := by
  have hdata : received (frame tagData (UInt64.ofNat n) [0]) =
      some ⟨tagData, UInt64.ofNat n, [0]⟩ := received_frame _ _ (by decide)
  have hack : received (frame tagAck (UInt64.ofNat n) []) =
      some ⟨tagAck, UInt64.ofNat n, []⟩ := received_frame _ _ (by decide)
  have hreceiver : (receiverAfter n).act (.recvOne (frame tagData (UInt64.ofNat n) [0])) =
      receiverAfter (n + 1) := by
    simp [receiverAfter, Endpoint.new, Endpoint.act, Endpoint.handleDatagram, hdata,
      Endpoint.sendTo, List.range_succ, List.replicate_succ']
  simp only [round, exec_cons, exec_nil]
  rw [step_pair (by simp [Possible, Act.datagram]), step_pair (by simp [Possible, Act.datagram]),
    step_pair (by simp [Possible, Act.datagram]), act_send,
    step_pair (by simp [Possible, Act.datagram, pair, Side.peer]), hreceiver,
    step_pair (by simp [Possible, Act.datagram, pair, Side.peer, receiverAfter, List.range_succ])]
  have htag : tagAck ≠ tagData := by decide
  simp [senderAfter, Endpoint.new, Endpoint.act, Endpoint.handleDatagram, hack, htag,
    List.range_succ, List.replicate_succ']

theorem exec_rounds (n : ℕ) :
    exec step start ((List.range n).flatMap round) =
      pair (senderAfter n) (receiverAfter n) := by
  induction n with
  | zero =>
    funext side
    cases side <;> rfl
  | succ n ih =>
    rw [List.range_succ, List.flatMap_append, exec_append, ih, List.flatMap_singleton, exec_round]

/-- **After 2⁶⁴ chunks the numbers repeat.** -/
theorem counter_wraps :
    ∃ events, (∀ side, (exec step start events side).dropped = false) ∧
      ¬ (exec step start events .listener).delivered <+: (exec step start events .dialer).sent := by
  obtain ⟨n, hn⟩ : ∃ n, n = 2 ^ 64 := ⟨_, rfl⟩
  have hzero : UInt64.ofNat n = 0 := by rw [hn]; decide
  have hpos : 0 < n := hn ▸ Nat.two_pow_pos 64
  have hdata : received (frame tagData 0 [0]) = some ⟨tagData, 0, [0]⟩ :=
    received_frame _ _ (by decide)
  have hcopy : frame tagData 0 [0] ∈ (senderAfter n).wire :=
    List.mem_cons_of_mem _ (List.mem_map.2 ⟨0, List.mem_range.2 hpos, rfl⟩)
  refine ⟨(List.range n).flatMap round ++ [(.listener, .recvOne (frame tagData 0 [0]))], ?_⟩
  rw [exec_concat, exec_rounds,
    step_pair (by simpa [Possible, Act.datagram, pair, Side.peer] using hcopy)]
  have hagain : (receiverAfter n).act (.recvOne (frame tagData 0 [0])) =
      { receiverAfter n with
        recvSeq := 1
        wire := (receiverAfter n).wire ++ [frame tagAck 0 []]
        delivered := List.replicate n [0] ++ [[0]] } := by
    simp [receiverAfter, Endpoint.new, Endpoint.act, Endpoint.handleDatagram, hdata, hzero,
      Endpoint.sendTo]
  rw [hagain]
  refine ⟨fun side => by cases side <;> rfl, fun hle => ?_⟩
  have hlength := hle.length_le
  simp [pair, senderAfter] at hlength

end Pillar.Net.UdpStream
