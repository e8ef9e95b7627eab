import Pillar.Lib.Select
import Pillar.Lib.SortDedup
import Pillar.StreamDb.OpLog

/-!
# The keyed store

`pillar-keyedstore`: a key-value surface and a document surface over one last-writer-wins fold of
the op log.

* `winner_eq_some_iff` — **which write a read returns**: of the writes to the field with the highest
  stamp, the one with the least address.
-/

namespace Pillar
namespace KeyedStore

open Std Lib.Compare

/-! ## Stamps -/

@[ext] structure Hlc where
  physical : UInt64
  logical : UInt64
  author : Str
  deriving DecidableEq

namespace Hlc

instance : Ord Hlc :=
  ⟨compareLex (compareOn physical) (compareLex (compareOn logical) (compareOn author))⟩

theorem compare_def (a b : Hlc) :
    compare a b = (compare a.physical b.physical).then
      ((compare a.logical b.logical).then (compare a.author b.author)) := rfl

instance : TransOrd Hlc :=
  inferInstanceAs (TransCmp
    (compareLex (compareOn physical) (compareLex (compareOn logical) (compareOn author))))

instance : LawfulEqOrd Hlc where
  eq_of_compare := by
    intro a b h
    rw [compare_def, Ordering.then_eq_eq, Ordering.then_eq_eq] at h
    exact Hlc.ext (LawfulEqCmp.eq_of_compare h.1) (LawfulEqCmp.eq_of_compare h.2.1)
      (LawfulEqCmp.eq_of_compare h.2.2)

instance : LinearOrder Hlc := linearOrderOfOrd Hlc

/-- Whether `self` strictly wins over `other`: higher physical, then higher
logical, then higher author. -/
def happensAfter (self other : Hlc) : Bool := decide (self > other)

end Hlc

/-! ## Values and writes -/

mutual

/-- A value, before its fields are known to be sorted. -/
inductive RawValue where
  | scalar (bytes : Bytes)
  | nested (fields : RawFields)
  deriving DecidableEq

/-- The entries of a nested value. -/
inductive RawFields where
  | nil
  | cons (name : Str) (value : RawValue) (rest : RawFields)
  deriving DecidableEq

end

/-- Whether `name` comes before every entry: entries are sorted, so before the
first. -/
def RawFields.startsAfter (name : Str) : RawFields → Bool
  | .nil => true
  | .cons first _ _ => decide (name < first)

mutual

/-- Whether the entries are those of a `BTreeMap`, in key order at every
level. -/
def RawValue.sorted : RawValue → Bool
  | .scalar _ => true
  | .nested fields => fields.sorted

def RawFields.sorted : RawFields → Bool
  | .nil => true
  | .cons name value rest => value.sorted && rest.startsAfter name && rest.sorted

end

def Value := {v : RawValue // v.sorted = true}

instance : DecidableEq Value := inferInstanceAs (DecidableEq {v : RawValue // v.sorted = true})

def Value.scalar (bytes : Bytes) : Value := ⟨.scalar bytes, rfl⟩

def Value.asScalar (v : Value) : Option Bytes :=
  match v.1 with
  | .scalar bytes => some bytes
  | .nested _ => none

inductive OpKind where
  | put (value : Value)
  | tomb
  deriving DecidableEq

/-- The value a write leaves in its field. -/
def OpKind.live : OpKind → Option Value
  | .put v => some v
  | .tomb => none

theorem OpKind.live_injective : Function.Injective OpKind.live := by
  intro a b h
  cases a <;> cases b <;> simp_all [OpKind.live]

@[ext] structure KeyedOp where
  collection : Str
  id : Str
  field : Str
  hlc : Hlc
  kind : OpKind
  deriving DecidableEq

structure KeyedCodec where
  encode : KeyedOp → Bytes
  /-- `serde_json::from_slice`, `none` when the bytes are not a write. -/
  decode : Bytes → Option KeyedOp

/-- What is written reads back as itself, if it reads back at all: the decoder
gives up on values nested deeper than its recursion limit. -/
def KeyedCodec.Faithful (J : KeyedCodec) : Prop :=
  ∀ k k', J.decode (J.encode k) = some k' → k' = k

end KeyedStore

open StreamDb

structure KeyedStore (H : Bytes → Bytes) (J : KeyedStore.KeyedCodec) where
  log : OpLog H

namespace KeyedStore

open Lib.Select Lib.SortDedup

variable {H : Bytes → Bytes} {J : KeyedCodec}

/-! ## Writing -/

/-- The single field name of the key-value surface. -/
def kvField : Str := ⟨"", by decide⟩

def new : KeyedStore H J := ⟨OpLog.new⟩

def appendOp (s : KeyedStore H J) (op : KeyedOp) : KeyedStore H J × OpId :=
  let (log, id) := s.log.append (J.encode op)
  (⟨log⟩, id)

def kvPut (s : KeyedStore H J) (collection key : Str) (value : Bytes) (hlc : Hlc) :
    KeyedStore H J × OpId :=
  s.appendOp ⟨collection, key, kvField, hlc, .put (.scalar value)⟩

def kvDelete (s : KeyedStore H J) (collection key : Str) (hlc : Hlc) : KeyedStore H J × OpId :=
  s.appendOp ⟨collection, key, kvField, hlc, .tomb⟩

def docPutField (s : KeyedStore H J) (collection id field : Str) (value : Value) (hlc : Hlc) :
    KeyedStore H J × OpId :=
  s.appendOp ⟨collection, id, field, hlc, .put value⟩

def docDeleteField (s : KeyedStore H J) (collection id field : Str) (hlc : Hlc) :
    KeyedStore H J × OpId :=
  s.appendOp ⟨collection, id, field, hlc, .tomb⟩

def merge (s other : KeyedStore H J) : KeyedStore H J := ⟨s.log.merge other.log⟩

/-! ## Reading -/

def writes (s : KeyedStore H J) : List KeyedOp := s.log.order.filterMap fun op => J.decode op.payload

def readFor (J : KeyedCodec) (collection id field : Str) (op : Op H) : Option KeyedOp :=
  (J.decode op.payload).bind fun k =>
    if k.collection = collection ∧ k.id = id ∧ k.field = field then some k else none

def opsFor (s : KeyedStore H J) (collection id field : Str) : List KeyedOp :=
  s.log.order.filterMap (readFor J collection id field)

def better (best : Option KeyedOp) (op : KeyedOp) : Option KeyedOp :=
  match best with
  | some b => if !op.hlc.happensAfter b.hlc then some b else some op
  | none => some op

def winner (s : KeyedStore H J) (collection id field : Str) : Option KeyedOp :=
  (s.opsFor collection id field).foldl better none

def fieldValue (s : KeyedStore H J) (collection id field : Str) : Option Value :=
  (s.winner collection id field).bind fun k => k.kind.live

def kvGet (s : KeyedStore H J) (collection key : Str) : Option Bytes :=
  (s.fieldValue collection key kvField).bind Value.asScalar

def kvKeys (s : KeyedStore H J) (collection : Str) : List Str :=
  let ids := (s.writes.filter fun k => k.collection = collection ∧ k.field = kvField).map KeyedOp.id
  (sortDedup ids).filter fun id => (s.kvGet collection id).isSome

def docGetField (s : KeyedStore H J) (collection id field : Str) : Option Value :=
  s.fieldValue collection id field

/-- The live field names of a document, sorted. -/
def docFields (s : KeyedStore H J) (collection id : Str) : List Str :=
  let fields := (s.writes.filter fun k => k.collection = collection ∧ k.id = id).map KeyedOp.field
  (sortDedup fields).filter fun f => (s.fieldValue collection id f).isSome

/-- The ids of the documents with a live field, sorted. -/
def docIds (s : KeyedStore H J) (collection : Str) : List Str :=
  let ids := (s.writes.filter fun k => k.collection = collection).map KeyedOp.id
  (sortDedup ids).filter fun id => !(s.docFields collection id).isEmpty

/-! ## Which write a read returns -/

theorem readFor_eq_some_iff {collection id field : Str} {op : Op H} {k : KeyedOp} :
    readFor J collection id field op = some k ↔
      J.decode op.payload = some k ∧ k.collection = collection ∧ k.id = id ∧ k.field = field := by
  rw [readFor, Option.bind_eq_some_iff]
  constructor
  · rintro ⟨k', hk', h⟩
    by_cases hslot : k'.collection = collection ∧ k'.id = id ∧ k'.field = field
    · rw [if_pos hslot] at h
      obtain rfl := Option.some.inj h
      exact ⟨hk', hslot⟩
    · rw [if_neg hslot] at h
      cases h
  · rintro ⟨hk, hslot⟩
    exact ⟨k, hk, if_pos hslot⟩

theorem winner_eq_argmax (s : KeyedStore H J) (collection id field : Str) :
    s.winner collection id field = (s.opsFor collection id field).argmax KeyedOp.hlc := by
  have hstep : better = List.argAux fun b c : KeyedOp => c.hlc < b.hlc := by
    funext best op
    cases best with
    | none => rfl
    | some b =>
      by_cases h : b.hlc < op.hlc <;> simp [better, List.argAux, Hlc.happensAfter, h]
  rw [winner, hstep]
  rfl

/-- **Which write a read returns.** -/
theorem winner_eq_some_iff (hH : CollisionFree H) {s : KeyedStore H J} {collection id field : Str}
    {k : KeyedOp} :
    s.winner collection id field = some k ↔
      ∃ op, IsFirstMax Op.id (readFor J collection id field) KeyedOp.hlc {o | o ∈ s.log} op k := by
  have hset : {o | o ∈ s.log.order} = {o | o ∈ s.log} := Set.ext fun o => OpLog.mem_order
  rw [winner_eq_argmax, opsFor, ← hset]
  exact argmax_filterMap_eq_some_iff _ KeyedOp.hlc (Op.id_injective hH) s.log.order_sorted

/-! ## Reachable stores -/

inductive Reached : KeyedStore H J → Prop
  | new : Reached new
  | kvPut {s} (h : Reached s) (collection key value hlc) :
      Reached (s.kvPut collection key value hlc).1
  | kvDelete {s} (h : Reached s) (collection key hlc) : Reached (s.kvDelete collection key hlc).1
  | docPutField {s} (h : Reached s) (collection id field value hlc) :
      Reached (s.docPutField collection id field value hlc).1
  | docDeleteField {s} (h : Reached s) (collection id field hlc) :
      Reached (s.docDeleteField collection id field hlc).1
  | merge {s other} (h : Reached s) (h' : Reached other) : Reached (s.merge other)

theorem mem_appendOp (hH : CollisionFree H) {s : KeyedStore H J} {k : KeyedOp} {op : Op H} :
    op ∈ (s.appendOp k).1.log ↔ op = Op.new (J.encode k) ∨ op ∈ s.log :=
  OpLog.mem_append hH

theorem Reached.encoded (hH : CollisionFree H) {s : KeyedStore H J} (h : Reached s) {op : Op H}
    (hop : op ∈ s.log) : ∃ k, op.payload = J.encode k := by
  have happend : ∀ (s : KeyedStore H J) (k : KeyedOp), (op ∈ s.log → ∃ k, op.payload = J.encode k) →
      op ∈ (s.appendOp k).1.log → ∃ k, op.payload = J.encode k := by
    intro s k ih hop
    rcases (mem_appendOp hH).1 hop with rfl | hop
    · exact ⟨k, rfl⟩
    · exact ih hop
  induction h with
  | new => exact absurd hop (OpLog.not_mem_new op)
  | kvPut h collection key value hlc ih | kvDelete h collection key hlc ih
  | docPutField h collection id field value hlc ih | docDeleteField h collection id field hlc ih =>
    exact happend _ _ ih hop
  | merge h h' ih ih' =>
    rcases (OpLog.mem_merge hH).1 hop with hop | hop
    · exact ih' hop
    · exact ih hop

theorem Reached.eq_of_decode_eq (hH : CollisionFree H) (hJ : J.Faithful) {s : KeyedStore H J}
    (h : Reached s) {a b : Op H} (ha : a ∈ s.log) (hb : b ∈ s.log) {k : KeyedOp}
    (hak : J.decode a.payload = some k) (hbk : J.decode b.payload = some k) : a = b := by
  obtain ⟨i, hi⟩ := h.encoded hH ha
  obtain ⟨j, hj⟩ := h.encoded hH hb
  have hik : k = i := hJ i k (by rw [← hi, hak])
  have hjk : k = j := hJ j k (by rw [← hj, hbk])
  exact Op.ext_payload (by rw [hi, hj, ← hik, ← hjk])

end KeyedStore
end Pillar
