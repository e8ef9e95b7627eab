import Pillar.KeyedStore.Writers
import Pillar.SqlViews.Views
import Pillar.WotAuthority.Authority

/-!
# The web of trust as documents

`pillar-net`'s trust store: a certification is a document of a keyed store, named by its two keys
with an arrow in between, and who is reachable is a traversal of the collection.
-/

namespace Pillar

open Std KeyedStore SqlViews Lib.Delimited Lib.Runs

/-! ## Edges as documents -/

inductive TrustKind where
  | certify
  deriving DecidableEq

def TrustKind.bytes : TrustKind → Bytes
  | .certify => utf8 "certify"

def TrustKind.fromBytes (b : Bytes) : Option TrustKind :=
  if b = utf8 "certify" then some .certify else none

/-- Two keys, short enough that the name of their document can be allocated. -/
@[ext] structure EdgePair where
  source : Str
  target : Str
  fits : (source.val ++ "->" ++ target.val).utf8ByteSize < 2 ^ 63
  deriving DecidableEq

def edgeId (pair : EdgePair) : Str := ⟨pair.source.val ++ "->" ++ pair.target.val, pair.fits⟩

@[ext] structure TrustEdge where
  pair : EdgePair
  kind : TrustKind
  weight : UInt8
  deriving DecidableEq

def weightBytes (weight : UInt8) : Bytes := utf8 (String.ofList (Nat.toDigits 10 weight.toNat))

/-- `str::parse::<u8>`, which takes a sign. -/
def parseU8 (text : List Char) : Option UInt8 :=
  let digits := if text.head? = some '+' then text.tail else text
  let n := Nat.ofDigitChars 10 digits 0
  if digits ≠ [] ∧ digits.all Char.isDigit ∧ n < 2 ^ 8 then some (UInt8.ofNat n) else none

theorem parseU8_toDigits (weight : UInt8) :
    parseU8 (Nat.toDigits 10 weight.toNat) = some weight := by
  have hdigit : ∀ c ∈ Nat.toDigits 10 weight.toNat, c.isDigit = true := fun _ =>
    isDigit_of_mem_decimal
  have hsign : (Nat.toDigits 10 weight.toNat).head? ≠ some '+' := fun h =>
    absurd (hdigit '+' (List.mem_of_head? h)) (by decide)
  have hn : Nat.ofDigitChars 10 (Nat.toDigits 10 weight.toNat) 0 = weight.toNat :=
    Nat.ofDigitChars_ten_toDigits
  simp only [parseU8, if_neg hsign, hn]
  rw [if_pos ⟨Nat.toDigits_ne_nil, List.all_eq_true.2 hdigit, weight.toNat_lt⟩, UInt8.ofNat_toNat]

namespace WotTrustStore

def edgesCollection : Str := ⟨"wot_trust_edges", by decide⟩

def edgesView : Str := ⟨"wot_trust_edges_view", by decide⟩

inductive Column where
  | sourceKey
  | targetKey
  | trustKind
  | weight

def Column.name : Column → Str
  | .sourceKey => ⟨"source_key", by decide⟩
  | .targetKey => ⟨"target_key", by decide⟩
  | .trustKind => ⟨"trust_kind", by decide⟩
  | .weight => ⟨"weight", by decide⟩

def columns : List Column := [.sourceKey, .targetKey, .trustKind, .weight]

theorem Column.name_injective : Function.Injective Column.name := by
  intro a b h
  cases a <;> cases b <;> first | rfl | exact absurd h (by decide)

theorem Column.mem_columns (c : Column) : c ∈ columns := by
  cases c <;> simp [columns]

theorem columns_nodup : columns.Nodup := by
  simp [columns]

def cell (e : TrustEdge) : Column → Bytes
  | .sourceKey => e.pair.source.bytes
  | .targetKey => e.pair.target.bytes
  | .trustKind => e.kind.bytes
  | .weight => weightBytes e.weight

/-- The edge of a row, `none` if a field is missing or malformed. -/
def decodeEdgeRow (row : Row) : Option TrustEdge :=
  (row.text Column.sourceKey.name).bind fun source =>
    (row.text Column.targetKey.name).bind fun target =>
      ((row.scalar Column.trustKind.name).bind TrustKind.fromBytes).bind fun kind =>
        ((row.scalar Column.weight.name).bind fun b =>
          (String.fromUTF8? ⟨b.toArray⟩).bind fun text => parseU8 text.toList).bind fun weight =>
            if fits : (source.val ++ "->" ++ target.val).utf8ByteSize < 2 ^ 63 then
              some ⟨⟨source, target, fits⟩, kind, weight⟩
            else none

end WotTrustStore

/-! ## The store -/

structure WotTrustStore (H : Bytes → Bytes) (J : KeyedCodec) where
  store : KeyedStore H J
  owner : Str
  maxDepth : UInt8
  logicalClock : UInt64

namespace WotTrustStore

variable {H : Bytes → Bytes} {J : KeyedCodec}

def moduleAuthor : Str := ⟨"wot-trust-document-migration", by decide⟩

def freshStore (V : ViewCodec) : KeyedStore H J :=
  createView V KeyedStore.new edgesView (.over_ edgesCollection) ⟨0, 0, moduleAuthor⟩

def new (V : ViewCodec) (owner : Str) (maxDepth : UInt8) : WotTrustStore H J :=
  ⟨freshStore V, owner, maxDepth, 0⟩

def nextHlc (t : WotTrustStore H J) (actor : Str) : Hlc := ⟨t.logicalClock + 1, 0, actor⟩

/-- An edge is written as the fields of one document. -/
def certify (t : WotTrustStore H J) (pair : EdgePair) (weight : UInt8) : WotTrustStore H J :=
  let id := edgeId pair
  let hlc := t.nextHlc pair.source
  let s := (t.store.docPutField edgesCollection id Column.sourceKey.name
    (.scalar pair.source.bytes) hlc).1
  let s := (s.docPutField edgesCollection id Column.targetKey.name
    (.scalar pair.target.bytes) hlc).1
  let s := (s.docPutField edgesCollection id Column.trustKind.name
    (.scalar TrustKind.certify.bytes) hlc).1
  let s := (s.docPutField edgesCollection id Column.weight.name
    (.scalar (weightBytes weight)) hlc).1
  { t with store := s, logicalClock := t.logicalClock + 1 }

def revoke (t : WotTrustStore H J) (pair : EdgePair) : WotTrustStore H J :=
  let hlc := t.nextHlc pair.source
  { t with
    store := columns.foldl (fun s c =>
      (s.docDeleteField edgesCollection (edgeId pair) c.name hlc).1) t.store
    logicalClock := t.logicalClock + 1 }

def liveEdges (V : ViewCodec) (t : WotTrustStore H J) : List TrustEdge :=
  ((materializeView V t.store edgesView).getD []).filterMap decodeEdgeRow

def projectedEdges : Str := ⟨"edges", by decide⟩

def projectionAuthor : Str := ⟨"wot-traverse-projection", by decide⟩

/-- An edge in the shape of those that are traversed. -/
def projectEdge (p : KeyedStore H J × UInt64) (e : TrustEdge) : KeyedStore H J × UInt64 :=
  let id := edgeId e.pair
  let hlc : Hlc := ⟨p.2 + 1, 0, projectionAuthor⟩
  let s := (p.1.docPutField projectedEdges id edgeFrom (.scalar e.pair.source.bytes) hlc).1
  ((s.docPutField projectedEdges id edgeTo (.scalar e.pair.target.bytes) hlc).1, p.2 + 1)

def projectionStore (V : ViewCodec) (t : WotTrustStore H J) : KeyedStore H J :=
  (exec projectEdge (KeyedStore.new, 0) (t.liveEdges V)).1

def reachable (V : ViewCodec) (t : WotTrustStore H J) (source : Str) : Finset Str :=
  traverse (t.projectionStore V) projectedEdges source t.maxDepth.toNat

def isReachableFromOwner (V : ViewCodec) (t : WotTrustStore H J) (target : Str) : Bool :=
  decide (target = t.owner) || decide (target ∈ t.reachable V t.owner)

def asAuthority (V : ViewCodec) (t : WotTrustStore H J) : WotAuthority :=
  (t.liveEdges V).foldl (fun a e =>
    match e.kind with
    | .certify => a.issueEdge e.pair.source.val e.pair.target.val e.weight.toNat)
    (WotAuthority.new t.owner.val t.maxDepth.toNat)

/-! ## Runs -/

inductive Call where
  | certify (pair : EdgePair) (weight : UInt8)
  | revoke (pair : EdgePair)
  deriving DecidableEq

namespace Call

def pair : Call → EdgePair
  | .certify pair _ => pair
  | .revoke pair => pair

def apply (t : WotTrustStore H J) : Call → WotTrustStore H J
  | .certify pair weight => t.certify pair weight
  | .revoke pair => t.revoke pair

def issue (w : WotAuthority) : Call → WotAuthority
  | .certify pair weight => w.issueEdge pair.source.val pair.target.val weight.toNat
  | .revoke pair => w.revokeEdge pair.source.val pair.target.val

def record : Call → Option TrustEdge
  | .certify pair weight => some ⟨pair, .certify, weight⟩
  | .revoke _ => none

def write (call : Call) : DocWrite Column :=
  ⟨edgeId call.pair, call.pair.source, fun c =>
    call.record.elim .tomb fun e => .put (.scalar (cell e c))⟩

theorem flat_write (call : Call) (c : Column) : (call.write.kind c).Flat := by
  cases call with
  | certify pair weight => exact ⟨_, rfl⟩
  | revoke pair => trivial

end Call

def run (H : Bytes → Bytes) (J : KeyedCodec) (V : ViewCodec) (owner : Str) (maxDepth : UInt8)
    (calls : List Call) : WotTrustStore H J :=
  exec Call.apply (new V owner maxDepth) calls

def authority (owner : Str) (maxDepth : UInt8) (calls : List Call) : WotAuthority :=
  exec Call.issue (WotAuthority.new owner.val maxDepth.toNat) calls

def documents (calls : List Call) (id : Str) : Option TrustEdge :=
  (calls.reverse.find? fun c => edgeId c.pair = id).bind Call.record

variable {V : ViewCodec} {owner : Str} {maxDepth : UInt8} {calls : List Call}

theorem run_eq (calls : List Call) :
    ((run H J V owner maxDepth calls).store, (run H J V owner maxDepth calls).logicalClock) =
        exec (DocWrite.apply edgesCollection Column.name columns)
          (freshStore V, 0) (calls.map Call.write) ∧
      (run H J V owner maxDepth calls).owner = owner ∧
      (run H J V owner maxDepth calls).maxDepth = maxDepth := by
  induction calls using List.reverseRecOn with
  | nil => exact ⟨rfl, rfl, rfl⟩
  | append_singleton calls call ih =>
    obtain ⟨hstore, howner, hdepth⟩ := ih
    rw [List.map_append, List.map_singleton, exec_concat, ← hstore, run, exec_concat]
    cases call with
    | certify pair weight | revoke pair => exact ⟨rfl, howner, hdepth⟩

theorem edge_of_documents {id : Str} {e : TrustEdge} (h : documents calls id = some e) :
    edgeId e.pair = id ∧ .certify e.pair e.weight ∈ calls := by
  obtain ⟨call, hcall, hrecord⟩ := Option.bind_eq_some_iff.1 h
  have hid : edgeId call.pair = id := by simpa using List.find?_some hcall
  have hmem := List.mem_reverse.1 (List.mem_of_find?_eq_some hcall)
  cases call with
  | certify pair weight =>
    obtain rfl := Option.some.inj hrecord
    exact ⟨hid, hmem⟩
  | revoke pair => cases hrecord

theorem decodeEdgeRow_of_cells {s : KeyedStore H J} {id : Str} {doc : Option TrustEdge}
    (hcell : ∀ c, s.docGetField edgesCollection id (Column.name c) =
      doc.map fun e => .scalar (cell e c)) :
    decodeEdgeRow ⟨id, rowFields s edgesCollection id none⟩ = doc := by
  have hscalar : ∀ c, Row.scalar ⟨id, rowFields s edgesCollection id none⟩ (Column.name c) =
      doc.map fun e => cell e c := by
    intro c
    have hdot : '.' ∉ c.name.val.toList := by cases c <;> decide
    rw [Row.scalar, getElem?_rowFields s _ _ hdot, hcell]
    cases doc <;> rfl
  cases doc with
  | none => simp [decodeEdgeRow, Row.text, hscalar]
  | some e =>
    have hsource : Str.fromUtf8 (cell e .sourceKey) = some e.pair.source :=
      Str.fromUtf8_eq_some_iff.2 rfl
    have htarget : Str.fromUtf8 (cell e .targetKey) = some e.pair.target :=
      Str.fromUtf8_eq_some_iff.2 rfl
    have hkind : TrustKind.fromBytes (cell e .trustKind) = some e.kind := by
      cases e.kind
      rfl
    have hweight : (String.fromUTF8? ⟨(cell e .weight).toArray⟩).bind (fun text =>
        parseU8 text.toList) = some e.weight := by
      rw [cell, weightBytes, fromUTF8?_utf8, Option.bind_some, String.toList_ofList,
        parseU8_toDigits]
    simp only [decodeEdgeRow, Row.text, hscalar, Option.map_some, Option.bind_some, hsource,
      htarget, hkind, hweight]
    exact dif_pos e.pair.fits

/-! ## What is read after the calls -/

section Fresh

variable (hH : CollisionFree H) (hJ : J.RoundTrips)

include hH hJ

theorem counted_freshStore : Counted ((freshStore V : KeyedStore H J), 0) :=
  ⟨⟨0, 0, moduleAuthor⟩, (stampedUpTo_new ⟨0, 0, moduleAuthor⟩).appendOp hH
    (k := catalogOp V edgesView (.over_ edgesCollection) ⟨0, 0, moduleAuthor⟩) le_rfl
    (hJ _ ⟨_, rfl⟩), rfl⟩

theorem docGetField_freshStore (id field : Str) :
    (freshStore V : KeyedStore H J).docGetField edgesCollection id field = none := by
  have hwinner := winner_appendOp_of_ne hH (s := (KeyedStore.new : KeyedStore H J))
    (hJ (catalogOp V edgesView (.over_ edgesCollection) ⟨0, 0, moduleAuthor⟩) ⟨_, rfl⟩)
    fun (hslot : _ ∧ (_ = id) ∧ (_ = field)) =>
      absurd hslot.1 (by decide : catalogCollection ≠ edgesCollection)
  rw [docGetField, fieldValue]
  exact congrArg (Option.bind · _) (hwinner.trans (winner_new _ _ _))

theorem viewDef_freshStore (hV : V.Keeps (.over_ edgesCollection)) :
    viewDef V (freshStore V : KeyedStore H J) edgesView = some (.over_ edgesCollection) := by
  have hwinner := winner_appendOp_of_later hH (s := (KeyedStore.new : KeyedStore H J))
    (hJ (catalogOp V edgesView (.over_ edgesCollection) ⟨0, 0, moduleAuthor⟩) ⟨_, rfl⟩)
    fun m hm => absurd hm (by simp)
  have hread : (freshStore V : KeyedStore H J).docGetField catalogCollection edgesView
      catalogDefField = some (.scalar (V.encode (.over_ edgesCollection))) :=
    congrArg (Option.bind · _) hwinner
  rw [viewDef, hread]
  exact hV

end Fresh

section Reading

variable (hH : CollisionFree H) (hJ : J.RoundTrips) (hV : V.Keeps (.over_ edgesCollection))
  (hroom : calls.length < 2 ^ 64)

include hH hJ hroom

theorem wrote_run : Wrote edgesCollection Column.name columns
    (freshStore V, 0) (calls.map Call.write)
    ((run H J V owner maxDepth calls).store, (run H J V owner maxDepth calls).logicalClock) := by
  rw [(run_eq calls).1]
  refine wrote_exec_apply hH hJ Column.name_injective columns_nodup (counted_freshStore hH hJ) ?_ ?_
  · intro d hd
    obtain ⟨call, -, rfl⟩ := List.mem_map.1 hd
    exact call.flat_write
  · simpa using hroom

theorem docGetField_run (id : Str) (c : Column) :
    (run H J V owner maxDepth calls).store.docGetField edgesCollection id c.name =
      (documents calls id).map fun e => .scalar (cell e c) := by
  rw [(wrote_run hH hJ hroom).fields id c c.mem_columns, lastWrite_map, documents,
    docGetField_freshStore hH hJ]
  show Option.elim (Option.map _ (calls.reverse.find? fun c => edgeId c.pair = id)) _ _ = _
  cases calls.reverse.find? fun c => edgeId c.pair = id with
  | none => rfl
  | some call => cases call <;> rfl

include hV

/-- **The live edges are those that the calls leave behind.** -/
theorem liveEdges_run : (run H J V owner maxDepth calls).liveEdges V =
    ((run H J V owner maxDepth calls).store.docIds edgesCollection).filterMap
    (documents calls) := by
  have hview : viewDef V (run H J V owner maxDepth calls).store edgesView =
      some (.over_ edgesCollection) := by
    rw [viewDef, (wrote_run hH hJ hroom).others catalogCollection (by decide)]
    exact viewDef_freshStore hH hJ hV
  rw [liveEdges, materializeView, hview, Option.map_some, Option.getD_some, materialize_over_,
    List.filterMap_map]
  exact List.filterMap_congr fun id _ => decodeEdgeRow_of_cells (docGetField_run hH hJ hroom id)

theorem mem_liveEdges_run {e : TrustEdge} :
    e ∈ (run H J V owner maxDepth calls).liveEdges V ↔ ∃ id, documents calls id = some e := by
  rw [liveEdges_run hH hJ hV hroom, List.mem_filterMap]
  refine ⟨fun ⟨id, _, hid⟩ => ⟨id, hid⟩, fun ⟨id, hid⟩ => ⟨id, ?_, hid⟩⟩
  refine ((listed _).mem_docIds _ _).2 ⟨Column.weight.name, ?_⟩
  rw [docGetField_run hH hJ hroom, hid]
  rfl

theorem liveEdges_apart : ((run H J V owner maxDepth calls).liveEdges V).Pairwise fun e e' =>
    edgeId e.pair ≠ edgeId e'.pair := by
  rw [liveEdges_run hH hJ hV hroom, List.pairwise_filterMap]
  refine ((listed _).docIds_sorted edgesCollection).imp fun {id id'} hlt e he e' he' heq => ?_
  exact hlt.ne ((edge_of_documents he).1.symm.trans (heq.trans (edge_of_documents he').1))

theorem length_liveEdges_le : ((run H J V owner maxDepth calls).liveEdges V).length ≤ calls.length := by
  have hnodup : (((run H J V owner maxDepth calls).liveEdges V).map fun e => edgeId e.pair).Nodup :=
    List.pairwise_map.2 (liveEdges_apart hH hJ hV hroom)
  have hsub : ∀ id ∈ ((run H J V owner maxDepth calls).liveEdges V).map fun e => edgeId e.pair,
      id ∈ calls.map fun c => edgeId c.pair := by
    intro id hid
    obtain ⟨e, he, rfl⟩ := List.mem_map.1 hid
    obtain ⟨id, hdoc⟩ := (mem_liveEdges_run hH hJ hV hroom).1 he
    exact List.mem_map.2 ⟨_, (edge_of_documents hdoc).2, rfl⟩
  simpa using (hnodup.subperm hsub).length_le

end Reading

end WotTrustStore
end Pillar
