import Pillar.KeyedStore.Store
import Pillar.StreamDb.Compaction

/-!
# Compacting a keyed store

`KeyedStore::compact_reclaiming`: of the ops that write one field the one with the highest stamp
stays.

* `readsAgree_bootstrap_iff` — **reads survive compaction exactly when every tie is settled**: the
  field has one op with the highest stamp, or the tail decides it.
-/

namespace Pillar.KeyedStore

open Std StreamDb Lib.Compare Lib.Select Lib.SortDedup

variable {H : Bytes → Bytes} {J : KeyedCodec}

/-! ## The policy -/

/-- A string behind its length as eight big-endian bytes. -/
def framed (part : Str) : Bytes := beBytes 8 part.bytes.length ++ part.bytes

def KeyedOp.groupKey (k : KeyedOp) : Bytes := framed k.collection ++ framed k.id ++ framed k.field

/-- The stamp as bytes: both clocks big-endian, then the author. -/
def Hlc.priority (h : Hlc) : Bytes :=
  beBytes 8 h.physical.toNat ++ beBytes 8 h.logical.toNat ++ h.author.bytes

def keyedFieldReclaimPolicy (H : Bytes → Bytes) (J : KeyedCodec) : ReclaimPolicy H where
  groupKey op := (J.decode op.payload).map KeyedOp.groupKey
  -- only asked of ops that decoded, so the default stands for no behaviour
  priority op := ((J.decode op.payload).map fun k => k.hlc.priority).getD []

def compactReclaiming (s : KeyedStore H J) : Snapshot H :=
  s.log.compactReclaiming (keyedFieldReclaimPolicy H J)

/-- Rebuild a store from a snapshot and the ops appended since. -/
def bootstrap (snapshot : Snapshot H) (tail : List (Op H)) : KeyedStore H J :=
  ⟨OpLog.bootstrap snapshot tail⟩

/-! ## What the policy's bytes stand for -/

theorem framed_append_inj {a b : Str} {x y : Bytes} :
    framed a ++ x = framed b ++ y ↔ a = b ∧ x = y := by
  constructor
  · intro h
    rw [framed, framed, List.append_assoc, List.append_assoc] at h
    obtain ⟨hlen, hrest⟩ := List.append_inj h (by simp)
    have hlen' := beBytes_inj a.length_bytes_lt b.length_bytes_lt hlen
    obtain ⟨hbytes, hxy⟩ := List.append_inj hrest hlen'
    exact ⟨Str.bytes_injective hbytes, hxy⟩
  · rintro ⟨rfl, rfl⟩
    rfl

variable {k : KeyedOp}

theorem groupKey_inj {l : KeyedOp} :
    k.groupKey = l.groupKey ↔ k.collection = l.collection ∧ k.id = l.id ∧ k.field = l.field := by
  have h := @framed_append_inj k.field l.field [] []
  rw [List.append_nil, List.append_nil] at h
  rw [KeyedOp.groupKey, KeyedOp.groupKey, List.append_assoc, List.append_assoc, framed_append_inj,
    framed_append_inj, h]
  tauto

theorem compare_be8 (a b : UInt64) :
    compare (beBytes 8 a.toNat) (beBytes 8 b.toNat) = compare a b := by
  rw [compare_beBytes a.toNat_lt b.toNat_lt]
  show compareOfLessAndEq a.toNat b.toNat = compareOfLessAndEq a b
  simp only [compareOfLessAndEq, UInt64.lt_iff_toNat_lt, UInt64.toNat_inj]

/-- **Priorities compare as stamps do.** -/
theorem compare_priority (a b : Hlc) : compare a.priority b.priority = compare a b := by
  rw [Hlc.priority, Hlc.priority, List.append_assoc, List.append_assoc,
    compare_append_of_length_eq (by simp), compare_append_of_length_eq (by simp), compare_be8,
    compare_be8, Hlc.compare_def, Str.compare_def]

theorem candidate_le_iff {o op : Op H} {l : KeyedOp} (ho : J.decode o.payload = some k)
    (hop : J.decode op.payload = some l) :
    (keyedFieldReclaimPolicy H J).candidate o ≤ (keyedFieldReclaimPolicy H J).candidate op ↔
      k.hlc ≤ l.hlc ∧ (k.hlc = l.hlc → o.id ≤ op.id) := by
  have hcmp : compare ((keyedFieldReclaimPolicy H J).candidate o)
      ((keyedFieldReclaimPolicy H J).candidate op) =
        (compare k.hlc l.hlc).then (compare o.id op.id) := by
    rw [Candidate.compare_def, ← compare_priority]
    simp [ReclaimPolicy.candidate, keyedFieldReclaimPolicy, ho, hop]
  show (compare ((keyedFieldReclaimPolicy H J).candidate o)
      ((keyedFieldReclaimPolicy H J).candidate op)).isLE = true ↔
    (compare k.hlc l.hlc).isLE = true ∧ (k.hlc = l.hlc → (compare o.id op.id).isLE = true)
  rw [hcmp]
  cases hc : compare k.hlc l.hlc with
  | lt =>
    have hne : k.hlc ≠ l.hlc := fun h => by simp [h] at hc
    simp [hne]
  | eq => simp [LawfulEqCmp.eq_of_compare hc]
  | gt => simp

/-! ## What the snapshot keeps -/

variable {s : KeyedStore H J}

theorem mem_compactReclaiming_iff (hH : CollisionFree H) {collection id field : Str} {op : Op H}
    (hop : readFor J collection id field op = some k) :
    op ∈ s.compactReclaiming.ops ↔
      IsLastMax Op.id (readFor J collection id field) KeyedOp.hlc {o | o ∈ s.log} op k := by
  obtain ⟨hdec, rfl, rfl, rfl⟩ := readFor_eq_some_iff.1 hop
  have hgroup : ∀ key, (keyedFieldReclaimPolicy H J).groupKey op = some key ↔ k.groupKey = key := by
    intro key
    simp [keyedFieldReclaimPolicy, hdec]
  rw [compactReclaiming, OpLog.mem_compactReclaiming hH]
  constructor
  · rintro ⟨hmem, hmax⟩
    have hle : ∀ o ∈ s.log, ∀ l, readFor J k.collection k.id k.field o = some l →
        l.hlc ≤ k.hlc ∧ (l.hlc = k.hlc → o.id ≤ op.id) := by
      intro o ho l hl
      obtain ⟨hl, hslot⟩ := readFor_eq_some_iff.1 hl
      refine (candidate_le_iff hl hdec).1 (hmax _ ((hgroup _).2 rfl) o ho ?_)
      simp [keyedFieldReclaimPolicy, hl, groupKey_inj.2 hslot]
    exact ⟨hmem, hop, fun o ho l hl => (hle o ho l hl).1, fun o ho l hl => (hle o ho l hl).2⟩
  · intro h
    refine ⟨h.mem, fun key hkey o ho hokey => ?_⟩
    obtain ⟨l, hl, hlkey⟩ := Option.map_eq_some_iff.1 hokey
    rw [← (hgroup key).1 hkey] at hlkey
    have hlread : readFor J k.collection k.id k.field o = some l :=
      readFor_eq_some_iff.2 ⟨hl, groupKey_inj.1 hlkey⟩
    exact (candidate_le_iff hl hdec).2 ⟨h.best o ho l hlread, h.last o ho l hlread⟩

/-! ## Reads -/

/-- Two stores answer every read alike. -/
structure ReadsAgree (s t : KeyedStore H J) : Prop where
  kvGet : ∀ collection key, s.kvGet collection key = t.kvGet collection key
  docGetField : ∀ collection id field,
    s.docGetField collection id field = t.docGetField collection id field
  kvKeys : ∀ collection, s.kvKeys collection = t.kvKeys collection
  docIds : ∀ collection, s.docIds collection = t.docIds collection
  docFields : ∀ collection id, s.docFields collection id = t.docFields collection id

def Written (s : KeyedStore H J) (collection id field : Str) : Prop :=
  ∃ op ∈ s.log, ∃ k, readFor J collection id field op = some k

theorem written_iff {collection id field : Str} :
    s.Written collection id field ↔
      ∃ k ∈ s.writes, k.collection = collection ∧ k.id = id ∧ k.field = field := by
  simp only [Written, writes, List.mem_filterMap, OpLog.mem_order, readFor_eq_some_iff]
  constructor
  · rintro ⟨op, hop, k, hk, hslot⟩
    exact ⟨k, ⟨op, hop, hk⟩, hslot⟩
  · rintro ⟨k, ⟨op, hop, hk⟩, hslot⟩
    exact ⟨op, hop, k, hk, hslot⟩

theorem readsAgree_iff {t : KeyedStore H J}
    (hw : ∀ collection id field, s.Written collection id field ↔ t.Written collection id field) :
    ReadsAgree s t ↔ ∀ collection id field,
      s.fieldValue collection id field = t.fieldValue collection id field := by
  refine ⟨fun h => h.docGetField, fun h => ?_⟩
  have hget : ∀ collection key, s.kvGet collection key = t.kvGet collection key := by
    intro collection key
    rw [KeyedStore.kvGet, KeyedStore.kvGet, h]
  have hfields : ∀ collection id, s.docFields collection id = t.docFields collection id := by
    intro collection id
    simp only [KeyedStore.docFields, h]
    congr 1
    refine sortDedup_congr fun f => ?_
    have := hw collection id f
    rw [written_iff, written_iff] at this
    simpa [and_assoc, and_comm, and_left_comm] using this
  refine ⟨hget, h, fun collection => ?_, fun collection => ?_, hfields⟩
  · simp only [KeyedStore.kvKeys, hget]
    congr 1
    refine sortDedup_congr fun id => ?_
    have := hw collection id kvField
    rw [written_iff, written_iff] at this
    simpa [and_assoc, and_comm, and_left_comm] using this
  · simp only [KeyedStore.docIds, hfields]
    congr 1
    refine sortDedup_congr fun id => ?_
    have : (∃ f, s.Written collection id f) ↔ ∃ f, t.Written collection id f :=
      exists_congr fun f => hw collection id f
    simp only [written_iff] at this
    simpa [and_assoc, and_comm, and_left_comm] using this

/-! ## Reads after compaction -/

variable {s : KeyedStore H J} {tail : List (Op H)} {collection id field : Str}

theorem mem_bootstrap_compact (hH : CollisionFree H) {o : Op H} :
    o ∈ (bootstrap s.log.compact tail : KeyedStore H J).log ↔ o ∈ s.log ∨ o ∈ tail :=
  (OpLog.mem_bootstrap hH).trans or_comm

theorem mem_bootstrap_compactReclaiming (hH : CollisionFree H) {z : Op H} {n : KeyedOp}
    (hz : IsLastMax Op.id (readFor J collection id field) KeyedOp.hlc {o | o ∈ s.log} z n)
    {o : Op H} (hk : readFor J collection id field o = some k) :
    o ∈ (bootstrap s.compactReclaiming tail : KeyedStore H J).log ↔ o = z ∨ o ∈ tail := by
  have hkept : o ∈ s.compactReclaiming.ops ↔ o = z := by
    rw [mem_compactReclaiming_iff hH hk]
    constructor
    · intro h
      exact h.unique (Op.id_injective hH) hz
    · rintro rfl
      rwa [Option.some.inj (hk.symm.trans hz.val)]
  exact (OpLog.mem_bootstrap hH).trans (by rw [hkept, or_comm])

theorem written_bootstrap_iff (hH : CollisionFree H) :
    (bootstrap s.compactReclaiming tail : KeyedStore H J).Written collection id field ↔
      (bootstrap s.log.compact tail : KeyedStore H J).Written collection id field := by
  constructor
  · rintro ⟨o, ho, k, hk⟩
    refine ⟨o, (mem_bootstrap_compact hH).2 ?_, k, hk⟩
    rcases (OpLog.mem_bootstrap hH).1 ho with ho | ho
    · exact .inr ho
    · exact .inl ((mem_compactReclaiming_iff hH hk).1 ho).mem
  · rintro ⟨o, ho, k, hk⟩
    rcases (mem_bootstrap_compact hH).1 ho with ho | ho
    · obtain ⟨z, n, hz⟩ := exists_isLastMax Op.id KeyedOp.hlc s.log.ops.finite ho hk
      exact ⟨z, (mem_bootstrap_compactReclaiming hH hz hz.val).2 (.inl rfl), n, hz.val⟩
    · exact ⟨o, (OpLog.mem_bootstrap hH).2 (.inl ho), k, hk⟩

/-- Ties of the field are settled: one op of the log has the highest stamp, or
the tail decides the field whichever of the tied ops it is joined with. -/
def SettledAt (s : KeyedStore H J) (tail : List (Op H)) (collection id field : Str) : Prop :=
  ∀ a z m n,
    IsFirstMax Op.id (readFor J collection id field) KeyedOp.hlc {o | o ∈ s.log} a m →
    IsLastMax Op.id (readFor J collection id field) KeyedOp.hlc {o | o ∈ s.log} z n →
    a = z ∨ Decides Op.id (readFor J collection id field) KeyedOp.hlc {o | o ∈ tail} a z m

def TiesSettled (s : KeyedStore H J) (tail : List (Op H)) : Prop :=
  ∀ collection id field, s.SettledAt tail collection id field

theorem fieldValue_bootstrap_of_not_written (hH : CollisionFree H)
    (hs : ¬ s.Written collection id field) :
    (bootstrap s.compactReclaiming tail : KeyedStore H J).fieldValue collection id field =
      (bootstrap s.log.compact tail : KeyedStore H J).fieldValue collection id field := by
  have hmem : ∀ o k, readFor J collection id field o = some k →
      (o ∈ (bootstrap s.compactReclaiming tail : KeyedStore H J).log ↔
        o ∈ (bootstrap s.log.compact tail : KeyedStore H J).log) := by
    intro o k hk
    have hnot : o ∉ s.log := fun ho => hs ⟨o, ho, k, hk⟩
    have hnot' : o ∉ s.compactReclaiming.ops := fun ho =>
      hnot ((mem_compactReclaiming_iff hH hk).1 ho).mem
    rw [mem_bootstrap_compact hH]
    exact (OpLog.mem_bootstrap hH).trans (by tauto)
  have hwin : (bootstrap s.compactReclaiming tail : KeyedStore H J).winner collection id field =
      (bootstrap s.log.compact tail : KeyedStore H J).winner collection id field := by
    refine Option.ext fun k => ?_
    rw [winner_eq_some_iff hH, winner_eq_some_iff hH]
    exact exists_congr fun op => ⟨fun h => h.congr hmem, fun h => h.congr fun o k hk =>
      (hmem o k hk).symm⟩
  rw [fieldValue, fieldValue, hwin]

theorem eq_of_readFor {o o' : Op H} {l : KeyedOp} (hk : readFor J collection id field o = some k)
    (hl : readFor J collection id field o' = some l) (hstamp : k.hlc = l.hlc)
    (hlive : k.kind.live = l.kind.live) : k = l := by
  obtain ⟨-, hk1, hk2, hk3⟩ := readFor_eq_some_iff.1 hk
  obtain ⟨-, hl1, hl2, hl3⟩ := readFor_eq_some_iff.1 hl
  exact KeyedOp.ext (hk1.trans hl1.symm) (hk2.trans hl2.symm) (hk3.trans hl3.symm) hstamp
    (OpKind.live_injective hlive)

theorem fieldValue_bootstrap_iff (hH : CollisionFree H) (hJ : J.Faithful) (hs : Reached s)
    (hw : s.Written collection id field) :
    (bootstrap s.compactReclaiming tail : KeyedStore H J).fieldValue collection id field =
        (bootstrap s.log.compact tail : KeyedStore H J).fieldValue collection id field ↔
      s.SettledAt tail collection id field := by
  obtain ⟨o, ho, q, hq⟩ := hw
  have hinj := Op.id_injective hH
  obtain ⟨a, m, ha⟩ := exists_isFirstMax Op.id KeyedOp.hlc s.log.ops.finite ho hq
  obtain ⟨z, n, hz⟩ := exists_isLastMax Op.id KeyedOp.hlc s.log.ops.finite ho hq
  have hT : {o | o ∈ tail}.Finite := List.finite_toSet tail
  -- the winners on the two sides
  obtain ⟨v, k, hv⟩ := exists_isFirstMax (d := readFor J collection id field) Op.id KeyedOp.hlc
    ((Set.finite_singleton z).union hT) (.inl rfl) hz.val
  obtain ⟨w, l, hw⟩ := exists_isFirstMax (d := readFor J collection id field) Op.id KeyedOp.hlc
    (s.log.ops.finite.union hT) (.inl ho) hq
  have hk : (bootstrap s.compactReclaiming tail : KeyedStore H J).winner collection id field =
      some k :=
    (winner_eq_some_iff hH).2 ⟨v, hv.congr fun o k hk =>
      (mem_bootstrap_compactReclaiming hH hz hk).symm⟩
  have hl : (bootstrap s.log.compact tail : KeyedStore H J).winner collection id field = some l :=
    (winner_eq_some_iff hH).2 ⟨w, hw.congr fun o k hk => (mem_bootstrap_compact hH).symm⟩
  -- both have the highest stamp and write the field, so what they do decides
  have hkl : k.kind.live = l.kind.live ↔ k = l :=
    ⟨eq_of_readFor hv.val hw.val (rank_first_union_eq hz hv hw), fun h => by rw [h]⟩
  have hsame : m = n → a = z := by
    rintro rfl
    exact hs.eq_of_decode_eq hH hJ ha.mem hz.mem (readFor_eq_some_iff.1 ha.val).1
      (readFor_eq_some_iff.1 hz.val).1
  rw [fieldValue, fieldValue, hk, hl, Option.bind_some, Option.bind_some, hkl,
    first_union_iff hinj hT ha hz hsame hv hw]
  constructor
  · intro h a' z' m' n' ha' hz'
    obtain ⟨rfl, rfl⟩ := ha.unique hinj ha'
    obtain rfl := hz.unique hinj hz'
    exact h
  · intro h
    exact h a z m n ha hz

/-- **When reads survive compaction.** -/
theorem readsAgree_bootstrap_iff (hH : CollisionFree H) (hJ : J.Faithful) (hs : Reached s)
    (tail : List (Op H)) :
    ReadsAgree (bootstrap s.compactReclaiming tail : KeyedStore H J)
      (bootstrap s.log.compact tail) ↔ s.TiesSettled tail := by
  rw [readsAgree_iff fun _ _ _ => written_bootstrap_iff hH]
  refine forall_congr' fun collection => forall_congr' fun id => forall_congr' fun field => ?_
  by_cases hw : s.Written collection id field
  · exact fieldValue_bootstrap_iff hH hJ hs hw
  · refine ⟨fun _ a z m n ha _ => absurd ⟨a, ha.mem, m, ha.val⟩ hw, fun _ => ?_⟩
    exact fieldValue_bootstrap_of_not_written hH hw

/-! ## A tie

Two writes of one key at one stamp, with the payloads `serde_json` writes for
them and the SHA2-256 digests of those payloads. -/

/-- The write of `value` to key `k` of collection `c` at the stamp `(1, 0, n1)`. -/
def tiedOp (value : UInt8) : KeyedOp :=
  ⟨.lit "c", ⟨"k", by decide⟩, kvField, ⟨1, 0, ⟨"n1", by decide⟩⟩, .put (.scalar [value])⟩

def tiedPayload (digits : String) : Bytes :=
  ("\x7b\"collection\":\"c\",\"id\":\"k\",\"field\":\"\",\"hlc\":\x7b\"physical\":1,\"logical\":0," ++
    "\"author\":\"n1\"\x7d,\"kind\":\x7b\"Put\":\x7b\"Scalar\":[" ++ digits ++
    "]\x7d\x7d\x7d").toUTF8.data.toList

/-- The SHA2-256 digests of the two payloads. -/
def tieTable : List (Bytes × Bytes) :=
  [(tiedPayload "1",
      beBytes 32 0xb81eef0daa0c65ffeac1747794f42a2b4fc8b997847768a8a1c2d153a4e453bf),
    (tiedPayload "2",
      beBytes 32 0x76b8800355ed57fb2d6a1113ce9b4d2dbafe63c29577f3b2358c1c79f372a8dc)]

def tieDigest : Bytes → Bytes := tableDigest tieTable

def tieCodec : KeyedCodec where
  encode k := if k = tiedOp 1 then tiedPayload "1" else if k = tiedOp 2 then tiedPayload "2" else []
  decode b :=
    if b = tiedPayload "1" then some (tiedOp 1)
    else if b = tiedPayload "2" then some (tiedOp 2) else none

def tied : KeyedStore tieDigest tieCodec :=
  ((new.kvPut (.lit "c") ⟨"k", by decide⟩ [1] (tiedOp 1).hlc).1.kvPut
    (.lit "c") ⟨"k", by decide⟩ [2] (tiedOp 2).hlc).1

theorem tieDigest_collisionFree : CollisionFree tieDigest :=
  tableDigest_collisionFree (by decide) (by decide +kernel)

theorem tieCodec_faithful : tieCodec.Faithful := by
  intro k k' h
  have h12 : tiedPayload "2" ≠ tiedPayload "1" := by decide +kernel
  have h01 : [] ≠ tiedPayload "1" ∧ [] ≠ tiedPayload "2" := by decide +kernel
  by_cases hk1 : k = tiedOp 1
  · subst hk1
    simpa [tieCodec, eq_comm] using h
  · by_cases hk2 : k = tiedOp 2
    · subst hk2
      simpa [tieCodec, hk1, h12, eq_comm] using h
    · simp [tieCodec, hk1, hk2, h01.1, h01.2] at h

theorem tied_reached : Reached tied := (Reached.new.kvPut _ _ _ _).kvPut _ _ _ _

theorem tied_kvGet :
    (bootstrap tied.log.compact [] : KeyedStore tieDigest tieCodec).kvGet
        ⟨"c", by decide⟩ ⟨"k", by decide⟩ = some [2] ∧
      (bootstrap tied.compactReclaiming [] : KeyedStore tieDigest tieCodec).kvGet
        ⟨"c", by decide⟩ ⟨"k", by decide⟩ = some [1] := by
  decide +kernel

theorem tied_not_readsAgree :
    ¬ ReadsAgree (bootstrap tied.compactReclaiming [] : KeyedStore tieDigest tieCodec)
      (bootstrap tied.log.compact []) := by
  intro h
  have hget := h.kvGet ⟨"c", by decide⟩ ⟨"k", by decide⟩
  rw [tied_kvGet.1, tied_kvGet.2] at hget
  exact absurd hget (by decide)

/-- The tie is not settled by an empty tail. -/
theorem tied_not_settled : ¬ tied.TiesSettled [] := by
  rw [← readsAgree_bootstrap_iff tieDigest_collisionFree tieCodec_faithful tied_reached []]
  exact tied_not_readsAgree

/-- **A tie breaks the contract.** -/
theorem tied_reads_differ :
    CollisionFree tieDigest ∧ tieCodec.Faithful ∧ Reached tied ∧
      ¬ ReadsAgree (bootstrap tied.compactReclaiming [] : KeyedStore tieDigest tieCodec)
        (bootstrap tied.log.compact []) :=
  ⟨tieDigest_collisionFree, tieCodec_faithful, tied_reached, tied_not_readsAgree⟩

/-! ## A store with one writer

A component that is the only author of a collection stamps its writes with a counter; then the store
behaves as a plain map.

* `kvGet_kvPut`, `kvGet_kvDelete` — **the laws of a map**, under a later stamp. -/

def OpKind.Flat : OpKind → Prop
  | .put value => ∃ bytes, value = .scalar bytes
  | .tomb => True

def KeyedCodec.RoundTrips (J : KeyedCodec) : Prop :=
  ∀ k : KeyedOp, k.kind.Flat → J.decode (J.encode k) = some k

/-! ## The last write wins -/

def StampedUpTo (s : KeyedStore H J) (top : Hlc) : Prop :=
  ∀ op ∈ s.log, ∀ k, J.decode op.payload = some k → k.hlc ≤ top

theorem stampedUpTo_new (top : Hlc) : StampedUpTo (new : KeyedStore H J) top :=
  fun op hop => absurd hop (OpLog.not_mem_new op)

variable {top : Hlc}

theorem StampedUpTo.appendOp (hH : CollisionFree H) (h : s.StampedUpTo top) (hle : top ≤ k.hlc)
    (hk : J.decode (J.encode k) = some k) : (s.appendOp k).1.StampedUpTo k.hlc := by
  intro op hop k' hk'
  rcases (mem_appendOp hH).1 hop with rfl | hop
  · rw [Op.new_payload, hk] at hk'
    exact (congrArg KeyedOp.hlc (Option.some.inj hk')).ge
  · exact (h op hop k' hk').trans hle

theorem winner_appendOp (hH : CollisionFree H) (h : s.StampedUpTo top) (hlt : top < k.hlc)
    (hk : J.decode (J.encode k) = some k) :
    (s.appendOp k).1.winner k.collection k.id k.field = some k := by
  refine (winner_eq_some_iff hH).2 ⟨Op.new (J.encode k), (mem_appendOp hH).2 (.inl rfl), ?_, ?_, ?_⟩
  · exact readFor_eq_some_iff.2 ⟨hk, rfl, rfl, rfl⟩
  · intro op hop k' hk'
    exact h.appendOp hH hlt.le hk op hop k' (readFor_eq_some_iff.1 hk').1
  · intro op hop k' hk' heq
    rcases (mem_appendOp hH).1 hop with rfl | hop
    · exact le_rfl
    · -- the writes before it all have an earlier stamp
      have hle := h op hop k' (readFor_eq_some_iff.1 hk').1
      exact absurd heq (hle.trans_lt hlt).ne

theorem winner_appendOp_of_ne (hH : CollisionFree H) (hk : J.decode (J.encode k) = some k)
    {collection id field : Str}
    (hne : ¬ (k.collection = collection ∧ k.id = id ∧ k.field = field)) :
    (s.appendOp k).1.winner collection id field = s.winner collection id field := by
  have hmem : ∀ op m, readFor J collection id field op = some m →
      (op ∈ (s.appendOp k).1.log ↔ op ∈ s.log) := by
    intro op m hm
    rw [mem_appendOp hH, or_iff_right]
    rintro rfl
    obtain ⟨hdecode, hslot⟩ := readFor_eq_some_iff.1 hm
    obtain rfl : k = m := Option.some.inj (hk.symm.trans hdecode)
    exact hne hslot
  ext m
  rw [winner_eq_some_iff hH, winner_eq_some_iff hH]
  refine exists_congr fun op => ⟨fun h => h.congr hmem, fun h => h.congr ?_⟩
  exact fun op m hm => (hmem op m hm).symm

/-! ## A map -/

variable {hlc : Hlc}

section

variable (hH : CollisionFree H) (hJ : J.RoundTrips) (h : s.StampedUpTo top) (hlt : top < hlc)

include hH hJ h hlt

theorem kvGet_kvPut (collection key key' : Str) (value : Bytes) :
    (s.kvPut collection key value hlc).1.kvGet collection key' =
      if key = key' then some value else s.kvGet collection key' := by
  have hk := hJ ⟨collection, key, kvField, hlc, .put (.scalar value)⟩ ⟨value, rfl⟩
  rw [kvGet, fieldValue, kvPut]
  split_ifs with hkey
  · subst hkey
    rw [winner_appendOp hH h hlt hk]
    rfl
  · rw [winner_appendOp_of_ne hH hk fun hslot => hkey hslot.2.1]
    rfl

theorem kvGet_kvDelete (collection key key' : Str) :
    (s.kvDelete collection key hlc).1.kvGet collection key' =
      if key = key' then none else s.kvGet collection key' := by
  have hk := hJ ⟨collection, key, kvField, hlc, .tomb⟩ trivial
  rw [kvGet, fieldValue, kvDelete]
  split_ifs with hkey
  · subst hkey
    rw [winner_appendOp hH h hlt hk]
    rfl
  · rw [winner_appendOp_of_ne hH hk fun hslot => hkey hslot.2.1]
    rfl

theorem StampedUpTo.kvPut (collection key : Str) (value : Bytes) :
    (s.kvPut collection key value hlc).1.StampedUpTo hlc :=
  h.appendOp hH (k := ⟨collection, key, kvField, hlc, .put (.scalar value)⟩) hlt.le
    (hJ _ ⟨value, rfl⟩)

theorem StampedUpTo.kvDelete (collection key : Str) :
    (s.kvDelete collection key hlc).1.StampedUpTo hlc :=
  h.appendOp hH (k := ⟨collection, key, kvField, hlc, .tomb⟩) hlt.le (hJ _ trivial)

end

@[simp] theorem winner_new (collection id field : Str) :
    (new : KeyedStore H J).winner collection id field = none := by
  rw [winner_eq_argmax, List.argmax_eq_none]
  refine List.eq_nil_iff_forall_not_mem.2 fun k hk => ?_
  obtain ⟨op, hop, -⟩ := List.mem_filterMap.1 hk
  exact OpLog.not_mem_new op (OpLog.mem_order.1 hop)

@[simp] theorem kvGet_new (collection key : Str) :
    (new : KeyedStore H J).kvGet collection key = none := by
  rw [kvGet, fieldValue, winner_new]
  rfl

theorem Hlc.lt_of_physical_lt {a b : Hlc} (h : a.physical < b.physical) : a < b := by
  have hab : compare a.physical b.physical = .lt := by
    show compareOfLessAndEq a.physical b.physical = .lt
    rw [compareOfLessAndEq, if_pos h]
  show compare a b = .lt
  rw [Hlc.compare_def, hab]
  rfl

/-! ## A codec that round-trips -/

def OpKind.bytes : OpKind → Bytes
  | .tomb => [0]
  | .put value => 1 :: value.asScalar.getD []

/-- A write as bytes: its strings behind their lengths, its clocks big-endian. -/
def KeyedOp.bytes (k : KeyedOp) : Bytes :=
  framed k.collection ++ (framed k.id ++ (framed k.field ++ (framed k.hlc.author ++
    (beBytes 8 k.hlc.physical.toNat ++ (beBytes 8 k.hlc.logical.toNat ++ k.kind.bytes)))))

theorem OpKind.bytes_inj {a b : OpKind} (ha : a.Flat) (hb : b.Flat) (h : a.bytes = b.bytes) :
    a = b := by
  cases a with
  | tomb =>
    cases b with
    | tomb => rfl
    | put v => simp [OpKind.bytes] at h
  | put v =>
    cases b with
    | tomb => simp [OpKind.bytes] at h
    | put w =>
      obtain ⟨x, rfl⟩ := ha
      obtain ⟨y, rfl⟩ := hb
      have hxy : x = y := List.cons_injective h
      rw [hxy]

theorem be8_append_inj {a b : UInt64} {x y : Bytes}
    (h : beBytes 8 a.toNat ++ x = beBytes 8 b.toNat ++ y) : a = b ∧ x = y := by
  obtain ⟨hab, hxy⟩ := List.append_inj h (by simp)
  exact ⟨UInt64.toNat_inj.1 (beBytes_inj a.toNat_lt b.toNat_lt hab), hxy⟩

theorem KeyedOp.bytes_inj {l : KeyedOp} (hk : k.kind.Flat) (hl : l.kind.Flat)
    (h : k.bytes = l.bytes) : k = l := by
  obtain ⟨hcollection, h⟩ := framed_append_inj.1 h
  obtain ⟨hid, h⟩ := framed_append_inj.1 h
  obtain ⟨hfield, h⟩ := framed_append_inj.1 h
  obtain ⟨hauthor, h⟩ := framed_append_inj.1 h
  obtain ⟨hphysical, h⟩ := be8_append_inj h
  obtain ⟨hlogical, h⟩ := be8_append_inj h
  exact KeyedOp.ext hcollection hid hfield (Hlc.ext hphysical hlogical hauthor)
    (OpKind.bytes_inj hk hl h)

open Classical in
noncomputable def framedCodec : KeyedCodec where
  encode := KeyedOp.bytes
  decode b := if h : ∃ k : KeyedOp, k.kind.Flat ∧ k.bytes = b then some h.choose else none

theorem framedCodec_roundTrips : framedCodec.RoundTrips := by
  intro k hk
  have hex : ∃ l : KeyedOp, l.kind.Flat ∧ l.bytes = k.bytes := ⟨k, hk, rfl⟩
  have hdecode : framedCodec.decode (framedCodec.encode k) = some hex.choose := dif_pos hex
  rw [hdecode, KeyedOp.bytes_inj hex.choose_spec.1 hk hex.choose_spec.2]

end Pillar.KeyedStore
