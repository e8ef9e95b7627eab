import Pillar.Crypto
import Pillar.Lib.TreeMap

/-!
# The content-addressed op log

`pillar-streamdb`'s `OpLog`: a grow-only set of ops, each identified by the
content address of its payload, kept in address order.
-/

namespace Pillar.StreamDb

open Std Lib.TreeMap

variable {H : Bytes → Bytes}

abbrev OpId := ContentId

structure Op (H : Bytes → Bytes) where
  id : OpId
  payload : Bytes
  id_eq : id = contentAddress H payload

namespace Op

/-- Build an op from its payload, deriving its id. -/
def new (payload : Bytes) : Op H := ⟨contentAddress H payload, payload, rfl⟩

@[simp] theorem new_payload (payload : Bytes) : (new payload : Op H).payload = payload := rfl

theorem ext_payload {a b : Op H} (h : a.payload = b.payload) : a = b := by
  cases a with
  | mk i p hi =>
    cases b with
    | mk j q hj =>
      obtain rfl : p = q := h
      subst hi
      subst hj
      rfl

instance : DecidableEq (Op H) := fun a b =>
  decidable_of_iff (a.payload = b.payload) ⟨ext_payload, fun h => by rw [h]⟩

theorem id_injective (hH : CollisionFree H) : Function.Injective (Op.id : Op H → OpId) := by
  intro a b h
  rw [a.id_eq, b.id_eq] at h
  exact ext_payload (contentAddress_injective hH h)

end Op

/-! ## Ops by address -/

structure OpMap (H : Bytes → Bytes) where
  map : ExtTreeMap OpId (Op H)
  keyed : ∀ (id : OpId) (op : Op H), map[id]? = some op → op.id = id

namespace OpMap

def empty : OpMap H := ⟨∅, by intro id op h; simp at h⟩

def get? (m : OpMap H) (id : OpId) : Option (Op H) := m.map[id]?

def contains (m : OpMap H) (id : OpId) : Bool := m.map.contains id

def values (m : OpMap H) : List (Op H) := m.map.toList.map Prod.snd

def orInsert (m : OpMap H) (op : Op H) : OpMap H where
  map := m.map.insertIfNew op.id op
  keyed := by
    intro id o h
    rw [ExtTreeMap.getElem?_insertIfNew] at h
    by_cases hc : compare op.id id = .eq ∧ op.id ∉ m.map
    · rw [if_pos hc] at h
      rw [← Option.some.inj h]
      exact LawfulEqCmp.eq_of_compare hc.1
    · rw [if_neg hc] at h
      exact m.keyed id o h

def insert (m : OpMap H) (op : Op H) : OpMap H where
  map := m.map.insert op.id op
  keyed := by
    intro id o h
    rw [ExtTreeMap.getElem?_insert] at h
    by_cases hc : compare op.id id = .eq
    · rw [if_pos hc] at h
      rw [← Option.some.inj h]
      exact LawfulEqCmp.eq_of_compare hc
    · rw [if_neg hc] at h
      exact m.keyed id o h

instance : Membership (Op H) (OpMap H) := ⟨fun m op => m.map[op.id]? = some op⟩

variable {m : OpMap H} {op : Op H}

theorem mem_def : op ∈ m ↔ m.map[op.id]? = some op := Iff.rfl
instance (op : Op H) (m : OpMap H) : Decidable (op ∈ m) :=
  inferInstanceAs (Decidable (m.map[op.id]? = some op))

theorem not_mem_empty (op : Op H) : op ∉ (empty : OpMap H) := by
  simp [mem_def, empty]

theorem get?_eq_some_iff {id : OpId} : m.get? id = some op ↔ op ∈ m ∧ op.id = id := by
  constructor
  · intro h
    have hid : op.id = id := m.keyed id op h
    exact ⟨by rw [mem_def, hid]; exact h, hid⟩
  · rintro ⟨h, rfl⟩
    exact h

theorem mem_values : op ∈ m.values ↔ op ∈ m := by
  simp only [values, List.mem_map, Prod.exists, ExtTreeMap.mem_toList_iff_getElem?_eq_some,
    exists_eq_right]
  constructor
  · rintro ⟨id, h⟩
    exact (get?_eq_some_iff.1 h).1
  · intro h
    exact ⟨op.id, h⟩

theorem values_sorted (m : OpMap H) : m.values.Pairwise fun a b => a.id < b.id := by
  have hkeyed : ∀ e ∈ m.map.toList, e.2.id = e.1 := fun e he =>
    m.keyed e.1 e.2 (ExtTreeMap.mem_toList_iff_getElem?_eq_some.1 he)
  rw [values, List.pairwise_map]
  refine ExtTreeMap.ordered_keys_toList.imp_of_mem ?_
  intro a b ha hb hab
  rw [hkeyed a ha, hkeyed b hb]
  exact hab

theorem finite (m : OpMap H) : {op | op ∈ m}.Finite := by
  refine (List.finite_toSet m.values).subset ?_
  intro op h
  exact mem_values.2 h

theorem contains_iff {id : OpId} : m.contains id = true ↔ ∃ op ∈ m, op.id = id := by
  rw [contains, ← ExtTreeMap.mem_iff_contains, mem_iff_exists_getElem?]
  exact exists_congr fun op => get?_eq_some_iff

theorem ext_mem {n : OpMap H} (h : ∀ op, op ∈ m ↔ op ∈ n) : m = n := by
  have hmap : m.map = n.map := by
    refine ExtTreeMap.ext_getElem? fun id => Option.ext fun op => ?_
    show m.get? id = some op ↔ n.get? id = some op
    rw [get?_eq_some_iff, get?_eq_some_iff, h op]
  cases m
  cases n
  obtain rfl := hmap
  rfl

/-! With collision-free addresses, both ways of inserting add one member. -/

theorem mem_insert (hH : CollisionFree H) {o : Op H} : o ∈ m.insert op ↔ o = op ∨ o ∈ m := by
  rw [mem_def, insert, ExtTreeMap.getElem?_insert, mem_def]
  by_cases hid : op.id = o.id
  · obtain rfl := Op.id_injective hH hid
    simp
  · have hne : o ≠ op := by rintro rfl; exact hid rfl
    simp [hid, hne]

theorem mem_orInsert (hH : CollisionFree H) {o : Op H} : o ∈ m.orInsert op ↔ o = op ∨ o ∈ m := by
  rw [mem_def, orInsert, ExtTreeMap.getElem?_insertIfNew, mem_def]
  by_cases hid : op.id = o.id
  · obtain rfl := Op.id_injective hH hid
    by_cases hm : op.id ∈ m.map
    · -- already held, and under its own address only this op can be
      obtain ⟨o, ho⟩ := mem_iff_exists_getElem?.1 hm
      obtain rfl := Op.id_injective hH (m.keyed op.id o ho)
      simp [ho]
    · simp [hm]
  · have hne : o ≠ op := by rintro rfl; exact hid rfl
    simp [hid, hne]

theorem mem_foldl_orInsert (hH : CollisionFree H) (l : List (Op H)) (m : OpMap H) (o : Op H) :
    o ∈ l.foldl orInsert m ↔ o ∈ l ∨ o ∈ m := by
  induction l generalizing m with
  | nil => simp
  | cons op l ih =>
    rw [List.foldl_cons, ih, mem_orInsert hH, List.mem_cons]
    tauto

end OpMap

/-! ## The log -/

/-- A grow-only, content-addressed op log. -/
structure OpLog (H : Bytes → Bytes) where
  ops : OpMap H

/-- A cryptographic commitment to an op set. -/
structure MerkleRoot where
  bytes : Bytes
  deriving DecidableEq

def merkleDomain : Bytes := "pillar-streamdb-merkle-root-v1".toUTF8.data.toList

/-- Fold the content-ordered ops into a Merkle root: a hash chain over the op
addresses. -/
def foldRoot (ops : List (Op H)) : MerkleRoot :=
  ⟨ops.foldl (fun acc op => H (acc ++ op.id.bytes)) (H merkleDomain)⟩

/-- The materialised-view schema version a snapshot is stamped with. -/
def schemaVersion : ℕ := 1

structure Snapshot (H : Bytes → Bytes) where
  root : MerkleRoot
  ops : OpMap H
  schemaVersion : ℕ

namespace OpLog

def new : OpLog H := ⟨OpMap.empty⟩

/-- Append `payload` as a fresh op and return its content address; appending
the same payload twice leaves the set unchanged. -/
def append (log : OpLog H) (payload : Bytes) : OpLog H × OpId :=
  let op : Op H := Op.new payload
  (⟨log.ops.orInsert op⟩, op.id)

def contains (log : OpLog H) (id : OpId) : Bool := log.ops.contains id

def len (log : OpLog H) : ℕ := log.ops.map.size

def order (log : OpLog H) : List (Op H) := log.ops.values

def merge (log other : OpLog H) : OpLog H := ⟨other.order.foldl OpMap.orInsert log.ops⟩

def root (log : OpLog H) : MerkleRoot := foldRoot log.order

def compact (log : OpLog H) : Snapshot H := ⟨log.root, log.ops, StreamDb.schemaVersion⟩

def bootstrap (snapshot : Snapshot H) (tail : List (Op H)) : OpLog H :=
  ⟨tail.foldl OpMap.orInsert snapshot.ops⟩

instance : Membership (Op H) (OpLog H) := ⟨fun log op => op ∈ log.ops⟩

instance (op : Op H) (log : OpLog H) : Decidable (op ∈ log) :=
  inferInstanceAs (Decidable (op ∈ log.ops))

theorem not_mem_new (op : Op H) : op ∉ (new : OpLog H) := OpMap.not_mem_empty op

variable {log : OpLog H}

theorem mem_order {op : Op H} : op ∈ log.order ↔ op ∈ log := OpMap.mem_values
theorem order_sorted (log : OpLog H) : log.order.Pairwise fun a b => a.id < b.id :=
  log.ops.values_sorted

variable {payload : Bytes}

theorem mem_append (hH : CollisionFree H) {o : Op H} :
    o ∈ (log.append payload).1 ↔ o = Op.new payload ∨ o ∈ log :=
  OpMap.mem_orInsert hH

theorem contains_append (log : OpLog H) (payload : Bytes) (id : OpId) :
    (log.append payload).1.contains id =
      (compare (contentAddress H payload) id == .eq || log.contains id) :=
  ExtTreeMap.contains_insertIfNew

theorem append_of_contains (h : log.contains (contentAddress H payload) = true) :
    (log.append payload).1 = log := by
  have hmem : contentAddress H payload ∈ log.ops.map := ExtTreeMap.mem_iff_contains.2 h
  have hmap : log.ops.map.insertIfNew (contentAddress H payload) (Op.new payload) = log.ops.map := by
    refine ExtTreeMap.ext_getElem? fun id => ?_
    rw [ExtTreeMap.getElem?_insertIfNew, if_neg fun hc => hc.2 hmem]
  cases log with
  | mk ops =>
    cases ops with
    | mk map keyed =>
      simp only [append, OpMap.orInsert, mk.injEq, OpMap.mk.injEq]
      exact hmap

theorem order_append_of_fresh (h : log.contains (contentAddress H payload) = false) :
    (log.append payload).1.order.Perm (Op.new payload :: log.order) := by
  have hnot : contentAddress H payload ∉ log.ops.map := by
    rw [ExtTreeMap.mem_iff_contains]
    exact Bool.eq_false_iff.1 h
  have hmap : log.ops.map.insertIfNew (contentAddress H payload) (Op.new payload) =
      log.ops.map.insert (contentAddress H payload) (Op.new payload) := by
    refine ExtTreeMap.ext_getElem? fun id => ?_
    rw [ExtTreeMap.getElem?_insertIfNew, ExtTreeMap.getElem?_insert]
    simp [hnot]
  show ((log.ops.map.insertIfNew (contentAddress H payload) (Op.new payload)).toList.map
    Prod.snd).Perm _
  rw [hmap]
  exact (toList_insert_perm hnot (Op.new payload)).map Prod.snd

theorem mem_merge (hH : CollisionFree H) {other : OpLog H} {o : Op H} :
    o ∈ log.merge other ↔ o ∈ other ∨ o ∈ log := by
  have h : o ∈ other.order ↔ o ∈ other := mem_order
  rw [← h]
  exact OpMap.mem_foldl_orInsert hH other.order log.ops o

theorem mem_bootstrap (hH : CollisionFree H) {snapshot : Snapshot H} {tail : List (Op H)}
    {o : Op H} : o ∈ bootstrap snapshot tail ↔ o ∈ tail ∨ o ∈ snapshot.ops :=
  OpMap.mem_foldl_orInsert hH tail snapshot.ops o

end OpLog

/-! ## Streams

A `Stream` is an op log that admits ops under a view policy. An unspecified
policy is the strict one, so forgetting to classify a stream never relaxes it. -/

/-- A side effect refused by a stream's policy. -/
structure PolicyViolation where
  policy : ViewPolicy
  effect : SideEffect
  deriving DecidableEq

/-- A stream, admitting ops under a policy. -/
structure Stream (H : Bytes → Bytes) where
  log : OpLog H
  declared : Option ViewPolicy

namespace Stream

/-- An empty stream with no declared policy. -/
def new : Stream H := ⟨.new, none⟩

def withPolicy (policy : ViewPolicy) : Stream H := ⟨.new, some policy⟩

def policy (s : Stream H) : ViewPolicy := s.declared.getD .strict

def setPolicy (s : Stream H) (policy : ViewPolicy) : Stream H := { s with declared := some policy }

def tryAppend (s : Stream H) (payload : Bytes) (effect : SideEffect) :
    Stream H × Except PolicyViolation OpId :=
  if !s.policy.admits effect then (s, .error ⟨s.policy, effect⟩)
  else ({ s with log := (s.log.append payload).1 }, .ok (s.log.append payload).2)

def merge (s other : Stream H) : Stream H := { s with log := s.log.merge other.log }

theorem tryAppend_of_strict {s : Stream H} (h : s.policy = .strict) (payload : Bytes)
    (effect : SideEffect) :
    s.tryAppend payload effect =
      ({ s with log := (s.log.append payload).1 }, .ok (s.log.append payload).2) := by
  simp [tryAppend, h]

end Stream

end Pillar.StreamDb
