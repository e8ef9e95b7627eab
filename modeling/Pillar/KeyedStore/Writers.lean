import Pillar.KeyedStore.Convergence

/-!
# A store with several writers

A write may come with a stamp that is not the latest; it stays in the log, and its field reads as
before.

* `winner_appendOp_of_later`, `winner_appendOp_of_earlier` — **which of the two**, by the stamps.
-/

namespace Pillar.KeyedStore

open Std StreamDb

variable {H : Bytes → Bytes} {J : KeyedCodec} {s : KeyedStore H J} {k m : KeyedOp}

section

variable (hH : CollisionFree H) (hk : J.decode (J.encode k) = some k)

include hH hk

theorem mem_opsFor_appendOp : k ∈ (s.appendOp k).1.opsFor k.collection k.id k.field :=
  List.mem_filterMap.2 ⟨Op.new (J.encode k), OpLog.mem_order.2 ((mem_appendOp hH).2 (.inl rfl)),
    readFor_eq_some_iff.2 ⟨hk, rfl, rfl, rfl⟩⟩

theorem winner_appendOp_cases :
    (s.appendOp k).1.winner k.collection k.id k.field = some k ∨
      (s.appendOp k).1.winner k.collection k.id k.field = s.winner k.collection k.id k.field := by
  cases hwinner : (s.appendOp k).1.winner k.collection k.id k.field with
  | none =>
    rw [winner_eq_argmax, List.argmax_eq_none] at hwinner
    exact absurd (mem_opsFor_appendOp hH hk) (hwinner ▸ List.not_mem_nil)
  | some m =>
    obtain ⟨op, hop⟩ := (winner_eq_some_iff hH).1 hwinner
    rcases (mem_appendOp hH).1 hop.mem with rfl | hold
    · exact .inl (hk ▸ (readFor_eq_some_iff.1 hop.val).1.symm)
    · refine .inr ((winner_eq_some_iff hH).2 ⟨op, hold, hop.val, ?_, ?_⟩).symm
      · exact fun op' hop' => hop.best op' ((mem_appendOp hH).2 (.inr hop'))
      · exact fun op' hop' => hop.first op' ((mem_appendOp hH).2 (.inr hop'))

theorem winner_appendOp_of_later
    (hlater : ∀ m, s.winner k.collection k.id k.field = some m → m.hlc < k.hlc) :
    (s.appendOp k).1.winner k.collection k.id k.field = some k := by
  rcases winner_appendOp_cases (s := s) hH hk with hnew | hold
  · exact hnew
  · cases hm : s.winner k.collection k.id k.field with
    | none =>
      rw [hm, winner_eq_argmax, List.argmax_eq_none] at hold
      exact absurd (mem_opsFor_appendOp hH hk) (hold ▸ List.not_mem_nil)
    | some m =>
      obtain ⟨op, hop⟩ := (winner_eq_some_iff hH).1 (hold.trans hm)
      have hle := hop.best _ ((mem_appendOp hH).2 (.inl rfl)) k
        (readFor_eq_some_iff.2 ⟨hk, rfl, rfl, rfl⟩)
      exact absurd (hlater m hm) hle.not_gt

theorem winner_appendOp_of_earlier (hm : s.winner k.collection k.id k.field = some m)
    (hlt : k.hlc < m.hlc) : (s.appendOp k).1.winner k.collection k.id k.field = some m := by
  rcases winner_appendOp_cases (s := s) hH hk with hnew | hold
  · obtain ⟨op, hop⟩ := (winner_eq_some_iff hH).1 hnew
    obtain ⟨op', hop'⟩ := (winner_eq_some_iff hH).1 hm
    have hle := hop.best op' ((mem_appendOp hH).2 (.inr hop'.mem)) m hop'.val
    exact absurd hlt hle.not_gt
  · exact hold.trans hm

end

theorem OpKind.Flat.shallow (hk : k.kind.Flat) : k.depth < recursionLimit := by
  rw [KeyedOp.depth]
  cases hkind : k.kind with
  | tomb => decide
  | put value =>
    rw [hkind] at hk
    obtain ⟨bytes, rfl⟩ := hk
    show 1 + max 1 (OpKind.put (Value.scalar bytes)).depth < recursionLimit
    simp [OpKind.depth, Value.scalar, RawValue.depth, recursionLimit]

theorem KeyedCodec.Serde.roundTrips (hJ : J.Serde) : J.RoundTrips := by
  intro k hk
  rw [hJ k, if_pos hk.shallow]

/-! ## The set of writes -/

def Took (K : Set KeyedOp) (s : KeyedStore H J) : Prop :=
  ∀ op, op ∈ s.log ↔ ∃ k ∈ K, op = Op.new (J.encode k)

variable {K L : Set KeyedOp} {t : KeyedStore H J} {collection id field : Str}

theorem took_new : Took ∅ (new : KeyedStore H J) := by
  intro op
  simp [new, OpLog.not_mem_new]

theorem Took.appendOp (hH : CollisionFree H) (h : Took K s) (k : KeyedOp) :
    Took (insert k K) (s.appendOp k).1 := by
  intro op
  rw [mem_appendOp hH, h op, Set.exists_mem_insert]

theorem Took.merge (hH : CollisionFree H) (h : Took K s) (h' : Took L t) :
    Took (K ∪ L) (s.merge t) := by
  intro op
  rw [mem_merge hH, h op, h' op, or_comm]
  simp [Set.mem_union, or_and_right, exists_or]

theorem Took.readFor_eq_some_iff (hJ : J.Serde) (h : Took K s)
    (hshallow : ∀ k ∈ K, k.Targets collection id field → k.depth < recursionLimit) :
    (∃ op ∈ s.log, readFor J collection id field op = some k) ↔
      k ∈ K ∧ k.Targets collection id field := by
  constructor
  · rintro ⟨op, hop, hread⟩
    obtain ⟨k', hk', rfl⟩ := (h op).1 hop
    obtain ⟨hdecode, htargets⟩ := KeyedStore.readFor_eq_some_iff.1 hread
    rw [Op.new_payload, hJ k'] at hdecode
    split_ifs at hdecode
    obtain rfl := Option.some.inj hdecode
    exact ⟨hk', htargets⟩
  · rintro ⟨hk, htargets⟩
    refine ⟨Op.new (J.encode k), (h _).2 ⟨k, hk, rfl⟩, KeyedStore.readFor_eq_some_iff.2 ⟨?_, htargets⟩⟩
    rw [Op.new_payload, hJ k, if_pos (hshallow k hk htargets)]

/-- **What a store reads.** -/
theorem Took.docGetField_cases (hH : CollisionFree H) (hJ : J.Serde) (h : Took K s)
    (hshallow : ∀ k ∈ K, k.Targets collection id field → k.depth < recursionLimit) :
    ((∀ k ∈ K, ¬ k.Targets collection id field) ∧ s.docGetField collection id field = none) ∨
      ∃ k, IsLatest K collection id field k ∧ s.docGetField collection id field = k.kind.live := by
  cases hw : s.winner collection id field with
  | none =>
    refine .inl ⟨fun k hk htargets => ?_, by rw [docGetField, fieldValue, hw]; rfl⟩
    obtain ⟨op, hop, hread⟩ := (h.readFor_eq_some_iff hJ hshallow).2 ⟨hk, htargets⟩
    rw [winner_eq_argmax, List.argmax_eq_none] at hw
    have hmem : k ∈ s.opsFor collection id field :=
      List.mem_filterMap.2 ⟨op, OpLog.mem_order.2 hop, hread⟩
    exact absurd hmem (hw ▸ List.not_mem_nil)
  | some k =>
    obtain ⟨op, hmax⟩ := (winner_eq_some_iff hH).1 hw
    obtain ⟨hk, htargets⟩ := (h.readFor_eq_some_iff hJ hshallow).1 ⟨op, hmax.mem, hmax.val⟩
    refine .inr ⟨k, ⟨hk, htargets, fun k' hk' htargets' => ?_⟩, docGetField_of_winner hw⟩
    obtain ⟨op', hop', hread'⟩ := (h.readFor_eq_some_iff hJ hshallow).2 ⟨hk', htargets'⟩
    exact hmax.best op' hop' k' hread'

/-! ## Documents that are written whole

A component that writes all fields of a document at once, with one stamp from a counter.

* `wrote_exec_apply` — **a document reads as it was last written**. -/

open Lib.Runs

variable {C : Type} {name : C → Str} {collection id : Str} {top hlc : Hlc} {kind : C → OpKind}
  {columns : List C}

def writeDoc (s : KeyedStore H J) (collection : Str) (name : C → Str) (id : Str) (hlc : Hlc)
    (kind : C → OpKind) (columns : List C) : KeyedStore H J :=
  columns.foldl (fun s c => (s.appendOp ⟨collection, id, name c, hlc, kind c⟩).1) s

theorem StampedUpTo.writeDoc (hH : CollisionFree H) (hJ : J.RoundTrips) (h : s.StampedUpTo top)
    (hle : top ≤ hlc) (hflat : ∀ c, (kind c).Flat) (columns : List C) :
    (s.writeDoc collection name id hlc kind columns).StampedUpTo hlc := by
  induction columns generalizing s top with
  | nil => exact fun op hop k hk => (h op hop k hk).trans hle
  | cons c columns ih => exact ih (h.appendOp hH (k := ⟨_, _, _, _, _⟩) hle (hJ _ (hflat c))) le_rfl

theorem winner_writeDoc_of_ne (hH : CollisionFree H) (hJ : J.RoundTrips)
    (hflat : ∀ c, (kind c).Flat) {collection' id' field : Str}
    (hne : ∀ c ∈ columns, ¬ (collection = collection' ∧ id = id' ∧ name c = field)) :
    (s.writeDoc collection name id hlc kind columns).winner collection' id' field =
      s.winner collection' id' field := by
  induction columns generalizing s with
  | nil => rfl
  | cons c columns ih =>
    refine (ih fun d hd => hne d (List.mem_cons_of_mem c hd)).trans ?_
    exact winner_appendOp_of_ne hH (hJ _ (hflat c)) (hne c List.mem_cons_self)

theorem winner_writeDoc (hH : CollisionFree H) (hJ : J.RoundTrips) (hflat : ∀ c, (kind c).Flat)
    (hname : Function.Injective name) (hnodup : columns.Nodup) {c : C} (hc : c ∈ columns)
    (hlater : ∀ m, s.winner collection id (name c) = some m → m.hlc < hlc) :
    (s.writeDoc collection name id hlc kind columns).winner collection id (name c) =
      some ⟨collection, id, name c, hlc, kind c⟩ := by
  induction columns generalizing s with
  | nil => cases hc
  | cons d columns ih =>
    obtain ⟨hd, hnodup⟩ := List.nodup_cons.1 hnodup
    rcases List.mem_cons.1 hc with rfl | hc
    · show ((s.appendOp ⟨collection, id, name c, hlc, kind c⟩).1.writeDoc collection name id hlc
        kind columns).winner collection id (name c) = _
      rw [winner_writeDoc_of_ne hH hJ hflat]
      · exact winner_appendOp_of_later hH (hJ ⟨collection, id, name c, hlc, kind c⟩ (hflat c)) hlater
      -- the columns after it are others
      rintro d' hd' ⟨-, -, heq⟩
      exact hd (hname heq ▸ hd')
    · refine ih hnodup hc ?_
      rwa [winner_appendOp_of_ne hH (hJ _ (hflat d))]
      rintro ⟨-, -, heq⟩
      exact hd (hname heq ▸ hc)

theorem hlc_le_of_winner (hH : CollisionFree H) (h : s.StampedUpTo top) {field : Str} {m : KeyedOp}
    (hm : s.winner collection id field = some m) : m.hlc ≤ top := by
  obtain ⟨op, hop⟩ := (winner_eq_some_iff hH).1 hm
  exact h op hop.mem m (readFor_eq_some_iff.1 hop.val).1

theorem docGetField_writeDoc (hH : CollisionFree H) (hJ : J.RoundTrips)
    (hflat : ∀ c, (kind c).Flat) (hname : Function.Injective name) (hnodup : columns.Nodup)
    (h : s.StampedUpTo top) (hlt : top < hlc) {c : C} (hc : c ∈ columns) (id' : Str) :
    (s.writeDoc collection name id hlc kind columns).docGetField collection id' (name c) =
      if id = id' then (kind c).live else s.docGetField collection id' (name c) := by
  rw [docGetField, fieldValue]
  split_ifs with hid
  · subst hid
    rw [winner_writeDoc hH hJ hflat hname hnodup hc fun m hm =>
      (hlc_le_of_winner hH h hm).trans_lt hlt]
    rfl
  · rw [winner_writeDoc_of_ne hH hJ hflat fun d _ hslot => hid hslot.2.1]
    rfl

/-! ## By a counter -/

structure DocWrite (C : Type) where
  id : Str
  author : Str
  kind : C → OpKind

def DocWrite.apply (collection : Str) (name : C → Str) (columns : List C)
    (p : KeyedStore H J × UInt64) (d : DocWrite C) : KeyedStore H J × UInt64 :=
  (p.1.writeDoc collection name d.id ⟨p.2 + 1, 0, d.author⟩ d.kind columns, p.2 + 1)

def lastWrite (writes : List (DocWrite C)) (id : Str) : Option (DocWrite C) :=
  writes.reverse.find? fun d => d.id = id

theorem lastWrite_map {α : Type} (f : α → DocWrite C) (l : List α) (id : Str) :
    lastWrite (l.map f) id = (l.reverse.find? fun a => (f a).id = id).map f := by
  rw [lastWrite, ← List.map_reverse, List.find?_map]
  rfl

theorem lastWrite_concat (writes : List (DocWrite C)) (d : DocWrite C) (id : Str) :
    lastWrite (writes ++ [d]) id = if d.id = id then some d else lastWrite writes id := by
  rw [lastWrite, List.reverse_concat, List.find?_cons]
  by_cases h : d.id = id <;> simp [h, lastWrite]

def Counted (p : KeyedStore H J × UInt64) : Prop :=
  ∃ top : Hlc, p.1.StampedUpTo top ∧ top.physical = p.2

/-- A document reads as it was last written, and other collections read as before. -/
structure Wrote (collection : Str) (name : C → Str) (columns : List C)
    (p : KeyedStore H J × UInt64) (writes : List (DocWrite C)) (q : KeyedStore H J × UInt64) :
    Prop where
  counted : Counted q
  clock : q.2.toNat = p.2.toNat + writes.length
  fields : ∀ id, ∀ c ∈ columns, q.1.docGetField collection id (name c) =
    (lastWrite writes id).elim (p.1.docGetField collection id (name c)) fun d => (d.kind c).live
  others : ∀ collection', collection ≠ collection' → ∀ id field,
    q.1.docGetField collection' id field = p.1.docGetField collection' id field

theorem wrote_exec_apply (hH : CollisionFree H) (hJ : J.RoundTrips)
    (hname : Function.Injective name) (hnodup : columns.Nodup) {p : KeyedStore H J × UInt64}
    (hp : Counted p) {writes : List (DocWrite C)} (hflat : ∀ d ∈ writes, ∀ c, (d.kind c).Flat)
    (hroom : p.2.toNat + writes.length < 2 ^ 64) :
    Wrote collection name columns p writes
      (exec (DocWrite.apply collection name columns) p writes) := by
  induction writes using List.reverseRecOn with
  | nil => exact ⟨hp, rfl, fun _ _ _ => rfl, fun _ _ _ _ => rfl⟩
  | append_singleton writes d ih =>
    rw [List.length_append, List.length_singleton] at hroom
    obtain ⟨⟨top, htop, hphysical⟩, hclock, hfields, hothers⟩ :=
      ih (fun d hd => hflat d (List.mem_append_left _ hd)) (by omega)
    have hd : ∀ c, (d.kind c).Flat := hflat d (by simp)
    rw [exec_concat]
    generalize exec (DocWrite.apply collection name columns) p writes = q at *
    have hnext : (q.2 + 1).toNat = q.2.toNat + 1 := by
      rw [UInt64.toNat_add, UInt64.toNat_one, Nat.mod_eq_of_lt (by omega)]
    have hlt : top < ⟨q.2 + 1, 0, d.author⟩ := by
      refine Hlc.lt_of_physical_lt (UInt64.lt_iff_toNat_lt.2 ?_)
      show top.physical.toNat < (q.2 + 1).toNat
      rw [hphysical, hnext]
      exact Nat.lt_succ_self _
    refine ⟨⟨_, htop.writeDoc hH hJ hlt.le hd columns, rfl⟩, ?_, fun id c hc => ?_, ?_⟩
    · rw [List.length_append, List.length_singleton, ← Nat.add_assoc, ← hclock]
      exact hnext
    · rw [DocWrite.apply, docGetField_writeDoc hH hJ hd hname hnodup htop hlt hc, hfields id c hc,
        lastWrite_concat]
      split_ifs <;> rfl
    · intro collection' hne id field
      rw [← hothers collection' hne, DocWrite.apply, docGetField, fieldValue,
        winner_writeDoc_of_ne hH hJ hd fun c _ hslot => hne hslot.1]
      rfl

end Pillar.KeyedStore
