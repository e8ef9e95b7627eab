import Pillar.KeyedStore.Compaction
import Pillar.KeyedStore.Json
import Pillar.Lib.Runs

/-!
# Replicas of a keyed store

Replicas write on their own and merge the ops of one another. The reads are meant to be
last-writer-wins in every cell, but a value nested too deep cannot be read back.

* `eq_of_exchanged` — **replicas that have exchanged everything are equal.**
* `lastWriterWins_iff` — **reads are last-writer-wins exactly if the writes are settled.**
-/

namespace Pillar.KeyedStore

open Std StreamDb Lib.Compare Lib.Runs Lib.Select Lib.SortDedup

variable {H : Bytes → Bytes} {J : KeyedCodec}

/-! ## Exchanging ops -/

variable {s : KeyedStore H J}

theorem ext_mem {t : KeyedStore H J} (h : ∀ op, op ∈ s.log ↔ op ∈ t.log) : s = t := by
  obtain ⟨⟨m⟩⟩ := s
  obtain ⟨⟨n⟩⟩ := t
  rw [OpMap.ext_mem (m := m) (n := n) h]

variable {op : Op H}

theorem mem_merge (hH : CollisionFree H) {t : KeyedStore H J} :
    op ∈ (s.merge t).log ↔ op ∈ t.log ∨ op ∈ s.log :=
  OpLog.mem_merge hH

theorem merge_comm (hH : CollisionFree H) (s t : KeyedStore H J) : s.merge t = t.merge s :=
  ext_mem fun op => by rw [mem_merge hH, mem_merge hH, or_comm]

theorem merge_assoc (hH : CollisionFree H) (s t u : KeyedStore H J) :
    (s.merge t).merge u = s.merge (t.merge u) :=
  ext_mem fun op => by rw [mem_merge hH, mem_merge hH, mem_merge hH, mem_merge hH, or_assoc]

theorem merge_self (hH : CollisionFree H) (s : KeyedStore H J) : s.merge s = s :=
  ext_mem fun op => by rw [mem_merge hH, or_self]

theorem readsAgree_refl (s : KeyedStore H J) : ReadsAgree s s :=
  ⟨fun _ _ => rfl, fun _ _ _ => rfl, fun _ => rfl, fun _ => rfl, fun _ _ => rfl⟩

variable {ι : Type} [DecidableEq ι]

def gossip (σ : ι → KeyedStore H J) (m : ι × ι) : ι → KeyedStore H J :=
  Function.update σ m.1 ((σ m.1).merge (σ m.2))

theorem gossip_apply (σ : ι → KeyedStore H J) (m : ι × ι) (i : ι) :
    gossip σ m i = if i = m.1 then (σ i).merge (σ m.2) else σ i := by
  rw [gossip, Function.update_apply]
  split_ifs with h
  · rw [h]
  · rfl

variable {σ : ι → KeyedStore H J}

theorem exists_mem_of_gossip (hH : CollisionFree H) (m : ι × ι) {i : ι}
    (h : op ∈ (gossip σ m i).log) : ∃ j, op ∈ (σ j).log := by
  rw [gossip_apply] at h
  split_ifs at h
  · rcases (mem_merge hH).1 h with h | h
    · exact ⟨m.2, h⟩
    · exact ⟨i, h⟩
  · exact ⟨i, h⟩

variable {ms : List (ι × ι)}

theorem exists_mem_of_exec_gossip (hH : CollisionFree H) {i : ι} (h : op ∈ (exec gossip σ ms i).log)
    : ∃ j, op ∈ (σ j).log := by
  induction ms generalizing σ with
  | nil => exact ⟨i, h⟩
  | cons m ms ih =>
    obtain ⟨j, hj⟩ := ih h
    exact exists_mem_of_gossip hH m hj

theorem reached_exec_gossip (hσ : ∀ i, Reached (σ i)) (ms : List (ι × ι)) :
    ∀ i, Reached (exec gossip σ ms i) := by
  refine exec_inv (I := fun σ : ι → KeyedStore H J => ∀ i, Reached (σ i)) (fun σ m h i => ?_) hσ ms
  rw [gossip_apply]
  split_ifs
  · exact (h i).merge (h m.2)
  · exact h i

def Exchanged (σ : ι → KeyedStore H J) (ms : List (ι × ι)) : Prop :=
  ∀ i j op, op ∈ (σ j).log → op ∈ (exec gossip σ ms i).log

theorem mem_exec_gossip_iff (hH : CollisionFree H) (hall : Exchanged σ ms) {i : ι} :
    op ∈ (exec gossip σ ms i).log ↔ ∃ j, op ∈ (σ j).log :=
  ⟨exists_mem_of_exec_gossip hH, fun ⟨j, hj⟩ => hall i j op hj⟩

/-- **Replicas that have exchanged everything are equal.** -/
theorem eq_of_exchanged (hH : CollisionFree H) (hall : Exchanged σ ms) (i j : ι) :
    exec gossip σ ms i = exec gossip σ ms j :=
  ext_mem fun op => by rw [mem_exec_gossip_iff hH hall, mem_exec_gossip_iff hH hall]

/-! ## Listings -/

structure Listed (s : KeyedStore H J) : Prop where
  mem_kvKeys : ∀ collection key,
    key ∈ s.kvKeys collection ↔ (s.kvGet collection key).isSome = true
  mem_docFields : ∀ collection id field,
    field ∈ s.docFields collection id ↔ (s.docGetField collection id field).isSome = true
  mem_docIds : ∀ collection id,
    id ∈ s.docIds collection ↔ ∃ field, (s.docGetField collection id field).isSome = true
  kvKeys_sorted : ∀ collection, (s.kvKeys collection).Pairwise (· < ·)
  docFields_sorted : ∀ collection id, (s.docFields collection id).Pairwise (· < ·)
  docIds_sorted : ∀ collection, (s.docIds collection).Pairwise (· < ·)

theorem written_of_fieldValue {collection id field : Str}
    (h : (s.fieldValue collection id field).isSome = true) :
    ∃ k ∈ s.writes, k.collection = collection ∧ k.id = id ∧ k.field = field := by
  obtain ⟨v, hv⟩ := Option.isSome_iff_exists.1 h
  obtain ⟨k, hk, -⟩ := Option.bind_eq_some_iff.1 hv
  rw [winner_eq_argmax] at hk
  obtain ⟨op, hop, hread⟩ := List.mem_filterMap.1 (List.argmax_mem hk)
  exact written_iff.1 ⟨op, OpLog.mem_order.1 hop, k, hread⟩

theorem mem_docFields_iff {collection id field : Str} :
    field ∈ s.docFields collection id ↔ (s.docGetField collection id field).isSome = true := by
  simp only [docFields, List.mem_filter, mem_sortDedup, List.mem_map, decide_eq_true_eq]
  refine and_iff_right_of_imp fun h => ?_
  obtain ⟨k, hk, hc, hid, hf⟩ := written_of_fieldValue h
  exact ⟨k, ⟨hk, hc, hid⟩, hf⟩

/-- **The listings are those of what reads as something.** -/
theorem listed (s : KeyedStore H J) : s.Listed where
  mem_kvKeys collection key := by
    simp only [kvKeys, List.mem_filter, mem_sortDedup, List.mem_map, decide_eq_true_eq]
    refine and_iff_right_of_imp fun h => ?_
    obtain ⟨bytes, hbytes⟩ := Option.isSome_iff_exists.1 h
    obtain ⟨v, hv, -⟩ := Option.bind_eq_some_iff.1 hbytes
    obtain ⟨k, hk, hc, hid, hf⟩ := written_of_fieldValue (Option.isSome_iff_exists.2 ⟨v, hv⟩)
    exact ⟨k, ⟨hk, hc, hf⟩, hid⟩
  mem_docFields collection id field := mem_docFields_iff
  mem_docIds collection id := by
    have hlive : (!(s.docFields collection id).isEmpty) = true ↔
        ∃ field, (s.docGetField collection id field).isSome = true := by
      simp only [← mem_docFields_iff, Bool.not_eq_true', List.isEmpty_eq_false_iff_exists_mem]
    simp only [docIds, List.mem_filter, mem_sortDedup, List.mem_map, decide_eq_true_eq, hlive]
    refine and_iff_right_of_imp ?_
    rintro ⟨field, h⟩
    obtain ⟨k, hk, hc, hid, -⟩ := written_of_fieldValue h
    exact ⟨k, ⟨hk, hc⟩, hid⟩
  kvKeys_sorted collection := (sortDedup_sorted _).sublist List.filter_sublist
  docFields_sorted collection id := (sortDedup_sorted _).sublist List.filter_sublist
  docIds_sorted collection := (sortDedup_sorted _).sublist List.filter_sublist

/-! ## The last writer -/

def KeyedOp.Targets (k : KeyedOp) (collection id field : Str) : Prop :=
  k.collection = collection ∧ k.id = id ∧ k.field = field

def Holds (s : KeyedStore H J) (k : KeyedOp) : Prop := Op.new (J.encode k) ∈ s.log

/-- A write to the cell with the highest stamp of all. -/
structure IsLatest (W : Set KeyedOp) (collection id field : Str) (k : KeyedOp) : Prop where
  mem : k ∈ W
  targets : k.Targets collection id field
  best : ∀ k' ∈ W, k'.Targets collection id field → k'.hlc ≤ k.hlc

/-- A cell without a write reads as nothing; a cell with one reads as what one of the writes
with the highest stamp has put there or deleted, on both surfaces. -/
def LastWriterWins (W : Set KeyedOp) (s : KeyedStore H J) : Prop :=
  ∀ collection id field,
    ((∀ k ∈ W, ¬ k.Targets collection id field) ∧ s.docGetField collection id field = none) ∨
      ∃ k, IsLatest W collection id field k ∧ s.docGetField collection id field = k.kind.live ∧
        (field = kvField → (s.kvGet collection id).map Value.scalar = k.kind.live)

/-- The write that is read: among those with the highest stamp that can be read back, the one
with the least address. -/
structure IsRead (H : Bytes → Bytes) (J : KeyedCodec) (W : Set KeyedOp) (collection id field : Str)
    (k : KeyedOp) : Prop where
  latest : IsLatest W collection id field k
  shallow : k.depth < recursionLimit
  first : ∀ k', IsLatest W collection id field k' → k'.depth < recursionLimit →
    contentAddress H (J.encode k) ≤ contentAddress H (J.encode k')

/-- Every cell that was written has a write that is read, and on the key-value surface it is a
scalar or a deletion. -/
def Settled (H : Bytes → Bytes) (J : KeyedCodec) (W : Set KeyedOp) : Prop :=
  ∀ collection id field, (∃ k ∈ W, k.Targets collection id field) →
    ∃ k, IsRead H J W collection id field k ∧ (field = kvField → k.kind.Flat)

section

variable {s : KeyedStore H J} {collection id field : Str} {k : KeyedOp}

theorem Reached.readFor_eq_some_iff (hH : CollisionFree H) (hJ : J.Serde) (hs : Reached s)
    {op : Op H} (hop : op ∈ s.log) :
    readFor J collection id field op = some k ↔
      op = Op.new (J.encode k) ∧ k.depth < recursionLimit ∧ k.Targets collection id field := by
  rw [KeyedStore.readFor_eq_some_iff]
  constructor
  · rintro ⟨hdecode, htargets⟩
    obtain ⟨k', hk'⟩ := hs.encoded hH hop
    rw [hk', hJ k'] at hdecode
    split_ifs at hdecode with hdepth
    obtain rfl := Option.some.inj hdecode
    exact ⟨Op.ext_payload hk', hdepth, htargets⟩
  · rintro ⟨rfl, hdepth, htargets⟩
    exact ⟨by rw [Op.new_payload, hJ k, if_pos hdepth], htargets⟩

/-- **Which write is read.** -/
theorem Reached.winner_eq_some_iff (hH : CollisionFree H) (hJ : J.Serde) (hs : Reached s) :
    s.winner collection id field = some k ↔
      IsRead H J {k | s.Holds k ∧ k.depth < recursionLimit} collection id field k := by
  rw [KeyedStore.winner_eq_some_iff hH]
  constructor
  · rintro ⟨op, hmax⟩
    obtain ⟨rfl, hdepth, htargets⟩ := (hs.readFor_eq_some_iff hH hJ hmax.mem).1 hmax.val
    have hread : ∀ k', s.Holds k' ∧ k'.depth < recursionLimit → k'.Targets collection id field →
        readFor J collection id field (Op.new (J.encode k')) = some k' := fun k' hk' htargets' =>
      (hs.readFor_eq_some_iff hH hJ hk'.1).2 ⟨rfl, hk'.2, htargets'⟩
    refine ⟨⟨⟨hmax.mem, hdepth⟩, htargets, fun k' hk' htargets' => ?_⟩, hdepth,
      fun k' hlatest hdepth' => ?_⟩
    · exact hmax.best _ hk'.1 k' (hread k' hk' htargets')
    · have hread' := hread k' hlatest.mem hlatest.targets
      exact hmax.first _ hlatest.mem.1 k' hread' ((hmax.best _ hlatest.mem.1 k' hread').antisymm
        (hlatest.best k ⟨hmax.mem, hdepth⟩ htargets))
  · intro hread
    refine ⟨Op.new (J.encode k), hread.latest.mem.1,
      (hs.readFor_eq_some_iff hH hJ hread.latest.mem.1).2 ⟨rfl, hread.shallow, hread.latest.targets⟩,
      fun op hop k' hk' => ?_, fun op hop k' hk' heq => ?_⟩
    · obtain ⟨rfl, hdepth', htargets'⟩ := (hs.readFor_eq_some_iff hH hJ hop).1 hk'
      exact hread.latest.best k' ⟨hop, hdepth'⟩ htargets'
    · obtain ⟨rfl, hdepth', htargets'⟩ := (hs.readFor_eq_some_iff hH hJ hop).1 hk'
      refine hread.first k' ⟨⟨hop, hdepth'⟩, htargets', fun k'' hk'' ht'' => ?_⟩ hdepth'
      exact heq ▸ hread.latest.best k'' hk'' ht''

theorem isLatest_shallow_iff {W : Set KeyedOp} {k₀ : KeyedOp}
    (h₀ : IsLatest W collection id field k₀) (hdepth₀ : k₀.depth < recursionLimit)
    (hdepth : k.depth < recursionLimit) :
    IsLatest {k | k ∈ W ∧ k.depth < recursionLimit} collection id field k ↔
      IsLatest W collection id field k := by
  constructor
  · intro h
    refine ⟨h.mem.1, h.targets, fun k' hk' htargets' => (h₀.best k' hk' htargets').trans ?_⟩
    exact h.best k₀ ⟨h₀.mem, hdepth₀⟩ h₀.targets
  · intro h
    exact ⟨⟨h.mem, hdepth⟩, h.targets, fun k' hk' => h.best k' hk'.1⟩

theorem isRead_shallow_iff {W : Set KeyedOp} {k₀ : KeyedOp}
    (h₀ : IsLatest W collection id field k₀) (hdepth₀ : k₀.depth < recursionLimit) :
    IsRead H J {k | k ∈ W ∧ k.depth < recursionLimit} collection id field k ↔
      IsRead H J W collection id field k := by
  constructor
  · intro h
    exact ⟨(isLatest_shallow_iff h₀ hdepth₀ h.shallow).1 h.latest, h.shallow, fun k' hk' hdepth' =>
      h.first k' ((isLatest_shallow_iff h₀ hdepth₀ hdepth').2 hk') hdepth'⟩
  · intro h
    exact ⟨(isLatest_shallow_iff h₀ hdepth₀ h.shallow).2 h.latest, h.shallow, fun k' hk' hdepth' =>
      h.first k' ((isLatest_shallow_iff h₀ hdepth₀ hdepth').1 hk') hdepth'⟩

theorem Reached.winner_of_isRead (hH : CollisionFree H) (hJ : J.Serde) (hs : Reached s)
    (h : IsRead H J {k | s.Holds k} collection id field k) :
    s.winner collection id field = some k :=
  (hs.winner_eq_some_iff hH hJ).2 ((isRead_shallow_iff h.latest h.shallow).2 h)

theorem Reached.exists_winner (hH : CollisionFree H) (hJ : J.Serde) (hs : Reached s)
    (hk : s.Holds k) (hdepth : k.depth < recursionLimit)
    (htargets : k.Targets collection id field) :
    ∃ w, s.winner collection id field = some w := by
  have hread : readFor J collection id field (Op.new (J.encode k)) = some k :=
    (hs.readFor_eq_some_iff hH hJ hk).2 ⟨rfl, hdepth, htargets⟩
  obtain ⟨op, w, hmax⟩ := exists_isFirstMax Op.id KeyedOp.hlc s.log.ops.finite hk hread
  exact ⟨w, (KeyedStore.winner_eq_some_iff hH).2 ⟨op, hmax⟩⟩

theorem docGetField_of_winner (h : s.winner collection id field = some k) :
    s.docGetField collection id field = k.kind.live := by
  rw [docGetField, fieldValue, h]
  rfl

theorem kvGet_map_scalar_iff (h : s.winner collection id kvField = some k) :
    (s.kvGet collection id).map Value.scalar = k.kind.live ↔ k.kind.Flat := by
  rw [kvGet, fieldValue, h, Option.bind_some]
  cases hk : k.kind with
  | tomb => exact iff_of_true rfl trivial
  | put v =>
    obtain ⟨raw, hraw⟩ := v
    cases raw with
    | scalar bytes => exact iff_of_true rfl ⟨bytes, rfl⟩
    | nested fields =>
      refine iff_of_false ?_ ?_
      · exact (Option.some_ne_none _).symm
      · rintro ⟨bytes, hbytes⟩
        cases congrArg Subtype.val hbytes

theorem shallow_of_live_eq {w : KeyedOp} (hw : w.depth < recursionLimit)
    (h : w.kind.live = k.kind.live) : k.depth < recursionLimit := by
  rw [KeyedOp.depth, ← OpKind.live_injective h]
  exact hw

theorem shallow_of_live_eq_none (h : k.kind.live = none) : k.depth < recursionLimit := by
  cases hk : k.kind with
  | put v => rw [hk] at h; cases h
  | tomb =>
    rw [KeyedOp.depth, hk]
    decide

theorem Reached.shallow_of_docGetField (hH : CollisionFree H) (hJ : J.Serde) (hs : Reached s)
    (h : s.docGetField collection id field = k.kind.live) : k.depth < recursionLimit := by
  cases hw : s.winner collection id field with
  | none =>
    rw [docGetField, fieldValue, hw] at h
    exact shallow_of_live_eq_none h.symm
  | some w =>
    rw [docGetField_of_winner hw] at h
    exact shallow_of_live_eq ((hs.winner_eq_some_iff hH hJ).1 hw).shallow h

/-- **Reads are last-writer-wins exactly if the writes are settled.** -/
theorem Reached.lastWriterWins_iff (hH : CollisionFree H) (hJ : J.Serde) (hs : Reached s) :
    LastWriterWins {k | s.Holds k} s ↔ Settled H J {k | s.Holds k} := by
  constructor
  · rintro h collection id field ⟨k₁, hk₁, htargets₁⟩
    rcases h collection id field with ⟨hnone, -⟩ | ⟨k, hlatest, hdoc, hkv⟩
    · exact absurd htargets₁ (hnone k₁ hk₁)
    · have hdepth := hs.shallow_of_docGetField hH hJ hdoc
      obtain ⟨w, hw⟩ := hs.exists_winner hH hJ hlatest.mem hdepth hlatest.targets
      refine ⟨w, (isRead_shallow_iff hlatest hdepth).1 ((hs.winner_eq_some_iff hH hJ).1 hw), ?_⟩
      rintro rfl
      rw [← kvGet_map_scalar_iff hw, hkv rfl, ← hdoc, docGetField_of_winner hw]
  · intro h collection id field
    by_cases hwritten : ∃ k ∈ {k | s.Holds k}, k.Targets collection id field
    · obtain ⟨k, hread, hflat⟩ := h collection id field hwritten
      have hw := hs.winner_of_isRead hH hJ hread
      refine .inr ⟨k, hread.latest, docGetField_of_winner hw, ?_⟩
      rintro rfl
      exact (kvGet_map_scalar_iff hw).2 (hflat rfl)
    · refine .inl ⟨fun k hk htargets => hwritten ⟨k, hk, htargets⟩, ?_⟩
      cases hw : s.winner collection id field with
      | none => rw [docGetField, fieldValue, hw]; rfl
      | some w =>
        have hlatest := ((hs.winner_eq_some_iff hH hJ).1 hw).latest
        exact absurd ⟨w, hlatest.mem.1, hlatest.targets⟩ hwritten

end

/-! ## The whole contract -/

/-- The writes that the replicas have taken, all together. -/
def union (σ : ι → KeyedStore H J) : Set KeyedOp := {k | ∃ i, (σ i).Holds k}

/-- **Convergence.** -/
theorem converges_to_last_writer (hH : CollisionFree H) (hJ : J.Serde) (σ : ι → KeyedStore H J)
    (hσ : ∀ i, Reached (σ i)) (ms : List (ι × ι)) (hall : Exchanged σ ms) :
    (∀ i j, ReadsAgree (exec gossip σ ms i) (exec gossip σ ms j)) ∧
      (∀ i j, ReadsAgree ((σ i).merge (σ j)) ((σ j).merge (σ i))) ∧
      (∀ i j l, ReadsAgree (((σ i).merge (σ j)).merge (σ l)) ((σ i).merge ((σ j).merge (σ l)))) ∧
      (∀ i, ReadsAgree ((σ i).merge (σ i)) (σ i)) ∧
      (∀ i, (exec gossip σ ms i).Listed) ∧
      ∀ i, LastWriterWins (union σ) (exec gossip σ ms i) ↔ Settled H J (union σ) := by
  have hholds : ∀ i, {k | (exec gossip σ ms i).Holds k} = union σ := by
    intro i
    ext k
    exact mem_exec_gossip_iff hH hall
  refine ⟨fun i j => ?_, fun i j => ?_, fun i j l => ?_, fun i => ?_, fun i => listed _, fun i => ?_⟩
  · rw [eq_of_exchanged hH hall i j]
    exact readsAgree_refl _
  · rw [merge_comm hH]
    exact readsAgree_refl _
  · rw [merge_assoc hH]
    exact readsAgree_refl _
  · rw [merge_self hH]
    exact readsAgree_refl _
  · rw [← hholds i]
    exact (reached_exec_gossip hσ ms i).lastWriterWins_iff hH hJ

theorem settled_of_plain (hH : CollisionFree H) (hJ : J.Serde) (hσ : ∀ i, Reached (σ i))
    (hall : Exchanged σ ms)
    (hplain : ∀ k ∈ union σ, k.depth < recursionLimit ∧ (k.field = kvField → k.kind.Flat)) :
    Settled H J (union σ) := by
  rintro collection id field ⟨k, ⟨i, hk⟩, htargets⟩
  have hs := reached_exec_gossip hσ ms i
  have hshallow : {k | (exec gossip σ ms i).Holds k ∧ k.depth < recursionLimit} = union σ := by
    ext k'
    exact ⟨fun h => (mem_exec_gossip_iff hH hall).1 h.1,
      fun h => ⟨(mem_exec_gossip_iff hH hall).2 h, (hplain k' h).1⟩⟩
  obtain ⟨w, hw⟩ := hs.exists_winner hH hJ (hall i i _ hk) (hplain k ⟨i, hk⟩).1 htargets
  have hread := (hs.winner_eq_some_iff hH hJ).1 hw
  rw [hshallow] at hread
  refine ⟨w, hread, fun hfield => (hplain w hread.latest.mem).2 ?_⟩
  rw [hread.latest.targets.2.2, hfield]

/-! ## Single writes -/

def only (H : Bytes → Bytes) (J : KeyedCodec) (k : KeyedOp) : KeyedStore H J := (new.appendOp k).1

variable {k : KeyedOp}

theorem holds_only (hH : CollisionFree H) (hinj : Function.Injective J.encode) {k' : KeyedOp} :
    (only H J k).Holds k' ↔ k' = k := by
  have hnew : Op.new (J.encode k') ∉ (new : KeyedStore H J).log := OpLog.not_mem_new _
  rw [Holds, only, mem_appendOp hH, or_iff_left hnew]
  constructor
  · intro h
    exact hinj (congrArg Op.payload h)
  · rintro rfl
    rfl

section

variable (hH : CollisionFree H) (hJ : J.Serde) (hinj : Function.Injective J.encode)
  (hs : Reached (only H J k))

include hH hJ hinj hs

theorem lastWriterWins_only_iff :
    LastWriterWins {k' | (only H J k).Holds k'} (only H J k) ↔
      k.depth < recursionLimit ∧ (k.field = kvField → k.kind.Flat) := by
  have honly : {k' | (only H J k).Holds k'} = {k} :=
    Set.ext fun k' => holds_only hH hinj
  rw [hs.lastWriterWins_iff hH hJ, honly]
  constructor
  · intro h
    obtain ⟨w, hread, hflat⟩ := h _ _ _ ⟨k, rfl, rfl, rfl, rfl⟩
    obtain rfl : w = k := hread.latest.mem
    exact ⟨hread.shallow, hflat⟩
  · rintro ⟨hdepth, hflat⟩ collection id field ⟨w, rfl, htargets⟩
    refine ⟨w, ⟨⟨rfl, htargets, ?_⟩, hdepth, ?_⟩, ?_⟩
    · rintro k' rfl -
      exact le_rfl
    · rintro k' hlatest -
      obtain rfl : k' = w := hlatest.mem
      exact le_rfl
    · rw [← htargets.2.2]
      exact hflat

theorem docGetField_only_of_deep (hdeep : ¬ k.depth < recursionLimit) (collection id field : Str) :
    (only H J k).docGetField collection id field = none := by
  rw [docGetField, fieldValue]
  cases hw : (only H J k).winner collection id field with
  | none => rfl
  | some w =>
    have hread := (hs.winner_eq_some_iff hH hJ).1 hw
    obtain rfl := (holds_only hH hinj).1 hread.latest.mem.1
    exact absurd hread.shallow hdeep

theorem winner_only (hdepth : k.depth < recursionLimit) :
    (only H J k).winner k.collection k.id k.field = some k := by
  obtain ⟨w, hw⟩ := hs.exists_winner hH hJ ((holds_only hH hinj).2 rfl) hdepth
    ⟨rfl, rfl, rfl⟩
  rw [hw, (holds_only hH hinj).1 ((hs.winner_eq_some_iff hH hJ).1 hw).latest.mem.1]

end

def firstStamp : Hlc := ⟨1, 0, ⟨"w", by decide⟩⟩

/-- One replica puts a value under key `k` of collection `c`, and the other deletes the key at
the same time. -/
def putOrDelete (put : Bool) : KeyedOp :=
  { tiedOp 1 with hlc := firstStamp, kind := if put then .put (.scalar [1]) else .tomb }

noncomputable def twoReplicas (put : Bool) : KeyedStore (tableDigest []) serdeJson :=
  only _ _ (putOrDelete put)

theorem twoReplicas_reached (put : Bool) : Reached (twoReplicas put) := by
  cases put with
  | false => exact Reached.new.kvDelete _ _ _
  | true => exact Reached.new.kvPut _ _ _ _

/-- Each merges the other, and after that the two agree on who was the last writer, although
the stamps are the same. -/
theorem two_replicas_converge :
    (∀ i j, ReadsAgree (exec gossip twoReplicas [(true, false), (false, true)] i)
        (exec gossip twoReplicas [(true, false), (false, true)] j)) ∧
      ∀ i, LastWriterWins (union twoReplicas)
        (exec gossip twoReplicas [(true, false), (false, true)] i) := by
  have hH : CollisionFree (tableDigest []) := tableDigest_collisionFree (by simp) (by simp)
  have hall : Exchanged twoReplicas [(true, false), (false, true)] := by
    intro i j op hop
    cases i <;> cases j <;> simp [exec, gossip_apply, mem_merge hH, hop]
  have hplain : ∀ k ∈ union twoReplicas,
      k.depth < recursionLimit ∧ (k.field = kvField → k.kind.Flat) := by
    rintro k ⟨i, hk⟩
    obtain rfl := (holds_only hH serdeJson_encode_injective).1 hk
    cases i with
    | false => exact ⟨by decide, fun _ => trivial⟩
    | true => exact ⟨by decide, fun _ => ⟨[1], rfl⟩⟩
  have h := converges_to_last_writer hH serdeJson_serde twoReplicas twoReplicas_reached _ hall
  exact ⟨h.1, fun i => (h.2.2.2.2.2 i).2
    (settled_of_plain hH serdeJson_serde twoReplicas_reached hall hplain)⟩

def nestedIn : ℕ → RawValue
  | 0 => .nested .nil
  | n + 1 => .nested (.cons ⟨"a", by decide⟩ (nestedIn n) .nil)

theorem nestedIn_sorted (n : ℕ) : (nestedIn n).sorted = true := by
  induction n with
  | zero => rfl
  | succ n ih =>
    show ((nestedIn n).sorted && true && true) = true
    rw [ih]
    rfl

/-- Field `f` of document `d` gets a value with 63 objects inside each other. -/
def deepOp : KeyedOp :=
  { putOrDelete true with
    id := .lit "d"
    field := ⟨"f", by decide⟩
    kind := .put ⟨nestedIn 62, nestedIn_sorted 62⟩ }

/-- Document `k` gets an empty object under the field without a name. -/
def nestedOp : KeyedOp := { putOrDelete true with kind := .put ⟨nestedIn 0, rfl⟩ }

def deepDigest : Bytes :=
  beBytes 32 0x1283760cc7853ca9a501acbbc04c8a76c928539ecdb0679fed184d844c662844

/-- SHA2-256 on the payload of the second. -/
def nestedDigest : Bytes :=
  beBytes 32 0x9d8d9b5d33ad66488b293d2650ed5c82fc1de8417d35d1a52a053575d1a23ffd

def lostDigest : Bytes → Bytes :=
  tableDigest [(utf8 (String.ofList deepOp.json), deepDigest),
    (utf8 (String.ofList nestedOp.json), nestedDigest)]

theorem lostDigest_collisionFree : CollisionFree lostDigest := by
  have hne : deepDigest ≠ nestedDigest := by decide
  refine tableDigest_collisionFree ?_ ?_
  · simp only [List.forall_mem_cons]
    exact ⟨by decide, by decide, by simp⟩
  · simp only [List.forall_mem_cons]
    exact ⟨⟨fun _ => trivial, fun h => absurd h hne, by simp⟩,
      ⟨fun h => absurd h.symm hne, fun _ => trivial, by simp⟩, by simp⟩

/-- The store that only the value nested too deep was written to. -/
noncomputable def deepStore : KeyedStore lostDigest serdeJson := only _ _ deepOp

/-- The store that only the empty object was written to. -/
noncomputable def nestedStore : KeyedStore lostDigest serdeJson := only _ _ nestedOp

/-- **The last write is lost.** -/
theorem last_write_lost :
    CollisionFree lostDigest ∧ serdeJson.Serde ∧
      (Reached deepStore ∧ deepStore.Holds deepOp ∧
        deepStore.docGetField ⟨"c", by decide⟩ ⟨"d", by decide⟩ ⟨"f", by decide⟩ = none ∧
        ¬ LastWriterWins {k | deepStore.Holds k} deepStore) ∧
      (Reached nestedStore ∧ nestedStore.Holds nestedOp ∧
        nestedStore.docGetField ⟨"c", by decide⟩ ⟨"k", by decide⟩ kvField = nestedOp.kind.live ∧
        nestedStore.kvGet ⟨"c", by decide⟩ ⟨"k", by decide⟩ = none ∧
        ¬ LastWriterWins {k | nestedStore.Holds k} nestedStore) := by
  have hH := lostDigest_collisionFree
  have hJ := serdeJson_serde
  have hinj := serdeJson_encode_injective
  have hdeep : Reached deepStore := Reached.new.docPutField _ _ _ _ _
  have hnested : Reached nestedStore := Reached.new.docPutField _ _ _ _ _
  have htoodeep : ¬ deepOp.depth < recursionLimit := by decide +kernel
  have hnotflat : ¬ nestedOp.kind.Flat := by
    rintro ⟨bytes, hbytes⟩
    cases congrArg Subtype.val hbytes
  have hwinner := winner_only hH hJ hinj hnested (by decide)
  have hdoc := docGetField_of_winner hwinner
  refine ⟨hH, hJ, ⟨hdeep, (holds_only hH hinj).2 rfl, ?_, ?_⟩,
    hnested, (holds_only hH hinj).2 rfl, hdoc, ?_, ?_⟩
  · exact docGetField_only_of_deep hH hJ hinj hdeep htoodeep _ _ _
  · intro h
    exact htoodeep ((lastWriterWins_only_iff hH hJ hinj hdeep).1 h).1
  · exact congrArg (fun o => Option.bind o Value.asScalar) hdoc
  · intro h
    exact hnotflat (((lastWriterWins_only_iff hH hJ hinj hnested).1 h).2 rfl)

end Pillar.KeyedStore
