import Pillar.KeyedStore.Writers
import Pillar.Rbac.Decider
import Pillar.SqlViews.Views

/-!
# Grants as rows

`pillar-rbac`'s grant store: a grant is a document of a keyed store, and the decider reads the
grants through a view.

* `rowsIndependent_iff` — **the rows are independent exactly if no two of the granted pairs have
  one key.**
-/

namespace Pillar.Rbac

open Std KeyedStore SqlViews Lib.Runs

/-! ## Keys, fields and rows -/

/-- A subject and a capability, short enough that the key of their row can be allocated. -/
@[ext] structure GrantPair where
  subject : Str
  capability : Str
  fits : (subject.val ++ ":" ++ capability.val).utf8ByteSize < 2 ^ 63
  deriving DecidableEq

def grantKey (pair : GrantPair) : Str := ⟨pair.subject.val ++ ":" ++ pair.capability.val, pair.fits⟩

def grantsCollection : Str := ⟨"rbac_grants", by decide⟩

def effectiveGrantsView : Str := ⟨"effective_grants", by decide⟩

inductive Column where
  | subject
  | capability
  | effect
  deriving DecidableEq

def Column.name : Column → Str
  | .subject => ⟨"subject", by decide⟩
  | .capability => ⟨"capability", by decide⟩
  | .effect => ⟨"effect", by decide⟩

theorem Column.name_injective : Function.Injective Column.name := by
  intro a b h
  cases a <;> cases b <;> first | rfl | exact absurd h (by decide)

theorem Column.dot_not_mem_name (c : Column) : '.' ∉ c.name.val.toList := by
  cases c <;> decide

def effectBytes : GrantEffect → Bytes
  | .allow => utf8 "allow"
  | .deny => utf8 "deny"

def effectFromBytes (b : Bytes) : Option GrantEffect :=
  if b = utf8 "allow" then some .allow else if b = utf8 "deny" then some .deny else none

@[simp] theorem effectFromBytes_effectBytes (e : GrantEffect) :
    effectFromBytes (effectBytes e) = some e := by
  cases e <;> decide

theorem eq_of_effectFromBytes {b : Bytes} {e : GrantEffect} (h : effectFromBytes b = some e) :
    b = effectBytes e := by
  rw [effectFromBytes] at h
  split_ifs at h with hallow hdeny
  · exact Option.some.inj h ▸ hallow
  · exact Option.some.inj h ▸ hdeny

/-! ## Writing and reading -/

structure Put where
  pair : GrantPair
  effect : GrantEffect
  hlc : Hlc
  deriving DecidableEq

def Put.explicit (p : Put) : ExplicitGrant := ⟨p.pair.subject.val, p.pair.capability.val, p.effect⟩

variable {H : Bytes → Bytes} {J : KeyedCodec}

def putGrant (s : KeyedStore H J) (p : Put) : KeyedStore H J :=
  let id := grantKey p.pair
  let s := (s.docPutField grantsCollection id Column.subject.name
    (.scalar p.pair.subject.bytes) p.hlc).1
  let s := (s.docPutField grantsCollection id Column.capability.name
    (.scalar p.pair.capability.bytes) p.hlc).1
  (s.docPutField grantsCollection id Column.effect.name (.scalar (effectBytes p.effect)) p.hlc).1

def ensureEffectiveGrantsView (V : ViewCodec) (s : KeyedStore H J) (hlc : Hlc) : KeyedStore H J :=
  createView V s effectiveGrantsView (.over_ grantsCollection) hlc

def fieldBytes (fields : ExtTreeMap Str Value) (field : Str) : Option Bytes :=
  fields[field]?.bind Value.asScalar

def fieldStr (fields : ExtTreeMap Str Value) (field : Str) : Option Str :=
  (fieldBytes fields field).bind Str.fromUtf8

def decodeRow (row : Row) : Option ExplicitGrant :=
  (fieldStr row.fields Column.subject.name).bind fun subject =>
    (fieldStr row.fields Column.capability.name).bind fun capability =>
      ((fieldBytes row.fields Column.effect.name).bind effectFromBytes).map fun effect =>
        ⟨subject.val, capability.val, effect⟩

def effectiveGrants (V : ViewCodec) (s : KeyedStore H J) : List ExplicitGrant :=
  ((materializeView V s effectiveGrantsView).getD []).filterMap decodeRow

/-! ## Rows -/

inductive RowWrite where
  | put (p : Put)
  | delete (pair : GrantPair) (hlc : Hlc)
  deriving DecidableEq

namespace RowWrite

def pair : RowWrite → GrantPair
  | .put p => p.pair
  | .delete pair _ => pair

def hlc : RowWrite → Hlc
  | .put p => p.hlc
  | .delete _ hlc => hlc

def kind : RowWrite → Column → OpKind
  | .put p, .subject => .put (.scalar p.pair.subject.bytes)
  | .put p, .capability => .put (.scalar p.pair.capability.bytes)
  | .put p, .effect => .put (.scalar (effectBytes p.effect))
  | .delete _ _, _ => .tomb

def op (w : RowWrite) (c : Column) : KeyedOp :=
  ⟨grantsCollection, grantKey w.pair, c.name, w.hlc, w.kind c⟩

theorem flat_op (w : RowWrite) (c : Column) : (w.op c).kind.Flat := by
  cases w with
  | put p => cases c <;> exact ⟨_, rfl⟩
  | delete pair hlc => trivial

theorem op_targets_iff {w : RowWrite} {c c' : Column} {id : Str} :
    (w.op c).Targets grantsCollection id c'.name ↔ grantKey w.pair = id ∧ c = c' := by
  constructor
  · rintro ⟨-, hid, hname⟩
    exact ⟨hid, Column.name_injective hname⟩
  · rintro ⟨hid, rfl⟩
    exact ⟨rfl, hid, rfl⟩

end RowWrite

def writeRow (s : KeyedStore H J) (w : RowWrite) : KeyedStore H J :=
  (((s.appendOp (w.op .subject)).1.appendOp (w.op .capability)).1.appendOp (w.op .effect)).1

theorem putGrant_eq_writeRow (s : KeyedStore H J) (p : Put) : putGrant s p = writeRow s (.put p) :=
  rfl

def rowOps (W : Set RowWrite) : Set KeyedOp := {k | ∃ w ∈ W, ∃ c, k = w.op c}

/-- These writes are a store that has the view and no grants: whatever else it holds is elsewhere. -/
structure WithView (V : ViewCodec) (K : Set KeyedOp) : Prop where
  apart : ∀ k ∈ K, k.collection ≠ grantsCollection
  created : ∃ k ∈ K, k.Targets catalogCollection effectiveGrantsView catalogDefField
  view : ∀ k ∈ K, k.Targets catalogCollection effectiveGrantsView catalogDefField →
    k.kind = .put (.scalar (V.encode (.over_ grantsCollection)))

def Rows (K : Set KeyedOp) (W : Set RowWrite) (s : KeyedStore H J) : Prop := Took (K ∪ rowOps W) s

theorem rowOps_empty : rowOps ∅ = ∅ := by
  simp [rowOps]

theorem rowOps_union (W W' : Set RowWrite) : rowOps (W ∪ W') = rowOps W ∪ rowOps W' := by
  ext k
  simp only [rowOps, Set.mem_ofPred_eq, Set.mem_union, or_and_right, exists_or]

theorem rowOps_insert (w : RowWrite) (W : Set RowWrite) :
    rowOps (insert w W) =
      insert (w.op .effect) (insert (w.op .capability) (insert (w.op .subject) (rowOps W))) := by
  ext k
  constructor
  · rintro ⟨w', rfl | hw', c, rfl⟩
    · cases c <;> simp
    · exact .inr (.inr (.inr ⟨w', hw', c, rfl⟩))
  · rintro (rfl | rfl | rfl | ⟨w', hw', c, rfl⟩)
    · exact ⟨w, .inl rfl, _, rfl⟩
    · exact ⟨w, .inl rfl, _, rfl⟩
    · exact ⟨w, .inl rfl, _, rfl⟩
    · exact ⟨w', .inr hw', c, rfl⟩

variable {K : Set KeyedOp} {s : KeyedStore H J}

theorem took_writeRow (hH : CollisionFree H) (h : Took K s) (w : RowWrite) :
    Took (K ∪ rowOps {w}) (writeRow s w) := by
  have hops := ((h.appendOp hH (w.op .subject)).appendOp hH (w.op .capability)).appendOp hH
    (w.op .effect)
  have hset : K ∪ rowOps {w} =
      insert (w.op .effect) (insert (w.op .capability) (insert (w.op .subject) K)) := by
    rw [← insert_empty_eq w, rowOps_insert, rowOps_empty]
    ext k
    simp only [Set.mem_union, Set.mem_insert_iff, Set.mem_empty_iff_false, or_false]
    tauto
  rw [hset]
  exact hops

theorem withView_catalogOp (V : ViewCodec) (t : Hlc) :
    WithView V {catalogOp V effectiveGrantsView (.over_ grantsCollection) t} where
  apart := by
    rintro k rfl
    exact (by decide : catalogCollection ≠ grantsCollection)
  created := ⟨_, rfl, rfl, rfl, rfl⟩
  view := by
    rintro k rfl -
    rfl

theorem took_ensureEffectiveGrantsView (hH : CollisionFree H) (V : ViewCodec) (t : Hlc) :
    Took {catalogOp V effectiveGrantsView (.over_ grantsCollection) t}
      (ensureEffectiveGrantsView V (new : KeyedStore H J) t) := by
  rw [← insert_empty_eq]
  exact took_new.appendOp hH _

theorem rows_of_took (h : Took K s) : Rows K ∅ s := by
  rw [Rows, rowOps_empty, Set.union_empty]
  exact h

theorem Rows.writeRow (hH : CollisionFree H) {W : Set RowWrite} (h : Rows K W s) (w : RowWrite) :
    Rows K (insert w W) (writeRow s w) := by
  have htook := took_writeRow hH h w
  rwa [Set.union_assoc, ← rowOps_union, Set.union_singleton] at htook

section Reading

variable {V : ViewCodec} {K : Set KeyedOp} {W : Set RowWrite} {s : KeyedStore H J}

def Latest (W : Set RowWrite) (w : RowWrite) : Prop :=
  w ∈ W ∧ ∀ w' ∈ W, grantKey w'.pair = grantKey w.pair → w'.hlc ≤ w.hlc

theorem Rows.docGetField_cases (hH : CollisionFree H) (hJ : J.Serde) (hK : WithView V K)
    (h : Rows K W s) (id : Str) (c : Column) :
    ((∀ w ∈ W, grantKey w.pair ≠ id) ∧ s.docGetField grantsCollection id c.name = none) ∨
      ∃ w, Latest W w ∧ grantKey w.pair = id ∧
        s.docGetField grantsCollection id c.name = (w.kind c).live := by
  have hrow : ∀ k ∈ K ∪ rowOps W, k.Targets grantsCollection id c.name →
      ∃ w ∈ W, k = w.op c ∧ grantKey w.pair = id := by
    rintro k (hk | ⟨w, hw, c', rfl⟩) htargets
    · exact absurd htargets.1 (hK.apart k hk)
    · obtain ⟨hkey, rfl⟩ := RowWrite.op_targets_iff.1 htargets
      exact ⟨w, hw, rfl, hkey⟩
  have hshallow : ∀ k ∈ K ∪ rowOps W, k.Targets grantsCollection id c.name →
      k.depth < recursionLimit := by
    intro k hk htargets
    obtain ⟨w, -, rfl, -⟩ := hrow k hk htargets
    exact (w.flat_op c).shallow
  have hop : ∀ w ∈ W, grantKey w.pair = id →
      w.op c ∈ K ∪ rowOps W ∧ (w.op c).Targets grantsCollection id c.name := fun w hw hkey =>
    ⟨.inr ⟨w, hw, c, rfl⟩, RowWrite.op_targets_iff.2 ⟨hkey, rfl⟩⟩
  rcases Took.docGetField_cases hH hJ h hshallow with ⟨hnone, hread⟩ | ⟨k, hlatest, hread⟩
  · exact .inl ⟨fun w hw hkey => hnone _ (hop w hw hkey).1 (hop w hw hkey).2, hread⟩
  · obtain ⟨w, hw, rfl, hkey⟩ := hrow k hlatest.mem hlatest.targets
    refine .inr ⟨w, ⟨hw, fun w' hw' hkey' => ?_⟩, hkey, hread⟩
    have hop' := hop w' hw' (hkey'.trans hkey)
    exact hlatest.best (w'.op c) hop'.1 hop'.2

theorem Rows.viewDef_eq (hH : CollisionFree H) (hJ : J.Serde)
    (hV : V.Keeps (.over_ grantsCollection)) (hK : WithView V K) (h : Rows K W s) :
    viewDef V s effectiveGrantsView = some (.over_ grantsCollection) := by
  have hview : ∀ k ∈ K ∪ rowOps W,
      k.Targets catalogCollection effectiveGrantsView catalogDefField →
        k.kind = .put (.scalar (V.encode (.over_ grantsCollection))) := by
    rintro k (hk | ⟨w, -, c, rfl⟩) htargets
    · exact hK.view k hk htargets
    · exact absurd htargets.1 (by decide : grantsCollection ≠ catalogCollection)
  have hshallow : ∀ k ∈ K ∪ rowOps W,
      k.Targets catalogCollection effectiveGrantsView catalogDefField → k.depth < recursionLimit :=
    fun k hk htargets => OpKind.Flat.shallow (by rw [hview k hk htargets]; exact ⟨_, rfl⟩)
  rcases Took.docGetField_cases hH hJ h hshallow with ⟨hnone, -⟩ | ⟨k, hlatest, hread⟩
  · obtain ⟨k, hk, htargets⟩ := hK.created
    exact absurd htargets (hnone k (.inl hk))
  · rw [viewDef, hread, hview k hlatest.mem hlatest.targets]
    exact hV

def readGrant (s : KeyedStore H J) (id : Str) : Option ExplicitGrant :=
  decodeRow ⟨id, rowFields s grantsCollection id none⟩

theorem Rows.effectiveGrants_eq (hH : CollisionFree H) (hJ : J.Serde)
    (hV : V.Keeps (.over_ grantsCollection)) (hK : WithView V K) (h : Rows K W s) :
    effectiveGrants V s = (s.docIds grantsCollection).filterMap (readGrant s) := by
  rw [effectiveGrants, materializeView, h.viewDef_eq hH hJ hV hK, Option.map_some, Option.getD_some,
    materialize_over_, List.filterMap_map]
  rfl

def cellBytes (s : KeyedStore H J) (id : Str) (c : Column) : Option Bytes :=
  (s.docGetField grantsCollection id c.name).bind Value.asScalar

variable {g : ExplicitGrant}

theorem readGrant_eq_some_iff {id : Str} :
    readGrant s id = some g ↔ ∃ subject capability : Str,
      cellBytes s id .subject = some subject.bytes ∧
      cellBytes s id .capability = some capability.bytes ∧
      cellBytes s id .effect = some (effectBytes g.effect) ∧
      g.subject = subject.val ∧ g.capability = capability.val := by
  have hcell : ∀ c : Column, fieldBytes (rowFields s grantsCollection id none) c.name =
      cellBytes s id c := fun c => by
    rw [fieldBytes, getElem?_rowFields s _ _ c.dot_not_mem_name, cellBytes]
  simp only [readGrant, decodeRow, fieldStr, hcell, Option.bind_eq_some_iff, Option.map_eq_some_iff,
    Str.fromUtf8_eq_some_iff]
  constructor
  · rintro ⟨subject, ⟨_, hs, rfl⟩, capability, ⟨_, hc, rfl⟩, effect, ⟨b, he, heffect⟩, rfl⟩
    exact ⟨subject, capability, hs, hc, eq_of_effectFromBytes heffect ▸ he, rfl, rfl⟩
  · rintro ⟨subject, capability, hs, hc, he, hsubject, hcapability⟩
    refine ⟨subject, ⟨_, hs, rfl⟩, capability, ⟨_, hc, rfl⟩, g.effect,
      ⟨_, he, effectFromBytes_effectBytes _⟩, ?_⟩
    rw [← hsubject, ← hcapability]

theorem mem_docIds_of_readGrant {id : Str} (h : readGrant s id = some g) :
    id ∈ s.docIds grantsCollection := by
  obtain ⟨subject, -, hs, -⟩ := readGrant_eq_some_iff.1 h
  obtain ⟨v, hv, -⟩ := Option.bind_eq_some_iff.1 hs
  exact ((listed s).mem_docIds _ _).2 ⟨_, Option.isSome_iff_exists.2 ⟨v, hv⟩⟩

theorem Rows.mem_effectiveGrants (hH : CollisionFree H) (hJ : J.Serde)
    (hV : V.Keeps (.over_ grantsCollection)) (hK : WithView V K) (h : Rows K W s) :
    g ∈ effectiveGrants V s ↔ ∃ id, readGrant s id = some g := by
  rw [h.effectiveGrants_eq hH hJ hV hK, List.mem_filterMap]
  exact ⟨fun ⟨id, _, hid⟩ => ⟨id, hid⟩, fun ⟨id, hid⟩ => ⟨id, mem_docIds_of_readGrant hid, hid⟩⟩

theorem Rows.put_of_cellBytes (hH : CollisionFree H) (hJ : J.Serde) (hK : WithView V K)
    (h : Rows K W s)
    {id : Str} {c : Column} {b : Bytes} (hb : cellBytes s id c = some b) :
    ∃ p : Put, Latest W (.put p) ∧ grantKey p.pair = id ∧
      ((RowWrite.put p).kind c).live = some (.scalar b) := by
  obtain ⟨v, hv, hscalar⟩ := Option.bind_eq_some_iff.1 hb
  rcases h.docGetField_cases hH hJ hK id c with ⟨-, hnone⟩ | ⟨w, hlatest, hkey, hread⟩
  · rw [hnone] at hv
    cases hv
  · rw [hread] at hv
    cases w with
    | delete pair hlc => cases hv
    | put p =>
      refine ⟨p, hlatest, hkey, ?_⟩
      have hflat : ∀ c, ∃ x, ((RowWrite.put p).kind c).live = some (.scalar x) := fun c => by
        cases c <;> exact ⟨_, rfl⟩
      obtain ⟨x, hx⟩ := hflat c
      rw [hx] at hv ⊢
      obtain rfl := Option.some.inj hv
      rw [Option.some.inj (hscalar.symm.trans rfl)]

/-- **Where a grant that is read comes from.** -/
theorem Rows.readGrant_cases (hH : CollisionFree H) (hJ : J.Serde) (hK : WithView V K)
    (h : Rows K W s) {id : Str} (hg : readGrant s id = some g) :
    ∃ p q r : Put, (Latest W (.put p) ∧ grantKey p.pair = id ∧ g.subject = p.pair.subject.val) ∧
      (Latest W (.put q) ∧ grantKey q.pair = id ∧ g.capability = q.pair.capability.val) ∧
      (Latest W (.put r) ∧ grantKey r.pair = id ∧ g.effect = r.effect) := by
  obtain ⟨subject, capability, hs, hc, he, hsubject, hcapability⟩ := readGrant_eq_some_iff.1 hg
  obtain ⟨p, hp, hpkey, hplive⟩ := h.put_of_cellBytes hH hJ hK hs
  obtain ⟨q, hq, hqkey, hqlive⟩ := h.put_of_cellBytes hH hJ hK hc
  obtain ⟨r, hr, hrkey, hrlive⟩ := h.put_of_cellBytes hH hJ hK he
  have hscalar : ∀ {a b : Bytes}, some (Value.scalar a) = some (Value.scalar b) → a = b := by
    intro a b hab
    exact RawValue.scalar.inj (congrArg Subtype.val (Option.some.inj hab))
  refine ⟨p, q, r, ⟨hp, hpkey, ?_⟩, ⟨hq, hqkey, ?_⟩, ⟨hr, hrkey, ?_⟩⟩
  · rw [hsubject, Str.bytes_injective (hscalar hplive)]
  · rw [hcapability, Str.bytes_injective (hscalar hqlive)]
  · have heffect := congrArg effectFromBytes (hscalar hrlive)
    simpa using heffect.symm

/-- **A row reads as the grant with the highest stamp.** -/
theorem Rows.readGrant_of_latest (hH : CollisionFree H) (hJ : J.Serde) (hK : WithView V K)
    (h : Rows K W s)
    {p : Put} (hp : Latest W (.put p))
    (hsole : ∀ w ∈ W, grantKey w.pair = grantKey p.pair → w.hlc = p.hlc → w = .put p) :
    readGrant s (grantKey p.pair) = some p.explicit := by
  have hcell : ∀ c : Column, s.docGetField grantsCollection (grantKey p.pair) c.name =
      ((RowWrite.put p).kind c).live := by
    intro c
    rcases h.docGetField_cases hH hJ hK (grantKey p.pair) c with ⟨hnone, -⟩ | ⟨w, hw, hkey, hread⟩
    · exact absurd rfl (hnone _ hp.1)
    · have hstamp : w.hlc = p.hlc := (hp.2 w hw.1 hkey).antisymm (hw.2 _ hp.1 hkey.symm)
      rw [hread, hsole w hw.1 hkey hstamp]
  refine readGrant_eq_some_iff.2 ⟨p.pair.subject, p.pair.capability, ?_, ?_, ?_, rfl, rfl⟩
  · rw [cellBytes, hcell]
    rfl
  · rw [cellBytes, hcell]
    rfl
  · rw [cellBytes, hcell]
    rfl

end Reading

/-! ## Independent rows -/

def granted (s : KeyedStore H J) (puts : List Put) : KeyedStore H J := exec putGrant s puts

def LatestOfPair (puts : List Put) (p : Put) : Prop :=
  p ∈ puts ∧ ∀ q ∈ puts, q.pair = p.pair → q.hlc ≤ p.hlc

/-- The grants that are read are one for each pair that was ever granted, with the latest effect,
and a grant to one pair does not change what is read of another. -/
structure RowsIndependent (rows : List Put → List ExplicitGrant) (puts : List Put) : Prop where
  one_each : ((rows puts).map fun g => (g.subject, g.capability)).Nodup
  mem_iff : ∀ g, g ∈ rows puts ↔ ∃ p, LatestOfPair puts p ∧ p.explicit = g
  frame : ∀ before p, before ++ [p] <+: puts → ∀ g : ExplicitGrant,
    (g.subject, g.capability) ≠ (p.pair.subject.val, p.pair.capability.val) →
      (g ∈ rows (before ++ [p]) ↔ g ∈ rows before)

section Independence

variable {V : ViewCodec} {K : Set KeyedOp} {s : KeyedStore H J} {puts : List Put}

theorem rows_granted (hH : CollisionFree H) (hs : Took K s) (puts : List Put) :
    Rows K {w | ∃ p ∈ puts, w = .put p} (granted s puts) := by
  induction puts using List.reverseRecOn with
  | nil =>
    have hempty : {w | ∃ p ∈ ([] : List Put), w = RowWrite.put p} = ∅ := by simp
    rw [hempty]
    exact rows_of_took hs
  | append_singleton puts p ih =>
    have hinsert : {w | ∃ q ∈ puts ++ [p], w = RowWrite.put q} =
        insert (RowWrite.put p) {w | ∃ q ∈ puts, w = RowWrite.put q} := by
      ext w
      simp [or_and_right, exists_or, or_comm]
    rw [granted, exec_concat, hinsert, putGrant_eq_writeRow]
    exact ih.writeRow hH _

def LatestOfKey (puts : List Put) (p : Put) : Prop :=
  p ∈ puts ∧ ∀ q ∈ puts, grantKey q.pair = grantKey p.pair → q.hlc ≤ p.hlc

variable {p : Put}

theorem latest_put_iff : Latest {w | ∃ p ∈ puts, w = .put p} (.put p) ↔ LatestOfKey puts p := by
  constructor
  · rintro ⟨⟨p', hp', heq⟩, hle⟩
    obtain rfl := RowWrite.put.inj heq
    exact ⟨hp', fun q hq => hle (.put q) ⟨q, hq, rfl⟩⟩
  · rintro ⟨hp, hle⟩
    refine ⟨⟨p, hp, rfl⟩, ?_⟩
    rintro _ ⟨q, hq, rfl⟩
    exact hle q hq

theorem eq_of_hlc_eq (hstamps : (puts.map Put.hlc).Nodup) {q : Put} (hp : p ∈ puts) (hq : q ∈ puts)
    (h : p.hlc = q.hlc) : p = q :=
  List.inj_on_of_nodup_map hstamps hp hq h

theorem LatestOfKey.unique (hstamps : (puts.map Put.hlc).Nodup) {q : Put} (hp : LatestOfKey puts p)
    (hq : LatestOfKey puts q) (hkey : grantKey p.pair = grantKey q.pair) : p = q :=
  eq_of_hlc_eq hstamps hp.1 hq.1 ((hq.2 p hp.1 hkey).antisymm (hp.2 q hq.1 hkey.symm))

/-- **What a document reads as.** -/
theorem readGrant_granted_iff (hH : CollisionFree H) (hJ : J.Serde) (hK : WithView V K)
    (hs : Took K s) (hstamps : (puts.map Put.hlc).Nodup) {id : Str} {g : ExplicitGrant} :
    readGrant (granted s puts) id = some g ↔
      ∃ p, LatestOfKey puts p ∧ grantKey p.pair = id ∧ p.explicit = g := by
  have hrows := rows_granted hH hs puts
  constructor
  · intro h
    obtain ⟨p, q, r, ⟨hp, hpid, hsubject⟩, ⟨hq, hqid, hcapability⟩, hr, hrid, heffect⟩ :=
      hrows.readGrant_cases hH hJ hK h
    have hp := latest_put_iff.1 hp
    obtain rfl := hp.unique hstamps (latest_put_iff.1 hq) (hpid.trans hqid.symm)
    obtain rfl := hp.unique hstamps (latest_put_iff.1 hr) (hpid.trans hrid.symm)
    refine ⟨p, hp, hpid, ?_⟩
    rw [Put.explicit, ← hsubject, ← hcapability, ← heffect]
  · rintro ⟨p, hp, rfl, rfl⟩
    refine hrows.readGrant_of_latest hH hJ hK (latest_put_iff.2 hp) ?_
    rintro _ ⟨q, hq, rfl⟩ - hstamp
    rw [eq_of_hlc_eq hstamps hq hp.1 hstamp]

def KeysApart (puts : List Put) : Prop :=
  ∀ p ∈ puts, ∀ q ∈ puts, grantKey p.pair = grantKey q.pair → p.pair = q.pair

theorem KeysApart.latestOfKey_iff (h : KeysApart puts) :
    LatestOfKey puts p ↔ LatestOfPair puts p := by
  refine and_congr_right fun hp => forall₂_congr fun q hq => imp_congr_left ?_
  exact ⟨h q hq p hp, congrArg grantKey⟩

theorem Put.pair_eq_of_explicit {q : Put} (hsubject : p.explicit.subject = q.explicit.subject)
    (hcapability : p.explicit.capability = q.explicit.capability) : p.pair = q.pair :=
  GrantPair.ext (Str.ext hsubject) (Str.ext hcapability)

theorem KeysApart.sublist {before : List Put} (h : KeysApart puts) (hsub : before.Sublist puts) :
    KeysApart before :=
  fun p hp q hq => h p (hsub.subset hp) q (hsub.subset hq)

theorem exists_latestOfPair (hp : p ∈ puts) : ∃ q, LatestOfPair puts q ∧ q.pair = p.pair := by
  obtain ⟨q, hq, hmax⟩ := Finset.exists_max_image (puts.toFinset.filter fun q => q.pair = p.pair)
    Put.hlc ⟨p, by simpa using hp⟩
  simp only [Finset.mem_filter, List.mem_toFinset] at hq hmax
  exact ⟨q, ⟨hq.1, fun r hr hpair => hmax r ⟨hr, hpair.trans hq.2⟩⟩, hq.2⟩

section

variable (hH : CollisionFree H) (hJ : J.Serde) (hV : V.Keeps (.over_ grantsCollection))
  (hK : WithView V K) (hs : Took K s) (hstamps : (puts.map Put.hlc).Nodup)

include hH hJ hV hK hs hstamps

theorem mem_effectiveGrants_granted_iff {g : ExplicitGrant} :
    g ∈ effectiveGrants V (granted s puts) ↔ ∃ p, LatestOfKey puts p ∧ p.explicit = g := by
  rw [(rows_granted hH hs puts).mem_effectiveGrants hH hJ hV hK]
  constructor
  · rintro ⟨id, h⟩
    obtain ⟨p, hp, -, hg⟩ := (readGrant_granted_iff hH hJ hK hs hstamps).1 h
    exact ⟨p, hp, hg⟩
  · rintro ⟨p, hp, hg⟩
    exact ⟨_, (readGrant_granted_iff hH hJ hK hs hstamps).2 ⟨p, hp, rfl, hg⟩⟩

theorem one_each :
    ((effectiveGrants V (granted s puts)).map fun g => (g.subject, g.capability)).Nodup := by
  rw [(rows_granted hH hs puts).effectiveGrants_eq hH hJ hV hK, List.Nodup, List.pairwise_map,
    List.pairwise_filterMap]
  -- documents are listed once, and a pair is only ever read under its own key
  refine ((listed _).docIds_sorted grantsCollection).imp fun {id id'} hlt g hg g' hg' heq => ?_
  obtain ⟨p, hp, rfl, rfl⟩ := (readGrant_granted_iff hH hJ hK hs hstamps).1 hg
  obtain ⟨q, hq, rfl, rfl⟩ := (readGrant_granted_iff hH hJ hK hs hstamps).1 hg'
  obtain ⟨hsubject, hcapability⟩ := Prod.mk.inj heq
  exact hlt.ne (congrArg grantKey (Put.pair_eq_of_explicit hsubject hcapability))

theorem keysApart_of_rowsIndependent
    (h : RowsIndependent (fun puts => effectiveGrants V (granted s puts)) puts) :
    KeysApart puts := by
  -- the latest grant of a pair is read, so it is the latest under its key
  have hlatest : ∀ p ∈ puts, ∃ q, LatestOfKey puts q ∧ q.pair = p.pair := by
    intro p hp
    obtain ⟨q, hq, hpair⟩ := exists_latestOfPair hp
    obtain ⟨r, hr, hexplicit⟩ :=
      (mem_effectiveGrants_granted_iff hH hJ hV hK hs hstamps).1 ((h.mem_iff _).2 ⟨q, hq, rfl⟩)
    refine ⟨r, hr, hpair ▸ Put.pair_eq_of_explicit ?_ ?_⟩
    · rw [hexplicit]
    · rw [hexplicit]
  intro p hp q hq hkey
  obtain ⟨p', hp', hpair⟩ := hlatest p hp
  obtain ⟨q', hq', hpair'⟩ := hlatest q hq
  rw [← hpair, ← hpair', hp'.unique hstamps hq' (by rw [hpair, hpair', hkey])]

theorem rowsIndependent_of_keysApart (hkeys : KeysApart puts) :
    RowsIndependent (fun puts => effectiveGrants V (granted s puts)) puts := by
  have hmem : ∀ before, before.Sublist puts → ∀ g,
      g ∈ effectiveGrants V (granted s before) ↔
        ∃ p, LatestOfPair before p ∧ p.explicit = g := by
    intro before hsub g
    rw [mem_effectiveGrants_granted_iff hH hJ hV hK hs (hstamps.sublist (hsub.map _))]
    exact exists_congr fun p => and_congr_left' (hkeys.sublist hsub).latestOfKey_iff
  refine ⟨one_each hH hJ hV hK hs hstamps, hmem puts (List.Sublist.refl _), ?_⟩
  intro before p hbefore g hne
  have hsub : (before ++ [p]).Sublist puts := hbefore.sublist
  simp only [hmem _ hsub, hmem _ ((List.sublist_append_left _ _).trans hsub)]
  -- the new grant is for another pair than the one in question
  refine exists_congr fun q => and_congr_left fun hq => ?_
  have hpair : q.pair ≠ p.pair := by
    rintro heq
    exact hne (by rw [← hq, ← heq]; rfl)
  have hqp : q ≠ p := fun h => hpair (congrArg Put.pair h)
  constructor
  · rintro ⟨hmemq, hle⟩
    refine ⟨(List.mem_append.1 hmemq).resolve_right (by simpa using hqp), fun r hr => ?_⟩
    exact hle r (List.mem_append_left _ hr)
  · rintro ⟨hmemq, hle⟩
    refine ⟨List.mem_append_left _ hmemq, fun r hr hrpair => ?_⟩
    rcases List.mem_append.1 hr with hr | hr
    · exact hle r hr hrpair
    · obtain rfl := List.mem_singleton.1 hr
      exact absurd hrpair.symm hpair

end

/-- **When rows are independent.** -/
theorem rowsIndependent_iff (hH : CollisionFree H) (hJ : J.Serde)
    (hV : V.Keeps (.over_ grantsCollection)) (hK : WithView V K) (hs : Took K s) (puts : List Put)
    (hstamps : (puts.map Put.hlc).Nodup) :
    RowsIndependent (fun puts => effectiveGrants V (granted s puts)) puts ↔ KeysApart puts :=
  ⟨keysApart_of_rowsIndependent hH hJ hV hK hs hstamps,
    rowsIndependent_of_keysApart hH hJ hV hK hs hstamps⟩

end Independence

def stamp (n : UInt64) : Hlc := ⟨n, 0, ⟨"n", by decide⟩⟩

/-- A codec for the catalog of this store. -/
def grantsViewCodec : ViewCodec := soleViewCodec (.over_ grantsCollection)

noncomputable def viewOnly : KeyedStore (tableDigest []) serdeJson :=
  ensureEffectiveGrantsView grantsViewCodec new (stamp 0)

theorem took_viewOnly :
    Took {catalogOp grantsViewCodec effectiveGrantsView (.over_ grantsCollection) (stamp 0)}
      viewOnly :=
  took_ensureEffectiveGrantsView tableDigest_nil_collisionFree _ _

/-- Two subjects with a capability that holds a colon. -/
def twoSubjects : List Put :=
  [⟨⟨.lit "alice", ⟨"stream:append", by decide⟩, by decide⟩, .allow, stamp 1⟩,
    ⟨⟨.lit "bob", ⟨"stream:append", by decide⟩, by decide⟩, .deny, stamp 2⟩]

/-- Their rows are independent. -/
theorem twoSubjects_independent :
    (twoSubjects.map Put.hlc).Nodup ∧ KeysApart twoSubjects ∧
      RowsIndependent (fun puts => effectiveGrants grantsViewCodec (granted viewOnly puts))
        twoSubjects := by
  have hstamps : (twoSubjects.map Put.hlc).Nodup := by decide
  have hkeys : KeysApart twoSubjects := by
    rw [KeysApart]
    decide
  exact ⟨hstamps, hkeys, (rowsIndependent_iff tableDigest_nil_collisionFree serdeJson_serde
    (soleViewCodec_keeps _) (withView_catalogOp _ _) took_viewOnly twoSubjects hstamps).2 hkeys⟩

/-- The capability `c` is denied to `a:b`, then `b:c` is allowed to `a`. -/
def sharedKey : List Put :=
  [⟨⟨⟨"a:b", by decide⟩, .lit "c", by decide⟩, .deny, stamp 1⟩,
    ⟨⟨.lit "a", ⟨"b:c", by decide⟩, by decide⟩, .allow, stamp 2⟩]

/-- **A grant replaces a denial.** -/
theorem shared_key_replaces :
    (sharedKey.map Put.hlc).Nodup ∧
      (⟨"a:b", "c", .deny⟩ : ExplicitGrant) ∉
        effectiveGrants grantsViewCodec (granted viewOnly sharedKey) ∧
      ¬ RowsIndependent (fun puts => effectiveGrants grantsViewCodec (granted viewOnly puts))
        sharedKey := by
  have hstamps : (sharedKey.map Put.hlc).Nodup := by decide
  refine ⟨hstamps, fun hmem => ?_, fun h => ?_⟩
  · obtain ⟨p, ⟨hp, hle⟩, hexplicit⟩ := (mem_effectiveGrants_granted_iff
      tableDigest_nil_collisionFree serdeJson_serde (soleViewCodec_keeps _) (withView_catalogOp _ _)
      took_viewOnly hstamps).1 hmem
    rcases List.mem_pair.1 hp with rfl | rfl
    · exact absurd (hle _ (List.mem_cons_of_mem _ List.mem_cons_self) (by decide)) (by decide)
    · exact absurd hexplicit (by decide)
  · have hkeys := keysApart_of_rowsIndependent tableDigest_nil_collisionFree serdeJson_serde
      (soleViewCodec_keeps _) (withView_catalogOp _ _) took_viewOnly hstamps h
    rw [KeysApart] at hkeys
    exact absurd hkeys (by decide)

end Pillar.Rbac
