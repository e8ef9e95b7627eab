import Pillar.Lib.Runs
import Pillar.Lib.TreeMap
import Pillar.Wire.Segments

/-!
# The content store

`pillar-wire`'s `ContentStore`: the segments held by content id, the pinned and the advertised ones,
and the current head of every owner.

* `Effect`, `effect_step` — **all that a call can do**: nothing is held, advertised or accepted that
  does not pass its check.
-/

namespace Pillar.Wire

open Std Lib.TreeMap

variable {H : Bytes → Bytes} {E : Ed25519}

/-- What the backend answers to the requests of one call, none of which makes a request twice. -/
structure Backend where
  blockPut : Except StoreError Unit
  blockGet : Except StoreError (Option Bytes)
  pin : Except StoreError Unit
  provide : Except StoreError Unit
  putHead : Except StoreError Unit

def Backend.block (b : Backend) : Option SignedSegment :=
  b.blockGet.toOption.join.bind SignedSegment.fromWire

def ask (backend : Option Backend) (request : Backend → Except StoreError Unit) :
    Except StoreError Unit :=
  match backend with
  | none => .ok ()
  | some b => request b

/-- What a backend lists when a store is opened on it, with the block of every pinned id. -/
structure Listing where
  pinned : Except StoreError (List (Cid × Except StoreError (Option Bytes)))
  provided : Except StoreError (List Cid)
  heads : Except StoreError (List HeadRecord)

/-- A store of content objects. -/
structure ContentStore where
  held : ExtTreeMap Cid SignedSegment
  pinned : ExtTreeSet Cid
  dht : ExtTreeSet Cid
  heads : ExtTreeMap Bytes HeadRecord

namespace ContentStore

def new : ContentStore := ⟨∅, ∅, ∅, ∅⟩

/-! ## Opening -/

def reloadBlock (H : Bytes → Bytes) (E : Ed25519) (store : ContentStore)
    (entry : Cid × Except StoreError (Option Bytes)) : Except StoreError ContentStore :=
  entry.2.map fun block =>
    match block.bind SignedSegment.fromWire with
    | none => store
    | some seg =>
      if seg.verify E = .ok () ∧ seg.cid H = entry.1 then
        { store with held := store.held.insert entry.1 seg, pinned := store.pinned.insert entry.1 }
      else store

/-- Take an advertised id over, if its segment is held and public. -/
def reloadProvided (store : ContentStore) (cid : Cid) : ContentStore :=
  if store.held[cid]?.any fun seg => seg.visibility.mayReachDht then
    { store with dht := store.dht.insert cid }
  else store

def reloadHead (E : Ed25519) (store : ContentStore) (head : HeadRecord) : ContentStore :=
  if head.verify E = .ok () then { store with heads := store.heads.insert head.owner head }
  else store

def withBackend (H : Bytes → Bytes) (E : Ed25519) (l : Listing) :
    Except StoreError ContentStore := do
  let pinned ← l.pinned
  let provided ← l.provided
  let heads ← l.heads
  let store ← pinned.foldlM (reloadBlock H E) new
  return heads.foldl (reloadHead E) (provided.foldl reloadProvided store)

theorem reloadBlock_cases {store store' : ContentStore}
    {entry : Cid × Except StoreError (Option Bytes)}
    (h : reloadBlock H E store entry = .ok store') :
    store' = store ∨ ∃ w seg, entry.2 = .ok (some w) ∧ SignedSegment.fromWire w = some seg ∧
      seg.verify E = .ok () ∧ seg.cid H = entry.1 ∧ store' = { store with
        held := store.held.insert entry.1 seg, pinned := store.pinned.insert entry.1 } := by
  obtain ⟨cid, answer⟩ := entry
  cases answer with
  | error err => cases h
  | ok block =>
    obtain rfl := Except.ok.inj h
    cases block with
    | none => exact .inl rfl
    | some w =>
      cases hwire : SignedSegment.fromWire w with
      | none => exact .inl (by simp [hwire])
      | some seg =>
        by_cases hcheck : seg.verify E = .ok () ∧ seg.cid H = cid
        · exact .inr ⟨w, seg, rfl, hwire, hcheck.1, hcheck.2, by simp [hwire, hcheck]⟩
        · exact .inl (by simp [hwire, hcheck])

theorem withBackend_eq_ok {l : Listing} {store : ContentStore} (h : withBackend H E l = .ok store) :
    ∃ pinned provided heads reloaded, l.pinned = .ok pinned ∧ l.provided = .ok provided ∧
      l.heads = .ok heads ∧ pinned.foldlM (reloadBlock H E) new = .ok reloaded ∧
      store = heads.foldl (reloadHead E) (provided.foldl reloadProvided reloaded) := by
  obtain ⟨pinned, provided, heads⟩ := l
  cases pinned with
  | error err => cases h
  | ok pinned =>
    cases provided with
    | error err => cases h
    | ok provided =>
      cases heads with
      | error err => cases h
      | ok heads =>
        have hrun : (pinned.foldlM (reloadBlock H E) new).map (fun store =>
            heads.foldl (reloadHead E) (provided.foldl reloadProvided store)) = .ok store := h
        cases hblocks : pinned.foldlM (reloadBlock H E) new with
        | error err =>
          rw [hblocks] at hrun
          cases hrun
        | ok reloaded =>
          rw [hblocks] at hrun
          exact ⟨pinned, provided, heads, reloaded, rfl, rfl, rfl, hblocks,
            (Except.ok.inj hrun).symm⟩

/-! ## Operations -/

/-- A segment is kept if it verifies. -/
def put (H : Bytes → Bytes) (E : Ed25519) (store : ContentStore) (backend : Option Backend)
    (segment : SignedSegment) : ContentStore × Except StoreError Cid :=
  match segment.verify E with
  | .error err => (store, .error err)
  | .ok () =>
    match ask backend Backend.blockPut with
    | .error err => (store, .error err)
    | .ok () =>
      ({ store with held := store.held.insertIfNew (segment.cid H) segment },
        .ok (segment.cid H))

def checkFetched (H : Bytes → Bytes) (E : Ed25519) (cid : Cid) (seg : SignedSegment) :
    Except StoreError Unit :=
  if seg.cid H ≠ cid then .error .cidMismatch else seg.verify E

/-- What is held, or else what the backend or a peer has, once it is checked. -/
def get (H : Bytes → Bytes) (E : Ed25519) (store : ContentStore) (backend : Option Backend)
    (cid : Cid) (fetched : Option SignedSegment) :
    ContentStore × Except StoreError SignedSegment :=
  match store.held[cid]? with
  | some seg => (store, .ok seg)
  | none =>
    match backend.elim (.ok none) Backend.blockGet with
    | .error err => (store, .error err)
    | .ok (some w) =>
      match SignedSegment.fromWire w with
      | none => (store, .error .cidMismatch)
      | some seg =>
        match checkFetched H E cid seg with
        | .error err => (store, .error err)
        | .ok () => ({ store with held := store.held.insert cid seg }, .ok seg)
    | .ok none =>
      match fetched with
      | none => (store, .error .notFound)
      | some seg =>
        match checkFetched H E cid seg with
        | .error err => (store, .error err)
        | .ok () =>
          match ask backend Backend.blockPut with
          | .error err => (store, .error err)
          | .ok () => ({ store with held := store.held.insert cid seg }, .ok seg)

def pin (store : ContentStore) (backend : Option Backend) (cid : Cid) :
    ContentStore × Except StoreError Unit :=
  if store.held.contains cid = false then (store, .error .notFound)
  else
    match ask backend Backend.pin with
    | .error err => (store, .error err)
    | .ok () => ({ store with pinned := store.pinned.insert cid }, .ok ())

/-- Only what is public is announced. -/
def provide (store : ContentStore) (backend : Option Backend) (cid : Cid) :
    ContentStore × Except StoreError Unit :=
  match store.held[cid]? with
  | none => (store, .error .notFound)
  | some seg =>
    if seg.visibility.mayReachDht = false then (store, .error .notPublic)
    else
      match ask backend Backend.provide with
      | .error err => (store, .error err)
      | .ok () => ({ store with dht := store.dht.insert cid }, .ok ())

/-- A head replaces an older one of its owner. -/
def publishHead (E : Ed25519) (store : ContentStore) (backend : Option Backend)
    (record : HeadRecord) : ContentStore × Except StoreError Unit :=
  match record.verify E with
  | .error err => (store, .error err)
  | .ok () =>
    if store.heads[record.owner]?.any fun current => record.seq ≤ current.seq then
      (store, .error .staleHead)
    else
      match ask backend Backend.putHead with
      | .error err => (store, .error err)
      | .ok () => ({ store with heads := store.heads.insert record.owner record }, .ok ())

/-! ## What an operation does

Each operation fails and leaves the store alone, or does the one thing it is there for. -/

section

variable {store : ContentStore} {backend : Option Backend}

theorem put_cases (store : ContentStore) (backend : Option Backend) (segment : SignedSegment) :
    (∃ err, store.put H E backend segment = (store, .error err)) ∨
      segment.verify E = .ok () ∧ store.put H E backend segment =
        ({ store with held := store.held.insertIfNew (segment.cid H) segment },
          .ok (segment.cid H)) := by
  rw [put]
  split
  · exact .inl ⟨_, rfl⟩
  · rename_i hverify
    split
    · exact .inl ⟨_, rfl⟩
    · exact .inr ⟨hverify, rfl⟩

theorem checkFetched_eq_ok_iff {cid : Cid} {seg : SignedSegment} :
    checkFetched H E cid seg = .ok () ↔ seg.cid H = cid ∧ seg.verify E = .ok () := by
  rw [checkFetched]
  split_ifs with hcid
  · simp [hcid]
  · simp [not_not.1 hcid]

theorem get_cases (store : ContentStore) (backend : Option Backend) (cid : Cid)
    (fetched : Option SignedSegment) :
    (∃ result, store.get H E backend cid fetched = (store, result)) ∨
      ∃ seg, (backend.bind Backend.block = some seg ∨ fetched = some seg) ∧
        store.held[cid]? = none ∧ seg.cid H = cid ∧ seg.verify E = .ok () ∧
        store.get H E backend cid fetched =
          ({ store with held := store.held.insert cid seg }, .ok seg) := by
  rw [ContentStore.get.eq_def]
  split
  · exact .inl ⟨_, rfl⟩
  · rename_i hfree
    split
    · exact .inl ⟨_, rfl⟩
    · rename_i w hblock
      split
      · exact .inl ⟨_, rfl⟩
      · rename_i seg hwire
        split
        · exact .inl ⟨_, rfl⟩
        · rename_i hcheck
          obtain ⟨hcid, hverify⟩ := checkFetched_eq_ok_iff.1 hcheck
          refine .inr ⟨seg, Or.inl ?_, hfree, hcid, hverify, rfl⟩
          cases backend with
          | none => cases hblock
          | some b =>
            have hget : b.blockGet = .ok (some w) := hblock
            rw [Option.bind_some, Backend.block, hget]
            exact hwire
    · split
      · exact .inl ⟨_, rfl⟩
      · split
        · exact .inl ⟨_, rfl⟩
        · rename_i hcheck
          obtain ⟨hcid, hverify⟩ := checkFetched_eq_ok_iff.1 hcheck
          split
          · exact .inl ⟨_, rfl⟩
          · exact .inr ⟨_, Or.inr rfl, hfree, hcid, hverify, rfl⟩

theorem pin_cases (store : ContentStore) (backend : Option Backend) (cid : Cid) :
    (∃ err, store.pin backend cid = (store, .error err)) ∨
      cid ∈ store.held ∧ store.pin backend cid =
        ({ store with pinned := store.pinned.insert cid }, .ok ()) := by
  rw [pin]
  split_ifs with hheld
  · exact .inl ⟨_, rfl⟩
  · have hmem : cid ∈ store.held := by
      rw [ExtTreeMap.mem_iff_contains]
      simpa using hheld
    split
    · exact .inl ⟨_, rfl⟩
    · exact .inr ⟨hmem, rfl⟩

theorem provide_cases (store : ContentStore) (backend : Option Backend) (cid : Cid) :
    (∃ err, store.provide backend cid = (store, .error err)) ∨
      ∃ seg, store.held[cid]? = some seg ∧ seg.visibility = .publicAnchor ∧
        store.provide backend cid = ({ store with dht := store.dht.insert cid }, .ok ()) := by
  rw [provide]
  split
  · exact .inl ⟨_, rfl⟩
  · rename_i hheld
    split_ifs with hpublic
    · exact .inl ⟨_, rfl⟩
    · split
      · exact .inl ⟨_, rfl⟩
      · exact .inr ⟨_, hheld, Visibility.mayReachDht_iff.1 (by simpa using hpublic), rfl⟩

theorem publishHead_of_advances {record : HeadRecord} (hverify : record.verify E = .ok ())
    (hadvances : ∀ current, store.heads[record.owner]? = some current →
      current.seq < record.seq) :
    store.publishHead E backend record =
      match ask backend Backend.putHead with
      | .error err => (store, .error err)
      | .ok () => ({ store with heads := store.heads.insert record.owner record }, .ok ()) := by
  have hfresh : ¬ (store.heads[record.owner]?.any fun current => record.seq ≤ current.seq) := by
    intro hstale
    obtain ⟨current, hcurrent, hle⟩ := (Option.any_eq_true _ _).1 hstale
    exact absurd (hadvances current hcurrent) (not_lt_of_ge (of_decide_eq_true hle))
  rw [publishHead, hverify]
  exact if_neg hfresh

theorem publishHead_cases (store : ContentStore) (backend : Option Backend) (record : HeadRecord) :
    (∃ err, store.publishHead E backend record = (store, .error err)) ∨
      record.verify E = .ok () ∧
        (∀ current, store.heads[record.owner]? = some current → current.seq < record.seq) ∧
        ask backend Backend.putHead = .ok () ∧ store.publishHead E backend record =
          ({ store with heads := store.heads.insert record.owner record }, .ok ()) := by
  rw [publishHead]
  split
  · exact .inl ⟨_, rfl⟩
  · rename_i hverify
    split_ifs with hstale
    · exact .inl ⟨_, rfl⟩
    · split
      · exact .inl ⟨_, rfl⟩
      · rename_i hask
        refine .inr ⟨hverify, fun current hcurrent => ?_, hask, rfl⟩
        rw [hcurrent] at hstale
        simpa using hstale

end

/-! ## Calls -/

/-- A call, with what the backend and the peers answer in it. -/
inductive Call where
  | put (backend : Option Backend) (segment : SignedSegment)
  | get (backend : Option Backend) (cid : Cid) (fetched : Option SignedSegment)
  | pin (backend : Option Backend) (cid : Cid)
  | provide (backend : Option Backend) (cid : Cid)
  | publishHead (backend : Option Backend) (record : HeadRecord)

def step (H : Bytes → Bytes) (E : Ed25519) (store : ContentStore) : Call → ContentStore
  | .put backend segment => (store.put H E backend segment).1
  | .get backend cid fetched => (store.get H E backend cid fetched).1
  | .pin backend cid => (store.pin backend cid).1
  | .provide backend cid => (store.provide backend cid).1
  | .publishHead backend record => (store.publishHead E backend record).1

def Call.OffersSegment : Call → SignedSegment → Prop
  | .put _ segment, seg => seg = segment
  | .get backend _ fetched, seg => backend.bind Backend.block = some seg ∨ fetched = some seg
  | .pin _ _, _ => False
  | .provide _ _, _ => False
  | .publishHead _ _, _ => False

def Call.OffersHead : Call → HeadRecord → Prop
  | .publishHead _ record, r => r = record
  | .put _ _, _ => False
  | .get _ _ _, _ => False
  | .pin _ _, _ => False
  | .provide _ _, _ => False

inductive Effect (E : Ed25519) (c : Call) (store : ContentStore) : ContentStore → Prop
  | same : Effect E c store store
  | held {cid : Cid} {seg : SignedSegment} (hoffer : c.OffersSegment seg)
      (hverify : seg.verify E = .ok ()) (hfree : store.held[cid]? = none) :
      Effect E c store { store with held := store.held.insert cid seg }
  | pinned (cid : Cid) : Effect E c store { store with pinned := store.pinned.insert cid }
  | provided {cid : Cid} {seg : SignedSegment} (hheld : store.held[cid]? = some seg)
      (hpublic : seg.visibility = .publicAnchor) :
      Effect E c store { store with dht := store.dht.insert cid }
  | accepted {record : HeadRecord} (hoffer : c.OffersHead record)
      (hverify : record.verify E = .ok ())
      (hadvances : ∀ current, store.heads[record.owner]? = some current →
        current.seq < record.seq) :
      Effect E c store { store with heads := store.heads.insert record.owner record }

section

variable {store : ContentStore} {backend : Option Backend}

theorem effect_put (segment : SignedSegment) :
    Effect E (.put backend segment) store (store.put H E backend segment).1 := by
  rcases put_cases (H := H) (E := E) store backend segment with
    ⟨err, h⟩ | ⟨hverify, h⟩
  · rw [h]
    exact .same
  · rw [h]
    cases hheld : store.held[segment.cid H]? with
    | none =>
      rw [insertIfNew_of_none hheld]
      exact .held rfl hverify hheld
    | some seg =>
      rw [insertIfNew_of_some hheld]
      exact .same

theorem effect_get (cid : Cid) (fetched : Option SignedSegment) :
    Effect E (.get backend cid fetched) store (store.get H E backend cid fetched).1 := by
  rcases get_cases (H := H) (E := E) store backend cid fetched with
    ⟨result, h⟩ | ⟨seg, hoffer, hfree, -, hverify, h⟩
  · rw [h]
    exact .same
  · rw [h]
    exact .held hoffer hverify hfree

theorem effect_pin (cid : Cid) :
    Effect E (.pin backend cid) store (store.pin backend cid).1 := by
  rcases pin_cases store backend cid with ⟨err, h⟩ | ⟨-, h⟩
  · rw [h]
    exact .same
  · rw [h]
    exact .pinned cid

theorem effect_provide (cid : Cid) :
    Effect E (.provide backend cid) store (store.provide backend cid).1 := by
  rcases provide_cases store backend cid with
    ⟨err, h⟩ | ⟨seg, hheld, hpublic, h⟩
  · rw [h]
    exact .same
  · rw [h]
    exact .provided hheld hpublic

theorem effect_publishHead (record : HeadRecord) :
    Effect E (.publishHead backend record) store (store.publishHead E backend record).1 := by
  rcases publishHead_cases (E := E) store backend record with
    ⟨err, h⟩ | ⟨hverify, hadvances, -, h⟩
  · rw [h]
    exact .same
  · rw [h]
    exact .accepted rfl hverify hadvances

/-- **All that a call can do.** -/
theorem effect_step (store : ContentStore) (c : Call) : Effect E c store (store.step H E c) := by
  cases c with
  | put backend segment => exact effect_put segment
  | get backend cid fetched => exact effect_get cid fetched
  | pin backend cid => exact effect_pin cid
  | provide backend cid => exact effect_provide cid
  | publishHead backend record => exact effect_publishHead record

end

/-! ## Invariants -/

/-- What is held and what is a current head have passed their checks, and what is advertised is
held and public. -/
structure Checked (S : Cid → SignedSegment → Prop) (R : Bytes → HeadRecord → Prop)
    (store : ContentStore) : Prop where
  held : ∀ (cid : Cid) (seg : SignedSegment), store.held[cid]? = some seg → S cid seg
  provided : ∀ cid ∈ store.dht, ∃ seg, store.held[cid]? = some seg ∧
    seg.visibility = .publicAnchor
  heads : ∀ (owner : Bytes) (r : HeadRecord), store.heads[owner]? = some r → R owner r

namespace Checked

variable {S : Cid → SignedSegment → Prop} {R : Bytes → HeadRecord → Prop} {store : ContentStore}
  {cid : Cid} {seg : SignedSegment}

theorem new : Checked S R new where
  held := by simp [ContentStore.new]
  provided := by simp [ContentStore.new]
  heads := by simp [ContentStore.new]

theorem not_mem_dht (h : Checked S R store) (hfree : store.held[cid]? = none) :
    cid ∉ store.dht := by
  intro hmem
  obtain ⟨seg, hheld, -⟩ := h.provided cid hmem
  rw [hfree] at hheld
  cases hheld

theorem hold (h : Checked S R store) (hfree : cid ∉ store.dht) (hseg : S cid seg) :
    Checked S R { store with held := store.held.insert cid seg } where
  held := by
    intro cid' seg' hheld
    rcases eq_or_of_getElem?_insert hheld with ⟨rfl, rfl⟩ | hheld
    · exact hseg
    · exact h.held cid' seg' hheld
  provided := by
    intro cid' hcid'
    obtain ⟨seg', hheld, hpublic⟩ := h.provided cid' hcid'
    have hne : cid ≠ cid' := fun heq => hfree (heq ▸ hcid')
    exact ⟨seg', by simp [ExtTreeMap.getElem?_insert, hne, hheld], hpublic⟩
  heads := h.heads

theorem advertise (h : Checked S R store) (hheld : store.held[cid]? = some seg)
    (hpublic : seg.visibility = .publicAnchor) :
    Checked S R { store with dht := store.dht.insert cid } where
  held := h.held
  provided := by
    intro cid' hcid'
    rcases ExtTreeSet.mem_insert.1 hcid' with heq | hcid'
    · obtain rfl := LawfulEqCmp.eq_of_compare heq
      exact ⟨seg, hheld, hpublic⟩
    · exact h.provided cid' hcid'
  heads := h.heads

theorem accept (h : Checked S R store) {r : HeadRecord} (hr : R r.owner r) :
    Checked S R { store with heads := store.heads.insert r.owner r } where
  held := h.held
  provided := h.provided
  heads := by
    intro owner r' hr'
    rcases eq_or_of_getElem?_insert hr' with ⟨rfl, rfl⟩ | hr'
    · exact hr
    · exact h.heads owner r' hr'

end Checked

section

variable {I : ContentStore → Prop} {store store' : ContentStore}

theorem inv_reloadBlocks {entries : List (Cid × Except StoreError (Option Bytes))}
    (hblock : ∀ (s : ContentStore), ∀ entry ∈ entries, ∀ w seg, entry.2 = .ok (some w) →
      SignedSegment.fromWire w = some seg → seg.verify E = .ok () → seg.cid H = entry.1 → I s →
        I { s with held := s.held.insert entry.1 seg, pinned := s.pinned.insert entry.1 })
    (h : I store) (hrun : entries.foldlM (reloadBlock H E) store = .ok store') : I store' := by
  induction entries generalizing store with
  | nil => exact Except.ok.inj hrun ▸ h
  | cons entry entries ih =>
    rw [List.foldlM_cons] at hrun
    cases hfirst : reloadBlock H E store entry with
    | error err =>
      rw [hfirst] at hrun
      cases hrun
    | ok store₁ =>
      rw [hfirst] at hrun
      refine ih (fun s entry hentry => hblock s entry (List.mem_cons_of_mem _ hentry)) ?_ hrun
      rcases reloadBlock_cases hfirst with rfl | ⟨w, seg, hanswer, hwire, hverify, hcid, rfl⟩
      · exact h
      · exact hblock store entry List.mem_cons_self w seg hanswer hwire hverify hcid h

/-- **What is kept by everything that is taken over holds of a store that was opened.** -/
theorem inv_withBackend {l : Listing} (hnew : I new)
    (hblock : ∀ pinned, l.pinned = .ok pinned → ∀ (s : ContentStore), ∀ entry ∈ pinned, ∀ w seg,
      entry.2 = .ok (some w) → SignedSegment.fromWire w = some seg → seg.verify E = .ok () →
        seg.cid H = entry.1 → s.dht = ∅ ∧ I s →
          I { s with held := s.held.insert entry.1 seg, pinned := s.pinned.insert entry.1 })
    (hprovided : ∀ (s : ContentStore) (cid : Cid) (seg : SignedSegment), s.held[cid]? = some seg →
      seg.visibility = .publicAnchor → I s → I { s with dht := s.dht.insert cid })
    (hhead : ∀ heads, l.heads = .ok heads → ∀ (s : ContentStore), ∀ r ∈ heads,
      r.verify E = .ok () → I s → I { s with heads := s.heads.insert r.owner r })
    (h : withBackend H E l = .ok store) : I store := by
  obtain ⟨pinned, provided, heads, reloaded, hpinned, -, hheads, hblocks, rfl⟩ :=
    withBackend_eq_ok h
  have hreloaded : reloaded.dht = ∅ ∧ I reloaded :=
    inv_reloadBlocks (I := fun s => s.dht = ∅ ∧ I s) (fun s entry hentry w seg hanswer hwire hverify
      hcid hs => ⟨hs.1, hblock pinned hpinned s entry hentry w seg hanswer hwire hverify hcid hs⟩)
      ⟨rfl, hnew⟩ hblocks
  refine List.foldlRecOn heads _ (List.foldlRecOn provided _ hreloaded.2 fun s hs cid _ => ?_)
    fun s hs r hr => ?_
  · rw [reloadProvided]
    split_ifs with hpublic
    · obtain ⟨seg, hheld, hreach⟩ := (Option.any_eq_true _ _).1 hpublic
      exact hprovided s cid seg hheld (Visibility.mayReachDht_iff.1 hreach) hs
    · exact hs
  · rw [reloadHead]
    split_ifs with hverify
    · exact hhead heads hheads s r hr hverify hs
    · exact hs

end

end ContentStore
end Pillar.Wire
