import Pillar.Lib.FileSystem
import Pillar.Lib.Hex
import Pillar.Wire.Visibility

/-!
# A store across reopening

A durable store keeps the current head of every owner in a directory, one file per owner, and reads
them back when it is opened again.

* `segment_store_run` — **all of it, over every run**.
-/

namespace Pillar.Wire

open Std Lib.Compare Lib.Runs Lib.TreeMap Lib.FileSystem Lib.Hex

variable {H : Bytes → Bytes} {E : Ed25519}

/-! ## Heads on disk -/

namespace HeadStore

def path (owner : Bytes) : String := String.ofList (hex owner)

/-- The name that a head is first written under. -/
def tmpPath (owner : Bytes) : String := path owner ++ ".tmp"

def put (record : HeadRecord) (kind : ℕ) : Prog (Except StoreError Unit) :=
  .write (tmpPath record.owner) record.toWire fun
    | false => .done (.error (.io kind))
    | true => .rename (tmpPath record.owner) (path record.owner) fun
      | false => .done (.error (.io kind))
      | true => .done (.ok ())

def isTmp (name : String) : Bool := ".tmp".toList.isSuffixOf name.toList && name ≠ ".tmp"

/-- The heads of a listing of the directory. -/
def list (entries : List (String × Bytes)) : List HeadRecord :=
  entries.filterMap fun e => if isTmp e.1 then none else HeadRecord.fromWire e.2

theorem path_injective : Function.Injective path := by
  intro a b h
  exact hex_injective (String.ofList_injective h)

theorem isTmp_path (owner : Bytes) : isTmp (path owner) = false := by
  have hdot : '.' ∉ (path owner).toList := by
    rw [path, String.toList_ofList]
    exact dot_not_mem_hex owner
  rw [isTmp, Bool.and_eq_false_iff]
  left
  rw [Bool.eq_false_iff]
  intro h
  exact hdot ((List.isSuffixOf_iff_suffix.1 h).subset (by decide))

theorem isTmp_tmpPath {owner : Bytes} (h : owner ≠ []) : isTmp (tmpPath owner) = true := by
  have hne : path owner ≠ "" := by
    intro hempty
    have hhex : hex owner = hex [] := String.ofList_injective hempty
    exact h (hex_injective hhex)
  rw [isTmp, Bool.and_eq_true]
  refine ⟨List.isSuffixOf_iff_suffix.2 ⟨(path owner).toList, ?_⟩, ?_⟩
  · rw [tmpPath, String.toList_append]
  · rw [decide_eq_true_eq]
    intro htmp
    have hlist := congrArg String.toList htmp
    rw [tmpPath, String.toList_append, List.append_left_eq_self, ← String.toList_empty] at hlist
    exact hne (String.toList_injective hlist)

/-- **Writing a head succeeds and replaces the file of its owner, or fails and leaves the files as
they were.** -/
theorem attempt_put {record : HeadRecord} (howner : record.owner ≠ []) (kind : ℕ)
    (faults : Prog.Faults) (dir : Dir) :
    let out := (put record kind).attempt faults 0 dir
    (out.2.1 = .ok () ∧ ∀ name, isTmp name = false →
        out.1[name]? = if path record.owner = name then some record.toWire else dir[name]?) ∨
      (out.2.1 = .error (.io kind) ∧ ∀ name, isTmp name = false → out.1[name]? = dir[name]?) := by
  have htmp : ∀ name, isTmp name = false → tmpPath record.owner ≠ name := by
    rintro name hname rfl
    rw [isTmp_tmpPath howner] at hname
    cases hname
  have hother : ∀ (w : Bytes) name, isTmp name = false →
      (dir.insert (tmpPath record.owner) w)[name]? = dir[name]? := by
    intro w name hname
    simp [ExtTreeMap.getElem?_insert, htmp name hname]
  simp only [put, Prog.attempt]
  cases faults 0 with
  | some left =>
    right
    cases left with
    | none => exact ⟨rfl, fun _ _ => rfl⟩
    | some bytes => exact ⟨rfl, hother bytes⟩
  | none =>
    simp only [moveFile_insert, Nat.zero_add]
    cases faults 1 with
    | some left =>
      right
      exact ⟨rfl, hother record.toWire⟩
    | none =>
      left
      refine ⟨rfl, fun name hname => ?_⟩
      simp [ExtTreeMap.getElem?_insert, ExtTreeMap.getElem?_erase, htmp name hname]

theorem mem_list {entries : List (String × Bytes)} {r : HeadRecord} :
    r ∈ list entries ↔
      ∃ name w, (name, w) ∈ entries ∧ isTmp name = false ∧ HeadRecord.fromWire w = some r := by
  simp only [list, List.mem_filterMap, Prod.exists]
  refine exists_congr fun name => exists_congr fun w => and_congr_right fun _ => ?_
  cases hname : isTmp name <;> simp

end HeadStore

theorem HeadRecord.fits_of_verify {r : HeadRecord} (hverify : r.verify E = .ok ())
    (htarget : r.target.bytes.length < 256 ^ 4) : r.Fits := by
  have h := verifySigned_eq_ok_iff.1 hverify
  rw [Pillar.verify] at h
  split_ifs at h with hlength
  obtain ⟨howner, hsignature, -⟩ := hlength
  exact ⟨by omega, htarget, by omega⟩

theorem HeadRecord.owner_ne_nil_of_verify {r : HeadRecord} (hverify : r.verify E = .ok ()) :
    r.owner ≠ [] := by
  have h := verifySigned_eq_ok_iff.1 hverify
  rw [Pillar.verify] at h
  split_ifs at h with hlength
  intro hnil
  simp [hnil] at hlength

/-! ## Stores and calls -/

structure StoreOnDisk where
  store : ContentStore
  headDir : Option Dir

/-- An order in which a directory is listed. -/
abbrev ListingOrder :=
  {f : List (String × Bytes) → List (String × Bytes) // ∀ entries, (f entries).Perm entries}

/-- A call, with what the block store, the marker files and the disk answer in it. -/
inductive Request where
  | put (backend : Backend) (segment : SignedSegment)
  | get (backend : Backend) (cid : Cid) (fetched : Option SignedSegment)
  | pin (backend : Backend) (cid : Cid)
  | provide (backend : Backend) (cid : Cid)
  | publishHead (faults : Prog.Faults) (kind : ℕ) (record : HeadRecord)
  /-- The store is opened again: what the backend lists, whether the heads can be read, and in
  which order. -/
  | reopen (pinned : Except StoreError (List (Cid × Except StoreError (Option Bytes))))
      (provided : Except StoreError (List Cid)) (unreadable : Option StoreError)
      (order : ListingOrder)

namespace StoreOnDisk

/-- An empty store, on an empty directory or in memory. -/
def fresh (durable : Bool) : StoreOnDisk := ⟨.new, if durable then some ∅ else none⟩

/-- A backend that is asked to write a head. -/
def writing (answer : Except StoreError Unit) : Backend :=
  ⟨.ok (), .ok none, .ok (), .ok (), answer⟩

def publishHead (E : Ed25519) (n : StoreOnDisk) (faults : Prog.Faults) (kind : ℕ)
    (record : HeadRecord) : StoreOnDisk × Except StoreError Unit :=
  match n.store.publishHead E none record, n.headDir with
  | (store, result), none => ({ n with store := store }, result)
  | (_, .error err), some _ => (n, .error err)
  | (_, .ok ()), some dir =>
    let written := (HeadStore.put record kind).attempt faults 0 dir
    let published := n.store.publishHead E (some (writing written.2.1)) record
    (⟨published.1, some written.1⟩, published.2)

/-- Drop the store and open it again. -/
def reopen (H : Bytes → Bytes) (E : Ed25519) (n : StoreOnDisk)
    (pinned : Except StoreError (List (Cid × Except StoreError (Option Bytes))))
    (provided : Except StoreError (List Cid)) (unreadable : Option StoreError)
    (order : ListingOrder) : StoreOnDisk × Except StoreError Unit :=
  match n.headDir with
  | none => (n, .ok ())
  | some dir =>
    match ContentStore.withBackend H E ⟨pinned, provided,
        unreadable.elim (.ok (HeadStore.list (order.1 dir.toList))) .error⟩ with
    | .error err => (n, .error err)
    | .ok store => (⟨store, some dir⟩, .ok ())

def call (H : Bytes → Bytes) (E : Ed25519) (n : StoreOnDisk) :
    Request → StoreOnDisk × Except StoreError Unit
  | .put backend segment =>
    let r := n.store.put H E (n.headDir.map fun _ => backend) segment
    ({ n with store := r.1 }, r.2.map fun _ => ())
  | .get backend cid fetched =>
    let r := n.store.get H E (n.headDir.map fun _ => backend) cid fetched
    ({ n with store := r.1 }, r.2.map fun _ => ())
  | .pin backend cid =>
    let r := n.store.pin (n.headDir.map fun _ => backend) cid
    ({ n with store := r.1 }, r.2)
  | .provide backend cid =>
    let r := n.store.provide (n.headDir.map fun _ => backend) cid
    ({ n with store := r.1 }, r.2)
  | .publishHead faults kind record => n.publishHead E faults kind record
  | .reopen pinned provided unreadable order => n.reopen H E pinned provided unreadable order

def step (H : Bytes → Bytes) (E : Ed25519) (n : StoreOnDisk) (c : Request) : StoreOnDisk :=
  (n.call H E c).1

def acceptedBy (E : Ed25519) (n : StoreOnDisk) : Request → Option HeadRecord
  | .publishHead faults kind record =>
    if (n.publishHead E faults kind record).2 = .ok () then some record else none
  | .put _ _ => none
  | .get _ _ _ => none
  | .pin _ _ => none
  | .provide _ _ => none
  | .reopen _ _ _ _ => none

/-- The heads that a run accepts, in order. -/
def accepted (H : Bytes → Bytes) (E : Ed25519) (n : StoreOnDisk) : List Request → List HeadRecord
  | [] => []
  | c :: calls => (n.acceptedBy E c).toList ++ (n.step H E c).accepted H E calls

def file (n : StoreOnDisk) (name : String) : Option Bytes := n.headDir.bind fun dir => dir[name]?

/-- Nothing has changed, temporary files apart. -/
structure Unchanged (n n' : StoreOnDisk) : Prop where
  store_eq : n'.store = n.store
  headDir_iff : n'.headDir = none ↔ n.headDir = none
  file_eq : ∀ name, HeadStore.isTmp name = false → n'.file name = n.file name

theorem Unchanged.refl (n : StoreOnDisk) : Unchanged n n := ⟨rfl, Iff.rfl, fun _ _ => rfl⟩

theorem publishHead_cases (n : StoreOnDisk) (faults : Prog.Faults) (kind : ℕ)
    (record : HeadRecord) :
    ((∃ err, (n.publishHead E faults kind record).2 = .error err) ∧
        Unchanged n (n.publishHead E faults kind record).1) ∨
      ((n.publishHead E faults kind record).2 = .ok () ∧ record.verify E = .ok () ∧
        (∀ current, n.store.heads[record.owner]? = some current → current.seq < record.seq) ∧
        (n.publishHead E faults kind record).1.store =
          { n.store with heads := n.store.heads.insert record.owner record } ∧
        ((n.publishHead E faults kind record).1.headDir = none ↔ n.headDir = none) ∧
        ∀ name, HeadStore.isTmp name = false → n.headDir ≠ none →
          (n.publishHead E faults kind record).1.file name =
            if HeadStore.path record.owner = name then some record.toWire else n.file name) := by
  obtain ⟨store, headDir⟩ := n
  rw [publishHead]
  rcases ContentStore.publishHead_cases (E := E) store none record with
    ⟨err, h⟩ | ⟨hverify, hadvances, -, h⟩
  · rw [h]
    cases headDir with
    | none | some dir => exact .inl ⟨⟨err, rfl⟩, .refl _⟩
  · rw [h]
    cases headDir with
    | none =>
      exact .inr ⟨rfl, hverify, hadvances, rfl, Iff.rfl, fun _ _ hnone => absurd rfl hnone⟩
    | some dir =>
      have howner := HeadRecord.owner_ne_nil_of_verify hverify
      rcases HeadStore.attempt_put howner kind faults dir with ⟨hanswer, hfiles⟩ | ⟨hanswer, hfiles⟩
      · -- the checks pass again, and the backend says yes
        have hpublished : store.publishHead E (some (writing (.ok ()))) record =
            ({ store with heads := store.heads.insert record.owner record }, .ok ()) :=
          ContentStore.publishHead_of_advances hverify hadvances
        simp only [hanswer, hpublished]
        refine .inr ⟨trivial, hverify, hadvances, trivial, by simp, ?_⟩
        exact fun name hname _ => hfiles name hname
      · have hfailed : store.publishHead E (some (writing (.error (.io kind)))) record =
            (store, .error (.io kind)) :=
          ContentStore.publishHead_of_advances hverify hadvances
        simp only [hanswer, hfailed]
        exact .inl ⟨⟨_, rfl⟩, ⟨rfl, by simp, hfiles⟩⟩

theorem reopen_cases (n : StoreOnDisk)
    (pinned : Except StoreError (List (Cid × Except StoreError (Option Bytes))))
    (provided : Except StoreError (List Cid)) (unreadable : Option StoreError)
    (order : ListingOrder) :
    (∃ result, n.reopen H E pinned provided unreadable order = (n, result)) ∨
      ∃ dir store, n.headDir = some dir ∧
        ContentStore.withBackend H E
          ⟨pinned, provided, .ok (HeadStore.list (order.1 dir.toList))⟩ = .ok store ∧
        n.reopen H E pinned provided unreadable order = (⟨store, some dir⟩, .ok ()) := by
  rw [reopen]
  cases hdir : n.headDir with
  | none => exact .inl ⟨_, rfl⟩
  | some dir =>
    cases unreadable with
    | some err =>
      -- the listings are asked for one after the other, so one of the errors is reported
      refine .inl ?_
      simp only [Option.elim_some]
      cases hopen : ContentStore.withBackend H E ⟨pinned, provided, .error err⟩ with
      | error err' => exact ⟨_, rfl⟩
      | ok store =>
        obtain ⟨_, _, _, _, _, _, hheads, _⟩ := ContentStore.withBackend_eq_ok hopen
        cases hheads
    | none =>
      simp only [Option.elim_none]
      cases hopen : ContentStore.withBackend H E
          ⟨pinned, provided, .ok (HeadStore.list (order.1 dir.toList))⟩ with
      | error err => exact .inl ⟨_, rfl⟩
      | ok store => exact .inr ⟨dir, store, rfl, hopen, rfl⟩

end StoreOnDisk

/-! ## The invariant -/

namespace ContentStore

/-- What is held is keyed by its own content id and verifies, what is pinned or advertised is
held, what is advertised is public, and the current heads verify. -/
structure Sound (H : Bytes → Bytes) (E : Ed25519) (store : ContentStore) : Prop where
  held : ∀ (cid : Cid) (seg : SignedSegment), store.held[cid]? = some seg →
    seg.cid H = cid ∧ seg.verify E = .ok ()
  pinned : ∀ cid ∈ store.pinned, cid ∈ store.held
  provided : ∀ cid ∈ store.dht, ∃ seg, store.held[cid]? = some seg ∧
    seg.visibility = .publicAnchor
  heads : ∀ (owner : Bytes) (r : HeadRecord), store.heads[owner]? = some r →
    r.owner = owner ∧ r.verify E = .ok ()

variable {store : ContentStore}

theorem sound_iff : Sound H E store ↔ (∀ cid ∈ store.pinned, cid ∈ store.held) ∧
    Checked (fun cid seg => seg.cid H = cid ∧ seg.verify E = .ok ())
      (fun owner r => r.owner = owner ∧ r.verify E = .ok ()) store :=
  ⟨fun h => ⟨h.pinned, h.held, h.provided, h.heads⟩,
    fun h => ⟨h.2.held, h.1, h.2.provided, h.2.heads⟩⟩

theorem Sound.new : Sound H E new := sound_iff.2 ⟨by simp [ContentStore.new], .new⟩

theorem Sound.hold (h : Sound H E store) {cid : Cid} {seg : SignedSegment}
    (hfree : cid ∉ store.dht) (hcid : seg.cid H = cid) (hverify : seg.verify E = .ok ()) :
    Sound H E { store with held := store.held.insert cid seg } :=
  sound_iff.2 ⟨fun cid' hcid' => ExtTreeMap.mem_insert.2 (.inr (h.pinned cid' hcid')),
    (sound_iff.1 h).2.hold hfree ⟨hcid, hverify⟩⟩

theorem Sound.mark (h : Sound H E store) {cid : Cid} (hcid : cid ∈ store.held) :
    Sound H E { store with pinned := store.pinned.insert cid } where
  held := h.held
  pinned := by
    intro cid' hcid'
    rcases ExtTreeSet.mem_insert.1 hcid' with heq | hcid'
    · rwa [← LawfulEqCmp.eq_of_compare heq]
    · exact h.pinned cid' hcid'
  provided := h.provided
  heads := h.heads

theorem Sound.advertise (h : Sound H E store) {cid : Cid} {seg : SignedSegment}
    (hheld : store.held[cid]? = some seg) (hpublic : seg.visibility = .publicAnchor) :
    Sound H E { store with dht := store.dht.insert cid } :=
  sound_iff.2 ⟨h.pinned, (sound_iff.1 h).2.advertise hheld hpublic⟩

theorem Sound.accept (h : Sound H E store) {r : HeadRecord} (hverify : r.verify E = .ok ()) :
    Sound H E { store with heads := store.heads.insert r.owner r } :=
  sound_iff.2 ⟨h.pinned, (sound_iff.1 h).2.accept ⟨rfl, hverify⟩⟩

/-- **A store opened on any listing satisfies the invariant.** -/
theorem Sound.withBackend {l : Listing} (h : withBackend H E l = .ok store) : Sound H E store := by
  refine inv_withBackend .new ?_ (fun s cid seg hheld hpublic hs => hs.advertise hheld hpublic)
    (fun _ _ s r _ hverify hs => hs.accept hverify) h
  intro _ _ s entry _ w seg _ _ hverify hcid hs
  have hfree : entry.1 ∉ s.dht := by simp [hs.1]
  have hmem : entry.1 ∈ s.held.insert entry.1 seg := by simp
  exact (hs.2.hold hfree hcid hverify).mark hmem

theorem heads_reloadProvided (cids : List Cid) (store : ContentStore) :
    (cids.foldl ContentStore.reloadProvided store).heads = store.heads := by
  induction cids generalizing store with
  | nil => rfl
  | cons cid cids ih =>
    rw [List.foldl_cons, ih, ContentStore.reloadProvided]
    split_ifs <;> rfl

theorem heads_reloadHead (heads : List HeadRecord) (store : ContentStore) :
    (heads.foldl (ContentStore.reloadHead E) store).heads =
      ((heads.filter fun r => r.verify E = .ok ()).map fun r => (r.owner, r)).foldl
        (fun m e => m.insert e.1 e.2) store.heads := by
  induction heads generalizing store with
  | nil => rfl
  | cons r heads ih =>
    rw [List.foldl_cons, ih, ContentStore.reloadHead]
    split_ifs with hverify
    · simp [hverify]
    · simp [hverify]

theorem heads_withBackend {l : Listing} {heads : List HeadRecord} (hheads : l.heads = .ok heads)
    (h : withBackend H E l = .ok store) :
    store.heads = ((heads.filter fun r => r.verify E = .ok ()).map fun r => (r.owner, r)).foldl
      (fun m e => m.insert e.1 e.2) ∅ := by
  obtain ⟨pinned, provided, heads', reloaded, -, -, hheads', hblocks, rfl⟩ := withBackend_eq_ok h
  obtain rfl := Except.ok.inj (hheads.symm.trans hheads')
  have hnone : reloaded.heads = ∅ :=
    inv_reloadBlocks (I := fun s => s.heads = ∅) (fun _ _ _ _ _ _ _ _ _ hs => hs) rfl hblocks
  rw [heads_reloadHead, heads_reloadProvided, hnone]

end ContentStore

open ContentStore

namespace StoreOnDisk

variable {n : StoreOnDisk}

/-- The store is not opened again while a current head has a target whose length does not fit
the four bytes it is stored in. -/
def KeepsHeads (n : StoreOnDisk) : Request → Prop
  | .reopen _ _ _ _ => ∀ (owner : Bytes) (r : HeadRecord), n.store.heads[owner]? = some r →
      r.target.bytes.length < 256 ^ 4
  | .put _ _ => True
  | .get _ _ _ => True
  | .pin _ _ => True
  | .provide _ _ => True
  | .publishHead _ _ _ => True

/-- What a call does, of which `r` is the head that it brings in: nothing, one thing that passes
its checks, or the store is the one reloaded from the files. -/
inductive Effect (H : Bytes → Bytes) (E : Ed25519) (n : StoreOnDisk) (c : Request) :
    Option HeadRecord → StoreOnDisk → Prop
  | unchanged {n' : StoreOnDisk} (h : Unchanged n n') : Effect H E n c none n'
  | held {cid : Cid} {seg : SignedSegment} (hfree : n.store.held[cid]? = none)
      (hcid : seg.cid H = cid) (hverify : seg.verify E = .ok ()) :
      Effect H E n c none { n with store := { n.store with held := n.store.held.insert cid seg } }
  | pinned {cid : Cid} (hheld : cid ∈ n.store.held) :
      Effect H E n c none { n with store := { n.store with pinned := n.store.pinned.insert cid } }
  | provided {cid : Cid} {seg : SignedSegment} (hheld : n.store.held[cid]? = some seg)
      (hpublic : seg.visibility = .publicAnchor) :
      Effect H E n c none { n with store := { n.store with dht := n.store.dht.insert cid } }
  | accepted {r : HeadRecord} {n' : StoreOnDisk} (hverify : r.verify E = .ok ())
      (hadvances : ∀ current, n.store.heads[r.owner]? = some current → current.seq < r.seq)
      (hstore : n'.store = { n.store with heads := n.store.heads.insert r.owner r })
      (hdir : n'.headDir = none ↔ n.headDir = none)
      (hfile : ∀ name, HeadStore.isTmp name = false → n.headDir ≠ none → n'.file name =
        if HeadStore.path r.owner = name then some r.toWire else n.file name) :
      Effect H E n c (some r) n'
  | reopened {dir : Dir} {store : ContentStore} {order : ListingOrder}
      {pinned : Except StoreError (List (Cid × Except StoreError (Option Bytes)))}
      {provided : Except StoreError (List Cid)} (hdir : n.headDir = some dir)
      (hkeeps : KeepsHeads n c → ∀ (owner : Bytes) (r : HeadRecord),
        n.store.heads[owner]? = some r → r.target.bytes.length < 256 ^ 4)
      (hopen : ContentStore.withBackend H E
        ⟨pinned, provided, .ok (HeadStore.list (order.1 dir.toList))⟩ = .ok store) :
      Effect H E n c none ⟨store, some dir⟩

/-- **All that a call can do.** -/
theorem call_cases (n : StoreOnDisk) (c : Request) :
    ((∃ err, (n.call H E c).2 = .error err) → Unchanged n (n.call H E c).1) ∧
      Effect H E n c (n.acceptedBy E c) (n.call H E c).1 := by
  cases c with
  | put backend segment =>
    rw [call]
    rcases put_cases (H := H) (E := E) n.store (n.headDir.map fun _ => backend) segment with
      ⟨err', h⟩ | ⟨hverify, h⟩
    · rw [h]
      exact ⟨fun _ => .refl n, .unchanged (.refl n)⟩
    · rw [h]
      refine ⟨by rintro ⟨_, ⟨⟩⟩, ?_⟩
      cases hheld : n.store.held[segment.cid H]? with
      | none =>
        simp only [insertIfNew_of_none hheld]
        exact .held hheld rfl hverify
      | some seg =>
        simp only [insertIfNew_of_some hheld]
        exact .unchanged (.refl n)
  | get backend cid fetched =>
    rw [call]
    rcases get_cases (H := H) (E := E) n.store (n.headDir.map fun _ => backend) cid fetched with
      ⟨result, h⟩ | ⟨seg, -, hfree, hcid, hverify, h⟩
    · rw [h]
      exact ⟨fun _ => .refl n, .unchanged (.refl n)⟩
    · rw [h]
      exact ⟨by rintro ⟨_, ⟨⟩⟩, .held hfree hcid hverify⟩
  | pin backend cid =>
    rw [call]
    rcases pin_cases n.store (n.headDir.map fun _ => backend) cid with ⟨err', h⟩ | ⟨hheld, h⟩
    · rw [h]
      exact ⟨fun _ => .refl n, .unchanged (.refl n)⟩
    · rw [h]
      exact ⟨by rintro ⟨_, ⟨⟩⟩, .pinned hheld⟩
  | provide backend cid =>
    rw [call]
    rcases provide_cases n.store (n.headDir.map fun _ => backend) cid with
      ⟨err', h⟩ | ⟨seg, hheld, hpublic, h⟩
    · rw [h]
      exact ⟨fun _ => .refl n, .unchanged (.refl n)⟩
    · rw [h]
      exact ⟨by rintro ⟨_, ⟨⟩⟩, .provided hheld hpublic⟩
  | publishHead faults kind record =>
    rw [call, acceptedBy]
    rcases publishHead_cases (E := E) n faults kind record with
      ⟨⟨err, herr⟩, h⟩ | ⟨hok, hverify, hadvances, hstore, hdir, hfile⟩
    · rw [if_neg (by simp [herr])]
      exact ⟨fun _ => h, .unchanged h⟩
    · rw [if_pos hok, hok]
      exact ⟨by rintro ⟨_, ⟨⟩⟩, .accepted hverify hadvances hstore hdir hfile⟩
  | reopen pinned provided unreadable order =>
    rw [call]
    rcases reopen_cases (H := H) (E := E) n pinned provided unreadable order with
      ⟨result, h⟩ | ⟨dir, store, hdir, hopen, h⟩
    · rw [h]
      exact ⟨fun _ => .refl n, .unchanged (.refl n)⟩
    · rw [h]
      exact ⟨by rintro ⟨_, ⟨⟩⟩, .reopened hdir id hopen⟩

/-- **Every call keeps the invariant.** -/
theorem sound_step (h : Sound H E n.store) (c : Request) : Sound H E (n.step H E c).store := by
  have heffect := (call_cases (H := H) (E := E) n c).2
  rw [step]
  generalize (n.call H E c).1 = n' at heffect ⊢
  generalize n.acceptedBy E c = accepted at heffect
  cases heffect with
  | unchanged hsame => rwa [hsame.store_eq]
  | held hfree hcid hverify => exact h.hold ((sound_iff.1 h).2.not_mem_dht hfree) hcid hverify
  | pinned hheld => exact h.mark hheld
  | provided hheld hpublic => exact h.advertise hheld hpublic
  | accepted hverify _ hstore _ _ =>
    rw [hstore]
    exact h.accept hverify
  | reopened _ _ hopen => exact .withBackend hopen

/-! ## Heads advance -/

/-- The files are the current heads, temporary ones apart. -/
def Filed (n : StoreOnDisk) : Prop :=
  n.headDir ≠ none → ∀ name w, HeadStore.isTmp name = false →
    (n.file name = some w ↔ ∃ r : HeadRecord, n.store.heads[r.owner]? = some r ∧
      HeadStore.path r.owner = name ∧ r.toWire = w)

/-- The heads and their files are as before. -/
structure SameHeads (n n' : StoreOnDisk) : Prop where
  heads_eq : n'.store.heads = n.store.heads
  headDir_iff : n'.headDir = none ↔ n.headDir = none
  file_eq : ∀ name, HeadStore.isTmp name = false → n'.file name = n.file name

theorem Filed.sameHeads {n' : StoreOnDisk} (h : Filed n) (hsame : SameHeads n n') : Filed n' := by
  intro hdir name w hname
  rw [hsame.file_eq name hname, hsame.heads_eq]
  exact h (fun hnone => hdir (hsame.headDir_iff.2 hnone)) name w hname

theorem Filed.accept {n' : StoreOnDisk} (h : Filed n) {record : HeadRecord}
    (hheads : n'.store.heads = n.store.heads.insert record.owner record)
    (hdir : n'.headDir = none ↔ n.headDir = none)
    (hfile : ∀ name, HeadStore.isTmp name = false → n.headDir ≠ none → n'.file name =
      if HeadStore.path record.owner = name then some record.toWire else n.file name) :
    Filed n' := by
  intro hdir' name w hname
  have hdurable : n.headDir ≠ none := fun hnone => hdir' (hdir.2 hnone)
  rw [hfile name hname hdurable, hheads]
  split_ifs with hpath
  · constructor
    · intro hw
      exact ⟨record, by simp, hpath, Option.some.inj hw⟩
    · rintro ⟨r, hr, hrpath, rfl⟩
      have howner := HeadStore.path_injective (hpath.trans hrpath.symm)
      rw [← howner, ExtTreeMap.getElem?_insert_self] at hr
      rw [Option.some.inj hr]
  · rw [h hdurable name w hname]
    refine exists_congr fun r => and_congr_left ?_
    rintro ⟨hrpath, -⟩
    have hne : record.owner ≠ r.owner := fun heq => hpath (heq ▸ hrpath)
    simp [ExtTreeMap.getElem?_insert, hne]

/-- **Opening a store again keeps its heads.** -/
theorem heads_reopen {dir : Dir} {store : ContentStore} (hsound : Sound H E n.store)
    (hfiled : Filed n) (hdir : n.headDir = some dir)
    (hfits : ∀ (owner : Bytes) (r : HeadRecord), n.store.heads[owner]? = some r →
      r.target.bytes.length < 256 ^ 4)
    {pinned : Except StoreError (List (Cid × Except StoreError (Option Bytes)))}
    {provided : Except StoreError (List Cid)} {order : ListingOrder}
    (hopen : withBackend H E ⟨pinned, provided, .ok (HeadStore.list (order.1 dir.toList))⟩ =
      .ok store) : store.heads = n.store.heads := by
  have hfile : ∀ name w, (name, w) ∈ order.1 dir.toList ↔ n.file name = some w := by
    intro name w
    rw [(order.2 dir.toList).mem_iff, ExtTreeMap.mem_toList_iff_getElem?_eq_some, file, hdir]
    rfl
  have hread : ∀ r : HeadRecord, r ∈ HeadStore.list (order.1 dir.toList) ↔
      n.store.heads[r.owner]? = some r := by
    intro r
    have hback : ∀ r' : HeadRecord, n.store.heads[r'.owner]? = some r' →
        HeadRecord.fromWire r'.toWire = some r' := by
      intro r' hr'
      have hverify := (hsound.heads _ _ hr').2
      exact HeadRecord.fromWire_eq_some_iff.2
        ⟨HeadRecord.fits_of_verify hverify (hfits _ _ hr'), [], by simp⟩
    rw [HeadStore.mem_list]
    constructor
    · rintro ⟨name, w, hmem, hname, hwire⟩
      obtain ⟨r', hr', -, rfl⟩ := (hfiled (by simp [hdir]) name w hname).1 ((hfile name w).1 hmem)
      rw [hback r' hr'] at hwire
      rwa [← Option.some.inj hwire]
    · intro hr
      refine ⟨HeadStore.path r.owner, r.toWire, ?_, HeadStore.isTmp_path _, hback r hr⟩
      rw [hfile]
      exact (hfiled (by simp [hdir]) _ _ (HeadStore.isTmp_path _)).2 ⟨r, hr, rfl, rfl⟩
  refine ExtTreeMap.ext_getElem? fun owner => Option.ext fun r => ?_
  have hentry : ∀ r : HeadRecord, (owner, r) ∈ ((HeadStore.list (order.1 dir.toList)).filter
      fun r => r.verify E = .ok ()).map (fun r => (r.owner, r)) ↔
      n.store.heads[owner]? = some r := by
    intro r
    simp only [List.mem_map, List.mem_filter, hread, decide_eq_true_eq, Prod.mk.injEq]
    constructor
    · rintro ⟨r', ⟨hr', -⟩, rfl, rfl⟩
      exact hr'
    · intro hr
      obtain ⟨rfl, hverify⟩ := hsound.heads _ _ hr
      exact ⟨r, ⟨hr, hverify⟩, rfl, rfl⟩
  rw [heads_withBackend rfl hopen, getElem?_foldl_insert_empty_eq_some_iff, hentry]
  intro r r' hr hr'
  rw [hentry] at hr hr'
  exact Option.some.inj (hr.symm.trans hr')

/-- **What a call does to the heads.** -/
theorem step_heads (hsound : Sound H E n.store) (hfiled : Filed n) {c : Request}
    (hc : KeepsHeads n c) :
    (∃ r, n.acceptedBy E c = some r ∧ Filed (n.step H E c) ∧
        (n.step H E c).store.heads = n.store.heads.insert r.owner r ∧
        ∀ current, n.store.heads[r.owner]? = some current → current.seq < r.seq) ∨
      n.acceptedBy E c = none ∧ SameHeads n (n.step H E c) := by
  have heffect := (call_cases (H := H) (E := E) n c).2
  rw [step]
  generalize (n.call H E c).1 = n' at heffect ⊢
  generalize n.acceptedBy E c = accepted at heffect ⊢
  have hstays : ∀ store : ContentStore, store.heads = n.store.heads →
      SameHeads n { n with store := store } := fun _ heq => ⟨heq, Iff.rfl, fun _ _ => rfl⟩
  cases heffect with
  | unchanged hsame =>
    exact .inr ⟨rfl, congrArg ContentStore.heads hsame.store_eq, hsame.headDir_iff, hsame.file_eq⟩
  | held _ _ _ | pinned _ | provided _ _ => exact .inr ⟨rfl, hstays _ rfl⟩
  | accepted _ hadvances hstore hdir hfile =>
    have hheads := congrArg ContentStore.heads hstore
    exact .inl ⟨_, rfl, hfiled.accept hheads hdir hfile, hheads, hadvances⟩
  | reopened hdir hkeeps hopen =>
    refine .inr ⟨rfl, heads_reopen hsound hfiled hdir (hkeeps hc) hopen, by simp [hdir], ?_⟩
    exact fun name _ => by simp [file, hdir]

/-- A later head of the same owner has a larger sequence number. -/
def Advances (r r' : HeadRecord) : Prop := r.owner = r'.owner → r.seq < r'.seq

/-- **The accepted heads advance.** -/
theorem accepted_advances {calls : List Request} (hsound : Sound H E n.store) (hfiled : Filed n)
    (hcalls : Along (step H E) KeepsHeads n calls) :
    (n.accepted H E calls).Pairwise Advances ∧
      ∀ r ∈ n.accepted H E calls, ∀ current, n.store.heads[r.owner]? = some current →
        current.seq < r.seq := by
  induction calls generalizing n with
  | nil => exact ⟨List.Pairwise.nil, by simp [accepted]⟩
  | cons c calls ih =>
    obtain ⟨hc, hcalls⟩ := along_cons.1 hcalls
    rcases step_heads hsound hfiled hc with
      ⟨r, haccepted, hfiled', hheads, hadvances⟩ | ⟨haccepted, hsame⟩
    · obtain ⟨hpairwise, hbeyond⟩ := ih (sound_step hsound c) hfiled' hcalls
      rw [accepted, haccepted, Option.toList_some, List.singleton_append, List.pairwise_cons,
        List.forall_mem_cons]
      refine ⟨⟨fun r' hr' howner => ?_, hpairwise⟩, hadvances, fun r' hr' current hcurrent => ?_⟩
      · exact hbeyond r' hr' r (by rw [hheads, howner, ExtTreeMap.getElem?_insert_self])
      · by_cases howner : r.owner = r'.owner
        · have hr : r.seq < r'.seq :=
            hbeyond r' hr' r (by rw [hheads, howner, ExtTreeMap.getElem?_insert_self])
          exact UInt64.lt_trans (hadvances current (howner ▸ hcurrent)) hr
        · refine hbeyond r' hr' current ?_
          simpa [hheads, ExtTreeMap.getElem?_insert, howner] using hcurrent
    · rw [accepted, haccepted, Option.toList_none, List.nil_append, ← hsame.heads_eq]
      exact ih (sound_step hsound c) (hfiled.sameHeads hsame) hcalls

theorem filed_fresh (durable : Bool) : Filed (fresh durable) := by
  intro _ name w _
  cases durable <;> simp [fresh, file, ContentStore.new]

end StoreOnDisk

open StoreOnDisk

/-- **A segment store over a whole run.** -/
theorem segment_store_run (H : Bytes → Bytes) (E : Ed25519) (durable : Bool)
    (calls : List Request) :
    Throughout (StoreOnDisk.step H E) (fun n => Sound H E n.store) (fresh durable) calls ∧
      (∀ p c, p ++ [c] <+: calls → ∀ err,
        ((exec (StoreOnDisk.step H E) (fresh durable) p).call H E c).2 = .error err →
        Unchanged (exec (StoreOnDisk.step H E) (fresh durable) p)
          (exec (StoreOnDisk.step H E) (fresh durable) (p ++ [c]))) ∧
      (Along (StoreOnDisk.step H E) KeepsHeads (fresh durable) calls →
        ((fresh durable).accepted H E calls).Pairwise Advances) := by
  refine ⟨fun p _ => ?_, fun p c _ err hfail => ?_, fun hcalls => ?_⟩
  · exact exec_inv (I := fun n : StoreOnDisk => Sound H E n.store) (fun n c hn => sound_step hn c)
      .new p
  · rw [exec_concat]
    exact (call_cases _ c).1 ⟨err, hfail⟩
  · exact (accepted_advances .new (filed_fresh durable) hcalls).1

/-! ## Two heads of one owner

The owner of the minutes publishes a second head, with the real ed25519 signature. -/

def nextSignature : Bytes :=
  beBytes 32 0x81438a1373a48bca379b3e76d3a3937f66d5a4c380703f9200c2a66e8656dbfe ++
  beBytes 32 0x4457a1dd96586c6de35e19e8b7d48397ecbf5e2720a1a004df4d608b7369a905

def nextHead : HeadRecord :=
  ⟨ownerKey, 2, ⟨0x12 :: 0x20 :: cellDigest⟩, 60, .publicAnchor, nextSignature⟩

def headsScheme : Ed25519 :=
  tableEd25519 [(ownerSecret, ownerKey, [(headMaterial, headSignature),
    (headSigningMaterial ownerKey 2 nextHead.target 60, nextSignature)])]

/-- A call that publishes a head, with nothing wrong on disk. -/
def publishing (record : HeadRecord) : Request := .publishHead (fun _ => none) 0 record

/-- The store is opened again, and nothing is pinned. -/
def reopening : Request := .reopen (.ok []) (.ok []) none ⟨id, fun _ => .refl _⟩

/-- The first head, then the second after the store was opened again. -/
def advancingCalls : List Request :=
  [publishing (minutesHead .publicAnchor), reopening, publishing nextHead]

/-- Both heads are accepted, and the second one advances. -/
theorem next_head_advances :
    (fresh true).accepted minutesDigest headsScheme advancingCalls =
        [minutesHead .publicAnchor, nextHead] ∧
      ((fresh true).accepted minutesDigest headsScheme advancingCalls).Pairwise Advances := by
  refine ⟨by decide +kernel, ?_⟩
  refine (segment_store_run minutesDigest headsScheme true advancingCalls).2.2 ?_
  refine along_cons.2 ⟨trivial, along_cons.2 ⟨?_, along_cons.2 ⟨trivial, along_nil⟩⟩⟩
  intro owner r hr
  have hheads : ((fresh true).step minutesDigest headsScheme
      (publishing (minutesHead .publicAnchor))).store.heads =
      (∅ : ExtTreeMap Bytes HeadRecord).insert ownerKey (minutesHead .publicAnchor) := by
    decide +kernel
  rw [hheads] at hr
  rcases eq_or_of_getElem?_insert hr with ⟨-, rfl⟩ | hr
  · decide
  · simp at hr

/-! ## A head that is too large -/

/-- The signature of a head whose target has 2³² zero bytes. -/
def largeSignature : Bytes :=
  beBytes 32 0x2c279fa0db14bc3f924bb5b0e6b24b39cb8da1a3b2edcb317c75c8d45255e110 ++
  beBytes 32 0x62a9662f14bcdc2fe44426f0c3a92bb8cd03bcc7ec0a29f017f0737cd4592c0c

/-- A head whose target is that many zero bytes. -/
def largeHead (size : ℕ) : HeadRecord :=
  ⟨ownerKey, 2, ⟨List.replicate size 0⟩, 60, .publicAnchor, largeSignature⟩

def largeScheme (size : ℕ) : Ed25519 :=
  tableEd25519 [(ownerSecret, ownerKey, [(headMaterial, headSignature),
    (headSigningMaterial ownerKey 2 (largeHead size).target 60, largeSignature)])]

theorem verify_largeHead (size : ℕ) : (largeHead size).verify (largeScheme size) = .ok () := by
  refine verifySigned_eq_ok_iff.2 (if_pos ⟨by rfl, by rfl, ?_⟩)
  simp [largeScheme, tableEd25519, largeHead]

theorem verify_minutesHead (size : ℕ) :
    (minutesHead .publicAnchor).verify (largeScheme size) = .ok () := by
  refine verifySigned_eq_ok_iff.2 (if_pos ⟨by rfl, by rfl, ?_⟩)
  simp [largeScheme, tableEd25519, minutesHead, headMaterial]

theorem fromWire_largeHead {size : ℕ} (hsize : size % 256 ^ 4 = 0) (hlong : 13 ≤ size) :
    HeadRecord.fromWire (largeHead size).toWire =
      some ⟨ownerKey, 2, ⟨[]⟩, 0, .publicAnchor, []⟩ := by
  have hzeros : List.replicate size (0 : UInt8) =
      List.replicate 13 0 ++ List.replicate (size - 13) 0 := by
    rw [List.replicate_append_replicate, Nat.add_sub_cancel' hlong]
  have hthirteen : List.replicate 13 (0 : UInt8) = beBytes 8 (UInt64.toNat 0) ++
      (Visibility.publicAnchor.toU8 :: beBytes 4 0) := by decide
  have hlength : beBytes 4 size = beBytes 4 0 := by
    rw [← beBytes_mod 4 4 size le_rfl, hsize]
  refine HeadRecord.fromWire_eq_some_iff.2 ⟨⟨by decide, by decide, by decide⟩, ?_⟩
  refine ⟨List.replicate (size - 13) 0 ++ (beBytes 8 (UInt64.toNat 60) ++
    (Visibility.publicAnchor.toU8 :: wirePutBytes largeSignature)), ?_⟩
  have htarget : wirePutBytes (List.replicate size 0) = beBytes 4 0 ++ (beBytes 8 (UInt64.toNat 0) ++
      (Visibility.publicAnchor.toU8 :: (beBytes 4 0 ++ List.replicate (size - 13) 0))) := by
    rw [wirePutBytes, List.length_replicate, hlength, hzeros, hthirteen]
    simp
  simp only [HeadRecord.toWire, largeHead, htarget]
  simp [wirePutBytes]

theorem publishHead_noFaults {n : StoreOnDisk} {dir : Dir} (hdir : n.headDir = some dir)
    {record : HeadRecord} (hverify : record.verify E = .ok ())
    (hadvances : ∀ current, n.store.heads[record.owner]? = some current →
      current.seq < record.seq) :
    n.publishHead E (fun _ => none) 0 record =
      (⟨{ n.store with heads := n.store.heads.insert record.owner record },
        some (((dir.insert (HeadStore.tmpPath record.owner) record.toWire).erase
          (HeadStore.tmpPath record.owner)).insert (HeadStore.path record.owner) record.toWire)⟩,
        .ok ()) := by
  have hchecked : n.store.publishHead E none record =
      ({ n.store with heads := n.store.heads.insert record.owner record }, .ok ()) :=
    publishHead_of_advances hverify hadvances
  have hwritten : n.store.publishHead E (some (writing (.ok ()))) record =
      ({ n.store with heads := n.store.heads.insert record.owner record }, .ok ()) :=
    publishHead_of_advances hverify hadvances
  rw [StoreOnDisk.publishHead, hchecked, hdir]
  simp [HeadStore.put, Prog.attempt, hwritten]

/-- **The store forgets a large head.** -/
theorem accepted_after_large (H : Bytes → Bytes) {size : ℕ} (hsize : size % 256 ^ 4 = 0)
    (hlong : 13 ≤ size) :
    (fresh true).accepted H (largeScheme size)
        [publishing (largeHead size), reopening, publishing (minutesHead .publicAnchor)] =
      [largeHead size, minutesHead .publicAnchor] := by
  have hempty : ((∅ : Dir).insert (HeadStore.tmpPath ownerKey) (largeHead size).toWire).erase
      (HeadStore.tmpPath ownerKey) = ∅ := by
    refine ExtTreeMap.ext_getElem? fun name => ?_
    rw [ExtTreeMap.getElem?_erase, ExtTreeMap.getElem?_insert]
    split_ifs <;> rfl
  have hfirst := publishHead_noFaults (n := fresh true) rfl (verify_largeHead size)
    (by simp [fresh, ContentStore.new])
  obtain ⟨dir, hdir⟩ : ∃ dir : Dir, dir = (∅ : Dir).insert (HeadStore.path ownerKey)
    (largeHead size).toWire := ⟨_, rfl⟩
  obtain ⟨heads, hheads⟩ : ∃ heads : ExtTreeMap Bytes HeadRecord,
    heads = (∅ : ExtTreeMap Bytes HeadRecord).insert ownerKey (largeHead size) := ⟨_, rfl⟩
  have hfirst : (fresh true).publishHead (largeScheme size) (fun _ => none) 0 (largeHead size) =
      (⟨{ ContentStore.new with heads := heads }, some dir⟩, .ok ()) := by
    rw [hfirst, hdir, hheads, ← hempty]
    rfl
  have hread : HeadStore.list dir.toList = [⟨ownerKey, 2, ⟨[]⟩, 0, .publicAnchor, []⟩] := by
    have hfiles : dir.toList = [(HeadStore.path ownerKey, (largeHead size).toWire)] := by
      rw [hdir]
      exact List.perm_singleton.1 (toList_insert_perm (by simp) _)
    rw [hfiles, HeadStore.list, List.filterMap_cons, HeadStore.isTmp_path]
    simp [fromWire_largeHead hsize hlong]
  have hreopen : StoreOnDisk.reopen H (largeScheme size)
      ⟨{ ContentStore.new with heads := heads }, some dir⟩ (.ok []) (.ok []) none
      ⟨id, fun _ => .refl _⟩ = (⟨.new, some dir⟩, .ok ()) := by
    have hopen : withBackend H (largeScheme size) ⟨.ok [], .ok [], .ok
        [⟨ownerKey, 2, ⟨[]⟩, 0, .publicAnchor, []⟩]⟩ = .ok .new := by
      -- the empty signature does not verify, so the record read back is skipped
      rfl
    simp [StoreOnDisk.reopen, hread, hopen]
  have hlast := publishHead_noFaults (n := ⟨.new, some dir⟩) rfl (verify_minutesHead size)
    (by simp [ContentStore.new])
  simp [accepted, acceptedBy, StoreOnDisk.step, call, publishing, reopening, hfirst, hreopen, hlast]

/-- A head with a target of `2³²` bytes and sequence number 2 verifies and is accepted; after the
store was opened again, the same owner's head with sequence number 1 is accepted. -/
theorem oversized_head_forgotten :
    (largeHead (256 ^ 4)).verify (largeScheme (256 ^ 4)) = .ok () ∧
      (fresh true).accepted minutesDigest (largeScheme (256 ^ 4))
          [publishing (largeHead (256 ^ 4)), reopening, publishing (minutesHead .publicAnchor)] =
        [largeHead (256 ^ 4), minutesHead .publicAnchor] ∧
      ¬ [largeHead (256 ^ 4), minutesHead .publicAnchor].Pairwise Advances := by
  refine ⟨verify_largeHead _, accepted_after_large _ (by norm_num) (by norm_num), fun h => ?_⟩
  have hlt := (List.pairwise_cons.1 h).1 _ List.mem_cons_self rfl
  exact absurd hlt (by decide)

end Pillar.Wire
