import Pillar.Wire.ContentStore

/-!
# What becomes public

The store advertises a segment, and takes a head for public, by the visibility that the object says
it has.

* `public_as_signed` — **where everything offered is labelled, only what was signed as public
  becomes public**, in every state of every run.
-/

namespace Pillar.Wire

open Std Lib.Compare Lib.Runs

variable {H : Bytes → Bytes} {E : Ed25519}

/-! ## Objects and their signatures -/

structure Envelope where
  signer : Bytes
  material : Bytes
  signature : Bytes
  visibility : Visibility

def SignedSegment.envelope (s : SignedSegment) : Envelope :=
  ⟨s.signer, segmentSigningMaterial s.bytes, s.signature, s.visibility⟩

def HeadRecord.envelope (r : HeadRecord) : Envelope :=
  ⟨r.owner, headSigningMaterial r.owner r.seq r.target r.ttlSecs, r.signature, r.visibility⟩

structure Signing where
  signer : Bytes
  material : Bytes
  visibility : Visibility
  deriving DecidableEq

structure Unforgeable (E : Ed25519) (L : Set Signing) : Prop where
  signed : ∀ pk material signature, verify E pk material signature = .ok () →
    ∃ e ∈ L, e.signer = pk ∧ e.material = material
  binds : ∀ pk material material' signature, verify E pk material signature = .ok () →
    verify E pk material' signature = .ok () → material = material'

namespace Envelope

def Verifies (E : Ed25519) (x : Envelope) : Prop :=
  verify E x.signer x.material x.signature = .ok ()

def SignedAs (L : Set Signing) (v : Visibility) (x : Envelope) : Prop :=
  ∃ e ∈ L, e.signer = x.signer ∧ e.material = x.material ∧ e.visibility = v

def Labelled (E : Ed25519) (L : Set Signing) (x : Envelope) : Prop :=
  x.Verifies E → ∀ e ∈ L, e.signer = x.signer → e.material = x.material →
    e.visibility = x.visibility

theorem Labelled.signedAs {L : Set Signing} {x : Envelope} (h : x.Labelled E L)
    (hL : Unforgeable E L) (hx : x.Verifies E) : x.SignedAs L x.visibility := by
  obtain ⟨e, he, hsigner, hmaterial⟩ := hL.signed _ _ _ hx
  exact ⟨e, he, hsigner, hmaterial, h hx e he hsigner hmaterial⟩

/-- **Labelled objects of one signature have one visibility.** -/
theorem Labelled.visibility_eq {L : Set Signing} {x y : Envelope} (hx : x.Labelled E L)
    (hy : y.Labelled E L) (hL : Unforgeable E L) (hxv : x.Verifies E) (hyv : y.Verifies E)
    (hsigner : x.signer = y.signer) (hsignature : x.signature = y.signature) :
    x.visibility = y.visibility := by
  have hyv' : verify E x.signer y.material x.signature = .ok () := by
    rw [hsigner, hsignature]
    exact hyv
  have hmaterial := hL.binds _ _ _ _ hxv hyv'
  obtain ⟨e, he, hesigner, hematerial, hvisibility⟩ := hx.signedAs hL hxv
  rw [← hvisibility]
  exact hy hyv e he (hesigner.trans hsigner) (hematerial.trans hmaterial)

end Envelope

theorem SignedSegment.verifies_envelope {s : SignedSegment} (h : s.verify E = .ok ()) :
    s.envelope.Verifies E :=
  verifySigned_eq_ok_iff.1 h

theorem HeadRecord.verifies_envelope {r : HeadRecord} (h : r.verify E = .ok ()) :
    r.envelope.Verifies E :=
  verifySigned_eq_ok_iff.1 h

/-! ## The store -/

structure ContentStore.Call.Labelled (E : Ed25519) (L : Set Signing) (c : ContentStore.Call) :
    Prop where
  segments : ∀ seg, c.OffersSegment seg → seg.envelope.Labelled E L
  heads : ∀ r, c.OffersHead r → r.envelope.Labelled E L

structure Listing.Labelled (E : Ed25519) (L : Set Signing) (l : Listing) : Prop where
  segments : ∀ pinned, l.pinned = .ok pinned → ∀ entry ∈ pinned, ∀ w seg,
    entry.2 = .ok (some w) → SignedSegment.fromWire w = some seg → seg.envelope.Labelled E L
  heads : ∀ heads, l.heads = .ok heads → ∀ r ∈ heads, r.envelope.Labelled E L

namespace ContentStore

/-- What is advertised, and what is a public head, was signed as public by its owner. -/
structure PublicAsSigned (L : Set Signing) (store : ContentStore) : Prop where
  provided : ∀ cid ∈ store.dht, ∃ seg, store.held[cid]? = some seg ∧
    seg.envelope.SignedAs L .publicAnchor
  heads : ∀ (owner : Bytes) (r : HeadRecord), store.heads[owner]? = some r →
    r.visibility = .publicAnchor → r.envelope.SignedAs L .publicAnchor

/-- The invariant: what is held or current verifies and is labelled, what is advertised is held
and public. -/
structure Guarded (E : Ed25519) (L : Set Signing) (store : ContentStore) : Prop where
  held : ∀ (cid : Cid) (seg : SignedSegment), store.held[cid]? = some seg →
    seg.envelope.Verifies E ∧ seg.envelope.Labelled E L
  provided : ∀ cid ∈ store.dht, ∃ seg, store.held[cid]? = some seg ∧
    seg.visibility = .publicAnchor
  heads : ∀ (owner : Bytes) (r : HeadRecord), store.heads[owner]? = some r →
    r.envelope.Verifies E ∧ r.envelope.Labelled E L

/-- A store that a run can start from: an empty one, or one reloaded from a labelled listing. -/
inductive Opened (H : Bytes → Bytes) (E : Ed25519) (L : Set Signing) : ContentStore → Prop
  | new : Opened H E L new
  | reloaded {l : Listing} {store : ContentStore} (hl : l.Labelled E L)
      (h : withBackend H E l = .ok store) : Opened H E L store

variable {L : Set Signing} {store : ContentStore}

theorem Guarded.publicAsSigned (h : Guarded E L store) (hL : Unforgeable E L) :
    PublicAsSigned L store where
  provided := by
    intro cid hcid
    obtain ⟨seg, hheld, hpublic⟩ := h.provided cid hcid
    obtain ⟨hverifies, hlabelled⟩ := h.held cid seg hheld
    exact ⟨seg, hheld, hpublic ▸ hlabelled.signedAs hL hverifies⟩
  heads := by
    intro owner r hr hpublic
    obtain ⟨hverifies, hlabelled⟩ := h.heads owner r hr
    exact hpublic ▸ hlabelled.signedAs hL hverifies

theorem guarded_iff : Guarded E L store ↔
    Checked (fun _ seg => seg.envelope.Verifies E ∧ seg.envelope.Labelled E L)
      (fun _ r => r.envelope.Verifies E ∧ r.envelope.Labelled E L) store :=
  ⟨fun h => ⟨h.held, h.provided, h.heads⟩, fun h => ⟨h.held, h.provided, h.heads⟩⟩

/-- **A call that offers what is labelled keeps the invariant.** -/
theorem Guarded.step (h : Guarded E L store) {c : Call} (hc : c.Labelled E L) :
    Guarded E L (store.step H E c) := by
  have heffect : Effect E c store (store.step H E c) := effect_step store c
  generalize store.step H E c = store' at heffect ⊢
  have hchecked := guarded_iff.1 h
  cases heffect with
  | same => exact h
  | held hoffer hverify hfree =>
    exact guarded_iff.2 (hchecked.hold (hchecked.not_mem_dht hfree)
      ⟨SignedSegment.verifies_envelope hverify, hc.segments _ hoffer⟩)
  | pinned cid => exact ⟨h.held, h.provided, h.heads⟩
  | provided hheld hpublic => exact guarded_iff.2 (hchecked.advertise hheld hpublic)
  | accepted hoffer hverify _ =>
    exact guarded_iff.2 (hchecked.accept
      ⟨HeadRecord.verifies_envelope hverify, hc.heads _ hoffer⟩)

/-- **A store opened on a labelled listing satisfies the invariant.** -/
theorem Guarded.withBackend {l : Listing} (hl : l.Labelled E L)
    (h : withBackend H E l = .ok store) : Guarded E L store := by
  refine guarded_iff.2 (inv_withBackend .new ?_ (fun s cid seg hheld hpublic hs =>
    hs.advertise hheld hpublic) ?_ h)
  · intro pinned hpinned s entry hentry w seg hanswer hwire hverify _ hs
    have hfree : entry.1 ∉ s.dht := by simp [hs.1]
    have hheld := hs.2.hold hfree ⟨SignedSegment.verifies_envelope hverify,
      hl.segments pinned hpinned entry hentry w seg hanswer hwire⟩
    exact ⟨hheld.held, hheld.provided, hheld.heads⟩
  · exact fun heads hheads s r hr hverify hs =>
      hs.accept ⟨HeadRecord.verifies_envelope hverify, hl.heads heads hheads r hr⟩

theorem Opened.guarded (h : Opened H E L store) : Guarded E L store := by
  cases h with
  | new => exact guarded_iff.2 .new
  | reloaded hl h => exact .withBackend hl h

end ContentStore

open ContentStore

/-- **Only what was signed as public becomes public, where labels are not changed.** -/
theorem public_as_signed {L : Set Signing} (hL : Unforgeable E L) :
    (∀ x y : Envelope, x.Labelled E L → y.Labelled E L → x.Verifies E → y.Verifies E →
      x.signer = y.signer → x.signature = y.signature → x.visibility = y.visibility) ∧
    ∀ store calls, Opened H E L store → (∀ c ∈ calls, c.Labelled E L) →
      Throughout (step H E) (PublicAsSigned L) store calls := by
  refine ⟨fun x y hx hy hxv hyv => hx.visibility_eq hy hL hxv hyv, ?_⟩
  intro store calls hopened hcalls p hp
  have hrun : Throughout (step H E) (Guarded E L) store calls :=
    throughout_of_along (C := fun _ c => c.Labelled E L) (fun s c hs hc => hs.step hc)
      hopened.guarded fun p c hp => hcalls c (hp.subset (by simp))
  exact (hrun p hp).publicAsSigned hL

/-!
## Minutes

An owner signs the minutes of a meeting, and a head that points to them, with the keys, signatures
and digests of the real ed25519 and SHA2-256.
-/

def ownerSecret : Bytes :=
  beBytes 32 0x492c97b07e2db1755cff589e041a6005518d0eeb850a8d174da6d07787326585

def ownerKey : Bytes :=
  beBytes 32 0x59f894c917af74b98fcd7f2a1a1da246270993087634a12452ca47bbe92c695d

def minutesSignature : Bytes :=
  beBytes 32 0x4ae3def11aa583a31bf27b532c0f4ee9c18c972fd03e3f21316fec7b4ef031f3 ++
  beBytes 32 0x19adb5c5e072f4da308c0230272c59bf962f9aa2abc491239aff207dc2375305

def publicDigest : Bytes :=
  beBytes 32 0x38f4cb03645e1e765818dfdb35ee3da29c2ffc917a58ef600b6b7c50202ee5e8

def cellDigest : Bytes :=
  beBytes 32 0x5a5cbbcf9ec27b82ea18121ce70d7c78405fade519796f9ed2bbfdd7198d74db

def headSignature : Bytes :=
  beBytes 32 0x3c565e842ad36a530167044959767b33e8045b96863d9887b6854224b8054a5b ++
  beBytes 32 0x9703b084c251442ee02c5d10ae11db4ca7d52446c74d2fddf9b09ebec2ffca02

def minutes (v : Visibility) : SignedSegment := ⟨utf8 "minutes", ownerKey, minutesSignature, v⟩

def minutesHead (v : Visibility) : HeadRecord :=
  ⟨ownerKey, 1, ⟨0x12 :: 0x20 :: cellDigest⟩, 60, v, headSignature⟩

def headMaterial : Bytes := headSigningMaterial ownerKey 1 ⟨0x12 :: 0x20 :: cellDigest⟩ 60

/-- SHA2-256 on the stored forms of the minutes. -/
def minutesDigest : Bytes → Bytes :=
  tableDigest [((minutes .publicAnchor).toWire, publicDigest), ((minutes .cell).toWire, cellDigest)]

def minutesScheme : Ed25519 :=
  tableEd25519 [(ownerSecret, ownerKey,
    [(segmentSigningMaterial (utf8 "minutes"), minutesSignature), (headMaterial, headSignature)])]

def signings (v : Visibility) : Set Signing :=
  {e | e ∈ [⟨ownerKey, segmentSigningMaterial (utf8 "minutes"), v⟩, ⟨ownerKey, headMaterial, v⟩]}

/-- Somebody puts the minutes as a public segment, advertises them and publishes the head as a
public one. -/
def publishingCalls : List Call :=
  [.put none (minutes .publicAnchor), .provide none ⟨0x12 :: 0x20 :: publicDigest⟩,
    .publishHead none (minutesHead .publicAnchor)]

def published : ContentStore := exec (step minutesDigest minutesScheme) new publishingCalls

theorem minutesScheme_verify {pk material signature : Bytes}
    (h : verify minutesScheme pk material signature = .ok ()) :
    ownerKey = pk ∧
      (material = segmentSigningMaterial (utf8 "minutes") ∧ signature = minutesSignature ∨
        material = headMaterial ∧ signature = headSignature) := by
  rw [verify] at h
  split_ifs at h with hverify
  obtain ⟨-, -, hverify⟩ := hverify
  simpa [minutesScheme, tableEd25519] using hverify

theorem signings_unforgeable (v : Visibility) : Unforgeable minutesScheme (signings v) where
  signed := by
    intro pk material signature h
    obtain ⟨hpk, ⟨hmaterial, -⟩ | ⟨hmaterial, -⟩⟩ := minutesScheme_verify h
    · exact ⟨_, List.mem_cons_self, hpk, hmaterial.symm⟩
    · exact ⟨_, List.mem_cons_of_mem _ List.mem_cons_self, hpk, hmaterial.symm⟩
  binds := by
    intro pk material material' signature h h'
    have hne : minutesSignature ≠ headSignature := by decide
    obtain ⟨-, ⟨rfl, hs⟩ | ⟨rfl, hs⟩⟩ := minutesScheme_verify h <;>
      obtain ⟨-, ⟨rfl, hs'⟩ | ⟨rfl, hs'⟩⟩ := minutesScheme_verify h'
    · rfl
    · exact absurd (hs.symm.trans hs') hne
    · exact absurd (hs'.symm.trans hs) hne
    · rfl

theorem visibility_of_mem_signings {v : Visibility} {e : Signing} (he : e ∈ signings v) :
    e.visibility = v := by
  simp only [signings, Set.mem_ofPred_eq, List.mem_cons, List.not_mem_nil, or_false] at he
  rcases he with rfl | rfl <;> rfl

theorem labelled_signings {x : Envelope} : x.Labelled E (signings x.visibility) :=
  fun _ _ he _ _ => visibility_of_mem_signings he

/-- The owner signed both as public: then the minutes are advertised and the head is public, as
the owner signed them. -/
theorem signed_made_public :
    (⟨0x12 :: 0x20 :: publicDigest⟩ : Cid) ∈ published.dht ∧
      published.heads[ownerKey]? = some (minutesHead .publicAnchor) ∧
      PublicAsSigned (signings .publicAnchor) published := by
  have hcalls : ∀ c ∈ publishingCalls, c.Labelled minutesScheme (signings .publicAnchor) := by
    simp only [publishingCalls, List.forall_mem_cons, List.not_mem_nil, false_imp_iff,
      implies_true, and_true]
    refine ⟨⟨?_, by rintro _ ⟨⟩⟩, ⟨by rintro _ ⟨⟩, by rintro _ ⟨⟩⟩, ⟨by rintro _ ⟨⟩, ?_⟩⟩
    · rintro seg rfl
      exact labelled_signings
    · rintro r rfl
      exact labelled_signings
  have hrun := (public_as_signed (H := minutesDigest) (signings_unforgeable .publicAnchor)).2 new
    publishingCalls .new hcalls
  exact ⟨by decide +kernel, by decide +kernel, hrun _ (List.prefix_refl _)⟩

/-- The owner signed both as a cell's: under the same calls they become public all the same. -/
theorem relabelled_made_public :
    Unforgeable minutesScheme (signings .cell) ∧
      SignedSegment.author minutesScheme (utf8 "minutes") ownerKey ownerSecret .cell =
        .ok (minutes .cell) ∧
      HeadRecord.author minutesScheme ownerKey 1 ⟨0x12 :: 0x20 :: cellDigest⟩ 60 .cell
        ownerSecret = .ok (minutesHead .cell) ∧
      (∀ v, (minutes v).verify minutesScheme = .ok () ∧
        (minutesHead v).verify minutesScheme = .ok () ∧
        (minutes v).envelope.signer = ownerKey ∧ (minutesHead v).envelope.signer = ownerKey ∧
        (minutes v).envelope.signature = minutesSignature ∧
        (minutesHead v).envelope.signature = headSignature ∧
        (minutes v).envelope.visibility = v ∧ (minutesHead v).envelope.visibility = v) ∧
      (⟨0x12 :: 0x20 :: publicDigest⟩ : Cid) ∈ published.dht ∧
      published.held[(⟨0x12 :: 0x20 :: publicDigest⟩ : Cid)]? = some (minutes .publicAnchor) ∧
      published.heads[ownerKey]? = some (minutesHead .publicAnchor) ∧
      (∀ x : Envelope, ¬ x.SignedAs (signings .cell) .publicAnchor) ∧
      ¬ PublicAsSigned (signings .cell) published := by
  have hnever : ∀ x : Envelope, ¬ x.SignedAs (signings .cell) .publicAnchor := by
    rintro x ⟨e, he, -, -, hvisibility⟩
    rw [visibility_of_mem_signings he] at hvisibility
    cases hvisibility
  have hprovided : (⟨0x12 :: 0x20 :: publicDigest⟩ : Cid) ∈ published.dht := by decide +kernel
  refine ⟨signings_unforgeable .cell, by decide +kernel, by decide +kernel, fun v => ?_, hprovided,
    by decide +kernel, by decide +kernel, hnever, fun h => ?_⟩
  · cases v <;> exact ⟨by decide +kernel, by decide +kernel, rfl, rfl, rfl, rfl, rfl, rfl⟩
  · obtain ⟨seg, -, hsigned⟩ := h.provided _ hprovided
    exact hnever _ hsigned

end Pillar.Wire
