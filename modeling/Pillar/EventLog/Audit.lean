import Pillar.EventLog.AntiEntropy
import Pillar.Lib.Frames
import Pillar.Lib.SortDedup

/-!
# The audit view

`audit_view` lists the audit records of a log: authors by name, each chain by position.

* `fromPayload_eq_some_iff` — **a payload is read as a record exactly if it is what the record is
  written as.**
* `audits_listed_causally_iff` — every audit event is listed once, and **the order is causal exactly
  if no author's audit event comes after one of an author with a greater name.**
-/

namespace Pillar.EventLog

open Std Lib.Compare Lib.LinkedMap Lib.Runs Lib.Frames Lib.Readers Lib.SortDedup

variable {H : Bytes → Bytes} {E : Ed25519} {log : EventLog H}

/-! ## Records -/

structure AuditRecord where
  actor : Str
  action : Str
  timestamp : UInt64
  target : Str
  deriving DecidableEq

namespace AuditRecord

def toPayload (r : AuditRecord) : Bytes :=
  frame r.actor.bytes ++ (frame r.action.bytes ++ (frame r.target.bytes ++
    le8 r.timestamp.toNat))

def takeStr (b : Bytes) : Option (Str × Bytes) :=
  (takeFrame b).bind fun p => (Str.fromUtf8 p.1).map fun s => (s, p.2)

def fromPayload (b : Bytes) : Option AuditRecord := do
  let (actor, b) ← takeStr b
  let (action, b) ← takeStr b
  let (target, b) ← takeStr b
  let (timestamp, b) ← takeLe 8 b
  if b ≠ [] then none else some ⟨actor, action, UInt64.ofNat timestamp, target⟩

theorem takeStr_eq_some_iff {b rest : Bytes} {s : Str} :
    takeStr b = some (s, rest) ↔ b = frame s.bytes ++ rest := by
  simp only [takeStr, Option.bind_eq_some_iff, Option.map_eq_some_iff, Prod.exists,
    takeFrame_eq_some_iff, Str.fromUtf8_eq_some_iff, Prod.mk.injEq]
  constructor
  · rintro ⟨x, rest, ⟨-, rfl⟩, s, rfl, rfl, rfl⟩
    rfl
  · rintro rfl
    exact ⟨s.bytes, rest, ⟨s.length_bytes_lt, rfl⟩, s, rfl, rfl, rfl⟩

/-- **A payload is read as a record exactly if it is what the record is written as.** -/
theorem fromPayload_eq_some_iff {b : Bytes} {r : AuditRecord} :
    fromPayload b = some r ↔ b = r.toPayload := by
  simp only [fromPayload, Option.bind_eq_bind, Option.bind_eq_some_iff, Prod.exists,
    takeStr_eq_some_iff, takeLe_eq_some_iff]
  constructor
  · rintro ⟨actor, _, rfl, action, _, rfl, target, _, rfl, timestamp, rest, ⟨hlt, rfl⟩, h⟩
    split_ifs at h with hrest
    obtain rfl := Option.some.inj h
    rw [toPayload, le8, UInt64.toNat_ofNat_of_lt' hlt, not_not.1 hrest, List.append_nil]
  · rintro rfl
    refine ⟨r.actor, _, rfl, r.action, _, rfl, r.target, _, rfl, r.timestamp.toNat, [],
      ⟨r.timestamp.toNat_lt, (List.append_nil _).symm⟩, ?_⟩
    rw [if_neg (not_not.2 rfl), UInt64.ofNat_toNat]

end AuditRecord

/-! ## The view -/

inductive AuditEntry where
  | verified (event : EventId) (author : Author) (record : AuditRecord)
  | rejected (event : EventId) (author : Author)
  deriving DecidableEq

def AuditEntry.event : AuditEntry → EventId
  | .verified event _ _ => event
  | .rejected event _ => event

def auditEntry (H : Bytes → Bytes) (E : Ed25519) (e : Event) : Option AuditEntry :=
  (AuditRecord.fromPayload e.content.payload).map fun record =>
    if e.isAuthentic H E then .verified (e.id H) e.content.author record
    else .rejected (e.id H) e.content.author

def chainAuthors (log : EventLog H) : List Author := log.height.keys

def eventAt (log : EventLog H) (author : Author) (seq : UInt64) : Option Event :=
  log.bySeq[(author, seq)]?.bind fun id => log.events[id]?

def auditView (E : Ed25519) (log : EventLog H) : List AuditEntry :=
  (log.chainAuthors.insertionSort (· ≤ ·)).flatMap fun author =>
    (seqRange 0 (log.chainHeight author)).filterMap fun seq =>
      (log.eventAt author seq).bind (auditEntry H E)

/-! ## What is listed -/

def Event.IsAudit (e : Event) : Prop := (AuditRecord.fromPayload e.content.payload).isSome = true

instance (e : Event) : Decidable e.IsAudit := inferInstanceAs (Decidable (_ = _))

def chainEvents (log : EventLog H) : List Event :=
  (log.chainAuthors.insertionSort (· ≤ ·)).flatMap fun author =>
    (seqRange 0 (log.chainHeight author)).filterMap (log.eventAt author)

theorem auditView_eq (E : Ed25519) (log : EventLog H) :
    log.auditView E = log.chainEvents.filterMap (auditEntry H E) := by
  rw [auditView, chainEvents, List.filterMap_flatMap]
  simp [List.filterMap_filterMap]

def Event.position (e : Event) : Author ×ₗ ℕ := toLex (e.content.author, e.content.seq.toNat)

structure ListsAudits (E : Ed25519) (log : EventLog H) : Prop where
  nodup : ((log.auditView E).map AuditEntry.event).Nodup
  /-- The rows are those of the held audit events, all of which verify. -/
  mem_iff : ∀ entry, entry ∈ log.auditView E ↔ ∃ e ∈ log, ∃ record,
    AuditRecord.fromPayload e.content.payload = some record ∧
      entry = .verified (e.id H) e.content.author record

def ListsCausally (E : Ed25519) (log : EventLog H) : Prop :=
  ∀ e ∈ log, ∀ f ∈ log, e.IsAudit → f.IsAudit → log.happensBefore (e.id H) (f.id H) = true →
    [e.id H, f.id H].Sublist ((log.auditView E).map AuditEntry.event)

theorem map_event_auditView (E : Ed25519) (log : EventLog H) :
    (log.auditView E).map AuditEntry.event =
      (log.chainEvents.filter fun e => e.IsAudit).map (Event.id H) := by
  rw [auditView_eq, List.map_filterMap, ← List.filterMap_eq_filter, List.map_filterMap]
  refine List.filterMap_congr fun e _ => ?_
  rw [auditEntry]
  cases hrecord : AuditRecord.fromPayload e.content.payload with
  | none => simp [Event.IsAudit, hrecord]
  | some record =>
    by_cases hauthentic : e.isAuthentic H E <;>
      simp [Event.IsAudit, hrecord, hauthentic, AuditEntry.event]

theorem pairwise_seqRange (lo hi : UInt64) :
    (seqRange lo hi).Pairwise fun m n => m.toNat < n.toNat := by
  rw [seqRange, List.pairwise_map]
  have hsize := hi.toNat_lt
  refine List.Pairwise.imp_of_mem (fun {m n} hm hn hlt => ?_) List.pairwise_lt_range'
  rw [List.mem_range'_1] at hm hn
  have hm' : m < 2 ^ 64 := by omega
  have hn' : n < 2 ^ 64 := by omega
  rw [UInt64.toNat_ofNat_of_lt' hm', UInt64.toNat_ofNat_of_lt' hn']
  exact hlt

theorem happensBefore_of_link {e : Event} (he : e ∈ log) {id : EventId}
    (hid : id ∈ e.content.links) : log.happensBefore id (e.id H) = true :=
  happensBefore_iff.2 (.single (edge_iff.2 ⟨e, he, hid⟩))

theorem exists_link_of_happensBefore {e : Event} (he : e ∈ log) {id : EventId}
    (h : log.happensBefore id (e.id H) = true) : ∃ d, d ∈ e.content.links := by
  obtain ⟨d, hlink, -⟩ := Relation.TransGen.head'_iff.1 (happensBefore_iff.1 h)
  obtain ⟨e', he', hd⟩ := edge_iff.1 hlink
  obtain rfl := Option.some.inj ((mem_def.1 he).symm.trans he')
  exact ⟨d, hd⟩

namespace Intact

variable {e : Event}

section

variable (h : Intact E log)

include h

theorem eventAt_eq_some_iff {a : Author} {n : UInt64} :
    log.eventAt a n = some e ↔ e ∈ log ∧ e.content.author = a ∧ e.content.seq = n := by
  rw [eventAt, Option.bind_eq_some_iff]
  simp only [h.index_held]
  constructor
  · rintro ⟨id, ⟨e', he', rfl, hpos⟩, hid⟩
    obtain rfl := eq_of_id_eq (h.mem_of_getElem? hid).1 he' (h.mem_of_getElem? hid).2
    exact ⟨he', hpos⟩
  · rintro ⟨he, hpos⟩
    exact ⟨e.id H, ⟨e, he, rfl, hpos⟩, he⟩

theorem author_mem (he : e ∈ log) : e.content.author ∈ log.chainAuthors := by
  rw [chainAuthors, ExtTreeMap.mem_keys]
  by_contra hnone
  have hlt := h.seq_lt he
  rw [chainHeight, ExtTreeMap.getD_eq_fallback hnone] at hlt
  exact absurd hlt UInt64.not_lt_zero

theorem mem_chainEvents : e ∈ log.chainEvents ↔ e ∈ log := by
  simp only [chainEvents, List.mem_flatMap, List.mem_filterMap, h.eventAt_eq_some_iff,
    List.mem_insertionSort]
  constructor
  · rintro ⟨_, -, _, -, he, -⟩
    exact he
  · intro he
    refine ⟨_, h.author_mem he, _, mem_seqRange.2 ⟨?_, h.seq_lt he⟩, he, rfl, rfl⟩
    exact UInt64.zero_le

theorem pairwise_chainEvents : log.chainEvents.Pairwise fun e f => e.position < f.position := by
  have hauthors : (log.chainAuthors.insertionSort (· ≤ ·)).Pairwise (· < ·) := by
    have hnodup : (log.chainAuthors.insertionSort (· ≤ ·)).Nodup :=
      (List.perm_insertionSort _ _).nodup_iff.2 ExtTreeMap.nodup_keys
    exact ((List.pairwise_insertionSort (· ≤ ·) _).and hnodup).imp fun {a b} hab =>
      hab.1.lt_of_ne hab.2
  rw [chainEvents, List.pairwise_flatMap]
  constructor
  · intro author _
    rw [List.pairwise_filterMap]
    refine (pairwise_seqRange 0 _).imp fun {m n} hmn e he f hf => ?_
    obtain ⟨-, rfl, rfl⟩ := h.eventAt_eq_some_iff.1 he
    obtain ⟨-, hauthor, rfl⟩ := h.eventAt_eq_some_iff.1 hf
    exact Prod.Lex.toLex_lt_toLex.2 (.inr ⟨hauthor.symm, hmn⟩)
  · refine hauthors.imp fun {a b} hab e he f hf => ?_
    obtain ⟨_, -, he⟩ := List.mem_filterMap.1 he
    obtain ⟨_, -, hf⟩ := List.mem_filterMap.1 hf
    obtain ⟨-, rfl, -⟩ := h.eventAt_eq_some_iff.1 he
    obtain ⟨-, rfl, -⟩ := h.eventAt_eq_some_iff.1 hf
    exact Prod.Lex.toLex_lt_toLex.2 (.inl hab)

/-- **The order of the view is that of author and position.** -/
theorem listed_before_iff {f : Event} (he : e ∈ log) (hf : f ∈ log) (hea : e.IsAudit)
    (hfa : f.IsAudit) :
    [e.id H, f.id H].Sublist ((log.auditView E).map AuditEntry.event) ↔
      e.position < f.position := by
  have hsorted := h.pairwise_chainEvents.sublist (List.filter_sublist (p := fun e => e.IsAudit))
  have hmem : ∀ e ∈ log, e.IsAudit → e ∈ log.chainEvents.filter fun e => e.IsAudit := by
    intro e he hea
    exact List.mem_filter.2 ⟨h.mem_chainEvents.2 he, decide_eq_true hea⟩
  rw [map_event_auditView, List.sublist_map_iff]
  constructor
  · rintro ⟨pair, hsub, hpair⟩
    obtain ⟨e', rest, rfl, heid, hrest⟩ := List.map_eq_cons_iff.1 hpair.symm
    obtain ⟨f', rest, rfl, hfid, hnil⟩ := List.map_eq_cons_iff.1 hrest
    obtain rfl := List.map_eq_nil_iff.1 hnil
    have hlog : ∀ x ∈ [e', f'], x ∈ log := fun x hx =>
      h.mem_chainEvents.1 (List.mem_of_mem_filter (hsub.subset hx))
    obtain rfl := eq_of_id_eq (hlog e' (by simp)) he heid
    obtain rfl := eq_of_id_eq (hlog f' (by simp)) hf hfid
    exact ((pair_sublist_iff_of_sorted hsorted).1 hsub).2.2
  · intro hlt
    exact ⟨[e, f], (pair_sublist_iff_of_sorted hsorted).2 ⟨hmem e he hea, hmem f hf hfa, hlt⟩, rfl⟩

/-- **Every held audit event is listed once.** -/
theorem listsAudits : log.ListsAudits E where
  nodup := by
    rw [map_event_auditView]
    have hnodup : log.chainEvents.Nodup := by
      refine h.pairwise_chainEvents.imp fun {e f} hlt heq => ?_
      rw [heq] at hlt
      exact hlt.false
    refine (hnodup.filter _).map_on fun e he f hf hid => ?_
    exact eq_of_id_eq (h.mem_chainEvents.1 (List.mem_of_mem_filter he))
      (h.mem_chainEvents.1 (List.mem_of_mem_filter hf)) hid
  mem_iff := by
    intro entry
    simp only [auditView_eq, List.mem_filterMap, h.mem_chainEvents, auditEntry,
      Option.map_eq_some_iff]
    refine exists_congr fun e => and_congr_right fun he => exists_congr fun record => ?_
    rw [if_pos (h.authentic e he), eq_comm (a := entry)]

/-! ## Positions and causality -/

theorem happensBefore_of_seq_lt {f : Event} (he : e ∈ log) (hf : f ∈ log)
    (hauthor : e.content.author = f.content.author) (hlt : e.content.seq < f.content.seq) :
    log.happensBefore (e.id H) (f.id H) = true := by
  induction hn : f.content.seq.toNat using Nat.strong_induction_on generalizing f with
  | _ n ih =>
    -- the later event has a predecessor, which is `e` or comes after it
    have hzero : f.content.seq ≠ 0 := by
      intro h0
      rw [h0] at hlt
      exact UInt64.not_lt_zero hlt
    obtain ⟨id, hprev⟩ := Option.ne_none_iff_exists'.1 (mt (h.prev_none_iff f hf).1 hzero)
    obtain ⟨p, hp, rfl, hpauthor, hpseq⟩ := h.prev_held f hf id hprev
    have hlast := happensBefore_of_link hf (EventContent.mem_links.2 (.inl hprev))
    have hpred : p.content.seq.toNat + 1 = f.content.seq.toNat := by
      have hpos : 0 < f.content.seq.toNat := UInt64.pos_iff_ne_zero.2 hzero
      rw [hpseq, UInt64.toNat_sub_of_le _ _ ((UInt64.le_iff_toNat_le (a := 1)).2 hpos)]
      exact Nat.sub_add_cancel hpos
    rw [UInt64.lt_iff_toNat_lt] at hlt
    by_cases heq : e.content.seq = p.content.seq
    · obtain rfl := h.unique he hp (hauthor.trans hpauthor.symm) heq
      exact hlast
    · have hne : e.content.seq.toNat ≠ p.content.seq.toNat := fun h' => heq (UInt64.toNat_inj.1 h')
      have hbefore := ih p.content.seq.toNat (by omega) hp (hauthor.trans hpauthor.symm)
        (UInt64.lt_iff_toNat_lt.2 (by omega)) rfl
      exact happensBefore_trans hbefore hlast

theorem seq_lt_of_happensBefore {f : Event} (he : e ∈ log) (hf : f ∈ log)
    (hauthor : e.content.author = f.content.author)
    (hbefore : log.happensBefore (e.id H) (f.id H) = true) : e.content.seq < f.content.seq := by
  have hirrefl := h.happensBefore_irrefl (e.id H)
  by_contra hnot
  rcases UInt64.lt_or_eq_of_le (UInt64.not_lt.1 hnot) with hlt | heq
  · have hback := h.happensBefore_of_seq_lt hf he hauthor.symm hlt
    rw [happensBefore_trans hbefore hback] at hirrefl
    cases hirrefl
  · obtain rfl := h.unique he hf hauthor heq.symm
    rw [hbefore] at hirrefl
    cases hirrefl

end

end Intact

/-- **When the audit view is causal.** -/
theorem audits_listed_causally_iff (hlog : Reached E log) :
    log.ListsAudits E ∧
      (log.ListsCausally E ↔ ∀ e ∈ log, ∀ f ∈ log, e.IsAudit → f.IsAudit →
        log.happensBefore (e.id H) (f.id H) = true → e.content.author ≤ f.content.author) := by
  have h := hlog.intact
  refine ⟨h.listsAudits, ?_⟩
  refine forall₂_congr fun e he => forall₂_congr fun f hf => forall₂_congr fun hea hfa =>
    forall_congr' fun hbefore => ?_
  rw [h.listed_before_iff he hf hea hfa, Event.position, Event.position, Prod.Lex.toLex_lt_toLex]
  constructor
  · rintro (hlt | ⟨heq, -⟩)
    · exact hlt.le
    · exact heq.le
  · intro hle
    rcases hle.lt_or_eq with hlt | heq
    · exact .inl hlt
    · exact .inr ⟨heq, UInt64.lt_iff_toNat_lt.1 (h.seq_lt_of_happensBefore he hf heq hbefore)⟩

/-!
## A grant and its use

One author grants access to a door, another one who has seen that opens it, with the digests and
signatures of the real SHA2-256 and ed25519.
-/

def aliceGrants : Bytes :=
  beBytes 32 0x103da57d12ddb9f06045be02352aa7f7f17738e1aded65d249752c912c63ed41

def bobOpens : Bytes :=
  beBytes 32 0x01be872459e7160cebc386cd31e70d94c8c7bc6b4fe49d241b5e1288350bbc77

def aliceGrantsSignature : Bytes :=
  beBytes 32 0x5d43293c1511b6509be42d37a415532e465c16b4c33a948a121644fb6a0564f1 ++
  beBytes 32 0xfcc15c10086596eec18f6562bce90373597ea7627b8f2eec0172a353cf62590c

def bobOpensSignature : Bytes :=
  beBytes 32 0x20f7b365f6d0fa96e85b716447731a8de05ba2d043593c74a1903dc72131efd6 ++
  beBytes 32 0xbae108c9089965ee6eb2c304772756fdb8bd55a5772b658683313b3e3741b501

def bobGrants : Bytes :=
  beBytes 32 0x18cb3a37d252d6f217b6250352bec04a27c47f67dea6c628e92d7da789ed09cc

def aliceOpens : Bytes :=
  beBytes 32 0x54606bc94d5882f49c0a465d2c34f5143103a72ee0a825dc66431c13d9226da2

def bobGrantsSignature : Bytes :=
  beBytes 32 0x96eadc0bf000ba3c521f35f380b6cc3cb5e545fd1fe35d80b51a221632054c29 ++
  beBytes 32 0x329d5e649c7f1c31ceeefc142463dbdf312662f30a1d27692e789a4f25e2d80e

def aliceOpensSignature : Bytes :=
  beBytes 32 0x0dc9a980112fe54a94dafe422693c8a80881f3110dd5e9e9b4c6d6d13c91d2e3 ++
  beBytes 32 0x14e72f32c3e3c5ba48d3d79041ed8ef05323df0dfe1809f5f055f21a167d590b

def grantRecord (actor : Author) : AuditRecord :=
  ⟨actor, ⟨"grant", by decide⟩, 1, ⟨"door", by decide⟩⟩

def openRecord (actor : Author) : AuditRecord :=
  ⟨actor, ⟨"open", by decide⟩, 2, ⟨"door", by decide⟩⟩

def doorDigest : Bytes → Bytes :=
  tableDigest
    [(utf8 "pillar-crypto/sign/ed25519/seed-v1pillar-eventlog/author-signing-seed::alice",
        aliceSecret),
      (utf8 "pillar-crypto/sign/ed25519/seed-v1pillar-eventlog/author-signing-seed::bob", bobSecret),
      (le8 5 ++ utf8 "alice" ++ le8 0 ++ [0] ++ le8 0 ++ (grantRecord alice).toPayload, aliceGrants),
      (le8 3 ++ utf8 "bob" ++ le8 0 ++ [0] ++ le8 1 ++ 0x12 :: 0x20 :: aliceGrants ++
        (openRecord bob).toPayload, bobOpens),
      (le8 3 ++ utf8 "bob" ++ le8 0 ++ [0] ++ le8 0 ++ (grantRecord bob).toPayload, bobGrants),
      (le8 5 ++ utf8 "alice" ++ le8 0 ++ [0] ++ le8 1 ++ 0x12 :: 0x20 :: bobGrants ++
        (openRecord alice).toPayload, aliceOpens)]

def doorScheme : Ed25519 :=
  tableEd25519
    [(aliceSecret, aliceKey, [(0x12 :: 0x20 :: aliceGrants, aliceGrantsSignature),
        (0x12 :: 0x20 :: aliceOpens, aliceOpensSignature)]),
      (bobSecret, bobKey, [(0x12 :: 0x20 :: bobGrants, bobGrantsSignature),
        (0x12 :: 0x20 :: bobOpens, bobOpensSignature)])]

def doorCalls (first second : Author) : List Call :=
  [.append first (grantRecord first).toPayload, .append second (openRecord second).toPayload]

def door (first second : Author) : EventLog doorDigest :=
  exec (step doorScheme) new (doorCalls first second)

def grantEvent (actor : Author) (signature : Bytes) : Event :=
  .stamped ⟨actor, 0, none, ∅, (grantRecord actor).toPayload⟩ ⟨actor, signature⟩

def openEvent (actor : Author) (grant signature : Bytes) : Event :=
  .stamped ⟨actor, 0, none, ExtTreeSet.ofList [(⟨0x12 :: 0x20 :: grant⟩ : EventId)],
    (openRecord actor).toPayload⟩ ⟨actor, signature⟩

theorem door_reached (first second : Author) (hlen : (door first second).len = 2) :
    Reached doorScheme (door first second) :=
  ⟨by rw [hlen]; decide, doorCalls first second, rfl⟩

theorem grant_happensBefore_open {log : EventLog doorDigest} {actor : Author}
    {grant opens signature : Bytes} (hmem : openEvent actor grant signature ∈ log)
    (hid : (openEvent actor grant signature).id doorDigest = ⟨0x12 :: 0x20 :: opens⟩) :
    log.happensBefore ⟨0x12 :: 0x20 :: grant⟩ ⟨0x12 :: 0x20 :: opens⟩ = true := by
  rw [← hid]
  refine happensBefore_of_link hmem (EventContent.mem_links.2 (.inr ?_))
  simp [openEvent, Event.stamped]

/-- Alice grants and bob opens: the grant happens before, and the view lists it first. -/
theorem grant_listed_first :
    (door alice bob).happensBefore ⟨0x12 :: 0x20 :: aliceGrants⟩ ⟨0x12 :: 0x20 :: bobOpens⟩ = true ∧
      (door alice bob).ListsAudits doorScheme ∧ (door alice bob).ListsCausally doorScheme := by
  have hreached := door_reached alice bob (by decide +kernel)
  obtain ⟨hlists, hcausal⟩ := audits_listed_causally_iff hreached
  have hopen : openEvent bob aliceGrants bobOpensSignature ∈ door alice bob :=
    mem_def.2 (by decide +kernel)
  have hfirst : ∀ x ∈ (door alice bob).events.toList, ∀ y ∈ (door alice bob).events.toList,
      x.2.content.author ≤ y.2.content.author ∨ y.2.content.links = [] := by decide +kernel
  refine ⟨grant_happensBefore_open hopen (by decide +kernel), hlists, hcausal.2 ?_⟩
  intro e he f hf _ _ hbefore
  refine (hfirst (e.id doorDigest, e) (ExtTreeMap.mem_toList_iff_getElem?_eq_some.2 he)
    (f.id doorDigest, f) (ExtTreeMap.mem_toList_iff_getElem?_eq_some.2 hf)).resolve_right ?_
  obtain ⟨id, hid⟩ := exists_link_of_happensBefore hf hbefore
  exact List.ne_nil_of_mem hid

/-- Bob grants and alice opens: the grant happens before, but the view lists the use first. -/
theorem use_listed_first :
    Reached doorScheme (door bob alice) ∧
      (door bob alice).happensBefore ⟨0x12 :: 0x20 :: bobGrants⟩ ⟨0x12 :: 0x20 :: aliceOpens⟩ =
        true ∧
      (door bob alice).auditView doorScheme =
        [.verified ⟨0x12 :: 0x20 :: aliceOpens⟩ alice (openRecord alice),
          .verified ⟨0x12 :: 0x20 :: bobGrants⟩ bob (grantRecord bob)] ∧
      ¬ (door bob alice).ListsCausally doorScheme := by
  have hgrant : grantEvent bob bobGrantsSignature ∈ door bob alice :=
    mem_def.2 (by decide +kernel)
  have hopen : openEvent alice bobGrants aliceOpensSignature ∈ door bob alice :=
    mem_def.2 (by decide +kernel)
  have hbefore : (door bob alice).happensBefore
      ⟨0x12 :: 0x20 :: bobGrants⟩ ⟨0x12 :: 0x20 :: aliceOpens⟩ = true :=
    grant_happensBefore_open hopen (by decide +kernel)
  have hview : (door bob alice).auditView doorScheme =
      [.verified ⟨0x12 :: 0x20 :: aliceOpens⟩ alice (openRecord alice),
        .verified ⟨0x12 :: 0x20 :: bobGrants⟩ bob (grantRecord bob)] := by decide +kernel
  refine ⟨door_reached bob alice (by decide +kernel), hbefore, hview, fun hcausal => ?_⟩
  have hlisted := hcausal _ hgrant _ hopen (by decide +kernel) (by decide +kernel) hbefore
  rw [hview] at hlisted
  exact absurd hlisted (by decide +kernel)

end Pillar.EventLog
