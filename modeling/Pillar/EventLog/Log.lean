import Pillar.Lib.LinkedMap
import Pillar.Lib.Runs
import Pillar.StreamDb.OpLog

/-!
# Events

`pillar-eventlog`'s signed, content-addressed event: a position in its author's
chain, hash-links to the author's previous event and to observed events of other
authors, and an opaque payload.
-/

namespace Pillar.EventLog

open Std Lib.Compare

/-- An event author: the fingerprint of an OpenPGP identity. -/
abbrev Author := Str

/-- The identity of an event: the content address of its content. -/
abbrev EventId := ContentId

/-! ## Content -/

@[ext] structure EventContent where
  author : Author
  seq : UInt64
  /-- The link to the author's previous event; none for a genesis event. -/
  prev : Option EventId
  /-- The links to observed events of other authors. -/
  parents : ExtTreeSet EventId
  payload : Bytes
  deriving DecidableEq

def le8 (n : ℕ) : Bytes := (beBytes 8 n).reverse

theorem length_le8 (n : ℕ) : (le8 n).length = 8 := by simp [le8]

theorem le8_inj {a b : ℕ} (ha : a < 256 ^ 8) (hb : b < 256 ^ 8) (h : le8 a = le8 b) : a = b :=
  beBytes_inj ha hb (List.reverse_injective h)

namespace EventContent

def links (c : EventContent) : List EventId :=
  match c.prev with
  | some p => (c.parents.insert p).toList
  | none => c.parents.toList

theorem mem_links {c : EventContent} {id : EventId} :
    id ∈ c.links ↔ c.prev = some id ∨ id ∈ c.parents := by
  rw [links]
  cases c.prev with
  | none => simp [ExtTreeSet.mem_toList]
  | some p =>
    simp

def prevBytes : Option EventId → Bytes
  | some p => 1 :: p.bytes
  | none => [0]

def canonicalBytes (c : EventContent) : Bytes :=
  le8 c.author.bytes.length ++ (c.author.bytes ++ (le8 c.seq.toNat ++ (prevBytes c.prev ++
    (le8 c.parents.size ++ (c.parents.toList.flatMap ContentId.bytes ++ c.payload)))))

def id (H : Bytes → Bytes) (c : EventContent) : EventId := contentAddress H c.canonicalBytes

theorem position_eq_of_canonicalBytes_eq {c d : EventContent}
    (h : c.canonicalBytes = d.canonicalBytes) : c.author = d.author ∧ c.seq = d.seq := by
  obtain ⟨hlen, h⟩ := List.append_inj h (by rw [length_le8, length_le8])
  have hauthors := le8_inj (Str.length_bytes_lt _) (Str.length_bytes_lt _) hlen
  obtain ⟨hauthor, h⟩ := List.append_inj h hauthors
  obtain ⟨hseq, -⟩ := List.append_inj h (by rw [length_le8, length_le8])
  exact ⟨Str.bytes_injective hauthor,
    UInt64.toNat_inj.1 (le8_inj (UInt64.toNat_lt _) (UInt64.toNat_lt _) hseq)⟩

theorem position_eq_of_id_eq {H : Bytes → Bytes} (hH : CollisionFree H) {c d : EventContent}
    (h : c.id H = d.id H) : c.author = d.author ∧ c.seq = d.seq :=
  position_eq_of_canonicalBytes_eq (contentAddress_injective hH h)

/-- The links of a content have lengths among these; and a set has a length. -/
def LinksIn (lengths : Set ℕ) (c : EventContent) : Prop :=
  (∀ id ∈ c.links, id.bytes.length ∈ lengths) ∧ c.parents.size < 256 ^ 8

theorem flatMap_bytes_inj {n : ℕ} {ids ids' : List EventId} {x y : Bytes}
    (hids : ∀ id ∈ ids, id.bytes.length = n) (hids' : ∀ id ∈ ids', id.bytes.length = n)
    (hlength : ids.length = ids'.length)
    (h : ids.flatMap ContentId.bytes ++ x = ids'.flatMap ContentId.bytes ++ y) :
    ids = ids' ∧ x = y := by
  have hlengths : (ids.map ContentId.bytes).map List.length =
      (ids'.map ContentId.bytes).map List.length := by
    simp only [List.map_map, Function.comp_def, List.map_eq_replicate_iff.2 hids,
      List.map_eq_replicate_iff.2 hids', hlength]
  rw [List.flatMap_def, List.flatMap_def] at h
  obtain ⟨hflat, hxy⟩ := List.append_inj h (by rw [List.length_flatten, List.length_flatten, hlengths])
  have hbytes := List.eq_iff_flatten_eq.2 ⟨hflat, hlengths⟩
  exact ⟨List.map_injective_iff.2 (fun _ _ => ContentId.ext) hbytes, hxy⟩

-- the byte in front of a previous link tells whether there is one
theorem prevBytes_inj {n : ℕ} {p q : Option EventId} {x y : Bytes}
    (hp : ∀ id, p = some id → id.bytes.length = n) (hq : ∀ id, q = some id → id.bytes.length = n)
    (h : prevBytes p ++ x = prevBytes q ++ y) : p = q ∧ x = y := by
  cases p <;> cases q
  · exact ⟨rfl, (List.cons.inj h).2⟩
  · cases (List.cons.inj h).1
  · cases (List.cons.inj h).1
  · obtain ⟨hid, hxy⟩ := List.append_inj (List.cons.inj h).2 ((hp _ rfl).trans (hq _ rfl).symm)
    exact ⟨congrArg some (ContentId.ext hid), hxy⟩

theorem eq_of_canonicalBytes_eq {n : ℕ} {c d : EventContent} (hc : c.LinksIn {n})
    (hd : d.LinksIn {n}) (h : c.canonicalBytes = d.canonicalBytes) : c = d := by
  obtain ⟨hauthor, hseq⟩ := position_eq_of_canonicalBytes_eq h
  rw [canonicalBytes, canonicalBytes, hauthor, hseq] at h
  have h := List.append_cancel_left (List.append_cancel_left (List.append_cancel_left h))
  obtain ⟨hprev, h⟩ := prevBytes_inj (fun id hid => hc.1 id (mem_links.2 (.inl hid)))
    (fun id hid => hd.1 id (mem_links.2 (.inl hid))) h
  obtain ⟨hsize, h⟩ := List.append_inj h (by rw [length_le8, length_le8])
  obtain ⟨hlist, hpayload⟩ := flatMap_bytes_inj
    (fun id hid => hc.1 id (mem_links.2 (.inr (ExtTreeSet.mem_toList.1 hid))))
    (fun id hid => hd.1 id (mem_links.2 (.inr (ExtTreeSet.mem_toList.1 hid))))
    (by simpa using le8_inj hc.2 hd.2 hsize) h
  exact EventContent.ext hauthor hseq hprev (ExtTreeSet.ext_toList (.of_eq hlist)) hpayload

/-- A content with one link and a payload. -/
def contentOf (parent payload : Bytes) : EventContent :=
  ⟨⟨"linker", by decide⟩, 0, none, ExtTreeSet.empty.insert ⟨parent⟩, payload⟩

theorem toList_parents_contentOf (parent payload : Bytes) :
    (contentOf parent payload).parents.toList = [⟨parent⟩] := by
  have hsize : (contentOf parent payload).parents.toList.length = 1 := by
    rw [ExtTreeSet.length_toList, contentOf, ExtTreeSet.size_insert]
    simp
  obtain ⟨id, hid⟩ := List.length_eq_one_iff.1 hsize
  have hmem : ⟨parent⟩ ∈ (contentOf parent payload).parents.toList :=
    ExtTreeSet.mem_toList.2 ExtTreeSet.mem_insert_self
  rw [hid, List.mem_singleton] at hmem
  rw [hid, hmem]

theorem canonicalBytes_contentOf (parent payload : Bytes) :
    (contentOf parent payload).canonicalBytes = le8 6 ++ ("linker".toUTF8.data.toList ++ (le8 0 ++
      ([0] ++ (le8 1 ++ (parent ++ payload))))) := by
  have hsize : (contentOf parent payload).parents.size = 1 := by
    rw [← ExtTreeSet.length_toList, toList_parents_contentOf, List.length_singleton]
  rw [canonicalBytes, toList_parents_contentOf, hsize, List.flatMap_singleton]
  rfl

theorem linksIn_contentOf {lengths : Set ℕ} {parent : Bytes} (h : parent.length ∈ lengths)
    (payload : Bytes) : (contentOf parent payload).LinksIn lengths := by
  have hlinks : (contentOf parent payload).links = [⟨parent⟩] := toList_parents_contentOf _ _
  refine ⟨fun id hid => ?_, ?_⟩
  · rw [hlinks, List.mem_singleton] at hid
    rwa [hid]
  · rw [← ExtTreeSet.length_toList, toList_parents_contentOf, List.length_singleton]
    decide

/-- **The bytes of contents bind all of them** precisely if the links are of one length. -/
theorem content_bound (lengths : Set ℕ) :
    (∀ c d : EventContent, c.LinksIn lengths → d.LinksIn lengths →
      c.canonicalBytes = d.canonicalBytes → c = d) ↔ lengths.Subsingleton := by
  constructor
  · intro h m hm n hn
    wlog hle : m ≤ n generalizing m n
    · exact (this hn hm (Nat.le_of_not_le hle)).symm
    -- the end of the longer link is read as the payload behind the shorter one
    have heq := h (contentOf (.replicate m 0) (.replicate (n - m) 0))
      (contentOf (.replicate n 0) [])
      (linksIn_contentOf (by simpa using hm) _) (linksIn_contentOf (by simpa using hn) _) (by
        rw [canonicalBytes_contentOf, canonicalBytes_contentOf, List.replicate_append_replicate,
          Nat.add_sub_cancel' hle, List.append_nil])
    have hpayload := congrArg (fun c => c.payload.length) heq
    simp only [contentOf, List.length_replicate, List.length_nil] at hpayload
    omega
  · intro hone c d hc hd
    obtain ⟨n, hn⟩ : ∃ n, lengths ⊆ {n} := by
      rcases hone.eq_empty_or_singleton with rfl | ⟨n, rfl⟩
      · exact ⟨0, Set.empty_subset _⟩
      · exact ⟨n, subset_rfl⟩
    exact eq_of_canonicalBytes_eq ⟨fun id hid => hn (hc.1 id hid), hc.2⟩
      ⟨fun id hid => hn (hd.1 id hid), hd.2⟩

theorem linked_bound : (contentOf [1] [7]).canonicalBytes ≠ (contentOf [7] [1]).canonicalBytes :=
  fun h => absurd ((content_bound {1}).2 Set.subsingleton_singleton _ _
    (linksIn_contentOf (Set.mem_singleton 1) _) (linksIn_contentOf (Set.mem_singleton 1) _) h)
    (by decide +kernel)

/-- A byte moves from the payload into a link. -/
theorem link_and_payload_move :
    contentOf [] [7] ≠ contentOf [7] [] ∧
      (contentOf [] [7]).canonicalBytes = (contentOf [7] []).canonicalBytes := by
  decide +kernel

end EventContent

/-! ## Signatures -/

def authorSigningKeypair (H : Bytes → Bytes) (E : Ed25519) (author : Author) : Bytes × Bytes :=
  signingKeypairFromSeed H E (utf8 "pillar-eventlog/author-signing-seed::" ++ author.bytes)

structure Signature where
  author : Author
  signature : Bytes
  deriving DecidableEq

namespace Signature

variable (H : Bytes → Bytes) (E : Ed25519)

/-- Sign a content as `author`. -/
def sign (author : Author) (content : EventContent) : Option Signature :=
  match Pillar.sign E (authorSigningKeypair H E author).2 (content.id H).bytes with
  | .ok signature => some ⟨author, signature⟩
  | .error _ => none

def verifies (s : Signature) (content : EventContent) : Bool :=
  if s.author ≠ content.author then false
  else (verify E (authorSigningKeypair H E s.author).1 (content.id H).bytes s.signature).isOk

end Signature

/-! ## Envelopes -/

structure Event where
  schemaVersion : SurfaceVersion
  content : EventContent
  signature : Signature
  deriving DecidableEq

namespace Event

/-- The schema version this build authors, the highest it accepts. -/
def currentSchemaVersion : SurfaceVersion := ⟨1⟩

/-- The lowest schema version this build accepts. -/
def minSchemaVersion : SurfaceVersion := ⟨1⟩

def stamped (content : EventContent) (signature : Signature) : Event :=
  ⟨currentSchemaVersion, content, signature⟩

def id (H : Bytes → Bytes) (e : Event) : EventId := e.content.id H

def isAuthentic (H : Bytes → Bytes) (E : Ed25519) (e : Event) : Bool :=
  e.signature.verifies H E e.content

end Event
end Pillar.EventLog

/-! ## The event log

`pillar-eventlog`'s `EventLog`: the events held, by id, with the height and the
tip of every author's chain and an index by chain position.

* `Admissible`, `ingest_of_admissible`, `ingest_cases` — **all that ingesting can
  do**: the log stays as it is, or the event passed the checks and is recorded. -/

namespace Pillar

open Std StreamDb

/-- Chain positions are ordered by author, then by sequence number. -/
instance : Ord (Str × UInt64) := ⟨compareLex (compareOn Prod.fst) (compareOn Prod.snd)⟩

instance : TransOrd (Str × UInt64) :=
  inferInstanceAs (TransCmp (compareLex (compareOn Prod.fst) (compareOn Prod.snd)))

instance : LawfulEqOrd (Str × UInt64) where
  compare_self := by
    intro a
    show compareLex (compareOn Prod.fst) (compareOn Prod.snd) a a = .eq
    exact ReflCmp.compare_self
  eq_of_compare := by
    intro a b h
    have hboth := compareLex_eq_eq.1 h
    exact Prod.ext (LawfulEqCmp.eq_of_compare hboth.1) (LawfulEqCmp.eq_of_compare hboth.2)

/-- The events, with the last one of every author. -/
structure EventLog (H : Bytes → Bytes) where
  /-- The content-addressed store of the events' bytes. -/
  store : OpLog H
  events : ExtTreeMap EventLog.EventId EventLog.Event
  height : ExtTreeMap EventLog.Author UInt64
  tip : ExtTreeMap EventLog.Author EventLog.EventId
  bySeq : ExtTreeMap (EventLog.Author × UInt64) EventLog.EventId

namespace EventLog

open Lib.LinkedMap

variable {H : Bytes → Bytes}

inductive EventError where
  | tamperedSignature
  | idMismatch
  /-- A genesis event with a `prev` link, or another one without. -/
  | malformedChainLink
  /-- The `prev` link is not the author's last event. -/
  | gapOrBrokenPrev
  | danglingParent
  /-- The envelope's version is not one this build reads. -/
  | unsupportedSchemaVersion (err : VersionError)
  deriving DecidableEq

def new : EventLog H := ⟨.new, ∅, ∅, ∅, ∅⟩

def len (log : EventLog H) : ℕ := log.events.size

/-- The next unheld position of an author's chain. -/
def chainHeight (log : EventLog H) (author : Author) : UInt64 := log.height.getD author 0

/-! ## Ingesting -/

def checkChain (log : EventLog H) (c : EventContent) : Except EventError Unit :=
  match c.prev with
  | none =>
    if c.seq ≠ 0 then .error .malformedChainLink
    else if log.chainHeight c.author ≠ 0 then .error .gapOrBrokenPrev
    else .ok ()
  | some prevId =>
    if c.seq = 0 then .error .malformedChainLink
    else if log.tip[c.author]? ≠ some prevId then .error .gapOrBrokenPrev
    else
      match log.events[prevId]? with
      | some p =>
        if p.content.author = c.author ∧ p.content.seq = c.seq - 1 then .ok ()
        else .error .gapOrBrokenPrev
      | none => .error .gapOrBrokenPrev

def checkParents (log : EventLog H) (c : EventContent) : Except EventError Unit :=
  if c.parents.toList.all fun id =>
      match log.events[id]? with
      | some p => p.content.author ≠ c.author
      | none => false
  then .ok ()
  else .error .danglingParent

/-- Store the content's bytes, advance the author's chain, keep the event. -/
def record (log : EventLog H) (event : Event) : EventLog H where
  store := (log.store.append event.content.canonicalBytes).1
  events := log.events.insert (event.id H) event
  height := log.height.insert event.content.author (event.content.seq + 1)
  tip := log.tip.insert event.content.author (event.id H)
  bySeq := log.bySeq.insert (event.content.author, event.content.seq) (event.id H)

/-- An event is taken in if it is authentic and everything it links to is there. -/
def ingest (E : Ed25519) (log : EventLog H) (event : Event) :
    EventLog H × Except EventError EventId :=
  match event.schemaVersion.checkSupported Event.minSchemaVersion Event.currentSchemaVersion with
  | .error err => (log, .error (.unsupportedSchemaVersion err))
  | .ok () =>
    -- an event already held is not looked at again
    if log.events.contains (event.id H) then (log, .ok (event.id H))
    else if event.isAuthentic H E = false then (log, .error .tamperedSignature)
    else if event.signature.author ≠ event.content.author then (log, .error .tamperedSignature)
    else
      match log.checkChain event.content with
      | .error err => (log, .error err)
      | .ok () =>
        match log.checkParents event.content with
        | .error err => (log, .error err)
        | .ok () => (log.record event, .ok (event.id H))

/-! ## Authoring -/

/-- The content of an author's next event: it chains to the author's tip and
observes the tip of every other author. -/
def nextContent (log : EventLog H) (author : Author) (payload : Bytes) : EventContent where
  author := author
  seq := log.chainHeight author
  prev := log.tip[author]?
  parents := ExtTreeSet.ofList ((log.tip.toList.filter fun e => e.1 ≠ author).map Prod.snd)
  payload := payload

def append (E : Ed25519) (log : EventLog H) (author : Author) (payload : Bytes) :
    EventLog H × Option EventId :=
  match Signature.sign H E author (log.nextContent author payload) with
  | none => (log, none)
  | some signature =>
    let r := log.ingest E (Event.stamped (log.nextContent author payload) signature)
    (r.1, r.2.toOption)

/-! ## The causal order -/

def ancestors (log : EventLog H) (id : EventId) : ExtTreeSet EventId :=
  reach log.events (fun e => e.content.links) ∅
    (next log.events (fun e => e.content.links) id).reverse

def happensBefore (log : EventLog H) (a b : EventId) : Bool := (log.ancestors b).contains a

def Links (log : EventLog H) : EventId → EventId → Prop :=
  Edge log.events fun e => e.content.links

variable {log : EventLog H}

/-- **The causal order is the transitive closure of the hash-links.** -/
theorem happensBefore_iff {a b : EventId} :
    log.happensBefore a b = true ↔ Relation.TransGen log.Links b a := by
  rw [happensBefore, ExtTreeSet.contains_iff_mem, ancestors, mem_reach (by simp),
    Relation.TransGen.head'_iff]
  simp only [ExtTreeSet.not_mem_empty, false_or, List.mem_reverse]
  rfl

/-! ## All that ingesting can do -/

/-- The chain link of a content fits the log. -/
inductive Chains (log : EventLog H) (c : EventContent) : Prop
  | genesis (hprev : c.prev = none) (hseq : c.seq = 0) (hheight : log.chainHeight c.author = 0)
  | next {prevId : EventId} {p : Event} (hprev : c.prev = some prevId) (hseq : c.seq ≠ 0)
      (htip : log.tip[c.author]? = some prevId) (hheld : log.events[prevId]? = some p)
      (hauthor : p.content.author = c.author) (hpseq : p.content.seq = c.seq - 1)

theorem checkChain_eq_ok_iff {c : EventContent} : log.checkChain c = .ok () ↔ log.Chains c := by
  constructor
  · intro h
    rw [checkChain] at h
    split at h
    · rename_i hprev
      split_ifs at h with hseq hheight
      exact .genesis hprev (not_not.1 hseq) (not_not.1 hheight)
    · rename_i prevId hprev
      split_ifs at h with hseq htip
      split at h
      · rename_i p hheld
        split_ifs at h with hp
        exact .next hprev hseq (not_not.1 htip) hheld hp.1 hp.2
      · cases h
  · intro h
    cases h with
    | genesis hprev hseq hheight => simp [checkChain, hprev, hseq, hheight]
    | next hprev hseq htip hheld hauthor hpseq =>
      simp [checkChain, hprev, hseq, htip, hheld, hauthor, hpseq]

theorem checkParents_eq_ok_iff {c : EventContent} :
    log.checkParents c = .ok () ↔
      ∀ id ∈ c.parents, ∃ p, log.events[id]? = some p ∧ p.content.author ≠ c.author := by
  have hall : log.checkParents c = .ok () ↔ ∀ id ∈ c.parents.toList,
      (match log.events[id]? with
      | some p => decide (p.content.author ≠ c.author)
      | none => false) = true := by
    rw [checkParents, ← List.all_eq_true]
    refine ⟨fun h => ?_, fun h => if_pos h⟩
    by_contra hne
    rw [if_neg hne] at h
    cases h
  rw [hall]
  refine forall_congr' fun id => ?_
  rw [ExtTreeSet.mem_toList]
  refine imp_congr_right fun _ => ?_
  cases log.events[id]? <;> simp

structure Admissible (E : Ed25519) (log : EventLog H) (event : Event) : Prop where
  supported : event.schemaVersion.checkSupported Event.minSchemaVersion
    Event.currentSchemaVersion = .ok ()
  fresh : event.id H ∉ log.events
  authentic : event.isAuthentic H E = true
  chains : log.Chains event.content
  parents : ∀ id ∈ event.content.parents,
    ∃ p, log.events[id]? = some p ∧ p.content.author ≠ event.content.author

theorem author_eq_of_isAuthentic {E : Ed25519} {event : Event}
    (h : event.isAuthentic H E = true) : event.signature.author = event.content.author := by
  rw [Event.isAuthentic, Signature.verifies] at h
  split_ifs at h with hne
  exact not_not.1 hne

theorem ingest_of_admissible {E : Ed25519} {event : Event} (h : Admissible E log event) :
    log.ingest E event = (log.record event, .ok (event.id H)) := by
  have hfresh : log.events.contains (event.id H) = false := by
    rw [← Bool.not_eq_true, ExtTreeMap.contains_iff_mem]
    exact h.fresh
  rw [ingest, h.supported]
  simp only [hfresh, h.authentic, author_eq_of_isAuthentic h.authentic,
    checkChain_eq_ok_iff.2 h.chains, checkParents_eq_ok_iff.2 h.parents]
  simp

/-- **All that ingesting can do.** -/
theorem ingest_cases (E : Ed25519) (log : EventLog H) (event : Event) :
    (log.ingest E event).1 = log ∨
      Admissible E log event ∧ (log.ingest E event).1 = log.record event := by
  rw [ingest]
  split
  · exact .inl rfl
  · rename_i hsupported
    split_ifs with hheld hauthentic hauthor
    · exact .inl rfl
    · exact .inl rfl
    · exact .inl rfl
    · split
      · exact .inl rfl
      · rename_i hchain
        split
        · exact .inl rfl
        · rename_i hparents
          rw [ExtTreeMap.contains_iff_mem] at hheld
          exact .inr ⟨⟨hsupported, hheld, Bool.not_eq_false _ ▸ hauthentic,
            checkChain_eq_ok_iff.1 hchain, checkParents_eq_ok_iff.1 hparents⟩, rfl⟩

inductive Call where
  | append (author : Author) (payload : Bytes)
  | ingest (event : Event)

def step (E : Ed25519) (log : EventLog H) : Call → EventLog H
  | .append author payload => (log.append E author payload).1
  | .ingest event => (log.ingest E event).1

/-- **All that a call can do.** -/
theorem step_cases (E : Ed25519) (log : EventLog H) (c : Call) :
    log.step E c = log ∨ ∃ event, Admissible E log event ∧ log.step E c = log.record event := by
  cases c with
  | append author payload =>
    rw [step, append]
    cases Signature.sign H E author (log.nextContent author payload) with
    | none => exact .inl rfl
    | some signature =>
      exact (ingest_cases E log _).imp_right fun h => ⟨_, h⟩
  | ingest event => exact (ingest_cases E log event).imp_right fun h => ⟨event, h⟩

end EventLog
end Pillar
