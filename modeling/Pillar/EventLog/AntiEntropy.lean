import Pillar.EventLog.Integrity
import Pillar.Lib.Kahn

/-!
# Replay order and anti-entropy

`events_in_causal_order` lists the events of a log for replay: a topological sort along the
hash-links, in which concurrent events are sorted by author, chain position and address.

* `CausalOrder.eq` — **logs of the same events have one such list.**
-/

namespace Pillar.EventLog

open Std Lib.LinkedMap Lib.Kahn

variable {H : Bytes → Bytes} {E : Ed25519} {log : EventLog H}

/-- What concurrent events are sorted by: the author, the position in the chain and the
address. -/
def Event.sortKey (H : Bytes → Bytes) (e : Event) : Author ×ₗ ℕ ×ₗ EventId :=
  toLex (e.content.author, toLex (e.content.seq.toNat, e.id H))

/-- The sort key of the event under an id. -/
def sortKey (log : EventLog H) (id : EventId) : WithBot (Author ×ₗ ℕ ×ₗ EventId) :=
  log.events[id]?.map fun e => toLex (e.content.author, toLex (e.content.seq.toNat, id))

/-- Every held event, in an order that respects happens-before. -/
def eventsInCausalOrder (log : EventLog H) : Option (List Event) := do
  let order ← sort log.events (fun e => e.content.links) log.sortKey
  order.mapM fun id => log.events[id]?

/-! ## What the order is -/

def LinksListed (H : Bytes → Bytes) (p : List Event) (e : Event) : Prop :=
  ∀ id ∈ e.content.links, ∃ d ∈ p, d.id H = id

structure CausalOrder (log : EventLog H) (order : List Event) : Prop where
  mem_iff : ∀ e, e ∈ order ↔ e ∈ log
  nodup : order.Nodup
  links : ∀ p e, p ++ [e] <+: order → LinksListed H p e
  /-- At each position stands the least event among those whose links are all listed. -/
  least : ∀ p e, p ++ [e] <+: order → ∀ e' ∈ log, e' ∉ p → LinksListed H p e' →
    e.sortKey H ≤ e'.sortKey H

theorem EventContent.nodup_links (c : EventContent) : c.links.Nodup := by
  have hset : ∀ s : ExtTreeSet EventId, s.toList.Nodup := by
    intro s
    refine ExtTreeSet.distinct_toList.imp ?_
    rintro a b h rfl
    exact h ReflCmp.compare_self
  rw [links]
  cases c.prev with
  | none | some p => exact hset _

theorem sortKey_eq {e : Event} (he : e ∈ log) :
    log.sortKey (e.id H) = (e.sortKey H : WithBot (Author ×ₗ ℕ ×ₗ EventId)) := by
  rw [sortKey, mem_def.1 he]
  rfl

namespace Intact

theorem readyIn_iff (h : Intact E log) {p : List Event} (hp : ∀ e ∈ p, e ∈ log) {e : Event}
    (he : e ∈ log) :
    ReadyIn log.events (fun e => e.content.links) (p.map (Event.id H)) (e.id H) ↔
      e ∉ p ∧ LinksListed H p e := by
  have hdeps : ∀ id, id ∈ deps log.events (fun e => e.content.links) (e.id H) ↔
      id ∈ e.content.links := by
    intro id
    rw [mem_deps, next, mem_def.1 he]
    refine and_iff_left_of_imp fun hid => ?_
    obtain ⟨d, hd, rfl⟩ := h.links_held he hid
    exact id_mem_of_mem hd
  have hlisted : e.id H ∈ p.map (Event.id H) ↔ e ∈ p := by
    refine ⟨fun hmem => ?_, List.mem_map_of_mem⟩
    obtain ⟨e', he', hid⟩ := List.mem_map.1 hmem
    exact eq_of_id_eq (hp e' he') he hid ▸ he'
  constructor
  · intro hready
    refine ⟨mt hlisted.2 hready.fresh, fun id hid => ?_⟩
    exact List.mem_map.1 (hready.after id ((hdeps id).2 hid))
  · rintro ⟨hnot, hlinks⟩
    refine ⟨id_mem_of_mem he, mt hlisted.1 hnot, fun id hid => ?_⟩
    exact List.mem_map.2 (hlinks id ((hdeps id).1 hid))

theorem exists_mapM_events (h : Intact E log) {ids : List EventId}
    (hids : ∀ id ∈ ids, id ∈ log.events) :
    ∃ order : List Event, (ids.mapM fun id => log.events[id]?) = some order ∧
      order.map (Event.id H) = ids ∧ ∀ e ∈ order, e ∈ log := by
  induction ids with
  | nil => exact ⟨[], rfl, rfl, by simp⟩
  | cons id ids ih =>
    obtain ⟨order, hmap, hid, horder⟩ := ih fun id' h' => hids id' (List.mem_cons_of_mem id h')
    obtain ⟨e, he⟩ := Lib.TreeMap.mem_iff_exists_getElem?.1 (hids id List.mem_cons_self)
    obtain ⟨hmem, heid⟩ := h.mem_of_getElem? he
    refine ⟨e :: order, by rw [List.mapM_cons, he, hmap]; rfl, by rw [List.map_cons, heid, hid], ?_⟩
    exact List.forall_mem_cons.2 ⟨hmem, horder⟩

theorem id_mem_of_full (h : Intact E log) {ids : List EventId}
    (hfull : Full {id | id ∈ log.events}
      (fun id d => d ∈ deps log.events (fun e => e.content.links) id) ids) {e : Event}
    (he : e ∈ log) : e.id H ∈ ids := by
  obtain ⟨rank, hrank⟩ := h.exists_rank
  refine hfull.mem_of_rank rank (fun id _ d hd => ?_) (id_mem_of_mem he)
  obtain ⟨hlink, hheld⟩ := mem_deps.1 hd
  exact ⟨hheld, hrank id d hlink⟩

/-- **The function returns the causal order.** -/
theorem exists_causalOrder (h : Intact E log) :
    ∃ order, log.eventsInCausalOrder = some order ∧ log.CausalOrder order := by
  obtain ⟨ids, hsort, hgreedy, hfull⟩ := sort_spec (m := log.events)
    (fun e : Event => e.content.nodup_links) log.sortKey
  obtain ⟨order, hmap, rfl, horder⟩ :=
    h.exists_mapM_events fun id hid => (hgreedy.of_mem hid).1
  have hposition : ∀ p e, p ++ [e] <+: order → (∀ d ∈ p, d ∈ log) ∧ e ∈ log ∧
      p.map (Event.id H) ++ [e.id H] <+: order.map (Event.id H) := by
    intro p e hp
    refine ⟨fun d hd => horder d (hp.subset (List.mem_append_left _ hd)),
      horder e (hp.subset (by simp)), ?_⟩
    simpa using hp.map (Event.id H)
  refine ⟨order, by rw [eventsInCausalOrder, hsort]; exact hmap, ?_⟩
  constructor
  case mem_iff =>
    refine fun e => ⟨horder e, fun he => ?_⟩
    obtain ⟨e', he', hid⟩ := List.mem_map.1 (h.id_mem_of_full hfull he)
    exact eq_of_id_eq (horder e' he') he hid ▸ he'
  case nodup => exact hgreedy.nodup.of_map _
  case links =>
    intro p e hp
    obtain ⟨hlog, he, hids⟩ := hposition p e hp
    exact ((h.readyIn_iff hlog he).1 (hgreedy _ _ hids).1).2
  case least =>
    intro p e hp e' he' hnot hlinks
    obtain ⟨hlog, he, hids⟩ := hposition p e hp
    have hle : log.sortKey (e.id H) ≤ log.sortKey (e'.id H) :=
      (hgreedy _ _ hids).2 (e'.id H) ((h.readyIn_iff hlog he').2 ⟨hnot, hlinks⟩)
    rw [sortKey_eq he, sortKey_eq he'] at hle
    exact WithBot.coe_le_coe.1 hle

end Intact

/-! ## It is canonical -/

theorem Event.id_eq_of_sortKey_eq {e e' : Event} (h : e.sortKey H = e'.sortKey H) :
    e.id H = e'.id H :=
  congrArg (fun k => (ofLex (ofLex k).2).2) h

theorem CausalOrder.greedy {order : List Event} (h : log.CausalOrder order) (hlog : Intact E log) :
    Greedy {e | e ∈ log} (fun e d => d ∈ log ∧ d.id H ∈ e.content.links)
        (fun e d => e.sortKey H ≤ d.sortKey H) order ∧
      Full {e | e ∈ log} (fun e d => d ∈ log ∧ d.id H ∈ e.content.links) order := by
  refine ⟨fun p e hp => ?_, fun e he => he.fresh ((h.mem_iff e).2 he.node)⟩
  have hpmem : ∀ d ∈ p, d ∈ log := fun d hd =>
    (h.mem_iff d).1 (hp.subset (List.mem_append_left _ hd))
  refine ⟨⟨(h.mem_iff e).1 (hp.subset (by simp)), ?_, ?_⟩, ?_⟩
  · intro hmem
    have hnodup := h.nodup.sublist hp.sublist
    exact (List.nodup_append.1 hnodup).2.2 e hmem e List.mem_cons_self rfl
  · rintro d ⟨hd, hlink⟩
    obtain ⟨d', hd', hid⟩ := h.links p e hp _ hlink
    exact eq_of_id_eq (hpmem d' hd') hd hid ▸ hd'
  · intro e' he'
    refine h.least p e hp e' he'.node he'.fresh fun id hid => ?_
    obtain ⟨d, hd, rfl⟩ := hlog.links_held he'.node hid
    exact ⟨d, he'.after d ⟨hd, hid⟩, rfl⟩

/-- **Logs of the same events have one causal order.** -/
theorem CausalOrder.eq {log' : EventLog H} {order order' : List Event} (h : log.CausalOrder order)
    (h' : log'.CausalOrder order') (hlog : Intact E log) (hlog' : Intact E log')
    (hsame : ∀ e, e ∈ log' ↔ e ∈ log) : order = order' := by
  obtain ⟨hgreedy, hfull⟩ := h.greedy hlog
  obtain ⟨hgreedy', hfull'⟩ := h'.greedy hlog'
  simp only [hsame] at hgreedy' hfull'
  refine hgreedy.eq_of_full (fun e he d hd hed hde => ?_) hfull hgreedy' hfull'
  exact eq_of_id_eq he hd (Event.id_eq_of_sortKey_eq (hed.antisymm hde))

/-- **The causal replay order is canonical.** -/
theorem causal_order_canonical (hlog : Reached E log) :
    ∃ order, log.eventsInCausalOrder = some order ∧ log.CausalOrder order ∧
      (∀ order', log.CausalOrder order' → order' = order) ∧
      ∀ log' : EventLog H, Reached E log' → (∀ e, e ∈ log' ↔ e ∈ log) →
        log'.eventsInCausalOrder = some order := by
  have hintact := hlog.intact
  obtain ⟨order, hreturned, horder⟩ := hintact.exists_causalOrder
  refine ⟨order, hreturned, horder, fun order' h' => ?_, fun log' hlog' hsame => ?_⟩
  · exact h'.eq horder hintact hintact fun _ => Iff.rfl
  · obtain ⟨order', hreturned', horder'⟩ := hlog'.intact.exists_causalOrder
    rw [hreturned', horder.eq horder' hintact hlog'.intact hsame]

/-- The dialogue is replayed as it was held: bob's answer between alice's events. -/
theorem dialogue_causal_order :
    dialogue.eventsInCausalOrder.map (List.map fun e => e.content.payload) =
        some [utf8 "a", utf8 "b", utf8 "c"] ∧
      ∃ order, dialogue.eventsInCausalOrder = some order ∧ dialogue.CausalOrder order := by
  have hlen : dialogue.len = 3 := by decide +kernel
  have hreached : Reached dialogueScheme dialogue := ⟨by rw [hlen]; decide, dialogueCalls, rfl⟩
  obtain ⟨order, hreturned, horder, -⟩ := causal_order_canonical hreached
  exact ⟨by decide +kernel, order, hreturned, horder⟩

/-! ## Anti-entropy

Two replicas compare per-author heights, and the holder ships what the other one
lacks, in an order in which every event follows its links.

* `Transfer.admissible` — **no event of the list is refused**: when its turn comes, its links are held
  and its author's chain ends right before it. -/

open Lib.Runs

/-! ## The rounds -/

def seqRange (lo hi : UInt64) : List UInt64 :=
  (List.range' lo.toNat (hi.toNat - lo.toNat)).map UInt64.ofNat

structure LogDigest where
  heights : ExtTreeMap Author UInt64

def LogDigest.height (d : LogDigest) (author : Author) : UInt64 := d.heights.getD author 0

def digest (log : EventLog H) : LogDigest := ⟨log.height⟩

/-- The ids a peer lacks: every chain's tail beyond the advertised height. -/
def missingIds (log : EventLog H) (d : LogDigest) : ExtTreeSet EventId :=
  ExtTreeSet.ofList (log.height.toList.flatMap fun e =>
    (seqRange (d.height e.1) e.2).filterMap fun seq => log.bySeq[(e.1, seq)]?)

/-- Emit an event after the missing events it links to, `prev` first. -/
def emitInCausalOrder (log : EventLog H) (missing : ExtTreeSet EventId) :
    ℕ → EventId → Walk EventId Event → Option (Walk EventId Event) :=
  postOrder log.events fun e =>
    (e.content.prev.toList ++ e.content.parents.toList).filter fun id => missing.contains id

/-- The events a peer with this digest lacks, in causal order. -/
def eventsMissingFrom (log : EventLog H) (d : LogDigest) : Option (List Event) :=
  ((log.missingIds d).toList.foldlM
    (fun w id => log.emitInCausalOrder (log.missingIds d) log.len id w) Walk.start).map Walk.ordered

/-- Ingest one transferred event, whatever comes of it. -/
def receive (E : Ed25519) (log : EventLog H) (event : Event) : EventLog H := (log.ingest E event).1

def syncFrom (E : Ed25519) (log sender : EventLog H) : Option (EventLog H × ℕ) :=
  (sender.eventsMissingFrom log.digest).map fun wanted =>
    (exec (receive E) log wanted, (exec (receive E) log wanted).len - log.len)

/-- Pull in both directions until neither side gets anything, at most `rounds`
times. -/
def reconcileLoop (E : Ed25519) :
    ℕ → EventLog H → EventLog H → ℕ → Option (EventLog H × EventLog H × ℕ)
  | 0, _, _, _ => none
  | rounds + 1, a, b, transferred =>
    (a.syncFrom E b).bind fun pa =>
      (b.syncFrom E pa.1).bind fun pb =>
        if pa.2 = 0 ∧ pb.2 = 0 then some (pa.1, pb.1, transferred + (pa.2 + pb.2))
        else reconcileLoop E rounds pa.1 pb.1 (transferred + (pa.2 + pb.2))

def reconcile (E : Ed25519) (rounds : ℕ) (a b : EventLog H) :
    Option (EventLog H × EventLog H × ℕ) := reconcileLoop E rounds a b 0

/-! ## What is missing -/

theorem mem_seqRange {lo hi n : UInt64} : n ∈ seqRange lo hi ↔ lo ≤ n ∧ n < hi := by
  rw [seqRange, List.mem_map, UInt64.le_iff_toNat_le, UInt64.lt_iff_toNat_lt]
  simp only [List.mem_range'_1]
  constructor
  · rintro ⟨m, hm, rfl⟩
    have hsize : m < 2 ^ 64 := by
      have := hi.toNat_lt
      omega
    rw [UInt64.toNat_ofNat_of_lt' hsize]
    omega
  · intro hn
    exact ⟨n.toNat, by omega, UInt64.ofNat_toNat⟩

theorem mem_missingIds (h : Intact E log) (d : LogDigest) {id : EventId} :
    id ∈ log.missingIds d ↔ log.HoldsAt id fun e => d.height e.content.author ≤ e.content.seq := by
  rw [missingIds, ExtTreeSet.mem_ofList, List.contains_iff_mem, List.mem_flatMap]
  constructor
  · rintro ⟨⟨a, n⟩, -, hid⟩
    obtain ⟨seq, hseq, hidx⟩ := List.mem_filterMap.1 hid
    obtain ⟨e, he, heid, rfl, rfl⟩ := (h.index_held _ _ _).1 hidx
    exact ⟨e, he, heid, (mem_seqRange.1 hseq).1⟩
  · rintro ⟨e, he, rfl, hle⟩
    have hlt := h.seq_lt he
    -- an author with an event has a height on record
    obtain ⟨n, hn⟩ : ∃ n, log.height[e.content.author]? = some n := by
      rw [← Lib.TreeMap.mem_iff_exists_getElem?]
      by_contra hnone
      rw [chainHeight, ExtTreeMap.getD_eq_fallback hnone] at hlt
      exact absurd hlt UInt64.not_lt_zero
    rw [chainHeight, ExtTreeMap.getD_eq_getD_getElem?, hn, Option.getD_some] at hlt
    refine ⟨(e.content.author, n), ExtTreeMap.mem_toList_iff_getElem?_eq_some.2 hn,
      List.mem_filterMap.2 ⟨e.content.seq, mem_seqRange.2 ⟨hle, hlt⟩, ?_⟩⟩
    exact (h.index_held _ _ _).2 ⟨e, he, rfl, rfl, rfl⟩

theorem mem_filter_links {missing : ExtTreeSet EventId} {e : Event} {id : EventId} :
    id ∈ (e.content.prev.toList ++ e.content.parents.toList).filter
        (fun id => missing.contains id) ↔ id ∈ e.content.links ∧ id ∈ missing := by
  rw [List.mem_filter, List.mem_append, Option.mem_toList, ExtTreeSet.mem_toList,
    ← EventContent.mem_links, ExtTreeSet.contains_iff_mem]

theorem descends_missing (h : Intact E log) (d : LogDigest) {rank : EventId → ℕ}
    (hrank : ∀ e ∈ log, ∀ id ∈ e.content.links, rank id < rank (e.id H)) :
    Descends log.events (fun e => (e.content.prev.toList ++ e.content.parents.toList).filter
      fun id => (log.missingIds d).contains id) {id | id ∈ (log.missingIds d).toList} rank := by
  constructor
  · intro id hid
    obtain ⟨e, he, rfl, -⟩ := (mem_missingIds h d).1 (ExtTreeSet.mem_toList.1 hid)
    exact ⟨e, he⟩
  · intro id _ e he id' hid'
    obtain ⟨hlink, hmissing⟩ := mem_filter_links.1 hid'
    obtain ⟨he, rfl⟩ := h.mem_of_getElem? he
    exact ⟨ExtTreeSet.mem_toList.2 hmissing, hrank e he id' hlink⟩

/-- **The transfer is in causal order.** -/
theorem eventsMissingFrom_spec (h : Intact E log) (d : LogDigest) :
    ∃ wanted, log.eventsMissingFrom d = some wanted ∧
      (∀ e, e ∈ wanted ↔ e ∈ log ∧ d.height e.content.author ≤ e.content.seq) ∧ wanted.Nodup ∧
      ∀ p e, p ++ [e] <+: wanted → ∀ e' ∈ wanted, e'.id H ∈ e.content.links → e' ∈ p := by
  obtain ⟨rank, hrank⟩ := h.ranked
  have hdepth : ∀ id ∈ (log.missingIds d).toList, rank id < log.len := by
    intro id hid
    obtain ⟨e, he, rfl, -⟩ := (mem_missingIds h d).1 (ExtTreeSet.mem_toList.1 hid)
    exact (hrank e he).1
  obtain ⟨w, hrun, hw, hmem⟩ :=
    exists_walk (descends_missing h d fun e he => (hrank e he).2) h.keyed hdepth
  have hmem' : ∀ e, e ∈ w.ordered ↔ e ∈ log ∧ d.height e.content.author ≤ e.content.seq := by
    intro e
    rw [hmem, ExtTreeSet.mem_toList, mem_missingIds h d]
    constructor
    · rintro ⟨⟨e', he', hid, hle⟩, he⟩
      rw [eq_of_id_eq he' he hid] at hle
      exact ⟨he, hle⟩
    · rintro ⟨he, hle⟩
      exact ⟨⟨e, he, rfl, hle⟩, he⟩
  refine ⟨w.ordered, ?_, hmem', hw.nodup.of_map, ?_⟩
  · rw [eventsMissingFrom]
    simp only [emitInCausalOrder, hrun, Option.map_some]
  · intro p e hp e' he' hlink
    obtain ⟨hlog, hbeyond⟩ := (hmem' e').1 he'
    have hmissing := (mem_missingIds h d).2 ⟨e', hlog, rfl, hbeyond⟩
    have hid := hw.sorted p e hp (e'.id H) (mem_filter_links.2 ⟨hlink, hmissing⟩)
    obtain ⟨e'', he'', heq⟩ := List.mem_map.1 hid
    have hin : e'' ∈ w.ordered := hp.subset (List.mem_append_left _ he'')
    rwa [← eq_of_id_eq ((hmem' e'').1 hin).1 hlog heq]

/-! ## Receiving the transfer -/

def Compatible (a b : EventLog H) : Prop :=
  ∀ e ∈ a, ∀ e' ∈ b, e.content.author = e'.content.author → e.content.seq = e'.content.seq → e = e'

variable {a : EventLog H} {b : EventLog H}

theorem Compatible.symm (h : Compatible a b) : Compatible b a :=
  fun e he e' he' hauthor hseq => (h e' he' e he hauthor.symm hseq.symm).symm

theorem Compatible.not_mem_iff (ha : Intact E a) (h : Compatible a b) {e : Event} (he : e ∈ b) :
    e ∉ a ↔ a.chainHeight e.content.author ≤ e.content.seq := by
  rw [← UInt64.not_lt, not_iff_not]
  refine ⟨ha.seq_lt, fun hlt => ?_⟩
  obtain ⟨e', he', hauthor, hseq⟩ := ha.exists_at_iff.2 hlt
  rwa [← h e' he' e he hauthor hseq]

/-- A part of what `b` has beyond `a` has been received: the state between two
events of a transfer. -/
structure Received (E : Ed25519) (a b : EventLog H) (p : List Event) (log : EventLog H) : Prop where
  intact : Intact E log
  mem_iff : ∀ e, e ∈ log ↔ e ∈ a ∨ e ∈ p
  subset : ∀ e ∈ p, e ∈ b
  len_eq : log.len = a.len + p.length

section

variable {a b log : EventLog H} {p : List Event} {e : Event}

theorem Received.free (h : Received E a b p log) (hb : Intact E b) (hab : Compatible a b)
    (he : e ∈ b) (hnew : e ∉ a) (hlater : e ∉ p) {e' : Event} (he' : e' ∈ log) :
    ¬ (e'.content.author = e.content.author ∧ e'.content.seq = e.content.seq) := by
  rintro ⟨hauthor, hseq⟩
  rcases (h.mem_iff e').1 he' with hea | hep
  · exact hnew (hab e' hea e he hauthor hseq ▸ hea)
  · exact hlater (hb.unique (h.subset e' hep) he hauthor hseq ▸ hep)

theorem Received.chainHeight_le (h : Received E a b p log) (hb : Intact E b) (hab : Compatible a b)
    (he : e ∈ b) (hnew : e ∉ a) (hlater : e ∉ p) :
    log.chainHeight e.content.author ≤ e.content.seq := by
  rw [← UInt64.not_lt]
  intro hlt
  obtain ⟨e', he', hpos⟩ := h.intact.exists_at_iff.2 hlt
  exact h.free hb hab he hnew hlater he' hpos

theorem eq_of_pred_lt {n s : UInt64} (hs : s ≠ 0) (hlt : s - 1 < n) (hle : n ≤ s) : n = s := by
  have hpos : 1 ≤ s.toNat := UInt64.pos_iff_ne_zero.2 hs
  rw [UInt64.lt_iff_toNat_lt,
    UInt64.toNat_sub_of_le _ _ ((UInt64.le_iff_toNat_le (a := 1)).2 hpos)] at hlt
  rw [UInt64.le_iff_toNat_le] at hle
  have hone : (1 : UInt64).toNat = 1 := rfl
  exact UInt64.toNat_inj.1 (by omega)

/-- **No event of a transfer is refused.** -/
theorem Received.admissible (h : Received E a b p log) (hH : CollisionFree H) (hb : Intact E b)
    (hab : Compatible a b) (he : e ∈ b) (hnew : e ∉ a) (hlater : e ∉ p)
    (hlinks : ∀ e' ∈ b, e'.id H ∈ e.content.links → e' ∈ log) : Admissible E log e := by
  have hle := h.chainHeight_le hb hab he hnew hlater
  constructor
  case supported => exact hb.supported e he
  case fresh =>
    intro hmem
    obtain ⟨e', he'⟩ := Lib.TreeMap.mem_iff_exists_getElem?.1 hmem
    obtain ⟨he', hid⟩ := h.intact.mem_of_getElem? he'
    exact h.free hb hab he hnew hlater he' (EventContent.position_eq_of_id_eq hH hid)
  case authentic => exact hb.authentic e he
  case chains =>
    cases hprev : e.content.prev with
    | none =>
      have hseq := (hb.prev_none_iff e he).1 hprev
      rw [hseq] at hle
      exact .genesis hprev hseq (UInt64.le_zero_iff.1 hle)
    | some id =>
      have hseq : e.content.seq ≠ 0 := fun h0 => by
        rw [(hb.prev_none_iff e he).2 h0] at hprev
        cases hprev
      obtain ⟨q, hq, rfl, hauthor, hqseq⟩ := hb.prev_held e he id hprev
      have hq' := hlinks q hq (EventContent.mem_links.2 (.inl hprev))
      -- the chain reaches up to the predecessor and no further
      have hlt := h.intact.seq_lt hq'
      rw [hauthor, hqseq] at hlt
      have hheight := eq_of_pred_lt hseq hlt hle
      refine .next hprev hseq (h.intact.tip_iff.2 ?_) hq' hauthor hqseq
      rw [hheight]
      exact ⟨hseq, q, hq', rfl, hauthor, hqseq⟩
  case parents =>
    intro id hid
    obtain ⟨q, hq, rfl, hauthor⟩ := hb.parents_held e he id hid
    exact ⟨q, hlinks q hq (EventContent.mem_links.2 (.inr hid)), hauthor⟩

theorem Received.receive (h : Received E a b p log) (hb : Intact E b) (he : e ∈ b)
    (hadm : Admissible E log e) : Received E a b (p ++ [e]) (log.receive E e) := by
  have hfits : e.content.seq.toNat + 1 < 2 ^ 64 := by
    have hlt := UInt64.lt_iff_toNat_lt.1 (hb.seq_lt he)
    have hsize := (b.chainHeight e.content.author).toNat_lt
    omega
  rw [EventLog.receive, ingest_of_admissible hadm]
  refine ⟨h.intact.record hadm hfits, fun e' => ?_, fun e' he' => ?_, ?_⟩
  · rw [mem_record hadm.fresh, h.mem_iff, List.mem_append, List.mem_singleton, or_comm, or_assoc]
  · rcases List.mem_append.1 he' with he' | he'
    · exact h.subset e' he'
    · rwa [List.mem_singleton.1 he']
  · rw [len_record hadm.fresh, h.len_eq, List.length_append, List.length_singleton, Nat.add_assoc]

end

/-- A transfer of `b`'s events to `a`: all those that `a` lacks, each once, and each
after those it links to. -/
structure Transfer (a b : EventLog H) (wanted : List Event) : Prop where
  mem_iff : ∀ e, e ∈ wanted ↔ e ∈ b ∧ e ∉ a
  nodup : wanted.Nodup
  sorted : ∀ p e, p ++ [e] <+: wanted → ∀ e' ∈ wanted, e'.id H ∈ e.content.links → e' ∈ p

theorem exists_transfer (ha : Intact E a) (hb : Intact E b) (hab : Compatible a b) :
    ∃ wanted, b.eventsMissingFrom a.digest = some wanted ∧ Transfer a b wanted := by
  obtain ⟨wanted, hrun, hmem, hnodup, hsorted⟩ := eventsMissingFrom_spec hb a.digest
  refine ⟨wanted, hrun, fun e => ?_, hnodup, hsorted⟩
  rw [hmem]
  exact and_congr_right fun he => (hab.not_mem_iff ha he).symm

section

variable {a b : EventLog H} {wanted : List Event}

theorem Transfer.admissible (h : Transfer a b wanted) (hH : CollisionFree H) (hb : Intact E b)
    (hab : Compatible a b) {p : List Event} {e : Event} (hp : p ++ [e] <+: wanted)
    {log : EventLog H} (hlog : Received E a b p log) : Admissible E log e := by
  have hwanted : e ∈ wanted := hp.subset (List.mem_append_right p List.mem_cons_self)
  have hlater : e ∉ p := by
    have hnodup := h.nodup.sublist hp.sublist
    rw [← List.concat_eq_append, List.nodup_concat] at hnodup
    exact hnodup.1
  refine hlog.admissible hH hb hab ((h.mem_iff e).1 hwanted).1 ((h.mem_iff e).1 hwanted).2 hlater ?_
  intro e' he' hlink
  rw [hlog.mem_iff]
  by_cases hea : e' ∈ a
  · exact .inl hea
  · exact .inr (h.sorted p e hp e' ((h.mem_iff e').2 ⟨he', hea⟩) hlink)

theorem Transfer.received (h : Transfer a b wanted) (hH : CollisionFree H) (ha : Intact E a)
    (hb : Intact E b) (hab : Compatible a b) {p : List Event} (hp : p <+: wanted) :
    Received E a b p (exec (EventLog.receive E) a p) := by
  induction p using List.reverseRecOn with
  | nil => exact ⟨ha, by simp, by simp, rfl⟩
  | append_singleton p e ih =>
    have hlog := ih ((List.prefix_append p [e]).trans hp)
    have he : e ∈ wanted := hp.subset (List.mem_append_right p List.mem_cons_self)
    rw [exec_concat]
    exact hlog.receive hb ((h.mem_iff e).1 he).1 (h.admissible hH hb hab hp hlog)

theorem Transfer.length_eq (h : Transfer a b wanted) :
    wanted.length = {e | e ∈ b ∧ e ∉ a}.ncard := by
  have hset : {e | e ∈ b ∧ e ∉ a} = (wanted.toFinset : Set Event) := by
    ext e
    rw [Finset.mem_coe, List.mem_toFinset, h.mem_iff]
    rfl
  rw [hset, Set.ncard_coe_finset, List.toFinset_card_of_nodup h.nodup]

end

/-! ## Whole rounds -/

def HoldsUnion (a b log : EventLog H) : Prop := ∀ e, e ∈ log ↔ e ∈ a ∨ e ∈ b

/-- **One round** leaves an intact log with exactly the union, and counts what the
sender held and the receiver did not. -/
theorem syncFrom_spec (hH : CollisionFree H) (ha : Intact E a) (hb : Intact E b)
    (hab : Compatible a b) :
    ∃ a', a.syncFrom E b = some (a', {e | e ∈ b ∧ e ∉ a}.ncard) ∧ Intact E a' ∧
      HoldsUnion a b a' := by
  obtain ⟨wanted, hrun, htransfer⟩ := exists_transfer ha hb hab
  have hlog := htransfer.received hH ha hb hab (List.prefix_refl wanted)
  refine ⟨exec (receive E) a wanted, ?_, hlog.intact, fun e => ?_⟩
  · rw [syncFrom, hrun, Option.map_some, hlog.len_eq, Nat.add_sub_cancel_left,
      htransfer.length_eq]
  · rw [hlog.mem_iff, htransfer.mem_iff]
    by_cases hea : e ∈ a <;> simp [hea]

theorem HoldsUnion.compatible (h : HoldsUnion a b log) (hb : Intact E b) (hab : Compatible a b) :
    Compatible b log := by
  intro e he e' he' hauthor hseq
  rcases (h e').1 he' with hea | heb
  · exact hab.symm e he e' hea hauthor hseq
  · exact hb.unique he heb hauthor hseq

variable {log' : EventLog H}

theorem HoldsUnion.compatible_of_both (h : HoldsUnion a b log) (h' : HoldsUnion a b log')
    (hlog : Intact E log) : Compatible log log' := by
  intro e he e' he' hauthor hseq
  exact hlog.unique he ((h e').2 ((h' e').1 he')) hauthor hseq

theorem HoldsUnion.ncard_eq_zero (h : HoldsUnion a b log) (h' : HoldsUnion a b log') :
    {e | e ∈ log' ∧ e ∉ log}.ncard = 0 := by
  have hempty : {e | e ∈ log' ∧ e ∉ log} = ∅ := by
    ext e
    simp only [Set.mem_ofPred_eq, Set.mem_empty_iff_false, h e, h' e, and_not_self]
  rw [hempty, Set.ncard_empty]

theorem HoldsUnion.sdiff_eq (h : HoldsUnion a b log) :
    {e | e ∈ log ∧ e ∉ b} = {e | e ∈ a ∧ e ∉ b} := by
  ext e
  simp only [Set.mem_ofPred_eq, h e, or_and_right, and_not_self, or_false]

theorem reconcileLoop_of_union (hH : CollisionFree H) (hlog : Intact E log) (hlog' : Intact E log')
    (h : HoldsUnion a b log) (h' : HoldsUnion a b log') :
    ∃ r r', (∀ rounds transferred,
      reconcileLoop E (rounds + 1) log log' transferred = some (r, r', transferred)) ∧
      HoldsUnion a b r ∧ HoldsUnion a b r' := by
  obtain ⟨r, hrun, hr, hunion⟩ := syncFrom_spec hH hlog hlog' (h.compatible_of_both h' hlog)
  have hru : HoldsUnion a b r := fun e => by rw [hunion e, h e, h' e, or_self]
  obtain ⟨r', hrun', hr', hunion'⟩ := syncFrom_spec hH hlog' hr (h'.compatible_of_both hru hlog')
  have hru' : HoldsUnion a b r' := fun e => by rw [hunion' e, hru e, h' e, or_self]
  rw [h.ncard_eq_zero h'] at hrun
  rw [h'.ncard_eq_zero hru] at hrun'
  exact ⟨r, r', fun rounds transferred => by simp [reconcileLoop, hrun, hrun'], hru, hru'⟩

/-- **Reconciling stops** after at most two rounds, with the union on both sides. -/
theorem reconcile_spec (hH : CollisionFree H) (ha : Intact E a) (hb : Intact E b)
    (hab : Compatible a b) :
    ∃ a' b', (∀ rounds, reconcile E (rounds + 2) a b =
      some (a', b', {e | e ∈ b ∧ e ∉ a}.ncard + {e | e ∈ a ∧ e ∉ b}.ncard)) ∧
      HoldsUnion a b a' ∧ HoldsUnion a b b' := by
  obtain ⟨a₁, hrun, ha₁, hunion⟩ := syncFrom_spec hH ha hb hab
  obtain ⟨b₁, hrun', hb₁, hunion'⟩ := syncFrom_spec hH hb ha₁ (hunion.compatible hb hab)
  rw [hunion.sdiff_eq] at hrun'
  have hunion₁ : HoldsUnion a b b₁ := fun e => by
    rw [hunion' e, hunion e, or_left_comm, or_self]
  by_cases hzero : {e | e ∈ b ∧ e ∉ a}.ncard = 0 ∧ {e | e ∈ a ∧ e ∉ b}.ncard = 0
  · refine ⟨a₁, b₁, fun rounds => ?_, hunion, hunion₁⟩
    rw [reconcile, reconcileLoop, hrun, Option.bind_some, hrun', Option.bind_some, if_pos hzero,
      Nat.zero_add]
  · obtain ⟨a₂, b₂, hlast, hunion₂⟩ := reconcileLoop_of_union hH ha₁ hb₁ hunion hunion₁
    refine ⟨a₂, b₂, fun rounds => ?_, hunion₂⟩
    rw [reconcile, reconcileLoop, hrun, Option.bind_some, hrun', Option.bind_some, if_neg hzero,
      hlast, Nat.zero_add]

/-- **Completeness of anti-entropy.** -/
theorem sync_complete {a b : EventLog H} (hH : CollisionFree H) (ha : Reached E a)
    (hb : Reached E b) (hab : Compatible a b) :
    (∃ wanted, b.eventsMissingFrom a.digest = some wanted ∧ ∀ p e, p ++ [e] <+: wanted →
      ((exec (receive E) a p).ingest E e).2 = .ok (e.id H)) ∧
    (∃ a', a.syncFrom E b = some (a', {e | e ∈ b ∧ e ∉ a}.ncard) ∧ HoldsUnion a b a') ∧
    ∃ a' b' n, (∀ rounds, reconcile E (rounds + 2) a b = some (a', b', n)) ∧ HoldsUnion a b a' ∧
      HoldsUnion a b b' := by
  refine ⟨?_, ?_, ?_⟩
  · obtain ⟨wanted, hrun, htransfer⟩ := exists_transfer ha.intact hb.intact hab
    refine ⟨wanted, hrun, fun p e hp => ?_⟩
    have hlog := htransfer.received hH ha.intact hb.intact hab
      ((List.prefix_append p [e]).trans hp)
    rw [ingest_of_admissible (htransfer.admissible hH hb.intact hab hp hlog)]
  · obtain ⟨a', hrun, -, hunion⟩ := syncFrom_spec hH ha.intact hb.intact hab
    exact ⟨a', hrun, hunion⟩
  · obtain ⟨a', b', hrun, hunion⟩ := reconcile_spec hH ha.intact hb.intact hab
    exact ⟨a', b', _, hrun, hunion⟩

/-- A replica that has seen only alice's first event. -/
def gapped : EventLog dialogueDigest :=
  exec (step dialogueScheme) new [.append alice (utf8 "a")]

theorem gapped_subset : ∀ e ∈ gapped, e ∈ dialogue := by
  have hall : gapped.events.toList.all (fun e => dialogue.events[e.1]? = some e.2) = true := by
    decide +kernel
  intro e he
  have hlist := ExtTreeMap.mem_toList_iff_getElem?_eq_some.2 (mem_def.1 he)
  exact mem_def.2 (of_decide_eq_true (List.all_eq_true.1 hall _ hlist))

/-- The gap is filled in one round: the replica pulls bob's answer and alice's reply. -/
theorem gapped_sync_complete :
    gapped.len = 1 ∧ dialogue.len = 3 ∧
      ∃ a', gapped.syncFrom dialogueScheme dialogue =
        some (a', {e | e ∈ dialogue ∧ e ∉ gapped}.ncard) ∧ HoldsUnion gapped dialogue a' := by
  have hlen : gapped.len = 1 := by decide +kernel
  have hlen' : dialogue.len = 3 := by decide +kernel
  have hgapped : Reached dialogueScheme gapped := ⟨by rw [hlen]; decide, _, rfl⟩
  have hdialogue : Reached dialogueScheme dialogue := ⟨by rw [hlen']; decide, _, rfl⟩
  refine ⟨hlen, hlen', (sync_complete ?_ hgapped hdialogue ?_).2.1⟩
  · exact tableDigest_collisionFree (by decide +kernel) (by decide +kernel)
  · exact fun e he e' he' => hdialogue.intact.unique (gapped_subset e he) he'

/-! ## A network of replicas -/

section

variable {ι : Type} [DecidableEq ι] {s t : ι → EventLog H}

/-- Replica `p.1` pulls from replica `p.2`. -/
def pull (E : Ed25519) (s : ι → EventLog H) (p : ι × ι) : ι → EventLog H :=
  Function.update s p.1 (((s p.1).syncFrom E (s p.2)).elim (s p.1) Prod.fst)

/-- The replicas are intact and hold only what some replica of `s` holds. -/
def Spread (E : Ed25519) (s t : ι → EventLog H) : Prop :=
  ∀ i, Intact E (t i) ∧ ∀ e ∈ t i, ∃ k, e ∈ s k

variable (hH : CollisionFree H) (hfork : ∀ i j, Compatible (s i) (s j))

include hH hfork

theorem spread_pull (h : Spread E s t) (p : ι × ι) :
    Spread E s (pull E t p) ∧ ∀ i e, e ∈ pull E t p i ↔ e ∈ t i ∨ i = p.1 ∧ e ∈ t p.2 := by
  have hcompatible : Compatible (t p.1) (t p.2) := by
    intro e he e' he'
    obtain ⟨k, hk⟩ := (h p.1).2 e he
    obtain ⟨k', hk'⟩ := (h p.2).2 e' he'
    exact hfork k k' e hk e' hk'
  obtain ⟨log, hrun, hlog, hunion⟩ := syncFrom_spec hH (h p.1).1 (h p.2).1 hcompatible
  rw [pull, hrun, Option.elim_some, Spread, ← forall_and]
  intro i
  by_cases hi : i = p.1
  · rw [hi, Function.update_self]
    refine ⟨⟨hlog, fun e he => ?_⟩, fun e => by simp [hunion e]⟩
    exact ((hunion e).1 he).elim ((h p.1).2 e) ((h p.2).2 e)
  · rw [Function.update_of_ne hi]
    exact ⟨h i, by simp [hi]⟩

theorem spread_exec_pull (h : Spread E s s) (q : List (ι × ι)) :
    Spread E s (exec (pull E) s q) ∧
      ∀ i k e, i = k ∨ (i, k) ∈ q → e ∈ s k → e ∈ exec (pull E) s q i := by
  induction q using List.reverseRecOn with
  | nil => exact ⟨h, by simp +contextual⟩
  | append_singleton q p ih =>
    obtain ⟨hnext, hmem⟩ := spread_pull hH hfork ih.1 p
    rw [exec_concat]
    refine ⟨hnext, fun i k e hk he => (hmem i e).2 ?_⟩
    rw [List.mem_append, List.mem_singleton, ← or_assoc] at hk
    rcases hk with hk | rfl
    · exact .inl (ih.2 i k e hk he)
    · exact .inr ⟨rfl, ih.2 k k e (.inl rfl) he⟩

/-- **The replicas converge**: in any schedule, those that pulled from all others replay the same
events in the same order. -/
theorem replicas_converge (hs : ∀ i, Reached E (s i)) {q : List (ι × ι)} {i j : ι}
    (hi : ∀ k, i = k ∨ (i, k) ∈ q) (hj : ∀ k, j = k ∨ (j, k) ∈ q) :
    ∃ order, (∀ e, e ∈ order ↔ ∃ k, e ∈ s k) ∧
      (exec (pull E) s q i).eventsInCausalOrder = some order ∧
      (exec (pull E) s q j).eventsInCausalOrder = some order := by
  obtain ⟨hlast, hall⟩ :=
    spread_exec_pull hH hfork (fun i => ⟨(hs i).intact, fun e he => ⟨i, he⟩⟩) q
  have hmem : ∀ i, (∀ k, i = k ∨ (i, k) ∈ q) → ∀ e, e ∈ exec (pull E) s q i ↔ ∃ k, e ∈ s k :=
    fun i hi e => ⟨(hlast i).2 e, fun ⟨k, hk⟩ => hall i k e (hi k) hk⟩
  obtain ⟨order, hreturned, horder⟩ := (hlast i).1.exists_causalOrder
  obtain ⟨order', hreturned', horder'⟩ := (hlast j).1.exists_causalOrder
  refine ⟨order, fun e => (horder.mem_iff e).trans (hmem i hi e), hreturned, ?_⟩
  rw [hreturned', horder.eq horder' (hlast i).1 (hlast j).1 fun e =>
    (hmem j hj e).trans (hmem i hi e).symm]

end

theorem gapped_replica_converges :
    ∃ order, (∀ e, e ∈ order ↔ ∃ k, e ∈ cond k dialogue gapped) ∧
      ∀ i, (exec (pull dialogueScheme) (fun k => cond k dialogue gapped)
        [(false, true), (true, false)] i).eventsInCausalOrder = some order := by
  have hdialogue : Reached dialogueScheme dialogue := ⟨by decide +kernel, _, rfl⟩
  have hgapped : Reached dialogueScheme gapped := ⟨by decide +kernel, _, rfl⟩
  have hsub : ∀ k, ∀ e ∈ cond k dialogue gapped, e ∈ dialogue :=
    Bool.forall_bool.2 ⟨gapped_subset, fun _ => id⟩
  obtain ⟨order, hmem, hruns⟩ := replicas_converge (s := fun k => cond k dialogue gapped)
    (tableDigest_collisionFree (by decide +kernel) (by decide +kernel))
    (fun i j e he e' he' => hdialogue.intact.unique (hsub i e he) (hsub j e' he'))
    (Bool.forall_bool.2 ⟨hgapped, hdialogue⟩) (q := [(false, true), (true, false)])
    (i := false) (j := true) (by decide) (by decide)
  exact ⟨order, hmem, Bool.forall_bool.2 hruns⟩

end Pillar.EventLog
