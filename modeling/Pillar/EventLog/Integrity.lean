import Pillar.EventLog.Log

/-!
# Integrity of the event DAG

What holds of every log that was filled by `append` and `ingest`, whatever events
were offered to it.

* `Intact.record` — **one admission keeps the invariant**; acyclicity rides along
  as a rank, the order in which events came in.
-/

namespace Pillar.EventLog

open Std StreamDb Lib.Compare Lib.LinkedMap Lib.Runs

variable {H : Bytes → Bytes} {E : Ed25519}

/-! ## Held events -/

instance : Membership Event (EventLog H) := ⟨fun log e => log.events[e.id H]? = some e⟩

variable {log : EventLog H}

theorem mem_def {e : Event} : e ∈ log ↔ log.events[e.id H]? = some e := Iff.rfl
theorem id_mem_of_mem {e : Event} (h : e ∈ log) : e.id H ∈ log.events := by
  rw [ExtTreeMap.mem_iff_isSome_getElem?, mem_def.1 h]
  rfl

theorem eq_of_id_eq {e e' : Event} (he : e ∈ log) (he' : e' ∈ log) (h : e.id H = e'.id H) :
    e = e' := by
  rw [mem_def, h, mem_def.1 he'] at he
  exact (Option.some.inj he).symm

/-- The event with the address `id` is held and satisfies `P`. -/
def HoldsAt (log : EventLog H) (id : EventId) (P : Event → Prop) : Prop :=
  ∃ e ∈ log, e.id H = id ∧ P e

structure Intact (E : Ed25519) (log : EventLog H) : Prop where
  keyed : ∀ (id : EventId) (e : Event), log.events[id]? = some e → e.id H = id
  authentic : ∀ e ∈ log, e.isAuthentic H E = true
  /-- Every envelope has a version this build reads. -/
  supported : ∀ e ∈ log, e.schemaVersion.checkSupported Event.minSchemaVersion
    Event.currentSchemaVersion = .ok ()
  /-- Exactly the genesis events have no `prev` link. -/
  prev_none_iff : ∀ e ∈ log, e.content.prev = none ↔ e.content.seq = 0
  /-- A `prev` link is the held event of the same author, one position earlier. -/
  prev_held : ∀ e ∈ log, ∀ id, e.content.prev = some id → log.HoldsAt id fun p =>
    p.content.author = e.content.author ∧ p.content.seq = e.content.seq - 1
  /-- Every parent is a held event of a different author. -/
  parents_held : ∀ e ∈ log, ∀ id ∈ e.content.parents, log.HoldsAt id fun p =>
    p.content.author ≠ e.content.author
  /-- The index has exactly the positions below every author's height. -/
  indexed : ∀ a n, (a, n) ∈ log.bySeq ↔ n < log.chainHeight a
  /-- The index leads to the event held at that position. -/
  index_held : ∀ a n id, log.bySeq[(a, n)]? = some id ↔ log.HoldsAt id fun e =>
    e.content.author = a ∧ e.content.seq = n
  /-- The tip is the indexed event at the height's predecessor. -/
  tip_eq : ∀ a : Author, log.tip[a]? =
    if log.chainHeight a = 0 then none else log.bySeq[(a, log.chainHeight a - 1)]?
  /-- The store holds the bytes of exactly the held events. -/
  stored : ∀ id, log.store.contains id = log.events.contains id
  height_le : ∀ a, (log.chainHeight a).toNat ≤ log.len
  ranked : ∃ rank : EventId → ℕ, ∀ e ∈ log, rank (e.id H) < log.len ∧
    ∀ id ∈ e.content.links, rank id < rank (e.id H)

theorem Intact.new : Intact E (new : EventLog H) := by
  have hnone : ∀ e, e ∉ (EventLog.new : EventLog H) := by simp [mem_def, EventLog.new]
  constructor
  case keyed => simp [EventLog.new]
  case authentic => exact fun e he => absurd he (hnone e)
  case supported => exact fun e he => absurd he (hnone e)
  case prev_none_iff => exact fun e he => absurd he (hnone e)
  case prev_held => exact fun e he => absurd he (hnone e)
  case parents_held => exact fun e he => absurd he (hnone e)
  case indexed => simp [EventLog.new, chainHeight]
  case index_held =>
    intro a n id
    refine ⟨by simp [EventLog.new], ?_⟩
    rintro ⟨e, he, -⟩
    exact absurd he (hnone e)
  case tip_eq => simp [EventLog.new, chainHeight]
  case stored => simp [EventLog.new, OpLog.contains, OpLog.new, OpMap.contains, OpMap.empty]
  case height_le => simp [EventLog.new, chainHeight]
  case ranked => exact ⟨fun _ => 0, fun e he => absurd he (hnone e)⟩

namespace Intact

variable {log : EventLog H}

variable {e : Event}

section

variable (h : Intact E log)

include h

theorem mem_of_getElem? {id : EventId} (he : log.events[id]? = some e) : e ∈ log ∧ e.id H = id := by
  have hid := h.keyed id e he
  exact ⟨by rw [mem_def, hid]; exact he, hid⟩

theorem links_held (he : e ∈ log) {id : EventId} (hid : id ∈ e.content.links) :
    ∃ p ∈ log, p.id H = id := by
  rcases EventContent.mem_links.1 hid with hprev | hparent
  · obtain ⟨p, hp, hpid, -⟩ := h.prev_held e he id hprev
    exact ⟨p, hp, hpid⟩
  · obtain ⟨p, hp, hpid, -⟩ := h.parents_held e he id hparent
    exact ⟨p, hp, hpid⟩

/-- **No forks.** -/
theorem unique {e' : Event} (he : e ∈ log) (he' : e' ∈ log)
    (hauthor : e.content.author = e'.content.author) (hseq : e.content.seq = e'.content.seq) :
    e = e' := by
  have hidx := (h.index_held _ _ _).2 ⟨e, he, rfl, hauthor, hseq⟩
  have hidx' := (h.index_held _ _ _).2 ⟨e', he', rfl, rfl, rfl⟩
  rw [hidx] at hidx'
  exact eq_of_id_eq he he' (Option.some.inj hidx')

theorem exists_at_iff {a : Author} {n : UInt64} :
    (∃ e ∈ log, e.content.author = a ∧ e.content.seq = n) ↔ n < log.chainHeight a := by
  rw [← h.indexed, Lib.TreeMap.mem_iff_exists_getElem?]
  simp only [h.index_held]
  constructor
  · rintro ⟨e, he, hpos⟩
    exact ⟨e.id H, e, he, rfl, hpos⟩
  · rintro ⟨id, e, he, -, hpos⟩
    exact ⟨e, he, hpos⟩

theorem seq_lt (he : e ∈ log) : e.content.seq < log.chainHeight e.content.author :=
  h.exists_at_iff.1 ⟨e, he, rfl, rfl⟩

theorem tip_iff {a : Author} {id : EventId} :
    log.tip[a]? = some id ↔ log.chainHeight a ≠ 0 ∧ log.HoldsAt id fun e =>
      e.content.author = a ∧ e.content.seq = log.chainHeight a - 1 := by
  rw [h.tip_eq]
  split_ifs with h0
  · simp [h0]
  · rw [h.index_held]
    simp [h0]

theorem seq_eq_of_chains {c : EventContent} (hc : log.Chains c) :
    c.seq = log.chainHeight c.author := by
  cases hc with
  | genesis hprev hseq hheight => rw [hseq, hheight]
  | next hprev hseq htip hheld hauthor hpseq =>
    -- the tip is the event before the height, and the content follows it
    obtain ⟨-, e, he, heid, -, heseq⟩ := h.tip_iff.1 htip
    obtain ⟨hp, hpid⟩ := h.mem_of_getElem? hheld
    rw [eq_of_id_eq he hp (heid.trans hpid.symm)] at heseq
    exact (UInt64.sub_left_inj 1).1 (hpseq.symm.trans heseq)

end

end Intact

/-! ## One admission -/

section

variable {log : EventLog H} {e : Event}

theorem mem_record (hfresh : e.id H ∉ log.events) {e' : Event} :
    e' ∈ log.record e ↔ e' = e ∨ e' ∈ log := by
  rw [mem_def, record, ExtTreeMap.getElem?_insert]
  by_cases hid : e.id H = e'.id H
  · -- a held event has another id
    have hnot : e' ∉ log := fun he' => hfresh (hid ▸ id_mem_of_mem he')
    rw [if_pos (LawfulEqCmp.compare_eq_iff_eq.2 hid)]
    simp [hnot, eq_comm]
  · have hne : e' ≠ e := fun heq => hid (by rw [heq])
    rw [if_neg fun hc => hid (LawfulEqCmp.eq_of_compare hc)]
    simp [hne, mem_def]

theorem forall_mem_record (hfresh : e.id H ∉ log.events) {P : Event → Prop} :
    (∀ e' ∈ log.record e, P e') ↔ P e ∧ ∀ e' ∈ log, P e' := by
  simp [mem_record hfresh]

theorem len_record (hfresh : e.id H ∉ log.events) : (log.record e).len = log.len + 1 := by
  rw [len, record, ExtTreeMap.size_insert, if_neg (mt ExtTreeMap.contains_iff_mem.1 hfresh)]
  rfl

theorem chainHeight_record (a : Author) :
    (log.record e).chainHeight a =
      if e.content.author = a then e.content.seq + 1 else log.chainHeight a := by
  rw [chainHeight, record, ExtTreeMap.getD_insert]
  simp only [LawfulEqCmp.compare_eq_iff_eq]
  rfl

theorem tip_record (a : Author) :
    (log.record e).tip[a]? = if e.content.author = a then some (e.id H) else log.tip[a]? := by
  rw [record, ExtTreeMap.getElem?_insert]
  simp

theorem bySeq_record (pos : Author × UInt64) :
    (log.record e).bySeq[pos]? =
      if (e.content.author, e.content.seq) = pos then some (e.id H) else log.bySeq[pos]? := by
  rw [record, ExtTreeMap.getElem?_insert]
  simp

theorem HoldsAt.record (hfresh : e.id H ∉ log.events) {id : EventId} {P : Event → Prop}
    (h : log.HoldsAt id P) : (log.record e).HoldsAt id P := by
  obtain ⟨p, hp, hid, hP⟩ := h
  exact ⟨p, (mem_record hfresh).2 (.inr hp), hid, hP⟩

theorem lt_succ_iff {n s : UInt64} (hs : s.toNat + 1 < 2 ^ 64) : n < s + 1 ↔ n = s ∨ n < s := by
  rw [UInt64.lt_iff_toNat_lt, UInt64.lt_iff_toNat_lt, ← UInt64.toNat_inj, UInt64.toNat_add]
  have hone : (1 : UInt64).toNat = 1 := rfl
  rw [hone, Nat.mod_eq_of_lt hs]
  omega

theorem succ_ne_zero {s : UInt64} (hs : s.toNat + 1 < 2 ^ 64) : s + 1 ≠ 0 := by
  intro h
  have hlt : s < s + 1 := (lt_succ_iff hs).2 (.inl rfl)
  rw [h] at hlt
  exact absurd hlt UInt64.not_lt_zero

namespace Admissible

theorem links_held (h : Intact E log) (ha : Admissible E log e) {id : EventId}
    (hid : id ∈ e.content.links) : ∃ p ∈ log, p.id H = id := by
  rcases EventContent.mem_links.1 hid with hprev | hparent
  · cases ha.chains with
    | genesis hnone _ _ =>
      rw [hnone] at hprev
      cases hprev
    | next hsome _ _ hheld _ _ =>
      rw [hsome] at hprev
      exact Option.some.inj hprev ▸ ⟨_, h.mem_of_getElem? hheld⟩
  · obtain ⟨p, hp, -⟩ := ha.parents id hparent
    exact ⟨p, h.mem_of_getElem? hp⟩

theorem prev_none_iff (ha : Admissible E log e) : e.content.prev = none ↔ e.content.seq = 0 := by
  cases ha.chains with
  | genesis hprev hseq _ | next hprev hseq _ _ _ _ => simp [hprev, hseq]

theorem prev_held (h : Intact E log) (ha : Admissible E log e) {id : EventId}
    (hid : e.content.prev = some id) : log.HoldsAt id fun p =>
      p.content.author = e.content.author ∧ p.content.seq = e.content.seq - 1 := by
  cases ha.chains with
  | genesis hprev _ _ =>
    rw [hprev] at hid
    cases hid
  | next hprev _ _ hheld hauthor hpseq =>
    rw [hprev] at hid
    obtain ⟨hp, hpid⟩ := h.mem_of_getElem? hheld
    exact ⟨_, hp, hpid.trans (Option.some.inj hid), hauthor, hpseq⟩

theorem parents_held (h : Intact E log) (ha : Admissible E log e) {id : EventId}
    (hid : id ∈ e.content.parents) :
    log.HoldsAt id fun p => p.content.author ≠ e.content.author := by
  obtain ⟨p, hp, hauthor⟩ := ha.parents id hid
  obtain ⟨hp, hpid⟩ := h.mem_of_getElem? hp
  exact ⟨p, hp, hpid, hauthor⟩

end Admissible

section

variable (h : Intact E log) (ha : Admissible E log e)

include h ha

theorem ranked_record :
    ∃ rank : EventId → ℕ, ∀ e' ∈ log.record e, rank (e'.id H) < (log.record e).len ∧
      ∀ id ∈ e'.content.links, rank id < rank (e'.id H) := by
  obtain ⟨rank, hrank⟩ := h.ranked
  have hold : ∀ p ∈ log, Function.update rank (e.id H) log.len (p.id H) = rank (p.id H) := by
    intro p hp
    have hne : p.id H ≠ e.id H := fun heq => ha.fresh (heq ▸ id_mem_of_mem hp)
    exact Function.update_of_ne hne _ _
  refine ⟨Function.update rank (e.id H) log.len, fun e' he' => ?_⟩
  rw [len_record ha.fresh]
  rcases (mem_record ha.fresh).1 he' with rfl | he'
  · rw [Function.update_self]
    refine ⟨Nat.lt_succ_self _, fun id hid => ?_⟩
    obtain ⟨p, hp, rfl⟩ := ha.links_held h hid
    rw [hold p hp]
    exact (hrank p hp).1
  · rw [hold e' he']
    refine ⟨(hrank e' he').1.trans (Nat.lt_succ_self _), fun id hid => ?_⟩
    obtain ⟨p, hp, rfl⟩ := h.links_held he' hid
    rw [hold p hp]
    exact (hrank e' he').2 _ hid

theorem indexed_record (hfits : e.content.seq.toNat + 1 < 2 ^ 64) (a : Author) (n : UInt64) :
    (a, n) ∈ (log.record e).bySeq ↔ n < (log.record e).chainHeight a := by
  rw [Lib.TreeMap.mem_iff_exists_getElem?, bySeq_record, chainHeight_record]
  by_cases hauthor : e.content.author = a
  · subst hauthor
    rw [if_pos rfl, lt_succ_iff hfits, h.seq_eq_of_chains ha.chains, ← h.indexed,
      Lib.TreeMap.mem_iff_exists_getElem?]
    by_cases hn : n = log.chainHeight e.content.author
    · simp [hn]
    · simp [hn, Ne.symm hn]
  · rw [if_neg hauthor, if_neg fun heq => hauthor (congrArg Prod.fst heq), ← h.indexed,
      Lib.TreeMap.mem_iff_exists_getElem?]

theorem Admissible.position_free {e' : Event} (he' : e' ∈ log)
    (hauthor : e'.content.author = e.content.author) : e'.content.seq ≠ e.content.seq := by
  intro hseq
  have hlt := h.seq_lt he'
  rw [hauthor, hseq, h.seq_eq_of_chains ha.chains] at hlt
  exact UInt64.lt_irrefl _ hlt

theorem index_held_record (a : Author) (n : UInt64) (id : EventId) :
    (log.record e).bySeq[(a, n)]? = some id ↔ (log.record e).HoldsAt id fun e =>
      e.content.author = a ∧ e.content.seq = n := by
  rw [bySeq_record]
  split_ifs with hpos
  · obtain ⟨rfl, rfl⟩ := Prod.mk.inj hpos
    rw [Option.some.injEq]
    constructor
    · rintro rfl
      exact ⟨e, (mem_record ha.fresh).2 (.inl rfl), rfl, rfl, rfl⟩
    · rintro ⟨e', he', rfl, hauthor, hseq⟩
      rcases (mem_record ha.fresh).1 he' with rfl | he'
      · rfl
      · exact absurd hseq (ha.position_free h he' hauthor)
  · rw [h.index_held]
    refine ⟨fun hheld => hheld.record ha.fresh, ?_⟩
    rintro ⟨e', he', hid, rfl, rfl⟩
    rcases (mem_record ha.fresh).1 he' with rfl | he'
    · exact absurd rfl hpos
    · exact ⟨e', he', hid, rfl, rfl⟩

end

theorem tip_eq_record (h : Intact E log) (hfits : e.content.seq.toNat + 1 < 2 ^ 64) (a : Author) :
    (log.record e).tip[a]? = if (log.record e).chainHeight a = 0 then none
      else (log.record e).bySeq[(a, (log.record e).chainHeight a - 1)]? := by
  rw [tip_record, chainHeight_record]
  by_cases hauthor : e.content.author = a
  · subst hauthor
    rw [if_pos rfl, if_pos rfl, if_neg (succ_ne_zero hfits), bySeq_record, UInt64.add_sub_cancel,
      if_pos rfl]
  · rw [if_neg hauthor, if_neg hauthor, h.tip_eq, bySeq_record,
      if_neg fun heq => hauthor (congrArg Prod.fst heq)]

theorem height_le_record (h : Intact E log) (ha : Admissible E log e)
    (hfits : e.content.seq.toNat + 1 < 2 ^ 64) (a : Author) :
    ((log.record e).chainHeight a).toNat ≤ (log.record e).len := by
  rw [chainHeight_record, len_record ha.fresh]
  split_ifs with hauthor
  · have hle := h.height_le e.content.author
    rw [← h.seq_eq_of_chains ha.chains] at hle
    rw [UInt64.toNat_add, Nat.mod_eq_of_lt (by exact hfits)]
    exact Nat.succ_le_succ hle
  · exact (h.height_le a).trans (Nat.le_succ _)

/-- **One admission keeps the invariant.** -/
theorem Intact.record (h : Intact E log) (ha : Admissible E log e)
    (hfits : e.content.seq.toNat + 1 < 2 ^ 64) : Intact E (log.record e) := by
  constructor
  case keyed =>
    intro id e' he'
    rw [EventLog.record, ExtTreeMap.getElem?_insert] at he'
    split_ifs at he' with hid
    · rw [← Option.some.inj he']
      exact LawfulEqCmp.eq_of_compare hid
    · exact h.keyed id e' he'
  case authentic => exact (forall_mem_record ha.fresh).2 ⟨ha.authentic, h.authentic⟩
  case supported => exact (forall_mem_record ha.fresh).2 ⟨ha.supported, h.supported⟩
  case prev_none_iff => exact (forall_mem_record ha.fresh).2 ⟨ha.prev_none_iff, h.prev_none_iff⟩
  case prev_held =>
    refine (forall_mem_record ha.fresh).2 ⟨fun id hid => ?_, fun e' he' id hid => ?_⟩
    · exact (ha.prev_held h hid).record ha.fresh
    · exact (h.prev_held e' he' id hid).record ha.fresh
  case parents_held =>
    refine (forall_mem_record ha.fresh).2 ⟨fun id hid => ?_, fun e' he' id hid => ?_⟩
    · exact (ha.parents_held h hid).record ha.fresh
    · exact (h.parents_held e' he' id hid).record ha.fresh
  case indexed => exact indexed_record h ha hfits
  case index_held => exact index_held_record h ha
  case tip_eq => exact tip_eq_record h hfits
  case stored =>
    intro id
    rw [EventLog.record, OpLog.contains_append, ExtTreeMap.contains_insert, h.stored]
    rfl
  case height_le => exact height_le_record h ha hfits
  case ranked => exact ranked_record h ha

end

/-! ## Runs -/

theorem len_step (log : EventLog H) (c : Call) : log.len ≤ (log.step E c).len := by
  rcases step_cases E log c with heq | ⟨e, ha, heq⟩
  · rw [heq]
  · rw [heq, len_record ha.fresh]
    exact Nat.le_succ _

theorem Intact.step (h : Intact E log) (c : Call) (hlen : (log.step E c).len < 2 ^ 64) :
    Intact E (log.step E c) := by
  rcases step_cases E log c with heq | ⟨e, ha, heq⟩
  · rw [heq]
    exact h
  · rw [heq] at hlen ⊢
    refine h.record ha ?_
    -- the chain is no longer than the log
    have hle := h.height_le e.content.author
    rw [← h.seq_eq_of_chains ha.chains] at hle
    rw [len_record ha.fresh] at hlen
    omega

/-- A log that calls of `append` and `ingest` can fill. -/
def Reached (E : Ed25519) (log : EventLog H) : Prop :=
  log.len < 2 ^ 64 ∧ ∃ calls, log = exec (step E) new calls

/-- **Every reached log is intact.** -/
theorem Reached.intact (h : Reached E log) : Intact E log := by
  obtain ⟨hlen, calls, rfl⟩ := h
  revert hlen
  refine exec_inv (I := fun log : EventLog H => log.len < 2 ^ 64 → Intact E log) ?_
    (fun _ => Intact.new) calls
  intro log c ih hlen
  exact (ih ((len_step log c).trans_lt hlen)).step c hlen

/-! ## The causal order -/

theorem Intact.exists_rank (h : Intact E log) :
    ∃ rank : EventId → ℕ, ∀ id id', log.Links id id' → rank id' < rank id := by
  obtain ⟨rank, hrank⟩ := h.ranked
  refine ⟨rank, fun id id' hlink => ?_⟩
  obtain ⟨e, he, hid'⟩ := edge_iff.1 hlink
  obtain ⟨he, rfl⟩ := h.mem_of_getElem? he
  exact (hrank e he).2 id' hid'

theorem Intact.happensBefore_irrefl (h : Intact E log) (id : EventId) :
    log.happensBefore id id = false := by
  obtain ⟨rank, hrank⟩ := h.exists_rank
  -- ancestors have a lower rank
  have hlt : ∀ a b, Relation.TransGen log.Links b a → rank a < rank b := by
    intro a b hab
    induction hab with
    | single hlink => exact hrank _ _ hlink
    | tail _ hlink ih => exact (hrank _ _ hlink).trans ih
  rw [← Bool.not_eq_true, happensBefore_iff]
  exact fun hcycle => Nat.lt_irrefl _ (hlt id id hcycle)

theorem happensBefore_trans {a b c : EventId} (hab : log.happensBefore a b = true)
    (hbc : log.happensBefore b c = true) : log.happensBefore a c = true := by
  rw [happensBefore_iff] at hab hbc ⊢
  exact hbc.trans hab

/-- **Integrity of the event DAG.** -/
theorem integrity {log : EventLog H} (hlog : Reached E log) :
    Intact E log ∧
      (∀ e ∈ log, ∀ e' ∈ log, e.content.author = e'.content.author →
        e.content.seq = e'.content.seq → e = e') ∧
      (∀ id, log.happensBefore id id = false) ∧
      ∀ a b c, log.happensBefore a b = true → log.happensBefore b c = true →
        log.happensBefore a c = true := by
  have h := hlog.intact
  exact ⟨h, fun e he e' he' => h.unique he he', h.happensBefore_irrefl,
    fun _ _ _ hab hbc => happensBefore_trans hab hbc⟩

/-! ## Two authors

A log in which alice writes, bob answers and alice answers bob, with the digests,
keys and signatures of the real SHA2-256 and ed25519. -/

def alice : Author := ⟨"alice", by decide⟩

def bob : Author := ⟨"bob", by decide⟩

def aliceSecret : Bytes :=
  beBytes 32 0xcd8f8e38c256cd1688ae2485ab7590134570ec65e3f77813f3d358ab85775ef0

def bobSecret : Bytes :=
  beBytes 32 0xe1c6b53ce3815c9d8874d4d2c26fd7befadcdeafdc130a318625735ffda3707e

def aliceKey : Bytes :=
  beBytes 32 0xe5babbad9f903301657895793ee384bcc8f2b1eec694d702d0a9aee3ccb702dd

def bobKey : Bytes :=
  beBytes 32 0xa6beee3198e0d9a94184e09e032f80b63b63edd7ad489bb34677c5b5c2d94035

def firstDigest : Bytes :=
  beBytes 32 0x16d2b546a692179031289623b0f0cf44e23a5f68c4b6cafd4a51785fedbfa4f7

def answerDigest : Bytes :=
  beBytes 32 0x3e04abb47516c10980bc67e42bbc50e1bc08ce9db79774fb344b65114243fab8

def thirdDigest : Bytes :=
  beBytes 32 0x6269a20a8cb97bc4386fcc391bf930aabaf4ffe211019971400c609171553add

def firstSignature : Bytes :=
  beBytes 32 0x27da4605097789c71c4730a7f22ed75230879c038b57c83cebb089afc9094818 ++
  beBytes 32 0x91e9c5cc4d10335b8337fce3c92804e0fc7637f59fb9e668c8478534e9184306

def answerSignature : Bytes :=
  beBytes 32 0x2e6f7bc59b680388160dd1831d3c12a1f880729d0f3bc3c1ec83d27f09fc4500 ++
  beBytes 32 0x0e8743076fd4ef2f4f153a05511c8939cb98724e3483c7c421725154228bf500

/-- The signature of alice's second event. -/
def thirdSignature : Bytes :=
  beBytes 32 0x463de26de8b0186e1d9cb5c082d8325914dc4f964030ef4ced26e098f28eb732 ++
  beBytes 32 0xcb984e643d4f75142e6d3fd2bf3759cf0ab3572573088389d64c0f8d55d4d602

def dialogueDigest : Bytes → Bytes :=
  tableDigest
    [(utf8 "pillar-crypto/sign/ed25519/seed-v1pillar-eventlog/author-signing-seed::alice",
        aliceSecret),
      (utf8 "pillar-crypto/sign/ed25519/seed-v1pillar-eventlog/author-signing-seed::bob", bobSecret),
      (le8 5 ++ utf8 "alice" ++ le8 0 ++ [0] ++ le8 0 ++ utf8 "a", firstDigest),
      (le8 3 ++ utf8 "bob" ++ le8 0 ++ [0] ++ le8 1 ++ 0x12 :: 0x20 :: firstDigest ++ utf8 "b",
        answerDigest),
      (le8 5 ++ utf8 "alice" ++ le8 1 ++ 1 :: 0x12 :: 0x20 :: firstDigest ++ le8 1 ++
        0x12 :: 0x20 :: answerDigest ++ utf8 "c", thirdDigest)]

def dialogueScheme : Ed25519 :=
  tableEd25519
    [(aliceSecret, aliceKey, [(0x12 :: 0x20 :: firstDigest, firstSignature),
        (0x12 :: 0x20 :: thirdDigest, thirdSignature)]),
      (bobSecret, bobKey, [(0x12 :: 0x20 :: answerDigest, answerSignature)])]

def dialogueCalls : List Call :=
  [.append alice (utf8 "a"), .append bob (utf8 "b"), .append alice (utf8 "c")]

def dialogue : EventLog dialogueDigest := exec (step dialogueScheme) new dialogueCalls

/-- The three events are held, and bob's is not before itself. -/
theorem dialogue_integrity :
    dialogue.len = 3 ∧ dialogue.happensBefore ⟨0x12 :: 0x20 :: answerDigest⟩
      ⟨0x12 :: 0x20 :: answerDigest⟩ = false := by
  have hlen : dialogue.len = 3 := by decide +kernel
  have hreached : Reached dialogueScheme dialogue := ⟨by rw [hlen]; decide, dialogueCalls, rfl⟩
  exact ⟨hlen, (integrity hreached).2.2.1 _⟩

end Pillar.EventLog
