import Pillar.Lib.Delimited
import Pillar.QuotaLedger.Ledger

/-!
# The log of a quota ledger

A ledger records each admission and each release as an op of its log, whose payload is a line of
text.

* `balance_agrees` — **the log and the balance agree** in every state of every run.
-/

namespace Pillar.QuotaLedger

open Std Lib.Runs Lib.TreeMap Lib.Delimited Coordination StreamDb

variable {H : Bytes → Bytes}

attribute [ext] Reservation

/-! ## The entries -/

inductive Entry where
  | admission (slot : ℕ) (candidate : NodeId) (amount : ℕ)
  | release (slot amount : ℕ)
  deriving DecidableEq

namespace Entry

/-- What the text of an admission starts with. -/
def admitHead (cid : Cid) : String := "admit\x00" ++ cid.val ++ "\x00"

/-- What the text of a release starts with. -/
def releaseHead (cid : Cid) : String := "release\x00" ++ cid.val ++ "\x00"

def text (cid : Cid) : Entry → String
  | .admission slot candidate amount =>
    admitHead cid ++ toString slot ++ "\x00" ++ candidate ++ "\x00" ++ toString amount
  | .release slot amount => releaseHead cid ++ toString slot ++ "\x00" ++ toString amount

/-- Read the text of an entry of the budget `cid` back. -/
def parse (cid : Cid) (cs : List Char) : Option Entry :=
  match cs.dropPrefix? (admitHead cid).toList with
  | some rest =>
    let slot := splitFirst '\x00' rest
    let amount := splitLast '\x00' slot.2
    (number slot.1).bind fun s => (number amount.2).map fun a =>
      .admission s (String.ofList amount.1) a
  | none =>
    (cs.dropPrefix? (releaseHead cid).toList).bind fun rest =>
      let slot := splitFirst '\x00' rest
      (number slot.1).bind fun s => (number slot.2).map fun a => .release s a

def decode (cid : Cid) (payload : Bytes) : Option Entry :=
  (String.fromUTF8? ⟨payload.toArray⟩).bind fun s => parse cid s.toList

theorem dropPrefix?_append (front rest : List Char) :
    (front ++ rest).dropPrefix? front = some rest :=
  List.dropPrefix?_eq_some_iff.2 ⟨front, rfl, beq_self_eq_true front⟩

theorem nul_not_mem_decimal (n : ℕ) : '\x00' ∉ Nat.toDigits 10 n :=
  separator_not_mem_decimal (by decide) n

theorem parse_text (cid : Cid) (e : Entry) : parse cid (e.text cid).toList = some e := by
  cases e with
  | admission slot candidate amount =>
    have htext : (text cid (.admission slot candidate amount)).toList =
        (admitHead cid).toList ++ (Nat.toDigits 10 slot ++ '\x00' ::
          (String.toList candidate ++ '\x00' :: Nat.toDigits 10 amount)) := by
      simp [text, Nat.toString_eq_repr]
    rw [htext, parse, dropPrefix?_append]
    simp [splitFirst_append (nul_not_mem_decimal slot), splitLast_append _ (nul_not_mem_decimal amount)]
  | release slot amount =>
    have htext : (text cid (.release slot amount)).toList =
        (releaseHead cid).toList ++ (Nat.toDigits 10 slot ++ '\x00' :: Nat.toDigits 10 amount) := by
      simp [text, Nat.toString_eq_repr]
    have hother : (text cid (.release slot amount)).toList.dropPrefix? (admitHead cid).toList =
        none := by
      simp [text, releaseHead, admitHead, List.dropPrefix?]
    rw [parse, hother, htext, dropPrefix?_append]
    simp [splitFirst_append (nul_not_mem_decimal slot)]

theorem decode_utf8_text (cid : Cid) (e : Entry) :
    decode cid (e.text cid).toUTF8.data.toList = some e := by
  have hutf8 : String.fromUTF8? ⟨(e.text cid).toUTF8.data.toList.toArray⟩ = some (e.text cid) :=
    fromUTF8?_utf8 (e.text cid)
  rw [decode, hutf8]
  exact parse_text cid e

def admitted? : Entry → Option (ℕ × Reservation)
  | .admission slot candidate amount => some (slot, ⟨slot, candidate, amount⟩)
  | .release _ _ => none

def released? : Entry → Option ℕ
  | .admission _ _ _ => none
  | .release slot _ => some slot

theorem admitted?_eq_some_iff {e : Entry} {slot : ℕ} {res : Reservation} :
    e.admitted? = some (slot, res) ↔
      res.slot = slot ∧ e = .admission slot res.candidate res.amount := by
  cases e with
  | admission slot' candidate amount =>
    simp only [admitted?, Option.some.injEq, Prod.mk.injEq, admission.injEq]
    constructor
    · rintro ⟨rfl, rfl⟩
      exact ⟨rfl, rfl, rfl, rfl⟩
    · rintro ⟨rfl, rfl, rfl, rfl⟩
      exact ⟨rfl, rfl⟩
  | release slot' amount => simp [admitted?]

theorem released?_eq_some_iff {e : Entry} {slot : ℕ} :
    e.released? = some slot ↔ ∃ amount, e = .release slot amount := by
  cases e <;> simp [released?]

end Entry

/-! ## Replaying the log -/

def replay (es : List Entry) : ExtTreeMap ℕ Reservation :=
  (es.filterMap Entry.released?).foldl (fun m slot => m.erase slot)
    ((es.filterMap Entry.admitted?).foldl (fun m e => m.insert e.1 e.2) ∅)

def entries (l : QuotaLedger H) : List Entry :=
  l.log.order.filterMap fun op => Entry.decode l.budgetCid op.payload

variable {l : QuotaLedger H}

theorem mem_entries_record (hH : CollisionFree H) {e x : Entry} :
    x ∈ (l.record (e.text l.budgetCid)).entries ↔ x = e ∨ x ∈ l.entries := by
  simp only [entries, List.mem_filterMap, OpLog.mem_order, record, OpLog.mem_append hH,
    or_and_right, exists_or, exists_eq_left, Op.new_payload, Entry.decode_utf8_text,
    Option.some.injEq]
  exact or_congr_left eq_comm

variable {es : List Entry}

theorem mem_filterMap_admitted? {slot : ℕ} {res : Reservation} :
    (slot, res) ∈ es.filterMap Entry.admitted? ↔
      res.slot = slot ∧ .admission slot res.candidate res.amount ∈ es := by
  simp only [List.mem_filterMap, Entry.admitted?_eq_some_iff]
  constructor
  · rintro ⟨e, he, hr, rfl⟩
    exact ⟨hr, he⟩
  · rintro ⟨hr, he⟩
    exact ⟨_, he, hr, rfl⟩

theorem mem_filterMap_released? {slot : ℕ} :
    slot ∈ es.filterMap Entry.released? ↔ ∃ amount, .release slot amount ∈ es := by
  simp only [List.mem_filterMap, Entry.released?_eq_some_iff]
  constructor
  · rintro ⟨e, he, amount, rfl⟩
    exact ⟨amount, he⟩
  · rintro ⟨amount, he⟩
    exact ⟨_, he, amount, rfl⟩

theorem replay_eq_some_iff
    (hunique : ∀ slot c a c' a', .admission slot c a ∈ es → .admission slot c' a' ∈ es →
      c = c' ∧ a = a') {slot : ℕ} {res : Reservation} :
    (replay es)[slot]? = some res ↔
      (res.slot = slot ∧ .admission slot res.candidate res.amount ∈ es) ∧
        ∀ amount, .release slot amount ∉ es := by
  -- the admissions come in no particular order, but each slot has one
  have hone : ∀ r r', (slot, r) ∈ es.filterMap Entry.admitted? →
      (slot, r') ∈ es.filterMap Entry.admitted? → r = r' := by
    intro r r' hr hr'
    obtain ⟨hslot, hr⟩ := mem_filterMap_admitted?.1 hr
    obtain ⟨hslot', hr'⟩ := mem_filterMap_admitted?.1 hr'
    exact Reservation.ext (hslot.trans hslot'.symm) (hunique _ _ _ _ _ hr hr').1
      (hunique _ _ _ _ _ hr hr').2
  rw [replay, getElem?_foldl_erase, ← mem_filterMap_admitted?, ← not_exists]
  by_cases hreleased : ∃ amount, .release slot amount ∈ es
  · rw [if_pos (mem_filterMap_released?.2 hreleased)]
    exact iff_of_false (Option.some_ne_none res).symm fun h => h.2 hreleased
  · rw [if_neg (mt mem_filterMap_released?.1 hreleased), and_iff_left hreleased,
      getElem?_foldl_insert_empty_eq_some_iff hone]

/-! ## What one call can do -/

inductive Effect (l : QuotaLedger H) : QuotaLedger H → Prop where
  /-- The reservations and the log stay as they are. -/
  | quiet (register : LeaseRegister) {nextSlot : ℕ} (h : l.nextSlot ≤ nextSlot) :
      Effect l { l with register := register, nextSlot := nextSlot }
  /-- A reservation is admitted at the pending slot. -/
  | admitted (register : LeaseRegister) (candidate : NodeId) (amount : ℕ) :
      Effect l <| record
        { l with
          register := register
          nextSlot := l.nextSlot + 1
          outstanding := l.outstanding.insert l.nextSlot ⟨l.nextSlot, candidate, amount⟩ }
        (Entry.text l.budgetCid (.admission l.nextSlot candidate amount))
  | released {slot : ℕ} {res : Reservation} (h : l.outstanding[slot]? = some res) :
      Effect l <| record { l with outstanding := l.outstanding.erase slot }
        (Entry.text l.budgetCid (.release res.slot res.amount))

theorem effect_apply (l : QuotaLedger H) (call : Call) : Effect l (l.apply call) := by
  cases call with
  | grant v c => exact .quiet _ le_rfl
  | admitFor c amount =>
    simp only [apply, admitFor]
    split_ifs
    · exact .quiet l.register (Nat.le_succ _)
    · exact .quiet _ (Nat.le_succ _)
    · exact .admitted _ c amount
  | release id =>
    rw [apply, release]
    split_ifs
    · exact .quiet l.register le_rfl
    · cases hres : l.outstanding[id.slot]? with
      | none => exact .quiet l.register le_rfl
      | some res => exact .released hres

/-! ## The log and the reservations -/

structure Kept (l : QuotaLedger H) : Prop where
  /-- Only slots below the pending one are admitted. -/
  admit_lt : ∀ slot c a, .admission slot c a ∈ l.entries → slot < l.nextSlot
  admit_unique : ∀ slot c a c' a',
    .admission slot c a ∈ l.entries → .admission slot c' a' ∈ l.entries →
    c = c' ∧ a = a'
  release_admitted : ∀ slot a, .release slot a ∈ l.entries → ∃ c, .admission slot c a ∈ l.entries
  /-- A reservation is outstanding from its admission to its release. -/
  outstanding_iff : ∀ slot res, l.outstanding[slot]? = some res ↔
    (res.slot = slot ∧ .admission slot res.candidate res.amount ∈ l.entries) ∧
      ∀ a, .release slot a ∉ l.entries

namespace Kept

variable {l l' : QuotaLedger H}

theorem quiet (h : l.Kept) (hentries : l'.entries = l.entries)
    (hout : l'.outstanding = l.outstanding) (hnext : l.nextSlot ≤ l'.nextSlot) : l'.Kept where
  admit_lt slot c a he := (h.admit_lt slot c a (hentries ▸ he)).trans_le hnext
  admit_unique := hentries ▸ h.admit_unique
  release_admitted := hentries ▸ h.release_admitted
  outstanding_iff := hout ▸ hentries ▸ h.outstanding_iff

theorem not_release_nextSlot (h : l.Kept) (a : ℕ) : .release l.nextSlot a ∉ l.entries := by
  intro he
  obtain ⟨c, hadmission⟩ := h.release_admitted _ _ he
  exact lt_irrefl _ (h.admit_lt _ _ _ hadmission)

theorem admitted (h : l.Kept) {candidate : NodeId} {amount : ℕ}
    (hentries : ∀ e, e ∈ l'.entries ↔ e = .admission l.nextSlot candidate amount ∨ e ∈ l.entries)
    (hout : l'.outstanding = l.outstanding.insert l.nextSlot ⟨l.nextSlot, candidate, amount⟩)
    (hnext : l'.nextSlot = l.nextSlot + 1) : l'.Kept := by
  have hadmission : ∀ slot c a, .admission slot c a ∈ l'.entries ↔
      (slot = l.nextSlot ∧ c = candidate ∧ a = amount) ∨ .admission slot c a ∈ l.entries := by
    simp [hentries]
  have hrelease : ∀ slot a, .release slot a ∈ l'.entries ↔ .release slot a ∈ l.entries := by
    simp [hentries]
  have hold : ∀ {slot c a}, .admission slot c a ∈ l.entries → slot ≠ l.nextSlot := by
    intro slot c a he
    exact (h.admit_lt slot c a he).ne
  constructor
  case admit_lt =>
    intro slot c a he
    rcases (hadmission slot c a).1 he with ⟨rfl, -, -⟩ | he
    · omega
    · have := h.admit_lt slot c a he
      omega
  case admit_unique =>
    intro slot c a c' a' he he'
    rcases (hadmission _ _ _).1 he with ⟨rfl, rfl, rfl⟩ | he
    · rcases (hadmission _ _ _).1 he' with ⟨-, rfl, rfl⟩ | he'
      · exact ⟨rfl, rfl⟩
      · exact absurd rfl (hold he')
    · rcases (hadmission _ _ _).1 he' with ⟨rfl, -, -⟩ | he'
      · exact absurd rfl (hold he)
      · exact h.admit_unique _ _ _ _ _ he he'
  case release_admitted =>
    intro slot a he
    obtain ⟨c, hc⟩ := h.release_admitted slot a ((hrelease slot a).1 he)
    exact ⟨c, (hadmission slot c a).2 (.inr hc)⟩
  case outstanding_iff =>
    intro slot res
    rw [hout, ExtTreeMap.getElem?_insert]
    simp only [hadmission, hrelease]
    by_cases hslot : l.nextSlot = slot
    · subst hslot
      have hnew : Entry.admission l.nextSlot res.candidate res.amount ∉ l.entries := fun he =>
        hold he rfl
      cases res
      simp [hnew, h.not_release_nextSlot, eq_comm]
    · rw [if_neg (by simpa using hslot), h.outstanding_iff]
      simp [Ne.symm hslot]

theorem released (h : l.Kept) {slot : ℕ} {res : Reservation}
    (hres : l.outstanding[slot]? = some res)
    (hentries : ∀ e, e ∈ l'.entries ↔ e = .release res.slot res.amount ∨ e ∈ l.entries)
    (hout : l'.outstanding = l.outstanding.erase slot) (hnext : l'.nextSlot = l.nextSlot) :
    l'.Kept := by
  obtain ⟨⟨rfl, hadmitted⟩, -⟩ := (h.outstanding_iff slot res).1 hres
  have hadmission : ∀ slot c a,
      .admission slot c a ∈ l'.entries ↔ .admission slot c a ∈ l.entries := by
    simp [hentries]
  have hrelease : ∀ slot a, .release slot a ∈ l'.entries ↔
      (slot = res.slot ∧ a = res.amount) ∨ .release slot a ∈ l.entries := by
    simp [hentries]
  constructor
  case admit_lt => simpa only [hadmission, hnext] using h.admit_lt
  case admit_unique => simpa only [hadmission] using h.admit_unique
  case release_admitted =>
    intro slot a he
    simp only [hadmission]
    rcases (hrelease slot a).1 he with ⟨rfl, rfl⟩ | he
    · exact ⟨res.candidate, hadmitted⟩
    · exact h.release_admitted slot a he
  case outstanding_iff =>
    intro slot r
    rw [hout, ExtTreeMap.getElem?_erase]
    simp only [hadmission, hrelease]
    by_cases hslot : res.slot = slot
    · subst hslot
      rw [if_pos ReflCmp.compare_self]
      exact iff_of_false (Option.some_ne_none r).symm fun hr => hr.2 res.amount (.inl ⟨rfl, rfl⟩)
    · rw [if_neg (by simpa using hslot), h.outstanding_iff]
      simp [Ne.symm hslot]

/-- **Every call keeps the log and the reservations in step.** -/
theorem apply (hH : CollisionFree H) (h : l.Kept) (call : Call) : (l.apply call).Kept := by
  have heffect := l.effect_apply call
  generalize l.apply call = l' at heffect ⊢
  cases heffect with
  | quiet register hnext => exact h.quiet rfl rfl hnext
  | admitted register candidate amount =>
    exact h.admitted (fun e => mem_entries_record hH) rfl rfl
  | released hres => exact h.released hres (fun e => mem_entries_record hH) rfl rfl

end Kept

theorem kept_forBudget {cid : Cid} {quota : Option ℕ} {n : ℕ} (h : forBudget cid quota n = .ok l) :
    l.Kept := by
  cases quota with
  | none => cases h
  | some budget =>
    cases h
    have hempty : ∀ e, e ∉ entries (H := H) ⟨cid, budget, .new n, 0, ∅, .new⟩ := by
      intro e he
      obtain ⟨op, hop, -⟩ := List.mem_filterMap.1 he
      exact OpLog.not_mem_new op (OpLog.mem_order.1 hop)
    exact ⟨by simp [hempty], by simp [hempty], by simp [hempty], by simp [hempty]⟩

/-! ## The balance -/

/-- The balance of a ledger is in order, and it is what its log says. -/
structure Balanced (l : QuotaLedger H) : Prop where
  /-- The ledger reserves at most its budget: `available` does not underflow. -/
  reserved_le : l.reserved ≤ l.budget
  slots_nodup : (l.outstanding.toList.map fun e => e.2.slot).Nodup
  /-- The outstanding slots lie below the pending one. -/
  slots_lt : ∀ e ∈ l.outstanding.toList, e.2.slot < l.nextSlot
  release_admitted : ∀ slot a, .release slot a ∈ l.entries → ∃ c, .admission slot c a ∈ l.entries
  /-- The outstanding reservations are the admissions on the log minus its releases. -/
  outstanding_eq : l.outstanding = replay l.entries

theorem balanced_of_sound_of_kept (hs : l.Sound) (hk : l.Kept) : l.Balanced := by
  have hkeyed : ∀ e ∈ l.outstanding.toList, e.2.slot = e.1 ∧ e.1 < l.nextSlot := fun e he =>
    hs.slot_lt e.1 e.2 (ExtTreeMap.mem_toList_iff_getElem?_eq_some.1 he)
  constructor
  case reserved_le => exact hs.reserved_le
  case slots_nodup =>
    rw [List.map_congr_left fun e he => (hkeyed e he).1, ExtTreeMap.map_fst_toList_eq_keys]
    exact ExtTreeMap.nodup_keys
  case slots_lt =>
    intro e he
    rw [(hkeyed e he).1]
    exact (hkeyed e he).2
  case release_admitted => exact hk.release_admitted
  case outstanding_eq =>
    refine ExtTreeMap.ext_getElem? fun slot => Option.ext fun res => ?_
    rw [hk.outstanding_iff, replay_eq_some_iff hk.admit_unique]

/-- **The log and the balance agree.** -/
theorem balance_agrees (hH : CollisionFree H) {cid : Cid} {quota : Option ℕ} {n : ℕ}
    {ledger : QuotaLedger H} (h : forBudget cid quota n = .ok ledger) (calls : List Call) :
    Throughout apply Balanced ledger calls := by
  intro p _
  have hboth : (exec apply ledger p).Sound ∧ (exec apply ledger p).Kept :=
    exec_inv (I := fun l : QuotaLedger H => l.Sound ∧ l.Kept)
      (fun l call hl => ⟨sound_apply hl.1 call, hl.2.apply hH call⟩)
      ⟨sound_forBudget h, kept_forBudget h⟩ p
  exact balanced_of_sound_of_kept hboth.1 hboth.2

/-- Two admissions and a release: one reservation is left, of 3. -/
theorem two_admitted_one_released :
    Throughout apply Balanced (⟨⟨"q"⟩, 10, .new 1, 0, ∅, .new⟩ : QuotaLedger (tableDigest []))
        [.grant "v" "a", .admitFor "a" 4, .grant "v" "b", .admitFor "b" 3, .release ⟨⟨"q"⟩, 0⟩] ∧
      (exec apply (⟨⟨"q"⟩, 10, .new 1, 0, ∅, .new⟩ : QuotaLedger (tableDigest []))
        [.grant "v" "a", .admitFor "a" 4, .grant "v" "b", .admitFor "b" 3,
          .release ⟨⟨"q"⟩, 0⟩]).outstanding.toList = [(1, ⟨1, "b", 3⟩)] :=
  ⟨balance_agrees (tableDigest_collisionFree (by simp) (by simp))
    (show forBudget ⟨"q"⟩ (some 10) 1 = .ok _ from rfl) _, by decide +kernel⟩

end Pillar.QuotaLedger
