import Pillar.StreamDb.OpLog

/-!
# Space-reclaiming compaction

`OpLog::compact_reclaiming`. A policy puts ops into groups that compete for one logical slot and
gives each op a priority.

* `mem_compactReclaiming` — **what the snapshot keeps**: the ops of the log
  that have no group, and of each group the one with the greatest candidate.
-/

namespace Pillar.StreamDb

open Std Lib.Compare

variable {H : Bytes → Bytes}

structure ReclaimPolicy (H : Bytes → Bytes) where
  /-- The competing group an op belongs to, `none` if it is never discarded. -/
  groupKey : Op H → Option Bytes
  /-- The priority within the group; only asked of ops that have a group. -/
  priority : Op H → Bytes

/-! ## Candidates -/

@[ext] structure Candidate where
  priority : Bytes
  id : OpId
  deriving DecidableEq

namespace Candidate

instance : Ord Candidate := ⟨fun a b => (compare a.priority b.priority).then (compare a.id b.id)⟩

theorem compare_def (a b : Candidate) :
    compare a b = (compare a.priority b.priority).then (compare a.id b.id) := rfl

instance : TransOrd Candidate := by
  show TransCmp (compareLex (compareOn Candidate.priority) (compareOn Candidate.id))
  infer_instance

instance : LawfulEqOrd Candidate where
  eq_of_compare := by
    intro a b h
    rw [compare_def, Ordering.then_eq_eq] at h
    exact Candidate.ext (LawfulEqCmp.eq_of_compare h.1) (LawfulEqCmp.eq_of_compare h.2)

instance : LinearOrder Candidate := linearOrderOfOrd Candidate

end Candidate

def ReclaimPolicy.candidate (policy : ReclaimPolicy H) (op : Op H) : Candidate :=
  ⟨policy.priority op, op.id⟩

/-! ## The compaction -/

structure Reclaim (H : Bytes → Bytes) where
  winners : ExtTreeMap Bytes Candidate
  kept : OpMap H

def Reclaim.scan (policy : ReclaimPolicy H) (st : Reclaim H) (op : Op H) : Reclaim H :=
  match policy.groupKey op with
  | none => { st with kept := st.kept.insert op }
  | some key =>
    match st.winners[key]? with
    | some best =>
      if best ≥ policy.candidate op then st
      else { st with winners := st.winners.insert key (policy.candidate op) }
    | none => { st with winners := st.winners.insert key (policy.candidate op) }

namespace OpLog

/-- One round of the second loop: keep the op a winner names. -/
def keepWinner (log : OpLog H) (kept : OpMap H) (winner : Candidate) : OpMap H :=
  match log.ops.get? winner.id with
  | some op => kept.insert op
  | none => kept

def compactReclaiming (log : OpLog H) (policy : ReclaimPolicy H) : Snapshot H :=
  let st := log.order.foldl (Reclaim.scan policy) ⟨∅, OpMap.empty⟩
  let kept := (st.winners.toList.map Prod.snd).foldl log.keepWinner st.kept
  ⟨foldRoot kept.values, kept, StreamDb.schemaVersion⟩

end OpLog

/-! ## What the first loop finds -/

/-- After scanning the ops `seen`, the loop has kept the ops without a group and
knows the greatest candidate of every group that has one. -/
structure Scanned (policy : ReclaimPolicy H) (seen : List (Op H)) (st : Reclaim H) : Prop where
  kept : ∀ op, op ∈ st.kept ↔ op ∈ seen ∧ policy.groupKey op = none
  /-- A winner is the candidate of an op seen in its group. -/
  sound : ∀ key best, st.winners[key]? = some best →
    ∃ op ∈ seen, policy.groupKey op = some key ∧ policy.candidate op = best
  greatest : ∀ op ∈ seen, ∀ key, policy.groupKey op = some key →
    ∃ best, st.winners[key]? = some best ∧ policy.candidate op ≤ best

variable {policy : ReclaimPolicy H}

theorem scanned_nil : Scanned policy [] ⟨∅, OpMap.empty⟩ where
  kept op := by simp [OpMap.not_mem_empty]
  sound key best h := by simp at h
  greatest op h := by simp at h

variable {seen : List (Op H)} {op : Op H}

theorem mem_append_grouped {key : Bytes} (hkey : policy.groupKey op = some key) {o : Op H} :
    o ∈ seen ++ [op] ∧ policy.groupKey o = none ↔ o ∈ seen ∧ policy.groupKey o = none := by
  rw [List.mem_append, List.mem_singleton]
  constructor
  · rintro ⟨ho | rfl, hnone⟩
    · exact ⟨ho, hnone⟩
    · rw [hkey] at hnone
      cases hnone
  · rintro ⟨ho, hnone⟩
    exact ⟨Or.inl ho, hnone⟩

variable {st : Reclaim H}

theorem Scanned.replace (h : Scanned policy seen st) {key : Bytes}
    (hkey : policy.groupKey op = some key)
    (hbest : ∀ best, st.winners[key]? = some best → best ≤ policy.candidate op) :
    Scanned policy (seen ++ [op])
      { st with winners := st.winners.insert key (policy.candidate op) } where
  kept o := by rw [h.kept, mem_append_grouped hkey]
  sound k best hk := by
    by_cases hkk : key = k
    · subst hkk
      obtain rfl : policy.candidate op = best := by simpa using hk
      exact ⟨op, by simp, hkey, rfl⟩
    · obtain ⟨o, ho, hok, hoc⟩ := h.sound k best (by simpa [ExtTreeMap.getElem?_insert, hkk] using hk)
      exact ⟨o, List.mem_append_left _ ho, hok, hoc⟩
  greatest o ho k hok := by
    rw [List.mem_append, List.mem_singleton] at ho
    by_cases hkk : key = k
    · subst hkk
      refine ⟨policy.candidate op, by simp, ?_⟩
      rcases ho with ho | rfl
      · obtain ⟨best, hb, hle⟩ := h.greatest o ho key hok
        exact hle.trans (hbest best hb)
      · exact le_rfl
    · rcases ho with ho | rfl
      · obtain ⟨best, hb, hle⟩ := h.greatest o ho k hok
        exact ⟨best, by simpa [ExtTreeMap.getElem?_insert, hkk] using hb, hle⟩
      · exact absurd (Option.some.inj (hkey.symm.trans hok)) hkk

theorem Scanned.keep (hH : CollisionFree H) (h : Scanned policy seen st)
    (hkey : policy.groupKey op = none) :
    Scanned policy (seen ++ [op]) { st with kept := st.kept.insert op } where
  kept o := by
    rw [OpMap.mem_insert hH, h.kept, List.mem_append, List.mem_singleton]
    constructor
    · rintro (rfl | ⟨ho, hnone⟩)
      · exact ⟨Or.inr rfl, hkey⟩
      · exact ⟨Or.inl ho, hnone⟩
    · rintro ⟨ho | rfl, hnone⟩
      · exact .inr ⟨ho, hnone⟩
      · exact .inl rfl
  sound k best hk := by
    obtain ⟨o, ho, hok, hoc⟩ := h.sound k best hk
    exact ⟨o, List.mem_append_left _ ho, hok, hoc⟩
  greatest o ho k hok := by
    rcases List.mem_append.1 ho with ho | ho
    · exact h.greatest o ho k hok
    · obtain rfl := List.mem_singleton.1 ho
      rw [hkey] at hok
      cases hok

theorem Scanned.stand (h : Scanned policy seen st) {key : Bytes}
    (hkey : policy.groupKey op = some key) {best : Candidate} (hw : st.winners[key]? = some best)
    (hle : policy.candidate op ≤ best) :
    Scanned policy (seen ++ [op]) st where
  kept o := by rw [h.kept, mem_append_grouped hkey]
  sound k b hk := by
    obtain ⟨o, ho, hok, hoc⟩ := h.sound k b hk
    exact ⟨o, List.mem_append_left _ ho, hok, hoc⟩
  greatest o ho k hok := by
    rcases List.mem_append.1 ho with ho | ho
    · exact h.greatest o ho k hok
    · obtain rfl := List.mem_singleton.1 ho
      obtain rfl := Option.some.inj (hkey.symm.trans hok)
      exact ⟨best, hw, hle⟩

theorem Scanned.scan (hH : CollisionFree H) (h : Scanned policy seen st) (op : Op H) :
    Scanned policy (seen ++ [op]) (st.scan policy op) := by
  cases hkey : policy.groupKey op with
  | none =>
    have hst : st.scan policy op = { st with kept := st.kept.insert op } := by
      simp [Reclaim.scan, hkey]
    rw [hst]
    exact h.keep hH hkey
  | some key =>
    cases hw : st.winners[key]? with
    | none =>
      have hst : st.scan policy op =
          { st with winners := st.winners.insert key (policy.candidate op) } := by
        simp [Reclaim.scan, hkey, hw]
      rw [hst]
      exact h.replace hkey fun best hb => by rw [hw] at hb; cases hb
    | some best =>
      by_cases hge : best ≥ policy.candidate op
      · have hst : st.scan policy op = st := by simp [Reclaim.scan, hkey, hw, hge]
        rw [hst]
        exact h.stand hkey hw hge
      · have hst : st.scan policy op =
            { st with winners := st.winners.insert key (policy.candidate op) } := by
          simp [Reclaim.scan, hkey, hw, hge]
        rw [hst]
        refine h.replace hkey fun b hb => ?_
        obtain rfl := Option.some.inj (hw.symm.trans hb)
        exact (lt_of_not_ge hge).le

theorem scanned_foldl (hH : CollisionFree H) (l : List (Op H)) :
    Scanned policy l (l.foldl (Reclaim.scan policy) ⟨∅, OpMap.empty⟩) := by
  induction l using List.reverseRecOn with
  | nil => exact scanned_nil
  | append_singleton l op ih =>
    rw [List.foldl_append]
    exact ih.scan hH op

/-! ## What the snapshot keeps -/

namespace OpLog

theorem mem_foldl_keepWinner (hH : CollisionFree H) (log : OpLog H) (l : List Candidate)
    (kept : OpMap H) (op : Op H) :
    op ∈ l.foldl log.keepWinner kept ↔ op ∈ kept ∨ op ∈ log ∧ ∃ w ∈ l, w.id = op.id := by
  induction l generalizing kept with
  | nil => simp
  | cons w l ih =>
    rw [List.foldl_cons, ih, List.exists_mem_cons_iff, keepWinner]
    cases hw : log.ops.get? w.id with
    | none =>
      have hne : op ∈ log → w.id ≠ op.id := by
        intro hop hid
        have := OpMap.get?_eq_some_iff.2 ⟨hop, hid.symm⟩
        rw [hw] at this
        cases this
      tauto
    | some o =>
      obtain ⟨ho, hoid⟩ := OpMap.get?_eq_some_iff.1 hw
      have hiff : op = o ↔ op ∈ log ∧ w.id = op.id := by
        constructor
        · rintro rfl
          exact ⟨ho, hoid.symm⟩
        · rintro ⟨-, hid⟩
          exact Op.id_injective hH (hid.symm.trans hoid.symm)
      rw [OpMap.mem_insert hH, hiff]
      tauto

/-- **What the snapshot keeps.** -/
theorem mem_compactReclaiming (hH : CollisionFree H) {log : OpLog H} {op : Op H} :
    op ∈ (log.compactReclaiming policy).ops ↔
      op ∈ log ∧ ∀ key, policy.groupKey op = some key →
        ∀ o ∈ log, policy.groupKey o = some key → policy.candidate o ≤ policy.candidate op := by
  have hscan : Scanned policy log.order _ := scanned_foldl hH log.order
  rw [compactReclaiming, mem_foldl_keepWinner hH, hscan.kept, mem_order]
  simp only [List.mem_map, Prod.exists, ExtTreeMap.mem_toList_iff_getElem?_eq_some,
    exists_eq_right]
  constructor
  · rintro (⟨hop, hnone⟩ | ⟨hop, w, ⟨key, hw⟩, hid⟩)
    · exact ⟨hop, fun key hkey => by rw [hnone] at hkey; cases hkey⟩
    · -- `op` is the op a winner names
      obtain ⟨o, ho, hokey, rfl⟩ := hscan.sound key w hw
      obtain rfl : o = op := Op.id_injective hH hid
      refine ⟨hop, fun k hk p hp hpk => ?_⟩
      obtain rfl : key = k := Option.some.inj (hokey.symm.trans hk)
      obtain ⟨best, hbest, hle⟩ := hscan.greatest p (mem_order.2 hp) key hpk
      rwa [← Option.some.inj (hw.symm.trans hbest)] at hle
  · rintro ⟨hop, hmax⟩
    cases hkey : policy.groupKey op with
    | none => exact .inl ⟨hop, rfl⟩
    | some key =>
      -- the winner of `op`'s group is no greater than `op`
      obtain ⟨best, hbest, hle⟩ := hscan.greatest op (mem_order.2 hop) key hkey
      obtain ⟨o, ho, hokey, rfl⟩ := hscan.sound key best hbest
      have hge := hmax key hkey o (mem_order.1 ho) hokey
      have hid : (policy.candidate o).id = op.id := congrArg Candidate.id (hge.antisymm hle)
      exact .inr ⟨hop, policy.candidate o, ⟨key, hbest⟩, hid⟩

end OpLog

end Pillar.StreamDb
