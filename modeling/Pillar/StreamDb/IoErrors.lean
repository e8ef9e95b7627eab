import Pillar.StreamDb.CrashSafety

/-!
# I/O errors in the durable op store

Any file system step of a call may fail. The call then reports an error, and memory keeps what it
had.

* `attempt_persistOp_of_missed`, `attempt_persistNew` — **a batch stops at its first
  failing op**, and the ops before it are in place.
-/

namespace Pillar.StreamDb.PersistentStream

open Std Lib.Compare Lib.FileSystem Lib.Runs

variable {H : Bytes → Bytes}

/-! ## What a program did to the op files -/

def Placed (dir dir' : Dir) (l : List (Op H)) : Prop :=
  ∀ (id : OpId) (bytes : Bytes), dir'[opFilename id]? = some bytes ↔
    dir[opFilename id]? = some bytes ∨ ∃ op ∈ l, op.id = id ∧ op.payload = bytes

variable {dir : Dir} {dir' : Dir}

theorem placed_nil (h : ∀ id, dir'[opFilename id]? = dir[opFilename id]?) :
    Placed dir dir' ([] : List (Op H)) := by
  intro id bytes
  simp [h id]

theorem Placed.trans {dir₁ dir₂ dir₃ : Dir} {l₁ l₂ : List (Op H)} (h₁ : Placed dir₁ dir₂ l₁)
    (h₂ : Placed dir₂ dir₃ l₂) : Placed dir₁ dir₃ (l₁ ++ l₂) := by
  intro id bytes
  rw [h₂, h₁, or_assoc]
  simp [List.mem_append, or_and_right, exists_or]

variable {op : Op H}

theorem Placed.of_held (h : Placed dir dir' [op])
    (hheld : dir[opFilename op.id]? = some op.payload) :
    Placed dir dir' ([] : List (Op H)) := by
  intro id bytes
  rw [h]
  constructor
  · rintro (hb | ⟨o, ho, rfl, rfl⟩)
    · exact .inl hb
    · obtain rfl := List.mem_singleton.1 ho
      exact .inl hheld
  · rintro (hb | ⟨o, ho, -⟩)
    · exact .inl hb
    · cases ho

theorem getElem?_insert_tmp (dir : Dir) (id id' : OpId) (bytes : Bytes) :
    (dir.insert (tmpFilename id') bytes)[opFilename id]? = dir[opFilename id]? := by
  have hne : tmpFilename id' ≠ opFilename id := tmpFilename_ne id' id
  rw [ExtTreeMap.getElem?_insert]
  simp [hne]

theorem placed_renamed (hfile : ∀ bytes, dir[opFilename op.id]? = some bytes → bytes = op.payload) :
    Placed dir (((dir.insert (tmpFilename op.id) op.payload).erase (tmpFilename op.id)).insert
      (opFilename op.id) op.payload) [op] := by
  intro id bytes
  have htmp : tmpFilename op.id ≠ opFilename id := tmpFilename_ne op.id id
  rw [ExtTreeMap.getElem?_insert, ExtTreeMap.getElem?_erase]
  by_cases hid : op.id = id
  · subst hid
    simp only [ReflCmp.compare_self, if_true, Option.some.injEq, List.mem_singleton,
      exists_eq_left, true_and]
    refine ⟨Or.inr, ?_⟩
    rintro (h | h)
    · exact (hfile bytes h).symm
    · exact h
  · have hname : opFilename op.id ≠ opFilename id := fun h => hid (opFilename_injective h)
    simp [hname, htmp, hid, getElem?_insert_tmp]

/-! ## Writing ops -/

/-- The write and the rename of the `j`-th op a batch writes go through, its
steps starting at `i`. -/
def Goes (faults : Prog.Faults) (i j : ℕ) : Prop :=
  faults (i + 3 * j + 1) = none ∧ faults (i + 3 * j + 2) = none

instance (faults : Prog.Faults) (i j : ℕ) : Decidable (Goes faults i j) :=
  inferInstanceAs (Decidable (_ ∧ _))

theorem goes_succ {faults : Prog.Faults} {i j : ℕ} :
    Goes faults (i + 3) j ↔ Goes faults i (j + 1) := by
  rw [Goes, Goes, show i + 3 + 3 * j = i + 3 * (j + 1) by omega]

theorem attempt_persistOp_of_missed (faults : Prog.Faults) (i : ℕ)
    (hmissed : faults i = none → dir.contains (opFilename op.id) = false)
    (hfile : ∀ bytes, dir[opFilename op.id]? = some bytes → bytes = op.payload) :
    (Goes faults i 0 ∧ ∃ dir', (persistOp op.id op.payload).attempt faults i dir =
        (dir', .ok (), i + 3) ∧ Placed dir dir' [op]) ∨
      (¬ Goes faults i 0 ∧ ∃ dir' e i', (persistOp op.id op.payload).attempt faults i dir =
        (dir', .error e, i') ∧ Placed dir dir' ([] : List (Op H))) := by
  have hsame : ∀ bytes, Placed dir (dir.insert (tmpFilename op.id) bytes) ([] : List (Op H)) :=
    fun bytes => placed_nil fun id => getElem?_insert_tmp dir id op.id bytes
  have hkeep : Placed dir dir ([] : List (Op H)) := placed_nil fun _ => rfl
  rw [persistOp, Prog.attempt_query_of_missed hmissed]
  cases hwrite : faults (i + 1) with
  | some fault =>
    have hgoes : ¬ Goes faults i 0 := fun h => by simp [Goes, hwrite] at h
    cases fault with
    | none =>
      refine .inr ⟨hgoes, dir, .io (tmpFilename op.id), i + 2, ?_, hkeep⟩
      simp [Prog.attempt, hwrite]
    | some left =>
      refine .inr ⟨hgoes, _, .io (tmpFilename op.id), i + 2, ?_, hsame left⟩
      simp [Prog.attempt, hwrite]
  | none =>
    cases hrename : faults (i + 2) with
    | none =>
      refine .inl ⟨⟨hwrite, hrename⟩, _, ?_, placed_renamed hfile⟩
      simp [Prog.attempt, hwrite, hrename]
    | some left =>
      refine .inr ⟨fun h => by simp [Goes, hrename] at h, _, .io (opFilename op.id), i + 3, ?_,
        hsame op.payload⟩
      simp [Prog.attempt, hwrite, hrename]

/-- How a batch ends: whole, or broken off at its first failing op. -/
inductive Batch (faults : Prog.Faults) (i : ℕ) (new : List (Op H)) (dir : Dir) :
    Dir × Except PersistError Unit × ℕ → Prop
  | whole {dir' : Dir} {i' : ℕ} (hgoes : ∀ j < new.length, Goes faults i j)
      (h : Placed dir dir' new) : Batch faults i new dir (dir', .ok (), i')
  | broken {dir' : Dir} {e : PersistError} {k i' : ℕ} (hk : k < new.length)
      (hgoes : ∀ j < k, Goes faults i j) (hstop : ¬ Goes faults i k)
      (h : Placed dir dir' (new.take k)) : Batch faults i new dir (dir', .error e, i')

theorem Batch.cons {faults : Prog.Faults} {i : ℕ} {new : List (Op H)}
    {r : Dir × Except PersistError Unit × ℕ} (hgo : Goes faults i 0) (hop : Placed dir dir' [op])
    (h : Batch faults (i + 3) new dir' r) : Batch faults i (op :: new) dir r := by
  have hall : ∀ k, (∀ j < k, Goes faults (i + 3) j) → ∀ j < k + 1, Goes faults i j := by
    intro k hk j hj
    cases j with
    | zero => exact hgo
    | succ j => exact goes_succ.1 (hk j (by omega))
  cases h with
  | whole hgoes h => exact .whole (hall _ hgoes) (hop.trans h)
  | broken hk hgoes hstop h =>
    rename_i k _
    exact .broken (k := k + 1) (Nat.succ_lt_succ hk) (hall k hgoes) (mt goes_succ.2 hstop)
      (hop.trans h)

/-- **A batch stops at its first failing op.** -/
theorem attempt_persistNew (hH : CollisionFree H) (faults : Prog.Faults) {log : OpLog H}
    {ops : List (Op H)} (hnodup : ops.Nodup)
    (hfresh : ∀ op ∈ ops, log.contains op.id = false → dir[opFilename op.id]? = none) (i : ℕ) :
    Batch faults i (newAmong log ops) dir ((persistNew log ops).attempt faults i dir) := by
  induction ops generalizing dir i with
  | nil => exact .whole (by simp [newAmong]) (placed_nil fun _ => rfl)
  | cons op ops ih =>
    obtain ⟨hnot, hnodup⟩ := List.nodup_cons.1 hnodup
    have hrest : ∀ o ∈ ops, log.contains o.id = false → dir[opFilename o.id]? = none := fun o ho =>
      hfresh o (List.mem_cons_of_mem _ ho)
    cases hc : log.contains op.id with
    | true => simpa [newAmong, persistNew, hc] using ih hnodup hrest i
    | false =>
      have hnone := hfresh op List.mem_cons_self hc
      have hnew : newAmong log (op :: ops) = op :: newAmong log ops := by simp [newAmong, hc]
      rw [hnew, persistNew, hc, if_neg (by decide), Prog.attempt_bind]
      rcases attempt_persistOp_of_missed faults i
        (fun _ => by rw [ExtTreeMap.contains_eq_isSome_getElem?, hnone]; rfl)
        (fun bytes hb => by rw [hnone] at hb; cases hb) with
        ⟨hgo, dir', hrun, hop⟩ | ⟨hstop, dir', e, i', hrun, hsame⟩
      · rw [hrun]
        refine Batch.cons hgo hop (ih hnodup (fun o ho hoc => ?_) (i + 3))
        -- the op just written is not one of the others
        by_contra hsome
        obtain ⟨bytes, hb⟩ := Option.ne_none_iff_exists'.1 hsome
        rcases (hop _ _).1 hb with hb | ⟨o', ho', hid, -⟩
        · rw [hrest o ho hoc] at hb
          cases hb
        · obtain rfl := List.mem_singleton.1 ho'
          exact hnot (Op.id_injective hH hid ▸ ho)
      · rw [hrun]
        exact .broken (k := 0) (Nat.succ_pos _) (fun j hj => absurd hj (Nat.not_lt_zero j)) hstop
          hsame

/-! ## Calls -/

/-- A call during which the given steps fail. -/
def faultyStep (st : Dir × PersistentStream H) (a : Call H × Prog.Faults) :
    Dir × PersistentStream H :=
  (((request st.2 a.1).attempt a.2 0 st.1).1, ((request st.2 a.1).attempt a.2 0 st.1).2.1)

/-- The op ids in memory are those of the op files on disk. -/
def Synced (st : Dir × PersistentStream H) : Prop :=
  ∀ id, st.2.stream.log.contains id = true ↔ st.1.contains (opFilename id) = true

/-- The bytes of every op file hash to its name. -/
def Addressed (st : Dir × PersistentStream H) : Prop :=
  ∀ (id : OpId) (bytes : Bytes), st.1[opFilename id]? = some bytes → contentAddress H bytes = id

/-- If the first op of a call gets in place, so do the others. -/
def Unbroken (st : Dir × PersistentStream H) (a : Call H × Prog.Faults) : Prop :=
  Goes a.2 0 0 → ∀ j < (newOps st.2 a.1).length, Goes a.2 0 j

/-- How a call ends: memory and disk both gain its new ops, or memory gains
nothing and the disk those before the failing one. -/
inductive CallEnd (faults : Prog.Faults) (new : List (Op H)) (st : Dir × PersistentStream H) :
    Dir × PersistentStream H → Prop
  | whole {st' : Dir × PersistentStream H} (hgoes : ∀ j < new.length, Goes faults 0 j)
      (hdisk : Placed st.1 st'.1 new)
      (hmem : ∀ op, op ∈ st'.2.stream.log ↔ op ∈ st.2.stream.log ∨ op ∈ new) :
      CallEnd faults new st st'
  | broken {dir' : Dir} {k : ℕ} (hk : k < new.length) (hgoes : ∀ j < k, Goes faults 0 j)
      (hstop : ¬ Goes faults 0 k) (hdisk : Placed st.1 dir' (new.take k)) :
      CallEnd faults new st (dir', st.2)

theorem not_mem_of_newOps (hH : CollisionFree H) {s : PersistentStream H} {c : Call H}
    (h : op ∈ newOps s c) : op ∉ s.stream.log := by
  cases c with
  | append payload effect =>
    rw [newOps] at h
    split_ifs at h
    · exact ((mem_newAmong hH).1 h).2
    · cases h
  | merge other => exact ((mem_newAmong hH).1 h).2

variable {st : Dir × PersistentStream H}

section

variable (hH : CollisionFree H)

include hH

theorem Synced.file_none (h : Synced st) (hop : op ∉ st.2.stream.log) :
    st.1[opFilename op.id]? = none := by
  rw [← contains_iff_mem hH, h, ← ExtTreeMap.mem_iff_contains] at hop
  exact ExtTreeMap.getElem?_eq_none hop

theorem Synced.file_of_mem (h : Synced st) (haddr : Addressed st) (hop : op ∈ st.2.stream.log) :
    st.1[opFilename op.id]? = some op.payload := by
  rw [← contains_iff_mem hH, h, ← ExtTreeMap.mem_iff_contains,
    Lib.TreeMap.mem_iff_exists_getElem?] at hop
  obtain ⟨bytes, hb⟩ := hop
  have hid := haddr op.id bytes hb
  rw [op.id_eq] at hid
  rw [hb, contentAddress_injective hH hid]

theorem attempt_appended (h : Synced st) (haddr : Addressed st) (faults : Prog.Faults) (op : Op H) :
    (op ∈ st.2.stream.log ∧ ∃ dir' r i', (persistOp op.id op.payload).attempt faults 0 st.1 =
        (dir', r, i') ∧ Placed st.1 dir' ([] : List (Op H))) ∨
      (op ∉ st.2.stream.log ∧ Batch faults 0 [op] st.1
        ((persistOp op.id op.payload).attempt faults 0 st.1)) := by
  by_cases hop : op ∈ st.2.stream.log
  · refine .inl ⟨hop, ?_⟩
    have hfile := h.file_of_mem hH haddr hop
    by_cases hquery : faults 0 = none
    · refine ⟨st.1, .ok (), 1, ?_, placed_nil fun _ => rfl⟩
      have hc : st.1.contains (opFilename op.id) = true := by
        rw [ExtTreeMap.contains_eq_isSome_getElem?, hfile]
        rfl
      simp [persistOp, Prog.attempt, hquery, hc]
    · -- the query fails, and the op is written once more
      rcases attempt_persistOp_of_missed faults 0 (fun hf => absurd hf hquery)
        (fun bytes hb => Option.some.inj (hb.symm.trans hfile)) with
        ⟨-, dir', hrun, hplaced⟩ | ⟨-, dir', e, i', hrun, hsame⟩
      · exact ⟨dir', _, _, hrun, hplaced.of_held hfile⟩
      · exact ⟨dir', _, _, hrun, hsame⟩
  · refine .inr ⟨hop, ?_⟩
    have hnone := h.file_none hH hop
    rcases attempt_persistOp_of_missed faults 0
      (fun _ => by rw [ExtTreeMap.contains_eq_isSome_getElem?, hnone]; rfl)
      (fun bytes hb => by rw [hnone] at hb; cases hb) with
      ⟨hgo, dir', hrun, hplaced⟩ | ⟨hstop, dir', e, i', hrun, hsame⟩
    · rw [hrun]
      exact Batch.cons hgo hplaced (.whole (by simp) (placed_nil fun _ => rfl))
    · rw [hrun]
      exact .broken (k := 0) Nat.one_pos (fun j hj => absurd hj (Nat.not_lt_zero j)) hstop hsame

theorem newAmong_singleton {log : OpLog H} :
    (op ∈ log → newAmong log [op] = []) ∧ (op ∉ log → newAmong log [op] = [op]) := by
  constructor
  · intro hop
    simp [newAmong, (contains_iff_mem hH).2 hop]
  · intro hop
    simp [newAmong, Bool.eq_false_iff.2 (mt (contains_iff_mem hH).1 hop)]

theorem callEnd_append (h : Synced st) (haddr : Addressed st) (faults : Prog.Faults)
    (payload : Bytes) (effect : SideEffect) :
    CallEnd faults (newOps st.2 (.append payload effect)) st
      (faultyStep st (.append payload effect, faults)) := by
  cases hadmits : st.2.stream.policy.admits effect with
  | false =>
    have hstep : faultyStep st (.append payload effect, faults) = st := by
      simp [faultyStep, request, append, hadmits, Prog.bind]
    rw [hstep, newOps, hadmits]
    exact .whole (by simp) (placed_nil fun _ => rfl) (by simp)
  | true =>
    rw [faultyStep, request, append, hadmits, if_neg (by decide), newOps, hadmits, if_pos rfl,
      Prog.attempt_bind, Prog.attempt_bind]
    have hmem : ∀ op, op ∈ (st.2.stream.log.append payload).1 ↔
        op ∈ st.2.stream.log ∨ op = Op.new payload := fun op => by
      rw [OpLog.mem_append hH, or_comm]
    rcases attempt_appended hH h haddr faults (Op.new payload) with
      ⟨hop, dir', r, i', hrun, hsame⟩ | ⟨hop, hbatch⟩
    · have hrun' : (persistOp (contentAddress H payload) payload).attempt faults 0 st.1 =
          (dir', r, i') := hrun
      rw [(newAmong_singleton hH).1 hop, hrun']
      cases r with
      | error e => exact .whole (by simp) hsame (by simp)
      | ok u =>
        refine .whole (by simp) hsame fun op => ?_
        -- the op was in memory before
        refine (hmem op).trans ⟨?_, fun hop' => .inl (hop'.resolve_right List.not_mem_nil)⟩
        rintro (hop' | rfl)
        · exact .inl hop'
        · exact .inl hop
    · rw [(newAmong_singleton hH).2 hop]
      generalize hr : (persistOp (Op.new payload : Op H).id (Op.new payload : Op H).payload).attempt
        faults 0 st.1 = r at hbatch
      have hr' : (persistOp (contentAddress H payload) payload).attempt faults 0 st.1 = r := hr
      rw [hr']
      cases hbatch with
      | whole hgoes hplaced =>
        exact .whole hgoes hplaced fun op => (hmem op).trans (by rw [List.mem_singleton])
      | broken hk hgoes hstop hplaced => exact .broken hk hgoes hstop hplaced

theorem callEnd_merge (h : Synced st) (faults : Prog.Faults) (other : Stream H) :
    CallEnd faults (newOps st.2 (.merge other)) st (faultyStep st (.merge other, faults)) := by
  have hnodup : other.log.order.Nodup :=
    other.log.order_sorted.imp fun hlt heq => absurd (congrArg Op.id heq) hlt.ne
  have hfresh : ∀ op ∈ other.log.order, st.2.stream.log.contains op.id = false →
      st.1[opFilename op.id]? = none := by
    intro op _ hc
    refine h.file_none hH fun hop => ?_
    rw [(contains_iff_mem hH).2 hop] at hc
    cases hc
  have hbatch := attempt_persistNew hH faults hnodup hfresh 0
  rw [faultyStep, request, mergePersistent, newOps, Prog.attempt_bind, Prog.attempt_bind]
  generalize (persistNew st.2.stream.log other.log.order).attempt faults 0 st.1 = r at hbatch
  cases hbatch with
  | whole hgoes hplaced =>
    refine .whole hgoes hplaced fun op => ?_
    rw [mem_newAmong hH, OpLog.mem_order]
    refine (OpLog.mem_merge hH).trans ?_
    tauto
  | broken hk hgoes hstop hplaced => exact .broken hk hgoes hstop hplaced

/-- **How every call ends.** -/
theorem callEnd_faultyStep (h : Synced st) (haddr : Addressed st) (a : Call H × Prog.Faults) :
    CallEnd a.2 (newOps st.2 a.1) st (faultyStep st a) := by
  obtain ⟨c, faults⟩ := a
  cases c with
  | append payload effect => exact callEnd_append hH h haddr faults payload effect
  | merge other => exact callEnd_merge hH h faults other

end

theorem Addressed.placed (h : Addressed st) {l : List (Op H)} (hplaced : Placed st.1 dir' l)
    (s : PersistentStream H) : Addressed (dir', s) := by
  intro id bytes hb
  rcases (hplaced id bytes).1 hb with hb | ⟨op, -, rfl, rfl⟩
  · exact h id bytes hb
  · exact op.id_eq.symm

theorem Placed.contains_iff {l : List (Op H)} (h : Placed dir dir' l) (id : OpId) :
    dir'.contains (opFilename id) = true ↔
      dir.contains (opFilename id) = true ∨ ∃ op ∈ l, op.id = id := by
  rw [← ExtTreeMap.mem_iff_contains, ← ExtTreeMap.mem_iff_contains,
    Lib.TreeMap.mem_iff_exists_getElem?, Lib.TreeMap.mem_iff_exists_getElem?]
  simp only [h id, exists_or]
  refine or_congr Iff.rfl ⟨?_, ?_⟩
  · rintro ⟨bytes, op, hop, hid, -⟩
    exact ⟨op, hop, hid⟩
  · rintro ⟨op, hop, hid⟩
    exact ⟨op.payload, op, hop, hid, rfl⟩

theorem addressed_faultyStep (hH : CollisionFree H) (h : Synced st) (haddr : Addressed st)
    (a : Call H × Prog.Faults) : Addressed (faultyStep st a) := by
  have hend := callEnd_faultyStep hH h haddr a
  generalize faultyStep st a = st' at hend
  cases hend with
  | whole _ hdisk _ => exact haddr.placed hdisk st'.2
  | broken _ _ _ hdisk => exact haddr.placed hdisk st.2

/-- **One call.** -/
theorem synced_step_iff (hH : CollisionFree H) (h : Synced st) (haddr : Addressed st)
    (a : Call H × Prog.Faults) : Synced (faultyStep st a) ↔ Unbroken st a := by
  have hend := callEnd_faultyStep hH h haddr a
  generalize faultyStep st a = st' at hend
  cases hend with
  | whole hgoes hdisk hmem =>
    refine iff_of_true (fun id => ?_) fun _ => hgoes
    rw [hdisk.contains_iff, ← h, OpLog.contains, OpMap.contains_iff, OpLog.contains,
      OpMap.contains_iff]
    constructor
    · rintro ⟨op, hop, hid⟩
      rcases (hmem op).1 hop with hop | hop
      · exact .inl ⟨op, hop, hid⟩
      · exact .inr ⟨op, hop, hid⟩
    · rintro (⟨op, hop, hid⟩ | ⟨op, hop, hid⟩)
      · exact ⟨op, (hmem op).2 (.inl hop), hid⟩
      · exact ⟨op, (hmem op).2 (.inr hop), hid⟩
  | broken hk hgoes hstop hdisk =>
    rename_i dir' k
    cases k with
    | zero =>
      -- nothing was put in place
      refine iff_of_true (fun id => ?_) fun hgo => absurd hgo hstop
      rw [hdisk.contains_iff, List.take_zero]
      simpa using h id
    | succ k =>
      -- the first new op is on disk and not in memory
      refine iff_of_false (fun hsync => ?_) fun hun => hstop (hun (hgoes 0 k.succ_pos) _ hk)
      obtain ⟨op, rest, hnew⟩ := List.exists_cons_of_length_pos (Nat.zero_lt_of_lt hk)
      have hfirst : op ∈ (newOps st.2 a.1).take (k + 1) := by simp [hnew]
      have hmem := (contains_iff_mem hH).1 ((hsync op.id).2 ((hdisk.contains_iff op.id).2
        (.inr ⟨op, hfirst, rfl⟩)))
      exact not_mem_of_newOps hH (List.mem_of_mem_take hfirst) hmem

/-- **When memory and disk stay together.** -/
theorem synced_iff (hH : CollisionFree H) {dir : Dir} {entries : List (String × Bytes)}
    (hlist : entries.Perm dir.toList) {policy : Option ViewPolicy} {s : PersistentStream H}
    (hopen : openWith entries policy = .ok s) (calls : List (Call H × Prog.Faults)) :
    Throughout faultyStep Synced (dir, s) calls ↔ Along faultyStep Unbroken (dir, s) calls := by
  have hholds : Holds dir {op | op ∈ s.stream.log} := holds_of_openWith hH hlist hopen
  refine throughout_iff_along (J := Addressed)
    (fun _ a _ haddr hsync => addressed_faultyStep hH hsync haddr a)
    (fun _ a _ haddr hsync => synced_step_iff hH hsync haddr a) ?_ ?_
  · intro id bytes hb
    obtain ⟨op, -, hname, rfl⟩ := (hholds _ _).1 hb
    rw [← op.id_eq, opFilename_injective hname]
  · intro id
    rw [OpLog.contains, OpMap.contains_iff, ← ExtTreeMap.mem_iff_contains,
      Lib.TreeMap.mem_iff_exists_getElem?]
    constructor
    · rintro ⟨op, hop, rfl⟩
      exact ⟨op.payload, (hholds _ _).2 ⟨op, hop, rfl, rfl⟩⟩
    · rintro ⟨bytes, hb⟩
      obtain ⟨op, hop, hname, -⟩ := (hholds _ _).1 hb
      exact ⟨op, hop, opFilename_injective hname⟩

/-! ## A merge that fails halfway -/

/-- The SHA2-256 digests of the byte strings `a` and `b`. -/
def pairTable : List (Bytes × Bytes) :=
  [([97],
    beBytes 32 0xca978112ca1bbdcafac231b39a23dc4da786eff8147c4e72b9807785afee48bb),
   ([98],
    beBytes 32 0x3e23e8160039594a33894f6564e1b1348bbd7a0088d42c4acb73eeaed59c009d)]

def pairStore : PersistentStream (tableDigest pairTable) := ⟨.new⟩

def pairStream : Stream (tableDigest pairTable) :=
  ⟨(((OpLog.new.append [97]).1).append [98]).1, none⟩

instance (st : Dir × PersistentStream H) (a : Call H × Prog.Faults) : Decidable (Unbroken st a) :=
  inferInstanceAs (Decidable (_ → ∀ j < _, _))

def failAt (n : ℕ) : Prog.Faults := fun i => if i = n then some none else none

/-- A merge whose first write fails leaves both sides empty. -/
theorem merge_first_write_fails :
    Throughout faultyStep Synced (∅, pairStore) [(.merge pairStream, failAt 1)] :=
  (synced_iff (tableDigest_collisionFree (by decide) (by decide))
    (show ([] : List (String × Bytes)).Perm (∅ : Dir).toList from List.Perm.refl _)
    (show openWith [] none = .ok pairStore from rfl) _).2 (by decide +kernel)

/-- **A failed merge leaves files behind.** -/
theorem merge_second_write_fails :
    ¬ Throughout faultyStep Synced (∅, pairStore) [(.merge pairStream, failAt 4)] := by
  intro h
  have hsync := h [(.merge pairStream, failAt 4)] (List.prefix_refl _)
    (contentAddress (tableDigest pairTable) [98])
  exact absurd (hsync.2 (by decide +kernel)) (by decide +kernel)

end Pillar.StreamDb.PersistentStream
