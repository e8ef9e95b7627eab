import Pillar.StreamDb.Persist

/-!
# Crashing the durable op store

A crash stops a call of `PersistentStream` after some number of its file system steps, each of them
atomic.

* `Outcome` — **what a stopped call leaves behind**: it is complete, or an even number of steps left
  some of its ops in place, or an odd number left a temporary file.
* `recovers_iff` — **when the store survives a crash**: opening succeeds, with
  every acknowledged op and none that was never offered, exactly when the crash
  does not fall between a temporary write and its rename.
-/

namespace Pillar.StreamDb.PersistentStream

open Std Lib.Compare Lib.FileSystem Lib.Runs

variable {H : Bytes → Bytes}

/-! ## What a stopped program leaves behind -/

/-- The outcome of stopping, after `n` steps, a program that writes the ops `new`
next to those of `S` and ends with `a`. -/
inductive Outcome {α : Type} (S : Set (Op H)) (new : List (Op H)) (n : ℕ) (a : α) :
    Dir × Option (α × ℕ) → Prop
  | complete {dir : Dir} (hn : 2 * new.length ≤ n) (hdir : Holds dir (S ∪ {op | op ∈ new})) :
      Outcome S new n a (dir, some (a, n - 2 * new.length))
  | between {dir : Dir} {T : Set (Op H)} (hn : n < 2 * new.length) (heven : Even n)
      (hT : T ⊆ {op | op ∈ new}) (hdir : Holds dir (S ∪ T)) : Outcome S new n a (dir, none)
  /-- It was stopped between a temporary write and its rename. -/
  | torn {dir : Dir} (hn : n < 2 * new.length) (hodd : ¬ Even n) (hdir : Dirty H dir) :
      Outcome S new n a (dir, none)

variable {α β : Type}

variable {S : Set (Op H)} {dir : Dir}

theorem Outcome.done (h : Holds dir S) (n : ℕ) (a : α) :
    Outcome S [] n a ((Prog.done a).stopAfter n dir) := by
  have hS : S ∪ {op | op ∈ ([] : List (Op H))} = S := by simp
  exact .complete (Nat.zero_le n) (by rwa [hS])

variable {f : α → Prog β} {s : PersistentStream H} {effect : SideEffect}

theorem Outcome.bind {new₁ new₂ : List (Op H)} {n : ℕ} {p : Prog α} {a : α} {b : β}
    (hp : Outcome S new₁ n a (p.stopAfter n dir))
    (hf : ∀ m dir', Holds dir' (S ∪ {op | op ∈ new₁}) →
      Outcome (S ∪ {op | op ∈ new₁}) new₂ m b ((f a).stopAfter m dir')) :
    Outcome S (new₁ ++ new₂) n b ((p.bind f).stopAfter n dir) := by
  rw [Prog.stopAfter_bind]
  have hset : S ∪ {op | op ∈ new₁ ++ new₂} = S ∪ {op | op ∈ new₁} ∪ {op | op ∈ new₂} := by
    ext op
    simp [or_assoc]
  have hlen : (new₁ ++ new₂).length = new₁.length + new₂.length := List.length_append
  generalize hr : p.stopAfter n dir = r at hp
  cases hp with
  | complete hn hdir =>
    -- the second program starts with the steps that are left
    rename_i dir'
    have h := hf (n - 2 * new₁.length) dir' hdir
    generalize hr' : (f a).stopAfter (n - 2 * new₁.length) dir' = r' at h
    simp only [hr']
    cases h with
    | complete hn' hdir' =>
      rw [show n - 2 * new₁.length - 2 * new₂.length = n - 2 * (new₁ ++ new₂).length by omega]
      exact .complete (by omega) (by rwa [hset])
    | between hn' heven hT hdir' =>
      refine .between (T := {op | op ∈ new₁} ∪ _) (by omega) ?_ ?_ (by rwa [← Set.union_assoc])
      · have := (Nat.even_sub hn).1 heven
        exact this.2 (even_two_mul _)
      · intro op hop
        rcases hop with hop | hop
        · exact List.mem_append_left _ hop
        · exact List.mem_append_right _ (hT hop)
    | torn hn' hodd hdir' =>
      refine .torn (by omega) (fun heven => hodd ?_) hdir'
      exact (Nat.even_sub hn).2 ⟨fun _ => even_two_mul _, fun _ => heven⟩
  | between hn heven hT hdir =>
    exact .between (by omega) heven (fun op hop => List.mem_append_left _ (hT hop)) hdir
  | torn hn hodd hdir => exact .torn (by omega) hodd hdir

theorem Outcome.bind_done {new : List (Op H)} {n : ℕ} {p : Prog α} {a : α} {b : β}
    (hp : Outcome S new n a (p.stopAfter n dir)) (hf : f a = .done b) :
    Outcome S new n b ((p.bind f).stopAfter n dir) := by
  have h : Outcome S (new ++ []) n b ((p.bind f).stopAfter n dir) := by
    refine hp.bind fun m dir' h' => ?_
    rw [hf]
    exact Outcome.done h' m b
  rwa [List.append_nil] at h

/-! ## Writing ops -/

variable {op : Op H}

section

variable (hH : CollisionFree H)

include hH

theorem stopAfter_persistOp_of_mem (h : Holds dir S) (hop : op ∈ S) (n : ℕ) :
    (persistOp op.id op.payload).stopAfter n dir = (dir, some (.ok (), n)) := by
  simp [persistOp, Prog.stopAfter, (h.contains_iff hH).2 hop]

theorem Holds.renamed (h : Holds dir S) (op : Op H) :
    Holds (((dir.insert (tmpFilename op.id) op.payload).erase
      (tmpFilename op.id)).insert (opFilename op.id) op.payload) (Insert.insert op S) := by
  refine h.insert hH fun name => ?_
  rw [ExtTreeMap.getElem?_insert, ExtTreeMap.getElem?_erase, ExtTreeMap.getElem?_insert]
  by_cases hname : opFilename op.id = name
  · simp [hname]
  · by_cases htmp : tmpFilename op.id = name
    · subst htmp
      simp [hname, h.tmp_not_mem]
    · simp [hname, htmp]

theorem outcome_persistOp (h : Holds dir S) (hop : op ∉ S) (n : ℕ) :
    Outcome S [op] n (.ok ()) ((persistOp op.id op.payload).stopAfter n dir) := by
  have hquery : dir.contains (opFilename op.id) = false := by
    rw [Bool.eq_false_iff, ne_eq, h.contains_iff hH]
    exact hop
  have hset : S ∪ {o | o ∈ [op]} = insert op S := by
    ext o
    simp [or_comm]
  match n with
  | 0 =>
    have hstop : (persistOp op.id op.payload).stopAfter 0 dir = (dir, none) := by
      simp [persistOp, Prog.stopAfter, hquery]
    rw [hstop]
    exact .between (T := ∅) (by simp) Even.zero (Set.empty_subset _) (by simpa using h)
  | 1 =>
    have hstop : (persistOp op.id op.payload).stopAfter 1 dir =
        (dir.insert (tmpFilename op.id) op.payload, none) := by
      simp [persistOp, Prog.stopAfter, hquery]
    rw [hstop]
    refine .torn (by simp) (by decide) ⟨tmpFilename op.id, op.payload, by simp, ?_⟩
    rw [← op.id_eq]
    exact (tmpFilename_ne op.id op.id).symm
  | n + 2 =>
    have hstop : (persistOp op.id op.payload).stopAfter (n + 2) dir =
        (((dir.insert (tmpFilename op.id) op.payload).erase (tmpFilename op.id)).insert
            (opFilename op.id) op.payload, some (.ok (), n + 2 - 2 * [op].length)) := by
      simp [persistOp, Prog.stopAfter, hquery]
    rw [hstop]
    refine .complete (by simp) ?_
    rw [hset]
    exact h.renamed hH op

def newAmong (log : OpLog H) (ops : List (Op H)) : List (Op H) :=
  ops.filter fun op => !log.contains op.id

variable {log : OpLog H} {ops : List (Op H)}

theorem contains_iff_mem : log.contains op.id = true ↔ op ∈ log := by
  rw [OpLog.contains, OpMap.contains_iff]
  constructor
  · rintro ⟨o, ho, hid⟩
    rwa [← Op.id_injective hH hid]
  · intro h
    exact ⟨op, h, rfl⟩

theorem mem_newAmong :
    op ∈ newAmong log ops ↔ op ∈ ops ∧ op ∉ log := by
  rw [newAmong, List.mem_filter, ← contains_iff_mem hH]
  simp

theorem outcome_persistNew (h : Holds dir S)
    (hnodup : ops.Nodup) (hfresh : ∀ op ∈ ops, log.contains op.id = false → op ∉ S) (n : ℕ) :
    Outcome S (newAmong log ops) n (.ok ()) ((persistNew log ops).stopAfter n dir) := by
  induction ops generalizing S dir n with
  | nil => exact Outcome.done h n _
  | cons op ops ih =>
    obtain ⟨hnot, hnodup⟩ := List.nodup_cons.1 hnodup
    have hrest : ∀ o ∈ ops, log.contains o.id = false → o ∉ S := fun o ho =>
      hfresh o (List.mem_cons_of_mem _ ho)
    cases hc : log.contains op.id with
    | true => simpa [newAmong, persistNew, hc] using ih h hnodup hrest n
    | false =>
      have hnew : newAmong log (op :: ops) = [op] ++ newAmong log ops := by simp [newAmong, hc]
      rw [hnew, persistNew, hc, if_neg (by decide)]
      refine (outcome_persistOp hH h (hfresh op List.mem_cons_self hc) n).bind fun m dir' h' => ?_
      refine ih h' hnodup (fun o ho hoc => ?_) m
      rintro (hoS | hop)
      · exact hrest o ho hoc hoS
      · obtain rfl := List.mem_singleton.1 hop
        exact hnot ho

end

/-! ## Calls -/

inductive Call (H : Bytes → Bytes) where
  | append (payload : Bytes) (effect : SideEffect)
  | merge (other : Stream H)

/-- The program of a call, ending with the store after it. -/
def request (s : PersistentStream H) : Call H → Prog (PersistentStream H)
  | .append payload effect => (s.append payload effect).bind fun r => .done r.1
  | .merge other => (s.mergePersistent other).bind fun r => .done r.1

def offered : Call H → List (Op H)
  | .append payload _ => [Op.new payload]
  | .merge other => other.log.order

/-- Those of them the store takes and does not have yet: each costs a temporary
write and a rename. -/
def newOps (s : PersistentStream H) : Call H → List (Op H)
  | .append payload effect =>
    if s.stream.policy.admits effect then newAmong s.stream.log [Op.new payload] else []
  | .merge other => newAmong s.stream.log other.log.order

/-- The directory holds the ops in memory. -/
def Consistent (st : Dir × PersistentStream H) : Prop := Holds st.1 {op | op ∈ st.2.stream.log}

theorem newOps_subset (s : PersistentStream H) (c : Call H) : newOps s c ⊆ offered c := by
  cases c with
  | append payload effect =>
    rw [newOps, offered]
    split_ifs
    · exact List.filter_subset_self _
    · exact List.nil_subset _
  | merge other => exact List.filter_subset_self _

theorem outcome_append (hH : CollisionFree H)
    (h : Holds dir {op | op ∈ s.stream.log}) (payload : Bytes)
    (hadmits : s.stream.policy.admits effect = true) (n : ℕ) :
    Outcome {op | op ∈ s.stream.log} (newAmong s.stream.log [Op.new payload]) n
      ⟨{ s.stream with log := (s.stream.log.append payload).1 }⟩
      ((request s (.append payload effect)).stopAfter n dir) := by
  have hpersist : Outcome {op | op ∈ s.stream.log} (newAmong s.stream.log [Op.new payload]) n
      (.ok ()) ((persistOp (contentAddress H payload) payload).stopAfter n dir) := by
    by_cases hmem : (Op.new payload : Op H) ∈ s.stream.log
    · have hnew : newAmong s.stream.log [Op.new payload] = [] := by
        simp [newAmong, (contains_iff_mem hH).2 hmem]
      have hstop := stopAfter_persistOp_of_mem hH h hmem n
      rw [hnew]
      exact hstop ▸ Outcome.done h n _
    · have hnew : newAmong s.stream.log [Op.new payload] = [Op.new payload] := by
        have hc := Bool.eq_false_iff.2 (mt (contains_iff_mem hH).1 hmem)
        simp [newAmong, hc]
      rw [hnew]
      exact outcome_persistOp hH h hmem n
  rw [request, append, hadmits, if_neg (by decide)]
  refine Outcome.bind_done (a := (⟨{ s.stream with log := (s.stream.log.append payload).1 }⟩,
    .ok (s.stream.log.append payload).2)) ?_ rfl
  exact Outcome.bind_done hpersist rfl

theorem outcome_merge (hH : CollisionFree H)
    (h : Holds dir {op | op ∈ s.stream.log}) (other : Stream H) (n : ℕ) :
    Outcome {op | op ∈ s.stream.log} (newAmong s.stream.log other.log.order) n
      ⟨s.stream.merge other⟩ ((request s (.merge other)).stopAfter n dir) := by
  have hnodup : other.log.order.Nodup :=
    other.log.order_sorted.imp fun hlt heq => absurd (congrArg Op.id heq) hlt.ne
  have hnew : Outcome {op | op ∈ s.stream.log} (newAmong s.stream.log other.log.order) n (.ok ())
      ((persistNew s.stream.log other.log.order).stopAfter n dir) := by
    refine outcome_persistNew hH h hnodup (fun op _ hc hmem => ?_) n
    rw [(contains_iff_mem hH).2 hmem] at hc
    cases hc
  refine Outcome.bind_done (a := (⟨s.stream.merge other⟩, .ok ())) ?_ rfl
  exact Outcome.bind_done hnew rfl

variable {st : Dir × PersistentStream H}

section

variable (hH : CollisionFree H) (h : Consistent st)

include hH h

/-- **The outcome of every call.** -/
theorem outcome_request (c : Call H) :
    ∃ s' : PersistentStream H,
      (∀ op, op ∈ s'.stream.log ↔ op ∈ st.2.stream.log ∨ op ∈ newOps st.2 c) ∧
      ∀ n, Outcome {op | op ∈ st.2.stream.log} (newOps st.2 c) n s'
        ((request st.2 c).stopAfter n st.1) := by
  obtain ⟨dir, s⟩ := st
  cases c with
  | append payload effect =>
    cases hadmits : s.stream.policy.admits effect with
    | false =>
      refine ⟨s, by simp [newOps, hadmits], fun n => ?_⟩
      simpa [newOps, request, append, hadmits, Prog.bind] using Outcome.done h n s
    | true =>
      refine ⟨⟨{ s.stream with log := (s.stream.log.append payload).1 }⟩, fun op => ?_, fun n => ?_⟩
      · simp only [newOps, hadmits, if_true, mem_newAmong hH, List.mem_singleton,
          OpLog.mem_append hH]
        tauto
      · simpa only [newOps, hadmits, if_true] using outcome_append hH h payload hadmits n
  | merge other =>
    refine ⟨⟨s.stream.merge other⟩, fun op => ?_, outcome_merge hH h other⟩
    simp only [newOps, mem_newAmong hH, OpLog.mem_order, Stream.merge, OpLog.mem_merge hH]
    tauto

/-! ## Runs and crashes -/

def step (st : Dir × PersistentStream H) (c : Call H) : Dir × PersistentStream H :=
  (request st.2 c).run st.1

/-- The directory a crash leaves that stops a call after `n` of its file system
steps. -/
def crash (st : Dir × PersistentStream H) (c : Call H) (n : ℕ) : Dir :=
  ((request st.2 c).stopAfter n st.1).1

def Acked (st : Dir × PersistentStream H) (calls : List (Call H)) (op : Op H) : Prop :=
  ∃ p payload effect, p ++ [.append payload effect] <+: calls ∧ op = Op.new payload ∧
    (((exec step st p).2.append payload effect).run (exec step st p).1).2.2.isOk = true

theorem step_spec (c : Call H) :
    Consistent (step st c) ∧
      ∀ op, op ∈ (step st c).2.stream.log ↔ op ∈ st.2.stream.log ∨ op ∈ newOps st.2 c := by
  obtain ⟨s', hmem, hout⟩ := outcome_request hH h c
  -- with enough steps allowed the call is not stopped
  have hfull := hout (2 * (newOps st.2 c).length)
  generalize hr : (request st.2 c).stopAfter (2 * (newOps st.2 c).length) st.1 = r at hfull
  cases hfull with
  | complete hn hdir =>
    have hrun : step st c = (_, s') := Prog.run_of_stopAfter hr
    rw [hrun]
    refine ⟨?_, hmem⟩
    have hset : {op | op ∈ s'.stream.log} =
        {op | op ∈ st.2.stream.log} ∪ {op | op ∈ newOps st.2 c} := Set.ext hmem
    rw [Consistent, hset]
    exact hdir
  | between hn | torn hn => exact absurd hn (lt_irrefl _)

theorem consistent_exec (calls : List (Call H)) : Consistent (exec step st calls) :=
  exec_inv (I := fun st : Dir × PersistentStream H => Consistent st)
    (fun _ c hs => (step_spec hH hs c).1) h calls

theorem mem_exec_of_mem (calls : List (Call H)) (hop : op ∈ st.2.stream.log) :
    op ∈ (exec step st calls).2.stream.log := by
  induction calls generalizing st with
  | nil => exact hop
  | cons c calls ih =>
    obtain ⟨hcons, hmem⟩ := step_spec hH h c
    exact ih hcons ((hmem op).2 (.inl hop))

end

variable {calls : List (Call H)}

theorem offered_of_mem_exec (hH : CollisionFree H) (h : Consistent st)
    (hop : op ∈ (exec step st calls).2.stream.log) :
    op ∈ st.2.stream.log ∨ ∃ c ∈ calls, op ∈ offered c := by
  induction calls generalizing st with
  | nil => exact .inl hop
  | cons c calls ih =>
    obtain ⟨hcons, hmem⟩ := step_spec hH h c
    rcases ih hcons hop with hop | ⟨c', hc', hoff⟩
    · rcases (hmem op).1 hop with hop | hnew
      · exact .inl hop
      · exact .inr ⟨c, List.mem_cons_self, newOps_subset st.2 c hnew⟩
    · exact .inr ⟨c', List.mem_cons_of_mem _ hc', hoff⟩

theorem mem_step_append (hH : CollisionFree H) {payload : Bytes}
    (hok : ((st.2.append payload effect).run st.1).2.2.isOk = true) :
    Op.new payload ∈ (step st (.append payload effect)).2.stream.log := by
  rw [step, request, Prog.run_bind]
  cases hadmits : st.2.stream.policy.admits effect with
  | false => simp [append, hadmits, Except.isOk, Except.toBool] at hok
  | true =>
    rw [append, hadmits, if_neg (by decide), Prog.run_bind] at hok ⊢
    cases hp : ((persistOp (contentAddress H payload) payload).run st.1).2 with
    | error e => simp [hp, Except.isOk, Except.toBool] at hok
    | ok u => exact (OpLog.mem_append hH).2 (.inl rfl)

theorem mem_exec_of_acked (hH : CollisionFree H) (h : Consistent st) (hop : Acked st calls op) :
    op ∈ (exec step st calls).2.stream.log := by
  obtain ⟨p, payload, effect, ⟨rest, rfl⟩, rfl, hok⟩ := hop
  rw [exec_append]
  refine mem_exec_of_mem hH (consistent_exec hH h _) rest ?_
  rw [exec_concat]
  exact mem_step_append hH hok

/-- Opening gives a store that has every op the store was opened with or that was
acknowledged since, and no op that was not there and never offered. -/
def Recovers (st : Dir × PersistentStream H) (calls : List (Call H)) (next : Call H)
    (entries : List (String × Bytes)) (policy : Option ViewPolicy) : Prop :=
  ∃ st' : PersistentStream H, openWith entries policy = .ok st' ∧
    (∀ op, op ∈ st.2.stream.log ∨ Acked st calls op → op ∈ st'.stream.log) ∧
    ∀ op ∈ st'.stream.log, op ∈ st.2.stream.log ∨ ∃ c ∈ calls ++ [next], op ∈ offered c

theorem recovers_of_holds (hH : CollisionFree H) (h : Consistent st) {next : Call H}
    {T : Set (Op H)} (hT : T ⊆ {op | op ∈ newOps (exec step st calls).2 next})
    (hdir : Holds dir ({op | op ∈ (exec step st calls).2.stream.log} ∪ T))
    {entries : List (String × Bytes)} (hlist : entries.Perm dir.toList)
    (policy : Option ViewPolicy) :
    Recovers st calls next entries policy := by
  obtain ⟨st', hopen, hmem⟩ := openWith_of_holds hH hdir hlist policy
  refine ⟨st', hopen, fun op hop => (hmem op).2 (.inl ?_), fun op hop => ?_⟩
  · rcases hop with hop | hop
    · exact mem_exec_of_mem hH h calls hop
    · exact mem_exec_of_acked hH h hop
  · rcases (hmem op).1 hop with hop | hop
    · rcases offered_of_mem_exec hH h hop with hop | ⟨c, hc, hoff⟩
      · exact .inl hop
      · exact .inr ⟨c, List.mem_append_left _ hc, hoff⟩
    · exact .inr ⟨next, List.mem_append_right _ List.mem_cons_self,
        newOps_subset _ next (hT hop)⟩

/-- **When the store survives a crash.** -/
theorem recovers_iff (hH : CollisionFree H) {dir : Dir} {entries : List (String × Bytes)}
    (hlist : entries.Perm dir.toList) {policy : Option ViewPolicy} {s : PersistentStream H}
    (hopen : openWith entries policy = .ok s) (calls : List (Call H)) (next : Call H) (n : ℕ)
    {entries' : List (String × Bytes)}
    (hlist' : entries'.Perm (crash (exec step (dir, s) calls) next n).toList)
    (policy' : Option ViewPolicy) :
    Recovers (dir, s) calls next entries' policy' ↔
      Even n ∨ 2 * (newOps (exec step (dir, s) calls).2 next).length ≤ n := by
  have h : Consistent (dir, s) := holds_of_openWith hH hlist hopen
  obtain ⟨s', -, hout⟩ := outcome_request hH (consistent_exec hH h calls) next
  have hcrash := hout n
  rw [crash] at hlist'
  generalize hr : (request (exec step (dir, s) calls).2 next).stopAfter n
    (exec step (dir, s) calls).1 = r at hcrash hlist'
  cases hcrash with
  | complete hn hdir =>
    exact ⟨fun _ => .inr hn,
      fun _ => recovers_of_holds hH h (Set.Subset.refl _) hdir hlist' policy'⟩
  | between hn heven hT hdir =>
    exact ⟨fun _ => .inl heven, fun _ => recovers_of_holds hH h hT hdir hlist' policy'⟩
  | torn hn hodd hdir =>
    constructor
    · rintro ⟨st', hst', -⟩
      obtain ⟨err, herr⟩ := openWith_of_dirty hdir hlist' policy'
      rw [hst'] at herr
      cases herr
    · rintro (heven | hge)
      · exact absurd heven hodd
      · exact absurd hn (Nat.not_lt.2 hge)

/-! ## A torn write -/

/-- The SHA2-256 digest of the byte string `a`. -/
def tornTable : List (Bytes × Bytes) :=
  [([97],
    beBytes 32 0xca978112ca1bbdcafac231b39a23dc4da786eff8147c4e72b9807785afee48bb)]

def emptyStore : PersistentStream (tableDigest tornTable) := ⟨.new⟩

/-- A crash after the rename recovers the op. -/
theorem append_crash_after_rename :
    Recovers (∅, emptyStore) [] (.append [97] .convergent)
      (crash (∅, emptyStore) (.append [97] .convergent) 2).toList none :=
  (recovers_iff (tableDigest_collisionFree (by decide) (by decide))
    (show ([] : List (String × Bytes)).Perm (∅ : Dir).toList from List.Perm.refl _)
    (show openWith [] none = .ok emptyStore from rfl) [] (.append [97] .convergent) 2
    (List.Perm.refl _) none).2 (.inl (by decide))

/-- **A torn write blocks recovery.** -/
theorem append_crash_before_rename :
    (openWith (crash (∅, emptyStore) (.append [97] .convergent) 1).toList none :
        Except PersistError (PersistentStream (tableDigest tornTable))).isOk = false := by
  decide +kernel

end Pillar.StreamDb.PersistentStream
