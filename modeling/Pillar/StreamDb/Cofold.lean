import Pillar.Coordination
import Pillar.StreamDb.OpLog

/-!
# Strict co-partition and fold

`StrictCofold`: writes under a partition key are admitted only from the holder of
the key's fencing epoch, and a per-key invariant folds the admitted writes.

* `epochFenced_iff` — **when a key's fence is monotone**: exactly along the runs in which no backed
  acquisition is for an epoch below the one held.
* `countsAgree_iff` — **when the log determines the fold**: the counts of a quota
  ceiling are the numbers of ops carrying each key exactly along the runs in
  which every admitted write is a new op of the log.
-/

namespace Pillar.StreamDb

open Std Lib.Compare Lib.Runs Coordination

variable {H : Bytes → Bytes}

inductive CoFoldError where
  | policy (violation : PolicyViolation)
  | notFenced (key : Bytes) (claimed : Epoch) (held : Option Epoch)
  | duplicateKey (key : Bytes)
  | quotaExceeded (key : Bytes) (ceiling attempted : ℕ)
  deriving DecidableEq

class CoFoldInvariant (I : Type) where
  /-- The state after the write, and whether it was accepted. -/
  admitOp : I → Bytes → Bytes → I × Except CoFoldError Unit

export CoFoldInvariant (admitOp)

/-! ## Two invariants -/

structure UniqueOnce where
  admitted : ExtTreeSet Bytes

def UniqueOnce.new : UniqueOnce := ⟨∅⟩

def UniqueOnce.contains (u : UniqueOnce) (key : Bytes) : Bool := u.admitted.contains key

instance : CoFoldInvariant UniqueOnce where
  admitOp u key _ :=
    if u.contains key then (u, .error (.duplicateKey key))
    else (⟨u.admitted.insert key⟩, .ok ())

structure QuotaCeiling where
  ceiling : ℕ
  counts : ExtTreeMap Bytes ℕ

def QuotaCeiling.new (ceiling : ℕ) : QuotaCeiling := ⟨ceiling, ∅⟩

def QuotaCeiling.count (q : QuotaCeiling) (key : Bytes) : ℕ := q.counts[key]?.getD 0

instance : CoFoldInvariant QuotaCeiling where
  admitOp q key _ :=
    let next := q.count key + 1
    if next > q.ceiling then (q, .error (.quotaExceeded key q.ceiling next))
    else ({ q with counts := q.counts.insert key next }, .ok ())

/-! ## The fold -/

/-- A strict, co-partitioned and folded stream. -/
structure StrictCofold (H : Bytes → Bytes) (I : Type) where
  stream : Stream H
  invariant : I
  held : ExtTreeMap Bytes Epoch

namespace StrictCofold

variable {I : Type}

def new (invariant : I) : StrictCofold H I := ⟨.withPolicy .strict, invariant, ∅⟩

def heldEpoch (s : StrictCofold H I) (key : Bytes) : Option Epoch := s.held[key]?

def acquire (s : StrictCofold H I) (key : Bytes) (lease : LeaseRegister) (candidate : NodeId)
    (epoch : Epoch) : StrictCofold H I × LeaseRegister × Bool :=
  let attempt := lease.tryAcquire candidate epoch
  if attempt.2 then ({ s with held := s.held.insert key epoch }, attempt.1, true)
  else (s, attempt.1, false)

def frame (key payload : Bytes) : Bytes := beBytes 4 key.length ++ key ++ payload

/-- The fence is checked first, then the invariant, then the stream is appended to. -/
def tryAdmit [CoFoldInvariant I] (s : StrictCofold H I) (key : Bytes) (epoch : Epoch)
    (payload : Bytes) : StrictCofold H I × Except CoFoldError OpId :=
  let held := s.held[key]?
  if held ≠ some epoch then (s, .error (.notFenced key epoch held))
  else
    match admitOp s.invariant key payload with
    | (invariant, .error e) => ({ s with invariant := invariant }, .error e)
    | (invariant, .ok ()) =>
      let appended := s.stream.tryAppend (frame key payload) .exclusive
      ({ s with stream := appended.1, invariant := invariant }, appended.2.mapError .policy)

/-- A call on the fold. The register an acquisition goes through is the
caller's, in whatever state it is. -/
inductive Call where
  | acquire (key : Bytes) (lease : LeaseRegister) (candidate : NodeId) (epoch : Epoch)
  | tryAdmit (key : Bytes) (epoch : Epoch) (payload : Bytes)

def step [CoFoldInvariant I] (s : StrictCofold H I) : Call → StrictCofold H I
  | .acquire key lease candidate epoch => (s.acquire key lease candidate epoch).1
  | .tryAdmit key epoch payload => (s.tryAdmit key epoch payload).1

/-! ## Fencing -/

variable {lease : LeaseRegister} {s : StrictCofold H I} {candidate : NodeId}

theorem heldEpoch_acquire
    {epoch : Epoch} (h : (lease.tryAcquire candidate epoch).2 = true) (key key' : Bytes) :
    (s.acquire key lease candidate epoch).1.heldEpoch key' =
      if key = key' then some epoch else s.heldEpoch key' := by
  simp [acquire, h, heldEpoch, ExtTreeMap.getElem?_insert]

theorem acquire_of_not
    {epoch : Epoch} (h : ¬ (lease.tryAcquire candidate epoch).2 = true) (key : Bytes) :
    (s.acquire key lease candidate epoch).1 = s := by
  simp [acquire, h]

section Fencing

variable [CoFoldInvariant I]

theorem held_tryAdmit (s : StrictCofold H I) (key : Bytes) (epoch : Epoch) (payload : Bytes) :
    (s.tryAdmit key epoch payload).1.held = s.held := by
  simp only [tryAdmit]
  split_ifs
  · rfl
  · rcases admitOp s.invariant key payload with ⟨invariant, e | u⟩ <;> rfl

variable {s : StrictCofold H I} {key : Bytes}

theorem tryAdmit_of_not_held {epoch : Epoch} (h : s.heldEpoch key ≠ some epoch) (payload : Bytes) :
    s.tryAdmit key epoch payload = (s, .error (.notFenced key epoch (s.heldEpoch key))) := by
  have hne : s.held[key]? ≠ some epoch := h
  simp [tryAdmit, hne, heldEpoch]

def NotBelowHeld (s : StrictCofold H I) : Call → Prop
  | .acquire key lease candidate epoch =>
    (lease.tryAcquire candidate epoch).2 = true → ∀ held ∈ s.heldEpoch key, held ≤ epoch
  | .tryAdmit _ _ _ => True

/-- The fence of every key is monotone along the run. -/
structure EpochFenced (s : StrictCofold H I) (l : List Call) : Prop where
  /-- Once an epoch was acquired for a key, no write under the key that claims a
  lower one is admitted. -/
  stale_refused : ∀ p q key lease candidate epoch stale payload,
    p ++ .acquire key lease candidate epoch :: q ++ [.tryAdmit key stale payload] <+: l →
    ((exec step s p).acquire key lease candidate epoch).2.2 = true → stale < epoch →
    ∃ e, ((exec step s (p ++ .acquire key lease candidate epoch :: q)).tryAdmit
      key stale payload).2 = .error e
  held_mono : ∀ p q, p ++ q <+: l → ∀ key, ∀ e ∈ (exec step s p).heldEpoch key,
    ∃ e' ∈ (exec step s (p ++ q)).heldEpoch key, e ≤ e'

theorem heldEpoch_step {a : Call} (ha : s.NotBelowHeld a) {e : Epoch} (he : e ∈ s.heldEpoch key) :
    ∃ e' ∈ (step s a).heldEpoch key, e ≤ e' := by
  cases a with
  | tryAdmit key' epoch payload =>
    refine ⟨e, ?_, le_rfl⟩
    rw [step, heldEpoch, held_tryAdmit]
    exact he
  | acquire key' lease candidate epoch =>
    by_cases h : (lease.tryAcquire candidate epoch).2 = true
    · by_cases hkey : key' = key
      · subst hkey
        exact ⟨epoch, by simp [step, heldEpoch_acquire h], ha h e he⟩
      · exact ⟨e, by simpa [step, heldEpoch_acquire h, hkey] using he, le_rfl⟩
    · exact ⟨e, by rwa [step, acquire_of_not h], le_rfl⟩

theorem heldEpoch_exec {l : List Call} (hl : Along step NotBelowHeld s l) {e : Epoch}
    (he : e ∈ s.heldEpoch key) : ∃ e' ∈ (exec step s l).heldEpoch key, e ≤ e' := by
  induction l generalizing s e with
  | nil => exact ⟨e, he, le_rfl⟩
  | cons a l ih =>
    obtain ⟨ha, hl⟩ := along_cons.1 hl
    obtain ⟨e₁, he₁, h₁⟩ := heldEpoch_step ha he
    obtain ⟨e₂, he₂, h₂⟩ := ih hl he₁
    exact ⟨e₂, he₂, h₁.trans h₂⟩

theorem refused_after_acquire {lease : LeaseRegister} {candidate : NodeId} {epoch stale : Epoch}
    {q : List Call} (hacq : (s.acquire key lease candidate epoch).2.2 = true)
    (hq : Along step NotBelowHeld (step s (.acquire key lease candidate epoch)) q)
    (hlt : stale < epoch) (payload : Bytes) :
    ∃ e, ((exec step s (.acquire key lease candidate epoch :: q)).tryAdmit key stale payload).2 =
      .error e := by
  have hback : (lease.tryAcquire candidate epoch).2 = true := by
    by_contra hnot
    simp [acquire, hnot] at hacq
  -- the acquired epoch is held right after, so a higher or equal one at the write
  have hheld : epoch ∈ (step s (.acquire key lease candidate epoch)).heldEpoch key := by
    simp [step, heldEpoch_acquire hback]
  obtain ⟨e', he', hle⟩ := heldEpoch_exec hq hheld
  have hne : (exec step s (.acquire key lease candidate epoch :: q)).heldEpoch key ≠
      some stale := by
    rw [exec_cons, he']
    intro heq
    exact absurd (Option.some.inj heq) (hlt.trans_le hle).ne'
  exact ⟨_, congrArg Prod.snd (tryAdmit_of_not_held hne payload)⟩

/-- **When a key's fence is monotone.** -/
theorem epochFenced_iff (s : StrictCofold H I) (l : List Call) :
    EpochFenced s l ↔ Along step NotBelowHeld s l := by
  constructor
  · intro h p a hp
    cases a with
    | tryAdmit key epoch payload => trivial
    | acquire key lease candidate epoch =>
      intro hacq e he
      obtain ⟨e', he', hle⟩ := h.held_mono p _ hp key e he
      rw [exec_concat, step, heldEpoch_acquire hacq, if_pos rfl] at he'
      rwa [Option.some.inj he']
  · intro h
    refine ⟨?_, ?_⟩
    · intro p q key lease candidate epoch stale payload hp hacq hlt
      have hpq : p ++ .acquire key lease candidate epoch :: q <+: l :=
        (List.prefix_append _ [.tryAdmit key stale payload]).trans hp
      rw [exec_append]
      exact refused_after_acquire hacq (along_cons.1 (h.between hpq)).2 hlt payload
    · intro p q hpq key e he
      rw [exec_append]
      exact heldEpoch_exec (h.between hpq) he

end Fencing

def frameTable : List (Bytes × Bytes) :=
  [(frame [107] [97],
      beBytes 32 0xd2a1232e636a8851824927d770e8bf03479dcc36e365572225843de1e1250150),
    (frame [107] [98],
      beBytes 32 0x49388e5200f41eb40e3fb0c882f295c6874fe51d6a6beb33d486c277521ee36b)]

/-- The register of a cluster of one, in which `a` won epoch 1 and then `b` won
epoch 2. -/
def twoHolders : LeaseRegister :=
  (LeaseRegister.new 1).run
    [.grant "v" "a" 1, .tryAcquire "a" 1, .grant "v" "b" 2, .tryAcquire "b" 2]

/-- A fresh fold that admits each key once. -/
def uniqueFold : StrictCofold (tableDigest frameTable) UniqueOnce := new .new

/-- `b` acquires the key at epoch 2, then `a`, the holder of epoch 1, acquires it
again and writes. -/
def staleRun : List Call :=
  [.acquire [107] twoHolders "b" 2, .acquire [107] twoHolders "a" 1, .tryAdmit [107] 1 [97]]

/-- **A stale holder takes the key back.** -/
theorem staleRun_not_fenced :
    (exec step uniqueFold (staleRun.take 1)).heldEpoch [107] = some 2 ∧
      (exec step uniqueFold (staleRun.take 2)).heldEpoch [107] = some 1 ∧
      ((exec step uniqueFold (staleRun.take 2)).tryAdmit [107] 1 [97]).2.isOk = true ∧
      ¬ EpochFenced uniqueFold staleRun := by
  refine ⟨by decide, by decide, by decide, fun h => ?_⟩
  obtain ⟨e, he, hle⟩ := h.held_mono (staleRun.take 1) [.acquire [107] twoHolders "a" 1]
    ⟨[.tryAdmit [107] 1 [97]], rfl⟩ [107] 2 (by decide)
  have hfell : (exec step uniqueFold (staleRun.take 2)).heldEpoch [107] = some 1 := by decide
  obtain rfl : e = 1 := Option.some.inj (he.symm.trans hfell)
  exact absurd hle (by decide)

/-! ## Counting from the log -/

def Call.key : Call → Bytes
  | .acquire key _ _ _ => key
  | .tryAdmit key _ _ => key

def carries (key : Bytes) (op : Op H) : Bool := (beBytes 4 key.length ++ key).isPrefixOf op.payload

def opsCarrying (s : StrictCofold H I) (key : Bytes) : ℕ := s.stream.log.order.countP (carries key)

theorem carries_frame {key key' : Bytes} (h : key.length < 2 ^ 32) (h' : key'.length < 2 ^ 32)
    (payload : Bytes) :
    carries key' (Op.new (frame key payload) : Op H) = true ↔ key = key' := by
  rw [carries, List.isPrefixOf_iff_prefix, Op.new_payload, frame, List.append_assoc]
  constructor
  · intro hp
    obtain ⟨rest, hrest⟩ := hp
    rw [List.append_assoc] at hrest
    obtain ⟨hlen, htail⟩ := List.append_inj hrest (by simp)
    have hkey : key'.length = key.length := beBytes_inj (by omega) (by omega) hlen
    exact (List.append_inj htail hkey).1.symm
  · rintro rfl
    exact (List.prefix_append_right_inj _).2 (List.prefix_append key payload)

def CountsAgree (s : StrictCofold H QuotaCeiling) : Prop :=
  ∀ key : Bytes, key.length < 2 ^ 32 → s.invariant.count key = s.opsCarrying key

/-- Fence and ceiling let a write through. -/
def Passes (s : StrictCofold H QuotaCeiling) (key : Bytes) (epoch : Epoch) : Prop :=
  s.heldEpoch key = some epoch ∧ s.invariant.count key + 1 ≤ s.invariant.ceiling

instance (s : StrictCofold H QuotaCeiling) (key : Bytes) (epoch : Epoch) :
    Decidable (s.Passes key epoch) :=
  inferInstanceAs (Decidable (_ ∧ _))

/-- A write that is let through is a new op of the log. -/
def FreshFrame (s : StrictCofold H QuotaCeiling) : Call → Prop
  | .acquire _ _ _ _ => True
  | .tryAdmit key epoch payload =>
    s.Passes key epoch → s.stream.log.contains (contentAddress H (frame key payload)) = false

instance (s : StrictCofold H QuotaCeiling) (a : Call) : Decidable (s.FreshFrame a) :=
  match a with
  | .acquire _ _ _ _ => isTrue trivial
  | .tryAdmit key epoch payload =>
    inferInstanceAs (Decidable (s.Passes key epoch →
      s.stream.log.contains (contentAddress H (frame key payload)) = false))

/-- A refused write changes neither the stream nor the counts. -/
def RefusalKeeps (s : StrictCofold H QuotaCeiling) : Call → Prop
  | .acquire _ _ _ _ => True
  | .tryAdmit key epoch payload => ∀ e, (s.tryAdmit key epoch payload).2 = .error e →
    (s.tryAdmit key epoch payload).1.stream = s.stream ∧
      (s.tryAdmit key epoch payload).1.invariant = s.invariant

/-- The state after a write that is let through. -/
def admitted (s : StrictCofold H QuotaCeiling) (key payload : Bytes) : StrictCofold H QuotaCeiling :=
  { s with
    stream := { s.stream with log := (s.stream.log.append (frame key payload)).1 }
    invariant :=
      { s.invariant with counts := s.invariant.counts.insert key (s.invariant.count key + 1) } }

variable {s : StrictCofold H QuotaCeiling}

/-- **What a write does**: it is admitted, or it is refused and changes nothing. -/
theorem tryAdmit_cases (hs : s.stream.policy = .strict) (key : Bytes) (epoch : Epoch)
    (payload : Bytes) :
    (s.Passes key epoch ∧ ∃ id, s.tryAdmit key epoch payload = (s.admitted key payload, .ok id)) ∨
      (¬ s.Passes key epoch ∧ ∃ e, s.tryAdmit key epoch payload = (s, .error e)) := by
  by_cases hheld : s.heldEpoch key = some epoch
  · have hheld' : s.held[key]? = some epoch := hheld
    by_cases hceil : s.invariant.count key + 1 ≤ s.invariant.ceiling
    · refine .inl ⟨⟨hheld, hceil⟩, (s.stream.log.append (frame key payload)).2, ?_⟩
      simp only [tryAdmit, hheld', ne_eq, not_true_eq_false, if_false, admitOp, Nat.not_lt.2 hceil,
        Stream.tryAppend_of_strict hs]
      rfl
    · refine .inr ⟨fun h => hceil h.2,
        .quotaExceeded key s.invariant.ceiling (s.invariant.count key + 1), ?_⟩
      simp only [tryAdmit, hheld', ne_eq, not_true_eq_false, if_false, admitOp, Nat.not_le.1 hceil,
        if_true]
  · exact .inr ⟨fun h => hheld h.1, _, tryAdmit_of_not_held hheld payload⟩

theorem policy_step (hs : s.stream.policy = .strict) (a : Call) :
    (step s a).stream.policy = .strict := by
  cases a with
  | acquire key lease candidate epoch =>
    by_cases h : (lease.tryAcquire candidate epoch).2 = true <;> simp [step, acquire, h, hs]
  | tryAdmit key epoch payload =>
    rcases tryAdmit_cases hs key epoch payload with ⟨-, id, h⟩ | ⟨-, e, h⟩ <;> rw [step, h]
    · exact hs
    · exact hs

theorem refusalKeeps_of_strict (hs : s.stream.policy = .strict) (a : Call) : s.RefusalKeeps a := by
  cases a with
  | acquire key lease candidate epoch => trivial
  | tryAdmit key epoch payload =>
    intro e he
    rcases tryAdmit_cases hs key epoch payload with ⟨-, id, h⟩ | ⟨-, e', h⟩ <;> rw [h] at he ⊢
    · cases he
    · exact ⟨rfl, rfl⟩

theorem count_admitted (s : StrictCofold H QuotaCeiling) (key payload key' : Bytes) :
    (s.admitted key payload).invariant.count key' =
      s.invariant.count key' + if key = key' then 1 else 0 := by
  simp only [admitted, QuotaCeiling.count, ExtTreeMap.getElem?_insert]
  by_cases h : key = key'
  · subst h
    simp
  · simp [h]

theorem opsCarrying_admitted_of_fresh {key payload key' : Bytes} (h : key.length < 2 ^ 32)
    (h' : key'.length < 2 ^ 32)
    (hfresh : s.stream.log.contains (contentAddress H (frame key payload)) = false) :
    (s.admitted key payload).opsCarrying key' =
      s.opsCarrying key' + if key = key' then 1 else 0 := by
  have hperm := OpLog.order_append_of_fresh hfresh
  rw [opsCarrying, admitted, hperm.countP_eq, List.countP_cons]
  simp [carries_frame h h', opsCarrying]

theorem opsCarrying_admitted_of_contains {key payload : Bytes}
    (hheld : s.stream.log.contains (contentAddress H (frame key payload)) = true) (key' : Bytes) :
    (s.admitted key payload).opsCarrying key' = s.opsCarrying key' := by
  rw [opsCarrying, admitted, OpLog.append_of_contains hheld]
  rfl

theorem countsAgree_step_iff (hs : s.stream.policy = .strict) (hagree : s.CountsAgree) {a : Call}
    (ha : a.key.length < 2 ^ 32) : (step s a).CountsAgree ↔ s.FreshFrame a := by
  cases a with
  | acquire key lease candidate epoch =>
    refine ⟨fun _ => trivial, fun _ => ?_⟩
    by_cases h : (lease.tryAcquire candidate epoch).2 = true
    · simpa [step, acquire, h, CountsAgree, opsCarrying] using hagree
    · simpa [step, acquire, h] using hagree
  | tryAdmit key epoch payload =>
    have hkey : key.length < 2 ^ 32 := ha
    rcases tryAdmit_cases hs key epoch payload with ⟨hpass, id, h⟩ | ⟨hnot, e, h⟩
    · have hstep : step s (.tryAdmit key epoch payload) = s.admitted key payload := by rw [step, h]
      rw [hstep, FreshFrame]
      cases hc : s.stream.log.contains (contentAddress H (frame key payload)) with
      | false =>
        refine ⟨fun _ _ => rfl, fun _ key' hkey' => ?_⟩
        rw [count_admitted, opsCarrying_admitted_of_fresh hkey hkey' hc, hagree key' hkey']
      | true =>
        -- the count moves on and the log does not
        refine ⟨fun hafter => ?_, fun hfresh => absurd (hfresh hpass) (by decide)⟩
        have hcount := hafter key hkey
        rw [count_admitted, if_pos rfl, opsCarrying_admitted_of_contains hc,
          hagree key hkey] at hcount
        omega
    · rw [step, h]
      exact ⟨fun _ hpass => absurd hpass hnot, fun _ => hagree⟩

/-- **When the log determines the fold.** -/
theorem countsAgree_iff (ceiling : ℕ) {l : List Call} (hl : ∀ a ∈ l, a.key.length < 2 ^ 32) :
    (Throughout step CountsAgree (new (.new ceiling) : StrictCofold H QuotaCeiling) l ↔
        Along step FreshFrame (new (.new ceiling) : StrictCofold H QuotaCeiling) l) ∧
      Along step RefusalKeeps (new (.new ceiling) : StrictCofold H QuotaCeiling) l := by
  have hinit : (new (.new ceiling) : StrictCofold H QuotaCeiling).stream.policy = .strict := rfl
  refine ⟨throughout_iff_along (J := fun s => s.stream.policy = .strict)
    (fun s a _ hs _ => policy_step hs a)
    (fun s a ha hs hagree => countsAgree_step_iff hs hagree (hl a ha)) hinit ?_, ?_⟩
  · intro key _
    simp [new, QuotaCeiling.new, QuotaCeiling.count, opsCarrying, Stream.withPolicy]
    rfl
  · intro p a _
    have hp := exec_inv (I := fun s => s.stream.policy = .strict)
      (fun (s : StrictCofold H QuotaCeiling) a hs => policy_step hs a) hinit p
    exact refusalKeeps_of_strict hp a

def quotaFold : StrictCofold (tableDigest frameTable) QuotaCeiling := new (.new 5)

def twoWrites (first second : Bytes) : List Call :=
  [.acquire [107] twoHolders "b" 2, .tryAdmit [107] 2 first, .tryAdmit [107] 2 second]

/-- Two different payloads under one key are counted and held as two. -/
theorem twoWrites_different_countsAgree :
    Throughout step CountsAgree quotaFold (twoWrites [97] [98]) :=
  (countsAgree_iff 5 (by decide)).1.2 (by decide +kernel)

/-- **A repeated payload is counted twice and held once.** -/
theorem twoWrites_same_counted_twice :
    CollisionFree (tableDigest frameTable) ∧
      (exec step quotaFold (twoWrites [97] [97])).invariant.count [107] = 2 ∧
      (exec step quotaFold (twoWrites [97] [97])).opsCarrying [107] = 1 :=
  ⟨tableDigest_collisionFree (by decide) (by decide), by decide +kernel, by decide +kernel⟩

end StrictCofold
end Pillar.StreamDb
