import Pillar.Rbac.Grants
import Pillar.StreamDb.Cofold

/-!
# Revoking a grant

A grant is revoked by a write to a strict fold that admits each key once, and after that by a
deletion of the fields of its row.

* `revocation_holds` — **a revoked grant stays revoked** if the stamp of the revocation is above
  those of the grants, and a grant that is read can be revoked if it never was before.
-/

namespace Pillar
namespace StreamDb
namespace StrictCofold

variable {H : Bytes → Bytes}

open Coordination

/-- **What a write does where a key is admitted once.** -/
theorem tryAdmit_uniqueOnce_cases {s : StrictCofold H UniqueOnce} (hs : s.stream.policy = .strict)
    (key : Bytes) (epoch : Epoch) (payload : Bytes) :
    (s.heldEpoch key = some epoch ∧ s.invariant.contains key = false ∧
      ∃ id, s.tryAdmit key epoch payload =
        ({ s with
            stream := { s.stream with log := (s.stream.log.append (frame key payload)).1 }
            invariant := ⟨s.invariant.admitted.insert key⟩ }, .ok id)) ∨
      (¬ (s.heldEpoch key = some epoch ∧ s.invariant.contains key = false) ∧
        ∃ e, s.tryAdmit key epoch payload = (s, .error e)) := by
  by_cases hheld : s.heldEpoch key = some epoch
  · have hheld' : s.held[key]? = some epoch := hheld
    cases hkey : s.invariant.contains key with
    | false =>
      refine .inl ⟨hheld, rfl, (s.stream.log.append (frame key payload)).2, ?_⟩
      simp only [tryAdmit, hheld', ne_eq, not_true_eq_false, if_false, admitOp, hkey,
        Stream.tryAppend_of_strict hs]
      rfl
    | true =>
      refine .inr ⟨fun h => absurd h.2 (by decide), .duplicateKey key, ?_⟩
      simp [tryAdmit, hheld', admitOp, hkey]
  · exact .inr ⟨fun h => hheld h.1, _, tryAdmit_of_not_held hheld payload⟩

end StrictCofold
end StreamDb

namespace Rbac

open Std KeyedStore SqlViews StreamDb Coordination Lib.Runs Lib.TreeMap

variable {H : Bytes → Bytes} {J : KeyedCodec}

/-! ## The calls -/

/-- The revocation is admitted, and then the row deleted field by field. -/
def revokeGrant (cofold : StrictCofold H UniqueOnce) (store : KeyedStore H J) (pair : GrantPair)
    (epoch : Epoch) (hlc : Hlc) :
    StrictCofold H UniqueOnce × KeyedStore H J × Except CoFoldError Unit :=
  let id := grantKey pair
  match cofold.tryAdmit id.bytes epoch (utf8 "revoke") with
  | (cofold, .error e) => (cofold, store, .error e)
  | (cofold, .ok _) =>
    let store := (store.docDeleteField grantsCollection id Column.subject.name hlc).1
    let store := (store.docDeleteField grantsCollection id Column.capability.name hlc).1
    let store := (store.docDeleteField grantsCollection id Column.effect.name hlc).1
    (cofold, store, .ok ())

def acquireRevokeEpoch (cofold : StrictCofold H UniqueOnce) (pair : GrantPair)
    (lease : LeaseRegister) (candidate : NodeId) (epoch : Epoch) :
    StrictCofold H UniqueOnce × LeaseRegister × Bool :=
  cofold.acquire (grantKey pair).bytes lease candidate epoch

structure GrantSystem (H : Bytes → Bytes) (J : KeyedCodec) where
  store : KeyedStore H J
  cofold : StrictCofold H UniqueOnce
  strict : cofold.stream.policy = .strict

/-- The fold lets a revocation through: the caller holds the epoch, and the key is new to it. -/
def Accepts (cofold : StrictCofold H UniqueOnce) (pair : GrantPair) (epoch : Epoch) : Prop :=
  cofold.heldEpoch (grantKey pair).bytes = some epoch ∧
    cofold.invariant.contains (grantKey pair).bytes = false

instance (cofold : StrictCofold H UniqueOnce) (pair : GrantPair) (epoch : Epoch) :
    Decidable (Accepts cofold pair epoch) :=
  inferInstanceAs (Decidable (_ ∧ _))

/-- **What a revocation does.** -/
theorem revokeGrant_cases {cofold : StrictCofold H UniqueOnce}
    (hstrict : cofold.stream.policy = .strict) (store : KeyedStore H J) (pair : GrantPair)
    (epoch : Epoch) (hlc : Hlc) :
    (Accepts cofold pair epoch ∧ ∃ stream : Stream H, stream.policy = .strict ∧
      revokeGrant cofold store pair epoch hlc =
        ({ cofold with
            stream := stream
            invariant := ⟨cofold.invariant.admitted.insert (grantKey pair).bytes⟩ },
          writeRow store (.delete pair hlc), .ok ())) ∨
      (¬ Accepts cofold pair epoch ∧
        ∃ e, revokeGrant cofold store pair epoch hlc = (cofold, store, .error e)) := by
  rcases StrictCofold.tryAdmit_uniqueOnce_cases hstrict (grantKey pair).bytes epoch
    (utf8 "revoke") with ⟨hheld, hnew, id, h⟩ | ⟨hnot, e, h⟩
  · refine .inl ⟨⟨hheld, hnew⟩, _, ?_, by rw [revokeGrant, h]; rfl⟩
    exact hstrict
  · exact .inr ⟨hnot, e, by rw [revokeGrant, h]⟩

namespace GrantSystem

/-- The state after a revocation, and its answer. -/
def revoke (s : GrantSystem H J) (pair : GrantPair) (epoch : Epoch) (hlc : Hlc) :
    GrantSystem H J × Except CoFoldError Unit :=
  ({ store := (revokeGrant s.cofold s.store pair epoch hlc).2.1
     cofold := (revokeGrant s.cofold s.store pair epoch hlc).1
     strict := by
      rcases revokeGrant_cases s.strict s.store pair epoch hlc with ⟨-, _, hpolicy, h⟩ | ⟨-, _, h⟩
      · rw [h]
        exact hpolicy
      · rw [h]
        exact s.strict },
    (revokeGrant s.cofold s.store pair epoch hlc).2.2)

/-- The state after an acquisition, and its answer. -/
def acquire (s : GrantSystem H J) (pair : GrantPair) (lease : LeaseRegister) (candidate : NodeId)
    (epoch : Epoch) : GrantSystem H J × Bool :=
  ({ s with
      cofold := (acquireRevokeEpoch s.cofold pair lease candidate epoch).1
      strict := by
        rw [acquireRevokeEpoch, StrictCofold.acquire]
        split_ifs
        · exact s.strict
        · exact s.strict },
    (acquireRevokeEpoch s.cofold pair lease candidate epoch).2.2)

end GrantSystem

/-- A call. A store that is merged is one of rows. -/
inductive GrantCall where
  | put (p : Put)
  | acquire (pair : GrantPair) (lease : LeaseRegister) (candidate : NodeId) (epoch : Epoch)
  | revoke (pair : GrantPair) (epoch : Epoch) (hlc : Hlc)
  | merge (rows : List RowWrite)

namespace GrantSystem

def step (s : GrantSystem H J) : GrantCall → GrantSystem H J
  | .put p => { s with store := putGrant s.store p }
  | .acquire pair lease candidate epoch => (s.acquire pair lease candidate epoch).1
  | .revoke pair epoch hlc => (s.revoke pair epoch hlc).1
  | .merge rows => { s with store := s.store.merge (exec writeRow new rows) }

/-! ## What the store holds -/

def rowsOf (s : GrantSystem H J) : GrantCall → List RowWrite
  | .put p => [.put p]
  | .acquire _ _ _ _ => []
  | .revoke pair epoch hlc => if Accepts s.cofold pair epoch then [.delete pair hlc] else []
  | .merge rows => rows

def writtenBy (s : GrantSystem H J) : List GrantCall → List RowWrite
  | [] => []
  | a :: l => s.rowsOf a ++ (s.step a).writtenBy l

theorem writtenBy_append (s : GrantSystem H J) (p q : List GrantCall) :
    s.writtenBy (p ++ q) = s.writtenBy p ++ (exec step s p).writtenBy q := by
  induction p generalizing s with
  | nil => rfl
  | cons a p ih => rw [List.cons_append, writtenBy, writtenBy, ih, exec_cons, List.append_assoc]

end GrantSystem

theorem took_exec_writeRow (hH : CollisionFree H) {K : Set KeyedOp} {s : KeyedStore H J}
    (h : Took K s) (rows : List RowWrite) :
    Took (K ∪ rowOps {w | w ∈ rows}) (exec writeRow s rows) := by
  induction rows generalizing K s with
  | nil => simpa [rowOps_empty] using h
  | cons w rows ih =>
    have hset : {w' | w' ∈ w :: rows} = ({w} : Set RowWrite) ∪ {w' | w' ∈ rows} := by
      ext w'
      simp
    rw [hset, rowOps_union, ← Set.union_assoc]
    exact ih (took_writeRow hH h w)

section Runs

variable {K : Set KeyedOp} {W : Set RowWrite} {s : GrantSystem H J}

theorem GrantSystem.rows_step (hH : CollisionFree H) (h : Rows K W s.store) (a : GrantCall) :
    Rows K (W ∪ {w | w ∈ s.rowsOf a}) (s.step a).store := by
  have hone : ∀ w : RowWrite, W ∪ {w' | w' ∈ [w]} = insert w W := fun w => by
    ext w'
    simp [or_comm]
  cases a with
  | put p =>
    rw [rowsOf, hone]
    exact h.writeRow hH (.put p)
  | acquire pair lease candidate epoch =>
    show Rows K (W ∪ {w | w ∈ ([] : List RowWrite)}) s.store
    simpa using h
  | revoke pair epoch hlc =>
    show Rows K _ (revokeGrant s.cofold s.store pair epoch hlc).2.1
    rcases revokeGrant_cases s.strict s.store pair epoch hlc with ⟨hok, _, -, hr⟩ | ⟨hnot, _, hr⟩
    · rw [rowsOf, if_pos hok, hone, hr]
      exact h.writeRow hH (.delete pair hlc)
    · rw [rowsOf, if_neg hnot, hr]
      simpa using h
  | merge rows =>
    have hother := took_exec_writeRow hH (took_new : Took ∅ (new : KeyedStore H J)) rows
    rw [Set.empty_union] at hother
    have hmerged := Took.merge hH h hother
    rwa [Set.union_assoc, ← rowOps_union] at hmerged

/-- **What the store holds after a run.** -/
theorem GrantSystem.rows_exec (hH : CollisionFree H) (h : Rows K W s.store) (l : List GrantCall) :
    Rows K (W ∪ {w | w ∈ s.writtenBy l}) (exec step s l).store := by
  induction l generalizing s W with
  | nil => simpa [writtenBy] using h
  | cons a l ih =>
    have hset : W ∪ {w | w ∈ s.writtenBy (a :: l)} =
        (W ∪ {w | w ∈ s.rowsOf a}) ∪ {w | w ∈ (s.step a).writtenBy l} := by
      ext w
      simp [writtenBy, or_assoc]
    rw [hset]
    exact ih (GrantSystem.rows_step hH h a)

end Runs

/-! ## When a revocation is accepted -/

namespace GrantSystem

variable {s : GrantSystem H J} {pair : GrantPair}

/-- **When a revocation is accepted.** -/
theorem revoke_ok_iff {epoch : Epoch} {hlc : Hlc} :
    (s.revoke pair epoch hlc).2 = .ok () ↔ Accepts s.cofold pair epoch := by
  show (revokeGrant s.cofold s.store pair epoch hlc).2.2 = .ok () ↔ _
  rcases revokeGrant_cases s.strict s.store pair epoch hlc with ⟨hok, _, -, h⟩ | ⟨hnot, _, h⟩
  · exact iff_of_true (by rw [h]) hok
  · exact iff_of_false (by rw [h]; simp) hnot

def Revokes (pair : GrantPair) (s : GrantSystem H J) (a : GrantCall) : Prop :=
  ∃ pair' epoch hlc, a = .revoke pair' epoch hlc ∧ grantKey pair' = grantKey pair ∧
    (s.revoke pair' epoch hlc).2 = .ok ()

def HasKey (pair : GrantPair) (s : GrantSystem H J) : Prop :=
  s.cofold.invariant.contains (grantKey pair).bytes = true

theorem hasKey_step (a : GrantCall) :
    HasKey pair (s.step a) ↔ Revokes pair s a ∨ HasKey pair s := by
  cases a with
  | put p | merge rows => exact (or_iff_right (by rintro ⟨_, _, _, h, -⟩; cases h)).symm
  | acquire pair' lease candidate epoch =>
    have hkeep : (s.step (.acquire pair' lease candidate epoch)).cofold.invariant =
        s.cofold.invariant := by
      show (s.cofold.acquire (grantKey pair').bytes lease candidate epoch).1.invariant = _
      rw [StrictCofold.acquire]
      split_ifs <;> rfl
    rw [HasKey, HasKey, hkeep]
    exact (or_iff_right (by rintro ⟨_, _, _, h, -⟩; cases h)).symm
  | revoke pair' epoch hlc =>
    have hrevokes : Revokes pair s (.revoke pair' epoch hlc) ↔
        grantKey pair' = grantKey pair ∧ Accepts s.cofold pair' epoch := by
      constructor
      · rintro ⟨_, _, _, heq, hkey, hok⟩
        obtain ⟨rfl, rfl, rfl⟩ := GrantCall.revoke.inj heq
        exact ⟨hkey, revoke_ok_iff.1 hok⟩
      · rintro ⟨hkey, hok⟩
        exact ⟨_, _, _, rfl, hkey, revoke_ok_iff.2 hok⟩
    rw [hrevokes, HasKey, HasKey]
    show (revokeGrant s.cofold s.store pair' epoch hlc).1.invariant.contains _ = true ↔ _
    rcases revokeGrant_cases s.strict s.store pair' epoch hlc with ⟨hok, _, -, h⟩ | ⟨hnot, _, h⟩
    · rw [h]
      simp [UniqueOnce.contains, hok, ExtTreeSet.contains_insert, Str.bytes_injective.eq_iff]
    · rw [h]
      simp [hnot]

/-- The key was in the fold from the start, or a revocation under it was accepted. -/
def RevokedBefore (s : GrantSystem H J) (l : List GrantCall) (pair : GrantPair) : Prop :=
  HasKey pair s ∨ Ever step (Revokes pair) s l

theorem hasKey_exec_iff (l : List GrantCall) :
    HasKey pair (exec step s l) ↔ s.RevokedBefore l pair := by
  induction l using List.reverseRecOn with
  | nil => exact (or_iff_left not_ever_nil).symm
  | append_singleton l a ih =>
    rw [exec_concat, hasKey_step, ih, RevokedBefore, RevokedBefore, ever_concat, or_left_comm]

/-- The register of a cluster of one, in which the vote for an epoch was cast. -/
def ballot (epoch : Epoch) : LeaseRegister := ((LeaseRegister.new 1).grant "v" "a" epoch).1

theorem ballot_tryAcquire (epoch : Epoch) : ((ballot epoch).tryAcquire "a" epoch).2 = true := by
  have hgrants : (ballot epoch).grants = (∅ : ExtTreeMap NodeId (Epoch × NodeId)).insert "v"
      (epoch, "a") := by
    simp [ballot, LeaseRegister.grant, LeaseRegister.new]
  have hvotes : (ballot epoch).votes "a" epoch = 1 := by
    rw [LeaseRegister.votes, hgrants, (toList_insert_perm (by simp) _).countP_eq]
    simp
  have hquorum : (ballot epoch).isQuorum 1 = true := by
    simp [ballot, LeaseRegister.grant, LeaseRegister.new, LeaseRegister.isQuorum]
  have hholders : (ballot epoch).holders = ∅ := by
    simp [ballot, LeaseRegister.grant, LeaseRegister.new]
  simp [LeaseRegister.tryAcquire, hholders, hvotes, hquorum]

def Revocable (s : GrantSystem H J) (pair : GrantPair) : Prop :=
  ∃ lease candidate epoch, (∀ held ∈ s.cofold.heldEpoch (grantKey pair).bytes, held < epoch) ∧
    (s.acquire pair lease candidate epoch).2 = true ∧
    ∀ hlc, ((s.acquire pair lease candidate epoch).1.revoke pair epoch hlc).2 = .ok ()

theorem accepts_acquire_iff {lease : LeaseRegister} {candidate : NodeId} {epoch : Epoch}
    (h : (s.acquire pair lease candidate epoch).2 = true) :
    Accepts (s.acquire pair lease candidate epoch).1.cofold pair epoch ↔ ¬ HasKey pair s := by
  have hback : (lease.tryAcquire candidate epoch).2 = true := by
    by_contra hnot
    have hfalse : (s.cofold.acquire (grantKey pair).bytes lease candidate epoch).2.2 = false := by
      simp [StrictCofold.acquire, hnot]
    exact absurd (h.symm.trans hfalse) (by decide)
  have hinv : (s.acquire pair lease candidate epoch).1.cofold.invariant = s.cofold.invariant := by
    show (s.cofold.acquire (grantKey pair).bytes lease candidate epoch).1.invariant = _
    simp [StrictCofold.acquire, hback]
  have hheld : (s.acquire pair lease candidate epoch).1.cofold.heldEpoch (grantKey pair).bytes =
      some epoch :=
    (StrictCofold.heldEpoch_acquire hback _ _).trans (if_pos rfl)
  rw [Accepts, hheld, hinv, HasKey, Bool.not_eq_true]
  exact and_iff_right rfl

theorem revocable_iff : s.Revocable pair ↔ ¬ HasKey pair s := by
  constructor
  · rintro ⟨lease, candidate, epoch, -, hacquired, hok⟩
    exact (accepts_acquire_iff hacquired).1 (revoke_ok_iff.1 (hok ⟨0, 0, kvField⟩))
  · intro hnew
    -- the next epoch after the one that is held
    let epoch := (s.cofold.heldEpoch (grantKey pair).bytes).elim 0 (· + 1)
    have hacquired : (s.acquire pair (ballot epoch) "a" epoch).2 = true := by
      show (s.cofold.acquire (grantKey pair).bytes (ballot epoch) "a" epoch).2.2 = true
      simp [StrictCofold.acquire, ballot_tryAcquire]
    refine ⟨ballot epoch, "a", epoch, ?_, hacquired, fun hlc => ?_⟩
    · intro held hheld
      simp [epoch, Option.mem_def.1 hheld]
    · exact revoke_ok_iff.2 ((accepts_acquire_iff hacquired).2 hnew)

end GrantSystem

/-! ## A revoked grant stays revoked -/

/-- The pair is one of those that the decider reads. -/
def Listed (V : ViewCodec) (s : GrantSystem H J) (pair : GrantPair) : Prop :=
  ∃ g ∈ effectiveGrants V s.store,
    g.subject = pair.subject.val ∧ g.capability = pair.capability.val

def PairsApart (rows : List RowWrite) : Prop :=
  ∀ w ∈ rows, ∀ w' ∈ rows, grantKey w.pair = grantKey w'.pair → w.pair = w'.pair

/-- The stamp is above those of the grants of the pair. -/
def Outstamps (hlc : Hlc) (pair : GrantPair) (rows : List RowWrite) : Prop :=
  ∀ p, .put p ∈ rows → p.pair = pair → p.hlc < hlc

/-- The rows that a run takes from other stores. -/
def merged (l : List GrantCall) : List RowWrite :=
  l.flatMap fun a => match a with
    | .merge rows => rows
    | _ => []

section Staying

variable {V : ViewCodec} {K : Set KeyedOp} {s : GrantSystem H J} {pair : GrantPair}

theorem GrantSystem.put_mem_writtenBy {p : Put} {l : List GrantCall}
    (h : .put p ∈ s.writtenBy l) : .put p ∈ l ∨ .put p ∈ merged l := by
  induction l generalizing s with
  | nil => cases h
  | cons a l ih =>
    rw [writtenBy, List.mem_append] at h
    rcases h with h | h
    · cases a with
      | put q =>
        obtain rfl := RowWrite.put.inj (List.mem_singleton.1 h)
        exact .inl List.mem_cons_self
      | acquire pair lease candidate epoch => cases h
      | revoke pair epoch hlc =>
        rw [rowsOf] at h
        split_ifs at h
        · cases List.mem_singleton.1 h
        · cases h
      | merge rows => exact .inr (List.mem_append_left _ h)
    · rcases ih h with h | h
      · exact .inl (List.mem_cons_of_mem _ h)
      · exact .inr (List.mem_append_right _ h)

/-- **A deletion above all grants of a pair hides them.** -/
theorem not_listed_of_outstamps (hH : CollisionFree H) (hJ : J.Serde)
    (hV : V.Keeps (.over_ grantsCollection)) (hK : WithView V K) {rows : List RowWrite}
    (hrows : Rows K {w | w ∈ rows} s.store) (hapart : PairsApart rows) {hlc : Hlc}
    (hdelete : .delete pair hlc ∈ rows) (hout : Outstamps hlc pair rows) :
    ¬ Listed V s pair := by
  rintro ⟨g, hg, hsubject, hcapability⟩
  obtain ⟨id, hread⟩ := (hrows.mem_effectiveGrants hH hJ hV hK).1 hg
  obtain ⟨p, q, -, ⟨hp, hpid, hps⟩, ⟨hq, hqid, hqc⟩, -⟩ := hrows.readGrant_cases hH hJ hK hread
  -- subject and capability are from grants for one pair, the one in question
  have hpq : p.pair = q.pair := hapart _ hp.1 _ hq.1 (hpid.trans hqid.symm)
  have hpair : p.pair = pair := by
    refine GrantPair.ext (Str.ext (hps.symm.trans hsubject)) (Str.ext ?_)
    rw [hpq, ← hqc, hcapability]
  have hle : hlc ≤ p.hlc := hp.2 _ hdelete (congrArg grantKey hpair.symm)
  exact absurd (hout p hp.1 hpair) hle.not_gt

theorem listed_of_latest (hH : CollisionFree H) (hJ : J.Serde)
    (hV : V.Keeps (.over_ grantsCollection)) (hK : WithView V K) {rows : List RowWrite}
    (hrows : Rows K {w | w ∈ rows} s.store) {p : Put} (hp : .put p ∈ rows)
    (hlatest : ∀ w ∈ rows, w = .put p ∨ w.hlc < p.hlc) : Listed V s p.pair := by
  have hle : ∀ w ∈ rows, w.hlc ≤ p.hlc := by
    intro w hw
    rcases hlatest w hw with rfl | hlt
    · exact le_rfl
    · exact hlt.le
  refine ⟨p.explicit, (hrows.mem_effectiveGrants hH hJ hV hK).2 ⟨grantKey p.pair, ?_⟩, rfl, rfl⟩
  refine hrows.readGrant_of_latest hH hJ hK ⟨hp, fun w hw _ => hle w hw⟩ fun w hw _ hstamp => ?_
  exact (hlatest w hw).resolve_right hstamp.not_lt

/-- **A revoked grant stays revoked.** -/
theorem revocation_holds (hH : CollisionFree H) (hJ : J.Serde)
    (hV : V.Keeps (.over_ grantsCollection)) (hK : WithView V K) (hs : Took K s.store)
    (l : List GrantCall) (hapart : PairsApart (s.writtenBy l)) :
    (∀ p q pair epoch hlc, p ++ .revoke pair epoch hlc :: q <+: l →
      ((exec GrantSystem.step s p).revoke pair epoch hlc).2 = .ok () →
      (∀ r, .put r ∈ q → r.pair ≠ pair) →
      Outstamps hlc pair (s.writtenBy p ++ merged q) →
      ¬ Listed V (exec GrantSystem.step s (p ++ .revoke pair epoch hlc :: q)) pair) ∧
    ∀ p pair, p <+: l → Listed V (exec GrantSystem.step s p) pair →
      ((exec GrantSystem.step s p).Revocable pair ↔ ¬ s.RevokedBefore p pair) := by
  refine ⟨?_, ?_⟩
  · intro p q pair epoch hlc hprefix hok hq hout
    have hrows := GrantSystem.rows_exec hH (rows_of_took hs) (p ++ .revoke pair epoch hlc :: q)
    rw [Set.empty_union] at hrows
    have hwritten : s.writtenBy (p ++ .revoke pair epoch hlc :: q) = s.writtenBy p ++
        (.delete pair hlc ::
          (exec GrantSystem.step s (p ++ [.revoke pair epoch hlc])).writtenBy q) := by
      rw [GrantSystem.writtenBy_append, GrantSystem.writtenBy, GrantSystem.rowsOf,
        if_pos (GrantSystem.revoke_ok_iff.1 hok), exec_concat]
      rfl
    have hdelete : .delete pair hlc ∈ s.writtenBy (p ++ .revoke pair epoch hlc :: q) := by
      rw [hwritten]
      simp
    refine not_listed_of_outstamps hH hJ hV hK hrows ?_ hdelete ?_
    · obtain ⟨rest, rfl⟩ := hprefix
      intro w hw w' hw'
      rw [GrantSystem.writtenBy_append] at hapart
      exact hapart w (List.mem_append_left _ hw) w' (List.mem_append_left _ hw')
    · intro r hr hpair
      rw [hwritten, List.mem_append, List.mem_cons] at hr
      rcases hr with hr | hr | hr
      · exact hout r (List.mem_append_left _ hr) hpair
      · cases hr
      · rcases GrantSystem.put_mem_writtenBy hr with hr | hr
        · exact absurd hpair (hq r hr)
        · exact hout r (List.mem_append_right _ hr) hpair
  · intro p pair _ _
    rw [GrantSystem.revocable_iff, GrantSystem.hasKey_exec_iff]

end Staying

theorem fits_alice : ("alice" ++ ":" ++ "stream:append").utf8ByteSize < 2 ^ 63 := by decide

def alice : GrantPair :=
  ⟨.lit "alice", .lit "stream:append", fits_alice⟩

/-- A store with the view, and an empty fold. -/
noncomputable def freshGrants : GrantSystem (tableDigest []) serdeJson :=
  ⟨viewOnly, .new .new, rfl⟩

theorem not_hasKey_freshGrants (pair : GrantPair) : ¬ GrantSystem.HasKey pair freshGrants := by
  show ¬ (∅ : ExtTreeSet Bytes).contains _ = true
  simp

def grantedToAlice (hlc : Hlc) : List GrantCall :=
  [.put ⟨alice, .allow, hlc⟩, .acquire alice (GrantSystem.ballot 1) "a" 1]

theorem accepts_grantedToAlice (hlc : Hlc) :
    Accepts (exec GrantSystem.step freshGrants (grantedToAlice hlc)).cofold alice 1 := by
  refine (GrantSystem.accepts_acquire_iff ?_).2 ?_
  · show (StrictCofold.acquire _ _ _ _ _).2.2 = true
    simp [StrictCofold.acquire, GrantSystem.ballot_tryAcquire]
  · intro hkey
    rcases (GrantSystem.hasKey_step _).1 hkey with ⟨_, _, _, h, -⟩ | hkey
    · cases h
    · exact not_hasKey_freshGrants alice hkey

theorem writtenBy_grantedToAlice (hlc hlc' : Hlc) (l : List GrantCall) :
    freshGrants.writtenBy (grantedToAlice hlc ++ .revoke alice 1 hlc' :: l) =
      .put ⟨alice, .allow, hlc⟩ :: .delete alice hlc' ::
        (exec GrantSystem.step freshGrants
          (grantedToAlice hlc ++ [.revoke alice 1 hlc'])).writtenBy l := by
  rw [GrantSystem.writtenBy_append, GrantSystem.writtenBy, GrantSystem.rowsOf,
    if_pos (accepts_grantedToAlice hlc), exec_concat]
  rfl

/-- Granted at 1, revoked at 2: nothing is read any more, and the grant could be revoked. -/
theorem revoked_from_alice :
    ¬ Listed grantsViewCodec (exec GrantSystem.step freshGrants
        (grantedToAlice (stamp 1) ++ .revoke alice 1 (stamp 2) :: [])) alice ∧
      (Listed grantsViewCodec (exec GrantSystem.step freshGrants (grantedToAlice (stamp 1))) alice →
        (exec GrantSystem.step freshGrants (grantedToAlice (stamp 1))).Revocable alice) := by
  have hwritten := writtenBy_grantedToAlice (stamp 1) (stamp 2) []
  have hapart : PairsApart
      (freshGrants.writtenBy (grantedToAlice (stamp 1) ++ .revoke alice 1 (stamp 2) :: [])) := by
    rw [hwritten]
    rintro w hw w' hw' -
    simp only [GrantSystem.writtenBy, List.mem_cons, List.not_mem_nil, or_false] at hw hw'
    rcases hw with rfl | rfl <;> rcases hw' with rfl | rfl <;> rfl
  obtain ⟨hstays, hrevocable⟩ := revocation_holds (V := grantsViewCodec)
    tableDigest_nil_collisionFree serdeJson_serde (soleViewCodec_keeps _) (withView_catalogOp _ _)
    took_viewOnly
    (grantedToAlice (stamp 1) ++ .revoke alice 1 (stamp 2) :: []) hapart
  refine ⟨hstays _ [] alice 1 (stamp 2) ⟨[], by simp⟩ ?_ (by simp) ?_, fun hlisted => ?_⟩
  · exact GrantSystem.revoke_ok_iff.2 (accepts_grantedToAlice _)
  · intro p hp _
    have hsole : RowWrite.put p ∈ [RowWrite.put ⟨alice, .allow, stamp 1⟩] := hp
    obtain rfl := RowWrite.put.inj (List.mem_singleton.1 hsole)
    decide
  · refine (hrevocable _ alice (List.prefix_append _ _) hlisted).2 ?_
    rw [← GrantSystem.hasKey_exec_iff]
    intro hkey
    have hnew := (accepts_grantedToAlice (stamp 1)).2
    exact absurd (hkey.symm.trans hnew) (by decide)

def grantedAgain : List GrantCall :=
  grantedToAlice (stamp 1) ++ [.revoke alice 1 (stamp 2), .put ⟨alice, .allow, stamp 3⟩]

/-- **Revocations that are lost.** -/
theorem revocation_lost :
    (((exec GrantSystem.step freshGrants (grantedToAlice (stamp 2))).revoke alice 1
        (stamp 1)).2 = .ok () ∧
      Listed grantsViewCodec (exec GrantSystem.step freshGrants
        (grantedToAlice (stamp 2) ++ [.revoke alice 1 (stamp 1)])) alice) ∧
    Listed grantsViewCodec (exec GrantSystem.step freshGrants grantedAgain) alice ∧
      ¬ (exec GrantSystem.step freshGrants grantedAgain).Revocable alice := by
  have hlisted : ∀ l p, .put p ∈ freshGrants.writtenBy l →
      (∀ w ∈ freshGrants.writtenBy l, w = .put p ∨ w.hlc < p.hlc) →
        Listed grantsViewCodec (exec GrantSystem.step freshGrants l) p.pair := by
    intro l p
    have hrows := GrantSystem.rows_exec tableDigest_nil_collisionFree
      (rows_of_took (s := freshGrants.store) took_viewOnly) l
    rw [Set.empty_union] at hrows
    exact listed_of_latest tableDigest_nil_collisionFree serdeJson_serde (soleViewCodec_keeps _)
      (withView_catalogOp _ _) hrows
  refine ⟨⟨GrantSystem.revoke_ok_iff.2 (accepts_grantedToAlice _), ?_⟩, ?_, ?_⟩
  · refine hlisted _ ⟨alice, .allow, stamp 2⟩ ?_ ?_ <;> rw [writtenBy_grantedToAlice]
    · exact List.mem_cons_self
    · exact List.forall_mem_cons.2 ⟨.inl rfl, List.forall_mem_singleton.2 (.inr (by decide))⟩
  · refine hlisted _ ⟨alice, .allow, stamp 3⟩ ?_ ?_ <;>
      rw [grantedAgain, writtenBy_grantedToAlice]
    · exact List.mem_cons_of_mem _ (List.mem_cons_of_mem _ List.mem_cons_self)
    · exact List.forall_mem_cons.2 ⟨.inr (by decide), List.forall_mem_cons.2 ⟨.inr (by decide),
        List.forall_mem_singleton.2 (.inl rfl)⟩⟩
  · rw [GrantSystem.revocable_iff, not_not, GrantSystem.hasKey_exec_iff]
    refine .inr ⟨grantedToAlice (stamp 1), .revoke alice 1 (stamp 2), _, rfl, alice, 1, stamp 2, rfl,
      rfl, ?_⟩
    exact GrantSystem.revoke_ok_iff.2 (accepts_grantedToAlice _)

end Rbac
end Pillar
