import Pillar.Core
import Pillar.Lib.Budget

/-!
# The web of trust

An authority is anchored at an owner. A trust signature from a signer to a subject vouches for the
subject up to a level of further hops; keys, signatures and grants can be revoked.
-/

namespace Pillar

open Std Lib.Budget

/-- The level that the signature of a relay must carry. -/
def relayMinLevel : ℕ := 2

/-- The signatures and the revocations, all of them sets that only grow. -/
structure WotAuthority where
  owner : NodeId
  /-- The bound on the depth of delegation, and the owner's budget. -/
  maxDepth : ℕ
  edges : Finset (Edge NodeId)
  revokedKeys : Finset NodeId
  revokedEdges : Finset (NodeId × NodeId)
  revokedGrants : Finset NodeId
  deriving DecidableEq

namespace WotAuthority

variable {w : WotAuthority}

/-! ## The operations -/

def new (owner : NodeId) (maxDepth : ℕ) : WotAuthority := ⟨owner, maxDepth, ∅, ∅, ∅, ∅⟩

def issueEdge (w : WotAuthority) (signer subject : NodeId) (level : ℕ) : WotAuthority :=
  { w with edges := insert ⟨signer, subject, level⟩ w.edges }

def revokeKey (w : WotAuthority) (key : NodeId) : WotAuthority :=
  { w with revokedKeys := insert key w.revokedKeys }

def revokeEdge (w : WotAuthority) (signer subject : NodeId) : WotAuthority :=
  { w with revokedEdges := insert (signer, subject) w.revokedEdges }

def revokeGrant (w : WotAuthority) (subject : NodeId) : WotAuthority :=
  { w with revokedGrants := insert subject w.revokedGrants }

/-! ## Valid signatures -/

/-- Neither the key of an end nor the signature is revoked. -/
def Valid (w : WotAuthority) (e : Edge NodeId) : Prop :=
  e.signer ∉ w.revokedKeys ∧ e.subject ∉ w.revokedKeys ∧ (e.signer, e.subject) ∉ w.revokedEdges

instance (w : WotAuthority) (e : Edge NodeId) : Decidable (w.Valid e) :=
  inferInstanceAs (Decidable (_ ∧ _))

structure Iteration (w : WotAuthority) where
  order : List (Edge NodeId)
  spans : (order : Multiset (Edge NodeId)) = w.edges.val

namespace Iteration

variable (it : w.Iteration)

def validEdges : List (Edge NodeId) := it.order.filter fun e => decide (w.Valid e)

theorem mem_iff {e : Edge NodeId} : e ∈ it.order ↔ e ∈ w.edges := by
  rw [← Finset.mem_val, ← it.spans, Multiset.mem_coe]

@[simp] theorem mem_validEdges {e : Edge NodeId} :
    e ∈ it.validEdges ↔ e ∈ w.edges ∧ w.Valid e := by
  simp [validEdges, it.mem_iff]

/-! ## Reachability -/

def reachableDepth (node : NodeId) : Option ℕ :=
  if node = w.owner then
    -- a revoked owner has no authority to give
    if node ∈ w.revokedKeys then none else some w.maxDepth
  else if node ∈ w.revokedKeys then none
  else
    (relax it.validEdges (w.maxDepth + 1)
      (if w.owner ∈ w.revokedKeys then ∅
      else (∅ : ExtTreeMap NodeId ℕ).insert w.owner w.maxDepth))[node]?

def reachableDepthFrom (root : NodeId) (rootBudget : ℕ) (node : NodeId) : Option ℕ :=
  if node = root then
    if root ∈ w.revokedKeys then none else some rootBudget
  else if node ∈ w.revokedKeys ∨ root ∈ w.revokedKeys then none
  else
    (relax it.validEdges (rootBudget + 1)
      ((∅ : ExtTreeMap NodeId ℕ).insert root rootBudget))[node]?

def isAuthoritative (subject : NodeId) : Bool :=
  decide (subject ∉ w.revokedGrants) && (it.reachableDepth subject).isSome

def canRelay (subject : NodeId) : Bool :=
  if subject ∈ w.revokedGrants ∨ it.reachableDepth subject = none then false
  else it.validEdges.any fun e => decide (e.subject = subject) && decide (relayMinLevel ≤ e.level)

def isGroupMember (parent subject : NodeId) : Bool :=
  it.validEdges.any fun e => decide (e.signer = parent) && decide (e.subject = subject)

end Iteration

/-! ## The optimum over all paths -/

/-- A path of valid signatures leads from the root, whose key is not revoked, to the
node and leaves the budget `b`. -/
def Arrives (w : WotAuthority) (root : NodeId) (budget : ℕ) (node : NodeId) (b : ℕ) : Prop :=
  root ∉ w.revokedKeys ∧ Reaches {e | e ∈ w.edges ∧ w.Valid e} root budget node b

theorem Arrives.not_revoked {root node : NodeId} {budget b : ℕ} (h : w.Arrives root budget node b) :
    node ∉ w.revokedKeys := by
  by_cases hnode : node = root
  · exact hnode ▸ h.1
  · obtain ⟨e, ⟨-, -, hsubject, -⟩, rb, -, -, rfl, -⟩ := h.2.last hnode
    exact hsubject

theorem Arrives.mono {w' : WotAuthority} (hroot : w'.revokedKeys ⊆ w.revokedKeys)
    (hvalid : ∀ e ∈ w.edges, w.Valid e → e ∈ w'.edges ∧ w'.Valid e) {root node : NodeId}
    {budget b : ℕ} (h : w.Arrives root budget node b) : w'.Arrives root budget node b :=
  ⟨fun hr => h.1 (hroot hr), h.2.mono fun e he _ => hvalid e he.1 he.2⟩

namespace Iteration

theorem reachableDepthFrom_isBest (it : w.Iteration) (root : NodeId) (budget : ℕ) (node : NodeId) :
    IsBest {b | w.Arrives root budget node b} (it.reachableDepthFrom root budget node) := by
  rw [reachableDepthFrom]
  split_ifs with hnode hroot hrevoked
  · exact Set.eq_empty_of_forall_notMem fun b hb => hb.1 hroot
  · subst hnode
    exact ⟨⟨hroot, .start⟩, fun b hb => hb.2.le⟩
  · refine Set.eq_empty_of_forall_notMem fun b hb => ?_
    exact hrevoked.elim hb.not_revoked hb.1
  · have hset : {b | w.Arrives root budget node b} =
        {b | Reaches {e | e ∈ w.edges ∧ w.Valid e} root budget node b} := by
      ext b
      simp [Arrives, not_or.1 hrevoked]
    rw [hset]
    exact bestBudgets_isBest (fun e => it.mem_validEdges) budget.le_succ

theorem reachableDepth_eq (it : w.Iteration) (node : NodeId) :
    it.reachableDepth node = it.reachableDepthFrom w.owner w.maxDepth node := by
  rw [reachableDepth, reachableDepthFrom]
  by_cases hnode : node = w.owner
  · simp [hnode]
  · by_cases howner : w.owner ∈ w.revokedKeys
    · simp [hnode, howner, relax_empty]
    · simp [hnode, howner]

theorem reachableDepth_isBest (it : w.Iteration) (node : NodeId) :
    IsBest {b | w.Arrives w.owner w.maxDepth node b} (it.reachableDepth node) := by
  rw [it.reachableDepth_eq]
  exact it.reachableDepthFrom_isBest _ _ _

end Iteration

/-! ## Adding to the sets -/

/-- Nowhere less arrives in `w'` than in `w`, from whatever root and whatever the
orders of iteration. -/
def Below (w w' : WotAuthority) : Prop :=
  ∀ (it : w.Iteration) (it' : w'.Iteration) (node : NodeId),
    it.reachableDepth node ≤ it'.reachableDepth node ∧
      ∀ root budget, it.reachableDepthFrom root budget node ≤ it'.reachableDepthFrom root budget node

theorem below_of_valid {w' : WotAuthority} (howner : w'.owner = w.owner)
    (hdepth : w'.maxDepth = w.maxDepth) (hroot : w'.revokedKeys ⊆ w.revokedKeys)
    (hvalid : ∀ e ∈ w.edges, w.Valid e → e ∈ w'.edges ∧ w'.Valid e) : w.Below w' := by
  have hfrom : ∀ (it : w.Iteration) (it' : w'.Iteration) (root : NodeId) (budget : ℕ)
      (node : NodeId),
      it.reachableDepthFrom root budget node ≤ it'.reachableDepthFrom root budget node := by
    intro it it' root budget node
    exact (it.reachableDepthFrom_isBest root budget node).le
      (it'.reachableDepthFrom_isBest root budget node) fun b hb => hb.mono hroot hvalid
  intro it it' node
  refine ⟨?_, fun root budget => hfrom it it' root budget node⟩
  rw [it.reachableDepth_eq, it'.reachableDepth_eq, howner, hdepth]
  exact hfrom it it' _ _ node

theorem below_issueEdge (w : WotAuthority) (signer subject : NodeId) (level : ℕ) :
    w.Below (w.issueEdge signer subject level) :=
  below_of_valid rfl rfl subset_rfl fun _ he hv => ⟨Finset.mem_insert_of_mem he, hv⟩

theorem revokeKey_below (w : WotAuthority) (key : NodeId) : (w.revokeKey key).Below w := by
  refine below_of_valid rfl rfl (Finset.subset_insert _ _) fun e he hv => ⟨he, ?_, ?_, hv.2.2⟩
  · exact fun h => hv.1 (Finset.mem_insert_of_mem h)
  · exact fun h => hv.2.1 (Finset.mem_insert_of_mem h)

theorem revokeEdge_below (w : WotAuthority) (signer subject : NodeId) :
    (w.revokeEdge signer subject).Below w :=
  below_of_valid rfl rfl subset_rfl fun _ he hv =>
    ⟨he, hv.1, hv.2.1, fun h => hv.2.2 (Finset.mem_insert_of_mem h)⟩

theorem revokeGrant_below (w : WotAuthority) (subject : NodeId) : (w.revokeGrant subject).Below w :=
  below_of_valid rfl rfl subset_rfl fun _ he hv => ⟨he, hv⟩

/-- **Reachability is the optimum over all paths.** -/
theorem reachability_is_optimal (w : WotAuthority) :
    (∀ (it : w.Iteration) (node : NodeId),
      IsBest {b | w.Arrives w.owner w.maxDepth node b} (it.reachableDepth node)) ∧
    (∀ (it : w.Iteration) (root : NodeId) (budget : ℕ) (node : NodeId),
      IsBest {b | w.Arrives root budget node b} (it.reachableDepthFrom root budget node)) ∧
    (∀ signer subject level, w.Below (w.issueEdge signer subject level)) ∧
    (∀ key, (w.revokeKey key).Below w) ∧
    (∀ signer subject, (w.revokeEdge signer subject).Below w) ∧
    (∀ subject, (w.revokeGrant subject).Below w) :=
  ⟨fun it => it.reachableDepth_isBest, fun it => it.reachableDepthFrom_isBest, w.below_issueEdge,
    w.revokeKey_below, w.revokeEdge_below, w.revokeGrant_below⟩

end WotAuthority
end Pillar

/-! ## Who may relay

A relay must be authoritative and must be vouched for by a signature of level 2 or more. -/

namespace Pillar.WotAuthority

open Lib.Budget

variable {w : WotAuthority}

def RelayEdge (w : WotAuthority) (subject : NodeId) (e : Edge NodeId) : Prop :=
  e ∈ w.edges ∧ w.Valid e ∧ e.subject = subject ∧ relayMinLevel ≤ e.level

namespace Iteration

variable (it : w.Iteration)

def inside (identity : NodeId) : Bool :=
  (it.reachableDepth identity).any fun rb => decide (1 ≤ rb)

/-- The authority without the signatures of those who have nothing to pass on. -/
def insideOnly : WotAuthority := { w with edges := w.edges.filter fun e => it.inside e.signer }

def OutsideOnly (subject : NodeId) : Prop :=
  (∃ e, w.RelayEdge subject e) ∧ ∀ e, w.RelayEdge subject e → it.inside e.signer = false

theorem inside_iff {identity : NodeId} :
    it.inside identity = true ↔ ∃ rb, it.reachableDepth identity = some rb ∧ 1 ≤ rb := by
  simp [inside, Option.any_eq_true]

theorem inside_of_arrives {identity : NodeId} {rb : ℕ} (hpos : 1 ≤ rb)
    (h : w.Arrives w.owner w.maxDepth identity rb) : it.inside identity = true := by
  have hbest := it.reachableDepth_isBest identity
  obtain ⟨v, hv⟩ := Option.isSome_iff_exists.1 (hbest.isSome_iff.2 ⟨rb, h⟩)
  exact it.inside_iff.2 ⟨v, hv, hpos.trans ((hbest.eq_some_iff.1 hv).2 h)⟩

variable {subject : NodeId}

theorem canRelay_iff :
    it.canRelay subject = true ↔
      it.isAuthoritative subject = true ∧ ∃ e, w.RelayEdge subject e := by
  by_cases hgrant : subject ∈ w.revokedGrants
  · simp [canRelay, isAuthoritative, hgrant]
  · cases hdepth : it.reachableDepth subject with
    | none => simp [canRelay, isAuthoritative, hdepth]
    | some v => simp [canRelay, isAuthoritative, hgrant, hdepth, RelayEdge, and_assoc]

/-- **The signatures from outside carry nothing.** -/
theorem arrives_insideOnly_iff {node : NodeId} {b : ℕ} :
    it.insideOnly.Arrives w.owner w.maxDepth node b ↔ w.Arrives w.owner w.maxDepth node b := by
  constructor
  · intro h
    have hsub : w.revokedKeys ⊆ it.insideOnly.revokedKeys := subset_rfl
    exact h.mono hsub fun e he hv => ⟨(Finset.mem_filter.1 he).1, hv⟩
  · intro h
    refine ⟨h.1, h.2.mono ?_⟩
    rintro e ⟨he, hv⟩ ⟨rb, hpos, hreach⟩
    exact ⟨Finset.mem_filter.2 ⟨he, it.inside_of_arrives hpos ⟨h.1, hreach⟩⟩, hv⟩

theorem isAuthoritative_insideOnly (it' : it.insideOnly.Iteration) (subject : NodeId) :
    it'.isAuthoritative subject = it.isAuthoritative subject := by
  have hsome : (it'.reachableDepth subject).isSome = (it.reachableDepth subject).isSome := by
    rw [Bool.eq_iff_iff, (it'.reachableDepth_isBest subject).isSome_iff,
      (it.reachableDepth_isBest subject).isSome_iff]
    exact exists_congr fun b => it.arrives_insideOnly_iff
  rw [isAuthoritative, isAuthoritative, hsome]
  rfl

theorem relayEdge_insideOnly_iff {e : Edge NodeId} :
    it.insideOnly.RelayEdge subject e ↔ w.RelayEdge subject e ∧ it.inside e.signer = true := by
  constructor
  · rintro ⟨he, hrest⟩
    obtain ⟨he, hin⟩ := Finset.mem_filter.1 he
    exact ⟨⟨he, hrest⟩, hin⟩
  · rintro ⟨⟨he, hrest⟩, hin⟩
    exact ⟨Finset.mem_filter.2 ⟨he, hin⟩, hrest⟩

theorem canRelay_insideOnly_iff (it' : it.insideOnly.Iteration) :
    it'.canRelay subject = true ↔ it.isAuthoritative subject = true ∧
      ∃ e, w.RelayEdge subject e ∧ it.inside e.signer = true := by
  rw [canRelay_iff, it.isAuthoritative_insideOnly it' subject]
  exact and_congr_right fun _ => exists_congr fun e => it.relayEdge_insideOnly_iff

/-- The set of the signatures from inside can be run through as well. -/
def insideIteration : it.insideOnly.Iteration where
  order := it.order.filter fun e => it.inside e.signer
  spans := by simp [insideOnly, ← it.spans, Multiset.filter_coe]

end Iteration

/-- **Relays and the outside.** -/
theorem relay_vouched_inside_iff (w : WotAuthority) (it : w.Iteration) :
    ((∀ s, s ≠ w.owner → it.canRelay s = true →
        ∃ e ∈ w.edges, w.Valid e ∧ e.subject = s ∧ 2 ≤ e.level ∧
          ∃ rb, it.reachableDepth e.signer = some rb ∧ 1 ≤ rb) ∧
      ∀ (it' : it.insideOnly.Iteration) (n : NodeId), it'.canRelay n = it.canRelay n) ↔
    ¬ ∃ n, it.isAuthoritative n = true ∧ it.OutsideOnly n := by
  constructor
  · rintro ⟨-, hsame⟩ ⟨n, hauth, hedge, hout⟩
    have hrelay := it.canRelay_iff.2 ⟨hauth, hedge⟩
    rw [← hsame it.insideIteration n, it.canRelay_insideOnly_iff] at hrelay
    obtain ⟨-, e, he, hin⟩ := hrelay
    rw [hout e he] at hin
    cases hin
  · intro hnone
    have hinside : ∀ n, it.canRelay n = true →
        ∃ e, w.RelayEdge n e ∧ it.inside e.signer = true := by
      intro n hn
      obtain ⟨hauth, hedge⟩ := it.canRelay_iff.1 hn
      by_contra hno
      push Not at hno
      exact hnone ⟨n, hauth, hedge, fun e he => Bool.eq_false_iff.2 (hno e he)⟩
    refine ⟨fun s _ hs => ?_, fun it' n => ?_⟩
    · obtain ⟨e, ⟨he, hv, hsub, hlevel⟩, hin⟩ := hinside s hs
      exact ⟨e, he, hv, hsub, hlevel, it.inside_iff.1 hin⟩
    · rw [Bool.eq_iff_iff, it.canRelay_insideOnly_iff]
      constructor
      · rintro ⟨hauth, e, he, -⟩
        exact it.canRelay_iff.2 ⟨hauth, e, he⟩
      · exact fun hn => ⟨(it.canRelay_iff.1 hn).1, hinside n hn⟩

def weaklyTrusted : WotAuthority := (new "owner" 3).issueEdge "owner" "alice" 1

def raisedByMallory : WotAuthority := weaklyTrusted.issueEdge "mallory" "alice" 2

/-- Alice becomes a relay by the signature of an identity that is not reachable. -/
theorem mallory_makes_alice_relay :
    ∃ (before : weaklyTrusted.Iteration) (after : raisedByMallory.Iteration),
      before.canRelay "alice" = false ∧ after.canRelay "alice" = true ∧
      after.reachableDepth "mallory" = none ∧
      ∀ e ∈ raisedByMallory.edges, e.subject = "alice" → 2 ≤ e.level →
        after.reachableDepth e.signer = none := by
  refine ⟨⟨[⟨"owner", "alice", 1⟩], by decide⟩,
    ⟨[⟨"owner", "alice", 1⟩, ⟨"mallory", "alice", 2⟩], by decide⟩, ?_⟩
  decide +kernel

end Pillar.WotAuthority
