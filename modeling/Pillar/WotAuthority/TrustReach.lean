import Pillar.WotAuthority.TrustDocuments

/-!
# Who is reachable over the documents

The trust store against the authority that it replaces, after the same calls.

* `decides_as_authority` — **then they decide alike.**
-/

namespace Pillar.WotTrustStore

open Std KeyedStore SqlViews Lib.Budget Lib.HopSearch Lib.Runs

variable {H : Bytes → Bytes} {J : KeyedCodec} {V : ViewCodec} {owner : Str} {maxDepth : UInt8}
  {calls : List Call}

/-! ## The traversal -/

/-- The two fields of an edge that is traversed. -/
inductive Endpoint where
  | source
  | target

def Endpoint.name : Endpoint → Str
  | .source => edgeFrom
  | .target => edgeTo

def Endpoint.of (pair : EdgePair) : Endpoint → Str
  | .source => pair.source
  | .target => pair.target

theorem Endpoint.name_injective : Function.Injective Endpoint.name := by
  intro a b h
  cases a <;> cases b <;> first | rfl | exact absurd h (by decide)

def projectWrite (e : TrustEdge) : DocWrite Endpoint :=
  ⟨edgeId e.pair, projectionAuthor, fun c => .put (.scalar (c.of e.pair).bytes)⟩

theorem exec_projectEdge (edges : List TrustEdge) (p : KeyedStore H J × UInt64) :
    exec projectEdge p edges = exec (DocWrite.apply projectedEdges Endpoint.name
      [.source, .target]) p (edges.map projectWrite) := by
  induction edges generalizing p with
  | nil => rfl
  | cons e edges ih => exact ih _

theorem mem_readEdges_project (hH : CollisionFree H) (hJ : J.RoundTrips) {edges : List TrustEdge}
    (hroom : edges.length < 2 ^ 64)
    (hapart : edges.Pairwise fun e e' => edgeId e.pair ≠ edgeId e'.pair)
    {a b : Str} :
    (a, b) ∈ readEdges (exec projectEdge ((KeyedStore.new : KeyedStore H J), 0) edges).1
        projectedEdges ↔
      ∃ e ∈ edges, e.pair.source = a ∧ e.pair.target = b := by
  have hwrote : Wrote projectedEdges Endpoint.name [.source, .target]
      ((KeyedStore.new : KeyedStore H J), 0) (edges.map projectWrite)
      (exec projectEdge (KeyedStore.new, 0) edges) := by
    rw [exec_projectEdge]
    refine wrote_exec_apply hH hJ Endpoint.name_injective (by simp)
      ⟨⟨0, 0, projectionAuthor⟩, stampedUpTo_new _, rfl⟩ ?_ (by simpa using hroom)
    intro d hd c
    obtain ⟨e, -, rfl⟩ := List.mem_map.1 hd
    exact ⟨_, rfl⟩
  have hread : ∀ id c, (exec projectEdge ((KeyedStore.new : KeyedStore H J), 0) edges).1.docGetField
      projectedEdges id (Endpoint.name c) =
        (edges.reverse.find? fun e => edgeId e.pair = id).map fun e =>
          .scalar (c.of e.pair).bytes := by
    intro id c
    rw [hwrote.fields id c (by cases c <;> simp), lastWrite_map, docGetField, fieldValue, winner_new]
    show Option.elim (Option.map _ (edges.reverse.find? fun e => edgeId e.pair = id)) _ _ = _
    cases edges.reverse.find? fun e => edgeId e.pair = id <;> rfl
  have hbytes : ∀ {x y : Str}, Value.scalar x.bytes = .scalar y.bytes → x = y := fun h =>
    Str.bytes_injective (RawValue.scalar.inj (congrArg Subtype.val h))
  rw [mem_readEdges_iff]
  constructor
  · rintro ⟨id, hfrom, hto⟩
    have hfrom := (hread id .source).symm.trans hfrom
    have hto := (hread id .target).symm.trans hto
    obtain ⟨e, he, hsource⟩ := Option.map_eq_some_iff.1 hfrom
    rw [he] at hto
    exact ⟨e, List.mem_reverse.1 (List.mem_of_find?_eq_some he), hbytes hsource,
      hbytes (Option.some.inj hto)⟩
  · rintro ⟨e, he, rfl, rfl⟩
    have hfind : (edges.reverse.find? fun e' => edgeId e'.pair = edgeId e.pair) = some e := by
      cases hfind : edges.reverse.find? fun e' => edgeId e'.pair = edgeId e.pair with
      | none => exact absurd (List.find?_eq_none.1 hfind e (by simpa using he)) (by simp)
      | some e' =>
        have hid : edgeId e'.pair = edgeId e.pair := by simpa using List.find?_some hfind
        have he' := List.mem_reverse.1 (List.mem_of_find?_eq_some hfind)
        have hinj := List.inj_on_of_nodup_map (List.pairwise_map.2 hapart)
        rw [hinj he' he hid]
    refine ⟨edgeId e.pair, (hread _ .source).trans ?_, (hread _ .target).trans ?_⟩
    · rw [hfind]
      rfl
    · rw [hfind]
      rfl

/-- An edge from one key to another is left behind. -/
def Trusts (calls : List Call) (a b : Str) : Prop :=
  ∃ id e, documents calls id = some e ∧ e.pair.source = a ∧ e.pair.target = b

theorem isReachableFromOwner_run_iff (hH : CollisionFree H) (hJ : J.RoundTrips)
    (hV : V.Keeps (.over_ edgesCollection)) (hroom : calls.length < 2 ^ 64) {key : Str} :
    (run H J V owner maxDepth calls).isReachableFromOwner V key = true ↔
      ∃ n ≤ maxDepth.toNat, Walk (Trusts calls) n owner key := by
  have hedges : ∀ a b, (a, b) ∈ readEdges ((run H J V owner maxDepth calls).projectionStore V)
      projectedEdges ↔ Trusts calls a b := by
    intro a b
    rw [projectionStore, mem_readEdges_project hH hJ
      ((length_liveEdges_le hH hJ hV hroom).trans_lt hroom) (liveEdges_apart hH hJ hV hroom)]
    simp only [mem_liveEdges_run hH hJ hV hroom, Trusts]
    exact ⟨fun ⟨e, ⟨id, hid⟩, hends⟩ => ⟨id, e, hid, hends⟩,
      fun ⟨id, e, hid, hends⟩ => ⟨e, ⟨id, hid⟩, hends⟩⟩
  have hleads : Leads (readEdges ((run H J V owner maxDepth calls).projectionStore V)
      projectedEdges) = Trusts calls := by
    funext a b
    exact propext (hedges a b)
  obtain ⟨-, howner, hdepth⟩ := @run_eq H J V owner maxDepth calls
  rw [isReachableFromOwner, Bool.or_eq_true, decide_eq_true_eq, decide_eq_true_eq, reachable,
    SqlViews.traverse, mem_search_iff, hleads, howner, hdepth]
  constructor
  · rintro (rfl | ⟨-, hwalk⟩)
    · exact ⟨0, Nat.zero_le _, .refl key⟩
    · exact hwalk
  · intro hwalk
    by_cases hkey : key = owner
    · exact .inl hkey
    · exact .inr ⟨hkey, hwalk⟩

/-! ## The authority -/

def certified (calls : List Call) : Set (Edge NodeId) :=
  {e | ∃ pair weight, .certify pair weight ∈ calls ∧ .revoke pair ∉ calls ∧
    e = ⟨pair.source.val, pair.target.val, weight.toNat⟩}

theorem authority_eq (owner : Str) (maxDepth : UInt8) (calls : List Call) :
    let w := authority owner maxDepth calls
    (w.owner = owner.val ∧ w.maxDepth = maxDepth.toNat ∧ w.revokedKeys = ∅) ∧
      (∀ e, e ∈ w.edges ↔ ∃ pair weight, .certify pair weight ∈ calls ∧
        e = ⟨pair.source.val, pair.target.val, weight.toNat⟩) ∧
      ∀ p, p ∈ w.revokedEdges ↔ ∃ pair, .revoke pair ∈ calls ∧
        p = (pair.source.val, pair.target.val) := by
  induction calls using List.reverseRecOn with
  | nil => simp [authority, WotAuthority.new]
  | append_singleton calls call ih =>
    obtain ⟨hfixed, hedges, hrevoked⟩ := ih
    simp only [authority, exec_concat] at *
    cases call with
    | certify pair weight =>
      refine ⟨hfixed, fun e => ?_, fun p => ?_⟩
      · simp only [Call.issue, WotAuthority.issueEdge, Finset.mem_insert, hedges]
        grind
      · simp only [Call.issue, WotAuthority.issueEdge, hrevoked]
        grind
    | revoke pair =>
      refine ⟨hfixed, fun e => ?_, fun p => ?_⟩
      · simp only [Call.issue, WotAuthority.revokeEdge, hedges]
        grind
      · simp only [Call.issue, WotAuthority.revokeEdge, Finset.mem_insert, hrevoked]
        grind

theorem reachableDepth_isBest_authority (it : (authority owner maxDepth calls).Iteration)
    (node : NodeId) :
    IsBest {b | Reaches (certified calls) owner.val maxDepth.toNat node b}
      (it.reachableDepth node) := by
  obtain ⟨⟨howner, hdepth, hkeys⟩, hedges, hrevoked⟩ := authority_eq owner maxDepth calls
  have hvalid : {e | e ∈ (authority owner maxDepth calls).edges ∧
      (authority owner maxDepth calls).Valid e} = certified calls := by
    ext e
    simp only [Set.mem_ofPred_eq, WotAuthority.Valid, hkeys, hedges, hrevoked, certified]
    constructor
    · rintro ⟨⟨pair, weight, hcall, rfl⟩, -, -, hnot⟩
      exact ⟨pair, weight, hcall, fun hrevoke => hnot ⟨pair, hrevoke, rfl⟩, rfl⟩
    · rintro ⟨pair, weight, hcall, hnot, rfl⟩
      refine ⟨⟨pair, weight, hcall, rfl⟩, by simp, by simp, ?_⟩
      rintro ⟨pair', hrevoke, heq⟩
      obtain ⟨hsource, htarget⟩ := Prod.mk.inj heq
      exact hnot (EdgePair.ext (Str.ext hsource) (Str.ext htarget) ▸ hrevoke)
  have hbest := it.reachableDepth_isBest node
  simpa only [WotAuthority.Arrives, hvalid, howner, hdepth, hkeys, Finset.notMem_empty,
    not_false_eq_true, true_and] using hbest

theorem asAuthority_run : (run H J V owner maxDepth calls).asAuthority V =
    authority owner maxDepth (((run H J V owner maxDepth calls).liveEdges V).map fun e =>
      .certify e.pair e.weight) := by
  obtain ⟨-, howner, hdepth⟩ := @run_eq H J V owner maxDepth calls
  rw [asAuthority, authority, exec, List.foldl_map, howner, hdepth]
  rfl

theorem mem_certified_live (hH : CollisionFree H) (hJ : J.RoundTrips)
    (hV : V.Keeps (.over_ edgesCollection)) (hroom : calls.length < 2 ^ 64) {e : Edge NodeId} :
    e ∈ certified (((run H J V owner maxDepth calls).liveEdges V).map fun e =>
        .certify e.pair e.weight) ↔
      ∃ id d, documents calls id = some d ∧
        e = ⟨d.pair.source.val, d.pair.target.val, d.weight.toNat⟩ := by
  constructor
  · rintro ⟨pair, weight, hcall, -, rfl⟩
    obtain ⟨d, hd, heq⟩ := List.mem_map.1 hcall
    obtain ⟨rfl, rfl⟩ := Call.certify.inj heq
    obtain ⟨id, hid⟩ := (mem_liveEdges_run hH hJ hV hroom).1 hd
    exact ⟨id, d, hid, rfl⟩
  · rintro ⟨id, d, hid, rfl⟩
    exact ⟨d.pair, d.weight, List.mem_map.2 ⟨d, (mem_liveEdges_run hH hJ hV hroom).2 ⟨id, hid⟩, rfl⟩,
      by simp, rfl⟩

/-! ## When they agree -/

def KeysApart (calls : List Call) : Prop :=
  ∀ c ∈ calls, ∀ c' ∈ calls, edgeId c.pair = edgeId c'.pair → c.pair = c'.pair

def NotRestored (calls : List Call) : Prop :=
  calls.Pairwise fun c c' => ∀ pair weight, c = .revoke pair → c' ≠ .certify pair weight

def Kept (maxDepth : UInt8) (calls : List Call) : Prop :=
  calls.Pairwise fun c c' => ∀ pair weight weight', c = .certify pair weight →
    c' = .certify pair weight' → min (maxDepth.toNat - 1) weight.toNat ≤ weight'.toNat

def Ample (maxDepth : UInt8) (calls : List Call) : Prop :=
  ∀ pair weight, .certify pair weight ∈ calls → maxDepth.toNat - 1 ≤ weight.toNat

theorem Ample.kept (h : Ample maxDepth calls) : Kept maxDepth calls := by
  refine List.Pairwise.imp_of_mem (R := fun _ _ => True) ?_ (List.pairwise_of_forall fun _ _ => trivial)
  rintro c c' - hc' - pair weight weight' - rfl
  exact (min_le_left _ _).trans (h pair weight' hc')

theorem last_call {id : Str} {call : Call}
    (h : (calls.reverse.find? fun c => edgeId c.pair = id) = some call) {R : Call → Call → Prop}
    (hR : calls.Pairwise R) {c : Call} (hc : c ∈ calls) (hid : edgeId c.pair = id) :
    c = call ∨ R c call := by
  obtain ⟨-, after, before, hsplit, hafter⟩ := List.find?_eq_some_iff_append.1 h
  have hpairwise := List.pairwise_reverse.2 hR
  rw [hsplit] at hpairwise
  have hmem : c ∈ after ++ call :: before := hsplit ▸ List.mem_reverse.2 hc
  rcases List.mem_append.1 hmem with hin | hin
  · exact absurd (hafter c hin) (by simp [hid])
  · exact (List.mem_cons.1 hin).imp_right
      (List.rel_of_pairwise_cons (List.pairwise_append.1 hpairwise).2.1)

theorem not_revoked_of_documents (hrestored : NotRestored calls) {id : Str} {e : TrustEdge}
    (h : documents calls id = some e) : .revoke e.pair ∉ calls := by
  intro hrevoke
  obtain ⟨call, hcall, hrecord⟩ := Option.bind_eq_some_iff.1 h
  cases call with
  | revoke pair => cases hrecord
  | certify pair weight =>
    obtain rfl := Option.some.inj hrecord
    rcases last_call hcall hrestored hrevoke (edge_of_documents h).1 with heq | hbefore
    · cases heq
    · exact hbefore pair weight rfl rfl

theorem documents_of_certify (hapart : KeysApart calls) {pair : EdgePair} {weight : UInt8}
    (hcall : .certify pair weight ∈ calls) (hnot : .revoke pair ∉ calls) :
    ∃ weight', documents calls (edgeId pair) = some ⟨pair, .certify, weight'⟩ ∧
      (Kept maxDepth calls → min (maxDepth.toNat - 1) weight.toNat ≤ weight'.toNat) := by
  obtain ⟨call, hlast⟩ : ∃ call, (calls.reverse.find? fun c => edgeId c.pair = edgeId pair) =
      some call := by
    refine Option.isSome_iff_exists.1 (List.find?_isSome.2 ⟨_, List.mem_reverse.2 hcall, ?_⟩)
    simp [Call.pair]
  have hmem := List.mem_reverse.1 (List.mem_of_find?_eq_some hlast)
  have hid : edgeId call.pair = edgeId pair := by simpa using List.find?_some hlast
  obtain rfl : call.pair = pair := hapart call hmem _ hcall hid
  cases call with
  | revoke pair => exact absurd hmem hnot
  | certify pair weight' =>
    refine ⟨weight', by rw [documents, hlast]; rfl, fun hkept => ?_⟩
    rcases last_call hlast hkept hcall rfl with heq | hbefore
    · rw [(Call.certify.inj heq).2]
      exact min_le_right _ _
    · exact hbefore _ _ _ rfl rfl

section

variable (hapart : KeysApart calls) (hrestored : NotRestored calls)

include hapart hrestored

theorem trusts_iff {a b : Str} :
    Trusts calls a b ↔ ∃ e ∈ certified calls, e.signer = a.val ∧ e.subject = b.val := by
  constructor
  · rintro ⟨id, e, h, rfl, rfl⟩
    exact ⟨_, ⟨e.pair, e.weight, (edge_of_documents h).2, not_revoked_of_documents hrestored h, rfl⟩,
      rfl, rfl⟩
  · rintro ⟨_, ⟨pair, weight, hcall, hnot, rfl⟩, hsource, htarget⟩
    obtain ⟨weight', h, -⟩ := @documents_of_certify 0 calls hapart pair weight hcall hnot
    exact ⟨_, _, h, Str.ext hsource, Str.ext htarget⟩

theorem walk_of_chain {n budget b : ℕ} {node : NodeId}
    (h : Chain (certified calls) owner.val budget n node b) :
    ∃ key : Str, key.val = node ∧ Walk (Trusts calls) n owner key := by
  induction h with
  | start => exact ⟨owner, rfl, .refl owner⟩
  | @hop n rb e hs hpos he ih =>
    obtain ⟨key, hkey, hwalk⟩ := ih
    obtain ⟨pair, weight, hcall, hnot, rfl⟩ := id he
    exact ⟨pair.target, rfl, hwalk.snoc ((trusts_iff hapart hrestored).2 ⟨_, he, hkey.symm, rfl⟩)⟩

theorem chain_of_walk (hample : Ample maxDepth calls) {m n : ℕ} {a b : Str}
    (hwalk : Walk (Trusts calls) n a b)
    (h : Chain (certified calls) owner.val maxDepth.toNat m a.val (maxDepth.toNat - m))
    (hle : m + n ≤ maxDepth.toNat) :
    Chain (certified calls) owner.val maxDepth.toNat (m + n) b.val (maxDepth.toNat - (m + n)) := by
  induction hwalk generalizing m with
  | refl a => exact h
  | @cons n a z b haz _ ih =>
    obtain ⟨e, he, hsigner, hsubject⟩ := (trusts_iff hapart hrestored).1 haz
    obtain ⟨pair, weight, hcall, -, rfl⟩ := id he
    have hlevel := hample pair weight hcall
    have hhop := Chain.hop (e := ⟨pair.source.val, pair.target.val, weight.toNat⟩)
      (hsigner.symm ▸ h) (by omega) he
    have hbudget : min (maxDepth.toNat - m - 1) weight.toNat = maxDepth.toNat - (m + 1) := by omega
    rw [hbudget] at hhop
    have hstep := ih (m := m + 1) (hsubject ▸ hhop) (by omega)
    rwa [show m + 1 + n = m + (n + 1) by omega] at hstep

end

/-- **The documents decide as the authority that they replace.** -/
theorem decides_as_authority (hH : CollisionFree H) (hJ : J.RoundTrips)
    (hV : V.Keeps (.over_ edgesCollection)) (owner : Str) (maxDepth : UInt8) {calls : List Call}
    (hrestored : NotRestored calls) (hapart : KeysApart calls) (hroom : calls.length < 2 ^ 64)
    (it : (authority owner maxDepth calls).Iteration) (key : Str) :
    (Kept maxDepth calls → ∀ it' : ((run H J V owner maxDepth calls).asAuthority V).Iteration,
      it'.reachableDepth key.val = it.reachableDepth key.val) ∧
    (Ample maxDepth calls → ((run H J V owner maxDepth calls).isReachableFromOwner V key = true ↔
      (it.reachableDepth key.val).isSome = true)) := by
  have hbest := reachableDepth_isBest_authority it key.val
  refine ⟨fun hkept => ?_, fun hample => ?_⟩
  · rw [asAuthority_run]
    intro it'
    have hbest' := reachableDepth_isBest_authority it' key.val
    refine hbest'.eq_of_dominated hbest (fun b hb => ?_) fun b hb => ?_
    · refine Reaches.dominated hb fun e he => ?_
      obtain ⟨id, d, hd, rfl⟩ := (mem_certified_live hH hJ hV hroom).1 he
      exact ⟨_, ⟨d.pair, d.weight, (edge_of_documents hd).2, not_revoked_of_documents hrestored hd,
        rfl⟩, rfl, rfl, min_le_right _ _⟩
    · refine Reaches.dominated hb fun e he => ?_
      obtain ⟨pair, weight, hcall, hnot, rfl⟩ := he
      obtain ⟨weight', hdoc, hle⟩ := documents_of_certify hapart hcall hnot
      exact ⟨_, (mem_certified_live hH hJ hV hroom).2 ⟨_, _, hdoc, rfl⟩, rfl, rfl, hle hkept⟩
  · rw [isReachableFromOwner_run_iff hH hJ hV hroom, hbest.isSome_iff]
    constructor
    · rintro ⟨n, hn, hwalk⟩
      have hchain := chain_of_walk (m := 0) hapart hrestored hample hwalk .start (by omega)
      exact ⟨_, 0 + n, hchain⟩
    · rintro ⟨b, n, hchain⟩
      obtain ⟨key', hkey, hwalk⟩ := walk_of_chain hapart hrestored hchain
      obtain rfl : key' = key := Str.ext hkey
      have hle := hchain.add_le
      exact ⟨n, by omega, hwalk⟩

/-! ## Runs -/

def ownerKey : Str := ⟨"o", by decide⟩

def aliceKey : Str := .lit "a"

def bobKey : Str := .lit "b"

def ownerAlice : EdgePair := ⟨ownerKey, aliceKey, by decide⟩

def aliceBob : EdgePair := ⟨aliceKey, bobKey, by decide⟩

noncomputable def plainRun (calls : List Call) : WotTrustStore (tableDigest []) framedCodec :=
  run _ _ (soleViewCodec (.over_ edgesCollection)) ownerKey 2 calls

def twoHops : List Call := [.certify ownerAlice 1, .certify aliceBob 1, .revoke aliceBob]

theorem two_hops_agree : NotRestored twoHops ∧ KeysApart twoHops ∧ Ample 2 twoHops ∧
    ∀ (it : (authority ownerKey 2 twoHops).Iteration) (key : Str),
      (∀ it' : ((plainRun twoHops).asAuthority (soleViewCodec (.over_ edgesCollection))).Iteration,
        it'.reachableDepth key.val = it.reachableDepth key.val) ∧
      ((plainRun twoHops).isReachableFromOwner (soleViewCodec (.over_ edgesCollection)) key = true ↔
        (it.reachableDepth key.val).isSome = true) := by
  have hrestored : NotRestored twoHops := by simp [NotRestored, twoHops]
  have hapart : KeysApart twoHops := by
    unfold KeysApart
    decide
  have hample : Ample 2 twoHops := by
    rintro pair weight hcall
    simp only [twoHops, List.mem_cons, Call.certify.injEq, reduceCtorEq, List.not_mem_nil,
      or_false] at hcall
    rcases hcall with ⟨-, rfl⟩ | ⟨-, rfl⟩ <;> decide
  refine ⟨hrestored, hapart, hample, fun it key => ?_⟩
  have hboth := decides_as_authority (@tableDigest_collisionFree [] (by simp) (by simp))
    framedCodec_roundTrips (soleViewCodec_keeps _) ownerKey 2 hrestored hapart (by decide) it key
  exact ⟨hboth.1 hample.kept, hboth.2 hample⟩

/-- The owner vouches for a key without letting it vouch, and it does. -/
def weightless : List Call := [.certify ownerAlice 0, .certify aliceBob 0]

def lowered : List Call := [.certify ownerAlice 1, .certify ownerAlice 0]

def arrowTarget : EdgePair := ⟨ownerKey, ⟨"b->c", by decide⟩, by decide⟩

def arrowSource : EdgePair := ⟨⟨"o->b", by decide⟩, .lit "c", by decide⟩

def joined : List Call := [.certify arrowTarget 1, .certify arrowSource 1]

theorem record_of_documents {call : Call} (hsame : ∀ c ∈ calls, edgeId c.pair = edgeId call.pair)
    {id : Str} {e : TrustEdge} (h : documents (calls ++ [call]) id = some e) :
    call.record = some e := by
  obtain ⟨hid, hmem⟩ := edge_of_documents h
  have hcall : edgeId call.pair = id := by
    rcases List.mem_append.1 hmem with hin | hin
    · exact (hsame _ hin).symm.trans hid
    · rw [← List.mem_singleton.1 hin]
      exact hid
  rwa [documents, List.reverse_concat, List.find?_cons_of_pos (by simpa using hcall)] at h

section Diverging

variable (hH : CollisionFree H) (hJ : J.RoundTrips) (hV : V.Keeps (.over_ edgesCollection))

include hH hJ hV

theorem weightless_diverges (it : (authority ownerKey 2 weightless).Iteration) :
    (run H J V ownerKey 2 weightless).isReachableFromOwner V bobKey = true ∧
      it.reachableDepth bobKey.val = none := by
  constructor
  · refine (isReachableFromOwner_run_iff hH hJ hV (by decide)).2 ⟨2, by decide, ?_⟩
    exact .cons ⟨edgeId ownerAlice, ⟨ownerAlice, .certify, 0⟩, by decide, rfl, rfl⟩
      (.cons ⟨edgeId aliceBob, ⟨aliceBob, .certify, 0⟩, by decide, rfl, rfl⟩ (.refl _))
  · have hbest := reachableDepth_isBest_authority it bobKey.val
    have hedge : ∀ e ∈ certified weightless,
        e.level = 0 ∧ (e.subject = bobKey.val → e.signer ≠ ownerKey.val) := by
      rintro _ ⟨pair, weight, hcall, -, rfl⟩
      simp only [weightless, List.mem_cons, Call.certify.injEq, List.not_mem_nil, or_false] at hcall
      rcases hcall with ⟨rfl, rfl⟩ | ⟨rfl, rfl⟩
      · exact ⟨rfl, fun h => absurd h (by decide)⟩
      · exact ⟨rfl, fun _ => by decide⟩
    rw [← Option.not_isSome_iff_eq_none, hbest.isSome_iff]
    rintro ⟨b, hb⟩
    obtain ⟨e, he, rb, hrb, hpos, hsubject, -⟩ := hb.last (by decide)
    -- the signer is not the owner, so it has been given nothing
    obtain ⟨e', he', _, -, -, -, rfl⟩ := hrb.last ((hedge e he).2 hsubject)
    rw [(hedge e' he').1] at hpos
    omega

theorem lowered_diverges (it : (authority ownerKey 2 lowered).Iteration) :
    it.reachableDepth aliceKey.val = some 1 ∧
      ∀ it' : ((run H J V ownerKey 2 lowered).asAuthority V).Iteration,
        it'.reachableDepth aliceKey.val ≠ some 1 := by
  constructor
  · refine (reachableDepth_isBest_authority it aliceKey.val).eq_some_iff.2 ⟨?_, ?_⟩
    · exact ⟨1, .hop (e := ⟨ownerKey.val, aliceKey.val, 1⟩) .start (by decide)
        ⟨ownerAlice, 1, by decide, by decide, rfl⟩⟩
    · intro b hb
      obtain ⟨e, -, rb, hrb, -, -, rfl⟩ := hb.last (by decide)
      have hle := hrb.le
      have hdepth : (2 : UInt8).toNat = 2 := rfl
      omega
  · have hlive : ∀ e, _ ↔ _ := fun e => @mem_certified_live H J V ownerKey 2 lowered hH hJ hV
      (by decide) e
    rw [asAuthority_run]
    generalize ((run H J V ownerKey 2 lowered).liveEdges V).map _ = live at hlive ⊢
    intro it' hone
    have hreach := ((reachableDepth_isBest_authority it' aliceKey.val).eq_some_iff.1 hone).1
    obtain ⟨e, he, rb, -, -, -, hmin⟩ := Reaches.last hreach (by decide)
    obtain ⟨id, d, hd, rfl⟩ := (hlive e).1 he
    have hlast : documents ([.certify ownerAlice 1] ++ [.certify ownerAlice 0]) id = some d := hd
    obtain rfl := Option.some.inj (record_of_documents (by decide) hlast)
    exact absurd (hmin.le.trans (min_le_right _ _)) (by decide)

theorem joined_diverges (it : (authority ownerKey 2 joined).Iteration) :
    (run H J V ownerKey 2 joined).isReachableFromOwner V arrowTarget.target = false ∧
      it.reachableDepth arrowTarget.target.val = some 1 := by
  constructor
  · rw [← Bool.not_eq_true, isReachableFromOwner_run_iff hH hJ hV (by decide)]
    rintro ⟨n, -, hwalk⟩
    generalize htarget : arrowTarget.target = target at hwalk
    generalize howner : ownerKey = source at hwalk
    cases hwalk with
    | refl => exact absurd (htarget.trans howner.symm) (by decide)
    | cons hstep _ =>
      obtain ⟨id, e, hdoc, rfl, -⟩ := hstep
      have hlast : documents ([.certify arrowTarget 1] ++ [.certify arrowSource 1]) id = some e :=
        hdoc
      obtain rfl := Option.some.inj (record_of_documents (by decide) hlast)
      exact absurd howner (by decide)
  · refine (reachableDepth_isBest_authority it _).eq_some_iff.2 ⟨?_, ?_⟩
    · exact ⟨1, .hop (e := ⟨ownerKey.val, arrowTarget.target.val, 1⟩) .start (by decide)
        ⟨arrowTarget, 1, by decide, by decide, rfl⟩⟩
    · intro b hb
      obtain ⟨e, -, rb, hrb, -, -, rfl⟩ := hb.last (by decide)
      have hle := hrb.le
      have hdepth : (2 : UInt8).toNat = 2 := rfl
      omega

end Diverging

/-- **Three ways to part from the authority.** -/
theorem documents_diverge :
    (NotRestored weightless ∧ ∀ it : (authority ownerKey 2 weightless).Iteration,
      (plainRun weightless).isReachableFromOwner (soleViewCodec (.over_ edgesCollection)) bobKey =
          true ∧
        it.reachableDepth bobKey.val = none) ∧
    (NotRestored lowered ∧ ∀ it : (authority ownerKey 2 lowered).Iteration,
      it.reachableDepth aliceKey.val = some 1 ∧
        ∀ it' : ((plainRun lowered).asAuthority (soleViewCodec (.over_ edgesCollection))).Iteration,
          it'.reachableDepth aliceKey.val ≠ some 1) ∧
    (NotRestored joined ∧ ∀ it : (authority ownerKey 2 joined).Iteration,
      (plainRun joined).isReachableFromOwner (soleViewCodec (.over_ edgesCollection))
          arrowTarget.target = false ∧
        it.reachableDepth arrowTarget.target.val = some 1) := by
  have hH : CollisionFree (tableDigest []) := tableDigest_collisionFree (by simp) (by simp)
  have hJ := framedCodec_roundTrips
  have hV := soleViewCodec_keeps (.over_ edgesCollection)
  exact ⟨⟨by simp [NotRestored, weightless], weightless_diverges hH hJ hV⟩,
    ⟨by simp [NotRestored, lowered], lowered_diverges hH hJ hV⟩,
    ⟨by simp [NotRestored, joined], joined_diverges hH hJ hV⟩⟩

end Pillar.WotTrustStore
