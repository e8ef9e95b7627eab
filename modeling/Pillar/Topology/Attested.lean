import Pillar.Topology.Topology
import Pillar.TrustArtifacts.Chains

/-!
# Where attested labels come from

An attested label is to come from a cell authority: genesis, or an identity that genesis has given a
role, directly or through others.

* `attested_from_authority_iff` — **a label is recorded from an authority when the claim under the
  carried address says the same and is made in a role or by genesis**; for a claim without an
  authority nothing less is enough.
-/

namespace Pillar.Topology

open Std Lib.Compare Lib.Runs Lib.TreeMap TrustArtifacts TrustArtifacts.TrustStore

variable (H : Bytes → Bytes) (E : Ed25519) (s : TrustStore)

/-! ## Authorities -/

/-- Stored claims that are not revoked lead from the identity up to genesis, all of them of
this capacity. -/
def RootedGrant (c : Capacity) (x : NodeId) : Prop :=
  ∃ ks as, List.Forall₂ (fun k a => k ∉ s.revoked ∧ s.attests[k]? = some a) ks as ∧
    as.IsChain Rests ∧ (∃ a ∈ as.head?, a.subject = x ∧ a.capacity = c) ∧
    ∃ b ∈ as.getLast?, b.issuer = s.genesis

def IsAuthority (x : NodeId) : Prop :=
  x = s.genesis ∨ ∃ c, c.isRole = true ∧ s.holdsCapacity H x c = true ∧ RootedGrant s c x

def Says (k : Cid) (b : Attest) (node : NodeId) (l : Label) : Prop :=
  s.attests[k]? = some b ∧ k ∉ s.revoked ∧ b.subject = node ∧ b.predicate.action = attestAction ∧
    b.predicate.resource = l.resource

def FromAuthority (node : NodeId) (l : Label) : Prop :=
  ∃ k b, Says s k b node l ∧ IsAuthority H s b.issuer

def Assignment.recorded : Assignment → Option (NodeId × Label)
  | .declared _ _ => none
  | .attested a _ => (Label.fromResource a.predicate.resource).map fun l => (a.subject, l)

/-- What is recorded is what the assignment carries, and an authority has said so. -/
def OnlyFromAuthority (t : Topology) (assignment : Assignment) : Prop :=
  ∀ t', t.attest s assignment = .ok t' → ∃ node l, assignment.recorded = some (node, l) ∧
    t' = t.record node l ∧ FromAuthority H s node l

/-- The stored claim has the subject, the action and the resource of the carried one, and is made in
a role or by genesis: what is not checked. -/
def Attests (genesis : NodeId) (b a : Attest) : Prop :=
  (b.subject = a.subject ∧ b.predicate.action = a.predicate.action ∧
    b.predicate.resource = a.predicate.resource) ∧
    (b.capacity.isRole = true ∨ b.issuer = genesis)

/-- The carried claim is about a label that the topology can record. -/
def Recordable (t : Topology) (a : Attest) : Prop :=
  a.predicate.action = attestAction ∧
    ∃ l, Label.fromResource a.predicate.resource = some l ∧ l.tier ∈ t.hierarchy.tiers

variable {H E s}

/-! ## What is recorded -/

/-- **Who holds a role is an authority.** -/
theorem Linked.isAuthority (hs : Linked H s) {x : NodeId} {c : Capacity} (hrole : c.isRole = true)
    (hholds : s.holdsCapacity H x c = true) : IsAuthority H s x := by
  rcases holdsCapacity_iff.1 hholds with hx | ⟨k, a, ha, hsubject, hcapacity, -, hok⟩
  · exact .inl hx
  · rw [hs.keyed k a ha] at hok
    obtain ⟨proof, hv⟩ := exists_of_verify_isOk hok
    obtain ⟨as, hpath⟩ := path_of_verify hv
    have hroles : ∀ b, s.attests[k]? = some b → b.capacity.isRole = true := by
      intro b hb
      obtain rfl := Option.some.inj (ha.symm.trans hb)
      rwa [hcapacity]
    obtain ⟨hchain, hlast⟩ := hs.rests_of_path hpath hroles
    obtain ⟨b, as', rfl, -, hb⟩ := hpath.start
    obtain rfl := Option.some.inj (ha.symm.trans hb)
    exact .inr ⟨c, hrole, hholds, _, _, hpath.stored, hchain, ⟨a, rfl, hsubject, hcapacity⟩, hlast⟩

theorem not_mem_revoked_of_verify {k : Cid} (h : (s.verify k).isOk = true) : k ∉ s.revoked := by
  obtain ⟨proof, hv⟩ := exists_of_verify_isOk h
  obtain ⟨as, hpath⟩ := path_of_verify hv
  obtain ⟨b, as', -, hnr, -⟩ := hpath.start
  exact hnr

/-- **Who makes a valid claim in a role is an authority.** -/
theorem Linked.isAuthority_issuer (hs : Linked H s) {k : Cid} {b : Attest}
    (hb : s.attests[k]? = some b) (hok : (s.verify k).isOk = true)
    (hrole : b.capacity.isRole = true) : IsAuthority H s b.issuer := by
  rcases hs.backed k b hb hrole with ⟨hgenesis, -⟩ | ⟨p, c, hp, hc, hissuer, hcapacity⟩
  · exact .inl hgenesis
  · -- the claim that it rests on is valid too
    have hokp := verify_authority hok hb hp
    refine Linked.isAuthority hs hrole (holdsCapacity_iff.2 (.inr ⟨p, c, hc, hissuer.symm,
      hcapacity.symm, ?_⟩))
    rw [hs.keyed p c hc]
    exact ⟨not_mem_revoked_of_verify hokp, hokp⟩

theorem Linked.onlyFromAuthority (hs : Linked H s) {cid : Cid} {a b : Attest}
    (hb : s.attests[cid]? = some b) (hattests : Attests s.genesis b a) (t : Topology) :
    OnlyFromAuthority H s t (.attested a cid) := by
  intro t' hattest
  obtain ⟨l, haction, hlabel, -, hok, rfl⟩ := attest_eq_ok_iff.1 hattest
  obtain ⟨⟨hsubject, haction', hresource⟩, hissuer⟩ := hattests
  refine ⟨a.subject, l, by rw [Assignment.recorded, hlabel, Option.map_some], rfl, cid, b,
    ⟨hb, not_mem_revoked_of_verify hok, hsubject, haction'.trans haction,
      hresource.trans (Label.resource_of_fromResource hlabel).symm⟩, ?_⟩
  rcases hissuer with hrole | hgenesis
  · exact Linked.isAuthority_issuer hs hb hok hrole
  · exact .inl hgenesis

/-! ## The first claim of a store -/

/-- A store that holds one claim, which has no authority. -/
theorem verify_singleton {genesis : NodeId} {k : Cid} {b : Attest} (hb : b.authority = none) :
    ((({ TrustStore.new genesis with attests := (∅ : ExtTreeMap Cid Attest).insert k b } :
      TrustStore).verify k).isOk = true) := by
  refine verify_isOk_iff.2 ⟨[k], ?_⟩
  simp [walk, maxChainLen, TrustStore.new, hb]

theorem attests_of_onlyFromAuthority {genesis : NodeId} {b a : Attest} {t : Topology}
    (hauthority : b.authority = none)
    (hissued : (TrustStore.new genesis).decideAttest H E b = .ok (b.cid H)) (ha : Recordable t a)
    (h : OnlyFromAuthority H
      { TrustStore.new genesis with attests := (∅ : ExtTreeMap Cid Attest).insert (b.cid H) b } t
      (.attested a (b.cid H))) : Attests genesis b a := by
  obtain ⟨haction, l, hlabel, htier⟩ := ha
  obtain ⟨node, l', hrecorded, -, k, c, ⟨hc, -, hsubject, haction', hresource⟩, hissuer⟩ :=
    h _ (attest_eq_ok_iff.2 ⟨l, haction, hlabel, htier, verify_singleton hauthority, rfl⟩)
  have honly : ∀ (k : Cid) (c : Attest),
      ((∅ : ExtTreeMap Cid Attest).insert (b.cid H) b)[k]? = some c → c = b := by
    intro k c hc
    rcases eq_or_of_getElem?_insert hc with ⟨-, rfl⟩ | hc
    · rfl
    · simp at hc
  obtain rfl := honly k c hc
  rw [Assignment.recorded, hlabel, Option.map_some, Option.some_inj, Prod.mk.injEq] at hrecorded
  obtain ⟨rfl, rfl⟩ := hrecorded
  refine ⟨⟨hsubject, haction'.trans haction.symm,
    hresource.trans (Label.resource_of_fromResource hlabel)⟩, ?_⟩
  rcases hissuer with hgenesis | ⟨r, hrole, hholds, -⟩
  · exact .inr hgenesis
  · rcases holdsCapacity_iff.1 hholds with hgenesis | ⟨k', c', hc', -, hcapacity, -⟩
    · exact .inr hgenesis
    · obtain rfl := honly k' c' hc'
      exact .inl (hcapacity ▸ hrole)

/-- **An attested label comes from an authority** when the claim under the carried address attests
it. A claim without an authority that an empty store takes is recorded from an authority in every
run only then. -/
theorem attested_from_authority_iff (hH : CollisionFree H) (genesis : NodeId) :
    (∀ calls, Along (step H E) (IssuedBacked H) (.new genesis) calls →
      ∀ (t : Topology) (a b : Attest) (cid : Cid),
        (exec (step H E) (.new genesis) calls).attests[cid]? = some b → Attests genesis b a →
          OnlyFromAuthority H (exec (step H E) (.new genesis) calls) t (.attested a cid)) ∧
      ∀ (t : Topology) (a b : Attest), Recordable t a → b.authority = none →
        (TrustStore.new genesis).decideAttest H E b = .ok (b.cid H) →
        ((∀ calls, Along (step H E) (IssuedBacked H) (.new genesis) calls →
          (exec (step H E) (.new genesis) calls).attests[b.cid H]? = some b →
            OnlyFromAuthority H (exec (step H E) (.new genesis) calls) t
              (.attested a (b.cid H))) ↔ Attests genesis b a) := by
  have henough : ∀ calls, Along (step H E) (IssuedBacked H) (.new genesis) calls →
      ∀ (t : Topology) (a b : Attest) (cid : Cid),
        (exec (step H E) (.new genesis) calls).attests[cid]? = some b → Attests genesis b a →
          OnlyFromAuthority H (exec (step H E) (.new genesis) calls) t (.attested a cid) := by
    intro calls hcalls t a b cid hb hattests
    have hs : Linked H (exec (step H E) (.new genesis) calls) :=
      throughout_of_along (linked_step hH) (linked_new genesis) hcalls calls
        (List.prefix_refl calls)
    have hgenesis : (exec (step H E) (.new genesis) calls).genesis = genesis :=
      exec_inv (I := fun s => s.genesis = genesis) (fun s c h => (genesis_step s c).trans h) rfl
        calls
    exact Linked.onlyFromAuthority hs hb (hgenesis.symm ▸ hattests) t
  refine ⟨henough, fun t a b ha hauthority hissued => ⟨fun h => ?_, fun hattests calls hcalls hb =>
    henough calls hcalls t a b _ hb hattests⟩⟩
  have hexec : exec (step H E) (.new genesis) [.issueAttest b] =
      { TrustStore.new genesis with
        attests := (∅ : ExtTreeMap Cid Attest).insert (b.cid H) b } := by
    rw [exec_cons, exec_nil, TrustStore.step_issueAttest hissued]
    rfl
  have hbacked : Along (step H E) (IssuedBacked H) (.new genesis) [.issueAttest b] := by
    refine along_cons.2 ⟨fun hrole _ => ⟨.inl ⟨?_, hauthority⟩, fun c hc => ?_⟩, along_nil⟩
    · obtain ⟨-, -, hholds, -⟩ := decideAttest_eq_ok_iff.1 hissued
      rcases hholds hrole with hgenesis | hholds
      · exact hgenesis
      · rcases holdsCapacity_iff.1 hholds with hgenesis | ⟨k, c, hc, -⟩
        · exact hgenesis
        · simp [TrustStore.new] at hc
    · simp [TrustStore.new] at hc
  have hone := h _ hbacked (by rw [hexec]; simp)
  rw [hexec] at hone
  exact attests_of_onlyFromAuthority hauthority hissued ha hone

/-! ## Two labels

The owner attests a rack to a node, and the node attests it to itself; with the digests, keys
and signatures of the real primitives. -/

def nodeSeed : Bytes :=
  beBytes 32 0x91e94628ef8f3098e54d89ad2d6ca1fb8bd6c0c1c81ce10c30da7198b9b891dc

def nodeSecret : Bytes :=
  beBytes 32 0x8ff3690a62059a70f3a4ccb24aa7ae7b55610ffd17c640ef78da2cf3836eeb1a

def nodePk : Bytes :=
  beBytes 32 0xd1dc44214f30bc4c8398a549a6478fdff3606d6e471cc87110a95c0729cd6f6d

def ownerLabelDigest : Bytes :=
  beBytes 32 0x5faf12785ede7b086a32e21d677db43b109576eaee4195596890f72ce124a04e

def nodeLabelDigest : Bytes :=
  beBytes 32 0xbf538f409bbfb08095a4adc864e1362516edf891096cb9833c925428d70b83fc

def ownerLabelSig : Bytes :=
  beBytes 32 0x328ce6a8cd10e737fd3e51e45e6eb6d34fec3debb584aab32dd2054b9ad84142 ++
  beBytes 32 0x6235c257bcb316c2a80e8c1c32cddcc2082087554b97865d56d06b0f7ded0b0c

def nodeLabelSig : Bytes :=
  beBytes 32 0xe900a9da40635fd750ae06726a6234099bff8e353c629e68fddc665bbff1baca ++
  beBytes 32 0xe007a6a56b9905aa29b9f0d40c88ea0cf70d659e04b1b9d214ae0c8cf0461a03

def ownerLabelCid : Cid :=
  "trust:12205faf12785ede7b086a32e21d677db43b109576eaee4195596890f72ce124a04e"

def nodeLabelCid : Cid :=
  "trust:1220bf538f409bbfb08095a4adc864e1362516edf891096cb9833c925428d70b83fc"

def inRack (issuer : NodeId) (capacity : Capacity) : AttestFields :=
  ⟨issuer, capacity, none, "n7", ⟨attestAction, "rack=r7", none⟩, "cell-b", 0⟩

/-- SHA2-256 on the inputs of the two runs. -/
def labelTable : List (Bytes × Bytes) :=
  [(utf8 "pillar-trust-artifacts/identity-keyname-seed-v1owner", ownerSeed),
   (utf8 "pillar-trust-artifacts/identity-keyname-seed-v1n7", nodeSeed),
   (utf8 "pillar-crypto/sign/ed25519/seed-v1" ++ ownerSeed, ownerSecret),
   (utf8 "pillar-crypto/sign/ed25519/seed-v1" ++ nodeSeed, nodeSecret),
   (encodeParts (inRack "owner" operator).parts, ownerLabelDigest),
   (encodeParts (inRack "n7" .selfCap).parts, nodeLabelDigest)]

/-- Ed25519 on the inputs of the two runs. -/
def labelScheme : Ed25519 :=
  tableEd25519
    [(ownerSecret, ownerPk, [(utf8 ownerLabelCid, ownerLabelSig)]),
     (nodeSecret, nodePk, [(utf8 nodeLabelCid, nodeLabelSig)])]

def ownerLabel : Attest :=
  ⟨inRack "owner" operator, ⟨"owner", ownerPk, ownerLabelSig⟩, by decide +kernel⟩

def nodeLabel : Attest :=
  ⟨inRack "n7" .selfCap, ⟨"n7", nodePk, nodeLabelSig⟩, by decide +kernel⟩

def labelled (k : Cid) (a : Attest) : TrustStore :=
  { TrustStore.new "owner" with attests := ExtTreeMap.empty.insert k a }

theorem labelTable_collisionFree : CollisionFree (tableDigest labelTable) :=
  tableDigest_collisionFree (by decide +kernel) (by decide +kernel)

theorem labelled_owner_eq :
    exec (TrustStore.step (tableDigest labelTable) labelScheme) (.new "owner")
      [.issueAttest ownerLabel] = labelled ownerLabelCid ownerLabel := by
  rw [exec_cons, exec_nil, TrustStore.step_issueAttest (k := ownerLabelCid) (by decide +kernel)]
  rfl

theorem labelled_node_eq :
    exec (TrustStore.step (tableDigest labelTable) labelScheme) (.new "owner")
      [.issueAttest nodeLabel] = labelled nodeLabelCid nodeLabel := by
  rw [exec_cons, exec_nil, TrustStore.step_issueAttest (k := nodeLabelCid) (by decide +kernel)]
  rfl

/-- The owner's claim is recorded, and it is one of an authority. -/
theorem owner_label_recorded :
    ((Topology.new .default).attest (labelled ownerLabelCid ownerLabel)
        (.attested ownerLabel ownerLabelCid)).isOk = true ∧
      OnlyFromAuthority (tableDigest labelTable)
        (exec (step (tableDigest labelTable) labelScheme) (.new "owner") [.issueAttest ownerLabel])
        (Topology.new .default) (.attested ownerLabel ownerLabelCid) := by
  refine ⟨by decide +kernel, (attested_from_authority_iff labelTable_collisionFree "owner").1 _ ?_ _
    ownerLabel ownerLabel _ ?_ ⟨⟨rfl, rfl, rfl⟩, .inl rfl⟩⟩
  · refine along_cons.2 ⟨fun _ _ => ⟨.inl ⟨rfl, rfl⟩, fun b hb => ?_⟩, along_nil⟩
    simp [TrustStore.new] at hb
  · rw [labelled_owner_eq]
    simp [labelled]

/-- The node's own claim is recorded too, and no authority has said so. -/
theorem node_labels_itself :
    CollisionFree (tableDigest labelTable) ∧
      (Topology.new .default).attest
          (exec (step (tableDigest labelTable) labelScheme) (.new "owner") [.issueAttest nodeLabel])
          (.attested nodeLabel nodeLabelCid) =
            .ok ((Topology.new .default).record "n7" ⟨"rack", "r7"⟩) ∧
      ¬ FromAuthority (tableDigest labelTable)
        (exec (step (tableDigest labelTable) labelScheme) (.new "owner") [.issueAttest nodeLabel])
        "n7" ⟨"rack", "r7"⟩ := by
  rw [labelled_node_eq]
  refine ⟨labelTable_collisionFree, attest_eq_ok_iff.2 ⟨⟨"rack", "r7"⟩, rfl, by decide +kernel,
    by decide, by decide +kernel, rfl⟩, ?_⟩
  -- the only claim in the store is the node's own, and it is of no role
  have honly : ∀ (k : Cid) (a : Attest), (labelled nodeLabelCid nodeLabel).attests[k]? = some a →
      a = nodeLabel := by
    intro k a ha
    rcases eq_or_of_getElem?_insert ha with ⟨-, rfl⟩ | ha
    · rfl
    · simp at ha
  rintro ⟨k, b, ⟨hb, -⟩, hauthority⟩
  obtain rfl := honly k b hb
  rcases hauthority with hgenesis | ⟨c, hrole, hholds, -⟩
  · exact absurd hgenesis (by decide)
  · rcases holdsCapacity_iff.1 hholds with hgenesis | ⟨k', a, ha, -, hcapacity, -⟩
    · exact absurd hgenesis (by decide)
    · obtain rfl := honly k' a ha
      subst hcapacity
      exact absurd hrole (by decide)

end Pillar.Topology
