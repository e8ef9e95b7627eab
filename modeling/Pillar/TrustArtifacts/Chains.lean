import Pillar.Lib.TreeMap
import Pillar.TrustArtifacts.Artifacts

/-!
# Chains of trust

A claim made in a role rests on the claim that gave its issuer the role, and that one on an earlier
one, up to genesis.

* `chains_sound_of_backed` — **in every run in which claims in a role are backed when they
  are issued, both hold throughout**.
-/

namespace Pillar.TrustArtifacts

open Std Lib.Compare Lib.Runs Lib.TreeMap

namespace TrustStore

variable (H : Bytes → Bytes) (E : Ed25519) (s : TrustStore)

/-! ## What chains are for -/

/-- The issuer of the first claim has its capacity from the second. -/
def Rests (a b : Attest) : Prop := a.issuer = b.subject ∧ a.capacity = b.capacity

/-- A verified claim in a role has a chain of stored claims that are not revoked, each
resting on the next, the last one of genesis. -/
def ChainSound : Prop :=
  ∀ k a proof, s.attests[k]? = some a → a.capacity.isRole = true → s.verify k = .ok proof →
    ∃ as, List.Forall₂ (fun k a => k ∉ s.revoked ∧ s.attests[k]? = some a) proof.chain as ∧
      as.IsChain Rests ∧ ∃ b ∈ as.getLast?, b.issuer = s.genesis

/-- Once every claim that gave an identity a role is revoked, nothing that it has issued in
that role is valid, or gets to the decider: every grant there comes from another claim. -/
def RevocationTransitive : Prop :=
  ∀ x c, x ≠ s.genesis → c.isRole = true →
    (∀ k a, s.attests[k]? = some a → a.subject = x → a.capacity = c → k ∈ s.revoked) →
    (∀ k a, s.attests[k]? = some a → a.issuer = x → a.capacity = c →
      (∀ proof, s.verify k ≠ .ok proof) ∧ (k, a) ∉ s.liveRoles) ∧
    ∀ grant ∈ asExplicitGrants s, ∃ k a, s.attests[k]? = some a ∧ (s.verify k).isOk = true ∧
      ¬ (a.issuer = x ∧ a.capacity = c) ∧ grant = ⟨a.subject, a.predicate.action, .allow⟩

/-! ## Claims that are backed -/

def Backed (a : Attest) : Prop :=
  (a.issuer = s.genesis ∧ a.authority = none) ∨
    ∃ p b, a.authority = some p ∧ s.attests[p]? = some b ∧ Rests a b

/-- A claim in a role, by an issuer who holds it, is issued only if it is backed, and not
over a claim of another capacity with the same address. -/
def IssuedBacked : Call → Prop
  | .issueAttest a => a.capacity.isRole = true → s.holdsCapacity H a.issuer a.capacity = true →
      s.Backed a ∧ ∀ b, s.attests[a.cid H]? = some b → b.capacity = a.capacity
  | .revoke _ => True

/-- Claims are stored under their addresses, and those in a role are backed. -/
structure Linked : Prop where
  keyed : ∀ (k : Cid) (a : Attest), s.attests[k]? = some a → a.cid H = k
  backed : ∀ (k : Cid) (a : Attest), s.attests[k]? = some a → a.capacity.isRole = true → s.Backed a

variable {H E s}

theorem linked_new (genesis : NodeId) : Linked H (new genesis) where
  keyed k a h := by simp [new] at h
  backed k a h := by simp [new] at h

/-! ## What follows in a state -/

/-- **Along a path, claims rest on each other up to genesis.** -/
theorem Linked.rests_of_path (hs : Linked H s) {k : Cid} {ks : List Cid} {as : List Attest}
    (h : Path s k ks as) (hrole : ∀ a, s.attests[k]? = some a → a.capacity.isRole = true) :
    as.IsChain Rests ∧ ∃ b ∈ as.getLast?, b.issuer = s.genesis := by
  induction h with
  | anchor hr ha hn =>
    refine ⟨.singleton _, _, rfl, ?_⟩
    rcases hs.backed _ _ ha (hrole _ ha) with ⟨hg, -⟩ | ⟨p, b, hp, -⟩
    · exact hg
    · rw [hn] at hp
      cases hp
  | step hr ha hp h ih =>
    rename_i k p a ks as
    obtain ⟨b, as', rfl, -, hb⟩ := h.start
    rcases hs.backed _ _ ha (hrole _ ha) with ⟨-, hn⟩ | ⟨q, c, hq, hc, hrests⟩
    · rw [hn] at hp
      cases hp
    · obtain rfl : q = p := Option.some.inj (hq.symm.trans hp)
      obtain rfl : c = b := Option.some.inj (hc.symm.trans hb)
      have hroleb : ∀ d, s.attests[q]? = some d → d.capacity.isRole = true := by
        intro d hd
        obtain rfl : c = d := Option.some.inj (hc.symm.trans hd)
        exact hrests.2 ▸ hrole _ ha
      obtain ⟨hchain, last, hlast, hg⟩ := ih hroleb
      exact ⟨hchain.cons_cons hrests, last, by simpa using hlast, hg⟩

theorem Linked.chainSound (hs : Linked H s) : s.ChainSound := by
  intro k a proof ha hrole hv
  obtain ⟨as, hpath⟩ := path_of_verify hv
  refine ⟨as, hpath.stored, hs.rests_of_path hpath ?_⟩
  intro b hb
  obtain rfl : a = b := Option.some.inj (ha.symm.trans hb)
  exact hrole

theorem Linked.exists_grant (hs : Linked H s) {k : Cid} {a : Attest} {proof : Proof}
    (ha : s.attests[k]? = some a) (hrole : a.capacity.isRole = true) (hg : a.issuer ≠ s.genesis)
    (hv : s.verify k = .ok proof) : ∃ p b, s.attests[p]? = some b ∧ Rests a b ∧ p ∉ s.revoked := by
  obtain ⟨as, hpath⟩ := path_of_verify hv
  rcases hs.backed _ _ ha hrole with ⟨hgen, -⟩ | ⟨p, b, hp, hb, hrests⟩
  · exact absurd hgen hg
  · refine ⟨p, b, hb, hrests, ?_⟩
    -- the walk goes on to the authority, and does not pass a revoked address
    generalize proof.chain = ks at hpath
    cases hpath with
    | anchor hr ha' hn =>
      obtain rfl := Option.some.inj (ha.symm.trans ha')
      rw [hn] at hp
      cases hp
    | step hr ha' hp' hrest =>
      obtain rfl := Option.some.inj (ha.symm.trans ha')
      obtain rfl := Option.some.inj (hp.symm.trans hp')
      obtain ⟨c, as', -, hnr, -⟩ := hrest.start
      exact hnr

theorem Linked.verify_ne_ok (hs : Linked H s) {k : Cid} {a : Attest} (hx : a.issuer ≠ s.genesis)
    (hrole : a.capacity.isRole = true)
    (hall : ∀ k b, s.attests[k]? = some b → b.subject = a.issuer → b.capacity = a.capacity →
      k ∈ s.revoked) (ha : s.attests[k]? = some a) (proof : Proof) : s.verify k ≠ .ok proof := by
  intro hv
  obtain ⟨p, b, hb, hrests, hnr⟩ := hs.exists_grant ha hrole hx hv
  exact hnr (hall p b hb hrests.1.symm hrests.2.symm)

theorem Linked.revocationTransitive (hs : Linked H s) : s.RevocationTransitive := by
  intro x c hx hrole hall
  constructor
  · rintro k a ha rfl rfl
    have hverify := hs.verify_ne_ok hx hrole hall ha
    refine ⟨hverify, fun hlive => ?_⟩
    obtain ⟨-, -, hok, -⟩ := mem_liveRoles_iff.1 hlive
    obtain ⟨proof, hv⟩ := exists_of_verify_isOk hok
    exact hverify proof hv
  · intro grant hgrant
    obtain ⟨⟨k, a⟩, hlive, rfl⟩ := List.mem_map.1 hgrant
    obtain ⟨ha, -, hok, -⟩ := mem_liveRoles_iff.1 hlive
    refine ⟨k, a, ha, hok, ?_, rfl⟩
    rintro ⟨rfl, rfl⟩
    obtain ⟨proof, hv⟩ := exists_of_verify_isOk hok
    exact hs.verify_ne_ok hx hrole hall ha proof hv

/-! ## What a step keeps -/

theorem Backed.insert {a b : Attest} (hb : s.Backed b)
    (hsame : ∀ c, s.attests[a.cid H]? = some c → c.subject = a.subject ∧ c.capacity = a.capacity) :
    Backed { s with attests := s.attests.insert (a.cid H) a } b := by
  rcases hb with hgen | ⟨p, c, hp, hc, hrests⟩
  · exact .inl hgen
  · by_cases hpa : a.cid H = p
    · subst hpa
      obtain ⟨hsubject, hcapacity⟩ := hsame c hc
      exact .inr ⟨_, a, hp, by simp, hrests.1.trans hsubject, hrests.2.trans hcapacity⟩
    · exact .inr ⟨p, c, hp, by simpa [ExtTreeMap.getElem?_insert, hpa] using hc, hrests⟩

theorem Linked.same_of_stored (hH : CollisionFree H) (hs : Linked H s) {a b : Attest}
    (hcond : a.capacity.isRole = true → b.capacity = a.capacity)
    (hb : s.attests[a.cid H]? = some b) : b.subject = a.subject ∧ b.capacity = a.capacity := by
  obtain ⟨htag, hsubject⟩ := Attest.tag_subject_eq_of_cid_eq hH (hs.keyed _ _ hb)
  have hroles := Capacity.isRole_eq_of_tag_eq htag
  refine ⟨hsubject, ?_⟩
  cases hrole : a.capacity.isRole with
  | true => exact hcond hrole
  | false => rw [Capacity.eq_selfCap hrole, Capacity.eq_selfCap (hroles.trans hrole)]

/-- **A step keeps the links.** -/
theorem linked_step (hH : CollisionFree H) (s : TrustStore) (c : Call) (hs : Linked H s)
    (hc : s.IssuedBacked H c) : Linked H (s.step H E c) := by
  have heffect := effect_step (H := H) (E := E) s c
  generalize s.step H E c = s' at heffect ⊢
  cases heffect with
  | refused => exact hs
  | revoked r hr => exact ⟨hs.keyed, hs.backed⟩
  | issued a ha =>
    have hcond : a.capacity.isRole = true →
        s.Backed a ∧ ∀ b, s.attests[a.cid H]? = some b → b.capacity = a.capacity :=
      fun hrole => hc hrole (holdsCapacity_of_decideAttest ha hrole)
    have hsame : ∀ b, s.attests[a.cid H]? = some b →
        b.subject = a.subject ∧ b.capacity = a.capacity :=
      fun b hb => hs.same_of_stored hH (fun hrole => (hcond hrole).2 b hb) hb
    constructor
    · intro k b hb
      rcases eq_or_of_getElem?_insert hb with ⟨rfl, rfl⟩ | hb
      · rfl
      · exact hs.keyed k b hb
    · intro k b hb hrole
      rcases eq_or_of_getElem?_insert hb with ⟨rfl, rfl⟩ | hb
      · exact (hcond hrole).1.insert hsame
      · exact (hs.backed k b hb hrole).insert hsame

/-- **Chains are sound and revocation is transitive.** -/
theorem chains_sound_of_backed (hH : CollisionFree H) (genesis : NodeId) (l : List Call)
    (hl : Along (step H E) (IssuedBacked H) (new genesis) l) :
    Throughout (step H E) (fun s => s.ChainSound ∧ s.RevocationTransitive) (new genesis) l := by
  have hlinked : Throughout (step H E) (Linked H) (new genesis) l :=
    throughout_of_along (linked_step hH) (linked_new genesis) hl
  intro p hp
  exact ⟨(hlinked p hp).chainSound, (hlinked p hp).revocationTransitive⟩

end TrustStore

/-! ## A role that is passed on

The owner makes alice an operator, alice does the same for bob, and the owner takes alice's
role back; with the digests, keys and signatures of the real primitives. -/

def ownerSeed : Bytes :=
  beBytes 32 0xf2c62fdb9ac1a9eccd35e0b4179bd52f835bc13c8e5464a8f38b10263b6b1420

def ownerSecret : Bytes :=
  beBytes 32 0xd51bcf27546dffe0a7b2074c1adcdf0535176dc5786794f68c868be7f73338f9

def ownerPk : Bytes :=
  beBytes 32 0x3da1eb1e32d42a84c4ce8d33a5d9669f2e44208e21ba536a297338c6c9f459ed

def aliceSeed : Bytes :=
  beBytes 32 0x70f7cdab7d7ee23ebf3ae6609b83499194cab3f4db77d48fedf6aef3bdbe98a0

def aliceSecret : Bytes :=
  beBytes 32 0x84e4690b3878b42bc41ad48f1ffc27fc597e7d58bd2e6a543eeaf3e91945ac17

def alicePk : Bytes :=
  beBytes 32 0xa531e03f4be5472f427a16e3a944bc2a296468832ba712e9e9ccfcc4c7a5da97

/-- The digest of what the owner claims about alice. -/
def grantDigest : Bytes :=
  beBytes 32 0x0b8b4803cbc2de8db61af2ee3872578afa46fbacedf6470281bb4de5ba4a03ac

/-- The digest of what alice claims about bob without an authority. -/
def unbackedDigest : Bytes :=
  beBytes 32 0xb8a7321e68ebb8fd3f06df7a1e600ec17c89cf4474ca81317d3421ed7f3b52da

/-- The digest of what alice claims about bob with it. -/
def backedDigest : Bytes :=
  beBytes 32 0xe69eb4cf06f6484dc1b0109616b1d4409c8d1f3fb4030590dfdd614763c1ae9a

def grantSig : Bytes :=
  beBytes 32 0xc07359cec252b3884aa0dc56ec409647aabdd74f776a403f9f9dd59f7f612299 ++
  beBytes 32 0x9dc60cea1a22aa9718c22ec0e242ed81f2f6d4aba4d7d82b1c1beab4232f1f07

/-- Alice's signature over the claim without an authority. -/
def unbackedSig : Bytes :=
  beBytes 32 0x4da8afe87e58e5ca858b51f470cbf7b2581ad607397f256fa38720614143a198 ++
  beBytes 32 0x3442d125e0245398ca6b6e7d647cff3737091a7d5ed92f14aee649741b97d90d

/-- Alice's signature over the claim with it. -/
def backedSig : Bytes :=
  beBytes 32 0xc93175a75bd570e849f6ae8834b721bc98de3cbe00a64b9b7bc5f487ba424cf2 ++
  beBytes 32 0x10062e9c91a393853b8246049add95c34d2d5123cc2cab9fe3ff57345db13302

/-- The owner's signature over the revocation. -/
def revocationSig : Bytes :=
  beBytes 32 0x83a835df10a6cd06a44d2220d548e5b17e98934c655f0617f242b29b35f50e85 ++
  beBytes 32 0xcb70e7a4c02295b15af195df8c92164b97d156ff6dc34058c86ccb4211a8f500

def grantCid : Cid :=
  "trust:12200b8b4803cbc2de8db61af2ee3872578afa46fbacedf6470281bb4de5ba4a03ac"

/-- The address of alice's claim without an authority. -/
def unbackedCid : Cid :=
  "trust:1220b8a7321e68ebb8fd3f06df7a1e600ec17c89cf4474ca81317d3421ed7f3b52da"

def backedCid : Cid :=
  "trust:1220e69eb4cf06f6484dc1b0109616b1d4409c8d1f3fb4030590dfdd614763c1ae9a"

def operator : Capacity := .role "operator" "cell-b"

def mayAppend (issuer subject : NodeId) (authority : Option Cid) : AttestFields :=
  ⟨issuer, operator, authority, subject, ⟨"stream:append", "cell-b/streams/*", none⟩, "cell-b", 0⟩

/-- SHA2-256 on the inputs of the two runs. -/
def operatorTable : List (Bytes × Bytes) :=
  [(utf8 "pillar-trust-artifacts/identity-keyname-seed-v1owner", ownerSeed),
   (utf8 "pillar-trust-artifacts/identity-keyname-seed-v1alice", aliceSeed),
   (utf8 "pillar-crypto/sign/ed25519/seed-v1" ++ ownerSeed, ownerSecret),
   (utf8 "pillar-crypto/sign/ed25519/seed-v1" ++ aliceSeed, aliceSecret),
   (encodeParts (mayAppend "owner" "alice" none).parts, grantDigest),
   (encodeParts (mayAppend "alice" "bob" none).parts, unbackedDigest),
   (encodeParts (mayAppend "alice" "bob" (some grantCid)).parts, backedDigest)]

/-- Ed25519 on the inputs of the two runs. -/
def operatorScheme : Ed25519 :=
  tableEd25519
    [(ownerSecret, ownerPk,
      [(utf8 grantCid, grantSig), (Revoke.signedMessage grantCid, revocationSig)]),
     (aliceSecret, alicePk,
      [(utf8 unbackedCid, unbackedSig), (utf8 backedCid, backedSig)])]

def grant : Attest := ⟨mayAppend "owner" "alice" none, ⟨"owner", ownerPk, grantSig⟩, by decide +kernel⟩

/-- Alice's claim about bob, without an authority. -/
def unbacked : Attest :=
  ⟨mayAppend "alice" "bob" none, ⟨"alice", alicePk, unbackedSig⟩, by decide +kernel⟩

def backed : Attest :=
  ⟨mayAppend "alice" "bob" (some grantCid), ⟨"alice", alicePk, backedSig⟩, by decide +kernel⟩

/-- Alice's role is passed on in one of the two ways, and taken back. -/
def passedOn (a : Attest) : List TrustStore.Call :=
  [.issueAttest grant, .issueAttest a, .revoke ⟨grantCid, ⟨"owner", ownerPk, revocationSig⟩⟩]

theorem operatorTable_collisionFree : CollisionFree (tableDigest operatorTable) :=
  tableDigest_collisionFree (by decide +kernel) (by decide +kernel)

def operatorStep : TrustStore → TrustStore.Call → TrustStore :=
  TrustStore.step (tableDigest operatorTable) operatorScheme

def granted : TrustStore :=
  { TrustStore.new "owner" with attests := ExtTreeMap.empty.insert grantCid grant }

def claimed (k : Cid) (a : Attest) : TrustStore :=
  { granted with attests := granted.attests.insert k a }

def takenBack (k : Cid) (a : Attest) : TrustStore :=
  { claimed k a with revoked := {grantCid}, epoch := 1 }

theorem granted_eq : operatorStep (.new "owner") (.issueAttest grant) = granted := by
  rw [operatorStep, TrustStore.step_issueAttest (k := grantCid) (by decide +kernel)]
  rfl

theorem claimed_unbacked_eq :
    operatorStep granted (.issueAttest unbacked) = claimed unbackedCid unbacked := by
  rw [operatorStep, TrustStore.step_issueAttest (k := unbackedCid) (by decide +kernel)]
  rfl

theorem claimed_backed_eq :
    operatorStep granted (.issueAttest backed) = claimed backedCid backed := by
  rw [operatorStep, TrustStore.step_issueAttest (k := backedCid) (by decide +kernel)]
  rfl

theorem takenBack_eq (k : Cid) (a : Attest) :
    operatorStep (claimed k a) (.revoke ⟨grantCid, ⟨"owner", ownerPk, revocationSig⟩⟩) =
      takenBack k a := by
  have hsig : Sig.verifiesAs (tableDigest operatorTable) operatorScheme
      ⟨"owner", ownerPk, revocationSig⟩ "owner" (Revoke.signedMessage grantCid) = true := by
    decide +kernel
  have hmem : grantCid ∈ (claimed k a).attests := by
    simp [claimed, granted]
  rw [operatorStep, TrustStore.step, TrustStore.revoke, if_neg (by simp [hsig]),
    if_neg (not_not.2 hmem)]
  rfl

/-- Alice names the claim that made her an operator, and what she claims goes with it. -/
theorem backed_goes_with_grant :
    CollisionFree (tableDigest operatorTable) ∧
      Throughout operatorStep (fun s => s.ChainSound ∧ s.RevocationTransitive) (.new "owner")
        (passedOn backed) ∧
      (exec operatorStep (.new "owner") (passedOn backed)).verify backedCid =
        .error (.revoked grantCid) := by
  refine ⟨operatorTable_collisionFree,
    TrustStore.chains_sound_of_backed operatorTable_collisionFree "owner" _ ?_, ?_⟩
  · have hfresh : granted.attests[backed.cid (tableDigest operatorTable)]? = none := by
      decide +kernel
    refine along_cons.2 ⟨fun _ _ => ⟨.inl ⟨rfl, rfl⟩, fun b hb => ?_⟩, ?_⟩
    · simp [TrustStore.new] at hb
    rw [← operatorStep, granted_eq]
    refine along_cons.2 ⟨fun _ _ => ⟨.inr ⟨grantCid, grant, rfl, by simp [granted], rfl, rfl⟩,
      fun b hb => ?_⟩, along_cons.2 ⟨trivial, along_nil⟩⟩
    rw [hfresh] at hb
    cases hb
  · rw [passedOn, exec_cons, granted_eq, exec_cons, claimed_backed_eq, exec_cons, takenBack_eq]
    decide +kernel

theorem verify_takenBack_unbacked : ∃ proof,
    (takenBack unbackedCid unbacked).verify unbackedCid = .ok proof ∧
      proof.chain = [unbackedCid] := by
  have hchain : ((takenBack unbackedCid unbacked).verify unbackedCid).map Proof.chain =
      .ok [unbackedCid] := by decide +kernel
  cases hv : (takenBack unbackedCid unbacked).verify unbackedCid with
  | error e =>
    rw [hv] at hchain
    cases hchain
  | ok proof =>
    rw [hv] at hchain
    exact ⟨proof, rfl, Except.ok.inj hchain⟩

/-- Alice names no claim, and what she claims stays valid after her role is taken back. -/
theorem unbacked_outlives_grant :
    CollisionFree (tableDigest operatorTable) ∧
      ¬ (exec operatorStep (.new "owner") (passedOn unbacked)).ChainSound ∧
      ¬ (exec operatorStep (.new "owner") (passedOn unbacked)).RevocationTransitive := by
  rw [passedOn, exec_cons, granted_eq, exec_cons, claimed_unbacked_eq, exec_cons, takenBack_eq,
    exec_nil]
  have hstored : (takenBack unbackedCid unbacked).attests[unbackedCid]? = some unbacked := by
    simp [takenBack, claimed]
  obtain ⟨proof, hv, hchain⟩ := verify_takenBack_unbacked
  refine ⟨operatorTable_collisionFree, fun hsound => ?_, fun htransitive => ?_⟩
  · -- the chain is alice's claim alone, and alice is not the owner
    obtain ⟨as, has, -, b, hb, hg⟩ := hsound _ _ _ hstored rfl hv
    rw [hchain] at has
    cases has with
    | cons hhead htail =>
      cases htail
      obtain rfl := Option.some.inj (hhead.2.symm.trans hstored)
      obtain rfl := Option.some.inj hb
      exact absurd hg (by decide)
  · refine ((htransitive "alice" operator (by decide) rfl ?_).1 unbackedCid unbacked hstored rfl
      rfl).1 proof hv
    intro k a ha hsubject _
    rcases eq_or_of_getElem?_insert ha with ⟨-, rfl⟩ | ha
    · exact absurd hsubject (by decide)
    · rcases eq_or_of_getElem?_insert ha with ⟨rfl, -⟩ | ha
      · exact Finset.mem_singleton_self grantCid
      · simp at ha

end Pillar.TrustArtifacts
