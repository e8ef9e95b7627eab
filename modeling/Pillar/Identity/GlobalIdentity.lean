import Pillar.Crypto
import Pillar.Lib.Frames
import Pillar.Lib.Hex
import Pillar.Lib.Runs
import Pillar.Lib.TreeMap

/-!
# The global identity log

`pillar-identity`'s `IdentityLog`: a log that starts with a genesis and is addressed by it.

* `custody_iff` — **the custody of primaries holds throughout a run exactly if no step seals a key
  that is or was a primary, installs a sealed key, or enrolls the identifier.**
-/

namespace Pillar.Identity

open Std Lib.Frames Lib.Hex Lib.Runs Lib.TreeMap

/-! ## Entries -/

abbrev KeyId := Str

abbrev Domain := Str

def keypairForName (H : Bytes → Bytes) (E : Ed25519) (name : KeyId) : Bytes × Bytes :=
  signingKeypairFromSeed H E (H (utf8 "pillar-global-identity/keyname-seed-v1" ++ name.bytes))

/-- A detached signature, with the name that it claims and the key that it carries. -/
structure Sig where
  signer : KeyId
  issuerPublic : Bytes
  sig : Bytes
  deriving DecidableEq

/-- The signature is by the expected name: the key that it carries is the one of the name, and it
verifies. -/
def Sig.verifiesAs (H : Bytes → Bytes) (E : Ed25519) (s : Sig) (expected : KeyId)
    (message : Bytes) : Bool :=
  if s.signer ≠ expected then false
  else if (keypairForName H E s.signer).1 ≠ s.issuerPublic then false
  else (verify E s.issuerPublic message s.sig).isOk

def rotationMessage (newPrimary : KeyId) : Bytes :=
  frame (utf8 "pillar-global-identity/rotation-v1") ++ frame newPrimary.bytes

structure Rotation where
  newPrimary : KeyId
  sig : Sig
  deriving DecidableEq

/-- A rotation that is signed with the key of a name. -/
def Rotation.signedBy (H : Bytes → Bytes) (E : Ed25519) (newPrimary signer : KeyId) :
    Option Rotation :=
  match sign E (keypairForName H E signer).2 (rotationMessage newPrimary) with
  | .ok signature => some ⟨newPrimary, signer, (keypairForName H E signer).1, signature⟩
  | .error _ => none

structure Genesis where
  initialPrimary : KeyId
  recovery : Option KeyId
  deriving DecidableEq

/-- The bytes of a genesis: every field behind its length, and whether there is a recovery key. -/
def Genesis.bytes (g : Genesis) : Bytes :=
  let recovery := match g.recovery with
    | some r => 1 :: frame r.bytes
    | none => [0]
  frame (utf8 "pillar-global-identity-genesis-v1") ++ frame g.initialPrimary.bytes ++ recovery

def Genesis.cid (H : Bytes → Bytes) (g : Genesis) : String :=
  "gid:" ++ String.ofList (hex (contentAddress H g.bytes).bytes)

theorem Genesis.cid_inj {H : Bytes → Bytes} {g g' : Genesis} :
    g.cid H = g'.cid H ↔ H g.bytes = H g'.bytes := by
  rw [cid, cid, String.append_right_inj]
  constructor
  · intro h
    have hbytes := hex_injective (String.ofList_injective h)
    simpa [contentAddress] using hbytes
  · intro h
    rw [contentAddress, contentAddress, h]

/-! ## The log -/

inductive IdentityLogError where
  | unauthorizedRotation (signer : KeyId)
  | domainAlreadyCertified (domain : Domain)
  | domainNotCertified (domain : Domain)
  | domainRevoked (domain : Domain)
  | offerAlreadySealed (domain : Domain)
  | twoHopCertification (issuer : KeyId)
  deriving DecidableEq

structure DomainSubkey where
  key : KeyId
  certifyingGen : ℕ
  offer : Option NodeId
  /-- The alias of the domain, if it is not to be linked. -/
  pairwiseAlias : Option String
  deriving DecidableEq

/-- An identity: its primaries one after the other, and its keys in domains. -/
structure IdentityLog (H : Bytes → Bytes) where
  genesis : Genesis
  cid : String
  cid_eq : cid = genesis.cid H
  primaries : List KeyId
  primaries_ne : primaries ≠ []
  /-- Who signed for the generations after the first. -/
  rotationSigners : List KeyId
  domains : ExtTreeMap Domain DomainSubkey
  revoked : ExtTreeSet Domain

namespace IdentityLog

variable {H : Bytes → Bytes}

def fromGenesis (H : Bytes → Bytes) (g : Genesis) : IdentityLog H :=
  ⟨g, g.cid H, rfl, [g.initialPrimary], List.cons_ne_nil _ _, [], ∅, ∅⟩

def headGeneration (log : IdentityLog H) : ℕ := log.primaries.length - 1

def currentPrimary (log : IdentityLog H) : KeyId := log.primaries.getLast log.primaries_ne

def Authorized (log : IdentityLog H) (signer : KeyId) : Prop :=
  signer = log.currentPrimary ∨ log.genesis.recovery = some signer

instance (log : IdentityLog H) (signer : KeyId) : Decidable (log.Authorized signer) :=
  inferInstanceAs (Decidable (_ ∨ _))

/-- A new primary, signed for by the last one or by the recovery key. -/
def rotate (E : Ed25519) (log : IdentityLog H) (rotation : Rotation) :
    IdentityLog H × Except IdentityLogError ℕ :=
  let signer := rotation.sig.signer
  if ¬ log.Authorized signer ∨
      rotation.sig.verifiesAs H E signer (rotationMessage rotation.newPrimary) = false then
    (log, .error (.unauthorizedRotation signer))
  else
    let log := { log with
      primaries := log.primaries ++ [rotation.newPrimary]
      primaries_ne := List.append_ne_nil_of_right_ne_nil _ (List.cons_ne_nil _ _)
      rotationSigners := log.rotationSigners ++ [signer] }
    (log, .ok log.headGeneration)

def certifyDomainSubkey (log : IdentityLog H) (domain : Domain) (subkey issuer : KeyId) :
    IdentityLog H × Except IdentityLogError Unit :=
  if log.revoked.contains domain then (log, .error (.domainRevoked domain))
  else if issuer ≠ log.currentPrimary then (log, .error (.twoHopCertification issuer))
  else if log.domains.contains domain then (log, .error (.domainAlreadyCertified domain))
  else
    ({ log with domains := log.domains.insert domain ⟨subkey, log.headGeneration, none, none⟩ },
      .ok ())

def enrollPairwise (log : IdentityLog H) (domain : Domain) (alias_ : String) :
    IdentityLog H × Except IdentityLogError Unit :=
  if log.revoked.contains domain then (log, .error (.domainRevoked domain))
  else
    match log.domains[domain]? with
    | none => (log, .error (.domainNotCertified domain))
    | some d =>
      ({ log with domains := log.domains.insert domain { d with pairwiseAlias := some alias_ } },
        .ok ())

def sealSubkeyOffer (log : IdentityLog H) (domain : Domain) (node : NodeId) :
    IdentityLog H × Except IdentityLogError Unit :=
  if log.revoked.contains domain then (log, .error (.domainRevoked domain))
  else
    match log.domains[domain]? with
    | none => (log, .error (.domainNotCertified domain))
    | some d =>
      if d.offer.isSome then (log, .error (.offerAlreadySealed domain))
      else ({ log with domains := log.domains.insert domain { d with offer := some node } }, .ok ())

def revokeDomain (log : IdentityLog H) (domain : Domain) : IdentityLog H :=
  let revoked := log.revoked.insert domain
  match log.domains[domain]? with
  | none => { log with revoked }
  | some d => { log with revoked, domains := log.domains.insert domain { d with offer := none } }

def pairwiseAlias (log : IdentityLog H) (domain : Domain) : Option String :=
  log.domains[domain]?.bind DomainSubkey.pairwiseAlias

def sealedSubkeys (log : IdentityLog H) : List KeyId :=
  (log.domains.toList.filter fun e => e.2.offer.isSome).map fun e => e.2.key

def primaryNeverSealed (log : IdentityLog H) : Bool :=
  log.sealedSubkeys.all fun key => decide (key ∉ log.primaries)

/-! ## What a call can do -/

def Accepts (E : Ed25519) (log : IdentityLog H) (rotation : Rotation) : Prop :=
  (log.rotate E rotation).2.isOk = true

variable {log : IdentityLog H}

/-- **When a rotation is appended.** -/
theorem accepts_iff {E : Ed25519} {rotation : Rotation} :
    log.Accepts E rotation ↔ log.Authorized rotation.sig.signer ∧
      rotation.sig.verifiesAs H E rotation.sig.signer (rotationMessage rotation.newPrimary) =
        true := by
  rw [Accepts, rotate]
  split_ifs with h
  · refine iff_of_false (by simp [Except.isOk, Except.toBool]) ?_
    rintro ⟨hauthorized, hverifies⟩
    rcases h with h | h
    · exact h hauthorized
    · rw [h] at hverifies
      cases hverifies
  · rw [not_or, not_not, Bool.not_eq_false] at h
    exact iff_of_true rfl h

theorem rotate_cases (E : Ed25519) (log : IdentityLog H) (rotation : Rotation) :
    (log.Accepts E rotation ∧
      (log.rotate E rotation).1.primaries = log.primaries ++ [rotation.newPrimary] ∧
      (log.rotate E rotation).1.genesis = log.genesis ∧
      (log.rotate E rotation).1.cid = log.cid ∧
      (log.rotate E rotation).1.domains = log.domains) ∨
    (¬ log.Accepts E rotation ∧ (log.rotate E rotation).1 = log) := by
  rw [Accepts, rotate]
  split_ifs
  · exact .inr ⟨by simp [Except.isOk, Except.toBool], rfl⟩
  · exact .inl ⟨rfl, rfl, rfl, rfl, rfl⟩

inductive Call where
  | rotate (rotation : Rotation)
  | certify (domain : Domain) (subkey issuer : KeyId)
  | enroll (domain : Domain) (alias_ : String)
  | sealOffer (domain : Domain) (node : NodeId)
  | revoke (domain : Domain)

def step (E : Ed25519) (log : IdentityLog H) : Call → IdentityLog H
  | .rotate rotation => (log.rotate E rotation).1
  | .certify domain subkey issuer => (log.certifyDomainSubkey domain subkey issuer).1
  | .enroll domain alias_ => (log.enrollPairwise domain alias_).1
  | .sealOffer domain node => (log.sealSubkeyOffer domain node).1
  | .revoke domain => log.revokeDomain domain

/-- A call that is not a rotation changes nothing but the domains. -/
structure Keeps (log log' : IdentityLog H) : Prop where
  genesis : log'.genesis = log.genesis
  cid : log'.cid = log.cid
  primaries : log'.primaries = log.primaries

theorem Keeps.refl (log : IdentityLog H) : log.Keeps log := ⟨rfl, rfl, rfl⟩

theorem certify_cases (log : IdentityLog H) (domain : Domain) (subkey issuer : KeyId) :
    log.Keeps (log.certifyDomainSubkey domain subkey issuer).1 ∧
      ((∃ d : DomainSubkey, d.offer = none ∧ d.pairwiseAlias = none ∧
        (log.certifyDomainSubkey domain subkey issuer).1.domains = log.domains.insert domain d) ∨
      (log.certifyDomainSubkey domain subkey issuer).1 = log) := by
  rw [certifyDomainSubkey]
  split_ifs
  · exact ⟨.refl log, .inr rfl⟩
  · exact ⟨.refl log, .inr rfl⟩
  · exact ⟨.refl log, .inr rfl⟩
  · exact ⟨⟨rfl, rfl, rfl⟩, .inl ⟨_, rfl, rfl, rfl⟩⟩

theorem enroll_cases (log : IdentityLog H) (domain : Domain) (alias_ : String) :
    log.Keeps (log.enrollPairwise domain alias_).1 ∧
      ((∃ d, log.domains[domain]? = some d ∧ (log.enrollPairwise domain alias_).2 = .ok () ∧
        (log.enrollPairwise domain alias_).1.domains =
          log.domains.insert domain { d with pairwiseAlias := some alias_ }) ∨
      ((log.enrollPairwise domain alias_).2 ≠ .ok () ∧
        (log.enrollPairwise domain alias_).1 = log)) := by
  rw [enrollPairwise]
  split_ifs
  · exact ⟨.refl log, .inr ⟨by simp, rfl⟩⟩
  · cases hd : log.domains[domain]? with
    | none => exact ⟨.refl log, .inr ⟨by simp, rfl⟩⟩
    | some d => exact ⟨⟨rfl, rfl, rfl⟩, .inl ⟨d, rfl, rfl, rfl⟩⟩

theorem seal_cases (log : IdentityLog H) (domain : Domain) (node : NodeId) :
    log.Keeps (log.sealSubkeyOffer domain node).1 ∧
      ((∃ d, log.domains[domain]? = some d ∧ (log.sealSubkeyOffer domain node).2 = .ok () ∧
        (log.sealSubkeyOffer domain node).1.domains =
          log.domains.insert domain { d with offer := some node }) ∨
      ((log.sealSubkeyOffer domain node).2 ≠ .ok () ∧
        (log.sealSubkeyOffer domain node).1 = log)) := by
  rw [sealSubkeyOffer]
  split_ifs
  · exact ⟨.refl log, .inr ⟨by simp, rfl⟩⟩
  · cases hd : log.domains[domain]? with
    | none => exact ⟨.refl log, .inr ⟨by simp, rfl⟩⟩
    | some d =>
      dsimp only
      split_ifs
      · exact ⟨.refl log, .inr ⟨by simp, rfl⟩⟩
      · exact ⟨⟨rfl, rfl, rfl⟩, .inl ⟨d, rfl, rfl, rfl⟩⟩

theorem revoke_cases (log : IdentityLog H) (domain : Domain) :
    log.Keeps (log.revokeDomain domain) ∧
      ((∃ d, log.domains[domain]? = some d ∧
        (log.revokeDomain domain).domains = log.domains.insert domain { d with offer := none }) ∨
      (log.revokeDomain domain).domains = log.domains) := by
  rw [revokeDomain]
  cases hd : log.domains[domain]? with
  | none => exact ⟨⟨rfl, rfl, rfl⟩, .inr rfl⟩
  | some d => exact ⟨⟨rfl, rfl, rfl⟩, .inl ⟨d, rfl, rfl⟩⟩

/-! ## The custody of primaries -/

def Clean (primaries : List KeyId) (cid : String) (d : DomainSubkey) : Prop :=
  (d.offer.isSome = true → d.key ∉ primaries) ∧ d.pairwiseAlias ≠ some cid

structure Custody (log : IdentityLog H) : Prop where
  never_sealed : log.primaryNeverSealed = true
  unlinked : ∀ domain, log.pairwiseAlias domain ≠ some log.cid

theorem primaryNeverSealed_iff :
    log.primaryNeverSealed = true ↔ ∀ (domain : Domain) (d : DomainSubkey),
      log.domains[domain]? = some d → d.offer.isSome = true → d.key ∉ log.primaries := by
  rw [primaryNeverSealed, List.all_eq_true]
  simp only [sealedSubkeys, List.mem_map, List.mem_filter, decide_eq_true_eq]
  constructor
  · intro h domain d hd hoffer
    exact h _ ⟨(domain, d), ⟨ExtTreeMap.mem_toList_iff_getElem?_eq_some.2 hd, hoffer⟩, rfl⟩
  · rintro h _ ⟨⟨domain, d⟩, ⟨hd, hoffer⟩, rfl⟩
    exact h domain d (ExtTreeMap.mem_toList_iff_getElem?_eq_some.1 hd) hoffer

theorem custody_iff_clean :
    log.Custody ↔ ∀ (domain : Domain) (d : DomainSubkey), log.domains[domain]? = some d →
      Clean log.primaries log.cid d := by
  constructor
  · intro h domain d hd
    refine ⟨primaryNeverSealed_iff.1 h.never_sealed domain d hd, fun halias => ?_⟩
    exact h.unlinked domain (by rw [pairwiseAlias, hd]; exact halias)
  · intro h
    refine ⟨primaryNeverSealed_iff.2 fun domain d hd => (h domain d hd).1, fun domain halias => ?_⟩
    obtain ⟨d, hd, hcid⟩ := Option.bind_eq_some_iff.1 halias
    exact (h domain d hd).2 hcid

/-- The call does not put a primary into an offer, nor the identifier into an alias: what is
installed is not sealed, what is sealed was never a primary, and what is enrolled is not the
identifier. -/
def Safe (E : Ed25519) (log : IdentityLog H) : Call → Prop
  | .rotate rotation => log.Accepts E rotation → rotation.newPrimary ∉ log.sealedSubkeys
  | .sealOffer domain node => (log.sealSubkeyOffer domain node).2 = .ok () →
    ∀ d, log.domains[domain]? = some d → d.key ∉ log.primaries
  | .enroll domain alias_ => (log.enrollPairwise domain alias_).2 = .ok () → alias_ ≠ log.cid
  | .certify _ _ _ => True
  | .revoke _ => True

theorem mem_sealedSubkeys {key : KeyId} :
    key ∈ log.sealedSubkeys ↔
      ∃ (domain : Domain) (d : DomainSubkey), log.domains[domain]? = some d ∧
        d.offer.isSome = true ∧ d.key = key := by
  simp only [sealedSubkeys, List.mem_map, List.mem_filter, Prod.exists,
    ExtTreeMap.mem_toList_iff_getElem?_eq_some, and_assoc]

/-- **One call keeps the custody of primaries exactly if it is safe.** -/
theorem custody_step_iff (E : Ed25519) (h : log.Custody) (a : Call) :
    (log.step E a).Custody ↔ log.Safe E a := by
  rw [custody_iff_clean] at h ⊢
  cases a with
  | rotate rotation =>
    rw [Safe]
    rcases rotate_cases E log rotation with ⟨haccepts, hprimaries, -, hcid, hdomains⟩ | ⟨hnot, heq⟩
    · rw [step, hprimaries, hcid, hdomains, mem_sealedSubkeys]
      constructor
      · rintro hafter - ⟨domain, d, hd, hoffer, hkey⟩
        refine (hafter domain d hd).1 hoffer (List.mem_append_right _ ?_)
        rw [hkey]
        exact List.mem_singleton_self _
      · intro hsafe domain d hd
        refine ⟨fun hoffer hmem => ?_, (h domain d hd).2⟩
        rcases List.mem_append.1 hmem with hmem | hmem
        · exact (h domain d hd).1 hoffer hmem
        · exact hsafe haccepts ⟨domain, d, hd, hoffer, List.mem_singleton.1 hmem⟩
    · rw [step, heq]
      exact iff_of_true h fun haccepts => absurd haccepts hnot
  | certify domain subkey issuer =>
    obtain ⟨hkeeps, ⟨d, hoffer, halias, hdomains⟩ | heq⟩ := certify_cases log domain subkey issuer
    · rw [step, hkeeps.primaries, hkeeps.cid, hdomains, forall_insert_iff h]
      refine iff_of_true ⟨fun hsome => ?_, ?_⟩ trivial
      · rw [hoffer] at hsome
        cases hsome
      · rw [halias]
        exact (Option.some_ne_none _).symm
    · rw [step, heq]
      exact iff_of_true h trivial
  | enroll domain alias_ =>
    obtain ⟨hkeeps, ⟨d, hd, hok, hdomains⟩ | ⟨hnot, heq⟩⟩ := enroll_cases log domain alias_
    · rw [step, hkeeps.primaries, hkeeps.cid, hdomains, forall_insert_iff h, Safe, Clean]
      have hsealed := (h domain d hd).1
      constructor
      · rintro ⟨-, hne⟩ - heq
        exact hne (congrArg some heq)
      · intro hne
        exact ⟨hsealed, fun heq => hne hok (Option.some.inj heq)⟩
    · rw [step, heq]
      exact iff_of_true h fun hok => absurd hok hnot
  | sealOffer domain node =>
    obtain ⟨hkeeps, ⟨d, hd, hok, hdomains⟩ | ⟨hnot, heq⟩⟩ := seal_cases log domain node
    · rw [step, hkeeps.primaries, hkeeps.cid, hdomains, forall_insert_iff h, Safe, Clean]
      have halias := (h domain d hd).2
      constructor
      · rintro ⟨hsealed, -⟩ - d' hd'
        obtain rfl := Option.some.inj (hd.symm.trans hd')
        exact hsealed rfl
      · intro hsafe
        exact ⟨fun _ => hsafe hok d hd, halias⟩
    · rw [step, heq]
      exact iff_of_true h fun hok => absurd hok hnot
  | revoke domain =>
    obtain ⟨hkeeps, ⟨d, hd, hdomains⟩ | hdomains⟩ := revoke_cases log domain
    · rw [step, hkeeps.primaries, hkeeps.cid, hdomains, forall_insert_iff h]
      exact iff_of_true ⟨fun hsome => absurd hsome (by simp), (h domain d hd).2⟩ trivial
    · rw [step, hkeeps.primaries, hkeeps.cid, hdomains]
      exact iff_of_true h trivial

theorem custody_fromGenesis (g : Genesis) : (fromGenesis H g).Custody := by
  refine custody_iff_clean.2 fun domain d hd => ?_
  have hnone : (∅ : ExtTreeMap Domain DomainSubkey)[domain]? = some d := hd
  simp at hnone

/-- **When primaries stay in custody.** -/
theorem custody_iff (E : Ed25519) (g : Genesis) (l : List Call) :
    Throughout (step E) Custody (fromGenesis H g) l ↔ Along (step E) (Safe E) (fromGenesis H g) l :=
  throughout_iff_along (J := fun _ => True) (fun _ _ _ _ _ => trivial)
    (fun _ a _ _ h => custody_step_iff E h a) trivial (custody_fromGenesis g)

def soleKey : Genesis := ⟨⟨"primary", by decide⟩, none⟩

def homeDomain : Domain := ⟨"example", by decide⟩

/-- **A primary is sealed.** -/
theorem primary_sealed :
    (exec (step (tableEd25519 [])) (fromGenesis (tableDigest []) soleKey)
        [.certify homeDomain soleKey.initialPrimary soleKey.initialPrimary,
          .sealOffer homeDomain "node"]).primaryNeverSealed = false ∧
      (exec (step (tableEd25519 [])) (fromGenesis (tableDigest []) soleKey)
        [.certify homeDomain ⟨"subkey", by decide⟩ soleKey.initialPrimary,
          .enroll homeDomain (soleKey.cid (tableDigest []))]).pairwiseAlias homeDomain =
        some (soleKey.cid (tableDigest [])) := by
  have henroll : ∀ alias_, (exec (step (tableEd25519 [])) (fromGenesis (tableDigest []) soleKey)
      [.certify homeDomain ⟨"subkey", by decide⟩ soleKey.initialPrimary,
        .enroll homeDomain alias_]).pairwiseAlias homeDomain = some alias_ := fun _ => rfl
  exact ⟨by decide, henroll _⟩

end IdentityLog

/-! ## Rotations and when they are accepted again

The signature of a rotation covers the new primary and nothing else, so whether it is accepted is up
to the log at the time of the call.

* `rotations_not_replayed` — **a rotation is not accepted again** by its own log unless its signer
  is the recovery key or was installed again, nor by another log of which its signer is no key. -/

namespace IdentityLog

variable {H : Bytes → Bytes} {E : Ed25519}

inductive Event where
  | sign (rotation : Rotation)
  | call (a : Call)

def observe (E : Ed25519) (log : IdentityLog H) : Event → IdentityLog H
  | .sign _ => log
  | .call a => log.step E a

def Installs (E : Ed25519) (key : KeyId) (log : IdentityLog H) (e : Event) : Prop :=
  ∃ rotation : Rotation, e = .call (.rotate rotation) ∧ log.Accepts E rotation ∧
    rotation.newPrimary = key

/-! ## The chain of primaries -/

theorem primaries_observe (E : Ed25519) (log : IdentityLog H) (e : Event) :
    (log.observe E e).genesis = log.genesis ∧
      ∃ installed, (log.observe E e).primaries = log.primaries ++ installed ∧
        ∀ key, key ∈ installed ↔ Installs E key log e := by
  have hnone : ∀ {e : Event} {log' : IdentityLog H}, log.Keeps log' →
      (∀ rotation, e ≠ .call (.rotate rotation)) →
      log'.genesis = log.genesis ∧ ∃ installed, log'.primaries = log.primaries ++ installed ∧
        ∀ key, key ∈ installed ↔ Installs E key log e := by
    intro e log' hkeeps hne
    refine ⟨hkeeps.genesis, [], by rw [hkeeps.primaries, List.append_nil], fun key => ?_⟩
    refine iff_of_false List.not_mem_nil ?_
    rintro ⟨rotation, heq, -⟩
    exact hne rotation heq
  cases e with
  | sign rotation => exact hnone (.refl log) (by rintro _ ⟨⟩)
  | call a =>
    cases a with
    | rotate rotation =>
      rcases rotate_cases E log rotation with ⟨haccepts, hprimaries, hgenesis, -⟩ | ⟨hnot, heq⟩
      · refine ⟨hgenesis, [rotation.newPrimary], hprimaries, fun key => ?_⟩
        rw [List.mem_singleton]
        constructor
        · rintro rfl
          exact ⟨rotation, rfl, haccepts, rfl⟩
        · rintro ⟨rotation', heq, -, rfl⟩
          cases heq
          rfl
      · rw [observe, step, heq]
        refine ⟨rfl, [], (List.append_nil _).symm, fun key => iff_of_false List.not_mem_nil ?_⟩
        rintro ⟨rotation', heq, haccepts, -⟩
        cases heq
        exact hnot haccepts
    | certify domain subkey issuer =>
      exact hnone (certify_cases log domain subkey issuer).1 (by rintro _ ⟨⟩)
    | enroll domain alias_ => exact hnone (enroll_cases log domain alias_).1 (by rintro _ ⟨⟩)
    | sealOffer domain node => exact hnone (seal_cases log domain node).1 (by rintro _ ⟨⟩)
    | revoke domain => exact hnone (revoke_cases log domain).1 (by rintro _ ⟨⟩)

/-- **The primaries after a run.** -/
theorem primaries_exec (E : Ed25519) (log : IdentityLog H) (l : List Event) :
    (exec (observe E) log l).genesis = log.genesis ∧
      ∃ installed, (exec (observe E) log l).primaries = log.primaries ++ installed ∧
        ∀ key, key ∈ installed ↔ Ever (observe E) (Installs E key) log l := by
  induction l using List.reverseRecOn with
  | nil => exact ⟨rfl, [], (List.append_nil _).symm,
      fun key => iff_of_false List.not_mem_nil not_ever_nil⟩
  | append_singleton l e ih =>
    obtain ⟨hgenesis, installed, hprimaries, hmem⟩ := ih
    obtain ⟨hgenesis', installed', hprimaries', hmem'⟩ :=
      primaries_observe E (exec (observe E) log l) e
    rw [exec_concat]
    refine ⟨hgenesis'.trans hgenesis, installed ++ installed', ?_, fun key => ?_⟩
    · rw [hprimaries', hprimaries, List.append_assoc]
    · rw [List.mem_append, ever_concat, hmem, hmem', or_comm]

theorem currentPrimary_mem (log : IdentityLog H) : log.currentPrimary ∈ log.primaries :=
  List.getLast_mem _

variable {log : IdentityLog H} {l : List Event}

theorem ever_installs_currentPrimary {key : KeyId} (h : Ever (observe E) (Installs E key) log l) :
    Ever (observe E) (Installs E (exec (observe E) log l).currentPrimary) log l := by
  obtain ⟨-, installed, hprimaries, hmem⟩ := primaries_exec E log l
  have hne : installed ≠ [] := List.ne_nil_of_mem ((hmem key).2 h)
  refine (hmem _).1 ?_
  rw [currentPrimary, List.getLast_congr _ (List.append_ne_nil_of_right_ne_nil _ hne) hprimaries,
    List.getLast_append_of_ne_nil _ hne]
  exact List.getLast_mem hne

theorem currentPrimary_cases (g : Genesis) (l : List Event) :
    (exec (observe E) (fromGenesis H g) l).currentPrimary = g.initialPrimary ∨
      Ever (observe E) (Installs E (exec (observe E) (fromGenesis H g) l).currentPrimary)
        (fromGenesis H g) l := by
  obtain ⟨-, installed, hprimaries, hmem⟩ := primaries_exec E (fromGenesis H g) l
  have hlast := currentPrimary_mem (exec (observe E) (fromGenesis H g) l)
  rw [hprimaries] at hlast
  rcases List.mem_cons.1 hlast with h | h
  · exact .inl h
  · exact .inr ((hmem _).1 h)

/-! ## Replays -/

variable {rotation : Rotation}

/-- **A rotation is not accepted again.** -/
theorem not_accepts_again (hrecovery : log.genesis.recovery ≠ some rotation.sig.signer)
    (haccepts : log.Accepts E rotation)
    (hnever : ¬ Ever (observe E) (Installs E rotation.sig.signer) log
      (.call (.rotate rotation) :: l)) :
    ¬ (exec (observe E) log (.call (.rotate rotation) :: l)).Accepts E rotation := by
  intro hagain
  rcases (accepts_iff.1 hagain).1 with hcurrent | hsigner
  · rw [hcurrent] at hnever
    have hfirst : Ever (observe E) (Installs E rotation.newPrimary) log
        (.call (.rotate rotation) :: l) := ⟨[], _, l, rfl, rotation, rfl, haccepts, rfl⟩
    exact hnever (ever_installs_currentPrimary hfirst)
  · rw [(primaries_exec E log _).1] at hsigner
    exact hrecovery hsigner

theorem not_accepts_of_stranger {g : Genesis} (hrecovery : g.recovery ≠ some rotation.sig.signer)
    (hinitial : g.initialPrimary ≠ rotation.sig.signer)
    (hnever : ¬ Ever (observe E) (Installs E rotation.sig.signer) (fromGenesis H g) l) :
    ¬ (exec (observe E) (fromGenesis H g) l).Accepts E rotation := by
  intro hagain
  rcases (accepts_iff.1 hagain).1 with hcurrent | hsigner
  · rcases currentPrimary_cases (E := E) (H := H) g l with h | h
    · exact hinitial (h.symm.trans hcurrent.symm)
    · rw [← hcurrent] at h
      exact hnever h
  · rw [(primaries_exec E _ _).1] at hsigner
    exact hrecovery hsigner

/-! ## When a signature was made -/

def SignsInTenure (log : IdentityLog H) (e : Event) : Prop :=
  ∀ rotation, e = .sign rotation → rotation.sig.signer = log.currentPrimary

theorem not_ever_installs_of_count
    (hcurrent : (exec (observe E) log l).currentPrimary = log.currentPrimary)
    (hcount : (exec (observe E) log l).primaries.count log.currentPrimary = 1) (key : KeyId) :
    ¬ Ever (observe E) (Installs E key) log l := by
  intro hever
  obtain ⟨-, installed, hprimaries, hmem⟩ := primaries_exec E log l
  have hsince : log.currentPrimary ∈ installed := by
    rw [← hcurrent]
    exact (hmem _).2 (ever_installs_currentPrimary hever)
  rw [hprimaries, List.count_append] at hcount
  have h₁ := List.count_pos_iff.2 (currentPrimary_mem log)
  have h₂ := List.count_pos_iff.2 hsince
  omega

/-- **An accepted rotation was signed after the one before it.** -/
theorem signed_since {a b : List Event} {first : Rotation}
    (hfirst : (exec (observe E) log a).Accepts E first)
    (haccepts : (exec (observe E) log (a ++ .call (.rotate first) :: b)).Accepts E rotation)
    (hrecovery : log.genesis.recovery ≠ some rotation.sig.signer)
    (htenure : Along (observe E) SignsInTenure log a)
    (hcount : (exec (observe E) log (a ++ .call (.rotate first) :: b)).primaries.count
      rotation.sig.signer = 1) (hsigned : .sign rotation ∈ a ++ .call (.rotate first) :: b) :
    .sign rotation ∈ b := by
  rw [List.mem_append, List.mem_cons] at hsigned
  rcases hsigned with hsigned | hsigned | hsigned
  · -- then its signer has been the primary ever since, and the first rotation installed nothing
    obtain ⟨c, d, rfl⟩ := List.append_of_mem hsigned
    have hsigner : rotation.sig.signer = (exec (observe E) log c).currentPrimary :=
      htenure c (.sign rotation) (by simp) rotation rfl
    rw [List.append_assoc, exec_append] at haccepts hcount
    have hcurrent : rotation.sig.signer = (exec (observe E) (exec (observe E) log c)
        (.sign rotation :: d ++ .call (.rotate first) :: b)).currentPrimary := by
      rcases (accepts_iff.1 haccepts).1 with h | h
      · exact h
      · rw [(primaries_exec E _ _).1, (primaries_exec E _ _).1] at h
        exact absurd h hrecovery
    rw [hsigner] at hcurrent hcount
    refine absurd ?_ (not_ever_installs_of_count hcurrent.symm hcount first.newPrimary)
    refine ⟨.sign rotation :: d, .call (.rotate first), b, rfl, first, rfl, ?_, rfl⟩
    rwa [← exec_append]
  · cases hsigned
  · exact hsigned

/-- **Rotations are not replayed.** -/
theorem rotations_not_replayed (E : Ed25519) (g : Genesis) (l : List Event) :
    (∀ a b rotation, a ++ .call (.rotate rotation) :: b <+: l →
      (exec (observe E) (fromGenesis H g) a).Accepts E rotation →
      g.recovery ≠ some rotation.sig.signer →
      ¬ Ever (observe E) (Installs E rotation.sig.signer) (exec (observe E) (fromGenesis H g) a)
        (.call (.rotate rotation) :: b) →
      ¬ (exec (observe E) (fromGenesis H g) (a ++ .call (.rotate rotation) :: b)).Accepts E
        rotation) ∧
    (∀ a rotation, a ++ [.call (.rotate rotation)] <+: l →
      (exec (observe E) (fromGenesis H g) a).Accepts E rotation →
      ∀ g' l', g'.cid H ≠ g.cid H → g'.recovery ≠ some rotation.sig.signer →
        g'.initialPrimary ≠ rotation.sig.signer →
        ¬ Ever (observe E) (Installs E rotation.sig.signer) (fromGenesis H g') l' →
        ¬ (exec (observe E) (fromGenesis H g') l').Accepts E rotation) ∧
    ∀ a b first rotation,
      a ++ .call (.rotate first) :: (b ++ [.call (.rotate rotation)]) <+: l →
      (exec (observe E) (fromGenesis H g) a).Accepts E first →
      (exec (observe E) (fromGenesis H g) (a ++ .call (.rotate first) :: b)).Accepts E rotation →
      rotation.newPrimary = (exec (observe E) (fromGenesis H g) a).currentPrimary →
      first.newPrimary ≠ rotation.newPrimary →
      g.recovery ≠ some rotation.sig.signer →
      Along (observe E) SignsInTenure (fromGenesis H g) l →
      (exec (observe E) (fromGenesis H g) (a ++ .call (.rotate first) :: b)).primaries.count
        rotation.sig.signer = 1 →
      .sign rotation ∈ a ++ .call (.rotate first) :: b → .sign rotation ∈ b := by
  refine ⟨?_, ?_, ?_⟩
  · intro a b rotation _ haccepts hrecovery hnever
    rw [exec_append]
    refine not_accepts_again ?_ haccepts hnever
    rwa [(primaries_exec E _ a).1]
  · intro a rotation _ _ g' l' _ hrecovery hinitial hnever
    exact not_accepts_of_stranger hrecovery hinitial hnever
  · intro a b first rotation hprefix hfirst haccepts _ _ hrecovery htenure hcount hsigned
    refine signed_since hfirst haccepts hrecovery ?_ hcount hsigned
    exact (along_append.1 (htenure.between (p := []) hprefix)).1

end IdentityLog

/-! ## Concrete rotations -/

section Concrete

variable {H : Bytes → Bytes} {E : Ed25519}

theorem Rotation.signedBy_eq (hH : ∀ b, (H b).length = 32) (newPrimary signer : KeyId) :
    Rotation.signedBy H E newPrimary signer = some ⟨newPrimary, signer,
      (keypairForName H E signer).1,
      E.sign (keypairForName H E signer).2 (rotationMessage newPrimary)⟩ := by
  have hlen : (keypairForName H E signer).2.length = 32 := hH _
  rw [Rotation.signedBy, sign, if_pos hlen]

theorem Rotation.verifiesAs_of_signedBy (hE : E.Correct) (hH : ∀ b, (H b).length = 32)
    {newPrimary signer : KeyId} {rotation : Rotation}
    (h : Rotation.signedBy H E newPrimary signer = some rotation) :
    rotation.newPrimary = newPrimary ∧ rotation.sig.signer = signer ∧
      rotation.sig.verifiesAs H E rotation.sig.signer (rotationMessage rotation.newPrimary) =
        true := by
  rw [Rotation.signedBy_eq hH] at h
  obtain rfl := Option.some.inj h
  have hlen : (keypairForName H E signer).2.length = 32 := hH _
  have hverify : verify E (keypairForName H E signer).1 (rotationMessage newPrimary)
      (E.sign (keypairForName H E signer).2 (rotationMessage newPrimary)) = .ok () :=
    if_pos ⟨hE.length_verifyingKey _ hlen, hE.length_sign _ _ hlen, hE.verify_sign _ _ hlen⟩
  refine ⟨rfl, rfl, ?_⟩
  rw [Sig.verifiesAs, if_neg (not_not.2 rfl), if_neg (not_not.2 rfl), hverify]
  rfl

end Concrete

namespace IdentityLog

theorem currentPrimary_rotate {log : IdentityLog H} {E : Ed25519} {rotation : Rotation}
    (h : log.Accepts E rotation) : (log.rotate E rotation).1.currentPrimary = rotation.newPrimary := by
  rcases rotate_cases E log rotation with ⟨-, hprimaries, -⟩ | ⟨hnot, -⟩
  · rw [currentPrimary, List.getLast_congr _ (List.append_ne_nil_of_right_ne_nil _
      (List.cons_ne_nil _ _)) hprimaries, List.getLast_append_of_ne_nil _ (List.cons_ne_nil _ _)]
    rfl
  · exact absurd h hnot

def keyA : KeyId := ⟨"a", by decide⟩

def keyB : KeyId := ⟨"b", by decide⟩

def keyC : KeyId := ⟨"c", by decide⟩

def keyR : KeyId := ⟨"recovery", by decide⟩

def plainRotation (newPrimary signer : KeyId) : Rotation :=
  ⟨newPrimary, signer, (keypairForName tailDigest plainEd25519 signer).1,
    plainEd25519.sign (keypairForName tailDigest plainEd25519 signer).2
      (rotationMessage newPrimary)⟩

theorem accepts_plainRotation_iff {log : IdentityLog tailDigest} {newPrimary signer : KeyId} :
    log.Accepts plainEd25519 (plainRotation newPrimary signer) ↔ log.Authorized signer := by
  have hverifies := (Rotation.verifiesAs_of_signedBy plainEd25519_correct length_tailDigest
    (Rotation.signedBy_eq length_tailDigest newPrimary signer)).2.2
  rw [accepts_iff]
  exact and_iff_left hverifies

def thereAndBack : List Event :=
  [.sign (plainRotation keyB keyA), .call (.rotate (plainRotation keyB keyA)),
    .sign (plainRotation keyA keyB), .call (.rotate (plainRotation keyA keyB))]

/-- The rotation of B is not accepted again, nor by a log of C, and it was signed after A was
rotated away. -/
theorem thereAndBack_not_replayed :
    ¬ (exec (observe plainEd25519) (fromGenesis tailDigest ⟨keyA, none⟩) thereAndBack).Accepts
        plainEd25519 (plainRotation keyA keyB) ∧
      ¬ (fromGenesis tailDigest ⟨keyC, none⟩).Accepts plainEd25519 (plainRotation keyA keyB) ∧
      Event.sign (plainRotation keyA keyB) ∈ [Event.sign (plainRotation keyA keyB)] := by
  obtain ⟨hagain, hother, hsince⟩ :=
    rotations_not_replayed (H := tailDigest) plainEd25519 ⟨keyA, none⟩ thereAndBack
  have hfirst : (fromGenesis tailDigest ⟨keyA, none⟩).Accepts plainEd25519
      (plainRotation keyB keyA) := accepts_plainRotation_iff.2 (.inl rfl)
  have hB : (exec (observe plainEd25519) (fromGenesis tailDigest ⟨keyA, none⟩)
      (thereAndBack.take 2)).currentPrimary = keyB := currentPrimary_rotate hfirst
  have hsecond : (exec (observe plainEd25519) (fromGenesis tailDigest ⟨keyA, none⟩)
      (thereAndBack.take 3)).Accepts plainEd25519 (plainRotation keyA keyB) :=
    accepts_plainRotation_iff.2 (.inl hB.symm)
  have hprimaries : (exec (observe plainEd25519) (fromGenesis tailDigest ⟨keyA, none⟩)
      (thereAndBack.take 3)).primaries = [keyA, keyB] := by
    rcases rotate_cases plainEd25519 (fromGenesis tailDigest ⟨keyA, none⟩)
      (plainRotation keyB keyA) with ⟨-, h, -⟩ | ⟨hnot, -⟩
    · exact h
    · exact absurd hfirst hnot
  refine ⟨?_, ?_, ?_⟩
  · refine hagain (thereAndBack.take 3) [] _ ⟨[], rfl⟩ hsecond (Option.some_ne_none _).symm ?_
    rintro ⟨p, e, q, heq, hinstalls⟩
    rcases List.cons_eq_append_iff.1 heq with ⟨rfl, hcons⟩ | ⟨p, rfl, hnil⟩
    · obtain ⟨rfl, -⟩ := List.cons.inj hcons
      obtain ⟨rotation, hrotation, -, hkey⟩ := hinstalls
      cases hrotation
      exact absurd hkey (by decide)
    · exact absurd hnil (by simp)
  · refine hother (thereAndBack.take 3) _ ⟨[], rfl⟩ hsecond ⟨keyC, none⟩ [] ?_
      (Option.some_ne_none _).symm (by decide) not_ever_nil
    rw [Ne, Genesis.cid_inj]
    decide +kernel
  · refine hsince (thereAndBack.take 1) [.sign (plainRotation keyA keyB)] (plainRotation keyB keyA) _
      ⟨[], rfl⟩ hfirst hsecond rfl (by decide) (Option.some_ne_none _).symm ?_ ?_
      (by simp [thereAndBack])
    · refine along_cons.2 ⟨?_, along_cons.2 ⟨?_, along_cons.2 ⟨?_, along_cons.2 ⟨?_, along_nil⟩⟩⟩⟩
      · rintro _ ⟨⟩
        rfl
      · rintro _ ⟨⟩
      · rintro _ ⟨⟩
        exact hB.symm
      · rintro _ ⟨⟩
    · exact (congrArg (List.count keyB) hprimaries).trans (by decide)

def recovered : List Event :=
  [.sign (plainRotation keyB keyR), .call (.rotate (plainRotation keyB keyR)),
    .call (.rotate (plainRotation keyC keyB))]

/-- **A rotation by the recovery key is replayed.** -/
theorem recovery_replays :
    (exec (observe plainEd25519) (fromGenesis tailDigest ⟨keyA, some keyR⟩)
        (recovered.take 1)).Accepts plainEd25519 (plainRotation keyB keyR) ∧
      (exec (observe plainEd25519) (fromGenesis tailDigest ⟨keyA, some keyR⟩)
        recovered).currentPrimary = keyC ∧
      (exec (observe plainEd25519) (fromGenesis tailDigest ⟨keyA, some keyR⟩)
        recovered).Accepts plainEd25519 (plainRotation keyB keyR) ∧
      (exec (observe plainEd25519) (fromGenesis tailDigest ⟨keyA, some keyR⟩)
        (recovered ++ [.call (.rotate (plainRotation keyB keyR))])).currentPrimary = keyB ∧
      Genesis.cid tailDigest ⟨keyC, some keyR⟩ ≠ Genesis.cid tailDigest ⟨keyA, some keyR⟩ ∧
      (fromGenesis tailDigest ⟨keyC, some keyR⟩).Accepts plainEd25519 (plainRotation keyB keyR) := by
  -- the recovery key may always sign
  have hany : ∀ l, (exec (observe plainEd25519) (fromGenesis tailDigest ⟨keyA, some keyR⟩)
      l).Accepts plainEd25519 (plainRotation keyB keyR) := fun l =>
    accepts_plainRotation_iff.2 (.inr (by rw [(primaries_exec plainEd25519 _ l).1]; rfl))
  have hB : (exec (observe plainEd25519) (fromGenesis tailDigest ⟨keyA, some keyR⟩)
      (recovered.take 2)).currentPrimary = keyB := currentPrimary_rotate (hany (recovered.take 1))
  refine ⟨hany _, ?_, hany _, ?_, ?_, accepts_plainRotation_iff.2 (.inr rfl)⟩
  · exact currentPrimary_rotate (accepts_plainRotation_iff.2 (.inl hB.symm))
  · rw [exec_concat]
    exact currentPrimary_rotate (hany _)
  · rw [Ne, Genesis.cid_inj]
    decide +kernel

end IdentityLog

end Pillar.Identity
