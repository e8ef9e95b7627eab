import Pillar.Crypto
import Pillar.Lib.Delimited
import Pillar.Lib.Frames
import Pillar.Lib.Hex
import Pillar.Lib.Runs
import Pillar.Rbac.Decider

/-!
# Trust artifacts

`pillar-trust-artifacts`: a signed claim that a subject may do something, made by an issuer in a
declared capacity, with a pointer to the earlier claim that the issuer relies on.

* `parts_eq_of_cid_eq` — **an address binds the parts it is made of**; the capacity goes into it by
  its tag.
-/

namespace Pillar.TrustArtifacts

open Lib.Hex Lib.Frames Lib.Delimited

/-- The address of a claim, in text. -/
abbrev Cid := String

/-! ## Signatures -/

def nameSeed (H : Bytes → Bytes) (name : NodeId) : Bytes :=
  H (utf8 "pillar-trust-artifacts/identity-keyname-seed-v1" ++ utf8 name)

def publicKeyFor (H : Bytes → Bytes) (E : Ed25519) (name : NodeId) : Bytes :=
  (signingKeypairFromSeed H E (nameSeed H name)).1

/-- A detached signature with the name it claims and the key it carries. -/
structure Sig where
  signer : NodeId
  issuerPublic : Bytes
  sig : Bytes
  deriving DecidableEq

def Sig.verifiesAs (H : Bytes → Bytes) (E : Ed25519) (s : Sig) (expected : NodeId)
    (message : Bytes) : Bool :=
  if s.signer ≠ expected then false
  else if publicKeyFor H E s.signer ≠ s.issuerPublic then false
  else (verify E s.issuerPublic message s.sig).isOk

/-! ## Addresses -/

/-- What is hashed of a list of texts: a domain tag, then each text behind its length. -/
def encodeParts (parts : List String) : Bytes :=
  utf8 "pillar-trust-artifact-v1" ++ frames (parts.map utf8)

def contentAddress (H : Bytes → Bytes) (parts : List String) : Cid :=
  "trust:" ++ String.ofList (hex (Pillar.contentAddress H (encodeParts parts)).bytes)

def artifactSchemaVersion : SurfaceVersion := ⟨1⟩

theorem contentAddress_inj {H : Bytes → Bytes} (hH : CollisionFree H) {as bs : List String}
    (ha : ∀ a ∈ as, (utf8 a).length < 256 ^ 8) (hb : ∀ b ∈ bs, (utf8 b).length < 256 ^ 8)
    (h : contentAddress H as = contentAddress H bs) : as = bs := by
  have htext := (String.append_right_inj _).1 h
  have hbytes := hex_injective (String.ofList_injective htext)
  have hcontent := contentAddress_injective hH (ContentId.ext hbytes)
  have hframes := List.append_cancel_left hcontent
  have hmap := frames_inj (by simpa using ha) (by simpa using hb) hframes
  exact List.map_injective_iff.2 utf8_injective hmap

/-! ## Claims -/

/-- The capacity that a claim is made in. -/
inductive Capacity where
  | selfCap
  | role (role scope : String)
  deriving DecidableEq

def Capacity.tag : Capacity → String
  | .selfCap => "self"
  | .role r scope => "role:" ++ r ++ "@" ++ scope

def Capacity.isRole : Capacity → Bool
  | .selfCap => false
  | .role _ _ => true

theorem Capacity.eq_selfCap {c : Capacity} (h : c.isRole = false) : c = .selfCap := by
  cases c with
  | selfCap => rfl
  | role r scope => cases h

@[ext] structure Predicate where
  action : String
  resource : String
  quota : Option UInt64
  deriving DecidableEq

/-- A claim without its signature. -/
@[ext] structure AttestFields where
  issuer : NodeId
  capacity : Capacity
  authority : Option Cid
  subject : NodeId
  predicate : Predicate
  scope : String
  epoch : UInt64
  deriving DecidableEq

/-- The texts that its address is made of. -/
def AttestFields.parts (a : AttestFields) : List String :=
  ["attest", toString artifactSchemaVersion.val, a.issuer, a.capacity.tag, a.authority.getD "",
    a.subject, a.predicate.action, a.predicate.resource,
    (a.predicate.quota.map toString).getD "", a.scope, toString a.epoch]

/-- A signed claim. -/
structure Attest extends AttestFields where
  sig : Sig
  fits : ∀ part ∈ toAttestFields.parts, (utf8 part).length < 256 ^ 8
  deriving DecidableEq

namespace Attest

def cid (H : Bytes → Bytes) (a : Attest) : Cid := contentAddress H a.parts

def signedMessage (H : Bytes → Bytes) (a : Attest) : Bytes := utf8 (a.cid H)

variable {H : Bytes → Bytes} {a b : Attest}

/-- **An address binds its parts.** -/
theorem parts_eq_of_cid_eq (hH : CollisionFree H) (h : a.cid H = b.cid H) : a.parts = b.parts :=
  contentAddress_inj hH a.fits b.fits h

theorem tag_subject_eq_of_cid_eq (hH : CollisionFree H) (h : a.cid H = b.cid H) :
    a.capacity.tag = b.capacity.tag ∧ a.subject = b.subject := by
  have hparts := parts_eq_of_cid_eq hH h
  simp only [AttestFields.parts, List.cons.injEq] at hparts
  exact ⟨hparts.2.2.2.1, hparts.2.2.2.2.2.1⟩

end Attest

theorem Capacity.isRole_eq_of_tag_eq {c d : Capacity}
    (h : c.tag = d.tag) : c.isRole = d.isRole := by
  have hself : ∀ r scope, Capacity.selfCap.tag ≠ (Capacity.role r scope).tag := by
    intro r scope heq
    have hchars := congrArg String.toList heq
    simp [Capacity.tag] at hchars
  cases c with
  | selfCap =>
    cases d with
    | selfCap => rfl
    | role r scope => exact absurd h (hself r scope)
  | role r scope =>
    cases d with
    | selfCap => exact absurd h.symm (hself r scope)
    | role _ _ => rfl

/-! ## What an address binds -/

/-- No role has an at sign, and no authority is the empty text. -/
def AttestFields.Unambiguous (a : AttestFields) : Prop :=
  (∀ r scope, a.capacity = .role r scope → '@' ∉ r.toList) ∧ a.authority ≠ some ""

theorem Capacity.eq_of_tag_eq {c d : Capacity} (hc : ∀ r scope, c = .role r scope → '@' ∉ r.toList)
    (hd : ∀ r scope, d = .role r scope → '@' ∉ r.toList) (h : c.tag = d.tag) : c = d := by
  have hrole := isRole_eq_of_tag_eq h
  cases c with
  | selfCap => exact (eq_selfCap hrole.symm).symm
  | role r scope =>
    cases d with
    | selfCap => cases hrole
    | role r' scope' =>
      have hchars : r.toList ++ '@' :: scope.toList = r'.toList ++ '@' :: scope'.toList := by
        simpa [Capacity.tag] using congrArg String.toList h
      obtain ⟨hr, hscope⟩ := append_sep_inj (hc r scope rfl) (hd r' scope' rfl) hchars
      rw [String.toList_inj.1 hr, String.toList_inj.1 hscope]

theorem toString_injective : Function.Injective (toString : UInt64 → String) := by
  intro m n h
  have hdigits : Nat.toDigits 10 m.toNat = Nat.toDigits 10 n.toNat := String.ofList_injective h
  have hnumber := congrArg number hdigits
  rw [number_decimal, number_decimal] at hnumber
  exact UInt64.toNat_inj.1 (Option.some.inj hnumber)

theorem getD_empty_inj {o p : Option String} (ho : o ≠ some "") (hp : p ≠ some "")
    (h : o.getD "" = p.getD "") : o = p := by
  cases o <;> cases p <;> simp_all [eq_comm]

/-- Two claims that differ in nothing but a capacity that is written in the same way, or an
authority that is missing from one of them and empty in the other. -/
structure AttestFields.Confused (a b : AttestFields) : Prop where
  rest : { a with capacity := b.capacity, authority := b.authority } = b
  tag : a.capacity.tag = b.capacity.tag
  authority : a.authority.getD "" = b.authority.getD ""
  ne : a ≠ b

theorem AttestFields.not_confused {a b : AttestFields} (ha : a.Unambiguous) (hb : b.Unambiguous) :
    ¬ a.Confused b := by
  intro h
  refine h.ne (Eq.trans ?_ h.rest)
  rw [← Capacity.eq_of_tag_eq ha.1 hb.1 h.tag, ← getD_empty_inj ha.2 hb.2 h.authority]

/-- **The texts of a claim** determine it up to its capacity and authority. -/
theorem AttestFields.rest_eq_of_parts_eq {a b : AttestFields} (h : a.parts = b.parts) :
    { a with capacity := b.capacity, authority := b.authority } = b ∧
      a.capacity.tag = b.capacity.tag ∧ a.authority.getD "" = b.authority.getD "" := by
  simp only [AttestFields.parts, List.cons.injEq, true_and, and_true] at h
  obtain ⟨hissuer, htag, hauthority, hsubject, haction, hresource, hquota, hscope, hepoch⟩ := h
  have hquota' : a.predicate.quota = b.predicate.quota := by
    -- a number is never written as the empty text
    have hne (q : Option UInt64) : q.map toString ≠ some "" := fun h => by
      obtain ⟨n, -, hn⟩ := Option.map_eq_some_iff.1 h
      exact Nat.toDigits_ne_nil (String.ofList_injective hn)
    exact Option.map_injective toString_injective (getD_empty_inj (hne _) (hne _) hquota)
  exact ⟨AttestFields.ext hissuer rfl rfl hsubject (Predicate.ext haction hresource hquota') hscope
    (toString_injective hepoch), htag, hauthority⟩

/-- **An address binds the claim** precisely if the two are not confused. -/
theorem claim_bound {H : Bytes → Bytes} (hH : CollisionFree H) (a b : Attest) :
    ((a.cid H = b.cid H ∨ a.signedMessage H = b.signedMessage H) →
      a.toAttestFields = b.toAttestFields) ↔ ¬ a.Confused b.toAttestFields := by
  constructor
  · intro h hconfused
    refine hconfused.ne (h (.inl ?_))
    have hparts : a.parts = b.parts := by
      rw [← hconfused.rest]
      simp only [AttestFields.parts, hconfused.tag, hconfused.authority]
    rw [Attest.cid, Attest.cid, hparts]
  · intro hnot h
    have hparts := Attest.parts_eq_of_cid_eq hH (h.elim id fun hmessage => utf8_injective hmessage)
    obtain ⟨hrest, htag, hauthority⟩ := AttestFields.rest_eq_of_parts_eq hparts
    by_contra hne
    exact hnot ⟨hrest, htag, hauthority, hne⟩

def operatorFields (capacity : Capacity) (authority : Option Cid) : AttestFields :=
  ⟨"a", capacity, authority, "b", ⟨"use", "r", some 1⟩, "s", 0⟩

def bareAttest (capacity : Capacity) (authority : Option Cid)
    (fits : ∀ part ∈ (operatorFields capacity authority).parts, (utf8 part).length < 256 ^ 8) :
    Attest :=
  ⟨operatorFields capacity authority, ⟨"a", [], []⟩, fits⟩

theorem operator_bound :
    (bareAttest (.role "op" "c@d") none (by decide +kernel)).cid (tableDigest []) ≠
      (bareAttest (.role "op" "d") none (by decide +kernel)).cid (tableDigest []) := by
  intro h
  have hfields := (claim_bound (tableDigest_collisionFree (by simp) (by simp)) _ _).2
    (AttestFields.not_confused ⟨by simp [bareAttest, operatorFields], by decide⟩
      ⟨by simp [bareAttest, operatorFields], by decide⟩) (.inl h)
  exact absurd hfields (by decide)

/-- An at sign moves from the role to the scope, and no authority reads as an empty one. -/
theorem role_and_scope_move :
    (bareAttest (.role "op@c" "d") none (by decide +kernel)).cid (tableDigest []) =
        (bareAttest (.role "op" "c@d") none (by decide +kernel)).cid (tableDigest []) ∧
      (bareAttest .selfCap none (by decide +kernel)).cid (tableDigest []) =
        (bareAttest .selfCap (some "") (by decide +kernel)).cid (tableDigest []) :=
  ⟨rfl, rfl⟩

/-! ## Revocations -/

structure Revoke where
  target : Cid
  sig : Sig
  deriving DecidableEq

def Revoke.signedMessage (target : Cid) : Bytes :=
  utf8 "pillar-trust-artifact-revoke-v1:" ++ utf8 (toString artifactSchemaVersion.val) ++ utf8 ":" ++
    utf8 target

/-! ## The trust store

The store keeps the claims that were issued, by their addresses, and the addresses that were
revoked.

* `Path`, `walk_eq_ok` — **what a walk that succeeds has passed**: stored claims that are
  not revoked, each the authority of the one before, up to one that has none. -/

open Std Rbac

/-- Why an operation on the store is refused. -/
inductive TrustError where
  | signerMismatch
  | capacityNotHeld (issuer : NodeId)
  | staleEpoch (attempted current : UInt64)
  | unknownTarget (target : Cid)
  | notAQuotaPredicate
  | quotaExceeded (requested remaining : UInt64)
  deriving DecidableEq

inductive VerifyError where
  | broken (cid : Cid)
  | cycle (cid : Cid)
  | revoked (cid : Cid)
  deriving DecidableEq

structure Proof where
  /-- The addresses that were passed, in this order. -/
  chain : List Cid
  sentence : String
  deriving DecidableEq

def Attest.words (a : Attest) : String :=
  a.issuer ++ " attests " ++ a.subject ++ " may " ++ a.predicate.action ++ " " ++
    a.predicate.resource ++ " as " ++ a.capacity.tag ++ " (scope " ++ a.scope ++ ", epoch " ++
    toString a.epoch ++ ")"

/-- What a claim allows, as it is shown in the trust graph. -/
def Attest.label (a : Attest) : String :=
  a.capacity.tag ++ ":" ++ a.predicate.action ++ "(" ++ a.predicate.resource ++ ")"

structure GraphEdge where
  cid : Cid
  issuer : NodeId
  subject : NodeId
  label : String
  deriving DecidableEq

def maxChainLen : ℕ := 4096

/-- Claims by address, and the addresses revoked. -/
structure TrustStore where
  genesis : NodeId
  attests : ExtTreeMap Cid Attest
  revoked : Finset Cid
  epoch : UInt64
  /-- What was admitted so far against the quota of a claim. -/
  admitted : ExtTreeMap Cid UInt64

namespace TrustStore

def new (genesis : NodeId) : TrustStore := ⟨genesis, ∅, ∅, 0, ∅⟩

variable (H : Bytes → Bytes) (E : Ed25519) (s : TrustStore)

/-! ## The walk -/

/-- The walk, with the number of addresses that it may still pass. -/
def walk : ℕ → List Cid → Cid → Except VerifyError (List Cid)
  | 0, _, cur => .error (.cycle cur)
  | fuel + 1, chain, cur =>
    if cur ∈ chain then .error (.cycle cur)
    else if cur ∈ s.revoked then .error (.revoked cur)
    else
      match s.attests[cur]? with
      | none => .error (.broken cur)
      | some a =>
        match a.authority with
        | none => .ok (chain ++ [cur])
        | some parent => walk fuel (chain ++ [cur]) parent

def renderSentence (chain : List Cid) : String :=
  if chain.isEmpty then "genesis"
  else " <- ".intercalate
    ((chain.filterMap fun cid => s.attests[cid]?.map Attest.words) ++
      ["rooted at genesis " ++ s.genesis])

def verify (cid : Cid) : Except VerifyError Proof :=
  match s.walk maxChainLen [] cid with
  | .error e => .error e
  | .ok chain => .ok ⟨chain, s.renderSentence chain⟩

/-- Whether an identity holds a capacity: genesis does, and the subject of a valid claim
that was made in it. -/
def holdsCapacity (subject : NodeId) (capacity : Capacity) : Bool :=
  if subject = s.genesis then true
  else s.attests.toList.any fun e =>
    decide (e.2.subject = subject) && decide (e.2.capacity = capacity) &&
      !decide (e.2.cid H ∈ s.revoked) && (s.verify (e.2.cid H)).isOk

/-! ## The calls -/

/-- Whether a claim may be issued, and the address it would get. -/
def decideAttest (a : Attest) : Except TrustError Cid :=
  if !a.sig.verifiesAs H E a.issuer (a.signedMessage H) then .error .signerMismatch
  else if a.epoch ≠ s.epoch then .error (.staleEpoch a.epoch s.epoch)
  else
    match a.capacity with
    | .selfCap => .ok (a.cid H)
    | .role _ _ =>
      if a.issuer ≠ s.genesis ∧ !s.holdsCapacity H a.issuer a.capacity then
        .error (.capacityNotHeld a.issuer)
      else .ok (a.cid H)

def issueAttest (a : Attest) : Except TrustError Cid × TrustStore :=
  match s.decideAttest H E a with
  | .error e => (.error e, s)
  | .ok cid => (.ok cid, { s with attests := s.attests.insert cid a })

def revoke (r : Revoke) : Except TrustError Unit × TrustStore :=
  if !r.sig.verifiesAs H E r.sig.signer (Revoke.signedMessage r.target) then
    (.error .signerMismatch, s)
  else if r.target ∉ s.attests then (.error (.unknownTarget r.target), s)
  else (.ok (), { s with revoked := insert r.target s.revoked, epoch := s.epoch + 1 })

/-- An amount is taken from the quota of a claim that holds. -/
def admitQuota (cid : Cid) (amt : UInt64) : Except TrustError Unit × TrustStore :=
  match s.attests[cid]? with
  | none => (.error (.unknownTarget cid), s)
  | some a =>
    match a.predicate.quota with
    | none => (.error .notAQuotaPredicate, s)
    | some quota =>
      match s.verify cid with
      | .error _ => (.error (.capacityNotHeld a.issuer), s)
      | .ok _ =>
        let used := s.admitted.getD cid 0
        -- the sum wraps around
        if quota < used + amt then (.error (.quotaExceeded amt (quota - used)), s)
        else (.ok (), { s with admitted := s.admitted.insert cid (used + amt) })

/-! ## What others see -/

def liveAttests : List (Cid × Attest) :=
  s.attests.toList.filter fun e => !decide (e.1 ∈ s.revoked) && (s.verify e.1).isOk

def liveRoles : List (Cid × Attest) := s.liveAttests.filter fun e => e.2.capacity.isRole

/-- The trust graph: an edge for each valid claim, by address. -/
def graphEdges : List GraphEdge :=
  (s.liveAttests.map fun e => ⟨e.1, e.2.issuer, e.2.subject, e.2.label⟩).mergeSort
    fun e f => decide (e.cid ≤ f.cid)

end TrustStore

def asExplicitGrants (s : TrustStore) : List ExplicitGrant :=
  s.liveRoles.map fun e => ⟨e.2.subject, e.2.predicate.action, .allow⟩

namespace TrustStore

variable {H : Bytes → Bytes} {E : Ed25519} {s : TrustStore} {k : Cid} {a : Attest}

/-! ## Paths -/

/-- A path along the authorities through stored claims that are not revoked, with their
addresses, up to a claim without an authority. -/
inductive Path (s : TrustStore) : Cid → List Cid → List Attest → Prop
  | anchor {k : Cid} {a : Attest} : k ∉ s.revoked → s.attests[k]? = some a → a.authority = none →
      Path s k [k] [a]
  | step {k p : Cid} {a : Attest} {ks : List Cid} {as : List Attest} : k ∉ s.revoked →
      s.attests[k]? = some a → a.authority = some p → Path s p ks as → Path s k (k :: ks) (a :: as)

theorem Path.start {ks : List Cid} {as : List Attest} (h : Path s k ks as) :
    ∃ a as', as = a :: as' ∧ k ∉ s.revoked ∧ s.attests[k]? = some a := by
  cases h with
  | anchor hr ha hn => exact ⟨_, [], rfl, hr, ha⟩
  | step hr ha hp h => exact ⟨_, _, rfl, hr, ha⟩

theorem Path.stored {ks : List Cid} {as : List Attest} (h : Path s k ks as) :
    List.Forall₂ (fun k a => k ∉ s.revoked ∧ s.attests[k]? = some a) ks as := by
  induction h with
  | anchor hr ha hn => exact .cons ⟨hr, ha⟩ .nil
  | step hr ha hp h ih => exact .cons ⟨hr, ha⟩ ih

/-- **A walk that succeeds has passed a path.** -/
theorem walk_eq_ok {fuel : ℕ} {chain ks : List Cid} (h : s.walk fuel chain k = .ok ks) :
    ∃ ks' as, ks = chain ++ ks' ∧ Path s k ks' as := by
  induction fuel generalizing chain k with
  | zero => exact absurd h (by simp [walk])
  | succ fuel ih =>
    rw [walk] at h
    split at h
    · cases h
    split at h
    · cases h
    rename_i hr
    split at h
    · cases h
    rename_i a ha
    split at h
    · rename_i hn
      cases h
      exact ⟨[k], [a], rfl, .anchor hr ha hn⟩
    · rename_i p hp
      obtain ⟨ks', as, rfl, hpath⟩ := ih h
      exact ⟨k :: ks', a :: as, by simp, .step hr ha hp hpath⟩

theorem path_of_verify {proof : Proof} (h : s.verify k = .ok proof) :
    ∃ as, Path s k proof.chain as := by
  rw [verify] at h
  split at h
  · cases h
  · rename_i ks hwalk
    cases h
    obtain ⟨ks', as, rfl, hpath⟩ := walk_eq_ok hwalk
    exact ⟨as, hpath⟩

theorem exists_of_verify_isOk (h : (s.verify k).isOk = true) : ∃ proof, s.verify k = .ok proof := by
  cases hv : s.verify k with
  | error e => simp [hv, Except.isOk, Except.toBool] at h
  | ok proof => exact ⟨proof, rfl⟩

theorem verify_isOk_iff : (s.verify k).isOk = true ↔ ∃ ks, s.walk maxChainLen [] k = .ok ks := by
  rw [verify]
  cases s.walk maxChainLen [] k <;> simp [Except.isOk, Except.toBool]

/-- **A walk with more fuel and fewer addresses behind it succeeds too.** -/
theorem walk_mono {fuel fuel' : ℕ} {chain chain' ks : List Cid} (h : s.walk fuel chain k = .ok ks)
    (hfuel : fuel ≤ fuel') (hchain : chain' ⊆ chain) : ∃ ks', s.walk fuel' chain' k = .ok ks' := by
  induction fuel generalizing fuel' chain chain' k with
  | zero => exact absurd h (by simp [walk])
  | succ fuel ih =>
    obtain ⟨fuel', rfl⟩ : ∃ m, fuel' = m + 1 := ⟨fuel' - 1, by omega⟩
    rw [walk] at h ⊢
    split_ifs at h with hseen hr
    rw [if_neg fun hseen' => hseen (hchain hseen'), if_neg hr]
    split at h
    · cases h
    · split at h
      · exact ⟨_, rfl⟩
      · exact ih h (by omega) (List.append_subset.2
          ⟨fun c hc => List.mem_append_left _ (hchain hc), List.subset_append_right _ _⟩)

/-- **With a claim its authority verifies.** -/
theorem verify_authority (h : (s.verify k).isOk = true) (ha : s.attests[k]? = some a) {p : Cid}
    (hp : a.authority = some p) : (s.verify p).isOk = true := by
  obtain ⟨ks, hwalk⟩ := verify_isOk_iff.1 h
  rw [show maxChainLen = (maxChainLen - 1) + 1 from rfl, walk] at hwalk
  split_ifs at hwalk
  rw [ha] at hwalk
  dsimp only at hwalk
  rw [hp] at hwalk
  exact verify_isOk_iff.2 (walk_mono hwalk (by omega) (List.nil_subset _))

theorem holdsCapacity_iff {x : NodeId} {c : Capacity} :
    s.holdsCapacity H x c = true ↔ x = s.genesis ∨ ∃ (k : Cid) (a : Attest),
      s.attests[k]? = some a ∧ a.subject = x ∧ a.capacity = c ∧ a.cid H ∉ s.revoked ∧
        (s.verify (a.cid H)).isOk = true := by
  rw [holdsCapacity]
  split_ifs with hx
  · simp [hx]
  · simp only [List.any_eq_true, Bool.and_eq_true, decide_eq_true_eq, Bool.not_eq_true',
      decide_eq_false_iff_not, Prod.exists, ExtTreeMap.mem_toList_iff_getElem?_eq_some, hx, false_or,
      and_assoc]

theorem mem_liveAttests_iff :
    (k, a) ∈ s.liveAttests ↔
      s.attests[k]? = some a ∧ k ∉ s.revoked ∧ (s.verify k).isOk = true := by
  simp [liveAttests]

theorem mem_liveRoles_iff :
    (k, a) ∈ s.liveRoles ↔ s.attests[k]? = some a ∧ k ∉ s.revoked ∧ (s.verify k).isOk = true ∧
      a.capacity.isRole = true := by
  rw [liveRoles, List.mem_filter, mem_liveAttests_iff, and_assoc, and_assoc]

theorem mem_graphEdges_iff {e : GraphEdge} :
    e ∈ s.graphEdges ↔ ∃ (k : Cid) (a : Attest), (k, a) ∈ s.liveAttests ∧
      e = ⟨k, a.issuer, a.subject, a.label⟩ := by
  simp only [graphEdges, List.mem_mergeSort, List.mem_map, Prod.exists, eq_comm]

/-! ## What a call can do -/

theorem decideAttest_eq_ok_iff {cid : Cid} :
    s.decideAttest H E a = .ok cid ↔
      a.sig.verifiesAs H E a.issuer (a.signedMessage H) = true ∧ a.epoch = s.epoch ∧
        (a.capacity.isRole = true → a.issuer = s.genesis ∨
          s.holdsCapacity H a.issuer a.capacity = true) ∧ a.cid H = cid := by
  rw [decideAttest]
  by_cases hsig : a.sig.verifiesAs H E a.issuer (a.signedMessage H) = true
  · by_cases hepoch : a.epoch = s.epoch
    · cases hc : a.capacity with
      | selfCap => simp [hsig, hepoch, Capacity.isRole]
      | role r scope =>
        by_cases hg : a.issuer = s.genesis
        · rw [hg] at hsig
          simp [hsig, hepoch, hg]
        · by_cases hh : s.holdsCapacity H a.issuer (.role r scope) = true <;>
            simp [hsig, hepoch, hg, hh, Capacity.isRole]
    · simp [hsig, hepoch]
  · simp [hsig]

theorem holdsCapacity_of_decideAttest {cid : Cid} (h : s.decideAttest H E a = .ok cid)
    (hrole : a.capacity.isRole = true) : s.holdsCapacity H a.issuer a.capacity = true := by
  obtain ⟨-, -, hholds, -⟩ := decideAttest_eq_ok_iff.1 h
  rcases hholds hrole with hg | hh
  · rw [holdsCapacity, if_pos hg]
  · exact hh

inductive Call where
  | issueAttest (a : Attest)
  | revoke (r : Revoke)
  deriving DecidableEq

variable (H E) in
def step (s : TrustStore) : Call → TrustStore
  | .issueAttest a => (s.issueAttest H E a).2
  | .revoke r => (s.revoke H E r).2

theorem step_issueAttest (h : s.decideAttest H E a = .ok k) :
    s.step H E (.issueAttest a) = { s with attests := s.attests.insert k a } := by
  rw [step, issueAttest, h]

variable (H E) in
inductive Effect (s : TrustStore) : Call → TrustStore → Prop
  | refused (c : Call) : Effect s c s
  | issued (a : Attest) : s.decideAttest H E a = .ok (a.cid H) →
      Effect s (.issueAttest a) { s with attests := s.attests.insert (a.cid H) a }
  | revoked (r : Revoke) : r.target ∈ s.attests →
      Effect s (.revoke r) { s with revoked := insert r.target s.revoked, epoch := s.epoch + 1 }

theorem effect_step (s : TrustStore) (c : Call) : Effect H E s c (s.step H E c) := by
  cases c with
  | issueAttest a =>
    rw [step, issueAttest]
    cases hd : s.decideAttest H E a with
    | error e => exact .refused _
    | ok cid =>
      obtain rfl : a.cid H = cid := (decideAttest_eq_ok_iff.1 hd).2.2.2
      exact .issued a hd
  | revoke r =>
    rw [step, revoke]
    split
    · exact .refused _
    · split
      · exact .refused _
      · rename_i htarget
        exact .revoked r (not_not.1 htarget)

theorem genesis_step (s : TrustStore) (c : Call) : (s.step H E c).genesis = s.genesis := by
  have heffect := effect_step (H := H) (E := E) s c
  generalize s.step H E c = s' at heffect ⊢
  cases heffect <;> rfl

end TrustStore

end Pillar.TrustArtifacts
