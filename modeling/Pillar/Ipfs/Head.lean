import Pillar.Crypto

/-!
# Mutable heads

`pillar-ipfs`'s `IpnsHead`: a signed pointer of an owner to a content id.

* `resolveLatest_eq_iff` — **when it is the owner's latest head**: every verifying head of another
  key is outdone by one of the owner's, and of the owner's greatest the first and the last are one.
-/

namespace Pillar.Ipfs

open Lib.Compare

/-- Where a head may travel. -/
inductive Visibility where
  | public_
  | cell
  deriving DecidableEq

def Visibility.tag : Visibility → UInt8
  | .public_ => 0
  | .cell => 1

structure IpnsHead where
  owner : Bytes
  sequence : UInt64
  cid : ContentId
  validUntil : UInt64
  visibility : Visibility
  signature : Bytes
  deriving DecidableEq

inductive HeadError where
  | forged
  | expired
  | stale
  deriving DecidableEq

def lenPrefixed (bytes : Bytes) : Bytes := beBytes 8 bytes.length ++ bytes

/-- Every field but the signature, in a fixed order. -/
def signingBytes (owner : Bytes) (sequence : UInt64) (cid : ContentId) (validUntil : UInt64)
    (visibility : Visibility) : Bytes :=
  utf8 "pillar-ipfs/ipns-head/v1" ++ lenPrefixed owner ++ beBytes 8 sequence.toNat ++
    lenPrefixed cid.bytes ++ beBytes 8 validUntil.toNat ++ [visibility.tag]

namespace IpnsHead

/-- A signed head; `none` is the panic over a secret that is no key. -/
def sign (E : Ed25519) (secret owner : Bytes) (sequence : UInt64) (cid : ContentId)
    (validUntil : UInt64) (visibility : Visibility) : Option IpnsHead :=
  (Pillar.sign E secret (signingBytes owner sequence cid validUntil visibility)).toOption.map
    fun signature => ⟨owner, sequence, cid, validUntil, visibility, signature⟩

def verify (E : Ed25519) (h : IpnsHead) (now : UInt64) : Except HeadError Unit :=
  match Pillar.verify E h.owner
    (signingBytes h.owner h.sequence h.cid h.validUntil h.visibility) h.signature with
  | .error _ => .error .forged
  | .ok () => if h.validUntil ≤ now then .error .expired else .ok ()

end IpnsHead

variable (E : Ed25519) (now : UInt64) (candidates : List IpnsHead)

/-- The heads that verify, in the order they were heard. -/
def verifying : List IpnsHead := candidates.filter fun h => (h.verify E now).isOk

/-- `max_by_key` takes the last of several that are greatest. -/
def resolveLatest : Option IpnsHead :=
  (verifying E now candidates).reverse.argmax fun h => h.sequence.toNat

def heardOf (owner : Bytes) : List IpnsHead :=
  (verifying E now candidates).filter fun h => h.owner = owner

/-- What a resolver of one owner is to answer: the first of the greatest among the owner's. -/
def latestOf (owner : Bytes) : Option IpnsHead :=
  (heardOf E now candidates owner).argmax fun h => h.sequence.toNat

/-- The heads of a list with the greatest number. -/
def greatest (heads : List IpnsHead) : List IpnsHead :=
  heads.filter fun h => heads.all fun h' => h'.sequence.toNat ≤ h.sequence.toNat

structure Undisputed (owner : Bytes) : Prop where
  /-- A head of another key is outdone by one of the owner's with a greater number, or with the same
  number and heard later. -/
  others : ∀ before h after, verifying E now candidates = before ++ h :: after → h.owner ≠ owner →
    (∃ h' ∈ verifying E now candidates, h'.owner = owner ∧ h.sequence < h'.sequence) ∨
      ∃ h' ∈ after, h'.owner = owner ∧ h.sequence = h'.sequence
  /-- The first and the last of the owner's greatest are the same. -/
  ties : (greatest (heardOf E now candidates owner)).head? =
    (greatest (heardOf E now candidates owner)).getLast?

variable {E now candidates}

theorem mem_greatest {heads : List IpnsHead} {h : IpnsHead} :
    h ∈ greatest heads ↔ h ∈ heads ∧ ∀ h' ∈ heads, h'.sequence ≤ h.sequence := by
  simp [greatest, UInt64.le_iff_toNat_le]

/-- **The first of the greatest.** -/
theorem argmax_eq_head? (heads : List IpnsHead) :
    (heads.argmax fun h => h.sequence.toNat) = (greatest heads).head? := by
  induction heads with
  | nil => rfl
  | cons a heads ih =>
    rw [List.argmax_cons, ih]
    cases hbest : (greatest heads).head? with
    | none =>
      rw [← ih, List.argmax_eq_none] at hbest
      simp [hbest, greatest]
    | some c =>
      obtain ⟨hc, hle⟩ := mem_greatest.1 (List.mem_of_head? hbest)
      simp only [UInt64.le_iff_toNat_le] at hle
      by_cases hlt : a.sequence.toNat < c.sequence.toNat
      · -- the greatest of the rest are the greatest of all
        have hsame : greatest (a :: heads) = greatest heads := by
          rw [greatest, List.filter_cons_of_neg, greatest]
          · refine List.filter_congr fun x hx => ?_
            rw [List.all_cons, Bool.and_eq_right_iff_imp]
            intro hx
            simp at hx ⊢
            exact hlt.le.trans (hx c hc)
          · simp
            exact ⟨c, hc, hlt⟩
        simp [hlt, hsame, hbest]
      · have hfirst : greatest (a :: heads) = a :: (heads.filter fun h =>
            (a :: heads).all fun h' => h'.sequence.toNat ≤ h.sequence.toNat) := by
          rw [greatest, List.filter_cons_of_pos]
          simp only [List.all_cons, le_refl, decide_true, Bool.true_and, List.all_eq_true,
            decide_eq_true_eq]
          exact fun x hx => (hle x hx).trans (Nat.le_of_not_lt hlt)
        simp [hlt, hfirst]

theorem greatest_reverse (heads : List IpnsHead) :
    greatest heads.reverse = (greatest heads).reverse := by
  simp [greatest, List.filter_reverse]

theorem resolveLatest_eq_getLast? :
    resolveLatest E now candidates = (greatest (verifying E now candidates)).getLast? := by
  rw [resolveLatest, argmax_eq_head?, greatest_reverse, List.head?_reverse]

/-- Heads of which one is the greatest of all. -/
theorem greatest_filter {heads : List IpnsHead} {p : IpnsHead → Bool} {a : IpnsHead}
    (ha : a ∈ greatest heads) (hp : p a = true) :
    greatest (heads.filter p) = (greatest heads).filter p := by
  obtain ⟨hmem, hle⟩ := mem_greatest.1 ha
  simp only [UInt64.le_iff_toNat_le] at hle
  rw [greatest, greatest, List.filter_filter, List.filter_filter]
  refine List.filter_congr fun x _ => ?_
  rw [Bool.and_comm, Bool.eq_iff_iff]
  simp only [Bool.and_eq_true, List.all_eq_true, List.mem_filter, decide_eq_true_eq]
  refine and_congr_right fun _ => ⟨fun h y hy => ?_, fun h y hy => h y hy.1⟩
  exact (hle y hy).trans (h a ⟨hmem, hp⟩)

theorem getLast?_filter_of_getLast? {heads : List IpnsHead} {p : IpnsHead → Bool} {a : IpnsHead}
    (h : heads.getLast? = some a) (hp : p a = true) : (heads.filter p).getLast? = some a := by
  obtain ⟨ys, rfl⟩ := List.getLast?_eq_some_iff.1 h
  simp [hp]

theorem getLast?_greatest_eq_none {heads : List IpnsHead}
    (h : (greatest heads).getLast? = none) : heads = [] := by
  rw [List.getLast?_eq_none_iff, ← List.head?_eq_none_iff, ← argmax_eq_head?] at h
  exact List.argmax_eq_none.1 h

/-- **The last of the greatest outdoes every other head**, by its number or by its place. -/
theorem outdone_of_getLast? {heads before after : List IpnsHead} {a x : IpnsHead}
    (h : (greatest heads).getLast? = some a) (hheads : heads = before ++ x :: after) (hne : x ≠ a) :
    x.sequence < a.sequence ∨ a ∈ after ∧ x.sequence = a.sequence := by
  obtain ⟨-, hle⟩ := mem_greatest.1 (List.mem_of_getLast? h)
  have hx : x ∈ heads := by simp [hheads]
  rcases UInt64.lt_or_eq_of_le (hle x hx) with hlt | heq
  · exact .inl hlt
  · refine .inr ⟨?_, heq⟩
    have hgreatest : (heads.all fun h' => h'.sequence.toNat ≤ x.sequence.toNat) = true := by
      rw [List.all_eq_true]
      exact fun y hy => decide_eq_true (UInt64.le_iff_toNat_le.1 (heq ▸ hle y hy))
    rw [greatest] at h
    generalize hg : (fun h : IpnsHead =>
      heads.all fun h' => h'.sequence.toNat ≤ h.sequence.toNat) = g at h
    have hgx : g x = true := by rw [← hg]; exact hgreatest
    rw [hheads, List.filter_append, List.filter_cons_of_pos hgx,
      List.getLast?_append_of_ne_nil _ (List.cons_ne_nil _ _)] at h
    rcases List.mem_cons.1 (List.mem_of_getLast? h) with rfl | hmem
    · exact absurd rfl hne
    · exact (List.mem_filter.1 hmem).1

/-- **Resolving gives the owner's latest head** precisely when nobody disputes it. -/
theorem resolveLatest_eq_iff {owner : Bytes} :
    resolveLatest E now candidates = latestOf E now candidates owner ↔
      Undisputed E now candidates owner := by
  rw [resolveLatest_eq_getLast?, latestOf, argmax_eq_head?]
  cases hlast : (greatest (verifying E now candidates)).getLast? with
  | none =>
    have hnil := getLast?_greatest_eq_none hlast
    simp only [heardOf, hnil, List.filter_nil, greatest, List.head?_nil, true_iff]
    exact ⟨fun before h after hnil' => by simp [hnil] at hnil', by simp [heardOf, hnil, greatest]⟩
  | some a =>
    have ha := List.mem_of_getLast? hlast
    obtain ⟨hmem, hle⟩ := mem_greatest.1 ha
    have howned : a.owner = owner →
        (greatest (heardOf E now candidates owner)).getLast? = some a := by
      intro howner
      rw [heardOf, greatest_filter ha (by simpa using howner)]
      exact getLast?_filter_of_getLast? hlast (by simpa using howner)
    constructor
    · intro h
      obtain ⟨hfilter, -⟩ := mem_greatest.1 (List.mem_of_head? h.symm)
      have howner : a.owner = owner := by simpa using (List.mem_filter.1 hfilter).2
      refine ⟨fun before x after hheard hx => ?_, h.symm.trans (howned howner).symm⟩
      rcases outdone_of_getLast? hlast hheard fun hxa => hx (hxa ▸ howner) with
        hlt | ⟨hafter, heq⟩
      · exact .inl ⟨a, hmem, howner, hlt⟩
      · exact .inr ⟨a, hafter, howner, heq⟩
    · rintro ⟨hothers, hties⟩
      rw [hties, howned]
      by_contra hne
      rw [greatest, List.getLast?_filter] at hlast
      obtain ⟨-, late, early, hheard, hlate⟩ := List.find?_eq_some_iff_append.1 hlast
      rw [List.reverse_eq_iff, List.reverse_append, List.reverse_cons, List.append_assoc,
        List.singleton_append] at hheard
      rcases hothers _ _ _ hheard hne with ⟨x, hx, -, hlt⟩ | ⟨x, hx, -, heq⟩
      · exact absurd (hle x hx) (UInt64.not_le.2 hlt)
      · have hgreatest := hlate x (List.mem_reverse.1 hx)
        simp only [Bool.not_eq_true', List.all_eq_false] at hgreatest
        obtain ⟨y, hy, hlt⟩ := hgreatest
        rw [decide_eq_true_eq, ← heq, ← UInt64.le_iff_toNat_le] at hlt
        exact hlt (hle y hy)

/-! ## Two keys -/

def alice : Bytes := List.replicate 32 1

def bob : Bytes := List.replicate 32 2

/-- A head of a key, valid until 100. -/
def headOf (key : Bytes) (sequence : UInt64) (target : UInt8) : IpnsHead :=
  ((IpnsHead.sign plainEd25519 key key sequence ⟨[target]⟩ 100 .public_).getD
    ⟨[], 0, ⟨[]⟩, 0, .public_, []⟩)

/-- A forged head, an old number signed twice by the owner, and the latest one, which another key
has used before. -/
def mixed : List IpnsHead :=
  [{ headOf alice 9 7 with signature := [] }, headOf alice 1 1, headOf alice 1 3, headOf bob 2 5,
    headOf alice 2 2]

theorem mixed_resolves :
    resolveLatest plainEd25519 50 mixed = some (headOf alice 2 2) ∧
      resolveLatest plainEd25519 50 mixed = latestOf plainEd25519 50 mixed alice := by
  refine ⟨by decide +kernel, resolveLatest_eq_iff.2 ⟨fun before h after hheard hne => ?_,
    by decide +kernel⟩⟩
  have hverifying : verifying plainEd25519 50 mixed =
      [headOf alice 1 1, headOf alice 1 3, headOf bob 2 5, headOf alice 2 2] := by decide +kernel
  rw [hverifying] at hheard
  rcases before with _ | ⟨_, _ | ⟨_, _ | ⟨_, _ | ⟨_, before⟩⟩⟩⟩ <;>
    simp only [List.nil_append, List.cons_append, List.cons.injEq] at hheard
  · exact absurd (hheard.1 ▸ rfl) hne
  · exact absurd (hheard.2.1 ▸ rfl) hne
  · obtain ⟨-, -, rfl, rfl⟩ := hheard
    exact .inr ⟨headOf alice 2 2, List.mem_singleton_self _, by decide +kernel⟩
  · exact absurd (hheard.2.2.2.1 ▸ rfl) hne
  · simp at hheard

/-- Another key's head with a higher number wins, and of the owner's two heads with one number
it is the second that wins. -/
theorem others_head_wins :
    (resolveLatest plainEd25519 50 [headOf alice 1 1, headOf bob 2 5] = some (headOf bob 2 5) ∧
      latestOf plainEd25519 50 [headOf alice 1 1, headOf bob 2 5] alice =
        some (headOf alice 1 1)) ∧
    (resolveLatest plainEd25519 50 [headOf bob 2 5] = some (headOf bob 2 5) ∧
      latestOf plainEd25519 50 [headOf bob 2 5] alice = none) ∧
    resolveLatest plainEd25519 50 [headOf alice 1 1, headOf alice 1 2] =
        some (headOf alice 1 2) ∧
      latestOf plainEd25519 50 [headOf alice 1 1, headOf alice 1 2] alice =
        some (headOf alice 1 1) := by
  decide +kernel

end Pillar.Ipfs
