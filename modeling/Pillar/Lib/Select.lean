import Mathlib

/-!
# Picking a winner out of a set of writes

A last-writer-wins store reads a slot by picking one write out of a set of them.

* `first_union_iff` — **when may everything but the last maximum be dropped?** Exactly when the set
  had a single maximum, or the writes that join it later decide the slot anyway.
-/

namespace Lib.Select

variable {α β ι ρ : Type*} [LinearOrder ι] [LinearOrder ρ]

structure IsFirstMax (key : α → ι) (d : α → Option β) (rank : β → ρ) (S : Set α) (a : α) (m : β) :
    Prop where
  mem : a ∈ S
  val : d a = some m
  best : ∀ a' ∈ S, ∀ m', d a' = some m' → rank m' ≤ rank m
  /-- Nothing that ranks as high has a smaller address. -/
  first : ∀ a' ∈ S, ∀ m', d a' = some m' → rank m' = rank m → key a ≤ key a'

structure IsLastMax (key : α → ι) (d : α → Option β) (rank : β → ρ) (S : Set α) (a : α) (m : β) :
    Prop where
  mem : a ∈ S
  val : d a = some m
  best : ∀ a' ∈ S, ∀ m', d a' = some m' → rank m' ≤ rank m
  /-- Nothing that ranks as high has a greater address. -/
  last : ∀ a' ∈ S, ∀ m', d a' = some m' → rank m' = rank m → key a' ≤ key a

variable {key : α → ι} {d : α → Option β} {rank : β → ρ} {S T : Set α}

/-! ## First maxima -/

variable {a : α} {m : β} {n : β}

theorem IsFirstMax.unique (hkey : Function.Injective key) {b : α} (ha : IsFirstMax key d rank S a m)
    (hb : IsFirstMax key d rank S b n) : a = b ∧ m = n := by
  have hrank : rank m = rank n :=
    le_antisymm (hb.best a ha.mem m ha.val) (ha.best b hb.mem n hb.val)
  have hab : a = b := hkey (le_antisymm (ha.first b hb.mem n hb.val hrank.symm)
    (hb.first a ha.mem m ha.val hrank))
  subst hab
  exact ⟨rfl, Option.some.inj (ha.val.symm.trans hb.val)⟩

theorem IsFirstMax.congr (h : ∀ a m, d a = some m → (a ∈ S ↔ a ∈ T))
    (ha : IsFirstMax key d rank S a m) : IsFirstMax key d rank T a m where
  mem := (h a m ha.val).1 ha.mem
  val := ha.val
  best a' ha' m' hv := ha.best a' ((h a' m' hv).2 ha') m' hv
  first a' ha' m' hv := ha.first a' ((h a' m' hv).2 ha') m' hv

theorem IsFirstMax.union_left (ha : IsFirstMax key d rank S a m)
    (hT : ∀ u ∈ T, ∀ n, d u = some n → rank n ≤ rank m ∧ (rank n = rank m → key a ≤ key u)) :
    IsFirstMax key d rank (S ∪ T) a m where
  mem := Or.inl ha.mem
  val := ha.val
  best a' ha' m' hv := by
    rcases ha' with h | h
    · exact ha.best a' h m' hv
    · exact (hT a' h m' hv).1
  first a' ha' m' hv heq := by
    rcases ha' with h | h
    · exact ha.first a' h m' hv heq
    · exact (hT a' h m' hv).2 heq

theorem IsFirstMax.union_right {u : α} (hu : IsFirstMax key d rank T u n)
    (hS : ∀ a ∈ S, ∀ m, d a = some m → rank m ≤ rank n ∧ (rank m = rank n → key u ≤ key a)) :
    IsFirstMax key d rank (S ∪ T) u n := by
  rw [Set.union_comm]
  exact hu.union_left hS

theorem IsFirstMax.union_of_rank_lt {u : α} (ha : IsFirstMax key d rank S a m)
    (hu : IsFirstMax key d rank T u n) (h : rank m < rank n) : IsFirstMax key d rank (S ∪ T) u n :=
  hu.union_right fun x hx y hy =>
    ⟨((ha.best x hx y hy).trans_lt h).le, fun he => absurd he ((ha.best x hx y hy).trans_lt h).ne⟩

theorem IsFirstMax.union_of_tie {u : α} (ha : IsFirstMax key d rank S a m)
    (hu : IsFirstMax key d rank T u n) (htie : rank n = rank m) (hle : key a ≤ key u) :
    IsFirstMax key d rank (S ∪ T) a m :=
  ha.union_left fun x hx y hy =>
    ⟨(hu.best x hx y hy).trans htie.le,
      fun he => hle.trans (hu.first x hx y hy (he.trans htie.symm))⟩

theorem isFirstMax_singleton {x : α} (hx : d x = some m) :
    IsFirstMax key d rank {x} x m where
  mem := rfl
  val := hx
  best a' ha' m' hv := by
    obtain rfl : a' = x := ha'
    rw [Option.some.inj (hx.symm.trans hv)]
  first a' ha' m' hv _ := by
    obtain rfl : a' = x := ha'
    exact le_rfl

theorem exists_isFirstMax (key : α → ι) (rank : β → ρ) (hfin : S.Finite) (ha : a ∈ S)
    (hm : d a = some m) : ∃ w n, IsFirstMax key d rank S w n := by
  -- first the highest rank, then the least address among those that have it
  have hD : {p : α × β | p.1 ∈ S ∧ d p.1 = some p.2}.Finite := by
    refine (hfin.image fun x => (x, (d x).getD m)).subset ?_
    rintro ⟨x, n⟩ ⟨hx, hn⟩
    have hn' : d x = some n := hn
    refine ⟨x, hx, ?_⟩
    show (x, (d x).getD m) = (x, n)
    rw [hn', Option.getD_some]
  obtain ⟨⟨b, n⟩, ⟨hb, hn⟩, hbest⟩ := Set.exists_max_image _ (fun p : α × β => rank p.2) hD
    ⟨(a, m), ha, hm⟩
  have htied : {p : α × β | (p.1 ∈ S ∧ d p.1 = some p.2) ∧ rank p.2 = rank n}.Finite :=
    hD.subset fun p hp => hp.1
  obtain ⟨⟨w, k⟩, ⟨⟨hw, hk⟩, hrank⟩, hfirst⟩ := Set.exists_min_image _ (fun p : α × β => key p.1)
    htied ⟨(b, n), ⟨hb, hn⟩, rfl⟩
  have hrank' : rank k = rank n := hrank
  refine ⟨w, k, hw, hk, ?_, ?_⟩
  · intro a' ha' m' hv
    rw [hrank']
    exact hbest (a', m') ⟨ha', hv⟩
  · intro a' ha' m' hv heq
    exact hfirst (a', m') ⟨⟨ha', hv⟩, heq.trans hrank'⟩

theorem isLastMax_of_dual (h : IsFirstMax (OrderDual.toDual ∘ key) d rank S a m) :
    IsLastMax key d rank S a m where
  mem := h.mem
  val := h.val
  best := h.best
  last a' ha' m' hv heq := OrderDual.toDual_le_toDual.1 (h.first a' ha' m' hv heq)

theorem exists_isLastMax (key : α → ι) (rank : β → ρ) (hfin : S.Finite) (ha : a ∈ S)
    (hm : d a = some m) : ∃ w n, IsLastMax key d rank S w n := by
  obtain ⟨w, n, h⟩ := exists_isFirstMax (OrderDual.toDual ∘ key) rank hfin ha hm
  exact ⟨w, n, isLastMax_of_dual h⟩

theorem IsLastMax.unique (hkey : Function.Injective key) {b : α} (ha : IsLastMax key d rank S a m)
    (hb : IsLastMax key d rank S b n) : a = b := by
  have hrank : rank m = rank n :=
    le_antisymm (hb.best a ha.mem m ha.val) (ha.best b hb.mem n hb.val)
  exact hkey (le_antisymm (hb.last a ha.mem m ha.val hrank)
    (ha.last b hb.mem n hb.val hrank.symm))

/-! ## Scanning -/

/-- **A scan in address order finds the first maximum.** -/
theorem mem_argmax_filterMap {l : List α} (hl : l.Pairwise fun a b => key a < key b)
    (hm : m ∈ (l.filterMap d).argmax rank) : ∃ a, IsFirstMax key d rank {x | x ∈ l} a m := by
  induction l using List.reverseRecOn generalizing m with
  | nil => simp at hm
  | append_singleton l x ih =>
    obtain ⟨hl, -, hlast⟩ := List.pairwise_append.1 hl
    have hlt : ∀ a ∈ l, key a < key x := fun a ha => hlast a ha x (List.mem_singleton_self x)
    have hset : {y | y ∈ l ++ [x]} = {y | y ∈ l} ∪ {x} := by
      ext y; simp [or_comm]
    rw [hset]
    rw [List.filterMap_append] at hm
    cases hx : d x with
    | none =>
      -- the last element does not write the slot
      obtain ⟨a, ha⟩ := ih hl (by simpa [hx] using hm)
      refine ⟨a, ha.union_left ?_⟩
      rintro u rfl n hn
      rw [hx] at hn
      cases hn
    | some b =>
      rw [show List.filterMap d [x] = [b] by simp [hx], List.argmax_concat] at hm
      cases hbest : (l.filterMap d).argmax rank with
      | none =>
        obtain rfl : b = m := by simpa [hbest] using hm
        have hnil := List.argmax_eq_none.1 hbest
        refine ⟨x, (isFirstMax_singleton hx).union_right ?_⟩
        intro a ha n hn
        have : n ∈ l.filterMap d := List.mem_filterMap.2 ⟨a, ha, hn⟩
        rw [hnil] at this
        cases this
      | some c =>
        rw [hbest] at hm
        obtain ⟨a, ha⟩ := ih hl hbest
        by_cases hc : rank c < rank b
        · obtain rfl : b = m := by simpa [hc] using hm
          refine ⟨x, (isFirstMax_singleton hx).union_right ?_⟩
          intro a' ha' n hn
          have hn' := lt_of_le_of_lt (ha.best a' ha' n hn) hc
          exact ⟨hn'.le, fun h => absurd h hn'.ne⟩
        · obtain rfl : c = m := by simpa [hc] using hm
          refine ⟨a, ha.union_left ?_⟩
          rintro u rfl n hn
          obtain rfl : b = n := Option.some.inj (hx.symm.trans hn)
          exact ⟨not_lt.1 hc, fun _ => (hlt a ha.mem).le⟩

theorem argmax_filterMap_eq_some_iff (d : α → Option β) (rank : β → ρ)
    (hkey : Function.Injective key) {l : List α} (hl : l.Pairwise fun a b => key a < key b) :
    (l.filterMap d).argmax rank = some m ↔ ∃ a, IsFirstMax key d rank {x | x ∈ l} a m := by
  refine ⟨fun h => mem_argmax_filterMap hl h, ?_⟩
  rintro ⟨a, ha⟩
  cases h : (l.filterMap d).argmax rank with
  | none =>
    have : m ∈ l.filterMap d := List.mem_filterMap.2 ⟨a, ha.mem, ha.val⟩
    rw [List.argmax_eq_none.1 h] at this
    cases this
  | some n =>
    obtain ⟨b, hb⟩ := mem_argmax_filterMap hl h
    rw [(ha.unique hkey hb).2]

/-! ## Thinning out -/

/-- The writes `T` decide the slot whichever of `a` and `z` stands beside them:
their first maximum outranks both, or ties with both and comes before `a`, or
comes before `z` and writes the same as `a` does. -/
def Decides (key : α → ι) (d : α → Option β) (rank : β → ρ) (T : Set α) (a z : α) (m : β) : Prop :=
  ∃ u n, IsFirstMax key d rank T u n ∧
    (rank m < rank n ∨ (rank n = rank m ∧ (key u ≤ key a ∨ (key u < key z ∧ n = m))))

theorem rank_first_union_eq {z : α} (hz : IsLastMax key d rank S z n) {v w : α} {k l : β}
    (hv : IsFirstMax key d rank ({z} ∪ T) v k) (hw : IsFirstMax key d rank (S ∪ T) w l) :
    rank k = rank l := by
  refine le_antisymm ?_ ?_
  · rcases hv.mem with hvz | hvT
    · obtain rfl : v = z := hvz
      exact hw.best v (.inl hz.mem) k hv.val
    · exact hw.best v (.inr hvT) k hv.val
  · rcases hw.mem with hwS | hwT
    · exact (hz.best w hwS l hw.val).trans (hv.best z (.inl rfl) n hz.val)
    · exact hv.best w (.inr hwT) l hw.val

/-! ## Dropping all but the last maximum -/

section

variable {a z v w : α} {m n k l : β}

theorem IsFirstMax.le_last (ha : IsFirstMax key d rank S a m) (hz : IsLastMax key d rank S z n) :
    rank n = rank m ∧ key a ≤ key z := by
  have hrank : rank n = rank m :=
    le_antisymm (ha.best z hz.mem n hz.val) (hz.best a ha.mem m ha.val)
  exact ⟨hrank, hz.last a ha.mem m ha.val hrank.symm⟩

theorem value_eq_iff (ha : IsFirstMax key d rank S a m) (hz : IsLastMax key d rank S z n)
    (hd : m = n → a = z) : n = m ↔ a = z := by
  refine ⟨fun h => hd h.symm, ?_⟩
  rintro rfl
  exact Option.some.inj (hz.val.symm.trans ha.val)

theorem first_union_of_none (hkey : Function.Injective key)
    (ha : IsFirstMax key d rank S a m) (hz : IsLastMax key d rank S z n) (hd : m = n → a = z)
    (hv : IsFirstMax key d rank ({z} ∪ T) v k) (hw : IsFirstMax key d rank (S ∪ T) w l)
    (hnone : ∀ u ∈ T, ∀ q, d u ≠ some q) : k = l ↔ a = z := by
  have hz1 : IsFirstMax key d rank {z} z n := isFirstMax_singleton hz.val
  obtain ⟨-, rfl⟩ := hv.unique hkey (hz1.union_left fun u hu q hq => absurd hq (hnone u hu q))
  obtain ⟨-, rfl⟩ := hw.unique hkey (ha.union_left fun u hu q hq => absurd hq (hnone u hu q))
  exact value_eq_iff ha hz hd

theorem first_union_of_tie (hkey : Function.Injective key)
    (ha : IsFirstMax key d rank S a m) (hz : IsLastMax key d rank S z n) (hd : m = n → a = z)
    (hv : IsFirstMax key d rank ({z} ∪ T) v k) (hw : IsFirstMax key d rank (S ∪ T) w l)
    {u : α} {q : β} (hu : IsFirstMax key d rank T u q) (htie : rank q = rank m) :
    k = l ↔ a = z ∨ key u ≤ key a ∨ (key u < key z ∧ q = m) := by
  obtain ⟨hrank, haz⟩ := ha.le_last hz
  have hz1 : IsFirstMax key d rank {z} z n := isFirstMax_singleton hz.val
  rcases le_or_gt (key u) (key a) with hua | hau
  · -- `u` comes first on both sides
    have hvu := hu.union_of_tie hz1 (hrank.trans htie.symm) (hua.trans haz)
    have hwu := hu.union_of_tie ha htie.symm hua
    rw [Set.union_comm] at hvu hwu
    obtain ⟨-, rfl⟩ := hv.unique hkey hvu
    obtain ⟨-, rfl⟩ := hw.unique hkey hwu
    exact ⟨fun _ => .inr (.inl hua), fun _ => rfl⟩
  obtain ⟨-, rfl⟩ := hw.unique hkey (ha.union_of_tie hu htie hau.le)
  rcases le_or_gt (key z) (key u) with hzu | huz
  · -- `u` comes last on both sides
    obtain ⟨-, rfl⟩ := hv.unique hkey (hz1.union_of_tie hu (htie.trans hrank.symm) hzu)
    rw [value_eq_iff ha hz hd]
    simp [hau.not_ge, hzu.not_gt]
  · -- `u` lies between the two maxima
    have hvu := hu.union_of_tie hz1 (hrank.trans htie.symm) huz.le
    rw [Set.union_comm] at hvu
    obtain ⟨-, rfl⟩ := hv.unique hkey hvu
    have hne : a ≠ z := by
      rintro rfl
      exact hau.asymm huz
    simp [hne, hau.not_ge, huz]

/-- **When everything but the last maximum may be dropped.** -/
theorem first_union_iff (hkey : Function.Injective key) (hT : T.Finite)
    (ha : IsFirstMax key d rank S a m) (hz : IsLastMax key d rank S z n) (hd : m = n → a = z)
    (hv : IsFirstMax key d rank ({z} ∪ T) v k)
    (hw : IsFirstMax key d rank (S ∪ T) w l) : k = l ↔ a = z ∨ Decides key d rank T a z m := by
  by_cases hTd : ∃ u ∈ T, ∃ q, d u = some q
  swap
  · have hnone : ∀ u ∈ T, ∀ q, d u ≠ some q := fun u hu q hq => hTd ⟨u, hu, q, hq⟩
    rw [first_union_of_none hkey ha hz hd hv hw hnone]
    refine ⟨Or.inl, ?_⟩
    rintro (h | ⟨u, q, hu, -⟩)
    · exact h
    · exact absurd hu.val (hnone u hu.mem q)
  obtain ⟨u', hu', q', hq'⟩ := hTd
  obtain ⟨u, q, hu⟩ := exists_isFirstMax key rank hT hu' hq'
  -- `T`'s first maximum is the only candidate for deciding the slot
  have hdec : Decides key d rank T a z m ↔
      rank m < rank q ∨ (rank q = rank m ∧ (key u ≤ key a ∨ (key u < key z ∧ q = m))) := by
    refine ⟨?_, fun h => ⟨u, q, hu, h⟩⟩
    rintro ⟨x, y, hx, hxy⟩
    obtain ⟨rfl, rfl⟩ := hx.unique hkey hu
    exact hxy
  rw [hdec]
  have hrank := (ha.le_last hz).1
  have hz1 : IsFirstMax key d rank {z} z n := isFirstMax_singleton hz.val
  rcases lt_trichotomy (rank q) (rank m) with hlt | htie | hgt
  · -- `S` outranks `T`
    have hvz := hu.union_of_rank_lt hz1 (hrank ▸ hlt)
    have hwa := hu.union_of_rank_lt ha hlt
    rw [Set.union_comm] at hvz hwa
    obtain ⟨-, rfl⟩ := hv.unique hkey hvz
    obtain ⟨-, rfl⟩ := hw.unique hkey hwa
    rw [value_eq_iff ha hz hd]
    simp [hlt.not_gt, hlt.ne]
  · rw [first_union_of_tie hkey ha hz hd hv hw hu htie]
    simp [htie]
  · -- `T` outranks `S`
    obtain ⟨-, rfl⟩ := hv.unique hkey (hz1.union_of_rank_lt hu (hrank ▸ hgt))
    obtain ⟨-, rfl⟩ := hw.unique hkey (ha.union_of_rank_lt hu hgt)
    exact ⟨fun _ => .inr (.inl hgt), fun _ => rfl⟩

end

end Lib.Select
