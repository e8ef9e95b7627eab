import Pillar.Topology.Topology

/-!
# What declared labels decide

A declared label is advisory, and never a basis for safety-critical placement: so the documentation
says.

* `declared_irrelevant_iff` — **two declarations make no difference precisely when they
  leave the groups of every tier the same**.
-/

namespace Pillar.Topology

structure SameGroups (nodes : Set NodeId) (f g : NodeId → Option String) : Prop where
  none_iff : ∀ n ∈ nodes, f n = none ↔ g n = none
  eq_iff : ∀ m ∈ nodes, ∀ n ∈ nodes, f m = f n ↔ g m = g n

variable {t u : Topology} {tier : String} {nodes : Set NodeId}

/-! ## What the queries read -/

/-- The domains used so far correspond: as many, and of the same nodes. -/
structure UsedAlike (nodes : Set NodeId) (f g : NodeId → Option String) (used used' : Finset String) :
    Prop where
  card_eq : used.card = used'.card
  mem_iff : ∀ n ∈ nodes, ∀ d d', f n = some d → g n = some d' → (d ∈ used ↔ d' ∈ used')

theorem UsedAlike.insert {f g : NodeId → Option String} {used used' : Finset String}
    (hused : UsedAlike nodes f g used used') (h : SameGroups nodes f g) {n : NodeId}
    (hn : n ∈ nodes)
    {d d' : String} (hd : f n = some d) (hd' : g n = some d') (hnew : d ∉ used) :
    UsedAlike nodes f g (insert d used) (insert d' used') := by
  have hnew' : d' ∉ used' := fun hmem => hnew ((hused.mem_iff n hn d d' hd hd').2 hmem)
  refine ⟨?_, fun m hm e e' he he' => ?_⟩
  · rw [Finset.card_insert_of_notMem hnew, Finset.card_insert_of_notMem hnew', hused.card_eq]
  · have hsame := h.eq_iff m hm n hn
    rw [he, he', hd, hd', Option.some_inj, Option.some_inj] at hsame
    rw [Finset.mem_insert, Finset.mem_insert, hsame, hused.mem_iff m hm e e' he he']

theorem choose_congr (h : SameGroups nodes (t.label tier) (u.label tier)) (replicas : ℕ)
    (candidates : List NodeId) (hnodes : ∀ n ∈ candidates, n ∈ nodes) (used used' : Finset String)
    (chosen : List NodeId) (hused : UsedAlike nodes (t.label tier) (u.label tier) used used') :
    t.choose tier replicas candidates used chosen =
      u.choose tier replicas candidates used' chosen := by
  induction candidates generalizing used used' chosen with
  | nil => rw [choose, choose, hused.card_eq]
  | cons n candidates ih =>
    have hmemn : n ∈ nodes := hnodes n List.mem_cons_self
    have ih := ih fun m hm => hnodes m (List.mem_cons_of_mem n hm)
    rw [choose, choose]
    cases hn : t.label tier n with
    | none =>
      rw [(h.none_iff n hmemn).1 hn]
      exact ih used used' chosen hused
    | some d =>
      cases hn' : u.label tier n with
      | none => exact absurd ((h.none_iff n hmemn).2 hn') (by simp [hn])
      | some d' =>
        have hmem := hused.mem_iff n hmemn d d' hn hn'
        by_cases hd : d ∈ used
        · simp only [hd, hmem.1 hd, if_true]
          exact ih used used' chosen hused
        · have hd' : d' ∉ used' := fun hd' => hd (hmem.2 hd')
          simp only [hd, hd', if_false]
          split_ifs
          · rfl
          · exact ih _ _ _ (hused.insert h hmemn hn hn' hd)

theorem spread_congr (hrank : t.hierarchy = u.hierarchy)
    (h : tier ∈ t.hierarchy.tiers → SameGroups nodes (t.label tier) (u.label tier))
    {candidates : List NodeId} (hnodes : ∀ n ∈ candidates, n ∈ nodes) (replicas : ℕ) :
    t.spread candidates replicas tier = u.spread candidates replicas tier := by
  rw [spread, spread, ← hrank]
  split_ifs with hr
  · rfl
  · have htier : tier ∈ t.hierarchy.tiers := by
      rw [Option.isNone_iff_eq_none, TierHierarchy.rank_eq_none_iff, not_not] at hr
      exact hr
    exact choose_congr (h htier) replicas candidates hnodes ∅ ∅ [] ⟨rfl, by simp⟩

theorem quorumIsSafe_iff {members : List NodeId} :
    t.quorumIsSafe members tier = true ↔
      tier ∈ t.hierarchy.tiers ∧ (∀ n ∈ members, t.label tier n ≠ none) ∧
        ∃ m ∈ members, ∃ n ∈ members, t.label tier m ≠ t.label tier n := by
  rw [quorumIsSafe]
  by_cases htier : tier ∈ t.hierarchy.tiers
  · have hrank : (t.hierarchy.rank tier).isNone = false := by
      rw [← Bool.not_eq_true, Option.isNone_iff_eq_none, TierHierarchy.rank_eq_none_iff]
      exact not_not.2 htier
    rw [hrank, if_neg Bool.false_ne_true, Bool.and_eq_true, List.all_eq_true, decide_eq_true_iff,
      and_iff_right htier, domainsAt, hrank, if_neg Bool.false_ne_true]
    simp only [Option.isSome_iff_ne_none]
    refine and_congr_right fun hall => ?_
    rw [Nat.succ_le_iff, Finset.one_lt_card]
    simp only [List.mem_toFinset, List.mem_filterMap]
    constructor
    · rintro ⟨d, ⟨m, hm, hmd⟩, e, ⟨n, hn, hne⟩, hde⟩
      exact ⟨m, hm, n, hn, by simpa [hmd, hne] using hde⟩
    · rintro ⟨m, hm, n, hn, hmn⟩
      obtain ⟨d, hd⟩ := Option.ne_none_iff_exists'.1 (hall m hm)
      obtain ⟨e, he⟩ := Option.ne_none_iff_exists'.1 (hall n hn)
      exact ⟨d, ⟨m, hm, hd⟩, e, ⟨n, hn, he⟩, by simpa [hd, he] using hmn⟩
  · simp [TierHierarchy.rank_eq_none_iff.2 htier, htier]

theorem quorumIsSafe_congr (hrank : t.hierarchy = u.hierarchy)
    (h : tier ∈ t.hierarchy.tiers → SameGroups nodes (t.label tier) (u.label tier))
    {members : List NodeId} (hnodes : ∀ n ∈ members, n ∈ nodes) :
    t.quorumIsSafe members tier = u.quorumIsSafe members tier := by
  rw [Bool.eq_iff_iff, quorumIsSafe_iff, quorumIsSafe_iff, ← hrank]
  refine and_congr_right fun htier => and_congr ?_ ?_
  · exact forall₂_congr fun n hn => not_congr ((h htier).none_iff n (hnodes n hn))
  · refine exists_congr fun m => and_congr_right fun hm =>
      exists_congr fun n => and_congr_right fun hn => ?_
    exact not_congr ((h htier).eq_iff m (hnodes m hm) n (hnodes n hn))

/-! ## What the queries tell -/

theorem label_eq_none_iff_spread (htier : tier ∈ t.hierarchy.tiers) (n : NodeId) :
    t.label tier n = none ↔ t.spread [n] 1 tier = .error (.insufficientDomains tier 0 1) := by
  rw [spread, if_neg (by simpa [TierHierarchy.rank_eq_none_iff] using htier)]
  cases hn : t.label tier n <;> simp [choose, hn]

theorem label_eq_iff_spread (htier : tier ∈ t.hierarchy.tiers) {m n : NodeId}
    (hm : t.label tier m ≠ none) (hn : t.label tier n ≠ none) :
    t.label tier m = t.label tier n ↔
      t.spread [m, n] 2 tier = .error (.insufficientDomains tier 1 2) := by
  obtain ⟨d, hd⟩ := Option.ne_none_iff_exists'.1 hm
  obtain ⟨e, he⟩ := Option.ne_none_iff_exists'.1 hn
  rw [spread, if_neg (by simpa [TierHierarchy.rank_eq_none_iff] using htier)]
  by_cases hde : e = d
  · simp [choose, hd, he, hde]
  · simp [choose, hd, he, hde, Ne.symm hde]

/-- **Spreading tells the groups.** -/
theorem sameGroups_of_spread (hrank : t.hierarchy = u.hierarchy) (htier : tier ∈ t.hierarchy.tiers)
    (h : ∀ candidates replicas, t.spread candidates replicas tier = u.spread candidates replicas tier) :
    SameGroups Set.univ (t.label tier) (u.label tier) := by
  have htier' : tier ∈ u.hierarchy.tiers := hrank ▸ htier
  have hnone : ∀ n, t.label tier n = none ↔ u.label tier n = none := by
    intro n
    rw [label_eq_none_iff_spread htier, label_eq_none_iff_spread htier', h]
  refine ⟨fun n _ => hnone n, fun m _ n _ => ?_⟩
  by_cases hm : t.label tier m = none
  · rw [hm, (hnone m).1 hm, eq_comm, hnone n, eq_comm]
  · by_cases hn : t.label tier n = none
    · rw [hn, (hnone n).1 hn, hnone m]
    · rw [label_eq_iff_spread htier hm hn,
        label_eq_iff_spread htier' (fun hm' => hm ((hnone m).2 hm')) (fun hn' => hn ((hnone n).2 hn')),
        h]

/-! ## Declarations -/

/-- **What nodes declare makes no difference precisely when it leaves the groups of every tier the
same.** -/
theorem declared_irrelevant_iff (hierarchy : TierHierarchy)
    (attested declared declared' : Std.ExtTreeMap NodeId Labels) :
    ((∀ members tier,
        (⟨hierarchy, declared, attested⟩ : Topology).quorumIsSafe members tier =
          (⟨hierarchy, declared', attested⟩ : Topology).quorumIsSafe members tier) ∧
      ∀ candidates replicas tier,
        (⟨hierarchy, declared, attested⟩ : Topology).spread candidates replicas tier =
          (⟨hierarchy, declared', attested⟩ : Topology).spread candidates replicas tier) ↔
      ∀ tier ∈ hierarchy.tiers,
        SameGroups Set.univ
          (fun n => ((attested.getD n ∅)[tier]?).or (declared.getD n ∅)[tier]?)
          (fun n => ((attested.getD n ∅)[tier]?).or (declared'.getD n ∅)[tier]?) := by
  have hlabel : ∀ (d : Std.ExtTreeMap NodeId Labels) (tier : String),
      (fun n => ((attested.getD n ∅)[tier]?).or (d.getD n ∅)[tier]?) =
        (⟨hierarchy, d, attested⟩ : Topology).label tier := by
    intro d tier
    funext n
    rw [label_eq]
  simp only [hlabel]
  constructor
  · rintro ⟨-, hspread⟩ tier htier
    refine sameGroups_of_spread ?_ htier fun candidates replicas => hspread candidates replicas tier
    rfl
  · intro h
    constructor
    · intro members tier
      refine quorumIsSafe_congr ?_ (h tier) fun n _ => Set.mem_univ n
      rfl
    · intro candidates replicas tier
      refine spread_congr ?_ (h tier) (fun n _ => Set.mem_univ n) replicas
      rfl

/-- Two nodes of one rack, as they may declare themselves: apart, or together. -/
def declaredRacks (r₁ r₂ : String) : Std.ExtTreeMap NodeId Labels :=
  (Std.ExtTreeMap.empty.insert "n1" (Std.ExtTreeMap.empty.insert "rack" r₁)).insert "n2"
    (Std.ExtTreeMap.empty.insert "rack" r₂)

/-- Without attested labels, a quorum is safe because its members say so. -/
theorem declared_racks_decide :
    (⟨.default, declaredRacks "r1" "r2", ∅⟩ : Topology).quorumIsSafe ["n1", "n2"] "rack" = true ∧
      (⟨.default, declaredRacks "r1" "r1", ∅⟩ : Topology).quorumIsSafe ["n1", "n2"] "rack" = false ∧
      (⟨.default, declaredRacks "r1" "r2", ∅⟩ : Topology).spread ["n1", "n2"] 2 "rack" =
        .ok ["n1", "n2"] ∧
      (⟨.default, declaredRacks "r1" "r1", ∅⟩ : Topology).spread ["n1", "n2"] 2 "rack" =
        .error (.insufficientDomains "rack" 1 2) := by
  decide +kernel

end Pillar.Topology
