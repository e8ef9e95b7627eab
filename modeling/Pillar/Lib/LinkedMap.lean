import Mathlib

/-!
# Walking a map whose values link to keys

A finite map whose values name other keys of it is a directed graph: a store of hash-linked records
is one.

* `reach`, `mem_reach` — **the worklist walk** collects exactly the keys that can
  be reached from its stack.
* `postOrder`, `postOrder_visits` — **the guarded depth-first walk**: where every link lowers some
  rank, it lists each value once and after all the values it links to.
-/

namespace Lib.LinkedMap

open Std Relation

variable {K V : Type} [Ord K] [TransOrd K]

def next (m : ExtTreeMap K V) (links : V → List K) (k : K) : List K :=
  match m[k]? with
  | some v => links v
  | none => []

theorem next_of_not_mem {m : ExtTreeMap K V} (links : V → List K) {k : K} (h : k ∉ m) :
    next m links k = [] := by
  rw [next, ExtTreeMap.getElem?_eq_none h]

def Edge (m : ExtTreeMap K V) (links : V → List K) (k k' : K) : Prop := k' ∈ next m links k

theorem edge_iff {m : ExtTreeMap K V} {links : V → List K} {k k' : K} :
    Edge m links k k' ↔ ∃ v, m[k]? = some v ∧ k' ∈ links v := by
  rw [Edge, next]
  cases m[k]? <;> simp

/-! ## The worklist walk -/

def unseen (m : ExtTreeMap K V) (seen : ExtTreeSet K) : List K :=
  m.keys.filter fun k => !seen.contains k

theorem unseen_insert_sublist (m : ExtTreeMap K V) (seen : ExtTreeSet K) (k : K) :
    (unseen m (seen.insert k)).Sublist (unseen m seen) := by
  refine List.monotone_filter_right _ fun a ha => ?_
  simp only [Bool.not_eq_true', ExtTreeSet.contains_insert, Bool.or_eq_false_iff] at ha ⊢
  exact ha.2

section

variable [LawfulEqOrd K]

variable {m : ExtTreeMap K V} {seen : ExtTreeSet K}

theorem mem_unseen {k : K} : k ∈ unseen m seen ↔ k ∈ m ∧ k ∉ seen := by
  rw [unseen, List.mem_filter, ExtTreeMap.mem_keys, Bool.not_eq_true', ← Bool.not_eq_true,
    ExtTreeSet.contains_iff_mem]

theorem length_unseen_insert_lt {k : K} (hk : k ∈ m) (hseen : k ∉ seen) :
    (unseen m (seen.insert k)).length < (unseen m seen).length := by
  have hsub := unseen_insert_sublist m seen k
  refine Nat.lt_of_le_of_ne hsub.length_le fun heq => ?_
  have hmem : k ∈ unseen m (seen.insert k) := by
    rw [hsub.eq_of_length heq]
    exact mem_unseen.2 ⟨hk, hseen⟩
  exact (mem_unseen.1 hmem).2 (by simp)

def reach {K V : Type} [Ord K] [TransOrd K] [LawfulEqOrd K] (m : ExtTreeMap K V)
    (links : V → List K) (seen : ExtTreeSet K) (stack : List K) : ExtTreeSet K :=
  match stack with
  | [] => seen
  | cur :: stack =>
    if cur ∈ seen then reach m links seen stack
    else reach m links (seen.insert cur) ((next m links cur).reverse ++ stack)
termination_by ((unseen m seen).length, stack.length)
decreasing_by
  · exact Prod.Lex.right _ (Nat.lt_succ_self _)
  · rename_i hseen
    by_cases hcur : cur ∈ m
    · exact Prod.Lex.left _ _ (length_unseen_insert_lt hcur hseen)
    · -- nothing is pushed for a key the map does not have
      rw [next_of_not_mem links hcur]
      rcases (unseen_insert_sublist m seen cur).length_le.lt_or_eq with hlt | heq
      · exact Prod.Lex.left _ _ hlt
      · rw [heq]
        exact Prod.Lex.right _ (Nat.lt_succ_self _)

/-- **The worklist walk is reachability.** -/
theorem mem_reach {links : V → List K} {stack : List K}
    (hclosed : ∀ s ∈ seen, ∀ t, Edge m links s t → t ∈ seen ∨ t ∈ stack) {k : K} :
    k ∈ reach m links seen stack ↔
      ∃ s, (s ∈ seen ∨ s ∈ stack) ∧ ReflTransGen (Edge m links) s k := by
  fun_induction reach m links seen stack with
  | case1 seen =>
    refine ⟨fun hk => ⟨k, Or.inl hk, .refl⟩, ?_⟩
    rintro ⟨s, hs, hsk⟩
    -- nothing is left to visit, so the seen keys are closed under links
    induction hsk with
    | refl => exact hs.resolve_right List.not_mem_nil
    | tail _ hedge ih => exact (hclosed _ ih _ hedge).resolve_right List.not_mem_nil
  | case2 seen cur stack hseen ih =>
    have hset : ∀ s, s ∈ seen ∨ s ∈ cur :: stack ↔ s ∈ seen ∨ s ∈ stack := by
      intro s
      rw [List.mem_cons, or_left_comm, or_iff_right_of_imp]
      rintro rfl
      exact .inl hseen
    rw [ih fun s hs t ht => (hset t).1 (hclosed s hs t ht)]
    simp only [hset]
  | case3 seen cur stack hseen ih =>
    have hset : ∀ s, s ∈ seen.insert cur ∨ s ∈ (next m links cur).reverse ++ stack ↔
        (s ∈ seen ∨ s ∈ cur :: stack) ∨ Edge m links cur s := by
      intro s
      simp only [ExtTreeSet.mem_insert, LawfulEqCmp.compare_eq_iff_eq, List.mem_append,
        List.mem_reverse, List.mem_cons, Edge, eq_comm (a := cur)]
      tauto
    rw [ih ?_]
    · simp only [hset]
      constructor
      · rintro ⟨s, hs | hedge, hsk⟩
        · exact ⟨s, hs, hsk⟩
        · exact ⟨cur, Or.inr List.mem_cons_self, .head hedge hsk⟩
      · rintro ⟨s, hs, hsk⟩
        exact ⟨s, Or.inl hs, hsk⟩
    · intro s hs t ht
      rw [hset]
      rw [ExtTreeSet.mem_insert, LawfulEqCmp.compare_eq_iff_eq] at hs
      rcases hs with rfl | hs
      · exact .inr ht
      · exact .inl (hclosed s hs t ht)

end

/-! ## The depth-first walk -/

/-- What a depth-first walk has done: the keys it has listed, those it is in the
middle of, and the values listed so far. -/
structure Walk (K V : Type) [Ord K] where
  emitted : ExtTreeSet K
  visiting : ExtTreeSet K
  ordered : List V

def Walk.start : Walk K V := ⟨∅, ∅, []⟩

/-- List the value under `k` after everything it links to. -/
def postOrder (m : ExtTreeMap K V) (links : V → List K) : ℕ → K → Walk K V → Option (Walk K V)
  | 0, _, _ => none
  | fuel + 1, k, w =>
    if k ∈ w.emitted ∨ k ∈ w.visiting then some w
    else
      let w := { w with visiting := w.visiting.insert k }
      match m[k]? with
      | none => some { w with visiting := w.visiting.erase k }
      | some v =>
        ((links v).foldlM (fun w d => postOrder m links fuel d w) w).map fun w =>
          let w := if k ∈ w.emitted then w
            else { w with emitted := w.emitted.insert k, ordered := w.ordered ++ [v] }
          { w with visiting := w.visiting.erase k }

/-- Inside `S` every key has a value, and its links stay in `S` and have a lower
rank. -/
structure Descends (m : ExtTreeMap K V) (links : V → List K) (S : Set K) (rank : K → ℕ) :
    Prop where
  held : ∀ k ∈ S, ∃ v, m[k]? = some v
  link : ∀ k ∈ S, ∀ v, m[k]? = some v → ∀ d ∈ links v, d ∈ S ∧ rank d < rank k

/-- The list of values of a walk is in order: it holds the emitted keys' values,
each once and after everything it links to. -/
structure Listed (m : ExtTreeMap K V) (links : V → List K) (key : V → K) (S : Set K)
    (w : Walk K V) : Prop where
  emitted_iff : ∀ k, k ∈ w.emitted ↔ k ∈ w.ordered.map key
  /-- What is listed is what the map holds inside `S`. -/
  held : ∀ v ∈ w.ordered, key v ∈ S ∧ m[key v]? = some v
  nodup : (w.ordered.map key).Nodup
  /-- Every link of a listed value is listed before it. -/
  sorted : ∀ p v, p ++ [v] <+: w.ordered → ∀ d ∈ links v, d ∈ p.map key

/-- A walk got from `w` to `w'`, visiting the keys `ks`. -/
structure Visits (m : ExtTreeMap K V) (links : V → List K) (key : V → K) (S : Set K) (ks : List K)
    (w w' : Walk K V) : Prop where
  listed : Listed m links key S w'
  grew : w.ordered <+: w'.ordered
  visiting_eq : w'.visiting = w.visiting
  visited : ∀ k ∈ ks, k ∈ w'.emitted

section

variable {m : ExtTreeMap K V} {links : V → List K} {key : V → K} {S : Set K} {rank : K → ℕ}
  {ks : List K} {w w' w'' : Walk K V}

theorem listed_start : Listed m links key S (Walk.start : Walk K V) where
  emitted_iff := by simp [Walk.start]
  held := by simp [Walk.start]
  nodup := by simp [Walk.start]
  sorted := by simp [Walk.start]

theorem Listed.withVisiting (h : Listed m links key S w) (visiting : ExtTreeSet K) :
    Listed m links key S { w with visiting := visiting } :=
  ⟨h.emitted_iff, h.held, h.nodup, h.sorted⟩

theorem Visits.refl (h : Listed m links key S w) : Visits m links key S [] w w :=
  ⟨h, List.prefix_refl _, rfl, by simp⟩

theorem Visits.emitted_mono (h : Visits m links key S ks w w') (hw : Listed m links key S w)
    {k : K} (hk : k ∈ w.emitted) : k ∈ w'.emitted :=
  (h.listed.emitted_iff k).2 ((h.grew.map key).subset ((hw.emitted_iff k).1 hk))

theorem Visits.cons {k : K} (h₁ : Visits m links key S [k] w w')
    (h₂ : Visits m links key S ks w' w'') : Visits m links key S (k :: ks) w w'' where
  listed := h₂.listed
  grew := h₁.grew.trans h₂.grew
  visiting_eq := h₂.visiting_eq.trans h₁.visiting_eq
  visited := by
    intro x hx
    rcases List.mem_cons.1 hx with rfl | hx
    · exact h₂.emitted_mono h₁.listed (h₁.visited x List.mem_cons_self)
    · exact h₂.visited x hx

theorem exists_foldlM_visits {visit : Walk K V → K → Option (Walk K V)} {I : Walk K V → Prop}
    (hI : ∀ w w', w'.visiting = w.visiting → I w → I w')
    (hvisit : ∀ k ∈ ks, ∀ w, Listed m links key S w → I w →
      ∃ w', visit w k = some w' ∧ Visits m links key S [k] w w')
    (hw : Listed m links key S w) (hIw : I w) :
    ∃ w', ks.foldlM visit w = some w' ∧ Visits m links key S ks w w' := by
  induction ks generalizing w with
  | nil => exact ⟨w, rfl, .refl hw⟩
  | cons k ks ih =>
    obtain ⟨w₁, hrun₁, h₁⟩ := hvisit k List.mem_cons_self w hw hIw
    obtain ⟨w₂, hrun₂, h₂⟩ := ih (fun x hx => hvisit x (List.mem_cons_of_mem k hx)) h₁.listed
      (hI w w₁ h₁.visiting_eq hIw)
    exact ⟨w₂, by rw [List.foldlM_cons, hrun₁]; exact hrun₂, h₁.cons h₂⟩

variable [LawfulEqOrd K]

theorem erase_insert_of_not_mem {s : ExtTreeSet K} {k : K} (hk : k ∉ s) :
    (s.insert k).erase k = s := by
  refine ExtTreeSet.ext_mem fun x => ?_
  simp only [ExtTreeSet.mem_erase, ExtTreeSet.mem_insert, ne_eq, LawfulEqCmp.compare_eq_iff_eq]
  constructor
  · rintro ⟨hne, rfl | hx⟩
    · exact absurd rfl hne
    · exact hx
  · intro hx
    exact ⟨fun heq => hk (heq ▸ hx), Or.inr hx⟩

theorem Listed.push (h : Listed m links key S w) {k : K} {v : V} (hk : k ∈ S)
    (hv : m[k]? = some v) (hkey : key v = k) (hnew : k ∉ w.emitted)
    (hlinks : ∀ d ∈ links v, d ∈ w.emitted) (visiting : ExtTreeSet K) :
    Listed m links key S ⟨w.emitted.insert k, visiting, w.ordered ++ [v]⟩ where
  emitted_iff := by
    intro x
    simp only [ExtTreeSet.mem_insert, LawfulEqCmp.compare_eq_iff_eq, List.map_append,
      List.mem_append, List.map_cons, List.map_nil, List.mem_singleton, hkey, h.emitted_iff x,
      eq_comm (a := k)]
    exact or_comm
  held := by
    intro u hu
    rcases List.mem_append.1 hu with hu | hu
    · exact h.held u hu
    · rw [List.mem_singleton.1 hu, hkey]
      exact ⟨hk, hv⟩
  nodup := by
    rw [List.map_append, List.map_cons, List.map_nil, hkey, ← List.concat_eq_append]
    exact h.nodup.concat fun hmem => hnew ((h.emitted_iff k).2 hmem)
  sorted := by
    intro p u hp d hd
    rcases List.prefix_concat_iff.1 hp with heq | hp
    · obtain ⟨rfl, hu⟩ := List.append_inj' heq rfl
      rw [List.cons.injEq] at hu
      rw [hu.1] at hd
      exact (h.emitted_iff d).1 (hlinks d hd)
    · exact h.sorted p u hp d hd

/-- **The guarded depth-first walk.** -/
theorem postOrder_visits (hS : Descends m links S rank)
    (hkey : ∀ k v, m[k]? = some v → key v = k) {fuel : ℕ} {k : K} (hk : k ∈ S)
    (hfuel : rank k < fuel) (hw : Listed m links key S w)
    (hvisiting : ∀ x ∈ w.visiting, rank k < rank x) :
    ∃ w', postOrder m links fuel k w = some w' ∧ Visits m links key S [k] w w' := by
  induction fuel generalizing k w with
  | zero => exact absurd hfuel (Nat.not_lt_zero _)
  | succ fuel ih =>
    have hout : k ∉ w.visiting := fun hmem => Nat.lt_irrefl _ (hvisiting k hmem)
    by_cases hdone : k ∈ w.emitted
    · exact ⟨w, by simp [postOrder, hdone], hw, List.prefix_refl _, rfl, by simpa using hdone⟩
    obtain ⟨v, hv⟩ := hS.held k hk
    -- the links are visited from inside `k`, whose rank is above theirs
    have hvisit : ∀ d ∈ links v, ∀ u, Listed m links key S u →
        u.visiting = w.visiting.insert k →
        ∃ u', postOrder m links fuel d u = some u' ∧ Visits m links key S [d] u u' := by
      intro d hd u hu hins
      obtain ⟨hdS, hlt⟩ := hS.link k hk v hv d hd
      refine ih hdS (by omega) hu fun x hx => ?_
      rw [hins, ExtTreeSet.mem_insert, LawfulEqCmp.compare_eq_iff_eq] at hx
      rcases hx with rfl | hx
      · exact hlt
      · exact hlt.trans (hvisiting x hx)
    obtain ⟨w₁, hrun, h₁⟩ := exists_foldlM_visits
      (I := fun u : Walk K V => u.visiting = w.visiting.insert k) (fun _ _ heq h => heq.trans h)
      hvisit (hw.withVisiting (w.visiting.insert k)) rfl
    have hback : w₁.visiting.erase k = w.visiting := by
      rw [h₁.visiting_eq]
      exact erase_insert_of_not_mem hout
    by_cases hnew : k ∈ w₁.emitted
    · refine ⟨{ w₁ with visiting := w.visiting }, ?_, h₁.listed.withVisiting w.visiting, h₁.grew,
        rfl, by simpa using hnew⟩
      simp [postOrder, hdone, hout, hv, hrun, hnew, hback]
    · refine ⟨⟨w₁.emitted.insert k, w.visiting, w₁.ordered ++ [v]⟩, ?_,
        h₁.listed.push hk hv (hkey k v hv) hnew h₁.visited _,
        h₁.grew.trans (List.prefix_append _ _), rfl, by simp⟩
      simp [postOrder, hdone, hout, hv, hrun, hnew, hback]

/-- **A loop of depth-first walks.** -/
theorem exists_walk (hS : Descends m links {k | k ∈ ks} rank)
    (hkey : ∀ k v, m[k]? = some v → key v = k) {fuel : ℕ} (hfuel : ∀ k ∈ ks, rank k < fuel) :
    ∃ w, ks.foldlM (fun w k => postOrder m links fuel k w) Walk.start = some w ∧
      Listed m links key {k | k ∈ ks} w ∧ ∀ v, v ∈ w.ordered ↔ key v ∈ ks ∧ m[key v]? = some v := by
  have hvisit : ∀ k ∈ ks, ∀ u, Listed m links key {k | k ∈ ks} u → u.visiting = ∅ →
      ∃ u', postOrder m links fuel k u = some u' ∧ Visits m links key {k | k ∈ ks} [k] u u' := by
    intro k hk u hu hempty
    refine postOrder_visits hS hkey hk (hfuel k hk) hu fun x hx => ?_
    rw [hempty] at hx
    exact absurd hx (by simp)
  obtain ⟨w, hrun, hw⟩ := exists_foldlM_visits (I := fun u : Walk K V => u.visiting = ∅)
    (fun _ _ heq h => heq.trans h) hvisit listed_start rfl
  refine ⟨w, hrun, hw.listed, fun v => ⟨hw.listed.held v, ?_⟩⟩
  rintro ⟨hk, hv⟩
  obtain ⟨u, hu, hkeys⟩ := List.mem_map.1 ((hw.listed.emitted_iff _).1 (hw.visited _ hk))
  -- the value listed under this key is the one the map holds
  have hheld := (hw.listed.held u hu).2
  rw [hkeys, hv] at hheld
  rwa [Option.some.inj hheld]

end

end Lib.LinkedMap
