import Mathlib

/-!
# Search by rounds

A breadth-first search with a bound on its rounds: a round takes what the edges of the nodes found
last lead to and was not seen before.

* `mem_search_iff` — **the search finds what a walk of at most so many edges leads to**, other
  than its start;
* `exists_searchAll` — without a bound it ends too, and finds what any walk leads to.
-/

namespace Lib.HopSearch

variable {α : Type}

inductive Walk (E : α → α → Prop) : ℕ → α → α → Prop
  | refl (x : α) : Walk E 0 x x
  | cons {n : ℕ} {x y z : α} (h : E x y) (hwalk : Walk E n y z) : Walk E (n + 1) x z

theorem Walk.snoc {E : α → α → Prop} {n : ℕ} {x y z : α} (h : Walk E n x y) (hyz : E y z) :
    Walk E (n + 1) x z := by
  induction h with
  | refl x => exact .cons hyz (.refl z)
  | cons hxy _ ih => exact .cons hxy (ih hyz)

def Leads (edges : List (α × α)) (x y : α) : Prop := (x, y) ∈ edges

variable [DecidableEq α]

def visit (start : α) (found : Finset α × List α) (target : α) : Finset α × List α :=
  if target ∉ found.1 ∧ target ≠ start then (insert target found.1, found.2 ++ [target]) else found

def expand (edges : List (α × α)) (start : α) (visited : Finset α) (frontier : List α) :
    Finset α × List α :=
  (frontier.flatMap fun node => (edges.filter fun e => e.1 = node).map Prod.snd).foldl
    (visit start) (visited, [])

def search (edges : List (α × α)) (start : α) : ℕ → Finset α → List α → Finset α
  | 0, visited, _ => visited
  | rounds + 1, visited, frontier =>
    if (expand edges start visited frontier).2 = [] then (expand edges start visited frontier).1
    else search edges start rounds (expand edges start visited frontier).1
      (expand edges start visited frontier).2

/-- The search without a bound: rounds until one finds nothing, `none` if that takes more of them
than `fuel`. -/
def searchAll (edges : List (α × α)) (start : α) : ℕ → Finset α → List α → Option (Finset α)
  | 0, _, _ => none
  | fuel + 1, visited, frontier =>
    if (expand edges start visited frontier).2 = [] then
      some (expand edges start visited frontier).1
    else searchAll edges start fuel (expand edges start visited frontier).1
      (expand edges start visited frontier).2

/-! ## One round -/

variable {edges : List (α × α)} {start x y : α} {visited : Finset α} {frontier : List α}

theorem mem_foldl_visit (l : List α) (found : Finset α × List α) :
    (x ∈ (l.foldl (visit start) found).1 ↔ x ∈ found.1 ∨ (x ∈ l ∧ x ≠ start)) ∧
      (x ∈ (l.foldl (visit start) found).2 ↔
        x ∈ found.2 ∨ (x ∈ l ∧ x ≠ start ∧ x ∉ found.1)) := by
  induction l generalizing found with
  | nil => simp
  | cons target l ih =>
    rw [List.foldl_cons, (ih _).1, (ih _).2, visit]
    by_cases hnew : target ∉ found.1 ∧ target ≠ start
    · rw [if_pos hnew]
      grind
    · rw [if_neg hnew]
      grind

def Next (edges : List (α × α)) (frontier : List α) (x : α) : Prop :=
  ∃ node ∈ frontier, (node, x) ∈ edges

theorem mem_expand_iff :
    (x ∈ (expand edges start visited frontier).1 ↔
        x ∈ visited ∨ (Next edges frontier x ∧ x ≠ start)) ∧
      (x ∈ (expand edges start visited frontier).2 ↔
        Next edges frontier x ∧ x ≠ start ∧ x ∉ visited) := by
  have hnext : x ∈ (frontier.flatMap fun node =>
      (edges.filter fun e => e.1 = node).map Prod.snd) ↔ Next edges frontier x := by
    simp [Next]
  rw [expand, (mem_foldl_visit _ _).1, (mem_foldl_visit _ _).2, hnext]
  simp

/-! ## All rounds -/

/-- The nodes that have been seen, the start among them: what the edges of a node lead to has been
seen too, unless it is still to be gone through. -/
structure Closed (edges : List (α × α)) (start : α) (visited : Finset α) (frontier : List α) :
    Prop where
  frontier_subset : ∀ x ∈ frontier, x ∈ visited ∨ x = start
  edge : ∀ x y, x ∈ visited ∨ x = start → x ∉ frontier → (x, y) ∈ edges → y ∈ visited ∨ y = start

theorem Closed.round (h : Closed edges start visited frontier) :
    Closed edges start (expand edges start visited frontier).1
      (expand edges start visited frontier).2 where
  frontier_subset x hx := by
    obtain ⟨hnext, hne, -⟩ := mem_expand_iff.2.1 hx
    exact .inl (mem_expand_iff.1.2 (.inr ⟨hnext, hne⟩))
  edge x y hx hnot hxy := by
    rw [mem_expand_iff.1] at hx ⊢
    rw [mem_expand_iff.2] at hnot
    by_cases hfrontier : x ∈ frontier
    · have hnext : Next edges frontier y := ⟨x, hfrontier, hxy⟩
      tauto
    · have hold := h.edge x y (by tauto) hfrontier hxy
      tauto

theorem Closed.walk (h : Closed edges start visited frontier) {k : ℕ} (hx : x ∈ visited ∨ x = start)
    (hwalk : Walk (Leads edges) k x y) :
    (y ∈ visited ∨ y = start) ∨
      ∃ f ∈ frontier, ∃ j ≤ k, Walk (Leads edges) j f y := by
  induction hwalk with
  | refl x => exact .inl hx
  | @cons k x z y hxz hwalk ih =>
    by_cases hfrontier : x ∈ frontier
    · exact .inr ⟨x, hfrontier, k + 1, le_rfl, .cons hxz hwalk⟩
    · rcases ih (h.edge x z hx hfrontier hxz) with hy | ⟨f, hf, j, hj, hwalk⟩
      · exact .inl hy
      · exact .inr ⟨f, hf, j, hj.trans k.le_succ, hwalk⟩

theorem search_nil (rounds : ℕ) : search edges start rounds visited [] = visited := by
  cases rounds <;> rfl

/-- A round that finds nothing is one after which no round finds anything. -/
theorem search_succ (rounds : ℕ) :
    search edges start (rounds + 1) visited frontier =
      search edges start rounds (expand edges start visited frontier).1
        (expand edges start visited frontier).2 := by
  rw [search]
  split_ifs with hnil
  · rw [hnil, search_nil]
  · rfl

theorem Closed.mem_search_iff (h : Closed edges start visited frontier) (rounds : ℕ) :
    y ∈ search edges start rounds visited frontier ↔
      y ∈ visited ∨ (y ≠ start ∧ ∃ f ∈ frontier, ∃ k ≤ rounds,
        Walk (Leads edges) k f y) := by
  induction rounds generalizing visited frontier with
  | zero =>
    rw [search]
    refine ⟨.inl, ?_⟩
    rintro (hy | ⟨hne, f, hf, k, hk, hwalk⟩)
    · exact hy
    · obtain rfl : k = 0 := Nat.le_zero.1 hk
      cases hwalk with
      | refl => exact (h.frontier_subset _ hf).resolve_right hne
  | succ rounds ih =>
    have hclosed := h.round
    rw [search_succ, ih hclosed]
    constructor
    · have hround : ∀ z, Next edges frontier z → ∀ k ≤ rounds, Walk (Leads edges) k z y →
          ∃ f ∈ frontier, ∃ k ≤ rounds + 1, Walk (Leads edges) k f y := by
        rintro z ⟨f, hf, hfz⟩ k hk hwalk
        exact ⟨f, hf, k + 1, by omega, .cons hfz hwalk⟩
      rintro (hy | ⟨hne, f, hf, k, hk, hwalk⟩)
      · refine (mem_expand_iff.1.1 hy).imp_right fun ⟨hnext, hne⟩ => ?_
        exact ⟨hne, hround y hnext 0 (Nat.zero_le _) (.refl y)⟩
      · exact .inr ⟨hne, hround f (mem_expand_iff.2.1 hf).1 k hk hwalk⟩
    · rintro (hy | ⟨hne, f, hf, k, hk, hwalk⟩)
      · exact .inl (mem_expand_iff.1.2 (.inl hy))
      -- a walk from the frontier is over, or goes on from a node that has been seen now
      cases hwalk with
      | refl =>
        exact .inl (mem_expand_iff.1.2 (.inl ((h.frontier_subset _ hf).resolve_right hne)))
      | @cons k _ z _ hfz hwalk =>
        have hz : z ∈ (expand edges start visited frontier).1 ∨ z = start := by
          by_cases hstart : z = start
          · exact .inr hstart
          · exact .inl (mem_expand_iff.1.2 (.inr ⟨⟨f, hf, hfz⟩, hstart⟩))
        rcases hclosed.walk hz hwalk with hy | ⟨f, hf, j, hj, hwalk⟩
        · exact .inl (hy.resolve_right hne)
        · exact .inr ⟨hne, f, hf, j, by omega, hwalk⟩

/-- **The search finds what a walk of at most so many edges leads to.** -/
theorem mem_search_iff (rounds : ℕ) :
    y ∈ search edges start rounds ∅ [start] ↔
      y ≠ start ∧ ∃ k ≤ rounds, Walk (Leads edges) k start y := by
  have hclosed : Closed edges start ∅ [start] :=
    ⟨by simp, fun x y hx hnot => absurd (by simpa using hx) (by simpa using hnot)⟩
  rw [hclosed.mem_search_iff]
  simp

theorem search_of_searchAll {fuel : ℕ} {r : Finset α}
    (h : searchAll edges start fuel visited frontier = some r) (extra : ℕ) :
    search edges start (fuel + extra) visited frontier = r := by
  induction fuel generalizing visited frontier with
  | zero => cases h
  | succ fuel ih =>
    rw [searchAll] at h
    rw [Nat.succ_add, search_succ]
    split_ifs at h with hnil
    · rw [hnil, search_nil]
      exact Option.some.inj h
    · exact ih h

/-- **Every round but the last finds a node**, and there are not more nodes than edges. -/
theorem isSome_searchAll {fuel : ℕ} (hsub : visited ⊆ (edges.map Prod.snd).toFinset)
    (hfuel : (edges.map Prod.snd).toFinset.card < fuel + visited.card) :
    (searchAll edges start fuel visited frontier).isSome = true := by
  induction fuel generalizing visited frontier with
  | zero => exact absurd (Finset.card_le_card hsub) (by omega)
  | succ fuel ih =>
    rw [searchAll]
    split_ifs with hnil
    · rfl
    · refine ih (fun x hx => ?_) (hfuel.trans_le ?_)
      · rcases mem_expand_iff.1.1 hx with hx | ⟨⟨node, -, hedge⟩, -⟩
        · exact hsub hx
        · exact List.mem_toFinset.2 (List.mem_map.2 ⟨_, hedge, rfl⟩)
      · obtain ⟨x, hx⟩ := List.exists_mem_of_ne_nil _ hnil
        obtain ⟨hnext, hne, hnot⟩ := mem_expand_iff.2.1 hx
        have hlt : visited.card < (expand edges start visited frontier).1.card :=
          Finset.card_lt_card ((Finset.ssubset_iff_of_subset fun z hz =>
            mem_expand_iff.1.2 (.inl hz)).2 ⟨x, mem_expand_iff.1.2 (.inr ⟨hnext, hne⟩), hnot⟩)
        omega

/-- **The search without a bound finds what any walk leads to.** -/
theorem exists_searchAll (edges : List (α × α)) (start : α) (extra : ℕ) :
    ∃ r, searchAll edges start (edges.length + 1 + extra) ∅ [start] = some r ∧
      ∀ y, y ∈ r ↔ y ≠ start ∧ ∃ k, Walk (Leads edges) k start y := by
  have hcard : (edges.map Prod.snd).toFinset.card ≤ edges.length := by
    simpa using (edges.map Prod.snd).toFinset_card_le
  have hsome : (searchAll edges start (edges.length + 1 + extra) ∅ [start]).isSome = true :=
    isSome_searchAll (Finset.empty_subset _) (by simp; omega)
  obtain ⟨r, hr⟩ := Option.isSome_iff_exists.1 hsome
  refine ⟨r, hr, fun y => ⟨fun hy => ?_, fun ⟨hne, k, hwalk⟩ => ?_⟩⟩
  · rw [← search_of_searchAll hr 0, mem_search_iff] at hy
    obtain ⟨hne, k, -, hwalk⟩ := hy
    exact ⟨hne, k, hwalk⟩
  · rw [← search_of_searchAll hr k, mem_search_iff]
    exact ⟨hne, k, by omega, hwalk⟩

end Lib.HopSearch
