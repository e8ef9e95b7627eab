import Mathlib

/-!
# Reachability with a budget

A root hands out a budget along the edges of a graph: an edge passes on what its signer has left,
less one hop, and never more than its own level.

* `relax_covers` — **the table covers every path**: `k` rounds cover the paths of `k` hops.
-/

namespace Lib.Budget

open Std

structure Edge (K : Type) where
  signer : K
  subject : K
  level : ℕ
  deriving DecidableEq

variable {K : Type}

/-! ## Paths -/

/-- A path of `n` edges from `root`, which has the budget `budget`, to a node, and
the budget that is left there. -/
inductive Chain (edges : Set (Edge K)) (root : K) (budget : ℕ) : ℕ → K → ℕ → Prop
  | start : Chain edges root budget 0 root budget
  | hop {n rb : ℕ} {e : Edge K} (h : Chain edges root budget n e.signer rb) (hpos : 1 ≤ rb)
      (he : e ∈ edges) : Chain edges root budget (n + 1) e.subject (min (rb - 1) e.level)

def Reaches (edges : Set (Edge K)) (root : K) (budget : ℕ) (node : K) (b : ℕ) : Prop :=
  ∃ n, Chain edges root budget n node b

variable {edges edges' : Set (Edge K)} {root node : K} {budget b : ℕ}

theorem Chain.add_le {n : ℕ} (h : Chain edges root budget n node b) : n + b ≤ budget := by
  induction h with
  | start | hop _ hpos _ ih => omega

theorem Reaches.le (h : Reaches edges root budget node b) : b ≤ budget := by
  obtain ⟨n, hn⟩ := h
  exact (Nat.le_add_left b n).trans hn.add_le

theorem Reaches.start : Reaches edges root budget root budget := ⟨0, .start⟩

variable {e : Edge K}

theorem Reaches.hop {rb : ℕ} (h : Reaches edges root budget e.signer rb) (hpos : 1 ≤ rb)
    (he : e ∈ edges) : Reaches edges root budget e.subject (min (rb - 1) e.level) := by
  obtain ⟨n, hn⟩ := h
  exact ⟨n + 1, .hop hn hpos he⟩

theorem Reaches.last (h : Reaches edges root budget node b) (hne : node ≠ root) :
    ∃ e ∈ edges, ∃ rb, Reaches edges root budget e.signer rb ∧ 1 ≤ rb ∧ e.subject = node ∧
      b = min (rb - 1) e.level := by
  obtain ⟨n, hn⟩ := h
  cases hn with
  | start => exact absurd rfl hne
  | hop hs hpos he => exact ⟨_, he, _, ⟨_, hs⟩, hpos, rfl, rfl⟩

theorem Reaches.mono (h : Reaches edges root budget node b)
    (hsub : ∀ e ∈ edges, (∃ rb, 1 ≤ rb ∧ Reaches edges root budget e.signer rb) → e ∈ edges') :
    Reaches edges' root budget node b := by
  obtain ⟨n, hn⟩ := h
  induction hn with
  | start => exact .start
  | hop hs hpos he ih => exact ih.hop hpos (hsub _ he ⟨_, hpos, _, hs⟩)

theorem Reaches.dominated (h : Reaches edges root budget node b)
    (hdom : ∀ e ∈ edges, ∃ e' ∈ edges', e'.signer = e.signer ∧ e'.subject = e.subject ∧
      min (budget - 1) e.level ≤ e'.level) :
    ∃ b', Reaches edges' root budget node b' ∧ b ≤ b' := by
  obtain ⟨n, hn⟩ := h
  induction hn with
  | start => exact ⟨budget, .start, le_rfl⟩
  | @hop n rb e hs hpos he ih =>
    obtain ⟨rb', hrb', hle⟩ := ih
    obtain ⟨e', he', hsigner, hsubject, hlevel⟩ := hdom e he
    have hbound := hs.add_le
    exact ⟨_, hsubject ▸ (hsigner.symm ▸ hrb').hop (hpos.trans hle) he', by omega⟩

/-! ## The best of several -/

/-- The largest number of a set, or that there is none in it. -/
def IsBest (S : Set ℕ) : Option ℕ → Prop
  | none => S = ∅
  | some v => IsGreatest S v

variable {S : Set ℕ} {a : Option ℕ}

variable {T : Set ℕ} {v rounds : ℕ} {x : K}

theorem IsBest.le_of_dominated {b : Option ℕ} (ha : IsBest S a) (hb : IsBest T b)
    (h : ∀ v ∈ S, ∃ w ∈ T, v ≤ w) : a ≤ b := by
  cases a with
  | none => exact Option.none_le
  | some v =>
    obtain ⟨w, hw, hvw⟩ := h v ha.1
    cases b with
    | none => exact absurd hw (hb ▸ Set.notMem_empty w)
    | some u => exact Option.some_le_some.2 (hvw.trans (hb.2 hw))

theorem IsBest.eq_of_dominated {b : Option ℕ} (ha : IsBest S a) (hb : IsBest T b)
    (h : ∀ v ∈ S, ∃ w ∈ T, v ≤ w) (h' : ∀ w ∈ T, ∃ v ∈ S, w ≤ v) : a = b := by
  have hab := ha.le_of_dominated hb h
  have hba := hb.le_of_dominated ha h'
  cases a with
  | none => exact (Option.le_none.1 hba).symm
  | some v =>
    cases b with
    | none => exact Option.le_none.1 hab
    | some w => rw [(Option.some_le_some.1 hab).antisymm (Option.some_le_some.1 hba)]

theorem IsBest.le {b : Option ℕ} (ha : IsBest S a) (hb : IsBest T b) (h : S ⊆ T) :
    a ≤ b :=
  ha.le_of_dominated hb fun v hv => ⟨v, h hv, le_rfl⟩

theorem IsBest.eq_some_iff (h : IsBest S a) : a = some v ↔ IsGreatest S v := by
  constructor
  · rintro rfl
    exact h
  · intro hv
    cases a with
    | none => exact absurd hv.1 (h ▸ Set.notMem_empty v)
    | some w => rw [h.unique hv]

theorem IsBest.isSome_iff (h : IsBest S a) : a.isSome = true ↔ S.Nonempty := by
  cases a with
  | none => simp [show S = ∅ from h]
  | some v => simpa using ⟨v, h.1⟩

/-! ## The relaxation -/

variable [Ord K] [TransOrd K]

/-- Take one edge: improve its subject's entry, which is made if it is missing. -/
def relaxEdge (best : ExtTreeMap K ℕ) (e : Edge K) : ExtTreeMap K ℕ × Bool :=
  match best[e.signer]? with
  | none => (best, false)
  | some rb =>
    if rb = 0 then (best, false)
    else if best.getD e.subject 0 < min (rb - 1) e.level then
      (best.insert e.subject (min (rb - 1) e.level), true)
    else (best.insertIfNew e.subject 0, false)

def relaxRound : List (Edge K) → ExtTreeMap K ℕ → ExtTreeMap K ℕ × Bool
  | [], best => (best, false)
  | e :: es, best =>
    ((relaxRound es (relaxEdge best e).1).1,
      (relaxEdge best e).2 || (relaxRound es (relaxEdge best e).1).2)

def relax (es : List (Edge K)) : ℕ → ExtTreeMap K ℕ → ExtTreeMap K ℕ
  | 0, best => best
  | rounds + 1, best =>
    if (relaxRound es best).2 then relax es rounds (relaxRound es best).1
    else (relaxRound es best).1

/-- The table has at least `b` for the node. -/
def Covers (best : ExtTreeMap K ℕ) (node : K) (b : ℕ) : Prop :=
  ∃ v, best[node]? = some v ∧ b ≤ v

/-! ## One edge -/

theorem relaxEdge_cases (best : ExtTreeMap K ℕ) (e : Edge K) :
    (relaxEdge best e = (best, false) ∧ ∀ rb, best[e.signer]? = some rb → rb = 0) ∨
    ∃ rb, best[e.signer]? = some rb ∧ 1 ≤ rb ∧
      ((best.getD e.subject 0 < min (rb - 1) e.level ∧
          relaxEdge best e = (best.insert e.subject (min (rb - 1) e.level), true)) ∨
        (min (rb - 1) e.level ≤ best.getD e.subject 0 ∧
          relaxEdge best e = (best.insertIfNew e.subject 0, false))) := by
  rw [relaxEdge]
  cases hs : best[e.signer]? with
  | none => exact .inl ⟨rfl, by simp⟩
  | some rb =>
    by_cases h0 : rb = 0
    · simp [h0]
    · refine .inr ⟨rb, rfl, Nat.one_le_iff_ne_zero.2 h0, ?_⟩
      by_cases hlt : best.getD e.subject 0 < min (rb - 1) e.level
      · exact .inl ⟨hlt, by simp [h0, hlt]⟩
      · exact .inr ⟨Nat.not_lt.1 hlt, by simp [h0, hlt]⟩

variable [LawfulEqOrd K]

variable {best : ExtTreeMap K ℕ}

theorem covers_insert {y : K} :
    Covers (best.insert y v) x b ↔ (y = x ∧ b ≤ v) ∨ (y ≠ x ∧ Covers best x b) := by
  rw [Covers, ExtTreeMap.getElem?_insert]
  by_cases hxy : y = x
  · simp [hxy]
  · simp [hxy, Covers]

theorem covers_insertIfNew {y : K} :
    Covers (best.insertIfNew y 0) x b ↔ (y = x ∧ b ≤ best.getD x 0) ∨ (y ≠ x ∧ Covers best x b) := by
  rw [Covers, ExtTreeMap.getElem?_insertIfNew, ExtTreeMap.getD_eq_getD_getElem?]
  by_cases hxy : y = x
  · subst hxy
    by_cases hmem : y ∈ best
    · simp [hmem]
    · simp [hmem]
  · simp [hxy, Covers]

theorem Covers.relaxEdge (h : Covers best x b) (e : Edge K) :
    Covers (relaxEdge best e).1 x b := by
  obtain ⟨v, hv, hle⟩ := h
  have hgetD : best.getD x 0 = v := by rw [ExtTreeMap.getD_eq_getD_getElem?, hv]; rfl
  rcases relaxEdge_cases best e with ⟨heq, -⟩ | ⟨rb, -, -, ⟨hlt, heq⟩ | ⟨-, heq⟩⟩
  · rw [heq]
    exact ⟨v, hv, hle⟩
  · rw [heq, covers_insert]
    by_cases hx : e.subject = x
    · rw [hx, hgetD] at hlt
      exact .inl ⟨hx, hle.trans hlt.le⟩
    · exact .inr ⟨hx, v, hv, hle⟩
  · rw [heq, covers_insertIfNew]
    by_cases hx : e.subject = x
    · exact .inl ⟨hx, hgetD.symm ▸ hle⟩
    · exact .inr ⟨hx, v, hv, hle⟩

theorem covers_subject (h : Covers best e.signer b) (hpos : 1 ≤ b) :
    Covers (relaxEdge best e).1 e.subject (min (b - 1) e.level) := by
  obtain ⟨v, hv, hle⟩ := h
  have hmin : min (b - 1) e.level ≤ min (v - 1) e.level := by omega
  rcases relaxEdge_cases best e with ⟨-, h0⟩ | ⟨rb, hrb, -, ⟨-, heq⟩ | ⟨hge, heq⟩⟩
  · exact absurd (h0 v hv) (by omega)
  · obtain rfl : rb = v := Option.some.inj (hrb.symm.trans hv)
    rw [heq, covers_insert]
    exact .inl ⟨rfl, hmin⟩
  · obtain rfl : rb = v := Option.some.inj (hrb.symm.trans hv)
    rw [heq, covers_insertIfNew]
    exact .inl ⟨rfl, hmin.trans hge⟩

def Sound (edges : Set (Edge K)) (root : K) (budget : ℕ) (best : ExtTreeMap K ℕ) : Prop :=
  ∀ (x : K) (v : ℕ), best[x]? = some v → Reaches edges root budget x v

theorem Sound.relaxEdge (h : Sound edges root budget best) (he : e ∈ edges) :
    Sound edges root budget (relaxEdge best e).1 := by
  intro x v hv
  rcases relaxEdge_cases best e with ⟨heq, -⟩ | ⟨rb, hrb, hpos, ⟨-, heq⟩ | ⟨hge, heq⟩⟩
  · rw [heq] at hv
    exact h x v hv
  · rw [heq, ExtTreeMap.getElem?_insert] at hv
    by_cases hx : e.subject = x
    · subst hx
      obtain rfl : min (rb - 1) e.level = v := by simpa using hv
      exact (h _ _ hrb).hop hpos he
    · exact h x v (by simpa [hx] using hv)
  · rw [heq, ExtTreeMap.getElem?_insertIfNew] at hv
    by_cases hx : e.subject = x ∧ e.subject ∉ best
    · -- a new entry with nothing, which is what the edge passes on
      obtain ⟨rfl, hmem⟩ := hx
      obtain rfl : v = 0 := by simpa [hmem, eq_comm] using hv
      rw [ExtTreeMap.getD_eq_fallback hmem] at hge
      have hzero : min (rb - 1) e.level = 0 := by omega
      exact hzero ▸ (h _ _ hrb).hop hpos he
    · exact h x v (by simpa [hx] using hv)

omit [LawfulEqOrd K] in
theorem old_of_relaxEdge (hquiet : (relaxEdge best e).2 = false) (hpos : 1 ≤ v)
    (hv : (relaxEdge best e).1[x]? = some v) : best[x]? = some v := by
  rcases relaxEdge_cases best e with ⟨heq, -⟩ | ⟨rb, -, -, ⟨-, heq⟩ | ⟨-, heq⟩⟩
  · rwa [heq] at hv
  · rw [heq] at hquiet
    cases hquiet
  · rw [heq, ExtTreeMap.getElem?_insertIfNew] at hv
    split_ifs at hv with hnew
    · exact absurd (Option.some.inj hv) (by omega)
    · exact hv

/-! ## Rounds -/

theorem Covers.relaxRound (h : Covers best x b) (es : List (Edge K)) :
    Covers (relaxRound es best).1 x b := by
  induction es generalizing best with
  | nil => exact h
  | cons e es ih => exact ih (h.relaxEdge e)

variable {es : List (Edge K)}

theorem Sound.relaxRound (h : Sound edges root budget best) (hes : ∀ e ∈ es, e ∈ edges) :
    Sound edges root budget (relaxRound es best).1 := by
  induction es generalizing best with
  | nil => exact h
  | cons e es ih =>
    exact ih (h.relaxEdge (hes e List.mem_cons_self)) fun e he => hes e (List.mem_cons_of_mem _ he)

theorem covers_relaxRound (he : e ∈ es) (h : Covers best e.signer b) (hpos : 1 ≤ b) :
    Covers (relaxRound es best).1 e.subject (min (b - 1) e.level) := by
  induction es generalizing best with
  | nil => cases he
  | cons e' es ih =>
    rcases List.mem_cons.1 he with rfl | he
    · exact (covers_subject h hpos).relaxRound es
    · exact ih he (h.relaxEdge e')

omit [LawfulEqOrd K] in
theorem old_of_relaxRound {best : ExtTreeMap K ℕ} {es : List (Edge K)}
    (hquiet : (relaxRound es best).2 = false) (hpos : 1 ≤ v)
    (hv : (relaxRound es best).1[x]? = some v) : best[x]? = some v := by
  induction es generalizing best with
  | nil => exact hv
  | cons e es ih =>
    obtain ⟨he, hes⟩ := Bool.or_eq_false_iff.1 hquiet
    exact old_of_relaxEdge he hpos (ih hes hv)

omit [LawfulEqOrd K] in
theorem covers_of_closed (hroot : Covers best root budget)
    (hclosed : ∀ e ∈ edges, ∀ rb, 1 ≤ rb → Covers best e.signer rb →
      Covers best e.subject (min (rb - 1) e.level)) (h : Reaches edges root budget node b) :
    Covers best node b := by
  obtain ⟨n, hn⟩ := h
  induction hn with
  | start => exact hroot
  | hop _ hpos he ih => exact hclosed _ he _ hpos ih

theorem closed_of_quiet (hquiet : (relaxRound es best).2 = false) (he : e ∈ es) (hpos : 1 ≤ b)
    (h : Covers (relaxRound es best).1 e.signer b) :
    Covers (relaxRound es best).1 e.subject (min (b - 1) e.level) := by
  obtain ⟨v, hv, hle⟩ := h
  -- what the signer has now it had before the round
  have hold := old_of_relaxRound hquiet (hpos.trans hle) hv
  exact covers_relaxRound he ⟨v, hold, hle⟩ hpos

/-! ## All rounds -/

omit [LawfulEqOrd K] in
theorem relax_empty (es : List (Edge K)) (rounds : ℕ) :
    relax es rounds (∅ : ExtTreeMap K ℕ) = ∅ := by
  have hround : relaxRound es (∅ : ExtTreeMap K ℕ) = (∅, false) := by
    induction es with
    | nil => rfl
    | cons e es ih => simp [relaxRound, relaxEdge, ih]
  cases rounds with
  | zero => rfl
  | succ rounds => simp [relax, hround]

theorem relax_sound (h : Sound edges root budget best) (hes : ∀ e ∈ es, e ∈ edges) (rounds : ℕ) :
    Sound edges root budget (relax es rounds best) := by
  induction rounds generalizing best with
  | zero => exact h
  | succ rounds ih =>
    rw [relax]
    split_ifs
    · exact ih (h.relaxRound hes)
    · exact h.relaxRound hes

/-- **The table covers every path.** -/
theorem relax_covers (hes : ∀ e ∈ edges, e ∈ es) {k : ℕ}
    (hk : ∀ n ≤ k, ∀ x v, Chain edges root budget n x v → Covers best x v)
    (hrounds : budget ≤ k + rounds) (h : Reaches edges root budget node b) :
    Covers (relax es rounds best) node b := by
  induction rounds generalizing best k with
  | zero =>
    obtain ⟨n, hn⟩ := h
    have hle := hn.add_le
    exact hk n (by omega) node b hn
  | succ rounds ih =>
    rw [relax]
    split_ifs with hchanged
    · refine ih (k := k + 1) (fun n hn x v hx => ?_) (by omega)
      -- a path of at most `k + 1` hops is one of at most `k`, and perhaps an edge
      cases hx with
      | start => exact (hk 0 k.zero_le _ _ .start).relaxRound es
      | hop hs hpos he => exact covers_relaxRound (hes _ he) (hk _ (by omega) _ _ hs) hpos
    · have hroot := (hk 0 k.zero_le _ _ .start).relaxRound es
      exact covers_of_closed hroot (fun e he rb hpos hc =>
        closed_of_quiet (Bool.eq_false_iff.2 hchanged) (hes e he) hpos hc) h

def bestBudgets (es : List (Edge K)) (root : K) (budget rounds : ℕ) : ExtTreeMap K ℕ :=
  relax es rounds ((∅ : ExtTreeMap K ℕ).insert root budget)

theorem bestBudgets_sound (hes : ∀ e ∈ es, e ∈ edges) (rounds : ℕ) :
    Sound edges root budget (bestBudgets es root budget rounds) := by
  refine relax_sound (fun x u hu => ?_) hes rounds
  rw [ExtTreeMap.getElem?_insert] at hu
  by_cases hx : root = x
  · obtain rfl : budget = u := by simpa [hx] using hu
    exact hx ▸ .start
  · simp [hx] at hu

theorem bestBudgets_covers (hes : ∀ e ∈ edges, e ∈ es) (hrounds : budget ≤ rounds)
    (h : Reaches edges root budget node b) : Covers (bestBudgets es root budget rounds) node b := by
  refine relax_covers (k := 0) hes (fun n hn x w hx => ?_) (by omega) h
  obtain rfl : n = 0 := Nat.le_zero.1 hn
  cases hx
  exact ⟨budget, by simp, le_rfl⟩

/-- **The relaxation finds the optimum.** -/
theorem bestBudgets_isBest (hes : ∀ e, e ∈ es ↔ e ∈ edges) (hrounds : budget ≤ rounds)
    : IsBest {b | Reaches edges root budget node b} (bestBudgets es root budget rounds)[node]? := by
  have hcovers : ∀ b, Reaches edges root budget node b →
      Covers (bestBudgets es root budget rounds) node b := fun b hb =>
    bestBudgets_covers (fun e => (hes e).2) hrounds hb
  cases hv : (bestBudgets es root budget rounds)[node]? with
  | none =>
    refine Set.eq_empty_of_forall_notMem fun b hb => ?_
    obtain ⟨w, hw, -⟩ := hcovers b hb
    rw [hv] at hw
    cases hw
  | some v =>
    refine ⟨bestBudgets_sound (fun e => (hes e).1) rounds node v hv, fun b hb => ?_⟩
    obtain ⟨w, hw, hle⟩ := hcovers b hb
    rwa [Option.some.inj (hv.symm.trans hw)]

end Lib.Budget
