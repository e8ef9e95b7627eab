import Pillar.Lib.LinkedMap
import Pillar.Lib.TreeMap

/-!
# Sorting a linked map by its links

A finite map whose values link to keys of it is listed so that every key comes after the
keys it links to: Kahn's algorithm, with the keys whose count is zero in a sorted list.

* `Greedy.eq_of_full` — **there is one such list.**
* `Drained.emit`, `sort_spec` — **one round keeps the counts and the sorted list right**, so the
  program returns the list.
-/

namespace Lib.Kahn

/-! ## Greedy lists -/

section Spec

variable {K : Type} {nodes : Set K} {dep le : K → K → Prop} {p l l' : List K} {k : K}

structure Ready (nodes : Set K) (dep : K → K → Prop) (p : List K) (k : K) : Prop where
  node : k ∈ nodes
  fresh : k ∉ p
  after : ∀ d, dep k d → d ∈ p

def Greedy (nodes : Set K) (dep le : K → K → Prop) (l : List K) : Prop :=
  ∀ p k, p ++ [k] <+: l → Ready nodes dep p k ∧ ∀ k', Ready nodes dep p k' → le k k'

def Full (nodes : Set K) (dep : K → K → Prop) (l : List K) : Prop := ∀ k, ¬ Ready nodes dep l k

theorem greedy_nil : Greedy nodes dep le [] := by
  intro p k h
  simp at h

theorem Greedy.concat (h : Greedy nodes dep le l) (hk : Ready nodes dep l k)
    (hleast : ∀ k', Ready nodes dep l k' → le k k') : Greedy nodes dep le (l ++ [k]) := by
  intro p a hp
  rcases List.prefix_concat_iff.1 hp with heq | hp
  · obtain ⟨rfl, ha⟩ := List.append_inj' heq rfl
    obtain rfl := List.singleton_inj.1 ha
    exact ⟨hk, hleast⟩
  · exact h p a hp

theorem Greedy.of_mem (h : Greedy nodes dep le l) (hk : k ∈ l) :
    k ∈ nodes ∧ ∀ d, dep k d → d ∈ l := by
  obtain ⟨p, s, rfl⟩ := List.append_of_mem hk
  have hready := (h p k ⟨s, by simp⟩).1
  exact ⟨hready.node, fun d hd => List.mem_append_left _ (hready.after d hd)⟩

theorem Greedy.nodup (h : Greedy nodes dep le l) : l.Nodup := by
  induction l using List.reverseRecOn with
  | nil => exact List.nodup_nil
  | append_singleton l a ih =>
    have hl : Greedy nodes dep le l := fun p k hp => h p k (hp.trans (List.prefix_append l [a]))
    rw [← List.concat_eq_append]
    exact (ih hl).concat (h l a (List.prefix_refl _)).1.fresh

theorem Greedy.prefix_of_full (hle : ∀ a ∈ nodes, ∀ b ∈ nodes, le a b → le b a → a = b)
    (h : Greedy nodes dep le l) (h' : Greedy nodes dep le l') (hfull : Full nodes dep l')
    (hp : p <+: l) : p <+: l' := by
  induction p using List.reverseRecOn with
  | nil => exact ⟨l', rfl⟩
  | append_singleton p a ih =>
    obtain ⟨s, rfl⟩ := ih ((List.prefix_append p [a]).trans hp)
    obtain ⟨ha, hleast⟩ := h p a hp
    cases s with
    | nil => exact absurd (by simpa using ha) (hfull a)
    | cons b s =>
      -- both lists have the least key at this position
      obtain ⟨hb, hleast'⟩ := h' p b ⟨s, by simp⟩
      obtain rfl := hle a ha.node b hb.node (hleast b hb) (hleast' a ha)
      exact ⟨s, by simp⟩

/-- **There is one greedy list that cannot be prolonged.** -/
theorem Greedy.eq_of_full (hle : ∀ a ∈ nodes, ∀ b ∈ nodes, le a b → le b a → a = b)
    (h : Greedy nodes dep le l) (hfull : Full nodes dep l) (h' : Greedy nodes dep le l')
    (hfull' : Full nodes dep l') : l = l' := by
  have hpre := h.prefix_of_full hle h' hfull' (List.prefix_refl l)
  have hpre' := h'.prefix_of_full hle h hfull (List.prefix_refl l')
  exact hpre.eq_of_length_le hpre'.length_le

theorem Full.mem_of_rank (rank : K → ℕ) (hfull : Full nodes dep l)
    (hrank : ∀ k ∈ nodes, ∀ d, dep k d → d ∈ nodes ∧ rank d < rank k) (hk : k ∈ nodes) : k ∈ l := by
  induction hn : rank k using Nat.strong_induction_on generalizing k with
  | _ n ih =>
    by_contra hnot
    refine hfull k ⟨hk, hnot, fun d hd => ?_⟩
    obtain ⟨hnode, hlt⟩ := hrank k hk d hd
    exact ih (rank d) (hn ▸ hlt) hnode rfl

end Spec

/-! ## Lists that grow by one -/

section Lists

variable {K S : Type} [LinearOrder S] {key : K → S}

theorem countP_concat_of_not_mem [DecidableEq K] {p ds : List K} {k : K} (hk : k ∉ ds) :
    ds.countP (fun d => d ∉ p ++ [k]) = ds.countP fun d => d ∉ p := by
  refine List.countP_congr fun d hd => ?_
  have hne : d ≠ k := fun heq => hk (heq ▸ hd)
  simp [hne]

theorem countP_concat_of_mem [DecidableEq K] {p ds : List K} {k : K} (hds : ds.Nodup)
    (hk : k ∈ ds) (hp : k ∉ p) :
    ds.countP (fun d => d ∉ p ++ [k]) + 1 = ds.countP fun d => d ∉ p := by
  obtain ⟨a, b, rfl⟩ := List.append_of_mem hk
  obtain ⟨-, hb, hab⟩ := List.nodup_append.1 hds
  have hka : k ∉ a := fun h => hab k h k List.mem_cons_self rfl
  have hkb : k ∉ b := (List.nodup_cons.1 hb).1
  rw [List.countP_append, List.countP_append, List.countP_cons, List.countP_cons,
    countP_concat_of_not_mem hka, countP_concat_of_not_mem hkb]
  simp [hp]
  omega

theorem perm_foldl_orderedInsert (key : K → S) (news ready : List K) :
    (news.foldl (fun ready c => ready.orderedInsert (fun a b => key a ≤ key b) c) ready).Perm
      (news ++ ready) := by
  induction news generalizing ready with
  | nil => exact .refl _
  | cons a news ih =>
    rw [List.foldl_cons]
    refine (ih _).trans ?_
    refine ((List.perm_orderedInsert _ a ready).append_left news).trans ?_
    exact List.perm_middle

theorem pairwise_foldl_orderedInsert (news : List K) {ready : List K}
    (h : ready.Pairwise fun a b => key a ≤ key b) :
    (news.foldl (fun ready c => ready.orderedInsert (fun a b => key a ≤ key b) c)
      ready).Pairwise fun a b => key a ≤ key b := by
  induction news generalizing ready with
  | nil => exact h
  | cons a news ih => exact ih (h.orderedInsert a ready)

end Lists

/-! ## The program -/

section Program

open Std LinkedMap

variable {K V : Type} [Ord K] [TransOrd K]

def deps (m : ExtTreeMap K V) (links : V → List K) (k : K) : List K :=
  (next m links k).filter fun d => m.contains d

/-- How many links of a key are not listed, and which keys link to it. -/
structure Counts (K : Type) [Ord K] where
  remaining : ExtTreeMap K ℕ
  dependents : ExtTreeMap K (List K)

def Counts.enter (c : Counts K) (k : K) (ds : List K) : Counts K where
  remaining := c.remaining.insert k ds.length
  dependents := ds.foldl (fun t d => t.insert d (t.getD d [] ++ [k])) c.dependents

def counts (m : ExtTreeMap K V) (links : V → List K) : Counts K :=
  m.keys.foldl (fun c k => c.enter k (deps m links k)) ⟨∅, ∅⟩

/-- One link of the key is listed: count it down, and note the key when it was the last. -/
def countDown (r : ExtTreeMap K ℕ × List K) (k : K) : ExtTreeMap K ℕ × List K :=
  match r.1[k]? with
  | none => r
  | some n => (r.1.insert k (n - 1), if n - 1 = 0 then r.2 ++ [k] else r.2)

structure State (K : Type) [Ord K] where
  /-- The number of links of a key that are not listed. -/
  remaining : ExtTreeMap K ℕ
  ready : List K
  order : List K

section

variable {S : Type} [LinearOrder S]

/-- List the first of the ready keys. -/
def emit (dependents : ExtTreeMap K (List K)) (key : K → S) (s : State K) (k : K)
    (ready : List K) : State K :=
  let r := (dependents.getD k []).foldl countDown (s.remaining, [])
  { remaining := r.1
    ready := r.2.foldl (fun ready c => ready.orderedInsert (fun a b => key a ≤ key b) c) ready
    order := s.order ++ [k] }

def drain (dependents : ExtTreeMap K (List K)) (key : K → S) : ℕ → State K → Option (List K)
  | fuel, s =>
    match s.ready with
    | [] => some s.order
    | k :: ready =>
      match fuel with
      | 0 => none
      | fuel + 1 => drain dependents key fuel (emit dependents key s k ready)

/-- The keys of the map, every key after those it links to, sorted by `key` as far as that
leaves a choice. -/
def sort (m : ExtTreeMap K V) (links : V → List K) (key : K → S) : Option (List K) :=
  let c := counts m links
  drain c.dependents key m.size
    { remaining := c.remaining
      ready := ((c.remaining.toList.filter fun e => e.2 = 0).map Prod.fst).insertionSort
        fun a b => key a ≤ key b
      order := [] }

end

/-! ## The counts -/

variable {m : ExtTreeMap K V} {links : V → List K}

theorem mem_deps {k d : K} : d ∈ deps m links k ↔ d ∈ next m links k ∧ d ∈ m := by
  rw [deps, List.mem_filter, ExtTreeMap.contains_iff_mem]

theorem mem_of_mem_deps {k d : K} (h : d ∈ deps m links k) : k ∈ m := by
  by_contra hk
  rw [mem_deps, next_of_not_mem links hk] at h
  exact List.not_mem_nil h.1

theorem nodup_deps (hlinks : ∀ v, (links v).Nodup) (k : K) : (deps m links k).Nodup := by
  refine List.Nodup.filter _ ?_
  rw [next]
  cases m[k]? with
  | none => exact List.nodup_nil
  | some v => exact hlinks v

/-- The key of the map can stand after the list `p`. -/
abbrev ReadyIn (m : ExtTreeMap K V) (links : V → List K) (p : List K) (k : K) : Prop :=
  Ready {k | k ∈ m} (fun k d => d ∈ deps m links k) p k

theorem ready_concat_iff {p : List K} {k c : K} :
    ReadyIn m links (p ++ [k]) c ↔
      k ∈ deps m links c ∧ ReadyIn m links (p ++ [k]) c ∨ c ≠ k ∧ ReadyIn m links p c := by
  constructor
  · intro hready
    by_cases hkc : k ∈ deps m links c
    · exact .inl ⟨hkc, hready⟩
    · obtain ⟨hnot, hne⟩ := not_or.1 (mt List.mem_append.2 hready.fresh)
      refine .inr ⟨mt List.mem_singleton.2 hne, hready.node, hnot, fun d hd => ?_⟩
      refine (List.mem_append.1 (hready.after d hd)).resolve_right fun hdk => ?_
      exact hkc (List.mem_singleton.1 hdk ▸ hd)
  · rintro (⟨-, hready⟩ | ⟨hne, hready⟩)
    · exact hready
    · refine ⟨hready.node, ?_, fun d hd => List.mem_append_left _ (hready.after d hd)⟩
      simpa [hne] using hready.fresh

variable [LawfulEqOrd K] [DecidableEq K]

theorem getElem?_remaining_foldl_enter (ds : K → List K) (ks : List K) (c : Counts K) (k : K) :
    (ks.foldl (fun c k => c.enter k (ds k)) c).remaining[k]? =
      if k ∈ ks then some (ds k).length else c.remaining[k]? := by
  induction ks generalizing c with
  | nil => rfl
  | cons a ks ih =>
    rw [List.foldl_cons, ih, Counts.enter, ExtTreeMap.getElem?_insert]
    by_cases hks : k ∈ ks
    · simp [hks]
    · by_cases ha : a = k
      · simp [ha]
      · simp [hks, ha, Ne.symm ha]

theorem getD_foldl_append (k : K) {ds : List K} (hds : ds.Nodup) (t : ExtTreeMap K (List K))
    (d : K) :
    (ds.foldl (fun t d => t.insert d (t.getD d [] ++ [k])) t).getD d [] =
      t.getD d [] ++ if d ∈ ds then [k] else [] := by
  induction ds generalizing t with
  | nil => simp
  | cons a ds ih =>
    obtain ⟨ha, hds⟩ := List.nodup_cons.1 hds
    rw [List.foldl_cons, ih hds, ExtTreeMap.getD_insert]
    by_cases hd : a = d
    · subst hd
      simp [ha]
    · simp [hd, Ne.symm hd]

theorem getD_dependents_foldl_enter {ds : K → List K} (hds : ∀ k, (ds k).Nodup) (ks : List K)
    (c : Counts K) (d : K) :
    (ks.foldl (fun c k => c.enter k (ds k)) c).dependents.getD d [] =
      c.dependents.getD d [] ++ ks.filter fun k => d ∈ ds k := by
  induction ks generalizing c with
  | nil => simp
  | cons a ks ih =>
    rw [List.foldl_cons, ih, Counts.enter, getD_foldl_append a (hds a), List.filter_cons]
    by_cases hd : d ∈ ds a <;> simp [hd]

theorem getElem?_remaining_counts (k : K) :
    (counts m links).remaining[k]? = if k ∈ m then some (deps m links k).length else none := by
  rw [counts, getElem?_remaining_foldl_enter]
  simp

theorem dependents_counts (hlinks : ∀ v, (links v).Nodup) (d : K) :
    (counts m links).dependents.getD d [] = m.keys.filter fun k => d ∈ deps m links k := by
  rw [counts, getD_dependents_foldl_enter (nodup_deps hlinks)]
  simp

theorem mem_dependents_counts (hlinks : ∀ v, (links v).Nodup) {k d : K} :
    k ∈ (counts m links).dependents.getD d [] ↔ d ∈ deps m links k := by
  rw [dependents_counts hlinks, List.mem_filter, ExtTreeMap.mem_keys, decide_eq_true_iff]
  exact ⟨And.right, fun h => ⟨mem_of_mem_deps h, h⟩⟩

theorem nodup_dependents_counts (hlinks : ∀ v, (links v).Nodup) (d : K) :
    ((counts m links).dependents.getD d []).Nodup := by
  rw [dependents_counts hlinks]
  exact ExtTreeMap.nodup_keys.filter _

theorem remaining_counts_eq_zero_iff {k : K} :
    (counts m links).remaining[k]? = some 0 ↔ ReadyIn m links [] k := by
  rw [getElem?_remaining_counts]
  constructor
  · intro hzero
    split_ifs at hzero with hk
    have hnil : deps m links k = [] := List.length_eq_zero_iff.1 (Option.some.inj hzero)
    exact ⟨hk, by simp, by simp [hnil]⟩
  · intro hready
    have hnil : deps m links k = [] :=
      List.eq_nil_iff_forall_not_mem.2 fun d hd => List.not_mem_nil (hready.after d hd)
    have hk : k ∈ m := hready.node
    rw [if_pos hk, hnil, List.length_nil]

/-! ## Counting down -/

theorem foldl_countDown {ks : List K} (hks : ks.Nodup) (r : ExtTreeMap K ℕ) (acc : List K) :
    (∀ k, (ks.foldl countDown (r, acc)).1[k]? = if k ∈ ks then r[k]?.map (· - 1) else r[k]?) ∧
      (ks.foldl countDown (r, acc)).2 = acc ++ ks.filter fun k => r[k]?.map (· - 1) = some 0 := by
  induction ks generalizing r acc with
  | nil => simp
  | cons a ks ih =>
    obtain ⟨ha, hks⟩ := List.nodup_cons.1 hks
    rw [List.foldl_cons]
    cases hr : r[a]? with
    | none =>
      rw [countDown, hr]
      obtain ⟨hcount, hnoted⟩ := ih hks r acc
      refine ⟨fun k => ?_, by simp [hnoted, hr]⟩
      rw [hcount]
      by_cases hk : k = a
      · subst hk
        simp [ha, hr]
      · simp [hk]
    | some n =>
      rw [countDown, hr]
      obtain ⟨hcount, hnoted⟩ := ih hks (r.insert a (n - 1)) (if n - 1 = 0 then acc ++ [a] else acc)
      have hother : ∀ k ∈ ks, (r.insert a (n - 1))[k]? = r[k]? := by
        intro k hk
        have hne : a ≠ k := fun heq => ha (heq ▸ hk)
        simp [ExtTreeMap.getElem?_insert, hne]
      refine ⟨fun k => ?_, ?_⟩
      · rw [hcount, ExtTreeMap.getElem?_insert]
        by_cases hk : k = a
        · subst hk
          simp [ha, hr]
        · simp [hk, Ne.symm hk]
      · rw [hnoted, List.filter_congr fun k hk => by rw [hother k hk], List.filter_cons, hr]
        by_cases hn : n - 1 = 0 <;> simp [hn]

/-! ## The loop -/

section

variable {S : Type} [LinearOrder S] {key : K → S} {s : State K}

/-- The loop is at the position after `s.order`: that is greedy, every key has the count of its
links that are not listed, and the ready keys are those that can stand there. -/
structure Drained (m : ExtTreeMap K V) (links : V → List K) (key : K → S) (s : State K) : Prop where
  greedy : Greedy {k | k ∈ m} (fun k d => d ∈ deps m links k) (fun a b => key a ≤ key b) s.order
  remaining : ∀ k : K, s.remaining[k]? =
    if k ∈ m then some ((deps m links k).countP fun d => d ∉ s.order) else none
  sorted : s.ready.Pairwise fun a b => key a ≤ key b
  nodup : s.ready.Nodup
  ready_iff : ∀ k, k ∈ s.ready ↔ ReadyIn m links s.order k

theorem Drained.length_le (h : Drained m links key s) : s.order.length ≤ m.size := by
  rw [← ExtTreeMap.length_keys]
  refine (List.subperm_of_subset h.greedy.nodup fun k hk => ?_).length_le
  exact ExtTreeMap.mem_keys.2 (h.greedy.of_mem hk).1

theorem Drained.start (key : K → S) :
    Drained m links key
      { remaining := (counts m links).remaining
        ready := (((counts m links).remaining.toList.filter fun e => e.2 = 0).map
          Prod.fst).insertionSort fun a b => key a ≤ key b
        order := [] } where
  greedy := greedy_nil
  remaining := by
    intro k
    rw [getElem?_remaining_counts]
    simp
  sorted := List.pairwise_insertionSort _ _
  nodup := by
    refine (List.perm_insertionSort _ _).nodup_iff.2 ?_
    refine List.Nodup.sublist ((List.filter_sublist).map Prod.fst) ?_
    rw [ExtTreeMap.map_fst_toList_eq_keys]
    exact ExtTreeMap.nodup_keys
  ready_iff := by
    intro k
    rw [(List.perm_insertionSort _ _).mem_iff]
    simp only [List.mem_map, List.mem_filter, decide_eq_true_eq, Prod.exists, exists_and_right,
      exists_eq_right, ExtTreeMap.mem_toList_iff_getElem?_eq_some]
    exact remaining_counts_eq_zero_iff

section

variable {k : K} {ready : List K}

theorem noted_iff (hlinks : ∀ v, (links v).Nodup) (h : Drained m links key s)
    (hk : ReadyIn m links s.order k) {c : K} :
    c ∈ (((counts m links).dependents.getD k []).filter
        fun c => s.remaining[c]?.map (· - 1) = some 0) ↔
      k ∈ deps m links c ∧
        ReadyIn m links (s.order ++ [k]) c := by
  rw [List.mem_filter, mem_dependents_counts hlinks, decide_eq_true_iff]
  refine and_congr_right fun hkc => ?_
  have hcount := countP_concat_of_mem (nodup_deps hlinks c) hkc hk.fresh
  rw [h.remaining, if_pos (mem_of_mem_deps hkc), Option.map_some, Option.some.injEq, ← hcount,
    Nat.add_sub_cancel, List.countP_eq_zero]
  simp only [decide_eq_true_eq, not_not]
  refine ⟨fun hall => ⟨mem_of_mem_deps hkc, fun hc => ?_, hall⟩, fun hready => hready.after⟩
  -- a listed key has its links listed, and `k` is not
  rcases List.mem_append.1 hc with hc | hc
  · exact hk.fresh ((h.greedy.of_mem hc).2 k hkc)
  · rw [List.mem_singleton.1 hc] at hkc
    exact hk.fresh (hk.after k hkc)

omit [LawfulEqOrd K] in
theorem Drained.mem_rest_iff (h : Drained m links key s) (hready : s.ready = k :: ready) {c : K} :
    c ∈ ready ↔ c ≠ k ∧ ReadyIn m links s.order c := by
  have hknew := (List.nodup_cons.1 (hready ▸ h.nodup)).1
  rw [← h.ready_iff, hready, List.mem_cons]
  refine ⟨fun hc => ⟨fun heq => hknew (heq ▸ hc), Or.inr hc⟩, ?_⟩
  rintro ⟨hne, heq | hc⟩
  · exact absurd heq hne
  · exact hc

theorem Drained.remaining_concat (hlinks : ∀ v, (links v).Nodup) (h : Drained m links key s)
    (hk : ReadyIn m links s.order k) (c : K) :
    (if c ∈ (counts m links).dependents.getD k [] then s.remaining[c]?.map (· - 1)
        else s.remaining[c]?) =
      if c ∈ m then some ((deps m links c).countP fun d => d ∉ s.order ++ [k]) else none := by
  rw [h.remaining]
  by_cases hkc : k ∈ deps m links c
  · have hdown := countP_concat_of_mem (nodup_deps hlinks c) hkc hk.fresh
    have hc := mem_of_mem_deps hkc
    rw [if_pos ((mem_dependents_counts hlinks).2 hkc), if_pos hc, if_pos hc, Option.map_some,
      ← hdown, Nat.add_sub_cancel]
  · rw [if_neg (mt (mem_dependents_counts hlinks).1 hkc), countP_concat_of_not_mem hkc]

/-- **One round keeps the counts and the sorted list right.** -/
theorem Drained.emit (hlinks : ∀ v, (links v).Nodup) (h : Drained m links key s)
    (hready : s.ready = k :: ready) :
    Drained m links key (emit (counts m links).dependents key s k ready) := by
  have hk := (h.ready_iff k).1 (hready ▸ List.mem_cons_self)
  obtain ⟨hleast, hsorted⟩ := List.pairwise_cons.1 (hready ▸ h.sorted)
  have hnodup := (List.nodup_cons.1 (hready ▸ h.nodup)).2
  have hdependents := nodup_dependents_counts (m := m) hlinks k
  obtain ⟨hcount, hnoted⟩ := foldl_countDown hdependents s.remaining []
  rw [Kahn.emit, hnoted, List.nil_append]
  have hperm := perm_foldl_orderedInsert key
    (((counts m links).dependents.getD k []).filter
      fun c => s.remaining[c]?.map (· - 1) = some 0) ready
  constructor
  case greedy =>
    refine h.greedy.concat hk fun c hc => ?_
    rcases List.mem_cons.1 (hready ▸ (h.ready_iff c).2 hc) with rfl | hc
    · exact le_rfl
    · exact hleast c hc
  case remaining =>
    intro c
    rw [hcount]
    exact h.remaining_concat hlinks hk c
  case sorted => exact pairwise_foldl_orderedInsert _ hsorted
  case nodup =>
    refine hperm.nodup_iff.2 (List.nodup_append.2 ⟨hdependents.filter _, hnodup, ?_⟩)
    rintro c hc _ hc' rfl
    -- what was ready before does not link to `k`, which was not listed
    exact hk.fresh (((h.mem_rest_iff hready).1 hc').2.after k ((noted_iff hlinks h hk).1 hc).1)
  case ready_iff =>
    intro c
    rw [hperm.mem_iff, List.mem_append, noted_iff hlinks h hk, h.mem_rest_iff hready,
      ← ready_concat_iff]

end

omit [LawfulEqOrd K] in
theorem Drained.full (h : Drained m links key s) (hready : s.ready = []) :
    Full {k | k ∈ m} (fun k d => d ∈ deps m links k) s.order := by
  intro k hk
  have hmem := (h.ready_iff k).2 hk
  rw [hready] at hmem
  exact List.not_mem_nil hmem

theorem drain_spec (hlinks : ∀ v, (links v).Nodup) {fuel : ℕ} (h : Drained m links key s)
    (hfuel : m.size ≤ s.order.length + fuel) :
    ∃ l, drain (counts m links).dependents key fuel s = some l ∧
      Greedy {k | k ∈ m} (fun k d => d ∈ deps m links k) (fun a b => key a ≤ key b) l ∧
      Full {k | k ∈ m} (fun k d => d ∈ deps m links k) l := by
  induction fuel generalizing s with
  | zero =>
    cases hready : s.ready with
    | nil => exact ⟨s.order, by rw [drain, hready], h.greedy, h.full hready⟩
    | cons k ready =>
      -- another round would list more keys than there are
      have hle := (h.emit hlinks hready).length_le
      rw [Kahn.emit, List.length_append, List.length_singleton] at hle
      omega
  | succ fuel ih =>
    cases hready : s.ready with
    | nil => exact ⟨s.order, by rw [drain, hready], h.greedy, h.full hready⟩
    | cons k ready =>
      rw [drain, hready]
      refine ih (h.emit hlinks hready) ?_
      rw [Kahn.emit, List.length_append, List.length_singleton]
      omega

/-- **The program returns the greedy list of the map.** -/
theorem sort_spec (hlinks : ∀ v, (links v).Nodup) (key : K → S) :
    ∃ l, sort m links key = some l ∧
      Greedy {k | k ∈ m} (fun k d => d ∈ deps m links k) (fun a b => key a ≤ key b) l ∧
      Full {k | k ∈ m} (fun k d => d ∈ deps m links k) l :=
  drain_spec hlinks (.start key) (by simp)

end

end Program

end Lib.Kahn
