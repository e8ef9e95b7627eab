import Mathlib

/-!
# Ordered maps: what the models need beyond the standard library

Every map of the programs modelled here is `Std.ExtTreeMap`: a finite map whose entries come out in
key order, with two maps equal exactly when they answer every lookup alike.
-/

namespace Lib.TreeMap

open Std

variable {K V : Type} [Ord K] [TransOrd K]

variable {m : ExtTreeMap K V} {k : K}

theorem mem_iff_exists_getElem? : k ∈ m ↔ ∃ v, m[k]? = some v := by
  rw [ExtTreeMap.mem_iff_isSome_getElem?, Option.isSome_iff_exists]

theorem nodup_toList (m : ExtTreeMap K V) : m.toList.Nodup := by
  refine ExtTreeMap.distinct_keys_toList.imp ?_
  rintro a b h rfl
  exact h ReflCmp.compare_self

variable [LawfulEqOrd K]

theorem eq_or_of_getElem?_insert {a : K} {v w : V} (h : (m.insert k v)[a]? = some w) :
    (a = k ∧ w = v) ∨ m[a]? = some w := by
  rw [ExtTreeMap.getElem?_insert] at h
  by_cases hk : k = a
  · subst hk
    exact .inl ⟨rfl, by simpa [eq_comm] using h⟩
  · exact .inr (by simpa [hk] using h)

theorem forall_insert_iff {P : V → Prop} (h : ∀ (k : K) (v : V), m[k]? = some v → P v) (k : K)
    (v : V) : (∀ (a : K) (w : V), (m.insert k v)[a]? = some w → P w) ↔ P v := by
  constructor
  · intro hall
    exact hall k v ExtTreeMap.getElem?_insert_self
  · intro hv a w hw
    rcases eq_or_of_getElem?_insert hw with ⟨-, rfl⟩ | hw
    · exact hv
    · exact h a w hw

theorem insertIfNew_of_none (h : m[k]? = none) (v : V) : m.insertIfNew k v = m.insert k v := by
  have hk : k ∉ m := by
    rw [ExtTreeMap.mem_iff_isSome_getElem?, h]
    simp
  refine ExtTreeMap.ext_getElem? fun a => ?_
  rw [ExtTreeMap.getElem?_insertIfNew, ExtTreeMap.getElem?_insert]
  by_cases ha : compare k a = .eq
  · rw [if_pos ⟨ha, hk⟩, if_pos ha]
  · rw [if_neg fun hboth => ha hboth.1, if_neg ha]

theorem insertIfNew_of_some {w : V} (h : m[k]? = some w) (v : V) : m.insertIfNew k v = m := by
  have hk : k ∈ m := by
    rw [ExtTreeMap.mem_iff_isSome_getElem?, h]
    rfl
  refine ExtTreeMap.ext_getElem? fun a => ?_
  rw [ExtTreeMap.getElem?_insertIfNew, if_neg fun hnew => hnew.2 hk]

/-! ## One entry more, one entry less -/

theorem toList_insert_perm (hk : k ∉ m) (v : V) :
    (m.insert k v).toList.Perm ((k, v) :: m.toList) := by
  have hnone : m[k]? = none := ExtTreeMap.getElem?_eq_none hk
  have hfresh : (k, v) ∉ m.toList := by
    simp [ExtTreeMap.mem_toList_iff_getElem?_eq_some, hnone]
  rw [List.perm_ext_iff_of_nodup (nodup_toList _) (List.nodup_cons.2 ⟨hfresh, nodup_toList m⟩)]
  rintro ⟨a, w⟩
  rw [List.mem_cons, ExtTreeMap.mem_toList_iff_getElem?_eq_some,
    ExtTreeMap.mem_toList_iff_getElem?_eq_some, ExtTreeMap.getElem?_insert]
  by_cases ha : k = a
  · subst ha
    simp [hnone, eq_comm]
  · simp [ha, Ne.symm ha]

theorem toList_erase_perm {v : V} (hk : m[k]? = some v) :
    m.toList.Perm ((k, v) :: (m.erase k).toList) := by
  have hgone : k ∉ m.erase k := by simp
  have hback : (m.erase k).insert k v = m := by
    refine ExtTreeMap.ext_getElem? fun a => ?_
    rw [ExtTreeMap.getElem?_insert, ExtTreeMap.getElem?_erase]
    by_cases ha : k = a
    · subst ha; simp [hk]
    · simp [ha]
  simpa [hback] using toList_insert_perm hgone v

/-! ## Counting values -/

def keysWhere [DecidableEq K] (m : ExtTreeMap K V) (p : V → Bool) : Finset K :=
  ((m.toList.filter fun e => p e.2).map Prod.fst).toFinset

theorem mem_keysWhere [DecidableEq K] {p : V → Bool} :
    k ∈ keysWhere m p ↔ ∃ v, m[k]? = some v ∧ p v = true := by
  simp [keysWhere]

omit [LawfulEqOrd K] in
/-- **Counting values counts keys.** -/
theorem card_keysWhere [DecidableEq K] (m : ExtTreeMap K V) (p : V → Bool) :
    (keysWhere m p).card = m.toList.countP fun e => p e.2 := by
  have hnd : ((m.toList.filter fun e => p e.2).map Prod.fst).Nodup := by
    have hkeys : (m.toList.map Prod.fst).Nodup := by
      rw [ExtTreeMap.map_fst_toList_eq_keys]
      exact ExtTreeMap.nodup_keys
    exact hkeys.sublist ((List.filter_sublist).map Prod.fst)
  rw [keysWhere, List.toFinset_card_of_nodup hnd, List.length_map, List.countP_eq_length_filter]

/-! ## Many entries at once -/

theorem getD_foldl_insert [DecidableEq K] (f : K → V) (ks : List K) (m : ExtTreeMap K V) (k : K)
    (fallback : V) :
    (ks.foldl (fun m k => m.insert k (f k)) m).getD k fallback =
      if k ∈ ks then f k else m.getD k fallback := by
  induction ks generalizing m with
  | nil => rfl
  | cons a ks ih =>
    rw [List.foldl_cons, ih, ExtTreeMap.getD_insert]
    by_cases hks : k ∈ ks
    · simp [hks]
    · by_cases ha : a = k
      · simp [hks, ha]
      · simp [hks, ha, Ne.symm ha]

theorem getElem?_foldl_insert_of_some [DecidableEq K] (f : K → Option V) (ks : List K)
    (m : ExtTreeMap K V) (k : K) :
    (ks.foldl (fun m k => (f k).elim m fun v => m.insert k v) m)[k]? =
      if k ∈ ks then (f k).or m[k]? else m[k]? := by
  induction ks generalizing m with
  | nil => rfl
  | cons a ks ih =>
    rw [List.foldl_cons, ih]
    by_cases ha : a = k
    · subst ha
      cases f a <;> simp
    · cases f a <;> simp [ha, Ne.symm ha, ExtTreeMap.getElem?_insert]

variable {es : List (K × V)}

theorem getElem?_foldl_insert_of_forall_ne (h : ∀ e ∈ es, e.1 ≠ k) :
    (es.foldl (fun m e => m.insert e.1 e.2) m)[k]? = m[k]? := by
  induction es generalizing m with
  | nil => rfl
  | cons e es ih =>
    rw [List.foldl_cons, ih fun x hx => h x (List.mem_cons_of_mem e hx), ExtTreeMap.getElem?_insert]
    simp [h e List.mem_cons_self]

theorem getElem?_foldl_insert_of_mem {v : V} (hmem : (k, v) ∈ es)
    (hunique : ∀ v', (k, v') ∈ es → v' = v) :
    (es.foldl (fun m e => m.insert e.1 e.2) m)[k]? = some v := by
  induction es generalizing m with
  | nil => cases hmem
  | cons e es ih =>
    rw [List.foldl_cons]
    by_cases hlater : (k, v) ∈ es
    · exact ih hlater fun v' h => hunique v' (List.mem_cons_of_mem e h)
    · obtain rfl : (k, v) = e := (List.mem_cons.1 hmem).resolve_right hlater
      have hother : ∀ e ∈ es, e.1 ≠ k := by
        rintro ⟨a, v'⟩ he rfl
        obtain rfl := hunique v' (List.mem_cons_of_mem _ he)
        exact hlater he
      rw [getElem?_foldl_insert_of_forall_ne hother, ExtTreeMap.getElem?_insert_self]

theorem getElem?_foldl_insert_empty_eq_some_iff {v : V}
    (hunique : ∀ v v', (k, v) ∈ es → (k, v') ∈ es → v = v') :
    (es.foldl (fun m e => m.insert e.1 e.2) (∅ : ExtTreeMap K V))[k]? = some v ↔ (k, v) ∈ es := by
  constructor
  · intro h
    by_cases hex : ∃ v', (k, v') ∈ es
    · obtain ⟨v', hv'⟩ := hex
      rw [getElem?_foldl_insert_of_mem hv' fun w hw => hunique w v' hw hv'] at h
      rwa [← Option.some.inj h]
    · rw [getElem?_foldl_insert_of_forall_ne (by rintro ⟨a, w⟩ hw rfl; exact hex ⟨w, hw⟩)] at h
      simp at h
  · intro h
    exact getElem?_foldl_insert_of_mem h fun w hw => hunique w v hw h

theorem getElem?_foldl_insert_toList (m' m : ExtTreeMap K V) (k : K) :
    (m'.toList.foldl (fun m e => m.insert e.1 e.2) m)[k]? = m'[k]?.or m[k]? := by
  cases hk : m'[k]? with
  | none =>
    refine getElem?_foldl_insert_of_forall_ne ?_
    rintro ⟨a, v⟩ he rfl
    rw [ExtTreeMap.mem_toList_iff_getElem?_eq_some, hk] at he
    cases he
  | some v =>
    refine getElem?_foldl_insert_of_mem (ExtTreeMap.mem_toList_iff_getElem?_eq_some.2 hk) ?_
    intro v' h
    rw [ExtTreeMap.mem_toList_iff_getElem?_eq_some, hk] at h
    exact (Option.some.inj h).symm

theorem getElem?_foldl_erase [DecidableEq K] (ks : List K) (m : ExtTreeMap K V) (k : K) :
    (ks.foldl (fun m k => m.erase k) m)[k]? = if k ∈ ks then none else m[k]? := by
  induction ks generalizing m with
  | nil => rfl
  | cons a ks ih =>
    rw [List.foldl_cons, ih, ExtTreeMap.getElem?_erase]
    by_cases ha : a = k
    · simp [ha]
    · simp [ha, Ne.symm ha]

end Lib.TreeMap
