import Pillar.Lib.Runs
import Pillar.Manifest.Schema

/-!
# Reconciling a cell with a repository

`pillar-manifest`'s reconciler: the manifests of a repository, one at each path, are applied to a
cell, and what was applied from a path that is gone is deleted.

* `matches_reconcile_iff` — **a pass leads to the repository precisely if the paths keep track of
  the objects**; `gitops_converges` — every pass of a sequence does, and a pass that fails changes
  nothing.
-/

namespace Pillar.Manifest

open Lib.Runs
open Std (ExtTreeMap)

/-! ## Hooks -/

inductive ReconcileOutcome where
  | reconciled
  | failed (reason : String)
  deriving DecidableEq

/-- What a kind does to the cell `σ`. -/
structure ControllerHook (σ : Type) where
  reconcile : σ → Crd → ReconcileOutcome × σ
  delete : σ → Crd → ReconcileOutcome × σ

/-- The hooks that are registered. -/
structure ControllerRegistry (σ : Type) where
  hooks : Str × Str → Option (ControllerHook σ)

namespace ControllerRegistry

variable {σ : Type} (controllers : ControllerRegistry σ)

def contains (crd : Crd) : Bool := (controllers.hooks (crd.apiVersion, crd.kind)).isSome

def dispatch (cell : σ) (crd : Crd) : Option (ReconcileOutcome × σ) :=
  (controllers.hooks (crd.apiVersion, crd.kind)).map fun hook => hook.reconcile cell crd

def delete (cell : σ) (crd : Crd) : ReconcileOutcome × σ :=
  match controllers.hooks (crd.apiVersion, crd.kind) with
  | some hook => hook.delete cell crd
  | none =>
    (.failed ("no controller registered to prune " ++ kindText crd.apiVersion crd.kind), cell)

end ControllerRegistry

/-! ## The reconciler -/

abbrev ManifestPath := String

/-- The repository at one revision. -/
structure ManifestSource where
  revision : String
  manifests : ExtTreeMap ManifestPath Crd

inductive ChangeKind where
  | applied
  | updated
  | unchanged
  | pruned
  | orphanRetained
  deriving DecidableEq

structure PathOutcome where
  path : ManifestPath
  change : ChangeKind
  outcome : Option ReconcileOutcome
  deriving DecidableEq

structure ReconcileReport where
  outcomes : List PathOutcome
  deriving DecidableEq

inductive ReconcileError where
  | invalid (path : ManifestPath) (error : SchemaError)
  | noController (path : ManifestPath) (kind : String)
  deriving DecidableEq

structure Reconciler where
  schemas : SchemaRegistry
  prune : Bool
  applied : ExtTreeMap ManifestPath Crd

namespace Reconciler

variable {σ : Type}

def new (schemas : SchemaRegistry) : Reconciler := ⟨schemas, true, ∅⟩

def refusal (r : Reconciler) (controllers : ControllerRegistry σ) (path : ManifestPath)
    (crd : Crd) : Option ReconcileError :=
  match r.schemas.validate crd with
  | .error e => some (.invalid path e)
  | .ok () =>
    if !controllers.contains crd then
      some (.noController path (kindText crd.apiVersion crd.kind))
    else none

def changeOf (r : Reconciler) (path : ManifestPath) (crd : Crd) : ChangeKind :=
  match r.applied[path]? with
  | none => .applied
  | some prev => if prev = crd then .unchanged else .updated

/-- One manifest is applied. There is a hook: that was checked before. -/
def applyOne (r : Reconciler) (controllers : ControllerRegistry σ) (acc : List PathOutcome × σ)
    (entry : ManifestPath × Crd) : List PathOutcome × σ :=
  match controllers.dispatch acc.2 entry.2 with
  | some (outcome, cell) =>
    (acc.1 ++ [⟨entry.1, r.changeOf entry.1 entry.2, some outcome⟩], cell)
  | none => acc

def pruneOne (r : Reconciler) (controllers : ControllerRegistry σ) (acc : List PathOutcome × σ)
    (entry : ManifestPath × Crd) : List PathOutcome × σ :=
  if r.prune then
    let (outcome, cell) := controllers.delete acc.2 entry.2
    (acc.1 ++ [⟨entry.1, .pruned, some outcome⟩], cell)
  else (acc.1 ++ [⟨entry.1, .orphanRetained, none⟩], acc.2)

/-- What was applied from paths that are gone. -/
def removed (r : Reconciler) (source : ManifestSource) : List (ManifestPath × Crd) :=
  r.applied.toList.filter fun entry => !source.manifests.contains entry.1

def reconcile (r : Reconciler) (source : ManifestSource) (controllers : ControllerRegistry σ)
    (cell : σ) : Except ReconcileError ReconcileReport × Reconciler × σ :=
  match source.manifests.toList.findSome? fun (path, crd) => r.refusal controllers path crd with
  | some e => (.error e, r, cell)
  | none =>
    let applied := source.manifests.toList.foldl (r.applyOne controllers) ([], cell)
    let pruned := (r.removed source).foldl (r.pruneOne controllers) applied
    (.ok ⟨pruned.1.mergeSort fun a b => decide (a.path ≤ b.path)⟩,
      { r with applied := source.manifests }, pruned.2)

theorem reconcile_of_error {r : Reconciler} {source : ManifestSource}
    {controllers : ControllerRegistry σ} {cell : σ} {e : ReconcileError}
    (h : (r.reconcile source controllers cell).1 = .error e) :
    (r.reconcile source controllers cell).2 = (r, cell) := by
  rw [reconcile] at h ⊢
  split at h
  · rfl
  · cases h

theorem reconcile_of_ok {r : Reconciler} {source : ManifestSource}
    {controllers : ControllerRegistry σ} {cell : σ} {report : ReconcileReport}
    (h : (r.reconcile source controllers cell).1 = .ok report) :
    (∀ entry ∈ source.manifests.toList, controllers.contains entry.2 = true) ∧
      (r.reconcile source controllers cell).2 = ({ r with applied := source.manifests },
        ((r.removed source).foldl (r.pruneOne controllers)
          (source.manifests.toList.foldl (r.applyOne controllers) ([], cell))).2) := by
  rw [reconcile] at h ⊢
  split at h
  · cases h
  · next heq =>
    refine ⟨fun entry hentry => ?_, rfl⟩
    have hnone := List.findSome?_eq_none_iff.1 heq entry hentry
    simp only [refusal] at hnone
    split at hnone
    · cases hnone
    · by_contra hnot
      simp [hnot] at hnone

end Reconciler

/-! ## A cell that is a map of objects -/

abbrev Objects := ManifestKey → Option Crd

def put (cell : Objects) (crd : Crd) : Objects :=
  Function.update cell (ManifestKey.of crd) (some crd)

def drop (cell : Objects) (crd : Crd) : Objects := Function.update cell (ManifestKey.of crd) none

def mapHook : ControllerHook Objects where
  reconcile cell crd := (.reconciled, put cell crd)
  delete cell crd := (.reconciled, drop cell crd)

def mapRegistry (kinds : Finset (Str × Str)) : ControllerRegistry Objects where
  hooks k := if k ∈ kinds then some mapHook else none

variable {kinds : Finset (Str × Str)}

theorem contains_mapRegistry {crd : Crd} :
    (mapRegistry kinds).contains crd = true ↔ (crd.apiVersion, crd.kind) ∈ kinds := by
  by_cases h : (crd.apiVersion, crd.kind) ∈ kinds <;>
    simp [mapRegistry, ControllerRegistry.contains, h]

theorem foldl_applyOne (r : Reconciler) (l : List (ManifestPath × Crd))
    (hl : ∀ entry ∈ l, (mapRegistry kinds).contains entry.2 = true)
    (acc : List PathOutcome × Objects) :
    (l.foldl (r.applyOne (mapRegistry kinds)) acc).2 = (l.map Prod.snd).foldl put acc.2 := by
  induction l generalizing acc with
  | nil => rfl
  | cons entry l ih =>
    have hkind := contains_mapRegistry.1 (hl entry List.mem_cons_self)
    rw [List.foldl_cons, ih fun e he => hl e (List.mem_cons_of_mem entry he)]
    simp [Reconciler.applyOne, ControllerRegistry.dispatch, mapRegistry, mapHook, hkind]

theorem foldl_pruneOne {r : Reconciler} (hprune : r.prune = true) (l : List (ManifestPath × Crd))
    (hl : ∀ entry ∈ l, (mapRegistry kinds).contains entry.2 = true)
    (acc : List PathOutcome × Objects) :
    (l.foldl (r.pruneOne (mapRegistry kinds)) acc).2 = (l.map Prod.snd).foldl drop acc.2 := by
  induction l generalizing acc with
  | nil => rfl
  | cons entry l ih =>
    have hkind := contains_mapRegistry.1 (hl entry List.mem_cons_self)
    rw [List.foldl_cons, ih fun e he => hl e (List.mem_cons_of_mem entry he)]
    simp [Reconciler.pruneOne, ControllerRegistry.delete, mapRegistry, mapHook, hkind, hprune]

theorem foldl_put_of_ne {l : List Crd} {key : ManifestKey} (h : ∀ crd ∈ l, ManifestKey.of crd ≠ key)
    (cell : Objects) : l.foldl put cell key = cell key := by
  induction l generalizing cell with
  | nil => rfl
  | cons crd l ih =>
    rw [List.foldl_cons, ih fun c hc => h c (List.mem_cons_of_mem crd hc)]
    exact Function.update_of_ne (h crd List.mem_cons_self).symm _ _

theorem foldl_put_of_mem {l : List Crd} {crd : Crd} (hcrd : crd ∈ l)
    (h : ∀ c ∈ l, ManifestKey.of c = ManifestKey.of crd → c = crd) (cell : Objects) :
    l.foldl put cell (ManifestKey.of crd) = some crd := by
  induction l generalizing cell with
  | nil => cases hcrd
  | cons c l ih =>
    rw [List.foldl_cons]
    by_cases hmem : crd ∈ l
    · exact ih hmem (fun d hd => h d (List.mem_cons_of_mem c hd)) _
    · obtain rfl : c = crd := ((List.mem_cons.1 hcrd).resolve_right hmem).symm
      rw [foldl_put_of_ne]
      · exact Function.update_self _ _ _
      · intro d hd hkey
        exact hmem (h d (List.mem_cons_of_mem c hd) hkey ▸ hd)

theorem foldl_drop (l : List Crd) (cell : Objects) (key : ManifestKey) :
    l.foldl drop cell key = if key ∈ l.map ManifestKey.of then none else cell key := by
  induction l generalizing cell with
  | nil => simp
  | cons crd l ih =>
    rw [List.foldl_cons, ih]
    by_cases hkey : key = ManifestKey.of crd
    · subst hkey
      simp [drop]
    · simp [drop, hkey]

/-! ## Paths and objects -/

def Declares (manifests : ExtTreeMap ManifestPath Crd) (key : ManifestKey) : Prop :=
  ∃ (path : ManifestPath) (crd : Crd), manifests[path]? = some crd ∧ ManifestKey.of crd = key

def Distinct (manifests : ExtTreeMap ManifestPath Crd) : Prop :=
  ∀ (p q : ManifestPath) (a b : Crd), manifests[p]? = some a → manifests[q]? = some b →
    ManifestKey.of a = ManifestKey.of b → p = q

def Matches (cell : Objects) (manifests : ExtTreeMap ManifestPath Crd) : Prop :=
  ∀ key crd, cell key = some crd ↔ ManifestKey.of crd = key ∧ ∃ path : ManifestPath,
    manifests[path]? = some crd

def Tracks (applied manifests : ExtTreeMap ManifestPath Crd) : Prop :=
  ∀ (path : ManifestPath) (crd : Crd), applied[path]? = some crd →
    (manifests.contains path = true ↔ Declares manifests (ManifestKey.of crd))

abbrev Managed := Reconciler × Objects

def pass (kinds : Finset (Str × Str)) (s : Managed) (source : ManifestSource) : Managed :=
  (s.1.reconcile source (mapRegistry kinds) s.2).2

def Passes (kinds : Finset (Str × Str)) (s : Managed) (source : ManifestSource) : Prop :=
  ∃ report, (s.1.reconcile source (mapRegistry kinds) s.2).1 = .ok report

instance (kinds : Finset (Str × Str)) (s : Managed) (source : ManifestSource) :
    Decidable (Passes kinds s source) :=
  match h : (s.1.reconcile source (mapRegistry kinds) s.2).1 with
  | .ok report => isTrue ⟨report, h⟩
  | .error _ => isFalse fun ⟨_, hok⟩ => by rw [h] at hok; cases hok

/-- Manifests are deleted, there is a hook for each, and no two of them are about one object. -/
structure Regular (kinds : Finset (Str × Str)) (s : Managed) : Prop where
  prune : s.1.prune = true
  controlled : ∀ (path : ManifestPath) (crd : Crd), s.1.applied[path]? = some crd →
    (mapRegistry kinds).contains crd = true
  distinct : Distinct s.1.applied

section Pass

variable {s : Managed} {source : ManifestSource}

theorem pass_of_not_passes (h : ¬ Passes kinds s source) : pass kinds s source = s := by
  cases hresult : (s.1.reconcile source (mapRegistry kinds) s.2).1 with
  | error e => exact Reconciler.reconcile_of_error hresult
  | ok report => exact absurd ⟨report, hresult⟩ h

theorem applied_step (h : Passes kinds s source) :
    (pass kinds s source).1.applied = source.manifests := by
  obtain ⟨report, hok⟩ := h
  rw [pass, (Reconciler.reconcile_of_ok hok).2]

theorem regular_step (hs : Regular kinds s) (hsource : Distinct source.manifests) :
    Regular kinds (pass kinds s source) := by
  by_cases h : Passes kinds s source
  · obtain ⟨report, hok⟩ := h
    obtain ⟨hcontrolled, hstep⟩ := Reconciler.reconcile_of_ok hok
    rw [pass, hstep]
    refine ⟨hs.prune, fun path crd hcrd => ?_, hsource⟩
    exact hcontrolled (path, crd) (ExtTreeMap.mem_toList_iff_getElem?_eq_some.2 hcrd)
  · rwa [pass_of_not_passes h]

/-- The pass deletes the object: it was declared by a path that is gone. -/
def Deletes (s : Managed) (source : ManifestSource) (key : ManifestKey) : Prop :=
  ∃ (path : ManifestPath) (crd : Crd), s.1.applied[path]? = some crd ∧
    source.manifests.contains path = false ∧ ManifestKey.of crd = key

variable {key : ManifestKey}

theorem mem_removed_iff :
    key ∈ ((s.1.removed source).map Prod.snd).map ManifestKey.of ↔ Deletes s source key := by
  simp only [Reconciler.removed, List.map_map, List.mem_map, List.mem_filter, Prod.exists,
    ExtTreeMap.mem_toList_iff_getElem?_eq_some, Function.comp_apply, Bool.not_eq_true', and_assoc,
    Deletes]

theorem cell_step (hs : Regular kinds s) (h : Passes kinds s source) :
    (pass kinds s source).2 = ((s.1.removed source).map Prod.snd).foldl drop
      ((source.manifests.toList.map Prod.snd).foldl put s.2) := by
  obtain ⟨report, hok⟩ := h
  obtain ⟨hcontrolled, hstep⟩ := Reconciler.reconcile_of_ok hok
  have hremoved : ∀ entry ∈ s.1.removed source, (mapRegistry kinds).contains entry.2 = true := by
    intro entry hentry
    exact hs.controlled entry.1 entry.2
      (ExtTreeMap.mem_toList_iff_getElem?_eq_some.1 (List.mem_of_mem_filter hentry))
  rw [pass, hstep, foldl_pruneOne hs.prune _ hremoved, foldl_applyOne _ _ hcontrolled]

theorem cell_step_of_deletes (hs : Regular kinds s) (h : Passes kinds s source)
    (hkey : Deletes s source key) : (pass kinds s source).2 key = none := by
  rw [cell_step hs h, foldl_drop, if_pos (mem_removed_iff.2 hkey)]

theorem cell_step_of_not_deletes (hs : Regular kinds s) (h : Passes kinds s source)
    (hkey : ¬ Deletes s source key) :
    (pass kinds s source).2 key =
      (source.manifests.toList.map Prod.snd).foldl put s.2 key := by
  rw [cell_step hs h, foldl_drop, if_neg (mt mem_removed_iff.1 hkey)]

theorem foldl_put_of_declared (hsource : Distinct source.manifests) {path : ManifestPath}
    {crd : Crd} (hcrd : source.manifests[path]? = some crd) (cell : Objects) :
    (source.manifests.toList.map Prod.snd).foldl put cell (ManifestKey.of crd) = some crd := by
  refine foldl_put_of_mem ?_ ?_ cell
  · exact List.mem_map.2 ⟨(path, crd), ExtTreeMap.mem_toList_iff_getElem?_eq_some.2 hcrd, rfl⟩
  · intro c hc hkey
    obtain ⟨⟨q, d⟩, hq, rfl⟩ := List.mem_map.1 hc
    have hd := ExtTreeMap.mem_toList_iff_getElem?_eq_some.1 hq
    obtain rfl := hsource q path d crd hd hcrd hkey
    exact Option.some.inj (hd.symm.trans hcrd)

theorem foldl_put_of_not_declared (h : ¬ Declares source.manifests key) (cell : Objects) :
    (source.manifests.toList.map Prod.snd).foldl put cell key = cell key := by
  refine foldl_put_of_ne ?_ cell
  rintro c hc rfl
  obtain ⟨⟨q, d⟩, hq, rfl⟩ := List.mem_map.1 hc
  exact h ⟨q, d, ExtTreeMap.mem_toList_iff_getElem?_eq_some.1 hq, rfl⟩

variable (hs : Regular kinds s) (hmatches : Matches s.2 s.1.applied)
  (hpasses : Passes kinds s source)

include hs hmatches hpasses

theorem matches_of_tracks (hsource : Distinct source.manifests)
    (htracks : Tracks s.1.applied source.manifests) :
    Matches (pass kinds s source).2 source.manifests := by
  intro key crd
  by_cases hdeclared : Declares source.manifests key
  · -- nothing that is declared is deleted
    rw [cell_step_of_not_deletes hs hpasses]
    · obtain ⟨path, c, hc, rfl⟩ := hdeclared
      rw [foldl_put_of_declared hsource hc, Option.some.injEq]
      constructor
      · rintro rfl
        exact ⟨rfl, path, hc⟩
      · rintro ⟨hkey, q, hq⟩
        obtain rfl := hsource path q c crd hc hq hkey.symm
        exact Option.some.inj (hc.symm.trans hq)
    · rintro ⟨path, c, hc, hgone, rfl⟩
      rw [(htracks path c hc).2 hdeclared] at hgone
      cases hgone
  · refine iff_of_false ?_ ?_
    · -- what is not declared was not there, or is deleted
      intro hthere
      by_cases hdeletes : Deletes s source key
      · rw [cell_step_of_deletes hs hpasses hdeletes] at hthere
        cases hthere
      · rw [cell_step_of_not_deletes hs hpasses hdeletes, foldl_put_of_not_declared hdeclared,
          hmatches] at hthere
        obtain ⟨rfl, path, hpath⟩ := hthere
        refine hdeletes ⟨path, crd, hpath, ?_, rfl⟩
        exact Bool.eq_false_iff.2 fun hthere => hdeclared ((htracks path crd hpath).1 hthere)
    · rintro ⟨rfl, path, hpath⟩
      exact hdeclared ⟨path, crd, hpath, rfl⟩

theorem tracks_of_matches (h : Matches (pass kinds s source).2 source.manifests) :
    Tracks s.1.applied source.manifests := by
  intro path crd hcrd
  constructor
  · intro hthere
    by_contra hnot
    -- another path with this object would be this path, so it is not deleted
    have hdeletes : ¬ Deletes s source (ManifestKey.of crd) := by
      rintro ⟨q, c, hc, hgone, hkey⟩
      obtain rfl := hs.distinct q path c crd hc hcrd hkey
      rw [hthere] at hgone
      cases hgone
    have hcell : (pass kinds s source).2 (ManifestKey.of crd) = some crd := by
      rw [cell_step_of_not_deletes hs hpasses hdeletes, foldl_put_of_not_declared hnot]
      exact (hmatches _ crd).2 ⟨rfl, path, hcrd⟩
    obtain ⟨-, q, hq⟩ := (h _ crd).1 hcell
    exact hnot ⟨q, crd, hq, rfl⟩
  · rintro ⟨q, c, hc, hkey⟩
    by_contra hgone
    have hdeletes : Deletes s source (ManifestKey.of crd) :=
      ⟨path, crd, hcrd, Bool.eq_false_iff.2 hgone, rfl⟩
    have hcell := (h _ c).2 ⟨hkey, q, hc⟩
    rw [cell_step_of_deletes hs hpasses hdeletes] at hcell
    cases hcell

/-- **A pass leads to the repository precisely if the paths keep track of the objects.** -/
theorem matches_reconcile_iff (hsource : Distinct source.manifests) :
    Matches (pass kinds s source).2 source.manifests ↔ Tracks s.1.applied source.manifests :=
  ⟨tracks_of_matches hs hmatches hpasses, matches_of_tracks hs hmatches hpasses hsource⟩

end Pass

/-! ## Sequences of revisions -/

/-- A reconciler that has applied nothing, and an empty cell. -/
def start (schemas : SchemaRegistry) : Managed := (.new schemas, fun _ => none)

theorem regular_start (schemas : SchemaRegistry) : Regular kinds (start schemas) := by
  refine ⟨rfl, ?_, ?_⟩
  · intro path crd h
    simp [start, Reconciler.new] at h
  · intro p q a b h
    simp [start, Reconciler.new] at h

theorem regular_exec (schemas : SchemaRegistry) {sources : List ManifestSource}
    (h : ∀ source ∈ sources, Distinct source.manifests) :
    Regular kinds (exec (pass kinds) (start schemas) sources) := by
  induction sources using List.reverseRecOn with
  | nil => exact regular_start schemas
  | append_singleton sources source ih =>
    rw [exec_concat]
    exact regular_step (ih fun a ha => h a (List.mem_append_left _ ha)) (h source (by simp))

theorem matches_applied_exec (schemas : SchemaRegistry) {sources : List ManifestSource}
    (hdistinct : ∀ source ∈ sources, Distinct source.manifests)
    (htracks : Along (pass kinds) (fun s source => Passes kinds s source →
      Tracks s.1.applied source.manifests) (start schemas) sources) :
    Matches (exec (pass kinds) (start schemas) sources).2
      (exec (pass kinds) (start schemas) sources).1.applied := by
  induction sources using List.reverseRecOn with
  | nil => simp [Matches, start, Reconciler.new]
  | append_singleton sources source ih =>
    obtain ⟨hbefore, hlast⟩ := along_append.1 htracks
    have hdistinct' := fun a ha => hdistinct a (List.mem_append_left [source] ha)
    rw [exec_concat]
    by_cases h : Passes kinds (exec (pass kinds) (start schemas) sources) source
    · rw [applied_step h]
      exact matches_of_tracks (regular_exec schemas hdistinct') (ih hdistinct' hbefore) h
        (hdistinct source (by simp)) ((along_cons.1 hlast).1 h)
    · rw [pass_of_not_passes h]
      exact ih hdistinct' hbefore

/-- **The cell converges to the repository.** -/
theorem gitops_converges (schemas : SchemaRegistry) (kinds : Finset (Str × Str))
    (sources : List ManifestSource) (hdistinct : ∀ source ∈ sources, Distinct source.manifests)
    (htracks : Along (pass kinds) (fun s source => Passes kinds s source →
      Tracks s.1.applied source.manifests) (start schemas) sources) :
    ∀ (p : List ManifestSource) (source : ManifestSource), p ++ [source] <+: sources →
      (Passes kinds (exec (pass kinds) (start schemas) p) source →
        Matches (exec (pass kinds) (start schemas) (p ++ [source])).2 source.manifests) ∧
      (¬ Passes kinds (exec (pass kinds) (start schemas) p) source →
        exec (pass kinds) (start schemas) (p ++ [source]) =
          exec (pass kinds) (start schemas) p) := by
  rintro p source ⟨q, rfl⟩
  constructor
  · intro hpasses
    have hmatches := matches_applied_exec schemas
      (fun a ha => hdistinct a (List.mem_append_left q ha)) (along_append.1 htracks).1
    rw [exec_concat] at hmatches ⊢
    rwa [applied_step hpasses] at hmatches
  · intro hrefused
    rw [exec_concat, pass_of_not_passes hrefused]

/-! ## Routes of a repository -/

def routeVersion : Str := ⟨"pillar.dev/v1", by decide⟩

def routeKind : Str := ⟨"Route", by decide⟩

def routeKinds : Finset (Str × Str) := {(routeVersion, routeKind)}

def routeSchemas : SchemaRegistry where
  schemas k := if k = (routeVersion, routeKind) then some ⟨routeVersion, routeKind, ∅, ∅⟩ else none

def route (name : Str) (labels : ExtTreeMap Str Str) : Crd :=
  ⟨routeVersion, routeKind, ⟨name, labels⟩, ∅⟩

def single (path : ManifestPath) (crd : Crd) : ManifestSource :=
  ⟨"HEAD", (∅ : ExtTreeMap ManifestPath Crd).insert path crd⟩

theorem getElem?_single {path q : ManifestPath} {crd c : Crd} :
    (single path crd).manifests[q]? = some c ↔ path = q ∧ crd = c := by
  by_cases h : path = q <;> simp [single, h]

theorem distinct_single (path : ManifestPath) (crd : Crd) :
    Distinct (single path crd).manifests := by
  intro p q a b ha hb _
  exact (getElem?_single.1 ha).1.symm.trans (getElem?_single.1 hb).1

theorem tracks_single {path : ManifestPath} {a b : Crd} (h : ManifestKey.of b = ManifestKey.of a) :
    Tracks (single path a).manifests (single path b).manifests := by
  intro q c hc
  obtain ⟨rfl, rfl⟩ := getElem?_single.1 hc
  refine iff_of_true ?_ ⟨path, b, getElem?_single.2 ⟨rfl, rfl⟩, h⟩
  simp [single]

def routeX : Str := ⟨"x", by decide⟩

def routeY : Str := ⟨"y", by decide⟩

/-- The reconciler and the cell after passes over these repositories. -/
def reached (sources : List ManifestSource) : Managed :=
  exec (pass routeKinds) (start routeSchemas) sources

/-- A route is changed at its path: the cell follows. -/
theorem changed_route_followed :
    let labels := (∅ : ExtTreeMap Str Str).insert routeX routeY
    Matches (reached ([single "a.yaml" (route routeX ∅)] ++
        [single "a.yaml" (route routeX labels)])).2
      (single "a.yaml" (route routeX labels)).manifests := by
  intro labels
  refine ((gitops_converges routeSchemas routeKinds ([single "a.yaml" (route routeX ∅)] ++
    [single "a.yaml" (route routeX labels)]) ?_ ?_) _ _ List.prefix_rfl).1 (by decide +kernel)
  · intro source hsource
    rcases List.mem_append.1 hsource with h | h <;> obtain rfl := List.mem_singleton.1 h <;>
      exact distinct_single _ _
  · refine along_cons.2 ⟨fun _ => ?_, along_cons.2 ⟨fun _ => ?_, along_nil⟩⟩
    · -- nothing was applied before the first pass
      intro q c hc
      simp [start, Reconciler.new] at hc
    · rw [applied_step (by decide +kernel)]
      exact tracks_single rfl

/-- The manifest of a route moves from one file to another: the route is deleted. -/
theorem gitops_diverges :
    (Passes routeKinds (reached [single "a.yaml" (route routeX ∅)])
        (single "b.yaml" (route routeX ∅)) ∧
      ¬ Matches (reached [single "a.yaml" (route routeX ∅), single "b.yaml" (route routeX ∅)]).2
        (single "b.yaml" (route routeX ∅)).manifests) ∧
    (Passes routeKinds (reached [single "a.yaml" (route routeX ∅)])
        (single "a.yaml" (route routeY ∅)) ∧
      ¬ Matches (reached [single "a.yaml" (route routeX ∅), single "a.yaml" (route routeY ∅)]).2
        (single "a.yaml" (route routeY ∅)).manifests) := by
  refine ⟨⟨by decide +kernel, fun h => ?_⟩, by decide +kernel, fun h => ?_⟩
  · have hcell := (h (ManifestKey.of (route routeX ∅)) (route routeX ∅)).2
      ⟨rfl, "b.yaml", getElem?_single.2 ⟨rfl, rfl⟩⟩
    exact absurd hcell (by decide +kernel)
  · have hcell := (h (ManifestKey.of (route routeX ∅)) (route routeX ∅)).1 (by decide +kernel)
    obtain ⟨-, path, hpath⟩ := hcell
    exact absurd (getElem?_single.1 hpath).2 (by decide +kernel)

end Pillar.Manifest
