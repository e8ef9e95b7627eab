import Pillar.Manifest.Gitops

/-!
# A deletion that fails

The hooks of a cell may fail. What becomes of an object whose manifest is gone and whose hook did
not delete it?

* `prune_remembered_iff` — **outstanding objects are remembered precisely if every deletion
  succeeds at the first attempt**.
-/

namespace Pillar.Manifest.Prune

open Lib.Runs
open Std (ExtTreeMap)

variable {σ : Type}

/-! ## Passes -/

structure Pass (σ : Type) where
  source : ManifestSource
  controllers : ControllerRegistry σ

def answer (s : Reconciler × σ) (pass : Pass σ) : Except ReconcileError ReconcileReport :=
  (s.1.reconcile pass.source pass.controllers s.2).1

def step (s : Reconciler × σ) (pass : Pass σ) : Reconciler × σ :=
  (s.1.reconcile pass.source pass.controllers s.2).2

def Succeeds (s : Reconciler × σ) (pass : Pass σ) : Prop := ∃ report, answer s pass = .ok report

instance (s : Reconciler × σ) (pass : Pass σ) : Decidable (Succeeds s pass) :=
  match h : answer s pass with
  | .ok report => isTrue ⟨report, h⟩
  | .error _ => isFalse fun ⟨_, hok⟩ => by rw [h] at hok; cases hok

/-- The cell when the hook of the `i`-th manifest whose path is gone is asked to delete it. -/
def cellAt (s : Reconciler × σ) (pass : Pass σ) (i : ℕ) : σ :=
  (((s.1.removed pass.source).take i).foldl (s.1.pruneOne pass.controllers)
    (pass.source.manifests.toList.foldl (s.1.applyOne pass.controllers) ([], s.2))).2

/-- The hook is asked to delete the object, and answers that it is done. -/
def retires (s : Reconciler × σ) (pass : Pass σ) (key : ManifestKey) : Bool :=
  decide (Succeeds s pass) && s.1.prune && (s.1.removed pass.source).zipIdx.any fun (entry, i) =>
    decide (ManifestKey.of entry.2 = key) &&
      decide ((pass.controllers.delete (cellAt s pass i) entry.2).1 = .reconciled)

def Applies (key : ManifestKey) (s : Reconciler × σ) (pass : Pass σ) : Prop :=
  Succeeds s pass ∧ Declares pass.source.manifests key ∧ retires s pass key = false

def start (schemas : SchemaRegistry) (cell : σ) : Reconciler × σ := (.new schemas, cell)

def Outstanding (s : Reconciler × σ) (passes : List (Pass σ)) (key : ManifestKey) : Prop :=
  Since step (Applies key) (fun t pass => retires t pass key = true) s passes

/-- The reconciler has the object on its account: some path is said to declare it, and a pass over a
repository without such a path deletes it. -/
def Remembers (r : Reconciler) (key : ManifestKey) : Prop :=
  Declares r.applied key ∧ ∀ source : ManifestSource,
    (∀ (path : ManifestPath) (crd : Crd), r.applied[path]? = some crd → ManifestKey.of crd = key →
      source.manifests.contains path = false) →
    ∃ entry ∈ r.removed source, ManifestKey.of entry.2 = key

/-! ## What is kept account of -/

variable {key : ManifestKey}

theorem remembers_of_declares {r : Reconciler} (h : Declares r.applied key) : Remembers r key := by
  refine ⟨h, fun source hgone => ?_⟩
  obtain ⟨path, crd, hcrd, hkey⟩ := h
  refine ⟨(path, crd), List.mem_filter.2 ⟨?_, ?_⟩, hkey⟩
  · exact ExtTreeMap.mem_toList_iff_getElem?_eq_some.2 hcrd
  · simp [hgone path crd hcrd hkey]

variable {s : Reconciler × σ}

theorem remembers_iff_declares {pass : Pass σ} (h : Succeeds s pass) :
    Remembers (step s pass).1 key ↔ Declares pass.source.manifests key := by
  obtain ⟨report, hok⟩ := h
  have happlied : (step s pass).1.applied = pass.source.manifests := by
    rw [step, (Reconciler.reconcile_of_ok hok).2]
  constructor
  · intro hkey
    exact happlied ▸ hkey.1
  · intro hkey
    exact remembers_of_declares (happlied ▸ hkey)

theorem outstanding_concat {passes : List (Pass σ)} {pass : Pass σ} :
    Outstanding s (passes ++ [pass]) key ↔ Applies key (exec step s passes) pass ∨
      Outstanding s passes key ∧ ¬ retires (exec step s passes) pass key = true :=
  since_concat

theorem outstanding_singleton {pass : Pass σ} : Outstanding s [pass] key ↔ Applies key s pass := by
  have h : Outstanding s ([] ++ [pass]) key ↔ _ := outstanding_concat
  simpa [Outstanding, not_since_nil] using h

/-- **Outstanding objects are remembered precisely if every deletion succeeds at once.** -/
theorem prune_remembered_iff (schemas : SchemaRegistry) (cell : σ) (passes : List (Pass σ))
    (hok : Along step Succeeds (start schemas cell) passes) :
    (∀ p pass, p ++ [pass] <+: passes → ∀ key,
        Outstanding (start schemas cell) (p ++ [pass]) key →
        ¬ Declares pass.source.manifests key →
        Remembers (exec step (start schemas cell) (p ++ [pass])).1 key) ↔
      ∀ p pass, p ++ [pass] <+: passes → ∀ key,
        Outstanding (start schemas cell) p key → ¬ Declares pass.source.manifests key →
        retires (exec step (start schemas cell) p) pass key = true := by
  constructor
  · intro h p pass hp key hout hgone
    by_contra hnot
    have hremembers := h p pass hp key (outstanding_concat.2 (.inr ⟨hout, hnot⟩)) hgone
    rw [exec_concat] at hremembers
    exact hgone ((remembers_iff_declares (hok p pass hp)).1 hremembers)
  · intro h p pass hp key hout hgone
    rcases outstanding_concat.1 hout with happlies | ⟨hbefore, hnot⟩
    · exact absurd happlies.2.1 hgone
    · exact absurd (h p pass hp key hbefore hgone) hnot

/-! ## A route that is taken out of the repository -/

def stuckHook : ControllerHook Objects where
  reconcile := mapHook.reconcile
  delete cell _ := (.failed "backend unreachable", cell)

def stuckRegistry : ControllerRegistry Objects where
  hooks k := if k ∈ routeKinds then some stuckHook else none

def emptied : ManifestSource := ⟨"HEAD", ∅⟩

def takenOut (controllers : ControllerRegistry Objects) : List (Pass Objects) :=
  [⟨single "a.yaml" (route routeX ∅), controllers⟩, ⟨emptied, controllers⟩]

def routeStart : Reconciler × Objects := start routeSchemas fun _ => none

/-- The deletion succeeds: nothing is outstanding that is not remembered. -/
theorem taken_out_remembered :
    Along step Succeeds routeStart (takenOut (mapRegistry routeKinds)) ∧
      ∀ p pass, p ++ [pass] <+: takenOut (mapRegistry routeKinds) → ∀ key,
        Outstanding routeStart (p ++ [pass]) key → ¬ Declares pass.source.manifests key →
        Remembers (exec step routeStart (p ++ [pass])).1 key := by
  have hok : Along step Succeeds routeStart (takenOut (mapRegistry routeKinds)) := by
    decide +kernel
  refine ⟨hok, (prune_remembered_iff routeSchemas _ _ hok).2 ?_⟩
  intro p pass hp key hout _
  rcases p with _ | ⟨first, _ | ⟨second, p⟩⟩
  · exact absurd hout not_since_nil
  · -- only the route is outstanding after the first pass
    obtain ⟨rfl, hlast⟩ := List.cons_prefix_cons.1 hp
    obtain ⟨rfl, -⟩ := List.cons_prefix_cons.1 hlast
    obtain ⟨-, ⟨path, crd, hcrd, rfl⟩, -⟩ := outstanding_singleton.1 hout
    obtain ⟨-, rfl⟩ := getElem?_single.1 hcrd
    decide +kernel
  · have hlength := hp.length_le
    simp [takenOut] at hlength

/-- The deletion fails: the route is still in the cell, the repository does not declare it, and no
later pass deletes it. -/
theorem prune_forgotten :
    let key := ManifestKey.of (route routeX ∅)
    let s := exec step routeStart (takenOut stuckRegistry)
    Along step Succeeds routeStart (takenOut stuckRegistry) ∧
      Outstanding routeStart (takenOut stuckRegistry) key ∧ s.2 key = some (route routeX ∅) ∧
      ¬ Declares emptied.manifests key ∧ ¬ Remembers s.1 key ∧
      ∀ source, s.1.removed source = [] := by
  intro key s
  have happlied : s.1.applied = ∅ := by decide +kernel
  have hgone : ¬ Declares (∅ : ExtTreeMap ManifestPath Crd) key := by
    rintro ⟨path, crd, hcrd, -⟩
    simp at hcrd
  refine ⟨by decide +kernel, ?_, by decide +kernel, hgone, ?_, fun source => ?_⟩
  · have hfirst : Outstanding routeStart [⟨single "a.yaml" (route routeX ∅), stuckRegistry⟩] key :=
      outstanding_singleton.2 ⟨by decide +kernel,
        ⟨"a.yaml", route routeX ∅, getElem?_single.2 ⟨rfl, rfl⟩, rfl⟩, by decide +kernel⟩
    exact outstanding_concat.2 (.inr ⟨hfirst, by decide +kernel⟩)
  · exact fun h => hgone (happlied ▸ h.1)
  · rw [Reconciler.removed, happlied]
    rfl

end Pillar.Manifest.Prune
