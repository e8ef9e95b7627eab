import Mathlib

/-!
# Programs over a directory, and stopping them midway

A directory is a finite map from file names to contents. A `Prog` asks whether a file exists,
writes files and renames them, each in one atomic step, and reacts to the outcome.
-/

namespace Lib.FileSystem

open Std

/-- A directory: names to contents. -/
abbrev Dir := ExtTreeMap String (List UInt8)

/-- A program over a directory. -/
inductive Prog (α : Type) where
  | done (a : α)
  | query (name : String) (k : Bool → Prog α)
  | write (name : String) (bytes : List UInt8) (k : Bool → Prog α)
  | rename (src dst : String) (k : Bool → Prog α)

variable {α β : Type}

/-- Rename in a directory, `none` if there is no such file. -/
def moveFile (dir : Dir) (src dst : String) : Option Dir :=
  (dir[src]?).map fun bytes => (dir.erase src).insert dst bytes

@[simp] theorem moveFile_insert (dir : Dir) (src dst : String) (bytes : List UInt8) :
    moveFile (dir.insert src bytes) src dst =
      some (((dir.insert src bytes).erase src).insert dst bytes) := by
  simp [moveFile]

namespace Prog

/-- Run `p`, then what `f` makes of its result. -/
def bind (p : Prog α) (f : α → Prog β) : Prog β :=
  match p with
  | done a => f a
  | query name k => query name fun b => (k b).bind f
  | write name bytes k => write name bytes fun b => (k b).bind f
  | rename src dst k => rename src dst fun b => (k b).bind f

def run : Prog α → Dir → Dir × α
  | done a, dir => (dir, a)
  | query name k, dir => (k (dir.contains name)).run dir
  | write name bytes k, dir => (k true).run (dir.insert name bytes)
  | rename src dst k, dir =>
    match moveFile dir src dst with
    | some dir' => (k true).run dir'
    | none => (k false).run dir

def stopAfter : Prog α → ℕ → Dir → Dir × Option (α × ℕ)
  | done a, n, dir => (dir, some (a, n))
  | query name k, n, dir => (k (dir.contains name)).stopAfter n dir
  | write _ _ _, 0, dir => (dir, none)
  | write name bytes k, n + 1, dir => (k true).stopAfter n (dir.insert name bytes)
  | rename _ _ _, 0, dir => (dir, none)
  | rename src dst k, n + 1, dir =>
    match moveFile dir src dst with
    | some dir' => (k true).stopAfter n dir'
    | none => (k false).stopAfter n dir

/-- Which steps fail, by their number: `none` is a step that is carried out. -/
abbrev Faults := ℕ → Option (Option (List UInt8))

/-- Run with I/O errors, counting the steps from `i` on. -/
def attempt (faults : Faults) : Prog α → ℕ → Dir → Dir × α × ℕ
  | done a, i, dir => (dir, a, i)
  | query name k, i, dir =>
    match faults i with
    | none => (k (dir.contains name)).attempt faults (i + 1) dir
    | some _ => (k false).attempt faults (i + 1) dir
  | write name bytes k, i, dir =>
    match faults i with
    | none => (k true).attempt faults (i + 1) (dir.insert name bytes)
    | some none => (k false).attempt faults (i + 1) dir
    | some (some left) => (k false).attempt faults (i + 1) (dir.insert name left)
  | rename src dst k, i, dir =>
    match faults i, moveFile dir src dst with
    | none, some dir' => (k true).attempt faults (i + 1) dir'
    | _, _ => (k false).attempt faults (i + 1) dir

@[simp] theorem run_done (a : α) (dir : Dir) : (done a).run dir = (dir, a) := rfl

@[simp] theorem stopAfter_done (a : α) (n : ℕ) (dir : Dir) :
    (done a).stopAfter n dir = (dir, some (a, n)) := rfl

theorem run_bind (p : Prog α) (f : α → Prog β) (dir : Dir) :
    (p.bind f).run dir = (f (p.run dir).2).run (p.run dir).1 := by
  induction p generalizing dir with
  | done a => rfl
  | query name k ih => exact ih _ dir
  | write name bytes k ih => exact ih true _
  | rename src dst k ih =>
    rw [bind, run, run]
    cases moveFile dir src dst with
    | some dir' => exact ih true dir'
    | none => exact ih false dir

theorem stopAfter_bind (p : Prog α) (f : α → Prog β) (n : ℕ) (dir : Dir) :
    (p.bind f).stopAfter n dir =
      match p.stopAfter n dir with
      | (dir', some (a, m)) => (f a).stopAfter m dir'
      | (dir', none) => (dir', none) := by
  induction p generalizing n dir with
  | done a => rfl
  | query name k ih => exact ih _ n dir
  | write name bytes k ih =>
    cases n with
    | zero => rfl
    | succ n => exact ih true n _
  | rename src dst k ih =>
    cases n with
    | zero => rfl
    | succ n =>
      rw [bind, stopAfter, stopAfter]
      cases moveFile dir src dst with
      | some dir' => exact ih true n dir'
      | none => exact ih false n dir

@[simp] theorem attempt_done (faults : Faults) (a : α) (i : ℕ) (dir : Dir) :
    (done a).attempt faults i dir = (dir, a, i) := rfl

theorem attempt_query_of_missed {faults : Faults} {name : String} {k : Bool → Prog α} {i : ℕ}
    {dir : Dir} (hmissed : faults i = none → dir.contains name = false) :
    (query name k).attempt faults i dir = (k false).attempt faults (i + 1) dir := by
  rw [attempt]
  cases hf : faults i with
  | none => simp [hmissed hf]
  | some _ => rfl

theorem attempt_bind (faults : Faults) (p : Prog α) (f : α → Prog β) (i : ℕ) (dir : Dir) :
    (p.bind f).attempt faults i dir =
      (f (p.attempt faults i dir).2.1).attempt faults (p.attempt faults i dir).2.2
        (p.attempt faults i dir).1 := by
  induction p generalizing i dir with
  | done a => rfl
  | query name k ih =>
    rw [bind, attempt, attempt]
    cases faults i with
    | none => exact ih _ (i + 1) dir
    | some _ => exact ih false (i + 1) dir
  | write name bytes k ih =>
    rw [bind, attempt, attempt]
    match faults i with
    | none => exact ih true (i + 1) _
    | some none => exact ih false (i + 1) dir
    | some (some left) => exact ih false (i + 1) _
  | rename src dst k ih =>
    rw [bind, attempt, attempt]
    cases faults i with
    | some _ => exact ih false (i + 1) dir
    | none =>
      cases moveFile dir src dst with
      | some dir' => exact ih true (i + 1) dir'
      | none => exact ih false (i + 1) dir

theorem run_of_stopAfter {p : Prog α} {n m : ℕ} {dir dir' : Dir} {a : α}
    (h : p.stopAfter n dir = (dir', some (a, m))) : p.run dir = (dir', a) := by
  induction p generalizing n dir with
  | done b =>
    simp only [stopAfter_done, Prod.mk.injEq, Option.some.injEq] at h
    rw [run_done, h.1, h.2.1]
  | query name k ih => exact ih _ h
  | write name bytes k ih =>
    cases n with
    | zero => simp [stopAfter] at h
    | succ n => exact ih true h
  | rename src dst k ih =>
    cases n with
    | zero => simp [stopAfter] at h
    | succ n =>
      rw [stopAfter] at h
      rw [run]
      cases hm : moveFile dir src dst with
      | some dir'' =>
        rw [hm] at h
        exact ih true h
      | none =>
        rw [hm] at h
        exact ih false h

end Prog
end Lib.FileSystem
