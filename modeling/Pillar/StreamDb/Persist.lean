import Pillar.Lib.FileSystem
import Pillar.Lib.Hex
import Pillar.Lib.Runs
import Pillar.StreamDb.OpLog

/-!
# The durable op store

`PersistentStream`: a stream whose ops also live in a directory, one file per op, named by the hex
of its content address.
-/

namespace Pillar.StreamDb

open Std Lib.FileSystem Lib.Hex

variable {H : Bytes → Bytes}

/-- A failure persisting or loading. -/
inductive PersistError where
  | io (path : String)
  | corrupt (path expected actual : String)
  | policy (violation : PolicyViolation)
  deriving DecidableEq

/-- A stream backed by a directory, the directory being what its programs act
on. -/
structure PersistentStream (H : Bytes → Bytes) where
  stream : Stream H

def opFilename (id : OpId) : String := String.ofList (hex id.bytes)

/-- The temporary name an op is first written under. -/
def tmpFilename (id : OpId) : String := opFilename id ++ ".tmp"

namespace PersistentStream

/-! ## The write path -/

def persistOp (id : OpId) (payload : Bytes) : Prog (Except PersistError Unit) :=
  .query (opFilename id) fun
    | true => .done (.ok ())
    | false => .write (tmpFilename id) payload fun
      | false => .done (.error (.io (tmpFilename id)))
      | true => .rename (tmpFilename id) (opFilename id) fun
        | false => .done (.error (.io (opFilename id)))
        | true => .done (.ok ())

def append (s : PersistentStream H) (payload : Bytes) (effect : SideEffect) :
    Prog (PersistentStream H × Except PersistError OpId) :=
  if !s.stream.policy.admits effect then .done (s, .error (.policy ⟨s.stream.policy, effect⟩))
  else
    (persistOp (contentAddress H payload) payload).bind fun
      | .error e => .done (s, .error e)
      | .ok () =>
        .done (⟨{ s.stream with log := (s.stream.log.append payload).1 }⟩,
          .ok (s.stream.log.append payload).2)

def persistNew (log : OpLog H) : List (Op H) → Prog (Except PersistError Unit)
  | [] => .done (.ok ())
  | op :: ops =>
    if log.contains op.id then persistNew log ops
    else
      (persistOp op.id op.payload).bind fun
        | .error e => .done (.error e)
        | .ok () => persistNew log ops

def mergePersistent (s : PersistentStream H) (other : Stream H) :
    Prog (PersistentStream H × Except PersistError Unit) :=
  (persistNew s.stream.log other.log.order).bind fun
    | .error e => .done (s, .error e)
    | .ok () => .done (⟨s.stream.merge other⟩, .ok ())

/-! ## The recovery scan -/

/-- Load the files of a listing, checking each against its name. -/
def load (s : Stream H) : List (String × Bytes) → Except PersistError (Stream H)
  | [] => .ok s
  | (name, bytes) :: rest =>
    if opFilename (contentAddress H bytes) ≠ name then
      .error (.corrupt name name (opFilename (contentAddress H bytes)))
    else load { s with log := (s.log.append bytes).1 } rest

/-- The empty stream a store is loaded into. -/
def freshStream : Option ViewPolicy → Stream H
  | some policy => .withPolicy policy
  | none => .new

def openWith (entries : List (String × Bytes)) (policy : Option ViewPolicy) :
    Except PersistError (PersistentStream H) :=
  (load (freshStream policy) entries).map PersistentStream.mk

/-! ## Names -/

theorem opFilename_injective : Function.Injective opFilename := by
  intro a b h
  exact ContentId.ext (hex_injective (String.ofList_injective h))

theorem tmpFilename_ne (id id' : OpId) : tmpFilename id ≠ opFilename id' := by
  intro h
  have hdot : '.' ∈ (tmpFilename id).toList := by simp [tmpFilename]
  rw [h, opFilename, String.toList_ofList] at hdot
  exact dot_not_mem_hex _ hdot

/-! ## Directories that hold a set of ops -/

def Holds (dir : Dir) (S : Set (Op H)) : Prop :=
  ∀ name bytes, dir[name]? = some bytes ↔ ∃ op ∈ S, opFilename op.id = name ∧ op.payload = bytes

def Dirty (H : Bytes → Bytes) (dir : Dir) : Prop :=
  ∃ name bytes, dir[name]? = some bytes ∧ opFilename (contentAddress H bytes) ≠ name

variable {dir : Dir} {S : Set (Op H)}

theorem Holds.contains_iff (hH : CollisionFree H) (h : Holds dir S) {op : Op H} :
    dir.contains (opFilename op.id) = true ↔ op ∈ S := by
  rw [← ExtTreeMap.mem_iff_contains, Lib.TreeMap.mem_iff_exists_getElem?]
  constructor
  · rintro ⟨bytes, hbytes⟩
    obtain ⟨o, ho, hname, -⟩ := (h _ _).1 hbytes
    rwa [← Op.id_injective hH (opFilename_injective hname)]
  · intro hop
    exact ⟨op.payload, (h _ _).2 ⟨op, hop, rfl, rfl⟩⟩

theorem Holds.tmp_not_mem (h : Holds dir S) (id : OpId) : dir[tmpFilename id]? = none := by
  cases htmp : dir[tmpFilename id]? with
  | none => rfl
  | some bytes =>
    obtain ⟨o, -, hname, -⟩ := (h _ _).1 htmp
    exact absurd hname.symm (tmpFilename_ne id o.id)

theorem Holds.insert (hH : CollisionFree H) {dir' : Dir} (h : Holds dir S) {op : Op H}
    (hdir : ∀ name, dir'[name]? = if opFilename op.id = name then some op.payload else dir[name]?) :
    Holds dir' (insert op S) := by
  intro name bytes
  rw [hdir]
  by_cases hname : opFilename op.id = name
  · subst hname
    rw [if_pos rfl]
    constructor
    · intro hb
      exact ⟨op, Set.mem_insert op S, rfl, Option.some.inj hb⟩
    · rintro ⟨o, -, ho, rfl⟩
      rw [Op.id_injective hH (opFilename_injective ho)]
  · rw [if_neg hname, h]
    constructor
    · rintro ⟨o, ho, hn, hb⟩
      exact ⟨o, Set.mem_insert_of_mem op ho, hn, hb⟩
    · rintro ⟨o, rfl | ho, hn, hb⟩
      · exact absurd hn hname
      · exact ⟨o, ho, hn, hb⟩

/-! ## What opening does -/

variable {entries : List (String × Bytes)}

theorem load_ok (hH : CollisionFree H)
    (hnames : ∀ e ∈ entries, opFilename (contentAddress H e.2) = e.1) (s : Stream H) :
    ∃ s', load s entries = .ok s' ∧
      ∀ op, op ∈ s'.log ↔ op ∈ s.log ∨ ∃ e ∈ entries, op = Op.new e.2 := by
  induction entries generalizing s with
  | nil => exact ⟨s, rfl, by simp⟩
  | cons e entries ih =>
    obtain ⟨s', hload, hmem⟩ := ih (fun e he => hnames e (List.mem_cons_of_mem _ he))
      { s with log := (s.log.append e.2).1 }
    have hname : opFilename (contentAddress H e.2) = e.1 := hnames e List.mem_cons_self
    refine ⟨s', by simpa [load, hname] using hload, fun op => ?_⟩
    rw [hmem, OpLog.mem_append hH, List.exists_mem_cons_iff]
    tauto

theorem load_error (hnames : ∃ e ∈ entries, opFilename (contentAddress H e.2) ≠ e.1) (s : Stream H)
    : ∃ err, load s entries = .error err := by
  induction entries generalizing s with
  | nil => simp at hnames
  | cons e entries ih =>
    by_cases hname : opFilename (contentAddress H e.2) = e.1
    · have hrest : ∃ e ∈ entries, opFilename (contentAddress H e.2) ≠ e.1 := by
        rcases (List.exists_mem_cons_iff _ _ _).1 hnames with h | h
        · exact absurd hname h
        · exact h
      obtain ⟨err, herr⟩ := ih hrest { s with log := (s.log.append e.2).1 }
      exact ⟨err, by simpa [load, hname] using herr⟩
    · exact ⟨_, if_pos hname⟩

theorem mem_listing (hlist : entries.Perm dir.toList) {name : String} {bytes : Bytes} :
    (name, bytes) ∈ entries ↔ dir[name]? = some bytes := by
  rw [hlist.mem_iff, ExtTreeMap.mem_toList_iff_getElem?_eq_some]

/-- **Opening gives the ops back.** -/
theorem openWith_of_holds (hH : CollisionFree H) (h : Holds dir S) (hlist : entries.Perm dir.toList)
    (policy : Option ViewPolicy) :
    ∃ st : PersistentStream H, openWith entries policy = .ok st ∧
      ∀ op, op ∈ st.stream.log ↔ op ∈ S := by
  have hentry : ∀ e ∈ entries, ∃ op ∈ S, opFilename op.id = e.1 ∧ op.payload = e.2 :=
    fun e he => (h e.1 e.2).1 ((mem_listing hlist).1 he)
  have hnames : ∀ e ∈ entries, opFilename (contentAddress H e.2) = e.1 := by
    intro e he
    obtain ⟨op, -, hname, hbytes⟩ := hentry e he
    rw [← hbytes, ← op.id_eq, hname]
  obtain ⟨s', hload, hmem⟩ := load_ok hH hnames (freshStream policy)
  refine ⟨⟨s'⟩, by rw [openWith, hload]; rfl, fun op => ?_⟩
  have hfresh : op ∉ (freshStream policy : Stream H).log := by
    cases policy <;> exact OpLog.not_mem_new op
  rw [hmem, or_iff_right hfresh]
  constructor
  · rintro ⟨e, he, rfl⟩
    obtain ⟨o, ho, -, hbytes⟩ := hentry e he
    have heq : o = Op.new e.2 := Op.ext_payload hbytes
    rwa [← heq]
  · intro hop
    refine ⟨(opFilename op.id, op.payload), (mem_listing hlist).2 ((h _ _).2 ⟨op, hop, rfl, rfl⟩), ?_⟩
    exact Op.ext_payload rfl

/-- **A file under another name makes opening fail.** -/
theorem openWith_of_dirty (h : Dirty H dir) (hlist : entries.Perm dir.toList)
    (policy : Option ViewPolicy) :
    ∃ err, (openWith entries policy : Except PersistError (PersistentStream H)) = .error err := by
  obtain ⟨name, bytes, hfile, hname⟩ := h
  obtain ⟨err, herr⟩ := load_error ⟨(name, bytes), (mem_listing hlist).2 hfile, hname⟩
    (freshStream policy)
  exact ⟨err, by rw [openWith, herr]; rfl⟩

theorem holds_of_openWith (hH : CollisionFree H) (hlist : entries.Perm dir.toList)
    {policy : Option ViewPolicy} {st : PersistentStream H} (h : openWith entries policy = .ok st) :
    Holds dir {op | op ∈ st.stream.log} := by
  have hclean : ¬ Dirty H dir := by
    intro hd
    obtain ⟨err, herr⟩ := openWith_of_dirty hd hlist policy
    rw [h] at herr
    cases herr
  have hholds : Holds dir {op : Op H | ∃ name : String, dir[name]? = some op.payload} := by
    intro name bytes
    constructor
    · intro hfile
      refine ⟨Op.new bytes, ⟨name, hfile⟩, ?_, rfl⟩
      by_contra hne
      exact hclean ⟨name, bytes, hfile, hne⟩
    · rintro ⟨op, ⟨name', hfile⟩, rfl, rfl⟩
      by_cases hname : opFilename (contentAddress H op.payload) = name'
      · rw [op.id_eq, hname]
        exact hfile
      · exact absurd ⟨name', op.payload, hfile, hname⟩ hclean
  obtain ⟨st', hst', hmem⟩ := openWith_of_holds hH hholds hlist policy
  obtain rfl : st' = st := Except.ok.inj (hst'.symm.trans h)
  rwa [← Set.ext hmem] at hholds

end PersistentStream
end Pillar.StreamDb
