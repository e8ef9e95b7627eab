import Pillar.KeyDistribution.Ledger

/-!
# The group key of a cell

`pillar-cells`: the group key of a cell is renewed from epoch to epoch, and a node reads an object
if the key of its epoch was sealed to the node.

* `SealedTo`, `sealedTo_reach` — **an epoch's key is sealed to the nodes that were members at some
  moment of it**.
-/

namespace Pillar.Cells

open Lib.Runs
open KeyDistribution (CellId UserId)
open Std (ExtTreeMap)

/-! ## The code -/

abbrev ObjectId := String

/-- Whom a sealed object is sealed to. -/
inductive SealScope where
  | perNode (recipients : Finset NodeId)
  | perCell (recipients : Finset CellId)
  | perUser (recipients : Finset UserId)
  deriving DecidableEq

inductive VisClass where
  | public_
  | cellEncrypted
  | recipientSealed (scope : SealScope)
  deriving DecidableEq

inductive CellError where
  | rotationFence
  /-- A node that joins is a member, or one that leaves is not. -/
  | membershipPrecondition
  | alreadyPlaced (object : ObjectId)
  deriving DecidableEq

/-- Who is in the cell, and what its keys protect. -/
structure Cell where
  members : Finset NodeId
  keyEpoch : ℕ
  /-- The nodes that the key of an epoch was sealed to. -/
  epochMembers : ExtTreeMap ℕ (Finset NodeId)
  rotating : Bool
  objClass : ExtTreeMap ObjectId VisClass
  objEpoch : ExtTreeMap ObjectId ℕ
  objTags : ExtTreeMap ObjectId (Finset String)
  placed : Finset ObjectId

namespace Cell

/-- A cell without members and objects; its first epoch is sealed to nobody. -/
def new : Cell where
  members := ∅
  keyEpoch := 0
  epochMembers := (∅ : ExtTreeMap ℕ (Finset NodeId)).insert 0 ∅
  rotating := false
  objClass := ∅
  objEpoch := ∅
  objTags := ∅
  placed := ∅

def admitNode (c : Cell) (node : NodeId) : Except CellError Unit × Cell :=
  if c.rotating then (.error .rotationFence, c)
  else if node ∈ c.members then (.error .membershipPrecondition, c)
  else
    let members := insert node c.members
    (.ok (), { c with members, epochMembers := c.epochMembers.insert c.keyEpoch members })

def leave (c : Cell) (node : NodeId) : Except CellError Unit × Cell :=
  if c.rotating then (.error .rotationFence, c)
  else if node ∉ c.members then (.error .membershipPrecondition, c)
  else
    let members := c.members.erase node
    let keyEpoch := c.keyEpoch + 1
    (.ok (), { c with members, keyEpoch, epochMembers := c.epochMembers.insert keyEpoch members })

def beginRotate (c : Cell) : Except CellError Unit × Cell :=
  if c.rotating then (.error .rotationFence, c) else (.ok (), { c with rotating := true })

def endRotate (c : Cell) : Except CellError Unit × Cell :=
  if !c.rotating then (.error .rotationFence, c)
  else
    let keyEpoch := c.keyEpoch + 1
    (.ok (), { c with
      keyEpoch, epochMembers := c.epochMembers.insert keyEpoch c.members, rotating := false })

def placeObject (c : Cell) (object : ObjectId) (class_ : VisClass) (tags : Finset String) :
    Except CellError Unit × Cell :=
  if c.rotating then (.error .rotationFence, c)
  else if object ∈ c.placed then (.error (.alreadyPlaced object), c)
  else
    (.ok (), { c with
      objClass := c.objClass.insert object class_
      objEpoch := c.objEpoch.insert object c.keyEpoch
      objTags := c.objTags.insert object tags
      placed := insert object c.placed })

def nodeCanDecrypt (c : Cell) (node : NodeId) (object : ObjectId) : Bool :=
  if object ∉ c.placed then false
  else
    match c.objClass[object]? with
    | some .public_ => true
    | some .cellEncrypted =>
      let epoch := c.objEpoch[object]?.getD 0
      c.epochMembers[epoch]?.any fun m => decide (node ∈ m)
    | some (.recipientSealed (.perNode recipients)) => decide (node ∈ recipients)
    | some (.recipientSealed _) => false
    | none => false

end Cell

/-! ## Runs -/

inductive Call where
  | admitNode (node : NodeId)
  | leave (node : NodeId)
  | beginRotate
  | endRotate
  | placeObject (object : ObjectId) (class_ : VisClass) (tags : Finset String)
  deriving DecidableEq

def call (c : Cell) : Call → Except CellError Unit × Cell
  | .admitNode node => c.admitNode node
  | .leave node => c.leave node
  | .beginRotate => c.beginRotate
  | .endRotate => c.endRotate
  | .placeObject object class_ tags => c.placeObject object class_ tags

def step (c : Cell) (a : Call) : Cell := (call c a).2

def Accepts (c : Cell) (a : Call) : Prop := (call c a).1 = .ok ()

instance (c : Cell) (a : Call) : Decidable (Accepts c a) :=
  inferInstanceAs (Decidable ((call c a).1 = .ok ()))

/-- What an accepted call does, and what it has checked before. -/
inductive Effect (c : Cell) : Call → Cell → Prop where
  | admitted (node : NodeId) (hopen : c.rotating = false) (hnode : node ∉ c.members) :
    Effect c (.admitNode node) { c with
      members := insert node c.members
      epochMembers := c.epochMembers.insert c.keyEpoch (insert node c.members) }
  | left (node : NodeId) (hopen : c.rotating = false) (hnode : node ∈ c.members) :
    Effect c (.leave node) { c with
      members := c.members.erase node
      keyEpoch := c.keyEpoch + 1
      epochMembers := c.epochMembers.insert (c.keyEpoch + 1) (c.members.erase node) }
  | begun (hopen : c.rotating = false) : Effect c .beginRotate { c with rotating := true }
  | ended (hclosed : c.rotating = true) :
    Effect c .endRotate { c with
      keyEpoch := c.keyEpoch + 1
      epochMembers := c.epochMembers.insert (c.keyEpoch + 1) c.members
      rotating := false }
  | placed (object : ObjectId) (class_ : VisClass) (tags : Finset String)
      (hopen : c.rotating = false) (hobject : object ∉ c.placed) :
    Effect c (.placeObject object class_ tags) { c with
      objClass := c.objClass.insert object class_
      objEpoch := c.objEpoch.insert object c.keyEpoch
      objTags := c.objTags.insert object tags
      placed := insert object c.placed }

theorem effect_or_refused (c : Cell) (a : Call) :
    (Accepts c a ∧ Effect c a (step c a)) ∨ (¬ Accepts c a ∧ step c a = c) := by
  cases a with
  | admitNode node =>
    simp only [Accepts, step, call, Cell.admitNode]
    split_ifs with hr hn
    · exact .inr ⟨nofun, rfl⟩
    · exact .inr ⟨nofun, rfl⟩
    · exact .inl ⟨rfl, .admitted node (Bool.eq_false_iff.2 hr) hn⟩
  | leave node =>
    simp only [Accepts, step, call, Cell.leave]
    split_ifs with hr hn
    · exact .inr ⟨nofun, rfl⟩
    · exact .inl ⟨rfl, .left node (Bool.eq_false_iff.2 hr) hn⟩
    · exact .inr ⟨nofun, rfl⟩
  | beginRotate =>
    simp only [Accepts, step, call, Cell.beginRotate]
    split_ifs with hr
    · exact .inr ⟨nofun, rfl⟩
    · exact .inl ⟨rfl, .begun (Bool.eq_false_iff.2 hr)⟩
  | endRotate =>
    simp only [Accepts, step, call, Cell.endRotate]
    split_ifs with hr
    · exact .inr ⟨nofun, rfl⟩
    · exact .inl ⟨rfl, .ended (by simpa using hr)⟩
  | placeObject object class_ tags =>
    simp only [Accepts, step, call, Cell.placeObject]
    split_ifs with hr ho
    · exact .inr ⟨nofun, rfl⟩
    · exact .inr ⟨nofun, rfl⟩
    · exact .inl ⟨rfl, .placed object class_ tags (Bool.eq_false_iff.2 hr) ho⟩

variable {c : Cell}

theorem Accepts.effect {a : Call} (h : Accepts c a) : Effect c a (step c a) := by
  rcases effect_or_refused c a with ⟨-, heffect⟩ | ⟨hrefused, -⟩
  · exact heffect
  · exact absurd h hrefused

/-! ## The nodes an epoch is sealed to -/

def SealedTo (c : Cell) (epoch : ℕ) (node : NodeId) : Prop :=
  ∃ m, c.epochMembers[epoch]? = some m ∧ node ∈ m

/-- The open epoch is sealed to the members, and no later one to anybody. -/
structure Keyed (c : Cell) : Prop where
  current : c.epochMembers[c.keyEpoch]? = some c.members
  later : ∀ epoch, c.keyEpoch < epoch → c.epochMembers[epoch]? = none

theorem key_step (c : Cell) (a : Call) :
    ((step c a).members = c.members ∧ (step c a).keyEpoch = c.keyEpoch ∧
      (step c a).epochMembers = c.epochMembers) ∨
    ((step c a).epochMembers = c.epochMembers.insert (step c a).keyEpoch (step c a).members ∧
      (c.members ⊆ (step c a).members ∧ (step c a).keyEpoch = c.keyEpoch ∨
        (step c a).keyEpoch = c.keyEpoch + 1)) := by
  rcases effect_or_refused c a with ⟨-, h⟩ | ⟨-, h⟩
  · generalize step c a = c' at h
    cases h with
    | admitted node _ _ => exact .inr ⟨rfl, .inl ⟨Finset.subset_insert node c.members, rfl⟩⟩
    | left | ended => exact .inr ⟨rfl, .inr rfl⟩
    | begun | placed => exact .inl ⟨rfl, rfl, rfl⟩
  · rw [h]
    exact .inl ⟨rfl, rfl, rfl⟩

theorem keyEpoch_step_le (c : Cell) (a : Call) : c.keyEpoch ≤ (step c a).keyEpoch := by
  rcases key_step c a with ⟨-, h, -⟩ | ⟨-, ⟨-, h⟩ | h⟩ <;> omega

theorem keyed_step (hc : Keyed c) (a : Call) : Keyed (step c a) := by
  rcases key_step c a with ⟨hmembers, hepoch, hsealed⟩ | ⟨hsealed, -⟩
  · constructor
    · rw [hsealed, hepoch, hmembers]
      exact hc.current
    · rw [hsealed, hepoch]
      exact hc.later
  · constructor
    · rw [hsealed, ExtTreeMap.getElem?_insert_self]
    · intro epoch hlater
      have hle := keyEpoch_step_le c a
      rw [hsealed, ExtTreeMap.getElem?_insert, if_neg]
      · exact hc.later epoch (by omega)
      · rw [compare_eq_iff_eq]
        exact hlater.ne

theorem sealedTo_step (hc : Keyed c) (a : Call) (epoch : ℕ) (node : NodeId) :
    SealedTo (step c a) epoch node ↔
      SealedTo c epoch node ∨ (step c a).keyEpoch = epoch ∧ node ∈ (step c a).members := by
  -- what an open epoch is sealed to are its members
  have hcurrent : SealedTo c c.keyEpoch node ↔ node ∈ c.members := by
    simp [SealedTo, hc.current]
  rcases key_step c a with ⟨hmembers, hepoch, hsealed⟩ | ⟨hsealed, hnext⟩
  · rw [SealedTo, hsealed, hmembers, hepoch]
    refine ⟨.inl, ?_⟩
    rintro (h | ⟨rfl, h⟩)
    · exact h
    · exact hcurrent.2 h
  · by_cases he : (step c a).keyEpoch = epoch
    · subst he
      have hafter : SealedTo (step c a) (step c a).keyEpoch node ↔ node ∈ (step c a).members := by
        simp [SealedTo, hsealed]
      have hbefore : SealedTo c (step c a).keyEpoch node → node ∈ (step c a).members := by
        intro h
        rcases hnext with ⟨hsub, hsame⟩ | hnew
        · rw [hsame, hcurrent] at h
          exact hsub h
        · obtain ⟨m, hm, -⟩ := h
          simp [hc.later _ (by omega : c.keyEpoch < (step c a).keyEpoch)] at hm
      rw [hafter]
      exact ⟨fun h => .inr ⟨rfl, h⟩, fun h => h.elim hbefore And.right⟩
    · rw [SealedTo, hsealed, ExtTreeMap.getElem?_insert, if_neg (by simpa using he)]
      simp [he, SealedTo]

def reach (calls : List Call) : Cell := exec step Cell.new calls

@[simp] theorem reach_concat (calls : List Call) (a : Call) :
    reach (calls ++ [a]) = step (reach calls) a :=
  exec_concat step Cell.new calls a

theorem reach_append (p q : List Call) : reach (p ++ q) = exec step (reach p) q :=
  exec_append step Cell.new p q

theorem keyed_new : Keyed Cell.new := by
  constructor
  · simp [Cell.new]
  · intro epoch h
    have hne : (0 : ℕ) ≠ epoch := h.ne
    simp [Cell.new, hne]

/-- **The key of an epoch was sealed to those who were members at some moment of it.** -/
theorem sealedTo_reach (calls : List Call) (epoch : ℕ) (node : NodeId) :
    SealedTo (reach calls) epoch node ↔
      ∃ q, q <+: calls ∧ (reach q).keyEpoch = epoch ∧ node ∈ (reach q).members := by
  refine exec_iff_sometime (I := Keyed) (P := fun c => SealedTo c epoch node)
    (Q := fun c => c.keyEpoch = epoch ∧ node ∈ c.members) (fun _ a hc => keyed_step hc a)
    (fun _ a hc => sealedTo_step hc a epoch node) keyed_new ?_ calls
  -- the first epoch is sealed to nobody, and there are no members
  simp [SealedTo, Cell.new, ExtTreeMap.getElem?_insert]

theorem keyEpoch_exec_le (c : Cell) (calls : List Call) :
    c.keyEpoch ≤ (exec step c calls).keyEpoch :=
  exec_inv (I := fun d => c.keyEpoch ≤ d.keyEpoch)
    (fun d a h => h.trans (keyEpoch_step_le d a)) le_rfl calls

/-! ## Who is a member again -/

variable {node : NodeId}

theorem member_step {a : Call} (h : node ∈ (step c a).members) :
    node ∈ c.members ∨ a = .admitNode node ∧ Accepts c a := by
  rcases effect_or_refused c a with ⟨haccepts, heffect⟩ | ⟨-, hrefused⟩
  · generalize step c a = c' at h heffect
    cases heffect with
    | admitted node' _ _ =>
      rcases Finset.mem_insert.1 h with rfl | h
      · exact .inr ⟨rfl, haccepts⟩
      · exact .inl h
    | left => exact .inl (Finset.mem_of_mem_erase h)
    | begun | ended | placed => exact .inl h
  · exact .inl (by rwa [hrefused] at h)

theorem admitted_of_member {calls : List Call} (hnot : node ∉ c.members)
    (h : node ∈ (exec step c calls).members) :
    ∃ p q, calls = p ++ .admitNode node :: q ∧ Accepts (exec step c p) (.admitNode node) := by
  have hjoined : Ever step (fun c a => a = .admitNode node ∧ Accepts c a) c calls :=
    ever_of_exec (I := fun _ => True) (P := fun d => node ∈ d.members) (fun _ _ _ => trivial)
      (fun _ _ _ hmember => (member_step hmember).symm) trivial hnot calls h
  obtain ⟨p, a, q, hcalls, rfl, haccepts⟩ := hjoined
  exact ⟨p, q, hcalls, haccepts⟩

/-! ## Objects -/

def Placed (c : Cell) (object : ObjectId) (class_ : VisClass) (epoch : ℕ) : Prop :=
  object ∈ c.placed ∧ c.objClass[object]? = some class_ ∧ c.objEpoch[object]? = some epoch

variable {object : ObjectId}

theorem placed_of_accepts {class_ : VisClass} {tags : Finset String}
    (h : Accepts c (.placeObject object class_ tags)) :
    Placed (step c (.placeObject object class_ tags)) object class_ c.keyEpoch := by
  have heffect := h.effect
  generalize step c (.placeObject object class_ tags) = c' at heffect
  cases heffect
  simp [Placed]

theorem placed_step {class_ : VisClass} {epoch : ℕ} (h : Placed c object class_ epoch) (a : Call) :
    Placed (step c a) object class_ epoch := by
  rcases effect_or_refused c a with ⟨-, heffect⟩ | ⟨-, hrefused⟩
  · generalize step c a = c' at heffect
    cases heffect with
    | admitted | left | begun | ended => exact h
    | placed other _ _ _ hother =>
      have hne : other ≠ object := fun he => hother (he ▸ h.1)
      obtain ⟨hplaced, hclass, hepoch⟩ := h
      exact ⟨Finset.mem_insert_of_mem hplaced, by simpa [ExtTreeMap.getElem?_insert, hne],
        by simpa [ExtTreeMap.getElem?_insert, hne]⟩
  · rwa [hrefused]

theorem nodeCanDecrypt_iff {epoch : ℕ} (h : Placed c object .cellEncrypted epoch) (node : NodeId) :
    c.nodeCanDecrypt node object = true ↔ SealedTo c epoch node := by
  obtain ⟨hplaced, hclass, hepoch⟩ := h
  simp [Cell.nodeCanDecrypt, hplaced, hclass, hepoch, SealedTo, Option.any_eq_true]

theorem nodeCanDecrypt_reach {p r : List Call} {tags : Finset String}
    (h : Accepts (reach p) (.placeObject object .cellEncrypted tags)) (node : NodeId) :
    (reach (p ++ .placeObject object .cellEncrypted tags :: r)).nodeCanDecrypt node object = true ↔
      ∃ q, q <+: p ++ .placeObject object .cellEncrypted tags :: r ∧
        (reach q).keyEpoch = (reach p).keyEpoch ∧ node ∈ (reach q).members := by
  have hplaced : Placed (reach (p ++ .placeObject object .cellEncrypted tags :: r)) object
      .cellEncrypted (reach p).keyEpoch := by
    rw [reach_append, exec_cons]
    exact exec_inv (I := fun c => Placed c object .cellEncrypted (reach p).keyEpoch)
      (fun _ a hs => placed_step hs a) (placed_of_accepts h) r
  rw [nodeCanDecrypt_iff hplaced, sealedTo_reach]

theorem keyEpoch_leave (h : Accepts c (.leave node)) :
    (step c (.leave node)).keyEpoch = c.keyEpoch + 1 ∧
      node ∉ (step c (.leave node)).members := by
  have heffect := h.effect
  generalize step c (.leave node) = c' at heffect
  cases heffect
  exact ⟨rfl, Finset.notMem_erase node c.members⟩

theorem admitted_after_leave {p q calls : List Call} (hleave : Accepts (reach p) (.leave node))
    (hcalls : p ++ .leave node :: q <+: calls) {m : List Call} (hm : m <+: calls)
    (hepoch : (reach m).keyEpoch = (reach (p ++ .leave node :: q)).keyEpoch)
    (hmember : node ∈ (reach m).members) :
    ∃ s t, p ++ .leave node :: s ++ .admitNode node :: t = calls ∧
      Accepts (reach (p ++ .leave node :: s)) (.admitNode node) ∧
      (reach (p ++ .leave node :: s)).keyEpoch ≤ (reach (p ++ .leave node :: q)).keyEpoch := by
  obtain ⟨hnext, hnot⟩ := keyEpoch_leave hleave
  have hlater : ∀ l, (reach p).keyEpoch < (reach (p ++ .leave node :: l)).keyEpoch := by
    intro l
    have hle := keyEpoch_exec_le (step (reach p) (.leave node)) l
    rw [reach_append, exec_cons]
    omega
  -- the moment is after the leave: before it the epoch is an earlier one
  obtain ⟨l, rfl⟩ : ∃ l, m = p ++ .leave node :: l := by
    rcases List.prefix_or_prefix_of_prefix hm ((List.prefix_append p _).trans hcalls) with
      ⟨d, rfl⟩ | ⟨d, rfl⟩
    · have hle := keyEpoch_exec_le (reach m) d
      rw [← reach_append] at hle
      have := hlater q
      omega
    · cases d with
      | nil =>
        have := hlater q
        simp at hepoch
        omega
      | cons b d =>
        obtain ⟨u, rfl⟩ := hm
        obtain ⟨v, hv⟩ := hcalls
        simp only [List.append_assoc, List.cons_append, List.append_cancel_left_eq,
          List.cons.injEq] at hv
        exact ⟨d, by rw [hv.1]⟩
  rw [reach_append, exec_cons] at hmember
  obtain ⟨s, t, rfl, haccepts⟩ := admitted_of_member hnot hmember
  obtain ⟨u, rfl⟩ := hm
  refine ⟨s, t ++ u, by simp, ?_, ?_⟩
  · rwa [reach_append, exec_cons]
  · have hle := keyEpoch_exec_le (reach (p ++ .leave node :: s)) (.admitNode node :: t)
    rw [← reach_append] at hle
    rw [← hepoch]
    simpa using hle

/-- **Group key and forward secrecy.** -/
theorem cell_secrecy (calls : List Call) :
    (∀ (p : List Call) (object : ObjectId) (tags : Finset String) (r : List Call),
      calls = p ++ .placeObject object .cellEncrypted tags :: r →
      Accepts (reach p) (.placeObject object .cellEncrypted tags) →
      ∀ node, (reach calls).nodeCanDecrypt node object = true ↔
        ∃ q, q <+: calls ∧ (reach q).keyEpoch = (reach p).keyEpoch ∧ node ∈ (reach q).members) ∧
    (∀ (p : List Call) (node : NodeId) (q : List Call) (object : ObjectId) (tags : Finset String)
      (r : List Call),
      calls = p ++ .leave node :: q ++ .placeObject object .cellEncrypted tags :: r →
      Accepts (reach p) (.leave node) →
      Accepts (reach (p ++ .leave node :: q)) (.placeObject object .cellEncrypted tags) →
      (reach calls).nodeCanDecrypt node object = true →
      ∃ s t : List Call, p ++ .leave node :: s ++ .admitNode node :: t = calls ∧
        Accepts (reach (p ++ .leave node :: s)) (.admitNode node) ∧
        (reach (p ++ .leave node :: s)).keyEpoch ≤ (reach (p ++ .leave node :: q)).keyEpoch) ∧
    (∀ (p : List Call) (a : Call), p ++ [a] <+: calls → (reach p).rotating = true →
      (reach (p ++ [a])).placed = (reach p).placed) := by
  refine ⟨?_, ?_, ?_⟩
  · rintro p object tags r rfl haccepts node
    exact nodeCanDecrypt_reach haccepts node
  · rintro p node q object tags r rfl hleave hplace hdecrypts
    obtain ⟨m, hm, hepoch, hmember⟩ := (nodeCanDecrypt_reach hplace node).1 hdecrypts
    exact admitted_after_leave hleave (List.prefix_append _ _) hm hepoch hmember
  · intro p a _ hrotating
    rw [reach_concat]
    rcases effect_or_refused (reach p) a with ⟨-, heffect⟩ | ⟨-, hrefused⟩
    · generalize step (reach p) a = c at heffect
      cases heffect with
      | admitted | left | begun | ended => rfl
      | placed _ _ _ hopen _ => simp [hopen] at hrotating
    · rw [hrefused]

def leaverCalls : List Call :=
  [.admitNode "a", .admitNode "b", .placeObject "x" .cellEncrypted ∅, .leave "a",
    .placeObject "y" .cellEncrypted ∅]

theorem leaver_reads :
    (∃ q, q <+: leaverCalls ∧ (reach q).keyEpoch = 0 ∧ "a" ∈ (reach q).members) ∧
      (reach leaverCalls).nodeCanDecrypt "a" "y" = false := by
  have hplaced : Accepts (reach [.admitNode "a", .admitNode "b"])
      (.placeObject "x" .cellEncrypted ∅) := by
    decide +kernel
  have hdecrypts : (reach leaverCalls).nodeCanDecrypt "a" "x" = true := by
    decide +kernel
  refine ⟨?_, by decide +kernel⟩
  exact ((cell_secrecy leaverCalls).1 _ "x" ∅ [.leave "a", .placeObject "y" .cellEncrypted ∅] rfl
    hplaced "a").1 hdecrypts

end Pillar.Cells
