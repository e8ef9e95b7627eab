import Pillar.Ipam.Allocator

/-!
# The operator surface

`pillar-ipam`'s `IpamOperator`: addresses are allocated, reserved and released under names.

* `grantFor_spec`, `allocateFor_spec`, `releaseAt_spec` — **what a call to the pools does to the
  holders**, in all domains and of all addresses.
-/

namespace Pillar.Ipam

open Std Coordination Lib.TreeMap Lib.Runs

/-! ## Holders -/

namespace DelegatedAllocator

variable {A A' : DelegatedAllocator}

theorem allocatorOf_eq_some_iff {addr : IpAddr} {x : NodeId} :
    A.allocatorOf addr = some x ↔
      ∃ i, A.pool.indexOf addr = some i ∧ A.register.holders[i]? = some x := by
  rw [allocatorOf]
  cases A.pool.indexOf addr with
  | none => simp
  | some i => simp [LeaseRegister.holder]

theorem allocatorOf_congr (hpool : A'.pool = A.pool)
    (hholders : A'.register.holders = A.register.holders) (addr : IpAddr) :
    A'.allocatorOf addr = A.allocatorOf addr := by
  rw [allocatorOf, allocatorOf, hpool]
  cases A.pool.indexOf addr with
  | none => rfl
  | some i => simp [LeaseRegister.holder, hholders]

theorem allocatorOf_update {addr : IpAddr} {i : ℕ} {x : Option NodeId}
    (hi : A.pool.indexOf addr = some i) (hpool : A'.pool = A.pool)
    (hholders : ∀ j, A'.register.holders[j]? = if j = i then x else A.register.holders[j]?)
    (addr' : IpAddr) :
    A'.allocatorOf addr' = if addr' = addr then x else A.allocatorOf addr' := by
  rw [allocatorOf, allocatorOf, hpool]
  by_cases haddr : addr' = addr
  · subst haddr
    simp [hi, LeaseRegister.holder, hholders]
  · rw [if_neg haddr]
    cases hj : A.pool.indexOf addr' with
    | none => rfl
    | some j =>
      have hne : j ≠ i := by
        rintro rfl
        exact haddr (Pool.indexOf_inj hj hi)
      simp [LeaseRegister.holder, hholders, hne]

end DelegatedAllocator

namespace TopologyScopedIpam

def domain (I : TopologyScopedIpam) (node : NodeId) : Option String := I.topology.label I.tier node

def holderIn (I : TopologyScopedIpam) (scope : String) (addr : IpAddr) : Option NodeId :=
  (I.slot (scope, addr.isIpv6)).bind fun A => A.allocatorOf addr

def holds (I : TopologyScopedIpam) (node : NodeId) (addr : IpAddr) : Bool :=
  decide ((I.domain node).bind (fun scope => I.holderIn scope addr) = some node)

variable {I : TopologyScopedIpam}

variable {node : NodeId} {addr : IpAddr}

theorem holds_iff :
    I.holds node addr = true ↔
      ∃ scope, I.domain node = some scope ∧ I.holderIn scope addr = some node := by
  rw [holds, decide_eq_true_eq, Option.bind_eq_some_iff]

theorem allocatorFor_eq_ok_iff {wantV6 : Bool} {key : String × Bool} {A : DelegatedAllocator} :
    I.allocatorFor node wantV6 = .ok (key, A) ↔
      ∃ scope, I.domain node = some scope ∧ key = (scope, wantV6) ∧ I.slot key = some A := by
  unfold allocatorFor scopeOf domain
  cases I.topology.label I.tier node with
  | none => simp
  | some scope =>
    cases hslot : I.slot (scope, wantV6) with
    | none =>
      simp only [hslot, reduceCtorEq, Option.some.injEq, false_iff]
      rintro ⟨_, rfl, rfl, h⟩
      rw [hslot] at h
      cases h
    | some B =>
      simp only [hslot, Except.ok.injEq, Prod.mk.injEq, Option.some.injEq]
      constructor
      · rintro ⟨rfl, rfl⟩
        exact ⟨scope, rfl, rfl, hslot⟩
      · rintro ⟨_, rfl, rfl, h⟩
        exact ⟨rfl, Option.some.inj (hslot.symm.trans h)⟩

@[simp] theorem domain_setSlot (key : String × Bool) (A : DelegatedAllocator) :
    (I.setSlot key A).domain = I.domain := rfl

theorem holderIn_setSlot (scope scope' : String) (wantV6 : Bool) (A : DelegatedAllocator)
    (addr : IpAddr) :
    (I.setSlot (scope, wantV6) A).holderIn scope' addr =
      if scope' = scope ∧ addr.isIpv6 = wantV6 then A.allocatorOf addr
      else I.holderIn scope' addr := by
  rw [holderIn, slot_setSlot, holderIn]
  by_cases hsame : scope' = scope ∧ addr.isIpv6 = wantV6
  · rw [if_pos hsame, if_pos (Prod.ext hsame.1 hsame.2), Option.bind_some]
  · rw [if_neg hsame, if_neg fun h => hsame (Prod.mk.inj h)]

variable {scope : String} {wantV6 : Bool} {A A' : DelegatedAllocator}

theorem holderIn_setSlot_same (hA : I.slot (scope, wantV6) = some A)
    (h : ∀ addr, A'.allocatorOf addr = A.allocatorOf addr) (scope' : String) (addr : IpAddr) :
    (I.setSlot (scope, wantV6) A').holderIn scope' addr = I.holderIn scope' addr := by
  rw [holderIn_setSlot]
  split_ifs with hsame
  · obtain ⟨rfl, rfl⟩ := hsame
    rw [h, holderIn, hA, Option.bind_some]
  · rfl

theorem holderIn_setSlot_update {x : Option NodeId} (hA : I.slot (scope, addr.isIpv6) = some A)
    (h : ∀ addr', A'.allocatorOf addr' = if addr' = addr then x else A.allocatorOf addr')
    (scope' : String) (addr' : IpAddr) :
    (I.setSlot (scope, addr.isIpv6) A').holderIn scope' addr' =
      if scope' = scope ∧ addr' = addr then x else I.holderIn scope' addr' := by
  rw [holderIn_setSlot]
  by_cases hscope : scope' = scope
  · subst hscope
    by_cases haddr : addr' = addr
    · subst haddr
      simp [h]
    · by_cases hfamily : addr'.isIpv6 = addr.isIpv6
      · simp [hfamily, haddr, h, holderIn, hA]
      · simp [hfamily, haddr]
  · simp [hscope]

/-! ## What a call to the pools does to the holders -/

theorem grantFor_spec (voter node : NodeId) (addr : IpAddr) :
    (I.grantFor voter node addr).1.domain = I.domain ∧
      ∀ scope' addr', (I.grantFor voter node addr).1.holderIn scope' addr' =
        I.holderIn scope' addr' := by
  rw [grantFor]
  cases hA : I.allocatorFor node addr.isIpv6 with
  | error e => exact ⟨rfl, fun _ _ => rfl⟩
  | ok found =>
    obtain ⟨key, A⟩ := found
    obtain ⟨scope, -, rfl, hslot⟩ := allocatorFor_eq_ok_iff.1 hA
    obtain ⟨hpool, hholders⟩ := A.grant_keeps voter node addr
    exact ⟨rfl, holderIn_setSlot_same hslot (DelegatedAllocator.allocatorOf_congr hpool hholders)⟩

theorem holderIn_of_slot (h : I.slot (scope, addr.isIpv6) = some A) :
    I.holderIn scope addr = A.allocatorOf addr := by
  rw [holderIn, h, Option.bind_some]

theorem allocatorFor_ne_error {holder : NodeId} (hscope : I.domain node = some scope)
    (hholder : I.holderIn scope addr = some holder) (e : ScopedError) :
    I.allocatorFor node addr.isIpv6 ≠ .error e := by
  obtain ⟨A, hslot, -⟩ := Option.bind_eq_some_iff.1 hholder
  rw [allocatorFor_eq_ok_iff.2 ⟨scope, hscope, rfl, hslot⟩]
  exact fun h => nomatch h

theorem allocateFor_spec (node : NodeId) (addr : IpAddr) :
    (I.allocateFor node addr).1.domain = I.domain ∧
      (((I.allocateFor node addr).2 ≠ .ok true ∧ I.holds node addr = false ∧
          ∀ scope' addr', (I.allocateFor node addr).1.holderIn scope' addr' =
            I.holderIn scope' addr') ∨
        ∃ scope, I.domain node = some scope ∧ (I.allocateFor node addr).2 = .ok true ∧
          (∀ x, I.holderIn scope addr = some x → x = node) ∧
          ∀ scope' addr', (I.allocateFor node addr).1.holderIn scope' addr' =
            if scope' = scope ∧ addr' = addr then some node else I.holderIn scope' addr') := by
  rw [allocateFor]
  cases hA : I.allocatorFor node addr.isIpv6 with
  | error e =>
    refine ⟨rfl, .inl ⟨by simp, ?_, fun _ _ => rfl⟩⟩
    rw [Bool.eq_false_iff, Ne, holds_iff]
    rintro ⟨scope, hscope, hholder⟩
    exact allocatorFor_ne_error hscope hholder e hA
  | ok found =>
    obtain ⟨key, A⟩ := found
    obtain ⟨scope, hscope, rfl, hslot⟩ := allocatorFor_eq_ok_iff.1 hA
    have hholder := holderIn_of_slot hslot
    refine ⟨rfl, ?_⟩
    simp only [mapError_eq_ok_iff, ne_eq]
    rcases A.tryAllocate_cases node addr with ⟨hsame, hfalse⟩ | ⟨i, hi, htrue, hbefore, hpool, hafter⟩
    · refine .inl ⟨hfalse, ?_, ?_⟩
      · rw [Bool.eq_false_iff, Ne, holds_iff]
        rintro ⟨scope', hscope', hnode⟩
        obtain rfl := Option.some.inj (hscope.symm.trans hscope')
        exact hfalse (DelegatedAllocator.tryAllocate_of_allocatorOf (hholder ▸ hnode))
      · rw [hsame]
        exact holderIn_setSlot_same hslot fun _ => rfl
    · refine .inr ⟨scope, hscope, htrue, ?_, ?_⟩
      · intro x hx
        rw [hholder, DelegatedAllocator.allocatorOf_eq_some_iff] at hx
        obtain ⟨j, hj, hx⟩ := hx
        obtain rfl := Option.some.inj (hi.symm.trans hj)
        exact hbefore x hx
      · exact holderIn_setSlot_update hslot (DelegatedAllocator.allocatorOf_update hi hpool hafter)

theorem releaseAt_spec (node holder : NodeId) (addr : IpAddr) :
    (I.releaseAt node addr.isIpv6 holder addr).1.domain = I.domain ∧
      ∀ scope' addr', (I.releaseAt node addr.isIpv6 holder addr).1.holderIn scope' addr' =
        if I.domain node = some scope' ∧ addr' = addr ∧ I.holderIn scope' addr = some holder then
          none
        else I.holderIn scope' addr' := by
  rw [releaseAt]
  cases hA : I.allocatorFor node addr.isIpv6 with
  | error e =>
    refine ⟨rfl, fun scope' addr' => (if_neg ?_).symm⟩
    rintro ⟨hscope, -, hholder⟩
    exact allocatorFor_ne_error hscope hholder e hA
  | ok found =>
    obtain ⟨key, A⟩ := found
    obtain ⟨scope, hscope, rfl, hslot⟩ := allocatorFor_eq_ok_iff.1 hA
    have hholder := holderIn_of_slot hslot
    refine ⟨rfl, fun scope' addr' => ?_⟩
    simp only [hscope, Option.some.injEq]
    by_cases hheld : A.allocatorOf addr = some holder
    · obtain ⟨i, hi, hpool, hafter⟩ := DelegatedAllocator.release_of_allocatorOf hheld
      rw [holderIn_setSlot_update hslot (DelegatedAllocator.allocatorOf_update hi hpool hafter)]
      by_cases hscope' : scope' = scope
      · subst hscope'
        simp [hholder, hheld]
      · simp [hscope', Ne.symm hscope']
    · rw [DelegatedAllocator.release_of_not_allocatorOf hheld,
        holderIn_setSlot_same hslot fun _ => rfl, if_neg]
      rintro ⟨rfl, -, h⟩
      exact hheld (hholder ▸ h)

/-! ## What it does to those who hold addresses -/

theorem holds_congr {J : TopologyScopedIpam} (hdomain : J.domain = I.domain)
    (hholder : ∀ scope addr, J.holderIn scope addr = I.holderIn scope addr) (n : NodeId)
    (addr : IpAddr) : J.holds n addr = I.holds n addr := by
  rw [Bool.eq_iff_iff, holds_iff, holds_iff, hdomain]
  simp [hholder]

theorem holds_allocateFor (h : (I.allocateFor node addr).2 = .ok true) (n : NodeId) (addr' : IpAddr)
    :
    (I.allocateFor node addr).1.holds n addr' = true ↔
      (n = node ∧ addr' = addr) ∨ I.holds n addr' = true := by
  obtain ⟨hdomain, ⟨hfalse, -⟩ | ⟨scope, hscope, -, hown, hafter⟩⟩ := I.allocateFor_spec node addr
  · exact absurd h hfalse
  simp only [holds_iff, hdomain, hafter]
  constructor
  · rintro ⟨scope', hscope', hn⟩
    split_ifs at hn with hsame
    · exact .inl ⟨(Option.some.inj hn).symm, hsame.2⟩
    · exact .inr ⟨scope', hscope', hn⟩
  · rintro (⟨rfl, rfl⟩ | ⟨scope', hscope', hn⟩)
    · exact ⟨scope, hscope, if_pos ⟨rfl, rfl⟩⟩
    · refine ⟨scope', hscope', ?_⟩
      split_ifs with hsame
      · -- nobody else could hold it
        obtain ⟨rfl, rfl⟩ := hsame
        rw [hown n hn]
      · exact hn

theorem holds_releaseAt (holder n : NodeId) (addr addr' : IpAddr) :
    (I.releaseAt holder addr.isIpv6 holder addr).1.holds n addr' = true ↔
      ¬ (n = holder ∧ addr' = addr) ∧ I.holds n addr' = true := by
  obtain ⟨hdomain, hafter⟩ := I.releaseAt_spec holder holder addr
  simp only [holds_iff, hdomain, hafter]
  constructor
  · rintro ⟨scope, hscope, hn⟩
    split_ifs at hn with hgone
    refine ⟨?_, scope, hscope, hn⟩
    rintro ⟨rfl, rfl⟩
    exact hgone ⟨hscope, rfl, hn⟩
  · rintro ⟨hne, scope, hscope, hn⟩
    refine ⟨scope, hscope, ?_⟩
    rw [if_neg]
    · exact hn
    · rintro ⟨-, rfl, hholder⟩
      exact hne ⟨Option.some.inj (hn.symm.trans hholder), rfl⟩

end TopologyScopedIpam

/-! ## The operator -/

/-- What is recorded under a name. -/
structure Binding where
  node : NodeId
  addr : IpAddr
  /-- Whether a quorum backed it when it was recorded. -/
  allocated : Bool
  deriving DecidableEq

/-- Why an operator's call is refused. -/
inductive OperatorError where
  | addressAlreadyRecorded (addr : IpAddr) (existingName : String)
  | notAllocated (addr : IpAddr)
  | notRecorded (name : String)
  | scoped (e : ScopedError)
  deriving DecidableEq

structure IpamOperator where
  ipam : TopologyScopedIpam
  records : ExtTreeMap String Binding

namespace IpamOperator

def new (ipam : TopologyScopedIpam) : IpamOperator := ⟨ipam, ∅⟩

variable (O : IpamOperator)

def ensureFree (name : String) (addr : IpAddr) : Except OperatorError Unit :=
  match O.records.toList.find? fun e => decide (e.2.addr = addr ∧ e.1 ≠ name) with
  | some e => .error (.addressAlreadyRecorded addr e.1)
  | none => .ok ()

def allocate (name : String) (node : NodeId) (addr : IpAddr) :
    IpamOperator × Except OperatorError Binding :=
  match O.ensureFree name addr with
  | .error e => (O, .error e)
  | .ok () =>
    let r := O.ipam.allocateFor node addr
    match r.2 with
    | .error e => ({ O with ipam := r.1 }, .error (.scoped e))
    | .ok false => ({ O with ipam := r.1 }, .error (.notAllocated addr))
    | .ok true =>
      ({ ipam := r.1, records := O.records.insert name ⟨node, addr, true⟩ }, .ok ⟨node, addr, true⟩)

def reserve (name : String) (node : NodeId) (addr : IpAddr) :
    IpamOperator × Except OperatorError Binding :=
  match O.ensureFree name addr with
  | .error e => (O, .error e)
  | .ok () =>
    let r := O.ipam.allocateFor node addr
    match r.2 with
    | .error e => ({ O with ipam := r.1 }, .error (.scoped e))
    | .ok allocated =>
      ({ ipam := r.1, records := O.records.insert name ⟨node, addr, allocated⟩ },
        .ok ⟨node, addr, allocated⟩)

def release (name : String) : IpamOperator × Except OperatorError Binding :=
  match O.records[name]? with
  | none => (O, .error (.notRecorded name))
  | some b =>
    ({ ipam := (O.ipam.releaseAt b.node b.addr.isIpv6 b.node b.addr).1
       records := O.records.erase name }, .ok b)

def recordedAddr (name : String) : Option IpAddr := O.records[name]?.map Binding.addr

variable {O}

theorem ensureFree_eq_ok_iff {name : String} {addr : IpAddr} :
    O.ensureFree name addr = .ok () ↔
      ∀ (n : String) (b : Binding), O.records[n]? = some b → b.addr = addr → n = name := by
  have hfind : O.ensureFree name addr = .ok () ↔
      O.records.toList.find? (fun e => decide (e.2.addr = addr ∧ e.1 ≠ name)) = none := by
    rw [ensureFree]
    cases O.records.toList.find? fun e => decide (e.2.addr = addr ∧ e.1 ≠ name) <;> simp
  rw [hfind, List.find?_eq_none]
  simp

theorem allocate_eq_ok_iff {name : String} {node : NodeId} {addr : IpAddr} {b : Binding} :
    (O.allocate name node addr).2 = .ok b ↔
      O.ensureFree name addr = .ok () ∧ (O.ipam.allocateFor node addr).2 = .ok true ∧
        b = ⟨node, addr, true⟩ := by
  rw [allocate]
  cases O.ensureFree name addr with
  | error e => simp
  | ok _ =>
    simp only [true_and]
    split
    · rename_i h
      simp [h]
    · rename_i h
      simp [h]
    · rename_i h
      simp [h, eq_comm]

/-! ## Calls -/

/-- A call of the operator, or a grant in between. -/
inductive Call where
  | allocate (name : String) (node : NodeId) (addr : IpAddr)
  | reserve (name : String) (node : NodeId) (addr : IpAddr)
  | release (name : String)
  | grantFor (voter node : NodeId) (addr : IpAddr)
  deriving DecidableEq

def step (O : IpamOperator) : Call → IpamOperator
  | .allocate name node addr => (O.allocate name node addr).1
  | .reserve name node addr => (O.reserve name node addr).1
  | .release name => (O.release name).1
  | .grantFor voter node addr => { O with ipam := (O.ipam.grantFor voter node addr).1 }

def recordsAs (O : IpamOperator) : Call → Option (String × Binding)
  | .allocate name node addr => (O.allocate name node addr).2.toOption.map fun b => (name, b)
  | .reserve name node addr => (O.reserve name node addr).2.toOption.map fun b => (name, b)
  | .release _ | .grantFor _ _ _ => none

inductive Effect (O : IpamOperator) : IpamOperator → Option (String × Binding) → Prop
  | same {O' : IpamOperator} (hrecords : O'.records = O.records)
      (hdomain : O'.ipam.domain = O.ipam.domain)
      (hholder : ∀ scope addr, O'.ipam.holderIn scope addr = O.ipam.holderIn scope addr) :
      Effect O O' none
  /-- An address that no other name has is recorded, as the pool has answered. -/
  | recorded {name : String} {b : Binding}
      (hfree : ∀ (n : String) (c : Binding), O.records[n]? = some c → c.addr = b.addr → n = name)
      (hpool : (O.ipam.allocateFor b.node b.addr).2 = .ok b.allocated) :
      Effect O ⟨(O.ipam.allocateFor b.node b.addr).1, O.records.insert name b⟩ (some (name, b))
  /-- A record is dropped, and its address given back. -/
  | released {name : String} {b : Binding} (hb : O.records[name]? = some b) :
      Effect O ⟨(O.ipam.releaseAt b.node b.addr.isIpv6 b.node b.addr).1, O.records.erase name⟩ none

theorem effect_refused {node : NodeId} {addr : IpAddr}
    (h : (O.ipam.allocateFor node addr).2 ≠ .ok true) :
    Effect O { O with ipam := (O.ipam.allocateFor node addr).1 } none := by
  obtain ⟨hdomain, ⟨-, -, hholder⟩ | ⟨_, -, htrue, -⟩⟩ :=
    TopologyScopedIpam.allocateFor_spec node addr
  · exact .same rfl hdomain hholder
  · exact absurd htrue h

theorem effect_step (O : IpamOperator) (c : Call) : Effect O (O.step c) (O.recordsAs c) := by
  cases c with
  | allocate name node addr =>
    rw [step, recordsAs, allocate]
    split
    · exact .same rfl rfl fun _ _ => rfl
    · rename_i hfree
      simp only
      split <;> rename_i hpool
      · exact effect_refused (by rw [hpool]; simp)
      · exact effect_refused (by rw [hpool]; simp)
      · exact .recorded (b := ⟨node, addr, true⟩) (ensureFree_eq_ok_iff.1 hfree) hpool
  | reserve name node addr =>
    rw [step, recordsAs, reserve]
    split
    · exact .same rfl rfl fun _ _ => rfl
    · rename_i hfree
      simp only
      split <;> rename_i hpool
      · exact effect_refused (by rw [hpool]; simp)
      · exact .recorded (b := ⟨node, addr, _⟩) (ensureFree_eq_ok_iff.1 hfree) hpool
  | release name =>
    rw [step, release]
    cases hb : O.records[name]? with
    | none => exact .same rfl rfl fun _ _ => rfl
    | some b => exact .released hb
  | grantFor voter node addr =>
    obtain ⟨hdomain, hholder⟩ := TopologyScopedIpam.grantFor_spec voter node addr
    exact .same rfl hdomain hholder

/-! ## One name for an address -/

/-- No address is recorded under two names. -/
def RecordedOnce (O : IpamOperator) : Prop :=
  ∀ (n m : String) (b c : Binding), O.records[n]? = some b → O.records[m]? = some c →
    b.addr = c.addr → n = m

theorem recordedOnce_new (ipam : TopologyScopedIpam) : (new ipam).RecordedOnce := by
  intro n m b c hb
  simp [new] at hb

theorem RecordedOnce.insert (h : O.RecordedOnce) {name : String} {b : Binding}
    (hfree : ∀ (n : String) (c : Binding), O.records[n]? = some c → c.addr = b.addr → n = name)
    (ipam : TopologyScopedIpam) : RecordedOnce ⟨ipam, O.records.insert name b⟩ := by
  intro n m c d hc hd hcd
  rcases eq_or_of_getElem?_insert hc with ⟨rfl, rfl⟩ | hold
  · rcases eq_or_of_getElem?_insert hd with ⟨rfl, rfl⟩ | hold'
    · rfl
    · exact (hfree m d hold' hcd.symm).symm
  · rcases eq_or_of_getElem?_insert hd with ⟨rfl, rfl⟩ | hold'
    · exact hfree n c hold hcd
    · exact h n m c d hold hold' hcd

theorem recordedOnce_step (O : IpamOperator) (c : Call) (h : O.RecordedOnce) :
    (O.step c).RecordedOnce := by
  have heffect := O.effect_step c
  generalize O.step c = O' at heffect ⊢
  generalize O.recordsAs c = new at heffect
  cases heffect with
  | same hrecords =>
    rw [RecordedOnce, hrecords]
    exact h
  | recorded hfree _ => exact h.insert hfree _
  | released hb =>
    intro n m b c hb hc
    simp only [ExtTreeMap.getElem?_erase] at hb hc
    split_ifs at hb hc
    exact h n m b c hb hc

def reached (ipam : TopologyScopedIpam) (calls : List Call) : IpamOperator :=
  exec step (new ipam) calls

theorem recordedOnce_reached (ipam : TopologyScopedIpam) (calls : List Call) :
    (reached ipam calls).RecordedOnce :=
  exec_inv recordedOnce_step (recordedOnce_new ipam) calls

end IpamOperator

/-- Two nodes at one site, with a pool of eight addresses and three voters. -/
def onePool : TopologyScopedIpam :=
  (TopologyScopedIpam.mk "site" ∅ (((Topology.new .default).declare "n1" [⟨"site", "s1"⟩]).declare
    "n2" [⟨"site", "s1"⟩])).bindPool "s1" ⟨.v4 0x0a000000, 8⟩ 3

end Pillar.Ipam
