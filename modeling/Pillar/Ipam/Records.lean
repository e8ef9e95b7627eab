import Pillar.Ipam.Operator

/-!
# What is handed out is recorded

The records say which address goes under which name, the registers who holds it.

* `noLeak_iff` — **nothing leaks in a run precisely if no call records over a held binding**.
-/

namespace Pillar.Ipam.IpamOperator

open Std Lib.Runs Lib.TreeMap TopologyScopedIpam

structure Watched where
  operator : IpamOperator
  obtained : Finset (NodeId × IpAddr)

/-- What is handed out with a record: an address that a quorum backed. -/
def handedOut : Option (String × Binding) → Finset (NodeId × IpAddr)
  | some (_, b) => if b.allocated then {(b.node, b.addr)} else ∅
  | none => ∅

def watch (s : Watched) (c : Call) : Watched :=
  ⟨s.operator.step c, s.obtained ∪ handedOut (s.operator.recordsAs c)⟩

def Watched.HoldsThrough (s : Watched) (node : NodeId) (addr : IpAddr) : Prop :=
  (node, addr) ∈ s.obtained ∧ s.operator.ipam.holds node addr = true

structure NoLeak (s : Watched) : Prop where
  /-- What is held is recorded under exactly one name. -/
  recorded : ∀ node addr, s.HoldsThrough node addr →
    ∃! name, s.operator.recordedAddr name = some addr
  once : ∀ name name' addr, s.operator.recordedAddr name = some addr →
    s.operator.recordedAddr name' = some addr → name = name'
  freed : ∀ node addr name scope, s.HoldsThrough node addr →
    s.operator.recordedAddr name = some addr → s.operator.ipam.domain node = some scope →
    (s.operator.release name).1.ipam.holderIn scope addr = none

def KeepsHeld (s : Watched) (c : Call) : Prop :=
  ∀ name b old, s.operator.recordsAs c = some (name, b) → s.operator.records[name]? = some old →
    s.operator.ipam.holds old.node old.addr = true → old.node = b.node ∧ old.addr = b.addr

/-! ## The invariant -/

def Traced (s : Watched) : Prop :=
  ∀ node addr, s.HoldsThrough node addr →
    ∃ (name : String) (b : Binding), s.operator.records[name]? = some b ∧ b.node = node ∧ b.addr = addr

/-- Addresses have one name, and what a recorded node holds was handed out to it. -/
structure Orderly (s : Watched) : Prop where
  once : s.operator.RecordedOnce
  obtained : ∀ (name : String) (b : Binding), s.operator.records[name]? = some b →
    s.operator.ipam.holds b.node b.addr = true → (b.node, b.addr) ∈ s.obtained

variable {O : IpamOperator} {name : String}

theorem recordedAddr_eq_some_iff {addr : IpAddr} :
    O.recordedAddr name = some addr ↔ ∃ b, O.records[name]? = some b ∧ b.addr = addr := by
  rw [recordedAddr, Option.map_eq_some_iff]

variable {b : Binding}

theorem holderIn_release (hb : O.records[name]? = some b) (scope : String) (addr : IpAddr) :
    (O.release name).1.ipam.holderIn scope addr =
      if O.ipam.domain b.node = some scope ∧ addr = b.addr ∧
          O.ipam.holderIn scope b.addr = some b.node then none
      else O.ipam.holderIn scope addr := by
  rw [release, hb]
  exact (O.ipam.releaseAt_spec b.node b.node b.addr).2 scope addr

variable {s : Watched}

/-- **Nothing leaks if all is traced.** -/
theorem noLeak_iff_traced (h : Orderly s) : NoLeak s ↔ Traced s := by
  constructor
  · intro hleak node addr hheld
    obtain ⟨name, hname, -⟩ := hleak.recorded node addr hheld
    obtain ⟨b, hb, rfl⟩ := recordedAddr_eq_some_iff.1 hname
    obtain ⟨scope, hscope, hholder⟩ := holds_iff.1 hheld.2
    have hfreed := hleak.freed node b.addr name scope hheld hname hscope
    rw [holderIn_release hb] at hfreed
    split_ifs at hfreed with hown
    · exact ⟨name, b, hb, Option.some.inj (hown.2.2.symm.trans hholder), rfl⟩
    · rw [hholder] at hfreed
      cases hfreed
  · intro htraced
    have honce : ∀ name name' addr, s.operator.recordedAddr name = some addr →
        s.operator.recordedAddr name' = some addr → name = name' := by
      intro name name' addr hname hname'
      obtain ⟨b, hb, rfl⟩ := recordedAddr_eq_some_iff.1 hname
      obtain ⟨c, hc, haddr⟩ := recordedAddr_eq_some_iff.1 hname'
      exact h.once name name' b c hb hc haddr.symm
    refine ⟨?_, honce, ?_⟩
    · intro node addr hheld
      obtain ⟨name, b, hb, -, haddr⟩ := htraced node addr hheld
      have hname := recordedAddr_eq_some_iff.2 ⟨b, hb, haddr⟩
      exact ⟨name, hname, fun name' hname' => honce name' name addr hname' hname⟩
    · intro node addr name scope hheld hname hscope
      obtain ⟨name', b, hb, rfl, rfl⟩ := htraced node addr hheld
      obtain rfl := honce name name' b.addr hname (recordedAddr_eq_some_iff.2 ⟨b, hb, rfl⟩)
      obtain ⟨scope', hscope', hholder⟩ := holds_iff.1 hheld.2
      obtain rfl := Option.some.inj (hscope.symm.trans hscope')
      rw [holderIn_release hb, if_pos ⟨hscope, rfl, hholder⟩]

/-! ## What a step keeps -/

theorem orderly_new (ipam : TopologyScopedIpam) : Orderly ⟨new ipam, ∅⟩ :=
  ⟨recordedOnce_new ipam, by simp [new]⟩

theorem holds_recorded (hpool : (O.ipam.allocateFor b.node b.addr).2 = .ok b.allocated) (n : NodeId)
    (addr : IpAddr) :
    (O.ipam.allocateFor b.node b.addr).1.holds n addr = true ↔
      (b.allocated = true ∧ n = b.node ∧ addr = b.addr) ∨ O.ipam.holds n addr = true := by
  cases hallocated : b.allocated with
  | true =>
    rw [hallocated] at hpool
    simp [holds_allocateFor hpool]
  | false =>
    rw [hallocated] at hpool
    obtain ⟨hdomain, ⟨-, -, hholder⟩ | ⟨_, -, htrue, -⟩⟩ := O.ipam.allocateFor_spec b.node b.addr
    · simp [holds_congr hdomain hholder]
    · rw [hpool] at htrue
      cases htrue

theorem obtained_recorded (h : Orderly s)
    (hpool : (s.operator.ipam.allocateFor b.node b.addr).2 = .ok b.allocated) (n : String)
    (c : Binding) (hc : (s.operator.records.insert name b)[n]? = some c)
    (hholds : (s.operator.ipam.allocateFor b.node b.addr).1.holds c.node c.addr = true) :
    (c.node, c.addr) ∈ s.obtained ∪ handedOut (some (name, b)) := by
  rcases (holds_recorded hpool c.node c.addr).1 hholds with ⟨hallocated, hnode, haddr⟩ | hbefore
  · simp [handedOut, hallocated, hnode, haddr]
  · rcases eq_or_of_getElem?_insert hc with ⟨-, rfl⟩ | hold
    · have htrue : (s.operator.ipam.allocateFor c.node c.addr).2 = .ok true := by
        obtain ⟨-, ⟨-, hnot, -⟩ | ⟨_, -, htrue, -⟩⟩ := s.operator.ipam.allocateFor_spec c.node c.addr
        · exact absurd hbefore (by simp [hnot])
        · exact htrue
      have hallocated := Except.ok.inj (hpool.symm.trans htrue)
      simp [handedOut, hallocated]
    · exact Finset.mem_union_left _ (h.obtained n c hold hbefore)

theorem orderly_step (s : Watched) (c : Call) (h : Orderly s) : Orderly (watch s c) := by
  refine ⟨recordedOnce_step s.operator c h.once, ?_⟩
  rw [watch]
  have heffect := s.operator.effect_step c
  generalize s.operator.step c = O' at heffect ⊢
  generalize s.operator.recordsAs c = new at heffect ⊢
  intro n b hb hholds
  cases heffect with
  | same hrecords hdomain hholder =>
    rw [holds_congr hdomain hholder] at hholds
    exact Finset.mem_union_left _ (h.obtained n b (hrecords ▸ hb) hholds)
  | recorded _ hpool => exact obtained_recorded h hpool n b hb hholds
  | released _ =>
    simp only [ExtTreeMap.getElem?_erase] at hb
    split_ifs at hb
    exact Finset.mem_union_left _
      (h.obtained n b hb ((holds_releaseAt _ b.node _ b.addr).1 hholds).2)

theorem traced_recorded_iff (h : Orderly s) (htraced : Traced s)
    (hpool : (s.operator.ipam.allocateFor b.node b.addr).2 = .ok b.allocated) :
    Traced ⟨⟨(s.operator.ipam.allocateFor b.node b.addr).1, s.operator.records.insert name b⟩,
        s.obtained ∪ handedOut (some (name, b))⟩ ↔
      ∀ old, s.operator.records[name]? = some old →
        s.operator.ipam.holds old.node old.addr = true → old.node = b.node ∧ old.addr = b.addr := by
  constructor
  · intro hafter old hold hheld
    have hmem := h.obtained name old hold hheld
    obtain ⟨name', c, hc, hnode, haddr⟩ := hafter old.node old.addr
      ⟨Finset.mem_union_left _ hmem, (holds_recorded hpool _ _).2 (.inr hheld)⟩
    rcases eq_or_of_getElem?_insert hc with ⟨-, rfl⟩ | hc'
    · exact ⟨hnode.symm, haddr.symm⟩
    · -- then the name is the one that is recorded over
      obtain rfl := h.once name' name c old hc' hold haddr
      obtain rfl : b = c := by simpa using hc
      exact ⟨hnode.symm, haddr.symm⟩
  · intro hkeeps node addr ⟨hmem, hheld⟩
    by_cases hsame : node = b.node ∧ addr = b.addr
    · exact ⟨name, b, by simp, hsame.1.symm, hsame.2.symm⟩
    · have hheld' := ((holds_recorded hpool node addr).1 hheld).resolve_left fun h => hsame h.2
      have hmem' : (node, addr) ∈ s.obtained := by
        rcases Finset.mem_union.1 hmem with hmem | hmem
        · exact hmem
        · rw [handedOut] at hmem
          split_ifs at hmem with hallocated
          · exact absurd (Prod.mk.inj (Finset.mem_singleton.1 hmem)) hsame
          · simp at hmem
      obtain ⟨name', c, hc, rfl, rfl⟩ := htraced node addr ⟨hmem', hheld'⟩
      have hne : name ≠ name' := by
        rintro rfl
        exact hsame (hkeeps c hc hheld')
      exact ⟨name', c, by simpa [ExtTreeMap.getElem?_insert, hne] using hc, rfl, rfl⟩

/-- **One step.** -/
theorem traced_step_iff (h : Orderly s) (htraced : Traced s) (c : Call) :
    Traced (watch s c) ↔ KeepsHeld s c := by
  rw [watch, KeepsHeld]
  have heffect := s.operator.effect_step c
  generalize s.operator.step c = O' at heffect ⊢
  generalize s.operator.recordsAs c = new at heffect ⊢
  cases heffect with
  | same hrecords hdomain hholder =>
    refine iff_of_true ?_ (by simp)
    intro node addr hheld
    obtain ⟨name, b, hb, hnode⟩ := htraced node addr
      ⟨by simpa [handedOut] using hheld.1, (holds_congr hdomain hholder node addr).symm.trans hheld.2⟩
    exact ⟨name, b, hrecords.symm ▸ hb, hnode⟩
  | recorded hfree hpool =>
    rw [traced_recorded_iff h htraced hpool]
    simp only [Option.some.injEq, Prod.mk.injEq]
    constructor
    · rintro hkeeps _ _ old ⟨rfl, rfl⟩
      exact hkeeps old
    · intro hkeeps old
      exact hkeeps _ _ old ⟨rfl, rfl⟩
  | released hb =>
    refine iff_of_true ?_ (by simp)
    intro node addr hheld
    obtain ⟨hne, hbefore⟩ := (holds_releaseAt _ node _ addr).1 hheld.2
    obtain ⟨name, b, hb', rfl, rfl⟩ := htraced node addr ⟨by simpa [handedOut] using hheld.1, hbefore⟩
    refine ⟨name, b, ?_, rfl, rfl⟩
    rw [ExtTreeMap.getElem?_erase, if_neg]
    · exact hb'
    · rw [LawfulEqCmp.compare_eq_iff_eq]
      rintro rfl
      obtain rfl := Option.some.inj (hb.symm.trans hb')
      exact hne ⟨rfl, rfl⟩

theorem noLeak_iff (ipam : TopologyScopedIpam) (l : List Call) :
    Throughout watch NoLeak ⟨new ipam, ∅⟩ l ↔ Along watch KeepsHeld ⟨new ipam, ∅⟩ l := by
  have hnew : Traced ⟨new ipam, ∅⟩ := by
    rintro node addr ⟨hmem, -⟩
    simp at hmem
  refine throughout_iff_along (J := Orderly) (fun s c _ h _ => orderly_step s c h) ?_ (orderly_new ipam)
    ((noLeak_iff_traced (orderly_new ipam)).2 hnew)
  intro s c _ h hleak
  rw [noLeak_iff_traced (orderly_step s c h)]
  exact traced_step_iff h ((noLeak_iff_traced h).1 hleak) c

/-! ## A name that is used twice -/

/-- `n1` gets 10.0.0.1 under the name `vip`, and then 10.0.0.2 under the same name. -/
def vipMoved : List Call :=
  [.grantFor "v1" "n1" (.v4 0x0a000001), .grantFor "v2" "n1" (.v4 0x0a000001),
   .allocate "vip" "n1" (.v4 0x0a000001),
   .grantFor "v1" "n1" (.v4 0x0a000002), .grantFor "v2" "n1" (.v4 0x0a000002),
   .allocate "vip" "n1" (.v4 0x0a000002)]

/-- The first address is still held, and under no name. -/
theorem reused_name_leaks :
    (exec watch ⟨new onePool, ∅⟩ vipMoved).HoldsThrough "n1" (.v4 0x0a000001) ∧
      (∀ name, (exec watch ⟨new onePool, ∅⟩ vipMoved).operator.recordedAddr name ≠
        some (.v4 0x0a000001)) ∧
      ¬ Throughout watch NoLeak ⟨new onePool, ∅⟩ vipMoved := by
  have hheld : (exec watch ⟨new onePool, ∅⟩ vipMoved).HoldsThrough "n1" (.v4 0x0a000001) := by
    unfold Watched.HoldsThrough
    decide +kernel
  have hrecords : (exec watch ⟨new onePool, ∅⟩ vipMoved).operator.records.toList =
      [("vip", ⟨"n1", .v4 0x0a000002, true⟩)] := by
    decide +kernel
  have hnone : ∀ name, (exec watch ⟨new onePool, ∅⟩ vipMoved).operator.recordedAddr name ≠
      some (.v4 0x0a000001) := by
    intro name hname
    obtain ⟨b, hb, haddr⟩ := recordedAddr_eq_some_iff.1 hname
    rw [← ExtTreeMap.mem_toList_iff_getElem?_eq_some, hrecords, List.mem_singleton] at hb
    obtain ⟨-, rfl⟩ := Prod.mk.inj hb
    exact absurd haddr (by decide)
  refine ⟨hheld, hnone, fun h => ?_⟩
  obtain ⟨name, hname, -⟩ := (h vipMoved (List.prefix_refl _)).recorded "n1" (.v4 0x0a000001) hheld
  exact hnone name hname

end Pillar.Ipam.IpamOperator
