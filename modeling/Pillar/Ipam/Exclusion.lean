import Pillar.Ipam.Allocator

/-!
# No address for two nodes

A pool's register lets an offset have one holder. Nothing holds two pools against each other, and a
pool that is bound again comes with an empty register.

* `exclusively_of_bindsApart` — **in every run that binds pools apart, no address is held by two
  nodes**.
-/

namespace Pillar.Ipam

open Std Lib.Runs TopologyScopedIpam

structure Tracked where
  ipam : TopologyScopedIpam
  held : Finset (NodeId × IpAddr)

inductive Call where
  | bindPool (value : String) (pool : Pool) (clusterSize : ℕ)
  | grantFor (voter node : NodeId) (addr : IpAddr)
  | allocateFor (node : NodeId) (addr : IpAddr)
  | release (node : NodeId) (wantV6 : Bool) (holder : NodeId) (addr : IpAddr)
  deriving DecidableEq

def step (s : Tracked) : Call → Tracked
  | .bindPool value pool clusterSize => { s with ipam := s.ipam.bindPool value pool clusterSize }
  | .grantFor voter node addr => { s with ipam := (s.ipam.grantFor voter node addr).1 }
  | .allocateFor node addr =>
    { ipam := (s.ipam.allocateFor node addr).1
      held :=
        if (s.ipam.allocateFor node addr).2 = .ok true then insert (node, addr) s.held else s.held }
  | .release node wantV6 holder addr =>
    { ipam := (s.ipam.releaseAt node wantV6 holder addr).1
      held :=
        if (s.ipam.releaseAt node wantV6 holder addr).2 = .ok true then s.held.erase (holder, addr)
        else s.held }

def Exclusively (s : Tracked) : Prop :=
  ∀ n m addr, (n, addr) ∈ s.held → (m, addr) ∈ s.held → n = m

def BindsApart (s : Tracked) : Call → Prop
  | .bindPool value pool _ =>
    (∀ key A addr, s.ipam.slot key = some A → key ≠ (value, pool.base.isIpv6) →
      pool.contains addr = true → A.pool.contains addr = false) ∧
      ∀ n addr, (n, addr) ∈ s.held → pool.contains addr = false
  | _ => True

/-! ## The invariant -/

/-- Pools have no common addresses; what is held is known to the register of any pool that
has the address; and it is held once. -/
structure Tracked.Inv (s : Tracked) : Prop where
  apart : ∀ key key' A B addr i j, s.ipam.slot key = some A → s.ipam.slot key' = some B →
    A.pool.indexOf addr = some i → B.pool.indexOf addr = some j → key = key'
  known : ∀ n addr key A i, (n, addr) ∈ s.held → s.ipam.slot key = some A →
    A.pool.indexOf addr = some i → A.register.holders[i]? = some n
  exclusively : Exclusively s

theorem inv_new {topology : Topology} {tier : String} {I : TopologyScopedIpam}
    (h : TopologyScopedIpam.new topology tier = .ok I) : Tracked.Inv ⟨I, ∅⟩ := by
  rw [TopologyScopedIpam.new] at h
  split at h
  · cases h
  · cases h
    exact ⟨by simp [slot], by simp, fun n m addr hn => by simp at hn⟩

variable {s : Tracked} {key : String × Bool} {A A' : DelegatedAllocator}

/-- **Another register for the same pool.** -/
theorem Tracked.Inv.setSlot (h : s.Inv) (hA : s.ipam.slot key = some A) (hpool : A'.pool = A.pool)
    {held : Finset (NodeId × IpAddr)}
    (hknown : ∀ n addr i, (n, addr) ∈ held → A.pool.indexOf addr = some i →
      A'.register.holders[i]? = some n)
    (hheld : ∀ n addr, (n, addr) ∈ held → (n, addr) ∈ s.held ∨ ∃ i, A.pool.indexOf addr = some i)
    (hexclusively : ∀ n m addr, (n, addr) ∈ held → (m, addr) ∈ held → n = m) :
    Tracked.Inv ⟨s.ipam.setSlot key A', held⟩ := by
  -- whatever is bound after has the pool of what was bound before
  have hbefore : ∀ k B, (s.ipam.setSlot key A').slot k = some B →
      ∃ B', s.ipam.slot k = some B' ∧ B.pool = B'.pool := by
    intro k B hB
    rw [slot_setSlot] at hB
    split_ifs at hB with hk
    · obtain rfl := Option.some.inj hB
      exact ⟨A, hk ▸ hA, hpool⟩
    · exact ⟨B, hB, rfl⟩
  refine ⟨?_, ?_, hexclusively⟩
  · intro k k' B C addr i j hB hC hi hj
    obtain ⟨B', hB', hpoolB⟩ := hbefore k B hB
    obtain ⟨C', hC', hpoolC⟩ := hbefore k' C hC
    rw [hpoolB] at hi
    rw [hpoolC] at hj
    exact h.apart k k' B' C' addr i j hB' hC' hi hj
  · intro n addr k B i hn hB hi
    simp only [slot_setSlot] at hB
    split_ifs at hB with hk
    · obtain rfl := Option.some.inj hB
      rw [hpool] at hi
      exact hknown n addr i hn hi
    · rcases hheld n addr hn with hn | ⟨j, hj⟩
      · exact h.known n addr k B i hn hB hi
      · exact absurd (h.apart k key B A addr i j hB hA hi hj) hk

theorem exclusively_insert {held : Finset (NodeId × IpAddr)} {node : NodeId} {addr : IpAddr}
    (h : ∀ n m a, (n, a) ∈ held → (m, a) ∈ held → n = m)
    (hown : ∀ m, (m, addr) ∈ held → m = node) (n m : NodeId) (a : IpAddr)
    (hn : (n, a) ∈ insert (node, addr) held) (hm : (m, a) ∈ insert (node, addr) held) : n = m := by
  rw [Finset.mem_insert, Prod.mk.injEq] at hn hm
  rcases hn with ⟨rfl, rfl⟩ | hn
  · rcases hm with ⟨rfl, -⟩ | hm
    · rfl
    · exact (hown m hm).symm
  · rcases hm with ⟨rfl, rfl⟩ | hm
    · exact hown n hn
    · exact h n m a hn hm

/-! ## What a step keeps -/

theorem inv_bindPool (h : s.Inv) (value : String) (pool : Pool) (clusterSize : ℕ)
    (hc : BindsApart s (.bindPool value pool clusterSize)) :
    (step s (.bindPool value pool clusterSize)).Inv := by
  obtain ⟨helsewhere, hheld⟩ := hc
  have hnew : ∀ k B addr i j, k ≠ (value, pool.base.isIpv6) → s.ipam.slot k = some B →
      pool.indexOf addr = some i → B.pool.indexOf addr ≠ some j := by
    intro k B addr i j hk hB hi hj
    have hcontains := helsewhere k B addr hB hk (Pool.contains_iff.2 ⟨i, hi⟩)
    rw [Pool.contains, hj] at hcontains
    cases hcontains
  refine ⟨?_, ?_, h.exclusively⟩
  · intro k k' B C addr i j hB hC hi hj
    simp only [step, bindPool, slot_setSlot] at hB hC
    split_ifs at hB hC with hk hk' hk'
    · rw [hk, hk']
    · obtain rfl := Option.some.inj hB
      exact absurd hj (hnew k' C addr i j hk' hC hi)
    · obtain rfl := Option.some.inj hC
      exact absurd hi (hnew k B addr j i hk hB hj)
    · exact h.apart k k' B C addr i j hB hC hi hj
  · intro n addr k B i hn hB hi
    simp only [step, bindPool, slot_setSlot] at hB
    split_ifs at hB with hk
    · obtain rfl := Option.some.inj hB
      have hcontains := hheld n addr hn
      rw [Pool.contains, show pool.indexOf addr = some i from hi] at hcontains
      cases hcontains
    · exact h.known n addr k B i hn hB hi

theorem Tracked.Inv.setSlot_same (h : s.Inv) (hA : s.ipam.slot key = some A)
    (hpool : A'.pool = A.pool) (hholders : A'.register.holders = A.register.holders) :
    Tracked.Inv ⟨s.ipam.setSlot key A', s.held⟩ := by
  refine h.setSlot hA hpool ?_ (fun n addr hn => .inl hn) h.exclusively
  intro n addr i hn hi
  rw [hholders]
  exact h.known n addr key A i hn hA hi

theorem inv_grantFor (h : s.Inv) (voter node : NodeId) (addr : IpAddr) :
    (step s (.grantFor voter node addr)).Inv := by
  rw [step, grantFor]
  cases hA : s.ipam.allocatorFor node addr.isIpv6 with
  | error e => exact h
  | ok found =>
    obtain ⟨key, A⟩ := found
    obtain ⟨hpool, hholders⟩ := A.grant_keeps voter node addr
    exact h.setSlot_same (slot_of_allocatorFor hA) hpool hholders

theorem inv_allocateFor (h : s.Inv) (node : NodeId) (addr : IpAddr) :
    (step s (.allocateFor node addr)).Inv := by
  rw [step, allocateFor]
  cases hA : s.ipam.allocatorFor node addr.isIpv6 with
  | error e => simpa using h
  | ok found =>
    obtain ⟨key, A⟩ := found
    have hslot := slot_of_allocatorFor hA
    simp only [mapError_eq_ok_iff]
    rcases A.tryAllocate_cases node addr with ⟨hsame, hfalse⟩ | ⟨i, hi, htrue, hbefore, hpool, hafter⟩
    · simp only [hsame, if_neg hfalse]
      exact h.setSlot_same hslot rfl rfl
    · simp only [if_pos htrue]
      have hown : ∀ m, (m, addr) ∈ s.held → m = node := fun m hm =>
        hbefore m (h.known m addr key A i hm hslot hi)
      refine h.setSlot hslot hpool ?_ ?_ (exclusively_insert h.exclusively hown)
      · intro n a j hn hj
        rw [hafter]
        rcases Finset.mem_insert.1 hn with heq | hn
        · obtain ⟨rfl, rfl⟩ := Prod.mk.inj heq
          rw [if_pos (Option.some.inj (hj.symm.trans hi))]
        · split_ifs with hji
          · subst hji
            obtain rfl := Pool.indexOf_inj hi hj
            rw [hown n hn]
          · exact h.known n a key A j hn hslot hj
      · intro n a hn
        rcases Finset.mem_insert.1 hn with heq | hn
        · exact .inr ⟨i, (Prod.mk.inj heq).2 ▸ hi⟩
        · exact .inl hn

theorem inv_release (h : s.Inv) (node : NodeId) (wantV6 : Bool) (holder : NodeId) (addr : IpAddr) :
    (step s (.release node wantV6 holder addr)).Inv := by
  rw [step, releaseAt]
  cases hA : s.ipam.allocatorFor node wantV6 with
  | error e => simpa using h
  | ok found =>
    obtain ⟨key, A⟩ := found
    have hslot := slot_of_allocatorFor hA
    simp only [Except.ok.injEq]
    rcases A.release_cases holder addr with ⟨hsame, hfalse⟩ | ⟨i, hi, htrue, hbefore, hpool, hafter⟩
    · simp only [hsame, hfalse, Bool.false_eq_true, if_false]
      exact h.setSlot_same hslot rfl rfl
    · simp only [if_pos htrue]
      refine h.setSlot hslot hpool ?_ (fun n a hn => .inl (Finset.mem_of_mem_erase hn)) ?_
      · intro n a j hn hj
        obtain ⟨hne, hn⟩ := Finset.mem_erase.1 hn
        have hknown := h.known n a key A j hn hslot hj
        rw [hafter]
        split_ifs with hji
        · -- it would be what is given back
          subst hji
          obtain rfl := Pool.indexOf_inj hi hj
          obtain rfl := Option.some.inj (hbefore.symm.trans hknown)
          exact absurd rfl hne
        · exact hknown
      · intro n m a hn hm
        exact h.exclusively n m a (Finset.mem_of_mem_erase hn) (Finset.mem_of_mem_erase hm)

theorem inv_step (s : Tracked) (c : Call) (h : s.Inv) (hc : BindsApart s c) : (step s c).Inv := by
  cases c with
  | bindPool value pool clusterSize => exact inv_bindPool h value pool clusterSize hc
  | grantFor voter node addr => exact inv_grantFor h voter node addr
  | allocateFor node addr => exact inv_allocateFor h node addr
  | release node wantV6 holder addr => exact inv_release h node wantV6 holder addr

/-- **No address is held by two nodes.** -/
theorem exclusively_of_bindsApart {topology : Topology} {tier : String} {I : TopologyScopedIpam}
    (hI : TopologyScopedIpam.new topology tier = .ok I) (l : List Call)
    (hl : Along step BindsApart ⟨I, ∅⟩ l) : Throughout step Exclusively ⟨I, ∅⟩ l := by
  have hinv : Throughout step Tracked.Inv ⟨I, ∅⟩ l := throughout_of_along inv_step (inv_new hI) hl
  exact fun p hp => (hinv p hp).exclusively

/-! ## Two sites -/

def siteTopology : Topology :=
  ((Topology.new .default).declare "n1" [⟨"site", "s1"⟩]).declare "n2" [⟨"site", "s2"⟩]

def sites : TopologyScopedIpam := ⟨"site", ∅, siteTopology⟩

def firstPool : Pool := ⟨.v4 0x0a000000, 8⟩

def otherPool : Pool := ⟨.v4 0x0a000100, 8⟩

/-- Each site has a pool, voters of its own grant one address to its node, and the node gets
it. -/
def twoSites (pool : Pool) (addr : IpAddr) : List Call :=
  [.bindPool "s1" firstPool 3, .bindPool "s2" pool 3,
   .grantFor "v1" "n1" (.v4 0x0a000001), .grantFor "v2" "n1" (.v4 0x0a000001),
   .grantFor "w1" "n2" addr, .grantFor "w2" "n2" addr,
   .allocateFor "n1" (.v4 0x0a000001), .allocateFor "n2" addr]

def VotersAgree (l : List Call) : Prop :=
  ∀ voter addr n m, Call.grantFor voter n addr ∈ l → Call.grantFor voter m addr ∈ l → n = m

theorem firstPool_otherPool_apart (addr : IpAddr) (h : otherPool.contains addr = true) :
    firstPool.contains addr = false := by
  obtain ⟨i, hi⟩ := Pool.contains_iff.1 h
  obtain ⟨-, hother, -⟩ := Pool.indexOf_eq_some_iff.1 hi
  rw [← Bool.not_eq_true, Pool.contains_iff]
  rintro ⟨j, hj⟩
  obtain ⟨-, hfirst, hlen⟩ := Pool.indexOf_eq_some_iff.1 hj
  simp [otherPool, firstPool, IpAddr.toU128] at hother hfirst hlen
  omega

/-- With pools apart, each node has an address of its own. -/
theorem pools_apart_exclusively :
    Throughout step Exclusively ⟨sites, ∅⟩ (twoSites otherPool (.v4 0x0a000101)) ∧
      (exec step ⟨sites, ∅⟩ (twoSites otherPool (.v4 0x0a000101))).held =
        {("n1", .v4 0x0a000001), ("n2", .v4 0x0a000101)} := by
  have hsites : TopologyScopedIpam.new siteTopology "site" = .ok sites := rfl
  refine ⟨exclusively_of_bindsApart hsites _ ?_, by decide +kernel⟩
  refine along_cons.2 ⟨⟨?_, ?_⟩, along_cons.2 ⟨⟨?_, ?_⟩, ?_⟩⟩
  · intro key A addr hA
    simp [sites, slot] at hA
  · intro n addr hn
    simp at hn
  · intro key A addr hA hkey haddr
    simp only [step, bindPool, slot_setSlot] at hA
    split_ifs at hA with hk
    · obtain rfl := Option.some.inj hA
      exact firstPool_otherPool_apart addr haddr
    · simp [sites, slot] at hA
  · intro n addr hn
    simp [step] at hn
  · simp [along_cons, along_nil, BindsApart]

/-- With one pool at both sites, both nodes have the address. -/
theorem shared_pool_hands_out_twice :
    TopologyScopedIpam.new siteTopology "site" = .ok sites ∧
      VotersAgree (twoSites firstPool (.v4 0x0a000001)) ∧
      ("n1", .v4 0x0a000001) ∈ (exec step ⟨sites, ∅⟩ (twoSites firstPool (.v4 0x0a000001))).held ∧
      ("n2", .v4 0x0a000001) ∈ (exec step ⟨sites, ∅⟩ (twoSites firstPool (.v4 0x0a000001))).held ∧
      ¬ Throughout step Exclusively ⟨sites, ∅⟩ (twoSites firstPool (.v4 0x0a000001)) := by
  have hboth : ("n1", .v4 0x0a000001) ∈
        (exec step ⟨sites, ∅⟩ (twoSites firstPool (.v4 0x0a000001))).held ∧
      ("n2", .v4 0x0a000001) ∈
        (exec step ⟨sites, ∅⟩ (twoSites firstPool (.v4 0x0a000001))).held := by
    decide +kernel
  refine ⟨rfl, ?_, hboth.1, hboth.2, fun h => ?_⟩
  · intro voter addr n m hn hm
    simp only [twoSites, List.mem_cons, reduceCtorEq, Call.grantFor.injEq, List.not_mem_nil, or_false,
      false_or] at hn hm
    rcases hn with ⟨rfl, rfl, -⟩ | ⟨rfl, rfl, -⟩ | ⟨rfl, rfl, -⟩ | ⟨rfl, rfl, -⟩ <;>
    · simp at hm
      exact hm.1.symm
  · exact absurd (h _ (List.prefix_refl _) "n1" "n2" _ hboth.1 hboth.2) (by decide)

end Pillar.Ipam
