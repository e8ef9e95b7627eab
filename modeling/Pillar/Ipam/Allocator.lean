import Pillar.Coordination
import Pillar.Topology.Topology

/-!
# Address allocation

`pillar-ipam`: a pool is a run of addresses, and the offset of an address is the epoch at which a
lease register decides who gets it.
-/

namespace Pillar.Ipam

open Std Coordination

/-! ## Addresses and pools -/

/-- An address of one of the two families. -/
inductive IpAddr where
  | v4 (bits : BitVec 32)
  | v6 (bits : BitVec 128)
  deriving DecidableEq

namespace IpAddr

def isIpv6 : IpAddr → Bool
  | v4 _ => false
  | v6 _ => true

def toU128 : IpAddr → ℕ
  | v4 bits => bits.toNat
  | v6 bits => bits.toNat

theorem ext_toU128 {a b : IpAddr} (hfamily : a.isIpv6 = b.isIpv6) (h : a.toU128 = b.toU128) :
    a = b := by
  cases a with
  | v4 bits =>
    cases b with
    | v4 bits' => exact congrArg v4 (BitVec.eq_of_toNat_eq h)
    | v6 bits' => cases hfamily
  | v6 bits =>
    cases b with
    | v4 bits' => cases hfamily
    | v6 bits' => exact congrArg v6 (BitVec.eq_of_toNat_eq h)

end IpAddr

/-- So many addresses from a base on. -/
structure Pool where
  base : IpAddr
  len : UInt64
  deriving DecidableEq

namespace Pool

def indexOf (p : Pool) (addr : IpAddr) : Option ℕ :=
  if p.base.isIpv6 ≠ addr.isIpv6 then none
  else if addr.toU128 < p.base.toU128 then none
  else if addr.toU128 - p.base.toU128 < p.len.toNat then some (addr.toU128 - p.base.toU128)
  else none

def addrAt (p : Pool) (index : UInt64) : Option IpAddr :=
  if p.len ≤ index then none
  else
    match p.base with
    | .v4 bits => some (.v4 (BitVec.ofNat 32 (bits.toNat + index.toNat)))
    | .v6 bits => some (.v6 (BitVec.ofNat 128 (bits.toNat + index.toNat)))

def contains (p : Pool) (addr : IpAddr) : Bool := (p.indexOf addr).isSome

variable {p : Pool}

theorem indexOf_eq_some_iff {addr : IpAddr} {i : ℕ} :
    p.indexOf addr = some i ↔
      p.base.isIpv6 = addr.isIpv6 ∧ addr.toU128 = p.base.toU128 + i ∧ i < p.len.toNat := by
  rw [indexOf]
  by_cases hfamily : p.base.isIpv6 = addr.isIpv6
  · rw [if_neg (not_not.2 hfamily), and_iff_right hfamily]
    split_ifs with hbelow hlen
    · simp only [false_iff]
      omega
    · rw [Option.some_inj]
      omega
    · simp only [false_iff]
      omega
  · simp [hfamily]

/-- **An offset belongs to one address.** -/
theorem indexOf_inj {a b : IpAddr} {i : ℕ} (ha : p.indexOf a = some i)
    (hb : p.indexOf b = some i) : a = b := by
  obtain ⟨hfa, hia, -⟩ := indexOf_eq_some_iff.1 ha
  obtain ⟨hfb, hib, -⟩ := indexOf_eq_some_iff.1 hb
  exact IpAddr.ext_toU128 (hfa.symm.trans hfb) (hia.trans hib.symm)

theorem contains_iff {addr : IpAddr} :
    p.contains addr = true ↔ ∃ i, p.indexOf addr = some i := by
  rw [contains, Option.isSome_iff_exists]

/-- The pool ends within its address space. -/
def Within (p : Pool) : Prop := p.base.toU128 + p.len.toNat ≤ if p.base.isIpv6 then 2 ^ 128 else 2 ^ 32

instance (p : Pool) : Decidable p.Within := inferInstanceAs (Decidable (_ ≤ _))

theorem exists_addrAt (h : p.Within) {index : UInt64} (hlt : index < p.len) :
    ∃ addr, p.addrAt index = some addr ∧ p.indexOf addr = some index.toNat := by
  have hnat : index.toNat < p.len.toNat := UInt64.lt_iff_toNat_lt.1 hlt
  have hraw := (Nat.add_lt_add_left hnat p.base.toU128).trans_le h
  rw [addrAt, if_neg (UInt64.not_le.2 hlt)]
  obtain ⟨base | base, len⟩ := p
  · exact ⟨_, rfl, indexOf_eq_some_iff.2 ⟨rfl, Nat.mod_eq_of_lt hraw, hnat⟩⟩
  · exact ⟨_, rfl, indexOf_eq_some_iff.2 ⟨rfl, Nat.mod_eq_of_lt hraw, hnat⟩⟩

/-- The offsets below the length are those that have an address, an address is found at the offset
it was given for, and the address found lies so far behind the base, in its family. -/
structure Bijective (p : Pool) : Prop where
  offsets : ∀ index, index < p.len ↔ ∃ addr, p.addrAt index = some addr
  inverse : ∀ index addr, p.addrAt index = some addr ↔ p.indexOf addr = some index.toNat
  position : ∀ addr i, p.indexOf addr = some i →
    i < 2 ^ 64 ∧ addr.isIpv6 = p.base.isIpv6 ∧ addr.toU128 = p.base.toU128 + i

theorem bijective_of_within (h : p.Within) : p.Bijective := by
  have hlt : ∀ {index addr}, p.addrAt index = some addr → index < p.len := by
    intro index addr haddr
    by_contra hge
    simp [addrAt, UInt64.not_lt.1 hge] at haddr
  refine ⟨fun index => ⟨fun hindex => ?_, fun ⟨addr, haddr⟩ => hlt haddr⟩, fun index addr => ?_, ?_⟩
  · obtain ⟨addr, haddr, -⟩ := exists_addrAt h hindex
    exact ⟨addr, haddr⟩
  · constructor
    · intro haddr
      obtain ⟨addr', haddr', hindex⟩ := exists_addrAt h (hlt haddr)
      obtain rfl := Option.some.inj (haddr.symm.trans haddr')
      exact hindex
    · intro hindex
      have hin := UInt64.lt_iff_toNat_lt.2 (indexOf_eq_some_iff.1 hindex).2.2
      obtain ⟨addr', haddr', hindex'⟩ := exists_addrAt h hin
      rw [haddr', indexOf_inj hindex hindex']
  · intro addr i hindex
    obtain ⟨hfamily, haddr, hi⟩ := indexOf_eq_some_iff.1 hindex
    exact ⟨hi.trans p.len.toNat_lt, hfamily.symm, haddr⟩

theorem IpAddr.toU128_lt (a : IpAddr) : a.toU128 < if a.isIpv6 then 2 ^ 128 else 2 ^ 32 := by
  cases a with
  | v4 bits => exact bits.isLt
  | v6 bits => exact bits.isLt

/-- **A pool is a bijection of offsets and addresses** precisely if it ends within its address
space. -/
theorem pool_bijective (p : Pool) : p.Bijective ↔ p.Within := by
  refine ⟨fun h => ?_, bijective_of_within⟩
  rw [Within]
  by_cases hzero : p.len = 0
  · rw [hzero]
    exact (IpAddr.toU128_lt p.base).le
  · -- the last offset has an address, which lies in the space
    have hpos : 0 < p.len.toNat := Nat.pos_of_ne_zero fun h => hzero (UInt64.toNat_inj.1 h)
    have hlast : (UInt64.ofNat (p.len.toNat - 1)).toNat = p.len.toNat - 1 :=
      UInt64.toNat_ofNat_of_lt' ((Nat.sub_le _ _).trans_lt p.len.toNat_lt)
    obtain ⟨addr, haddr⟩ := (h.offsets (UInt64.ofNat (p.len.toNat - 1))).1
      (UInt64.lt_iff_toNat_lt.2 (by omega))
    obtain ⟨-, hfamily, hto⟩ := h.position addr _ ((h.inverse _ _).1 haddr)
    have hlt := IpAddr.toU128_lt addr
    rw [hfamily, hto, hlast] at hlt
    omega

theorem top_pool_bijective : (⟨.v4 0xfffffffe, 2⟩ : Pool).Within ∧
    Pool.indexOf ⟨.v4 0xfffffffe, 2⟩ (.v4 0xffffffff) = some 1 :=
  ⟨by decide, (((pool_bijective _).2 (by decide)).inverse 1 _).1 (by decide)⟩

/-- The second address of a pool at the top of either space is its first address, which is below the
pool. -/
theorem top_pool_wraps :
    (Pool.addrAt ⟨.v4 0xffffffff, 2⟩ 1 = some (.v4 0) ∧
      Pool.indexOf ⟨.v4 0xffffffff, 2⟩ (.v4 0) = none) ∧
    Pool.addrAt ⟨.v6 (BitVec.allOnes 128), 2⟩ 1 = some (.v6 0) ∧
      Pool.indexOf ⟨.v6 (BitVec.allOnes 128), 2⟩ (.v6 0) = none := by
  decide

end Pool

/-! ## One pool -/

/-- Why an address is not allocated. -/
inductive AllocError where
  | outOfPool (addr : IpAddr)
  | grant (e : GrantError)
  deriving DecidableEq

structure DelegatedAllocator where
  pool : Pool
  register : LeaseRegister

namespace DelegatedAllocator

def new (pool : Pool) (clusterSize : ℕ) : DelegatedAllocator := ⟨pool, .new clusterSize⟩

variable (A : DelegatedAllocator)

def epochOf (addr : IpAddr) : Except AllocError Epoch :=
  match A.pool.indexOf addr with
  | some index => .ok index
  | none => .error (.outOfPool addr)

def grant (voter actor : NodeId) (addr : IpAddr) : DelegatedAllocator × Except AllocError Unit :=
  match A.epochOf addr with
  | .error e => (A, .error e)
  | .ok epoch =>
    ({ A with register := (A.register.grant voter actor epoch).1 },
      (A.register.grant voter actor epoch).2.mapError .grant)

def tryAllocate (actor : NodeId) (addr : IpAddr) : DelegatedAllocator × Except AllocError Bool :=
  match A.epochOf addr with
  | .error e => (A, .error e)
  | .ok epoch =>
    ({ A with register := (A.register.tryAcquire actor epoch).1 },
      .ok (A.register.tryAcquire actor epoch).2)

def allocatorOf (addr : IpAddr) : Option NodeId :=
  match A.pool.indexOf addr with
  | some index => A.register.holder index
  | none => none

def release (holder : NodeId) (addr : IpAddr) : DelegatedAllocator × Bool :=
  match A.pool.indexOf addr with
  | some index =>
    ({ A with register := (A.register.release holder index).1 },
      (A.register.release holder index).2)
  | none => (A, false)

variable {A}

theorem grant_keeps (voter actor : NodeId) (addr : IpAddr) :
    (A.grant voter actor addr).1.pool = A.pool ∧
      (A.grant voter actor addr).1.register.holders = A.register.holders := by
  unfold grant
  cases A.epochOf addr with
  | error e => exact ⟨rfl, rfl⟩
  | ok epoch =>
    rcases A.register.grant_cases voter actor epoch with h | h
    · exact ⟨rfl, by simp [h]⟩
    · exact ⟨rfl, by simp [h]⟩

theorem tryAllocate_cases (actor : NodeId) (addr : IpAddr) :
    ((A.tryAllocate actor addr).1 = A ∧ (A.tryAllocate actor addr).2 ≠ .ok true) ∨
      ∃ i, A.pool.indexOf addr = some i ∧ (A.tryAllocate actor addr).2 = .ok true ∧
        (∀ x, A.register.holders[i]? = some x → x = actor) ∧
        (A.tryAllocate actor addr).1.pool = A.pool ∧
        ∀ j, (A.tryAllocate actor addr).1.register.holders[j]? =
          if j = i then some actor else A.register.holders[j]? := by
  unfold tryAllocate epochOf
  cases hi : A.pool.indexOf addr with
  | none => exact .inl ⟨rfl, by simp⟩
  | some i =>
    rcases A.register.tryAcquire_spec actor i with h | ⟨htrue, hbefore, hafter⟩
    · exact .inl ⟨by simp [h], by simp [h]⟩
    · exact .inr ⟨i, rfl, by simp [htrue], hbefore, rfl, hafter⟩

theorem release_cases (holder : NodeId) (addr : IpAddr) :
    ((A.release holder addr).1 = A ∧ (A.release holder addr).2 = false) ∨
      ∃ i, A.pool.indexOf addr = some i ∧ (A.release holder addr).2 = true ∧
        A.register.holders[i]? = some holder ∧ (A.release holder addr).1.pool = A.pool ∧
        ∀ j, (A.release holder addr).1.register.holders[j]? =
          if j = i then none else A.register.holders[j]? := by
  unfold release
  cases hi : A.pool.indexOf addr with
  | none => exact .inl ⟨rfl, rfl⟩
  | some i =>
    rcases A.register.release_spec holder i with h | ⟨htrue, hbefore, hafter⟩
    · exact .inl ⟨by simp [h], by simp [h]⟩
    · exact .inr ⟨i, rfl, htrue, hbefore, rfl, hafter⟩

variable {addr : IpAddr}

theorem tryAllocate_of_allocatorOf {actor : NodeId}
    (h : A.allocatorOf addr = some actor) : (A.tryAllocate actor addr).2 = .ok true := by
  rw [allocatorOf] at h
  cases hi : A.pool.indexOf addr with
  | none => simp [hi] at h
  | some i =>
    have hheld : A.register.holders[i]? = some actor := by simpa [hi, LeaseRegister.holder] using h
    simp [tryAllocate, epochOf, hi, LeaseRegister.tryAcquire, hheld]

theorem release_of_allocatorOf {holder : NodeId}
    (h : A.allocatorOf addr = some holder) :
    ∃ i, A.pool.indexOf addr = some i ∧ (A.release holder addr).1.pool = A.pool ∧
      ∀ j, (A.release holder addr).1.register.holders[j]? =
        if j = i then none else A.register.holders[j]? := by
  rcases A.release_cases holder addr with ⟨-, hfalse⟩ | ⟨i, hi, -, -, hpool, hafter⟩
  · rw [allocatorOf] at h
    cases hi : A.pool.indexOf addr with
    | none => simp [hi] at h
    | some i =>
      have hheld : A.register.holders[i]? = some holder := by simpa [hi, LeaseRegister.holder] using h
      simp [release, hi, LeaseRegister.release, hheld] at hfalse
  · exact ⟨i, hi, hpool, hafter⟩

theorem release_of_not_allocatorOf {holder : NodeId}
    (h : A.allocatorOf addr ≠ some holder) : (A.release holder addr).1 = A := by
  rcases A.release_cases holder addr with ⟨hsame, -⟩ | ⟨i, hi, -, hheld, -, -⟩
  · exact hsame
  · exact absurd (by simpa [allocatorOf, hi, LeaseRegister.holder] using hheld) h

end DelegatedAllocator

/-! ## The pools of the domains -/

inductive ScopedError where
  | noScopeForNode (node : NodeId) (tier : String)
  | noPoolForScope (scope : Topology.Label) (wantV6 : Bool)
  | unknownTier (tier : String)
  | alloc (e : AllocError)
  deriving DecidableEq

structure ScopedPools where
  v4 : Option DelegatedAllocator
  v6 : Option DelegatedAllocator

namespace ScopedPools

def get (p : ScopedPools) (wantV6 : Bool) : Option DelegatedAllocator := if wantV6 then p.v6 else p.v4

/-- Put an allocator in the place of a family. -/
def set (p : ScopedPools) (wantV6 : Bool) (A : DelegatedAllocator) : ScopedPools :=
  if wantV6 then { p with v6 := some A } else { p with v4 := some A }

theorem get_set (p : ScopedPools) (f g : Bool) (A : DelegatedAllocator) :
    (p.set f A).get g = if g = f then some A else p.get g := by
  cases f <;> cases g <;> rfl

end ScopedPools

structure TopologyScopedIpam where
  tier : String
  pools : ExtTreeMap String ScopedPools
  topology : Topology

namespace TopologyScopedIpam

def new (topology : Topology) (tier : String) : Except ScopedError TopologyScopedIpam :=
  if (topology.hierarchy.rank tier).isNone then .error (.unknownTier tier)
  else .ok ⟨tier, ∅, topology⟩

variable (I : TopologyScopedIpam)

def slot (key : String × Bool) : Option DelegatedAllocator :=
  (I.pools[key.1]?).bind fun p => p.get key.2

def setSlot (key : String × Bool) (A : DelegatedAllocator) : TopologyScopedIpam :=
  { I with pools := I.pools.insert key.1 (((I.pools[key.1]?).getD ⟨none, none⟩).set key.2 A) }

/-- Bind a pool to a domain. A pool of the same family that was bound to it is replaced,
and its register with it. -/
def bindPool (value : String) (pool : Pool) (clusterSize : ℕ) : TopologyScopedIpam :=
  I.setSlot (value, pool.base.isIpv6) (.new pool clusterSize)

def scopeOf (node : NodeId) : Except ScopedError String :=
  match I.topology.label I.tier node with
  | some scope => .ok scope
  | none => .error (.noScopeForNode node I.tier)

def allocatorFor (node : NodeId) (wantV6 : Bool) :
    Except ScopedError ((String × Bool) × DelegatedAllocator) :=
  match I.scopeOf node with
  | .error e => .error e
  | .ok scope =>
    match I.slot (scope, wantV6) with
    | some A => .ok ((scope, wantV6), A)
    | none => .error (.noPoolForScope ⟨I.tier, scope⟩ wantV6)

def grantFor (voter node : NodeId) (addr : IpAddr) : TopologyScopedIpam × Except ScopedError Unit :=
  match I.allocatorFor node addr.isIpv6 with
  | .error e => (I, .error e)
  | .ok (key, A) =>
    (I.setSlot key (A.grant voter node addr).1, (A.grant voter node addr).2.mapError .alloc)

def allocateFor (node : NodeId) (addr : IpAddr) : TopologyScopedIpam × Except ScopedError Bool :=
  match I.allocatorFor node addr.isIpv6 with
  | .error e => (I, .error e)
  | .ok (key, A) =>
    (I.setSlot key (A.tryAllocate node addr).1, (A.tryAllocate node addr).2.mapError .alloc)

/-- Give an address back at the allocator of a node's domain. -/
def releaseAt (node : NodeId) (wantV6 : Bool) (holder : NodeId) (addr : IpAddr) :
    TopologyScopedIpam × Except ScopedError Bool :=
  match I.allocatorFor node wantV6 with
  | .error e => (I, .error e)
  | .ok (key, A) => (I.setSlot key (A.release holder addr).1, .ok (A.release holder addr).2)

variable {I}

/-- **One allocator is changed at a time.** -/
theorem slot_setSlot (key key' : String × Bool) (A : DelegatedAllocator) :
    (I.setSlot key A).slot key' = if key' = key then some A else I.slot key' := by
  obtain ⟨v, f⟩ := key
  obtain ⟨w, g⟩ := key'
  rw [setSlot, slot, ExtTreeMap.getElem?_insert]
  by_cases hv : v = w
  · subst hv
    simp only [ReflCmp.compare_self, if_true, Option.bind_some, ScopedPools.get_set, Prod.mk.injEq,
      true_and]
    by_cases hg : g = f
    · rw [if_pos hg, if_pos hg]
    · rw [if_neg hg, if_neg hg, slot]
      cases I.pools[v]? with
      | some p => rfl
      | none => cases g <;> rfl
  · simp [hv, Ne.symm hv, slot]

theorem slot_of_allocatorFor {node : NodeId} {wantV6 : Bool} {key : String × Bool}
    {A : DelegatedAllocator} (h : I.allocatorFor node wantV6 = .ok (key, A)) :
    I.slot key = some A := by
  rw [allocatorFor] at h
  split at h
  · cases h
  · split at h
    · rename_i hslot
      cases h
      exact hslot
    · cases h

end TopologyScopedIpam
end Pillar.Ipam
