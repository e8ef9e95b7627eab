import Pillar.Crypto
import Pillar.Lib.Blocks
import Pillar.Lib.Parity

/-!
# Erasure-coded messages

`pillar-net`'s `encode` and `reconstruct`: a message is cut into `k` data shards of one length, and
`m` parity shards, all the exclusive or of the data, are added.

* `reconstruct_received` — **the message is restored exactly if at most one data shard is missing and
  a parity shard makes up for it**.
-/

namespace Pillar.Net

open Lib.Blocks Lib.Compare Lib.Parity

def protocolVersion : SurfaceVersion := ⟨2⟩

/-- The oldest protocol version this build reads. -/
def minProtocolVersion : SurfaceVersion := ⟨2⟩

structure Shard where
  index : ℕ
  bytes : Bytes
  cid : ContentId
  deriving DecidableEq

/-- Why a message could not be encoded or restored. -/
inductive ShardError where
  | empty
  | insufficientShards (need have_ : ℕ)
  | missingLength
  | malformedVersionStamp
  | unsupportedProtocolVersion (err : VersionError)
  deriving DecidableEq

namespace Shard

def payload (s : Shard) : Option Bytes := if 2 ≤ s.bytes.length then some (s.bytes.drop 2) else none

def verify (H : Bytes → Bytes) (s : Shard) : Bool := s.payload.any fun p => contentAddress H p = s.cid

def checkVersion (s : Shard) : Except ShardError Unit :=
  match SurfaceVersion.fromBeBytes s.bytes with
  | .error _ => .error .malformedVersionStamp
  | .ok stamp =>
    match stamp.checkSupported minProtocolVersion protocolVersion with
    | .error err => .error (.unsupportedProtocolVersion err)
    | .ok () => .ok ()

end Shard

/-! ## Encoding -/

def onWire (payload : Bytes) : Bytes := protocolVersion.toBeBytes ++ payload

/-- The `i`-th piece of a message, filled up with zeros. -/
def dataChunk (message : Bytes) (shardLen i : ℕ) : Bytes :=
  let start := i * shardLen
  let chunk := List.replicate shardLen 0
  if start < message.length then
    let stop := min (start + shardLen) message.length
    writeAt chunk 0 ((message.take stop).drop start)
  else chunk

/-- Work a block into another by exclusive or. -/
def xorInto : Bytes → Bytes → Bytes := combine (· ^^^ ·)

def encode (H : Bytes → Bytes) (message : Bytes) (k m : ℕ) : Except ShardError (List Shard) :=
  if k = 0 ∨ message = [] then .error .empty
  else
    let shardLen := divCeil message.length k
    let data := (List.range k).map (dataChunk message shardLen)
    let parity := data.foldl xorInto (List.replicate shardLen 0)
    .ok (data.zipIdx.map (fun d => ⟨d.2, onWire d.1, contentAddress H d.1⟩) ++
      (List.range m).map fun j => ⟨k + j, onWire parity, contentAddress H parity⟩)

/-! ## Reconstruction -/

def collect (k : ℕ) (good : List Shard) : List (Option Bytes) :=
  good.foldl (fun data s => if s.index < k then data.set s.index (some (s.payload.getD [])) else data)
    (List.replicate k none)

/-- The data with the missing shard restored, when one is missing and there is a parity shard. -/
def recover (k : ℕ) (good : List Shard) (data : List (Option Bytes)) : List (Option Bytes) :=
  if data.countP Option.isSome < k then
    match (List.range k).filter fun i => data[i]? = some none with
    | [i] =>
      match good.find? fun s => k ≤ s.index with
      | some parity => data.set i (some (data.reduceOption.foldl xorInto (parity.payload.getD [])))
      | none => data
    | _ => data
  else data

/-- The data from shards that verify; one that is missing is computed. -/
def reconstruct (H : Bytes → Bytes) (shards : List Shard) (k origLen : ℕ) :
    Except ShardError Bytes := do
  if k = 0 then throw .empty
  else if origLen = 0 then throw .missingLength
  else
    shards.forM Shard.checkVersion
    let good := shards.filter (Shard.verify H)
    if good = [] then throw (.insufficientShards k 0)
    else
      let data := recover k good (collect k good)
      if data.any Option.isNone then throw (.insufficientShards k (data.countP Option.isSome))
      else return data.reduceOption.flatten.take origLen

/-! ## What is sent -/

variable {H : Bytes → Bytes} {message : Bytes} {k m : ℕ}

def shardLength (message : Bytes) (k : ℕ) : ℕ := divCeil message.length k

def dataAt (message : Bytes) (k i : ℕ) : Bytes := dataChunk message (shardLength message k) i

def parityOf (message : Bytes) (k : ℕ) : Bytes :=
  ((List.range k).map (dataAt message k)).foldl xorInto (List.replicate (shardLength message k) 0)

def payloadAt (message : Bytes) (k index : ℕ) : Bytes :=
  if index < k then dataAt message k index else parityOf message k

def shardAt (H : Bytes → Bytes) (message : Bytes) (k index : ℕ) : Shard :=
  ⟨index, onWire (payloadAt message k index), contentAddress H (payloadAt message k index)⟩

theorem dataAt_eq_fill (message : Bytes) (k i : ℕ) :
    dataAt message k i =
      fill 0 (shardLength message k) (block (shardLength message k) message i) := by
  rw [dataAt, dataChunk]
  split_ifs with h
  · simp [drop_take_eq_block, writeAt, fill]
  · have hnil : block (shardLength message k) message i = [] := by
      rw [← List.length_eq_zero_iff, length_block]
      omega
    simp [hnil, fill]

theorem length_dataAt (message : Bytes) (k i : ℕ) :
    (dataAt message k i).length = shardLength message k := by
  rw [dataAt_eq_fill, length_fill, length_block]
  omega

theorem take_flatten_data (hk : 0 < k) :
    ((List.range k).map (dataAt message k)).flatten.take message.length = message := by
  have hlen : message.length ≤ k * shardLength message k := by
    rw [Nat.mul_comm]
    exact le_divCeil_mul _ hk
  have hdata : (List.range k).map (dataAt message k) = (List.range k).map fun i =>
      fill 0 (shardLength message k) (block (shardLength message k) message i) :=
    List.map_congr_left fun i _ => dataAt_eq_fill message k i
  rw [hdata, ← List.flatMap_def, flatMap_fill_block, List.take_of_length_le hlen,
    List.take_left]

theorem encode_eq (hk : 0 < k) (hmessage : message ≠ []) :
    encode H message k m = .ok ((List.range (k + m)).map (shardAt H message k)) := by
  rw [encode, if_neg (by simp [hk.ne', hmessage]), List.range_add, List.map_append]
  have hdata : ∀ i ∈ List.range k, shardAt H message k i =
      ⟨i, onWire (dataAt message k i), contentAddress H (dataAt message k i)⟩ := fun i hi => by
    rw [shardAt, payloadAt, if_pos (List.mem_range.1 hi)]
  have hparity : ∀ j ∈ List.range m, shardAt H message k (k + j) =
      ⟨k + j, onWire (parityOf message k), contentAddress H (parityOf message k)⟩ := fun j _ => by
    rw [shardAt, payloadAt, if_neg (by omega)]
  rw [List.map_congr_left hdata, List.map_map, Function.comp_def, List.map_congr_left hparity]
  simp only [zipIdx_map_range, List.map_map]
  rfl

/-! ## What arrives -/

/-- A shard that arrives: one that was sent, or one whose payload was changed so that it does not
have its content address any more. -/
def Arrived (H : Bytes → Bytes) (sent : List Shard) (s : Shard) : Prop :=
  s ∈ sent ∨ ∃ s₀ ∈ sent, ∃ payload, contentAddress H payload ≠ s₀.cid ∧
    s = { s₀ with bytes := onWire payload }

variable {s : Shard}

theorem payload_of_bytes {p : Bytes} (h : s.bytes = onWire p) : s.payload = some p := by
  simp [Shard.payload, h, onWire, SurfaceVersion.toBeBytes]

theorem checkVersion_of_bytes {p : Bytes} (h : s.bytes = onWire p) : s.checkVersion = .ok () := by
  rw [Shard.checkVersion, h]
  rfl

theorem verify_of_bytes {p : Bytes} (h : s.bytes = onWire p) :
    s.verify H = true ↔ contentAddress H p = s.cid := by
  simp [Shard.verify, payload_of_bytes h]

variable {sent received : List Shard}

theorem verify_iff_of_arrived (hsent : ∀ s ∈ sent, s = shardAt H message k s.index)
    (hs : Arrived H sent s) : s.verify H = true ↔ s ∈ sent := by
  have hverify : ∀ s ∈ sent, s.verify H = true := by
    intro s hs
    rw [hsent s hs]
    exact (verify_of_bytes rfl).2 rfl
  rcases hs with hs | ⟨s₀, hs₀, payload, hne, rfl⟩
  · exact iff_of_true (hverify s hs) hs
  · have hbad : ¬ Shard.verify H { s₀ with bytes := onWire payload } = true :=
      fun hv => hne ((verify_of_bytes (s := { s₀ with bytes := onWire payload }) rfl).1 hv)
    exact iff_of_false hbad fun hmem => hbad (hverify _ hmem)

theorem forM_checkVersion (hsent : ∀ s ∈ sent, s = shardAt H message k s.index)
    (hreceived : ∀ s ∈ received, Arrived H sent s) :
    received.forM Shard.checkVersion = .ok () := by
  induction received with
  | nil => rfl
  | cons s received ih =>
    have hs : s.checkVersion = .ok () := by
      rcases hreceived s List.mem_cons_self with hs | ⟨s₀, -, payload, -, rfl⟩
      · rw [hsent s hs]
        exact checkVersion_of_bytes rfl
      · exact checkVersion_of_bytes rfl
    rw [List.forM, hs]
    exact ih fun s' hs' => hreceived s' (List.mem_cons_of_mem _ hs')

/-! ## What is collected -/

variable {good : List Shard}

theorem foldl_collect (hgood : ∀ s ∈ good, s = shardAt H message k s.index) (p : ℕ → Prop)
    [DecidablePred p] :
    good.foldl (fun data s =>
        if s.index < k then data.set s.index (some (s.payload.getD [])) else data)
      (slots k (dataAt message k) p) =
      slots k (dataAt message k) fun i => i ∈ good.map Shard.index ∨ p i := by
  induction good generalizing p with
  | nil => simp
  | cons s good ih =>
    have hrest : ∀ s' ∈ good, s' = shardAt H message k s'.index := fun s' hs' =>
      hgood s' (List.mem_cons_of_mem _ hs')
    have hpayload : s.payload = some (payloadAt message k s.index) := by
      rw [hgood s List.mem_cons_self]
      exact payload_of_bytes rfl
    rw [List.foldl_cons]
    split_ifs with hindex
    · rw [hpayload, Option.getD_some, payloadAt, if_pos hindex, slots_set, ih hrest]
      refine slots_congr fun i _ => ?_
      simp only [List.map_cons, List.mem_cons]
      tauto
    · rw [ih hrest]
      refine slots_congr fun i hi => ?_
      have hne : i ≠ s.index := by omega
      simp [hne]

theorem collect_eq (hgood : ∀ s ∈ good, s = shardAt H message k s.index) :
    collect k good = slots k (dataAt message k) (· ∈ good.map Shard.index) := by
  have hcollect := foldl_collect hgood fun _ => False
  rw [slots_false (by simp)] at hcollect
  rw [collect, hcollect]
  simp

theorem getElem?_slots_eq_none_iff {f : ℕ → Bytes} {p : ℕ → Prop} [DecidablePred p] {i : ℕ}
    (hi : i < k) : (slots k f p)[i]? = some none ↔ ¬ p i := by
  by_cases hp : p i <;> simp [slots, List.getElem?_range hi, hp]

theorem foldl_xorInto_eq {p : ℕ → Prop} [DecidablePred p] {j : ℕ}
    (hmissing : (List.range k).filter (fun i => ¬ p i) = [j]) :
    (((List.range k).filter (p ·)).map (dataAt message k)).foldl xorInto (parityOf message k) =
      dataAt message k j := by
  have hperm : ((List.range k).map (dataAt message k)).Perm
      (dataAt message k j :: ((List.range k).filter (p ·)).map (dataAt message k)) := by
    have hsplit := List.filter_append_perm (fun i => decide (p i)) (List.range k)
    have hneg : (List.range k).filter (fun i => !decide (p i)) = [j] := by
      rw [← hmissing]
      exact List.filter_congr fun i _ => by simp
    rw [hneg] at hsplit
    have hmap := (hsplit.symm.trans List.perm_append_comm).map (dataAt message k)
    simpa using hmap
  rw [parityOf, ← length_dataAt message k j]
  refine foldl_combine_perm (fun a b c => ?_) (fun a b => ?_) (fun b => ?_) hperm
  · rw [UInt8.xor_assoc, UInt8.xor_comm b c, ← UInt8.xor_assoc]
  · rw [UInt8.xor_assoc, UInt8.xor_self, UInt8.xor_zero]
  · exact UInt8.zero_xor

/-- The number of data shards among shards. -/
def held (k : ℕ) (shards : List Shard) : ℕ := (List.range k).countP (· ∈ shards.map Shard.index)

theorem length_missing (k : ℕ) (shards : List Shard) :
    held k shards + ((List.range k).filter fun i => i ∉ shards.map Shard.index).length = k := by
  have hlength := List.length_eq_countP_add_countP (fun i => decide (i ∈ shards.map Shard.index))
    (l := List.range k)
  rw [List.length_range] at hlength
  rw [held, ← List.countP_eq_length_filter]
  simpa using hlength.symm

/-- **One missing data shard is restored.** -/
theorem recover_eq (hgood : ∀ s ∈ good, s = shardAt H message k s.index) :
    recover k good (collect k good) = slots k (dataAt message k) fun i =>
      i ∈ good.map Shard.index ∨ (held k good + 1 = k ∧ ∃ s ∈ good, k ≤ s.index) := by
  have hmissing : ((List.range k).filter fun i =>
      (slots k (dataAt message k) (· ∈ good.map Shard.index))[i]? = some none) =
      (List.range k).filter fun i => i ∉ good.map Shard.index :=
    List.filter_congr fun i hi => by
      simpa using getElem?_slots_eq_none_iff (f := dataAt message k)
        (p := (· ∈ good.map Shard.index)) (List.mem_range.1 hi)
  have hlength := length_missing k good
  rw [recover, collect_eq hgood, countP_isSome_slots, hmissing]
  split_ifs with hlt
  · have hheld : held k good < k := hlt
    cases hcase : (List.range k).filter fun i => i ∉ good.map Shard.index with
    | nil =>
      rw [hcase, List.length_nil] at hlength
      omega
    | cons j rest =>
      cases rest with
      | nil =>
        rw [hcase, List.length_singleton] at hlength
        -- what is not there is the one that is missing
        have hother : ∀ i < k, i ∉ good.map Shard.index → i = j := fun i hi hnot => by
          have hmem : i ∈ (List.range k).filter fun i => i ∉ good.map Shard.index :=
            List.mem_filter.2 ⟨List.mem_range.2 hi, by simpa using hnot⟩
          rw [hcase] at hmem
          exact List.mem_singleton.1 hmem
        cases hfind : good.find? fun s => k ≤ s.index with
        | none =>
          have hnone : ¬ ∃ s ∈ good, k ≤ s.index := by
            simpa using List.find?_eq_none.1 hfind
          exact slots_congr fun i _ => by simp [hnone]
        | some parity =>
          have hmem := List.mem_of_find?_eq_some hfind
          have hindex : k ≤ parity.index := by simpa using List.find?_some hfind
          have hpayload : parity.payload = some (parityOf message k) := by
            rw [hgood parity hmem]
            refine (payload_of_bytes rfl).trans ?_
            rw [payloadAt, if_neg (by simpa [shardAt] using hindex)]
          simp only [hpayload, Option.getD_some, reduceOption_slots, foldl_xorInto_eq hcase]
          rw [slots_set]
          refine slots_congr fun i hi => ?_
          refine iff_of_true ?_ (.inr ⟨hlength, parity, hmem, hindex⟩)
          by_cases hi' : i ∈ good.map Shard.index
          · exact .inr hi'
          · exact .inl (hother i hi hi')
      | cons j' rest =>
        rw [hcase, List.length_cons, List.length_cons] at hlength
        refine slots_congr fun i _ => ?_
        have hne : held k good + 1 ≠ k := by omega
        simp [hne]
  · have hheld : ¬ held k good < k := hlt
    refine slots_congr fun i _ => ?_
    have hne : held k good + 1 ≠ k := by omega
    simp [hne]

theorem held_eq_iff (k : ℕ) (shards : List Shard) :
    held k shards = k ↔ ∀ i < k, i ∈ shards.map Shard.index := by
  rw [held]
  constructor
  · intro h i hi
    have hall := List.countP_eq_length.1 (h.trans (List.length_range (n := k)).symm)
    simpa using hall i (List.mem_range.2 hi)
  · intro h
    refine (List.countP_eq_length.2 fun i hi => ?_).trans List.length_range
    simpa using h i (List.mem_range.1 hi)

theorem finish_eq (hk : 0 < k) (p : ℕ → Prop) [DecidablePred p] :
    (if (slots k (dataAt message k) p).any Option.isNone then
        throw (.insufficientShards k ((slots k (dataAt message k) p).countP Option.isSome))
      else return (slots k (dataAt message k) p).reduceOption.flatten.take message.length :
      Except ShardError Bytes) =
      if ∀ i < k, p i then .ok message
      else .error (.insufficientShards k ((List.range k).countP (p ·))) := by
  have hany : (slots k (dataAt message k) p).any Option.isNone = true ↔ ¬ ∀ i < k, p i := by
    simp [slots]
  by_cases hall : ∀ i < k, p i
  · have hfilter : (List.range k).filter (p ·) = List.range k :=
      List.filter_eq_self.2 fun i hi => by simpa using hall i (List.mem_range.1 hi)
    rw [if_neg (by rw [hany]; exact not_not.2 hall), if_pos hall, reduceOption_slots, hfilter,
      take_flatten_data hk]
    rfl
  · rw [if_pos (hany.2 hall), if_neg hall, countP_isSome_slots]
    rfl

/-- **What erasure coding restores.** -/
theorem reconstruct_received (H : Bytes → Bytes) {message : Bytes} (hmessage : message ≠ []) {k : ℕ}
    (hk : 1 ≤ k) (m : ℕ) :
    ∃ sent, encode H message k m = .ok sent ∧ ∀ received, (∀ s ∈ received, Arrived H sent s) →
      reconstruct H received k message.length =
        if held k (received.filter (· ∈ sent)) = k ∨
            (held k (received.filter (· ∈ sent)) + 1 = k ∧
              ∃ s ∈ received.filter (· ∈ sent), k ≤ s.index) then .ok message
        else .error (.insufficientShards k (held k (received.filter (· ∈ sent)))) := by
  refine ⟨_, encode_eq hk hmessage, fun received hreceived => ?_⟩
  set sent := (List.range (k + m)).map (shardAt H message k)
  have hsent : ∀ s ∈ sent, s = shardAt H message k s.index := by
    intro s hs
    obtain ⟨i, -, rfl⟩ := List.mem_map.1 hs
    rfl
  have hfilter : received.filter (Shard.verify H) = received.filter (· ∈ sent) :=
    List.filter_congr fun s hs => by
      rw [Bool.eq_iff_iff, verify_iff_of_arrived hsent (hreceived s hs), decide_eq_true_eq]
  have hgood : ∀ s ∈ received.filter (· ∈ sent), s = shardAt H message k s.index := fun s hs =>
    hsent s (by simpa using (List.mem_filter.1 hs).2)
  generalize received.filter (· ∈ sent) = good at hfilter hgood ⊢
  have hrun : reconstruct H received k message.length =
      if good = [] then .error (.insufficientShards k 0)
      else if (recover k good (collect k good)).any Option.isNone then
        throw (.insufficientShards k ((recover k good (collect k good)).countP Option.isSome))
      else return (recover k good (collect k good)).reduceOption.flatten.take message.length := by
    rw [reconstruct, if_neg (by omega), if_neg (by simpa using hmessage),
      forM_checkVersion hsent hreceived, hfilter]
    rfl
  rw [hrun, recover_eq hgood, finish_eq hk]
  by_cases hparity : held k good + 1 = k ∧ ∃ s ∈ good, k ≤ s.index
  · obtain ⟨s, hs, -⟩ := hparity.2
    rw [if_neg (List.ne_nil_of_mem hs), if_pos fun i _ => .inr hparity, if_pos (.inr hparity)]
  · simp only [hparity, or_false]
    by_cases hempty : good = []
    · have hzero : held k good = 0 := by simp [held, hempty]
      rw [if_pos hempty, hzero, if_neg (by omega)]
    · rw [if_neg hempty]
      simp only [← held_eq_iff]
      rfl

/-- SHA2-256 on the two halves of a message and their parity. -/
def halvesDigest : Bytes → Bytes := tableDigest
  [([97, 98],
    beBytes 32 0xfb8e20fc2e4c3f248c60c39bd652f3c1347298bb977b8b4d5903b85055620603),
   ([99, 0],
    beBytes 32 0xec49f17f2c205644d3a0d242eb5a82ec222ed01fbd8fd6b55d0f2f6ef651e484),
   ([2, 98],
    beBytes 32 0x955d6ad56a04f0e95e5f8639a502f7e914db57124fa5d65676071127be7184ca)]

/-- A message of three bytes in two data shards and a parity shard: the first data shard arrives
damaged, the others twice, and the message is restored. -/
theorem halves_restored :
    ∃ sent, encode halvesDigest (utf8 "abc") 2 1 = .ok sent ∧
      ∃ received, received.map Shard.index = [2, 0, 1, 2] ∧
        (∀ s ∈ received, Arrived halvesDigest sent s) ∧
        reconstruct halvesDigest received 2 3 = .ok (utf8 "abc") := by
  obtain ⟨sent, hsent, hrun⟩ := reconstruct_received halvesDigest (show utf8 "abc" ≠ [] by decide)
    (Nat.succ_pos 1) 1
  obtain rfl := Except.ok.inj (hsent.symm.trans (encode_eq (by decide) (by decide)))
  set sent := (List.range (2 + 1)).map (shardAt halvesDigest (utf8 "abc") 2)
  set damaged : Shard := { shardAt halvesDigest (utf8 "abc") 2 0 with bytes := onWire (utf8 "ac") }
  have harrived : ∀ s ∈ [shardAt halvesDigest (utf8 "abc") 2 2, damaged,
      shardAt halvesDigest (utf8 "abc") 2 1, shardAt halvesDigest (utf8 "abc") 2 2],
      Arrived halvesDigest sent s := by
    have hmem : ∀ i < 3, Arrived halvesDigest sent (shardAt halvesDigest (utf8 "abc") 2 i) :=
      fun i hi => .inl (List.mem_map.2 ⟨i, List.mem_range.2 hi, rfl⟩)
    have hdamaged : Arrived halvesDigest sent damaged :=
      .inr ⟨_, List.mem_map.2 ⟨0, by decide, rfl⟩, utf8 "ac", by decide +kernel, rfl⟩
    simp only [List.forall_mem_cons]
    exact ⟨hmem 2 (by decide), hdamaged, hmem 1 (by decide), hmem 2 (by decide), by simp⟩
  refine ⟨sent, hsent, _, ?_, harrived, ?_⟩
  · rfl
  · have hresult := hrun _ harrived
    rw [if_pos (by decide +kernel)] at hresult
    exact hresult

end Pillar.Net
