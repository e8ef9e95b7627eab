import Pillar.Crypto
import Pillar.Lib.Blocks
import Pillar.Lib.RoundRobin
import Pillar.Lib.Runs
import Pillar.Lib.SortDedup

/-!
# Multiplexed transfers

`pillar-net`'s `MultiplexPlan` and `MultiplexReassembler`: a transfer is cut into blocks that
are served by several senders in turn, and put together from whatever arrives.

* `multiplexed_transfer` — **a transfer is restored exactly when all of it arrived**, and never
  anything else.
-/

namespace Pillar.Net

open Lib.Blocks Lib.Compare Lib.RoundRobin Lib.Runs Lib.SortDedup

/-! ## The plan -/

/-- One block of a transfer, and who serves it. -/
structure BlockAssignment where
  index : ℕ
  offset : ℕ
  len : ℕ
  cid : ContentId
  sender : NodeId
  deriving DecidableEq

structure MultiplexPlan where
  transferCid : ContentId
  totalLen : ℕ
  blockSize : ℕ
  senders : List NodeId
  blocks : List BlockAssignment
  deriving DecidableEq

/-- The first eight bytes of a content address as a number. -/
def seed (cid : ContentId) : UInt64 :=
  (cid.bytes.take 8).foldl (fun seed b => seed <<< 8 ||| b.toUInt64) 0

def blockCount (totalLen blockSize : ℕ) : ℕ :=
  max (divCeil totalLen blockSize) (if totalLen = 0 then 0 else 1)

def assignment (H : Bytes → Bytes) (transfer : Bytes) (blockSize start : ℕ) (senders : List NodeId)
    (hsenders : senders ≠ []) (index : ℕ) : BlockAssignment :=
  let offset := index * blockSize
  let stop := min (offset + blockSize) transfer.length
  { index := index
    offset := offset
    len := stop - offset
    cid := contentAddress H ((transfer.take stop).drop offset)
    sender := senders.get
      ⟨turn start senders.length index, turn_lt (List.length_pos_iff.2 hsenders) index⟩ }

namespace MultiplexPlan

/-- The plan that every party computes from the transfer and its senders. -/
def derive (H : Bytes → Bytes) (transfer : Bytes) (blockSize : ℕ) (senders : List NodeId) :
    Option MultiplexPlan :=
  if blockSize = 0 then none
  else if hsenders : sortDedup senders = [] then none
  else
    let transferCid := contentAddress H transfer
    let start := (seed transferCid).toNat % (sortDedup senders).length
    some
      { transferCid := transferCid
        totalLen := transfer.length
        blockSize := blockSize
        senders := sortDedup senders
        blocks := (List.range (blockCount transfer.length blockSize)).map
          (assignment H transfer blockSize start (sortDedup senders) hsenders) }

def blocksFor (plan : MultiplexPlan) (sender : NodeId) : List BlockAssignment :=
  plan.blocks.filter (·.sender == sender)

def activePaths (plan : MultiplexPlan) : ℕ := (plan.blocks.map (·.sender)).toFinset.card

end MultiplexPlan

/-! ## The reassembler -/

/-- Why a block was refused, or the transfer is not complete. -/
inductive MultiplexError where
  | unknownBlock (index : ℕ)
  | cidMismatch (index : ℕ)
  | lengthMismatch (index expected got : ℕ)
  | incomplete (missing : ℕ)
  deriving DecidableEq

/-- The blocks that are expected, and those that have been received. -/
structure MultiplexReassembler where
  totalLen : ℕ
  blockSize : ℕ
  expect : List BlockAssignment
  received : List (Option Bytes)
  deriving DecidableEq

namespace MultiplexReassembler

def new (plan : MultiplexPlan) : MultiplexReassembler :=
  ⟨plan.totalLen, plan.blockSize, plan.blocks, List.replicate plan.blocks.length none⟩

def accept (H : Bytes → Bytes) (r : MultiplexReassembler) (index : ℕ) (bytes : Bytes) :
    Except MultiplexError MultiplexReassembler :=
  match r.expect[index]? with
  | none => .error (.unknownBlock index)
  | some exp =>
    if bytes.length ≠ exp.len then .error (.lengthMismatch index exp.len bytes.length)
    else if contentAddress H bytes ≠ exp.cid then .error (.cidMismatch index)
    else .ok { r with received := r.received.set index (some bytes) }

/-- How many blocks have not been received. -/
def missing (r : MultiplexReassembler) : ℕ := r.received.countP Option.isNone

def reassemble (r : MultiplexReassembler) : Except MultiplexError Bytes :=
  if r.missing ≠ 0 then .error (.incomplete r.missing)
  else .ok (r.received.zipIdx.foldl
    (fun out slot => writeAt out (slot.2 * r.blockSize) (slot.1.getD []))
    (List.replicate r.totalLen 0))

def step (H : Bytes → Bytes) (r : MultiplexReassembler) (arrival : ℕ × Bytes) :
    MultiplexReassembler :=
  match r.accept H arrival.1 arrival.2 with
  | .ok r' => r'
  | .error _ => r

end MultiplexReassembler

/-! ## Derived plans -/

section Plan

variable {H : Bytes → Bytes} {transfer : Bytes} {blockSize start : ℕ} {senders : List NodeId}
  {hsenders : senders ≠ []} {index : ℕ}

theorem blockCount_eq (hsize : 0 < blockSize) (len : ℕ) :
    blockCount len blockSize = divCeil len blockSize := by
  rw [blockCount]
  split_ifs with h
  · exact max_eq_left (Nat.zero_le _)
  · exact max_eq_left (divCeil_pos (Nat.pos_of_ne_zero h) hsize)

theorem lt_blockCount_iff (hsize : 0 < blockSize) {len : ℕ} :
    index < blockCount len blockSize ↔ index * blockSize < len := by
  rw [blockCount_eq hsize, lt_divCeil_iff hsize]

def BlockAssignment.slice (transfer : Bytes) (b : BlockAssignment) : Bytes :=
  (transfer.drop b.offset).take b.len

theorem slice_assignment :
    (assignment H transfer blockSize start senders hsenders index).slice transfer =
      block blockSize transfer index := by
  simp only [BlockAssignment.slice, assignment, block, List.take_eq_take_iff, List.length_drop]
  omega

theorem cid_assignment :
    (assignment H transfer blockSize start senders hsenders index).cid =
      contentAddress H (block blockSize transfer index) := by
  simp [assignment, drop_take_eq_block]

theorem len_assignment :
    (assignment H transfer blockSize start senders hsenders index).len =
      (block blockSize transfer index).length := by
  simp only [assignment, length_block]
  omega

theorem sender_assignment :
    senders[turn start senders.length index]? =
      some (assignment H transfer blockSize start senders hsenders index).sender := by
  have hlt : turn start senders.length index < senders.length :=
    turn_lt (List.length_pos_iff.2 hsenders) index
  rw [List.getElem?_eq_getElem hlt]
  rfl

theorem sender_assignment_eq_iff (hnodup : senders.Nodup) {s : NodeId} {j : ℕ}
    (hs : senders[j]? = some s) :
    (assignment H transfer blockSize start senders hsenders index).sender = s ↔
      turn start senders.length index = j := by
  rw [← Option.some_inj, ← sender_assignment, ← hs]
  exact List.getElem?_inj (turn_lt (List.length_pos_iff.2 hsenders) index) hnodup

theorem card_senders (hnodup : senders.Nodup) (n : ℕ) :
    (((List.range n).map (assignment H transfer blockSize start senders hsenders)).map
      (·.sender)).toFinset.card = ((Finset.range n).image (turn start senders.length)).card := by
  have hidx : ∀ i, senders.idxOf (assignment H transfer blockSize start senders hsenders i).sender =
      turn start senders.length i := fun i =>
    hnodup.idxOf_getElem _ _
  have hinj : Set.InjOn (senders.idxOf ·) (((List.range n).map
      (assignment H transfer blockSize start senders hsenders)).map (·.sender)).toFinset := by
    intro a ha b _ hab
    obtain ⟨_, hb, rfl⟩ := List.mem_map.1 (List.mem_toFinset.1 (Finset.mem_coe.1 ha))
    obtain ⟨i, -, rfl⟩ := List.mem_map.1 hb
    exact (List.idxOf_inj (List.mem_of_getElem? sender_assignment)).1 hab
  rw [← Finset.card_image_of_injOn hinj]
  congr 1
  ext j
  simp [hidx]

end Plan

/-- What the blocks of a plan are: adjacent pieces that make up the transfer, in order, each with
the content address of its bytes. -/
structure Partitions (H : Bytes → Bytes) (transfer : Bytes) (plan : MultiplexPlan) : Prop where
  indexed : plan.blocks.map (·.index) = List.range plan.blocks.length
  aligned : ∀ b ∈ plan.blocks, b.offset = b.index * plan.blockSize
  sized : ∀ b ∈ plan.blocks, 0 < b.len ∧ b.len ≤ plan.blockSize
  ordered : plan.blocks.Pairwise fun a b => a.offset + a.len ≤ b.offset
  covers : plan.blocks.flatMap (·.slice transfer) = transfer
  addressed : ∀ b ∈ plan.blocks, b.cid = contentAddress H (b.slice transfer)

structure Shares (senders : List NodeId) (plan : MultiplexPlan) : Prop where
  assigned : ∀ b ∈ plan.blocks, ∃! s, s ∈ senders ∧ b ∈ plan.blocksFor s
  fair : ∀ s ∈ senders, ∀ s' ∈ senders, (plan.blocksFor s).length ≤ (plan.blocksFor s').length + 1
  paths : plan.activePaths = min plan.blocks.length senders.toFinset.card

section Derived

variable {H : Bytes → Bytes} {transfer : Bytes} {blockSize : ℕ} {senders : List NodeId}
  {plan : MultiplexPlan}

theorem derive_eq_some_iff :
    MultiplexPlan.derive H transfer blockSize senders = some plan ↔
      0 < blockSize ∧ ∃ hsenders : sortDedup senders ≠ [], plan =
        { transferCid := contentAddress H transfer
          totalLen := transfer.length
          blockSize := blockSize
          senders := sortDedup senders
          blocks := (List.range (blockCount transfer.length blockSize)).map
            (assignment H transfer blockSize ((seed (contentAddress H transfer)).toNat %
              (sortDedup senders).length) (sortDedup senders) hsenders) } := by
  rw [MultiplexPlan.derive]
  split_ifs with hsize hsenders
  · simp [hsize]
  · simp [hsenders]
  · simp [Nat.pos_of_ne_zero hsize, hsenders, eq_comm]

theorem sortDedup_ne_nil (h : senders ≠ []) : sortDedup senders ≠ [] := by
  obtain ⟨s, hs⟩ := List.exists_mem_of_ne_nil senders h
  exact List.ne_nil_of_mem (mem_sortDedup.2 hs)

theorem nodup_sortDedup (senders : List NodeId) : (sortDedup senders).Nodup :=
  (sortDedup_sorted senders).imp ne_of_lt

section

variable (h : MultiplexPlan.derive H transfer blockSize senders = some plan)

include h

theorem partitions_plan : Partitions H transfer plan := by
  obtain ⟨hsize, hsenders, rfl⟩ := derive_eq_some_iff.1 h
  refine ⟨?_, ?_, ?_, ?_, ?_, ?_⟩
  · simp [Function.comp_def, assignment]
  · simp [assignment]
  · intro b hb
    obtain ⟨i, hi, rfl⟩ := List.mem_map.1 hb
    rw [List.mem_range, lt_blockCount_iff hsize] at hi
    rw [len_assignment, length_block]
    exact ⟨lt_min hsize (by omega), min_le_left _ _⟩
  · rw [List.pairwise_map]
    refine List.pairwise_lt_range.imp fun {i j} hij => ?_
    have hle := Nat.mul_le_mul_right blockSize (Nat.succ_le_of_lt hij)
    rw [Nat.succ_mul] at hle
    rw [len_assignment, length_block]
    simp only [assignment]
    omega
  · rw [List.flatMap_map]
    simp only [slice_assignment]
    rw [flatMap_block, blockCount_eq hsize]
    exact List.take_of_length_le (le_divCeil_mul _ hsize)
  · intro b hb
    obtain ⟨i, -, rfl⟩ := List.mem_map.1 hb
    rw [cid_assignment, slice_assignment]

theorem length_blocksFor {s : NodeId} {j : ℕ} (hs : (sortDedup senders)[j]? = some s) :
    (plan.blocksFor s).length = (List.range plan.blocks.length).countP
      (turn ((seed (contentAddress H transfer)).toNat % (sortDedup senders).length)
        (sortDedup senders).length · = j) := by
  obtain ⟨-, hsenders, rfl⟩ := derive_eq_some_iff.1 h
  rw [MultiplexPlan.blocksFor, ← List.countP_eq_length_filter, List.countP_map, List.length_map,
    List.length_range]
  refine List.countP_congr fun i _ => ?_
  simpa using sender_assignment_eq_iff (nodup_sortDedup senders) hs

theorem shares_plan : Shares senders plan := by
  refine ⟨fun b hb => ?_, fun s hs s' hs' => ?_, ?_⟩
  · obtain ⟨-, hsenders, rfl⟩ := derive_eq_some_iff.1 h
    refine ⟨b.sender, ⟨?_, List.mem_filter.2 ⟨hb, by simp⟩⟩, fun s hs => ?_⟩
    · obtain ⟨i, -, rfl⟩ := List.mem_map.1 hb
      exact mem_sortDedup.1 (List.mem_of_getElem? sender_assignment)
    · exact (beq_iff_eq.1 (List.mem_filter.1 hs.2).2).symm
  · obtain ⟨j, hj⟩ := List.mem_iff_getElem?.1 (mem_sortDedup.2 hs)
    obtain ⟨j', hj'⟩ := List.mem_iff_getElem?.1 (mem_sortDedup.2 hs')
    rw [length_blocksFor h hj, length_blocksFor h hj']
    have hle := (count_turn_bounds ((seed (contentAddress H transfer)).toNat %
      (sortDedup senders).length) (List.getElem?_eq_some_iff.1 hj).1 plan.blocks.length).2
    have hge := (count_turn_bounds ((seed (contentAddress H transfer)).toNat %
      (sortDedup senders).length) (List.getElem?_eq_some_iff.1 hj').1 plan.blocks.length).1
    omega
  · obtain ⟨-, hsenders, rfl⟩ := derive_eq_some_iff.1 h
    have hcard : senders.toFinset.card = (sortDedup senders).length := by
      rw [← List.toFinset_card_of_nodup (nodup_sortDedup senders)]
      congr 1
      ext s
      simp
    rw [MultiplexPlan.activePaths, card_senders (nodup_sortDedup senders),
      card_image_turn (List.length_pos_iff.2 hsenders), hcard, List.length_map, List.length_range]

theorem getElem?_blocks {i : ℕ} (hi : i < plan.blocks.length) :
    ∃ b, plan.blocks[i]? = some b ∧ b.index = i ∧
      b.slice transfer = block blockSize transfer i ∧
      b.len = (block blockSize transfer i).length ∧
      b.cid = contentAddress H (block blockSize transfer i) := by
  obtain ⟨-, hsenders, rfl⟩ := derive_eq_some_iff.1 h
  rw [List.length_map, List.length_range] at hi
  exact ⟨_, by rw [List.getElem?_map, List.getElem?_range hi]; rfl, rfl, slice_assignment,
    len_assignment, cid_assignment⟩

theorem forall_blocks_iff {P : ℕ → Bytes → Prop} :
    (∀ b ∈ plan.blocks, P b.index (b.slice transfer)) ↔
      ∀ i < plan.blocks.length, P i (block blockSize transfer i) := by
  constructor
  · intro hall i hi
    obtain ⟨b, hb, hindex, hslice, -⟩ := getElem?_blocks h hi
    simpa only [hindex, hslice] using hall b (List.mem_of_getElem? hb)
  · intro hall b hb
    obtain ⟨i, hi⟩ := List.mem_iff_getElem?.1 hb
    have hlt := (List.getElem?_eq_some_iff.1 hi).1
    obtain ⟨b', hb', hindex, hslice, -⟩ := getElem?_blocks h hlt
    obtain rfl := Option.some.inj (hi.symm.trans hb')
    rw [hindex, hslice]
    exact hall i hlt

end

end Derived

/-! ## What arrives -/

namespace MultiplexReassembler

variable {H : Bytes → Bytes} {transfer : Bytes} {blockSize : ℕ} {senders : List NodeId}
  {plan : MultiplexPlan} {r r' : MultiplexReassembler}

theorem accept_eq_ok_iff (hH : CollisionFree H)
    (h : MultiplexPlan.derive H transfer blockSize senders = some plan)
    (hr : r.expect = plan.blocks) {i : ℕ} {bytes : Bytes} :
    r.accept H i bytes = .ok r' ↔ i < plan.blocks.length ∧ bytes = block blockSize transfer i ∧
      r' = { r with received := r.received.set i (some bytes) } := by
  rw [accept, hr]
  by_cases hi : i < plan.blocks.length
  · obtain ⟨b, hb, -, -, hlen, hcid⟩ := getElem?_blocks h hi
    simp only [hb, hlen, hcid, (contentAddress_injective hH).eq_iff, hi, true_and, ne_eq]
    by_cases hbytes : bytes = block blockSize transfer i
    · simp [hbytes, eq_comm]
    · simp only [hbytes, not_false_eq_true, if_true, false_and, iff_false]
      split_ifs <;> simp
  · rw [List.getElem?_eq_none (not_lt.1 hi)]
    simp [hi]

def receivedOf (blockSize : ℕ) (transfer : Bytes) (n : ℕ) (arrivals : List (ℕ × Bytes)) :
    List (Option Bytes) :=
  slots n (block blockSize transfer) fun i => (i, block blockSize transfer i) ∈ arrivals

theorem receivedOf_concat (n : ℕ) (arrivals : List (ℕ × Bytes)) (i : ℕ) :
    receivedOf blockSize transfer n (arrivals ++ [(i, block blockSize transfer i)]) =
      (receivedOf blockSize transfer n arrivals).set i (some (block blockSize transfer i)) := by
  rw [receivedOf, receivedOf, slots_set]
  refine slots_congr fun j _ => ?_
  have hsame : (j, block blockSize transfer j) = (i, block blockSize transfer i) ↔ j = i :=
    ⟨fun h => congrArg Prod.fst h, fun h => by rw [h]⟩
  rw [List.mem_append, List.mem_singleton, hsame, or_comm]

theorem receivedOf_concat_of_ne (n : ℕ) (arrivals : List (ℕ × Bytes)) {i : ℕ} {bytes : Bytes}
    (hne : ¬ (i < n ∧ bytes = block blockSize transfer i)) :
    receivedOf blockSize transfer n (arrivals ++ [(i, bytes)]) =
      receivedOf blockSize transfer n arrivals := by
  refine slots_congr fun j hj => ?_
  have hother : (j, block blockSize transfer j) ≠ (i, bytes) := by
    rintro heq
    obtain ⟨rfl, rfl⟩ := Prod.mk.inj heq
    exact hne ⟨hj, rfl⟩
  simp [hother]

/-- **What has been received.** -/
theorem exec_eq (hH : CollisionFree H)
    (h : MultiplexPlan.derive H transfer blockSize senders = some plan)
    (arrivals : List (ℕ × Bytes)) :
    exec (step H) (new plan) arrivals = { new plan with
      received := receivedOf blockSize transfer plan.blocks.length arrivals } := by
  induction arrivals using List.reverseRecOn with
  | nil => simp [new, receivedOf, slots_false]
  | append_singleton arrivals arrival ih =>
    obtain ⟨i, bytes⟩ := arrival
    rw [exec_concat, ih, step]
    by_cases hintact : i < plan.blocks.length ∧ bytes = block blockSize transfer i
    · obtain ⟨hi, rfl⟩ := hintact
      rw [(accept_eq_ok_iff hH h rfl).2 ⟨hi, rfl, rfl⟩, receivedOf_concat]
    · rw [receivedOf_concat_of_ne _ _ hintact]
      split
      · rename_i hok
        obtain ⟨hi, hbytes, -⟩ := (accept_eq_ok_iff hH h rfl).1 hok
        exact absurd ⟨hi, hbytes⟩ hintact
      · rfl

/-! ## Putting the transfer together -/

theorem missing_eq_zero_iff {n : ℕ} {arrivals : List (ℕ × Bytes)} :
    (receivedOf blockSize transfer n arrivals).countP Option.isNone = 0 ↔
      ∀ i < n, (i, block blockSize transfer i) ∈ arrivals := by
  rw [receivedOf, countP_isNone_slots, List.countP_eq_zero]
  simp

/-- **A transfer is restored exactly when all of it arrived.** -/
theorem reassemble_exec (hH : CollisionFree H)
    (h : MultiplexPlan.derive H transfer blockSize senders = some plan)
    (arrivals : List (ℕ × Bytes)) :
    (exec (step H) (new plan) arrivals).reassemble =
      if ∀ i < plan.blocks.length, (i, block blockSize transfer i) ∈ arrivals then .ok transfer
      else .error (.incomplete (exec (step H) (new plan) arrivals).missing) := by
  have hexec := exec_eq hH h arrivals
  have hmissing : (exec (step H) (new plan) arrivals).missing = 0 ↔
      ∀ i < plan.blocks.length, (i, block blockSize transfer i) ∈ arrivals := by
    rw [missing, hexec]
    exact missing_eq_zero_iff
  rw [reassemble]
  by_cases hall : ∀ i < plan.blocks.length, (i, block blockSize transfer i) ∈ arrivals
  · rw [if_neg (not_not.2 (hmissing.2 hall)), if_pos hall, hexec]
    have hreceived : receivedOf blockSize transfer plan.blocks.length arrivals =
        (List.range plan.blocks.length).map fun i => some (block blockSize transfer i) :=
      List.map_congr_left fun i hi => if_pos (hall i (List.mem_range.1 hi))
    obtain ⟨hsize, hsenders, rfl⟩ := derive_eq_some_iff.1 h
    simp only [new, hreceived, zipIdx_map_range, List.foldl_map, Option.getD_some]
    have hcount : transfer.length ≤ blockCount transfer.length blockSize * blockSize := by
      rw [blockCount_eq hsize]
      exact le_divCeil_mul _ hsize
    rw [foldl_writeAt_block (by simp), List.length_map, List.length_range,
      List.take_of_length_le hcount, List.drop_eq_nil_of_le (by simpa using hcount),
      List.append_nil]
  · rw [if_pos (mt hmissing.1 hall), if_neg hall]

end MultiplexReassembler

open MultiplexReassembler

/-- **Multiplexed transfers.** -/
theorem multiplexed_transfer {H : Bytes → Bytes} (hH : CollisionFree H) (transfer : Bytes)
    {blockSize : ℕ} (hsize : 0 < blockSize) {senders : List NodeId} (hsenders : senders ≠ []) :
    ∃ plan, MultiplexPlan.derive H transfer blockSize senders = some plan ∧
      Partitions H transfer plan ∧ Shares senders plan ∧
      ∀ arrivals : List (ℕ × Bytes),
        (∀ i bytes, (∃ r, (exec (step H) (new plan) arrivals).accept H i bytes = .ok r) ↔
          ∃ b ∈ plan.blocks, b.index = i ∧ b.slice transfer = bytes) ∧
        ((exec (step H) (new plan) arrivals).reassemble = .ok transfer ↔
          ∀ b ∈ plan.blocks, (b.index, b.slice transfer) ∈ arrivals) ∧
        ∀ out, (exec (step H) (new plan) arrivals).reassemble = .ok out → out = transfer := by
  obtain ⟨plan, hplan⟩ : ∃ plan, MultiplexPlan.derive H transfer blockSize senders = some plan :=
    ⟨_, derive_eq_some_iff.2 ⟨hsize, sortDedup_ne_nil hsenders, rfl⟩⟩
  refine ⟨plan, hplan, partitions_plan hplan, shares_plan hplan, fun arrivals => ⟨?_, ?_, ?_⟩⟩
  · intro i bytes
    have hexpect : (exec (step H) (new plan) arrivals).expect = plan.blocks := by
      rw [exec_eq hH hplan]
      rfl
    rw [← not_iff_not]
    push Not
    rw [forall_blocks_iff hplan (P := fun j slice => j = i → slice ≠ bytes)]
    simp only [ne_eq, accept_eq_ok_iff hH hplan hexpect]
    constructor
    · rintro hnone j hj rfl hbytes
      exact hnone _ ⟨hj, hbytes.symm, rfl⟩
    · rintro hnone r ⟨hi, hbytes, -⟩
      exact hnone i hi rfl hbytes.symm
  · rw [reassemble_exec hH hplan, forall_blocks_iff hplan (P := fun i slice => (i, slice) ∈ arrivals)]
    split_ifs with hall
    · exact iff_of_true rfl hall
    · exact iff_of_false (by simp) hall
  · intro out hout
    rw [reassemble_exec hH hplan] at hout
    split_ifs at hout
    exact (Except.ok.inj hout).symm

/-- SHA2-256 on a transfer and its two blocks. -/
def cellsDigest : Bytes → Bytes := tableDigest
  [(utf8 "cells",
    beBytes 32 0x57104c57fbe0d1c944620f06ca6f5f1e26fc87025ad368e9327743b8975e4d49),
   (utf8 "cel",
    beBytes 32 0xe910c860a57e5fdce6036094ff88077670a2343121beb2f844007d5d4462a948),
   (utf8 "ls",
    beBytes 32 0xc7b68ac37f364473e922936708e7f43c293dd07b295171566c07ff5fe024fab9)]

/-- A transfer of five bytes in blocks of three, from two senders of whom one is named twice: the
second block comes first, damaged once, and the transfer is restored. -/
theorem cells_transferred :
    CollisionFree cellsDigest ∧
      ∃ plan, MultiplexPlan.derive cellsDigest (utf8 "cells") 3 ["b", "a", "b"] = some plan ∧
        plan.blocks.map (fun b => (b.offset, b.len, b.sender)) = [(0, 3, "a"), (3, 2, "b")] ∧
        Shares ["b", "a", "b"] plan ∧
        (exec (step cellsDigest) (new plan)
          [(1, utf8 "lt"), (1, utf8 "ls"), (7, []), (0, utf8 "cel")]).reassemble =
          .ok (utf8 "cells") := by
  have hH : CollisionFree cellsDigest :=
    tableDigest_collisionFree (by decide +kernel) (by decide +kernel)
  obtain ⟨plan, hplan, -, hshares, hrun⟩ :=
    multiplexed_transfer hH (utf8 "cells") (Nat.succ_pos 2) (List.cons_ne_nil "b" ["a", "b"])
  have hblocks : (MultiplexPlan.derive cellsDigest (utf8 "cells") 3 ["b", "a", "b"]).map (fun plan =>
      plan.blocks.map fun b => (b.offset, b.len, b.sender)) =
      some [(0, 3, "a"), (3, 2, "b")] := by
    decide +kernel
  have harrived : (MultiplexPlan.derive cellsDigest (utf8 "cells") 3 ["b", "a", "b"]).all (fun plan =>
      plan.blocks.all fun b => (b.index, b.slice (utf8 "cells")) ∈
        [(1, utf8 "lt"), (1, utf8 "ls"), (7, []), (0, utf8 "cel")]) = true := by
    decide +kernel
  rw [hplan] at hblocks harrived
  exact ⟨hH, plan, hplan, Option.some.inj hblocks, hshares,
    (hrun _).2.1.2 fun b hb => by simpa using List.all_eq_true.1 harrived b hb⟩

end Pillar.Net
