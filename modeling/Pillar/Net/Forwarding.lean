import Pillar.Lib.Runs
import Pillar.Wire.Envelope

/-!
# Forwarded messages

`pillar-net`'s `DedupProcessor` and `ForwardGate`: a node processes and forwards what it has not
seen, by content address.

* `Node.processed_eq` — **what a node processes**: one copy for each content address.
-/

namespace Pillar.Net

open Lib.Compare Wire

/-! ## The gates -/

/-- The content addresses that have been processed. -/
structure DedupProcessor where
  seen : Finset ContentId

/-- The content addresses that have been forwarded. -/
structure ForwardGate where
  seen : Finset ContentId

/-- What becomes of a copy that arrives. -/
inductive Delivery where
  /-- It is forwarded, with the time to live that is left. -/
  | forward (ttl : UInt32)
  | terminal
  | loop
  deriving DecidableEq

def DedupProcessor.new : DedupProcessor := ⟨∅⟩

def DedupProcessor.process (d : DedupProcessor) (cid : ContentId) : DedupProcessor × Bool :=
  (⟨insert cid d.seen⟩, cid ∉ d.seen)

namespace ForwardGate

def new : ForwardGate := ⟨∅⟩

def forward (g : ForwardGate) (cid : ContentId) (ttl : UInt32) : ForwardGate × Option UInt32 :=
  if ttl = 0 then (g, none)
  else if cid ∈ g.seen then (⟨insert cid g.seen⟩, none)
  else (⟨insert cid g.seen⟩, some (ttl - 1))

def arrive (g : ForwardGate) (cid : ContentId) (ttl : UInt32) : ForwardGate × Delivery :=
  if cid ∈ g.seen then (⟨insert cid g.seen⟩, .loop)
  else if ttl = 0 then (⟨insert cid g.seen⟩, .terminal)
  else (⟨insert cid g.seen⟩, .forward (ttl - 1))

end ForwardGate

/-! ## A node -/

/-- A copy of a message on its way. -/
structure Copy where
  message : PillarMessage
  ttl : UInt32
  deriving DecidableEq

/-- Which function of the gate a node asks. -/
inductive Entry where
  | forward
  | arrive
  deriving DecidableEq

structure Node where
  dedup : DedupProcessor
  gate : ForwardGate

namespace Node

variable (W : WireEnvelope → Bytes) (H : Bytes → Bytes)

def new : Node := ⟨.new, .new⟩

/-- The gate after a copy, and the time to live it is forwarded with. -/
def pass (g : ForwardGate) (cid : ContentId) (ttl : UInt32) : Entry → ForwardGate × Option UInt32
  | .forward => g.forward cid ttl
  | .arrive =>
    match g.arrive cid ttl with
    | (g', .forward ttl') => (g', some ttl')
    | (g', _) => (g', none)

def receive (node : Node) (a : Copy × Entry) : Node :=
  ⟨(node.dedup.process (a.1.message.cid W H)).1,
    (pass node.gate (a.1.message.cid W H) a.1.ttl a.2).1⟩

def processes (node : Node) (a : Copy × Entry) : Bool :=
  (node.dedup.process (a.1.message.cid W H)).2

/-- The time to live a copy that arrives is forwarded with, if it is. -/
def forwards (node : Node) (a : Copy × Entry) : Option UInt32 :=
  (pass node.gate (a.1.message.cid W H) a.1.ttl a.2).2

/-- How many of the copies that arrive are processed. -/
def processed (node : Node) : List (Copy × Entry) → ℕ
  | [] => 0
  | a :: l => (if node.processes W H a then 1 else 0) + (node.receive W H a).processed l

/-- How many of the copies that arrive are forwarded. -/
def forwarded (node : Node) : List (Copy × Entry) → ℕ
  | [] => 0
  | a :: l => (if (node.forwards W H a).isSome then 1 else 0) + (node.receive W H a).forwarded l

end Node

/-! ## The network -/

structure Network where
  nodes : NodeId → Node
  flight : List (NodeId × Copy)

structure Handover where
  index : ℕ
  entry : Entry
  targets : List NodeId

namespace Network

variable (W : WireEnvelope → Bytes) (H : Bytes → Bytes)

def inject (msg : PillarMessage) (ttl : UInt32) (entries : List NodeId) : Network :=
  ⟨fun _ => .new, entries.map (·, ⟨msg, ttl⟩)⟩

def arrival (net : Network) (h : Handover) : Option (NodeId × Copy × Entry) :=
  net.flight[h.index]?.map fun c => (c.1, c.2, h.entry)

/-- A copy arrives; copies that were sent can arrive again. -/
def step (net : Network) (h : Handover) : Network :=
  match net.arrival h with
  | none => net
  | some (n, a) =>
    { nodes := Function.update net.nodes n ((net.nodes n).receive W H a)
      flight := net.flight ++
        match (net.nodes n).forwards W H a with
        | none => []
        | some ttl => h.targets.map (·, ⟨a.1.message.incrementedHop, ttl⟩) }

def arrivals (n : NodeId) (net : Network) : List Handover → List (Copy × Entry)
  | [] => []
  | h :: hs =>
    (match net.arrival h with
      | some (n', a) => if n' = n then [a] else []
      | none => []) ++ arrivals n (net.step W H h) hs

def processedAt (n : NodeId) (net : Network) : List Handover → ℕ
  | [] => 0
  | h :: hs =>
    (match net.arrival h with
      | some (n', a) => if n' = n ∧ (net.nodes n).processes W H a then 1 else 0
      | none => 0) + processedAt n (net.step W H h) hs

def forwardedAt (n : NodeId) (net : Network) : List Handover → ℕ
  | [] => 0
  | h :: hs =>
    (match net.arrival h with
      | some (n', a) => if n' = n ∧ ((net.nodes n).forwards W H a).isSome then 1 else 0
      | none => 0) + forwardedAt n (net.step W H h) hs

end Network

/-! ## What a node does -/

variable {W : WireEnvelope → Bytes} {H : Bytes → Bytes}

namespace Node

theorem pass_cases (g : ForwardGate) (cid : ContentId) (ttl : UInt32) (e : Entry) :
    (pass g cid ttl e).2 = none ∧ g.seen ⊆ (pass g cid ttl e).1.seen ∧
        (pass g cid ttl e).1.seen ⊆ insert cid g.seen ∨
      cid ∉ g.seen ∧ ttl ≠ 0 ∧ pass g cid ttl e = (⟨insert cid g.seen⟩, some (ttl - 1)) := by
  by_cases httl : ttl = 0
  · left
    cases e with
    | forward => simp [pass, ForwardGate.forward, httl]
    | arrive => by_cases hseen : cid ∈ g.seen <;> simp [pass, ForwardGate.arrive, httl, hseen]
  · by_cases hseen : cid ∈ g.seen
    · left
      cases e <;> simp [pass, ForwardGate.forward, ForwardGate.arrive, httl, hseen]
    · right
      cases e <;> simp [pass, ForwardGate.forward, ForwardGate.arrive, httl, hseen]

theorem card_sdiff_insert {α : Type*} [DecidableEq α] {k : α} {s seen : Finset α} (hk : k ∉ seen) :
    (insert k s \ seen).card = 1 + (s \ insert k seen).card := by
  rw [Finset.insert_sdiff_of_notMem s hk, Finset.sdiff_insert,
    ← Finset.card_erase_add_one (Finset.mem_insert_self k _), Finset.erase_insert_eq_erase,
    Nat.add_comm]

/-- **What a node processes.** -/
theorem processed_eq (node : Node) (l : List (Copy × Entry)) :
    node.processed W H l =
      ((l.map fun a => a.1.message.cid W H).toFinset \ node.dedup.seen).card := by
  induction l generalizing node with
  | nil => simp [processed]
  | cons a l ih =>
    rw [processed, ih, List.map_cons, List.toFinset_cons]
    by_cases hseen : a.1.message.cid W H ∈ node.dedup.seen
    · rw [Finset.insert_sdiff_of_mem _ hseen]
      simp [processes, receive, DedupProcessor.process, hseen]
    · rw [card_sdiff_insert hseen]
      simp [processes, receive, DedupProcessor.process, hseen]

theorem forwarded_le (node : Node) (l : List (Copy × Entry)) :
    node.forwarded W H l ≤
      ((l.map fun a => a.1.message.cid W H).toFinset \ node.gate.seen).card := by
  induction l generalizing node with
  | nil => simp [forwarded]
  | cons a l ih =>
    rw [forwarded, List.map_cons, List.toFinset_cons]
    have hrest := ih (node.receive W H a)
    rcases pass_cases node.gate (a.1.message.cid W H) a.1.ttl a.2 with
      ⟨hnone, hgrows, -⟩ | ⟨hseen, -, hpass⟩
    · have hle : ((l.map fun a => a.1.message.cid W H).toFinset \
          (node.receive W H a).gate.seen).card ≤
          (insert (a.1.message.cid W H) (l.map fun a => a.1.message.cid W H).toFinset \
            node.gate.seen).card :=
        Finset.card_le_card (Finset.sdiff_subset_sdiff (Finset.subset_insert _ _) hgrows)
      simp only [forwards, hnone, Option.isSome_none, Bool.false_eq_true, if_false]
      omega
    · rw [card_sdiff_insert hseen]
      simp only [receive, hpass] at hrest
      simp only [forwards, hpass, Option.isSome_some, if_true, receive]
      omega

end Node

namespace Network

variable {net : Network} {n : NodeId}

theorem processedAt_eq (net : Network) (n : NodeId) (hs : List Handover) :
    processedAt W H n net hs = (net.nodes n).processed W H (arrivals W H n net hs) ∧
      forwardedAt W H n net hs = (net.nodes n).forwarded W H (arrivals W H n net hs) := by
  induction hs generalizing net with
  | nil => exact ⟨rfl, rfl⟩
  | cons h hs ih =>
    obtain ⟨hprocessed, hforwarded⟩ := ih (net.step W H h)
    rw [processedAt, forwardedAt, arrivals, hprocessed, hforwarded]
    cases harrival : net.arrival h with
    | none => simp [step, harrival]
    | some na =>
      obtain ⟨n', a⟩ := na
      by_cases hn : n' = n
      · subst hn
        simp [step, harrival, Node.processed, Node.forwarded]
      · simp [step, harrival, hn, Function.update_of_ne (Ne.symm hn)]

/-! ## Copies of one message -/

variable {msg : PillarMessage} {ttl : UInt32}

def CopyOf (msg : PillarMessage) (ttl : UInt32) (c : Copy) : Prop :=
  ∃ j, c.message = PillarMessage.incrementedHop^[j] msg ∧ c.ttl.toNat + j = ttl.toNat

theorem iterate_incrementedHop (msg : PillarMessage) (j : ℕ) :
    PillarMessage.incrementedHop^[j] msg =
      msg.withHops (PillarMessage.incrementedHop^[j] msg).hops := by
  induction j with
  | zero => rfl
  | succ j ih =>
    rw [Function.iterate_succ_apply', PillarMessage.incrementedHop]
    generalize (PillarMessage.incrementedHop^[j] msg) = last at ih ⊢
    rw [ih]
    rfl

theorem CopyOf.message_eq {c : Copy} (h : CopyOf msg ttl c) :
    c.message = msg.withHops c.message.hops := by
  obtain ⟨j, hmessage, -⟩ := h
  rw [hmessage]
  exact iterate_incrementedHop msg j

theorem CopyOf.next {c : Copy} (h : CopyOf msg ttl c) (httl : c.ttl ≠ 0) :
    CopyOf msg ttl ⟨c.message.incrementedHop, c.ttl - 1⟩ := by
  obtain ⟨j, hmessage, hsum⟩ := h
  refine ⟨j + 1, by rw [hmessage, Function.iterate_succ_apply'], ?_⟩
  have hpos : 1 ≤ c.ttl := by
    rw [UInt32.le_iff_toNat_le]
    have hne : c.ttl.toNat ≠ 0 := fun h0 => httl (UInt32.toNat_inj.1 h0)
    exact Nat.pos_of_ne_zero hne
  rw [UInt32.toNat_sub_of_le _ _ hpos]
  rw [UInt32.le_iff_toNat_le] at hpos
  simp only [UInt32.toNat_one] at hpos ⊢
  omega

def AllCopies (msg : PillarMessage) (ttl : UInt32) (net : Network) : Prop :=
  ∀ c ∈ net.flight, CopyOf msg ttl c.2

theorem allCopies_inject (msg : PillarMessage) (ttl : UInt32) (entries : List NodeId) :
    AllCopies msg ttl (inject msg ttl entries) := by
  intro c hc
  obtain ⟨n, -, rfl⟩ := List.mem_map.1 hc
  exact ⟨0, rfl, rfl⟩

theorem copyOf_arrival (h : AllCopies msg ttl net) {hand : Handover} {c : Copy} {e : Entry}
    (harrival : net.arrival hand = some (n, c, e)) : CopyOf msg ttl c := by
  obtain ⟨c', hc', heq⟩ := Option.map_eq_some_iff.1 harrival
  obtain ⟨-, hcopy⟩ := Prod.mk.inj heq
  rw [← (Prod.mk.inj hcopy).1]
  exact h c' (List.mem_of_getElem? hc')

theorem allCopies_step (h : AllCopies msg ttl net) (hand : Handover) :
    AllCopies msg ttl (net.step W H hand) := by
  rw [step]
  split
  · exact h
  · rename_i n a harrival
    have hcopy := copyOf_arrival h harrival
    intro c hc
    rcases List.mem_append.1 hc with hc | hc
    · exact h c hc
    · rcases Node.pass_cases (net.nodes n).gate (a.1.message.cid W H) a.1.ttl a.2 with
        ⟨hnone, -, -⟩ | ⟨-, httl, hpass⟩
      · simp [Node.forwards, hnone] at hc
      · simp only [Node.forwards, hpass] at hc
        obtain ⟨t, -, rfl⟩ := List.mem_map.1 hc
        exact hcopy.next httl

theorem copyOf_arrivals (h : AllCopies msg ttl net) {hs : List Handover} {a : Copy × Entry}
    (ha : a ∈ arrivals W H n net hs) : CopyOf msg ttl a.1 := by
  induction hs generalizing net with
  | nil => simp [arrivals] at ha
  | cons hand hs ih =>
    rw [arrivals] at ha
    rcases List.mem_append.1 ha with ha | ha
    · split at ha
      · rename_i n' a' harrival
        split_ifs at ha
        · obtain rfl := List.mem_singleton.1 ha
          exact copyOf_arrival h harrival
        · simp at ha
      · simp at ha
    · exact ih (allCopies_step h hand) ha

theorem card_cids (hW : TellsHops W) (hH : CollisionFree H) {l : List (Copy × Entry)}
    (hl : ∀ a ∈ l, CopyOf msg ttl a.1) :
    (l.map fun a => a.1.message.cid W H).toFinset.card =
      (l.map fun a => a.1.message.hops).toFinset.card := by
  have hcid : (l.map fun a => a.1.message.cid W H) =
      (l.map fun a => a.1.message.hops).map fun hops => (msg.withHops hops).cid W H := by
    rw [List.map_map]
    refine List.map_congr_left fun a ha => ?_
    exact congrArg (PillarMessage.cid W H) (hl a ha).message_eq
  have hinj : Function.Injective fun hops => (msg.withHops hops).cid W H := fun a b =>
    PillarMessage.cid_withHops_inj hW hH
  rw [hcid, ← Finset.card_image_of_injective _ hinj]
  congr 1
  ext cid
  simp

theorem card_hops_le {l : List (Copy × Entry)} (hl : ∀ a ∈ l, CopyOf msg ttl a.1) :
    (l.map fun a => a.1.message.hops).toFinset.card ≤ ttl.toNat + 1 := by
  have hsub : (l.map fun a => a.1.message.hops).toFinset ⊆ (Finset.range (ttl.toNat + 1)).image
      fun j => (PillarMessage.incrementedHop^[j] msg).hops := by
    intro hops hhops
    obtain ⟨a, ha, rfl⟩ := List.mem_map.1 (List.mem_toFinset.1 hhops)
    obtain ⟨j, hmessage, hsum⟩ := hl a ha
    exact Finset.mem_image.2 ⟨j, Finset.mem_range.2 (by omega), by rw [hmessage]⟩
  exact (Finset.card_le_card hsub).trans (Finset.card_image_le.trans (by simp))

end Network

open Network

/-- **A message that is forwarded.** -/
theorem forwarded_copies (hW : TellsHops W) (hH : CollisionFree H) (msg : PillarMessage)
    (ttl : UInt32) (entries : List NodeId) (hs : List Handover) (n : NodeId) :
    processedAt W H n (inject msg ttl entries) hs =
        ((arrivals W H n (inject msg ttl entries) hs).map
          fun a => a.1.message.hops).toFinset.card ∧
      processedAt W H n (inject msg ttl entries) hs ≤ ttl.toNat + 1 ∧
      forwardedAt W H n (inject msg ttl entries) hs ≤
        processedAt W H n (inject msg ttl entries) hs ∧
      (processedAt W H n (inject msg ttl entries) hs ≤ 1 ↔
        ∀ a ∈ arrivals W H n (inject msg ttl entries) hs,
          ∀ b ∈ arrivals W H n (inject msg ttl entries) hs,
            a.1.message.hops = b.1.message.hops) := by
  have hcopies : ∀ a ∈ arrivals W H n (inject msg ttl entries) hs, CopyOf msg ttl a.1 :=
    fun a ha => copyOf_arrivals (allCopies_inject msg ttl entries) ha
  obtain ⟨hprocessed, hforwarded⟩ :=
    processedAt_eq (W := W) (H := H) (inject msg ttl entries) n hs
  have hcount : processedAt W H n (inject msg ttl entries) hs =
      ((arrivals W H n (inject msg ttl entries) hs).map
        fun a => a.1.message.hops).toFinset.card := by
    rw [hprocessed, Node.processed_eq, ← card_cids hW hH hcopies]
    simp [inject, Node.new, DedupProcessor.new]
  refine ⟨hcount, hcount ▸ card_hops_le hcopies, ?_, ?_⟩
  · have hle := Node.forwarded_le (W := W) (H := H) ((inject msg ttl entries).nodes n)
      (arrivals W H n (inject msg ttl entries) hs)
    rw [hforwarded, hcount, ← card_cids hW hH hcopies]
    simpa [inject, Node.new, ForwardGate.new] using hle
  · rw [hcount, Finset.card_le_one]
    simp only [List.mem_toFinset, List.mem_map, forall_exists_index, and_imp,
      forall_apply_eq_imp_iff₂]

/-! ## A loop of two nodes -/

def sealedMessage : PillarMessage :=
  .new (List.replicate 32 0) (List.replicate 64 0) .cell (utf8 "cell-a") (utf8 "sealed-body")

/-- A writer that puts down the hops and the sealed body. -/
def hopsWriter (w : WireEnvelope) : Bytes := beBytes 4 w.hops.toNat ++ w.bodySealed

theorem hopsWriter_tellsHops : TellsHops hopsWriter := by
  intro w a b h
  have hhops : beBytes 4 a.toNat = beBytes 4 b.toNat := List.append_cancel_right h
  exact UInt32.toNat_inj.1 (beBytes_inj a.toNat_lt b.toNat_lt hhops)

/-- How often a node processes the message, which is sent to `a`. -/
def timesProcessed (n : NodeId) : List Handover → ℕ :=
  processedAt hopsWriter (tableDigest []) n (inject sealedMessage 3 ["a"])

/-- The message is sent to `a`, and forwarded to `b`, where the copy arrives twice. -/
def redundantCopies : List Handover := [⟨0, .forward, ["b"]⟩, ⟨1, .arrive, []⟩, ⟨1, .arrive, []⟩]

/-- What reaches `b` made one hop each time, and is processed once. -/
theorem processed_once :
    timesProcessed "b" redundantCopies = 1 ∧
      ∀ a ∈ arrivals hopsWriter (tableDigest []) "b" (inject sealedMessage 3 ["a"])
          redundantCopies,
        ∀ b ∈ arrivals hopsWriter (tableDigest []) "b" (inject sealedMessage 3 ["a"])
            redundantCopies, a.1.message.hops = b.1.message.hops := by
  have hrun := forwarded_copies hopsWriter_tellsHops tableDigest_nil_collisionFree sealedMessage 3
    ["a"] redundantCopies "b"
  have honce : timesProcessed "b" redundantCopies = 1 := by decide +kernel
  exact ⟨honce, hrun.2.2.2.1 honce.le⟩

/-- The message is sent to `a`, which forwards it to `b`, which forwards it to `a`: there it is
processed and forwarded a second time. -/
theorem processed_twice :
    timesProcessed "a" [⟨0, .forward, ["b"]⟩, ⟨1, .forward, ["a"]⟩, ⟨2, .forward, ["b"]⟩] = 2 ∧
      forwardedAt hopsWriter (tableDigest []) "a" (inject sealedMessage 3 ["a"])
        [⟨0, .forward, ["b"]⟩, ⟨1, .forward, ["a"]⟩, ⟨2, .forward, ["b"]⟩] = 2 := by
  decide +kernel

end Pillar.Net
