import Pillar.Crypto
import Pillar.Lib.Runs
import Pillar.Observability.Retention

/-!
# The timeseries store

`pillar-observability`: signals go into a block until it is full; full blocks are sealed, and a
sealed block is dropped as a whole once the time to keep the last of its signals is over.

* `never_dropped_early` — **what was written is held until its time is over, and only what was
  written is held.**
* `write_succeeds` — **a write without labels succeeds** precisely when no earlier write has fallen
  into its interval; `write_panics` — otherwise it panics.
-/

namespace Pillar.Observability

open Lib.Runs
open Psl (SignalKind)
open Std (ExtTreeMap)

variable {H : Bytes → Bytes}

/-! ## The code -/

def saturatingAdd (a b : ℕ) : ℕ := min (a + b) (2 ^ 64 - 1)

/-- What a signal is known by: the address of its payload. -/
abbrev SignalId := ContentId

structure Signal where
  id : SignalId
  kind : SignalKind
  payload : Bytes
  labels : LabelSet
  expiry : ℕ

def Signal.newLabeled (H : Bytes → Bytes) (kind : SignalKind) (payload : Bytes) (labels : LabelSet)
    (writeTick retentionWindow : ℕ) : Signal where
  id := contentAddress H payload
  kind
  payload
  labels
  expiry := saturatingAdd writeTick retentionWindow

structure TimeseriesBlock where
  capacity : ℕ
  signals : ExtTreeMap SignalId Signal
  sealed_ : Bool
  latestExpiry : ℕ

namespace TimeseriesBlock

def new (capacity : ℕ) : TimeseriesBlock := ⟨capacity, ∅, false, 0⟩

def contains (b : TimeseriesBlock) (id : SignalId) : Bool := b.signals.contains id

def admitSignal (b : TimeseriesBlock) (signal : Signal) : Bool × TimeseriesBlock :=
  if b.sealed_ then (false, b)
  else if !b.contains signal.id && decide (b.capacity ≤ b.signals.size) then
    (false, { b with sealed_ := true })
  else
    let signals := b.signals.insertIfNew signal.id signal
    (true, { b with
      latestExpiry := max b.latestExpiry signal.expiry
      signals
      sealed_ := if b.capacity ≤ signals.size then true else b.sealed_ })

end TimeseriesBlock

/-- Full blocks, the one that is open, and when each signal was written. -/
structure TimeseriesStore where
  blockCapacity : ℕ
  /-- A store of blocks that take none is never made. -/
  capacity_pos : 0 < blockCapacity
  /-- How long a signal is kept if no policy says otherwise. -/
  retentionWindow : ℕ
  policies : RetentionPolicySet
  sealed_ : List TimeseriesBlock
  open_ : TimeseriesBlock
  /-- Every signal ever written, and when it might be dropped at first. -/
  written : ExtTreeMap SignalId ℕ
  writeTicks : ExtTreeMap SignalId ℕ
  writeSeqs : ExtTreeMap SignalId ℕ
  nextSeq : ℕ
  downsampleLast : Finset (SignalKind × String)

namespace TimeseriesStore

def new (blockCapacity : ℕ) (capacity_pos : 0 < blockCapacity) (retentionWindow : ℕ) :
    TimeseriesStore where
  blockCapacity
  capacity_pos
  retentionWindow
  policies := .empty
  sealed_ := []
  open_ := .new blockCapacity
  written := ∅
  writeTicks := ∅
  writeSeqs := ∅
  nextSeq := 0
  downsampleLast := ∅

def setPolicies (s : TimeseriesStore) (policies : RetentionPolicySet) : TimeseriesStore :=
  { s with policies }

/-- The interval that a write falls into, if the policies thin it out: a policy with an interval of
length zero does not. -/
def bucket (s : TimeseriesStore) (kind : SignalKind) (labels : LabelSet) (writeTick : ℕ) :
    Option (SignalKind × String) :=
  match (s.policies.effective kind labels).downsample with
  | some (bucketKey, interval) =>
    if interval = 0 then none else some (kind, bucketKey ++ ":" ++ toString (writeTick / interval))
  | none => none

def record (s : TimeseriesStore) (signal : Signal) (writeTick : ℕ) : TimeseriesStore :=
  { s with
    written := s.written.insertIfNew signal.id signal.expiry
    writeTicks := s.writeTicks.insertIfNew signal.id writeTick
    writeSeqs := s.writeSeqs.insertIfNew signal.id s.nextSeq
    nextSeq := if s.writeSeqs.contains signal.id then s.nextSeq else s.nextSeq + 1 }

def push (s : TimeseriesStore) (signal : Signal) : TimeseriesStore :=
  match s.open_.admitSignal signal with
  | (true, block) => { s with open_ := block }
  | (false, full) =>
    { s with
      sealed_ := if full.signals.isEmpty then s.sealed_ else s.sealed_ ++ [full]
      open_ := ((TimeseriesBlock.new s.blockCapacity).admitSignal signal).2 }

/-- A signal is written unless its bucket has one. -/
def writeLabeled (H : Bytes → Bytes) (s : TimeseriesStore) (kind : SignalKind) (payload : Bytes)
    (labels : LabelSet) (writeTick : ℕ) : Option SignalId × TimeseriesStore :=
  let window := (s.policies.effective kind labels).window.getD s.retentionWindow
  let signal := Signal.newLabeled H kind payload labels writeTick window
  match s.bucket kind labels writeTick with
  | some key =>
    if key ∈ s.downsampleLast then (none, s)
    else
      let s := { s with downsampleLast := insert key s.downsampleLast }
      (some signal.id, (s.record signal writeTick).push signal)
  | none => (some signal.id, (s.record signal writeTick).push signal)

/-- A write without labels; `none` is the panic of `expect`. -/
def write (H : Bytes → Bytes) (s : TimeseriesStore) (kind : SignalKind) (payload : Bytes)
    (writeTick : ℕ) : Option SignalId × TimeseriesStore :=
  s.writeLabeled H kind payload ∅ writeTick

def contains (s : TimeseriesStore) (id : SignalId) : Bool :=
  s.open_.contains id || s.sealed_.any fun b => b.contains id

def compact (s : TimeseriesStore) (tick : ℕ) : ℕ × TimeseriesStore :=
  let sealed_ := s.sealed_.filter fun b => decide (tick < b.latestExpiry) || !b.sealed_
  (s.sealed_.length - sealed_.length, { s with sealed_ })

end TimeseriesStore

/-! ## Runs -/

inductive Call where
  | setPolicies (policies : RetentionPolicySet)
  | write (kind : SignalKind) (payload : Bytes) (writeTick : ℕ)
  | writeLabeled (kind : SignalKind) (payload : Bytes) (labels : LabelSet) (writeTick : ℕ)
  | compact (tick : ℕ)

def step (H : Bytes → Bytes) (s : TimeseriesStore) : Call → TimeseriesStore
  | .setPolicies policies => s.setPolicies policies
  | .write kind payload writeTick => (s.write H kind payload writeTick).2
  | .writeLabeled kind payload labels writeTick =>
    (s.writeLabeled H kind payload labels writeTick).2
  | .compact tick => (s.compact tick).2

/-! ## Blocks -/

namespace TimeseriesBlock

theorem admitSignal_of_true {b b' : TimeseriesBlock} {signal : Signal}
    (h : b.admitSignal signal = (true, b')) :
    (∀ id, b'.contains id = true ↔ id = signal.id ∨ b.contains id = true) ∧
      b'.latestExpiry = max b.latestExpiry signal.expiry := by
  rw [admitSignal] at h
  split_ifs at h
  · cases h
  · cases h
  · obtain rfl := (Prod.mk.inj h).2
    refine ⟨fun id => ?_, rfl⟩
    rw [contains, ExtTreeMap.contains_insertIfNew, Bool.or_eq_true, beq_iff_eq, compare_eq_iff_eq,
      eq_comm]
    rfl

theorem admitSignal_of_false {b b' : TimeseriesBlock} {signal : Signal}
    (h : b.admitSignal signal = (false, b')) :
    b'.signals = b.signals ∧ b'.latestExpiry = b.latestExpiry := by
  rw [admitSignal] at h
  split_ifs at h
  · obtain rfl := (Prod.mk.inj h).2
    exact ⟨rfl, rfl⟩
  · obtain rfl := (Prod.mk.inj h).2
    exact ⟨rfl, rfl⟩
  · cases h

theorem admitSignal_new {capacity : ℕ} (hpos : 0 < capacity) (signal : Signal) :
    ((new capacity).admitSignal signal).1 = true := by
  simp [admitSignal, new, hpos.ne']

end TimeseriesBlock

namespace TimeseriesStore

def blocks (s : TimeseriesStore) : List TimeseriesBlock := s.open_ :: s.sealed_

variable {s : TimeseriesStore} {id : SignalId}

theorem contains_iff : s.contains id = true ↔ ∃ b ∈ s.blocks, b.contains id = true := by
  simp [contains, blocks]

def Kept (s : TimeseriesStore) (id : SignalId) (time : ℕ) : Prop :=
  ∃ b ∈ s.blocks, b.contains id = true ∧ time ≤ b.latestExpiry

variable {time : ℕ}

theorem Kept.contains (h : s.Kept id time) : s.contains id = true := by
  obtain ⟨b, hb, hid, -⟩ := h
  exact contains_iff.2 ⟨b, hb, hid⟩

theorem Kept.of_blocks {s' : TimeseriesStore} (h : s.Kept id time)
    (hblocks : s'.blocks = s.blocks) :
    s'.Kept id time := by
  rwa [Kept, hblocks]

theorem kept_push (h : s.Kept id time) (signal : Signal) : (s.push signal).Kept id time := by
  obtain ⟨b, hb, hid, htime⟩ := h
  rw [push]
  split
  · next block hadmit =>
    obtain ⟨hcontains, hlatest⟩ := TimeseriesBlock.admitSignal_of_true hadmit
    rcases List.mem_cons.1 hb with rfl | hb
    · refine ⟨block, List.mem_cons_self, (hcontains id).2 (.inr hid), ?_⟩
      rw [hlatest]
      exact htime.trans (le_max_left _ _)
    · exact ⟨b, List.mem_cons_of_mem _ hb, hid, htime⟩
  · next full hadmit =>
    obtain ⟨hsignals, hlatest⟩ := TimeseriesBlock.admitSignal_of_false hadmit
    rcases List.mem_cons.1 hb with rfl | hb
    · -- the block that is retired holds the signal, so it is not thrown away
      have hfull : full.contains id = true := by rwa [TimeseriesBlock.contains, hsignals]
      have hnonempty : full.signals.isEmpty = false := by
        rw [Bool.eq_false_iff, Ne, ExtTreeMap.isEmpty_iff]
        intro hempty
        simp [TimeseriesBlock.contains, hempty] at hfull
      refine ⟨full, List.mem_cons_of_mem _ ?_, hfull, hlatest ▸ htime⟩
      simp [hnonempty]
    · refine ⟨b, List.mem_cons_of_mem _ ?_, hid, htime⟩
      split_ifs
      · exact hb
      · exact List.mem_append_left _ hb

theorem kept_push_self (s : TimeseriesStore) (signal : Signal) :
    (s.push signal).Kept signal.id signal.expiry := by
  have hself : ∀ {b b' : TimeseriesBlock}, b.admitSignal signal = (true, b') →
      b'.contains signal.id = true ∧ signal.expiry ≤ b'.latestExpiry := by
    intro b b' hadmit
    obtain ⟨hcontains, hlatest⟩ := TimeseriesBlock.admitSignal_of_true hadmit
    exact ⟨(hcontains _).2 (.inl rfl), hlatest ▸ le_max_right _ _⟩
  rw [push]
  split
  · next block hadmit => exact ⟨block, List.mem_cons_self, hself hadmit⟩
  · exact ⟨_, List.mem_cons_self,
      hself (Prod.ext (TimeseriesBlock.admitSignal_new s.capacity_pos signal) rfl)⟩

theorem contains_of_push {signal : Signal} (h : (s.push signal).contains id = true) :
    id = signal.id ∨ s.contains id = true := by
  rw [contains_iff] at h ⊢
  obtain ⟨b, hb, hid⟩ := h
  rw [push] at hb
  split at hb
  · next block hadmit =>
    rcases List.mem_cons.1 hb with rfl | hb
    · obtain ⟨hcontains, -⟩ := TimeseriesBlock.admitSignal_of_true hadmit
      exact ((hcontains id).1 hid).imp_right fun hid => ⟨s.open_, List.mem_cons_self, hid⟩
    · exact .inr ⟨b, List.mem_cons_of_mem _ hb, hid⟩
  · next full hadmit =>
    obtain ⟨hsignals, -⟩ := TimeseriesBlock.admitSignal_of_false hadmit
    rcases List.mem_cons.1 hb with rfl | hb
    · obtain ⟨hcontains, -⟩ := TimeseriesBlock.admitSignal_of_true
        (Prod.ext (TimeseriesBlock.admitSignal_new s.capacity_pos signal) rfl)
      exact ((hcontains id).1 hid).imp_right fun hid => by
        simp [TimeseriesBlock.contains, TimeseriesBlock.new] at hid
    · have hb' : b ∈ s.sealed_ ∨ b = full := by
        split_ifs at hb
        · exact .inl hb
        · exact (List.mem_append.1 hb).imp_right List.mem_singleton.1
      rcases hb' with hb | rfl
      · exact .inr ⟨b, List.mem_cons_of_mem _ hb, hid⟩
      · rw [TimeseriesBlock.contains, hsignals] at hid
        exact .inr ⟨s.open_, List.mem_cons_self, hid⟩

/-! ## Writes -/

/-- The time a write keeps its signal for: the shortest window of the policies that apply, else the
window of the store. -/
def effectiveWindow (s : TimeseriesStore) (kind : SignalKind) (labels : LabelSet) : ℕ :=
  ((s.policies.matching kind labels).filterMap (·.window)).min?.getD s.retentionWindow

theorem writeLabeled_cases (s : TimeseriesStore) (kind : SignalKind) (payload : Bytes)
    (labels : LabelSet) (writeTick : ℕ) :
    ((∃ key ∈ s.downsampleLast, s.bucket kind labels writeTick = some key) ∧
      s.writeLabeled H kind payload labels writeTick = (none, s)) ∨
    ∃ s' : TimeseriesStore, s'.blocks = s.blocks ∧
      s.writeLabeled H kind payload labels writeTick =
        (some (contentAddress H payload), s'.push (Signal.newLabeled H kind payload labels writeTick
          (s.effectiveWindow kind labels))) := by
  have hwindow : (s.policies.effective kind labels).window.getD s.retentionWindow =
      s.effectiveWindow kind labels := by
    rw [RetentionPolicySet.effective_window, effectiveWindow]
  rw [writeLabeled, hwindow]
  generalize hsignal :
    Signal.newLabeled H kind payload labels writeTick (s.effectiveWindow kind labels) = signal
  have hid : signal.id = contentAddress H payload := hsignal ▸ rfl
  rw [← hid]
  cases s.bucket kind labels writeTick with
  | none => exact .inr ⟨s.record signal writeTick, rfl, rfl⟩
  | some key =>
    by_cases hkey : key ∈ s.downsampleLast
    · exact .inl ⟨⟨key, hkey, rfl⟩, by simp [hkey]⟩
    · refine .inr ⟨record { s with downsampleLast := insert key s.downsampleLast } signal writeTick,
        rfl, ?_⟩
      simp [hkey]

theorem kept_writeLabeled {kind : SignalKind} {payload : Bytes} {labels : LabelSet} {writeTick : ℕ}
    (h : (s.writeLabeled H kind payload labels writeTick).1 = some id) :
    (s.writeLabeled H kind payload labels writeTick).2.Kept id
      (saturatingAdd writeTick (s.effectiveWindow kind labels)) := by
  rcases writeLabeled_cases (H := H) s kind payload labels writeTick with
    ⟨-, hnone⟩ | ⟨s', -, hwrite⟩
  · rw [hnone] at h
    cases h
  · rw [hwrite] at h ⊢
    obtain rfl := Option.some.inj h
    exact kept_push_self s' _

theorem kept_of_writeLabeled (h : s.Kept id time) (kind : SignalKind) (payload : Bytes)
    (labels : LabelSet) (writeTick : ℕ) :
    (s.writeLabeled H kind payload labels writeTick).2.Kept id time := by
  rcases writeLabeled_cases (H := H) s kind payload labels writeTick with
    ⟨-, hnone⟩ | ⟨s', hblocks, hwrite⟩
  · rwa [hnone]
  · rw [hwrite]
    exact kept_push (h.of_blocks hblocks) _

theorem contains_of_writeLabeled {kind : SignalKind} {payload : Bytes} {labels : LabelSet}
    {writeTick : ℕ} (h : (s.writeLabeled H kind payload labels writeTick).2.contains id = true) :
    (s.writeLabeled H kind payload labels writeTick).1 = some id ∨ s.contains id = true := by
  rcases writeLabeled_cases (H := H) s kind payload labels writeTick with
    ⟨-, hnone⟩ | ⟨s', hblocks, hwrite⟩
  · rw [hnone] at h
    exact .inr h
  · rw [hwrite] at h ⊢
    refine (contains_of_push h).imp (fun hid => congrArg some hid.symm) fun hid => ?_
    rwa [contains_iff, ← hblocks, ← contains_iff]

theorem kept_compact {tick : ℕ} (h : s.Kept id time) (htick : tick < time) :
    (s.compact tick).2.Kept id time := by
  obtain ⟨b, hb, hid, htime⟩ := h
  refine ⟨b, ?_, hid, htime⟩
  rcases List.mem_cons.1 hb with rfl | hb
  · exact List.mem_cons_self
  · refine List.mem_cons_of_mem _ (List.mem_filter.2 ⟨hb, ?_⟩)
    simp [htick.trans_le htime]

theorem contains_of_compact {tick : ℕ} (h : (s.compact tick).2.contains id = true) :
    s.contains id = true := by
  rw [contains_iff] at h ⊢
  obtain ⟨b, hb, hid⟩ := h
  refine ⟨b, ?_, hid⟩
  rcases List.mem_cons.1 hb with rfl | hb
  · exact List.mem_cons_self
  · exact List.mem_cons_of_mem _ (List.mem_of_mem_filter hb)

end TimeseriesStore

/-! ## Runs of the store -/

open TimeseriesStore

def Writes (H : Bytes → Bytes) (id : SignalId) (s : TimeseriesStore) : Call → Prop
  | .write kind payload writeTick => (s.write H kind payload writeTick).1 = some id
  | .writeLabeled kind payload labels writeTick =>
    (s.writeLabeled H kind payload labels writeTick).1 = some id
  | .setPolicies _ | .compact _ => False

variable {s : TimeseriesStore}

theorem kept_step {id : SignalId} {time : ℕ} (h : s.Kept id time) {a : Call}
    (ha : ∀ tick, a = .compact tick → tick < time) : (step H s a).Kept id time := by
  cases a with
  | setPolicies policies => exact h.of_blocks rfl
  | write kind payload writeTick => exact kept_of_writeLabeled h kind payload ∅ writeTick
  | writeLabeled kind payload labels writeTick =>
    exact kept_of_writeLabeled h kind payload labels writeTick
  | compact tick => exact kept_compact h (ha tick rfl)

theorem kept_exec {id : SignalId} {time : ℕ} (h : s.Kept id time) {calls : List Call}
    (hcalls : ∀ tick, .compact tick ∈ calls → tick < time) :
    (exec (step H) s calls).Kept id time := by
  induction calls generalizing s with
  | nil => exact h
  | cons a calls ih =>
    refine ih (kept_step h ?_) fun tick htick => hcalls tick (List.mem_cons_of_mem a htick)
    rintro tick rfl
    exact hcalls tick List.mem_cons_self

theorem contains_step {a : Call} {id : SignalId} (h : (step H s a).contains id = true) :
    s.contains id = true ∨ Writes H id s a := by
  cases a with
  | setPolicies policies => exact .inl h
  | write kind payload writeTick | writeLabeled kind payload labels writeTick =>
    exact (contains_of_writeLabeled h).symm
  | compact tick => exact .inl (contains_of_compact h)

/-- **Retention never drops data early.** -/
theorem never_dropped_early (blockCapacity : ℕ) (hpos : 0 < blockCapacity) (retentionWindow : ℕ) :
    let start := TimeseriesStore.new blockCapacity hpos retentionWindow
    (∀ (p : List Call) (kind : SignalKind) (payload : Bytes) (labels : LabelSet) (writeTick : ℕ)
      (q : List Call) (id : SignalId),
      ((exec (step H) start p).writeLabeled H kind payload labels writeTick).1 = some id →
      (∀ tick, .compact tick ∈ q → tick < saturatingAdd writeTick
        ((exec (step H) start p).effectiveWindow kind labels)) →
      (exec (step H) start (p ++ .writeLabeled kind payload labels writeTick :: q)).contains id =
        true) ∧
    (∀ (calls : List Call) (id : SignalId), (exec (step H) start calls).contains id = true →
      Ever (step H) (Writes H id) start calls) := by
  intro start
  constructor
  · intro p kind payload labels writeTick q id hwrite hcompact
    rw [exec_append, exec_cons]
    exact (kept_exec (kept_writeLabeled hwrite) hcompact).contains
  · intro calls id hheld
    refine ever_of_exec (I := fun _ => True) (P := fun s => s.contains id = true)
      (fun _ _ _ => trivial) (fun _ _ _ h => (contains_step h).symm) trivial ?_ calls hheld
    simp [start, TimeseriesStore.contains, TimeseriesStore.new, TimeseriesBlock.contains,
      TimeseriesBlock.new]

/-- Blocks of one signal. -/
theorem first_kept :
    (exec (step (tableDigest [])) (TimeseriesStore.new 1 (by decide) 10)
      [.writeLabeled .metric [1] ∅ 0, .writeLabeled .metric [2] ∅ 1, .compact 9]).contains
        (contentAddress (tableDigest []) [1]) = true := by
  refine (never_dropped_early 1 (by decide) 10).1 [] .metric [1] ∅ 0
    [.writeLabeled .metric [2] ∅ 1, .compact 9] _ (by decide +kernel) ?_
  intro tick htick
  obtain rfl : tick = 9 := by simpa using htick
  decide +kernel

/-! ## Writes without labels -/

/-- The interval that a call falls into, if it is a write that the policies thin out. -/
def Call.bucket (s : TimeseriesStore) : Call → Option (SignalKind × String)
  | .setPolicies _ => none
  | .write kind _ writeTick => s.bucket kind ∅ writeTick
  | .writeLabeled kind _ labels writeTick => s.bucket kind labels writeTick
  | .compact _ => none

theorem downsampleLast_push (s : TimeseriesStore) (signal : Signal) :
    (s.push signal).downsampleLast = s.downsampleLast := by
  rw [push]
  split <;> rfl

theorem downsampleLast_writeLabeled (s : TimeseriesStore) (kind : SignalKind) (payload : Bytes)
    (labels : LabelSet) (writeTick : ℕ) :
    (s.writeLabeled H kind payload labels writeTick).2.downsampleLast =
      s.downsampleLast ∪ (s.bucket kind labels writeTick).toFinset := by
  rw [writeLabeled]
  cases s.bucket kind labels writeTick with
  | none => simp [downsampleLast_push, record]
  | some key =>
    by_cases hkey : key ∈ s.downsampleLast
    · simp [hkey]
    · simp [hkey, downsampleLast_push, record]

/-- **A call is remembered by the interval that it falls into.** -/
theorem downsampleLast_step (s : TimeseriesStore) (c : Call) :
    (step H s c).downsampleLast = s.downsampleLast ∪ (c.bucket s).toFinset := by
  cases c with
  | setPolicies policies => simp [step, setPolicies, Call.bucket]
  | write kind payload writeTick => exact downsampleLast_writeLabeled s kind payload ∅ writeTick
  | writeLabeled kind payload labels writeTick =>
    exact downsampleLast_writeLabeled s kind payload labels writeTick
  | compact tick => simp [step, compact, Call.bucket]

/-- **What is remembered are the intervals that writes have fallen into.** -/
theorem mem_downsampleLast_exec_iff (blockCapacity : ℕ) (hpos : 0 < blockCapacity)
    (retentionWindow : ℕ) (calls : List Call) (key : SignalKind × String) :
    key ∈ (exec (step H) (.new blockCapacity hpos retentionWindow) calls).downsampleLast ↔
      Ever (step H) (fun s c => c.bucket s = some key) (.new blockCapacity hpos retentionWindow)
        calls := by
  induction calls using List.reverseRecOn with
  | nil => simp [TimeseriesStore.new, Ever]
  | append_singleton calls c ih =>
    rw [exec_concat, downsampleLast_step, Finset.mem_union, ih, ever_concat, or_comm]
    simp

/-- **A write without labels succeeds** precisely when no earlier write has fallen into the interval
that the policies put it into. -/
theorem write_succeeds (blockCapacity : ℕ) (hpos : 0 < blockCapacity) (retentionWindow : ℕ)
    (calls : List Call) (kind : SignalKind) (payload : Bytes) (writeTick : ℕ) :
    let start := TimeseriesStore.new blockCapacity hpos retentionWindow
    let s := exec (step H) start calls
    ((s.write H kind payload writeTick).1 = some (contentAddress H payload) ∧
        (s.write H kind payload writeTick).2.contains (contentAddress H payload) = true) ↔
      ∀ key, s.bucket kind ∅ writeTick = some key →
        ¬ Ever (step H) (fun s c => c.bucket s = some key) start calls := by
  intro start s
  simp only [start, ← mem_downsampleLast_exec_iff]
  constructor
  · rintro ⟨hwrite, -⟩ key hbucket hkey
    have hseen : key ∈ s.downsampleLast := hkey
    simp [write, writeLabeled, hbucket, hseen] at hwrite
  · intro hfree
    have hwrite : (s.write H kind payload writeTick).1 = some (contentAddress H payload) := by
      rcases writeLabeled_cases (H := H) s kind payload ∅ writeTick with
        ⟨⟨key, hkey, hbucket⟩, -⟩ | ⟨s', -, hsome⟩
      · exact absurd hkey (hfree key hbucket)
      · rw [write, hsome]
    exact ⟨hwrite, (kept_writeLabeled hwrite).contains⟩

/-- Policies that keep one metric of every ten ticks; the first one has no interval. -/
def thinning : RetentionPolicySet :=
  ⟨[⟨.metric, ⟨∅⟩, some 5, none⟩, ⟨.metric, ⟨∅⟩, none, some 10⟩]⟩

/-- Metrics of two intervals. -/
theorem later_metric_written :
    let s := exec (step (tableDigest [])) (.new 1 (by decide) 10)
      [.setPolicies thinning, .write .metric [1] 0]
    (s.write (tableDigest []) .metric [2] 15).1 = some (contentAddress (tableDigest []) [2]) ∧
      (s.write (tableDigest []) .metric [2] 15).2.contains (contentAddress (tableDigest []) [2]) =
        true := by
  refine (write_succeeds 1 (by decide) 10 _ .metric [2] 15).2 fun key hkey hever => ?_
  obtain rfl : (SignalKind.metric, "Metric|:1") = key :=
    Option.some.inj (Eq.trans (by decide +kernel) hkey)
  rw [← mem_downsampleLast_exec_iff] at hever
  exact absurd hever (by decide +kernel)

/-- Two metrics of one interval. -/
theorem write_panics :
    ((exec (step (tableDigest [])) (.new 1 (by decide) 10)
      [.setPolicies thinning, .write .metric [1] 0]).write (tableDigest []) .metric [2] 5).1 =
        none := by
  decide +kernel

end Pillar.Observability
