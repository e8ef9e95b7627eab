import Pillar.QuotaLedger.Ledger

/-!
# Replicas of one quota ledger

Several nodes open a ledger for the same attestation. The voters grant slots on
any of the replicas; a replica checks the budget against its *own* outstanding
reservations.

* `slot_candidate_unique` — **what the fence guarantees**: reservations that two replicas hold at
  one slot have the same candidate, if a voter grants a slot to one candidate.
* `total_le_budget_iff` — **what it does not**: the replicas together stay within
  the budget exactly along the runs in which every admission fits what the
  *whole cluster* has left, such as those of one replica (`total_le_budget_of_single`).
-/

namespace Pillar.QuotaLedger

open Std Lib.Runs Lib.Quorum Coordination

variable {H : Bytes → Bytes} {ι : Type} [DecidableEq ι]

def step (s : ι → QuotaLedger H) (a : ι × Call) : ι → QuotaLedger H :=
  Function.update s a.1 ((s a.1).apply a.2)

variable {s : ι → QuotaLedger H}

theorem forall_step {P : QuotaLedger H → Prop} (hP : ∀ l call, P l → P (l.apply call))
    (hs : ∀ i, P (s i)) (a : ι × Call) (i : ι) : P (step s a i) := by
  by_cases hi : i = a.1
  · subst hi
    rw [step, Function.update_self]
    exact hP _ _ (hs _)
  · rw [step, Function.update_of_ne hi]
    exact hs i

/-! ## What the fence guarantees -/

/-- The grants the voters make along a run: each of the slot pending on the
replica it is made on. -/
def votes (s : ι → QuotaLedger H) : List (ι × Call) → List Grant
  | [] => []
  | (i, .grant v c) :: l => ⟨v, c, (s i).nextSlot⟩ :: votes (step s (i, .grant v c)) l
  | a :: l => votes (step s a) l

theorem votes_cons_subset (s : ι → QuotaLedger H) (a : ι × Call) (l : List (ι × Call)) :
    votes (step s a) l ⊆ votes s (a :: l) := by
  obtain ⟨i, call⟩ := a
  cases call with
  | grant v c => exact List.subset_cons_self _ _
  | admitFor c amount | release id => exact List.Subset.refl _

/-- A ledger whose register and reservations are backed by the grants `G`. -/
structure Fenced (n : ℕ) (G : Set Grant) (l : QuotaLedger H) : Prop where
  register : LeaseRegister.Backed n G l.register
  won : ∀ slot res, l.outstanding[slot]? = some res → Won n (Ballot G) slot res.candidate

theorem apply_register (l : QuotaLedger H) (call : Call) :
    (l.apply call).register = l.register ∨
      ∃ op, (l.apply call).register = l.register.apply op ∧
        ∀ v c e, op = .grant v c e → call = .grant v c ∧ e = l.nextSlot := by
  cases call with
  | grant v c =>
    refine .inr ⟨.grant v c l.nextSlot, rfl, ?_⟩
    rintro v' c' e ⟨⟩
    exact ⟨rfl, rfl⟩
  | admitFor c amount =>
    by_cases hb : amount > l.available
    · exact .inl (by simp [apply, admitFor, hb])
    · refine .inr ⟨.tryAcquire c l.nextSlot, ?_, by rintro v' c' e ⟨⟩⟩
      by_cases hq : (l.register.tryAcquire c l.nextSlot).2 = true <;>
        simp [apply, admitFor, hb, hq, LeaseRegister.apply]
  | release id =>
    refine .inl ?_
    simp only [apply, release]
    split_ifs
    · rfl
    · cases l.outstanding[id.slot]? <;> rfl

variable {n : ℕ}

variable {G : Set Grant} {l ledger : QuotaLedger H} {cid : Cid} {quota : Option ℕ} {budget : ℕ}
  {i₀ : ι}

theorem fenced_apply (h : Fenced n G l) {call : Call}
    (hcall : ∀ v c, call = .grant v c → ⟨v, c, l.nextSlot⟩ ∈ G) : Fenced n G (l.apply call) where
  register := by
    rcases l.apply_register call with hr | ⟨op, hr, hop⟩ <;> rw [hr]
    · exact h.register
    · refine LeaseRegister.backed_apply h.register ?_
      intro v c e he
      obtain ⟨hg, rfl⟩ := hop v c e he
      exact hcall v c hg
  won := by
    intro slot res hres
    rcases l.apply_cases call with hout | ⟨c, amount, rfl, hg, hout⟩ | ⟨s, r, -, hout⟩
    · exact h.won slot res (hout ▸ hres)
    · rw [hout, ExtTreeMap.getElem?_insert] at hres
      by_cases hs : l.nextSlot = slot
      · -- the slot just fenced
        subst hs
        obtain rfl : ⟨l.nextSlot, c, amount⟩ = res := by simpa using hres
        exact LeaseRegister.won_of_tryAcquire h.register hg.2
      · exact h.won slot res (by simpa [hs] using hres)
    · rw [hout, ExtTreeMap.getElem?_erase] at hres
      by_cases hs : s = slot
      · simp [hs] at hres
      · exact h.won slot res (by simpa [hs] using hres)

theorem fenced_forBudget (h : forBudget cid quota n = .ok l) : Fenced n G l := by
  cases quota with
  | none => cases h
  | some budget =>
    cases h
    exact ⟨LeaseRegister.backed_new n G, by simp⟩

variable {l : List (ι × Call)}

theorem fenced_throughout (hs : ∀ i, Fenced n G (s i)) (hG : ∀ g ∈ votes s l, g ∈ G)
    : Throughout step (fun s => ∀ i, Fenced n G (s i)) s l := by
  induction l generalizing s with
  | nil => exact throughout_nil.2 hs
  | cons a l ih =>
    refine throughout_cons.2 ⟨hs, ih (fun i => ?_) fun g hg => hG g (votes_cons_subset s a l hg)⟩
    by_cases hi : i = a.1
    · subst hi
      rw [step, Function.update_self]
      refine fenced_apply (hs _) fun v c hcall => hG _ ?_
      obtain ⟨i, call⟩ := a
      subst hcall
      exact List.mem_cons_self
    · rw [step, Function.update_of_ne hi]
      exact hs i

/-- **What the fence guarantees.** -/
theorem slot_candidate_unique
    (h : forBudget cid quota n = .ok ledger) {voters : Finset NodeId} (hn : voters.card ≤ n)
    (hvoters : ∀ g ∈ votes (fun _ => ledger) l, g.voter ∈ voters)
    (honce : ∀ g ∈ votes (fun _ => ledger) l, ∀ g' ∈ votes (fun _ => ledger) l,
      g.voter = g'.voter → g.epoch = g'.epoch → g.candidate = g'.candidate) :
    Throughout step (fun s => ∀ i j (slot : ℕ) (r r' : Reservation),
      (s i).outstanding[slot]? = some r → (s j).outstanding[slot]? = some r' →
        r.candidate = r'.candidate) (fun _ => ledger) l := by
  intro p hp i j slot r r' hr hr'
  have hf := fenced_throughout (G := {g | g ∈ votes (fun _ => ledger) l})
    (fun _ => fenced_forBudget h) (fun g hg => hg) p hp
  refine won_unique hn ?_ ?_ ((hf i).won slot r hr) ((hf j).won slot r' hr')
  · intro v e c hb
    exact hvoters ⟨v, c, e⟩ hb
  · intro v e c c' hb hb'
    exact honce ⟨v, c, e⟩ hb ⟨v, c', e⟩ hb' rfl rfl

/-! ## What it does not -/

variable [Fintype ι]

/-- The outstanding reservations of all replicas together. -/
def total (s : ι → QuotaLedger H) : ℕ := ∑ i, (s i).reserved

/-- An admission whose replica lets it through fits what the cluster has left of
the budget. -/
def FitsCluster (budget : ℕ) (s : ι → QuotaLedger H) (a : ι × Call) : Prop :=
  match a.2 with
  | .admitFor c amount => (s a.1).Gates c amount → total s + amount ≤ budget
  | _ => True

instance (budget : ℕ) (s : ι → QuotaLedger H) (a : ι × Call) :
    Decidable (FitsCluster budget s a) := by
  unfold FitsCluster
  split <;> infer_instance

theorem total_step (s : ι → QuotaLedger H) (a : ι × Call) :
    total (step s a) + (s a.1).reserved = total s + ((s a.1).apply a.2).reserved := by
  have hrest : ∑ i ∈ Finset.univ.erase a.1, (step s a i).reserved =
      ∑ i ∈ Finset.univ.erase a.1, (s i).reserved := by
    refine Finset.sum_congr rfl fun i hi => ?_
    rw [step, Function.update_of_ne (Finset.ne_of_mem_erase hi)]
  have hself : step s a a.1 = (s a.1).apply a.2 := by rw [step, Function.update_self]
  have h1 := Finset.add_sum_erase Finset.univ (fun i => (step s a i).reserved)
    (Finset.mem_univ a.1)
  have h2 := Finset.add_sum_erase Finset.univ (fun i => (s i).reserved) (Finset.mem_univ a.1)
  simp only [hself] at h1
  rw [total, total, ← h1, ← h2, hrest]
  ring

theorem total_step_le_iff (hs : ∀ i, (s i).Sound) (hle : total s ≤ budget)
    (a : ι × Call) : total (step s a) ≤ budget ↔ FitsCluster budget s a := by
  obtain ⟨i, call⟩ := a
  have htotal : total (step s (i, call)) + (s i).reserved =
      total s + ((s i).apply call).reserved := total_step s (i, call)
  cases call with
  | grant v c =>
    have hsame : ((s i).apply (.grant v c)).reserved = (s i).reserved := rfl
    simp only [FitsCluster, iff_true]
    omega
  | admitFor c amount =>
    by_cases hg : (s i).Gates c amount
    · have hadd : ((s i).apply (.admitFor c amount)).reserved = (s i).reserved + amount :=
        reserved_insert (hs i).fresh (admitFor_outstanding_of_gates hg)
      simp only [FitsCluster, hg, true_imp_iff]
      omega
    · have hsame : ((s i).apply (.admitFor c amount)).reserved = (s i).reserved := by
        rw [reserved, reserved, apply, admitFor_outstanding_of_not_gates hg]
      simp only [FitsCluster, hg, false_imp_iff, iff_true]
      omega
  | release id =>
    simp only [FitsCluster, iff_true]
    rcases (s i).release_outstanding id with hout | ⟨res, hres, hout⟩
    · have hsame : ((s i).apply (.release id)).reserved = (s i).reserved := by
        rw [reserved, reserved, apply, hout]
      omega
    · have hsub : (s i).reserved = ((s i).apply (.release id)).reserved + res.amount :=
        reserved_erase hres hout
      omega

/-- **When the replicas stay within the budget.** -/
theorem total_le_budget_iff {cid : Cid} {budget n : ℕ} {ledger : QuotaLedger H}
    (h : forBudget cid (some budget) n = .ok ledger) (l : List (ι × Call)) :
    Throughout step (fun s => total s ≤ budget) (fun _ : ι => ledger) l ↔
      Along step (FitsCluster budget) (fun _ : ι => ledger) l := by
  refine throughout_iff_along (J := fun s : ι → QuotaLedger H => ∀ i, (s i).Sound)
    (fun s a _ hs _ => forall_step (P := Sound) (fun _ call hl => sound_apply hl call) hs a)
    (fun s a _ hs hle => total_step_le_iff hs hle a) (fun _ => sound_forBudget h) ?_
  simp [total, reserved_forBudget h]

def AdmitsOnly (i₀ : ι) (l : List (ι × Call)) : Prop :=
  ∀ i c amount, (i, Call.admitFor c amount) ∈ l → i = i₀

/-- Only `i₀` has reservations, and every replica is a sound ledger of the
budget. -/
structure HeldBy (budget : ℕ) (i₀ : ι) (s : ι → QuotaLedger H) : Prop where
  sound : ∀ i, (s i).Sound
  budget_eq : ∀ i, (s i).budget = budget
  others : ∀ i, i ≠ i₀ → (s i).outstanding = ∅

omit [Fintype ι] in
theorem heldBy_step {s : ι → QuotaLedger H} (hs : HeldBy budget i₀ s)
    {a : ι × Call} (ha : ∀ c amount, a.2 = .admitFor c amount → a.1 = i₀) :
    HeldBy budget i₀ (step s a) where
  sound := forall_step (P := Sound) (fun _ call hl => sound_apply hl call) hs.sound a
  budget_eq := forall_step (P := fun l => l.budget = budget)
    (fun l call hl => (l.apply_budget call).trans hl) hs.budget_eq a
  others i hi := by
    by_cases hia : i = a.1
    · subst hia
      rw [step, Function.update_self]
      have hempty := hs.others a.1 hi
      rcases (s a.1).apply_cases a.2 with h | ⟨c, amount, hcall, -, -⟩ | ⟨slot, res, hres, -⟩
      · rw [h, hempty]
      · exact absurd (ha c amount hcall) hi
      · simp [hempty] at hres
    · rw [step, Function.update_of_ne hia]
      exact hs.others i hi

omit [DecidableEq ι] in
theorem HeldBy.total_le {s : ι → QuotaLedger H} (hs : HeldBy budget i₀ s) :
    total s ≤ budget := by
  have hsingle : total s = (s i₀).reserved := by
    refine Finset.sum_eq_single i₀ (fun i _ hi => ?_) fun h => absurd (Finset.mem_univ i₀) h
    rw [reserved, hs.others i hi]
    rfl
  rw [hsingle, ← hs.budget_eq i₀]
  exact (hs.sound i₀).reserved_le

/-- **One admitting replica is safe.** -/
theorem total_le_budget_of_single
    (h : forBudget cid (some budget) n = .ok ledger) (hl : AdmitsOnly i₀ l) :
    Throughout step (fun s => total s ≤ budget) (fun _ => ledger) l := by
  have hinit : HeldBy budget i₀ (fun _ => ledger) := by
    refine ⟨fun _ => sound_forBudget h, fun _ => ?_, fun _ _ => ?_⟩ <;> cases h <;> rfl
  intro p hp
  refine (throughout_of_along (I := HeldBy budget i₀)
    (C := fun _ a => ∀ c amount, a.2 = .admitFor c amount → a.1 = i₀)
    (fun _ _ hs ha => heldBy_step hs ha) hinit ?_ p hp).total_le
  rintro p ⟨i, call⟩ hp c amount rfl
  exact hl i c amount (hp.subset (by simp))

/-! ## Two nodes spend one budget -/

/-- A ledger of a budget of 1000, for three voters. -/
def shared : QuotaLedger id := ⟨⟨"attest"⟩, 1000, .new 3, 0, ∅, .new⟩

/-- Node `a` admits 600 on one replica at slot 0. -/
def doubleSpend : List (Bool × Call) :=
  [(true, .grant "v1" "a"), (true, .grant "v2" "a"), (true, .admitFor "a" 600),
    (false, .admitFor "b" 600), (false, .grant "v1" "b"), (false, .grant "v2" "b"),
    (false, .admitFor "b" 600)]

theorem doubleSpend_slots_apart :
    Throughout step (fun s => ∀ i j (slot : ℕ) (r r' : Reservation),
      (s i).outstanding[slot]? = some r → (s j).outstanding[slot]? = some r' →
        r.candidate = r'.candidate) (fun _ => shared) doubleSpend :=
  slot_candidate_unique (show forBudget ⟨"attest"⟩ (some 1000) 3 = .ok shared from rfl)
    (show ({"v1", "v2"} : Finset NodeId).card ≤ 3 by decide) (by decide +kernel) (by decide +kernel)

theorem one_spender_total_le :
    Throughout step (fun s => total s ≤ 1000) (fun _ => shared) (doubleSpend.take 3) :=
  total_le_budget_of_single (show forBudget ⟨"attest"⟩ (some 1000) 3 = .ok shared from rfl)
    (show AdmitsOnly true (doubleSpend.take 3) by simp [AdmitsOnly, doubleSpend])

/-- A run that fits: the second replica admits what is left. -/
def sharedSpend : List (Bool × Call) :=
  [(true, .grant "v1" "a"), (true, .grant "v2" "a"), (true, .admitFor "a" 600),
    (false, .admitFor "b" 400), (false, .grant "v1" "b"), (false, .grant "v2" "b"),
    (false, .admitFor "b" 400)]

/-- The run of `sharedSpend` fits at every admission, and stays within the
budget. -/
theorem sharedSpend_total_le :
    Throughout step (fun s => total s ≤ 1000) (fun _ : Bool => shared) sharedSpend := by
  have hopen : forBudget ⟨"attest"⟩ (some 1000) 3 = .ok shared := rfl
  refine (total_le_budget_iff hopen sharedSpend).2 ?_
  decide +kernel

/-- **A double spend.** -/
theorem doubleSpend_exceeds_budget :
    forBudget ⟨"attest"⟩ (some 1000) 3 = .ok shared ∧
      (∀ g ∈ votes (fun _ : Bool => shared) doubleSpend,
        g.voter ∈ ({"v1", "v2", "v3"} : Finset NodeId)) ∧
      (∀ g ∈ votes (fun _ : Bool => shared) doubleSpend,
        ∀ g' ∈ votes (fun _ : Bool => shared) doubleSpend,
          g.voter = g'.voter → g.epoch = g'.epoch → g.candidate = g'.candidate) ∧
      total (exec step (fun _ : Bool => shared) doubleSpend) = 1200 := by
  refine ⟨rfl, ?_, ?_, ?_⟩ <;> decide +kernel

end Pillar.QuotaLedger
