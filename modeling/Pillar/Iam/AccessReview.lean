import Pillar.Core
import Pillar.Lib.Runs

/-!
# Access reviews

`pillar-iam`'s expiring grants and the attestation campaign that reviews them.

* `mem_staleLiveGrants` — the stale grants are the live ones last attested before the deadline.
* `Settled.step` — what a closed review has settled, only an operation on that grant can change.
-/

namespace Pillar.AccessReview

open Lib.Runs
open Std hiding not_le

/-! ## Expiring grants -/

structure ExpiringGrant where
  name : String
  expiresAt : Option ℕ
  deriving DecidableEq

def ExpiringGrant.isLive (g : ExpiringGrant) (now : ℕ) : Bool :=
  match g.expiresAt with
  | none => true
  | some expiry => now ≤ expiry

inductive GrantKind where
  | role
  | group
  deriving DecidableEq

structure GrantKey where
  handle : String
  kind : GrantKind
  name : String
  deriving DecidableEq

abbrev Table := ExtTreeMap String (ExtTreeMap String ExpiringGrant)

namespace Table

def grant (table : Table) (handle name : String) (expiresAt : Option ℕ) : Table :=
  table.insert handle ((table[handle]?.getD ∅).insert name ⟨name, expiresAt⟩)

def revoke (table : Table) (handle name : String) : Table :=
  match table[handle]? with
  | some grants => table.insert handle (grants.erase name)
  | none => table

def liveNames (table : Table) (handle : String) (now : ℕ) : ExtTreeSet String :=
  .ofList (((table[handle]?.toList.flatMap fun grants => grants.toList.map Prod.snd).filter
    (·.isLive now)).map ExpiringGrant.name)

end Table

structure GrantSet where
  roleGrants : Table
  groupGrants : Table

inductive GrantOp where
  | grantRole (handle name : String) (expiresAt : Option ℕ)
  | revokeRole (handle name : String)
  | grantGroup (handle name : String) (expiresAt : Option ℕ)
  | revokeGroup (handle name : String)
  deriving DecidableEq

namespace GrantSet

def new : GrantSet := ⟨∅, ∅⟩

variable (s : GrantSet)

def apply : GrantOp → GrantSet
  | .grantRole handle name expiresAt =>
    { s with roleGrants := s.roleGrants.grant handle name expiresAt }
  | .revokeRole handle name => { s with roleGrants := s.roleGrants.revoke handle name }
  | .grantGroup handle name expiresAt =>
    { s with groupGrants := s.groupGrants.grant handle name expiresAt }
  | .revokeGroup handle name => { s with groupGrants := s.groupGrants.revoke handle name }

def grantedHandles : ExtTreeSet String := .ofList (s.roleGrants.keys ++ s.groupGrants.keys)

def liveRoleNames (handle : String) (now : ℕ) : ExtTreeSet String :=
  s.roleGrants.liveNames handle now

def liveGroupNames (handle : String) (now : ℕ) : ExtTreeSet String :=
  s.groupGrants.liveNames handle now

def table : GrantKind → Table
  | .role => s.roleGrants
  | .group => s.groupGrants

/-- The grant of a key. -/
def lookup (key : GrantKey) : Option ExpiringGrant :=
  (s.table key.kind)[key.handle]?.bind fun grants => grants[key.name]?

def Live (key : GrantKey) (now : ℕ) : Prop := ∃ g, s.lookup key = some g ∧ g.isLive now = true

end GrantSet

/-! ## Campaigns -/

inductive CampaignOp where
  | open_ (deadline : ℕ)
  | attest (key : GrantKey) (at_ : ℕ)
  | close

/-- A campaign. What was never attested was attested at time zero. -/
structure AttestationCampaign where
  activeDeadline : Option ℕ
  attestedAt : GrantKey → ℕ

def liveGrantPairs (grants : GrantSet) (now : ℕ) (kind : GrantKind) : List (String × String) :=
  grants.grantedHandles.toList.flatMap fun handle =>
    (match kind with
      | .role => grants.liveRoleNames handle now
      | .group => grants.liveGroupNames handle now).toList.map fun name => (handle, name)

def revokeOp (key : GrantKey) : GrantOp :=
  match key.kind with
  | .role => .revokeRole key.handle key.name
  | .group => .revokeGroup key.handle key.name

namespace AttestationCampaign

def new : AttestationCampaign := ⟨none, fun _ => 0⟩

variable (c : AttestationCampaign) (grants : GrantSet) (now : ℕ)

def apply : CampaignOp → AttestationCampaign
  | .open_ deadline => if c.activeDeadline.isNone then { c with activeDeadline := some deadline } else c
  | .attest key at_ =>
    if c.attestedAt key < at_ then { c with attestedAt := Function.update c.attestedAt key at_ }
    else c
  | .close => { c with activeDeadline := none }

def open_ (deadline : ℕ) : AttestationCampaign × Bool :=
  if c.activeDeadline.isSome then (c, false) else (c.apply (.open_ deadline), true)

def staleLiveGrants : List GrantKey :=
  match c.activeDeadline with
  | none => []
  | some deadline =>
    ((liveGrantPairs grants now .role).map (fun p => GrantKey.mk p.1 .role p.2) ++
      (liveGrantPairs grants now .group).map fun p => GrantKey.mk p.1 .group p.2).filter
        fun key => c.attestedAt key < deadline

def reattest (key : GrantKey) : AttestationCampaign × Bool :=
  if c.activeDeadline.isNone then (c, false) else (c.apply (.attest key now), true)

def revokeStale (key : GrantKey) : GrantSet × Bool :=
  if c.activeDeadline.isNone then (grants, false) else (grants.apply (revokeOp key), true)

def close : AttestationCampaign × Except (List GrantKey) Unit :=
  if (c.staleLiveGrants grants now).isEmpty then (c.apply .close, .ok ())
  else (c, .error (c.staleLiveGrants grants now))

def closeFailClosed : AttestationCampaign × GrantSet × List GrantKey :=
  (c.apply .close,
    (c.staleLiveGrants grants now).foldl (fun grants key => (c.revokeStale grants key).1) grants,
    c.staleLiveGrants grants now)

end AttestationCampaign

/-- A campaign and the grants it reviews. -/
structure Review where
  campaign : AttestationCampaign
  grants : GrantSet

inductive Action where
  | open_ (deadline : ℕ)
  | reattest (key : GrantKey) (now : ℕ)
  | revokeStale (key : GrantKey)
  | grantOp (op : GrantOp)
  | close (now : ℕ)
  | closeFailClosed (now : ℕ)

namespace Review

def new : Review := ⟨.new, .new⟩

def step (r : Review) : Action → Review
  | .open_ deadline => { r with campaign := (r.campaign.open_ deadline).1 }
  | .reattest key now => { r with campaign := (r.campaign.reattest now key).1 }
  | .revokeStale key => { r with grants := (r.campaign.revokeStale r.grants key).1 }
  | .grantOp op => { r with grants := r.grants.apply op }
  | .close now => { r with campaign := (r.campaign.close r.grants now).1 }
  | .closeFailClosed now =>
    ⟨(r.campaign.closeFailClosed r.grants now).1, (r.campaign.closeFailClosed r.grants now).2.1⟩

end Review

/-! ## The grant of a key -/

def GrantOp.key : GrantOp → GrantKey
  | .grantRole handle name _ => ⟨handle, .role, name⟩
  | .revokeRole handle name => ⟨handle, .role, name⟩
  | .grantGroup handle name _ => ⟨handle, .group, name⟩
  | .revokeGroup handle name => ⟨handle, .group, name⟩

/-- What an operation leaves at its key. -/
def GrantOp.result : GrantOp → Option ExpiringGrant
  | .grantRole _ name expiresAt => some ⟨name, expiresAt⟩
  | .grantGroup _ name expiresAt => some ⟨name, expiresAt⟩
  | .revokeRole _ _ => none
  | .revokeGroup _ _ => none

variable {s : GrantSet} {c : AttestationCampaign} {key : GrantKey} {now t d : ℕ}

theorem Table.bind_grant (table : Table) (handle name h n : String) (expiresAt : Option ℕ) :
    ((table.grant handle name expiresAt)[h]?.bind fun grants => grants[n]?) =
      if handle = h ∧ name = n then some ⟨name, expiresAt⟩
      else table[h]?.bind fun grants => grants[n]? := by
  rw [Table.grant, ExtTreeMap.getElem?_insert]
  by_cases hh : handle = h
  · subst hh
    by_cases hn : name = n
    · simp [hn]
    · cases htable : table[handle]? <;> simp [ExtTreeMap.getElem?_insert, hn]
  · simp [hh]

theorem Table.bind_revoke (table : Table) (handle name h n : String) :
    ((table.revoke handle name)[h]?.bind fun grants => grants[n]?) =
      if handle = h ∧ name = n then none else table[h]?.bind fun grants => grants[n]? := by
  rw [Table.revoke]
  by_cases hh : handle = h
  · subst hh
    cases htable : table[handle]? with
    | none => simp [htable]
    | some grants => simp [ExtTreeMap.getElem?_erase]
  · cases htable : table[handle]? with
    | none => simp [hh]
    | some grants => simp [ExtTreeMap.getElem?_insert, hh]

theorem lookup_apply (op : GrantOp) :
    (s.apply op).lookup key = if op.key = key then op.result else s.lookup key := by
  obtain ⟨h, kind, n⟩ := key
  cases op <;> cases kind <;>
    simp [GrantSet.apply, GrantSet.lookup, GrantSet.table, GrantOp.key, GrantOp.result,
      Table.bind_grant, Table.bind_revoke]

@[simp] theorem key_revokeOp : (revokeOp key).key = key := by
  obtain ⟨h, kind, n⟩ := key
  cases kind <;> rfl

@[simp] theorem result_revokeOp : (revokeOp key).result = none := by
  rw [revokeOp]
  cases key.kind <;> rfl

theorem lookup_revokeStale {k : GrantKey} :
    (c.revokeStale s k).1.lookup key =
      if c.activeDeadline.isSome ∧ k = key then none else s.lookup key := by
  rw [AttestationCampaign.revokeStale]
  cases hd : c.activeDeadline <;> simp [lookup_apply]

theorem lookup_foldl_revokeStale (keys : List GrantKey) :
    (keys.foldl (fun grants k => (c.revokeStale grants k).1) s).lookup key =
      if c.activeDeadline.isSome ∧ key ∈ keys then none else s.lookup key := by
  induction keys generalizing s with
  | nil => simp
  | cons k keys ih =>
    rw [List.foldl_cons, ih, lookup_revokeStale]
    grind

theorem lookup_closeFailClosed : (c.closeFailClosed s now).2.1.lookup key =
    if c.activeDeadline.isSome ∧ key ∈ c.staleLiveGrants s now then none else s.lookup key :=
  lookup_foldl_revokeStale _

/-- Grants are filed under their own name. -/
def Named (s : GrantSet) : Prop := ∀ key g, s.lookup key = some g → g.name = key.name

theorem Named.apply (h : Named s) (op : GrantOp) : Named (s.apply op) := by
  intro key g hg
  rw [lookup_apply] at hg
  split_ifs at hg with hkey
  · subst hkey
    cases op <;> simp_all [GrantOp.key, GrantOp.result] <;> grind
  · exact h key g hg

theorem Named.of_lookup {s' : GrantSet} (h : Named s)
    (hsub : ∀ key g, s'.lookup key = some g → s.lookup key = some g) : Named s' :=
  fun key g hg => h key g (hsub key g hg)

theorem named_exec (history : List Action) : Named (exec Review.step .new history).grants := by
  refine exec_inv (I := fun r : Review => Named r.grants) (fun r a h => ?_)
    (fun key g hg => ?_) history
  · cases a with
    | open_ | reattest | close => exact h
    | revokeStale k => exact h.of_lookup fun key g hg => by grind [Review.step, lookup_revokeStale]
    | grantOp op => exact h.apply op
    | closeFailClosed now =>
      exact h.of_lookup fun key g hg => by
        grind [Review.step, lookup_closeFailClosed]
  · obtain ⟨h, kind, n⟩ := key
    cases kind <;> simp [Review.new, GrantSet.new, GrantSet.lookup, GrantSet.table] at hg

/-! ## Stale grants -/

theorem GrantSet.Live.mono (h : s.Live key t) (hle : now ≤ t) : s.Live key now := by
  obtain ⟨g, hg, hlive⟩ := h
  refine ⟨g, hg, ?_⟩
  rw [ExpiringGrant.isLive] at hlive ⊢
  cases hexp : g.expiresAt with
  | none => rfl
  | some expiry =>
    rw [hexp] at hlive
    simp only [decide_eq_true_eq] at hlive ⊢
    exact hle.trans hlive

theorem Table.mem_liveNames {table : Table} {handle name : String} :
    name ∈ table.liveNames handle now ↔ ∃ grants, ∃ n : String, ∃ g : ExpiringGrant,
      table[handle]? = some grants ∧ grants[n]? = some g ∧ g.isLive now = true ∧ g.name = name := by
  simp only [Table.liveNames, ExtTreeSet.mem_ofList, List.contains_iff_mem, List.mem_map,
    List.mem_filter, List.mem_flatMap, Option.mem_toList, Prod.exists,
    ExtTreeMap.mem_toList_iff_getElem?_eq_some]
  constructor
  · rintro ⟨g, ⟨⟨grants, hgrants, n, _, hg, rfl⟩, hlive⟩, hname⟩
    exact ⟨grants, n, _, hgrants, hg, hlive, hname⟩
  · rintro ⟨grants, n, g, hgrants, hg, hlive, hname⟩
    exact ⟨g, ⟨⟨grants, hgrants, n, g, hg, rfl⟩, hlive⟩, hname⟩

theorem mem_liveGrantPairs (hnamed : Named s) {handle name : String} {kind : GrantKind} :
    (handle, name) ∈ liveGrantPairs s now kind ↔ s.Live ⟨handle, kind, name⟩ now := by
  have hpairs : (handle, name) ∈ liveGrantPairs s now kind ↔
      handle ∈ s.grantedHandles ∧ name ∈ (s.table kind).liveNames handle now := by
    cases kind <;>
      simp [liveGrantPairs, GrantSet.liveRoleNames, GrantSet.liveGroupNames, GrantSet.table]
  rw [hpairs, Table.mem_liveNames]
  constructor
  · rintro ⟨_, grants, n, g, hgrants, hg, hlive, rfl⟩
    have hn : s.lookup ⟨handle, kind, n⟩ = some g := by simp [GrantSet.lookup, hgrants, hg]
    obtain rfl : g.name = n := hnamed _ g hn
    exact ⟨g, hn, hlive⟩
  · rintro ⟨g, hg, hlive⟩
    obtain ⟨grants, hgrants, hn⟩ := Option.bind_eq_some_iff.1 hg
    refine ⟨?_, grants, name, g, hgrants, hn, hlive, hnamed _ g hg⟩
    have hmem : handle ∈ s.table kind := ExtTreeMap.mem_iff_isSome_getElem?.2 (by simp [hgrants])
    cases kind <;> simp_all [GrantSet.grantedHandles, GrantSet.table]

theorem mem_staleLiveGrants (hnamed : Named s) (hactive : c.activeDeadline = some d) :
    key ∈ c.staleLiveGrants s now ↔ s.Live key now ∧ c.attestedAt key < d := by
  obtain ⟨handle, kind, name⟩ := key
  simp only [AttestationCampaign.staleLiveGrants, hactive, List.mem_filter, List.mem_append,
    List.mem_map, Prod.exists, mem_liveGrantPairs hnamed, decide_eq_true_eq]
  cases kind <;> simp

theorem lookup_sweep (key : GrantKey) (now : ℕ) (hnamed : Named s)
    (hactive : c.activeDeadline = some d) :
    (s.Live key now ∧ c.attestedAt key < d → (c.closeFailClosed s now).2.1.lookup key = none) ∧
      (¬ (s.Live key now ∧ c.attestedAt key < d) →
        (c.closeFailClosed s now).2.1.lookup key = s.lookup key) := by
  rw [lookup_closeFailClosed, ← mem_staleLiveGrants hnamed hactive]
  exact ⟨fun h => if_pos ⟨by simp [hactive], h⟩, fun h => if_neg fun hboth => h hboth.2⟩

/-! ## Closing a review -/

/-- A grant is settled from `now` on: while it is live, it was attested since the deadline. -/
def Settled (key : GrantKey) (now d : ℕ) (r : Review) : Prop :=
  ∀ t, now ≤ t → r.grants.Live key t → d ≤ r.campaign.attestedAt key

theorem attestedAt_apply (op : CampaignOp) : c.attestedAt key ≤ (c.apply op).attestedAt key := by
  cases op with
  | open_ | close => grind [AttestationCampaign.apply]
  | attest k at_ =>
    rw [AttestationCampaign.apply]
    split_ifs with hlt
    · by_cases hk : key = k
      · subst hk
        simpa using hlt.le
      · simp [hk]
    · exact le_rfl

theorem attestedAt_step (r : Review) (a : Action) :
    r.campaign.attestedAt key ≤ (r.step a).campaign.attestedAt key := by
  cases a with
  | open_ | reattest | close =>
    grind [Review.step, AttestationCampaign.open_, AttestationCampaign.reattest,
      AttestationCampaign.close, attestedAt_apply]
  | revokeStale | grantOp => exact le_rfl
  | closeFailClosed => exact attestedAt_apply .close

theorem lookup_step (r : Review) (a : Action) (huntouched : ∀ op, a = .grantOp op → op.key ≠ key) :
    (r.step a).grants.lookup key = none ∨ (r.step a).grants.lookup key = r.grants.lookup key := by
  cases a with
  | open_ | reattest | close => exact .inr rfl
  | revokeStale => grind [Review.step, lookup_revokeStale]
  | grantOp op => exact .inr (by simp [Review.step, lookup_apply, huntouched op rfl])
  | closeFailClosed => grind [Review.step, lookup_closeFailClosed]

theorem Settled.step {r : Review} (h : Settled key now d r) {a : Action}
    (huntouched : ∀ op, a = .grantOp op → op.key ≠ key) : Settled key now d (r.step a) := by
  rintro t ht ⟨g, hg, hlive⟩
  rcases lookup_step r a huntouched with hnone | hsame
  · simp [hnone] at hg
  · exact (h t ht ⟨g, hsame ▸ hg, hlive⟩).trans (attestedAt_step r a)

theorem Settled.exec {r : Review} (h : Settled key now d r) (later : List Action)
    (huntouched : ∀ op, .grantOp op ∈ later → op.key ≠ key) :
    Settled key now d (exec Review.step r later) := by
  induction later generalizing r with
  | nil => exact h
  | cons a later ih =>
    exact ih (h.step fun op ha => huntouched op (by simp [ha])) fun op hop =>
      huntouched op (List.mem_cons_of_mem a hop)

theorem settled_close {r : Review} (hnamed : Named r.grants)
    (hactive : r.campaign.activeDeadline = some d)
    (hok : (r.campaign.close r.grants now).2 = .ok ()) (key : GrantKey) :
    Settled key now d (r.step (.close now)) := by
  intro t ht hlive
  by_contra hlt
  have hstale : key ∈ r.campaign.staleLiveGrants r.grants now :=
    (mem_staleLiveGrants hnamed hactive).2 ⟨GrantSet.Live.mono hlive ht,
      (attestedAt_step r (.close now)).trans_lt (not_le.1 hlt)⟩
  have hempty : (r.campaign.staleLiveGrants r.grants now).isEmpty = true := by
    by_contra hne
    simp [AttestationCampaign.close, hne] at hok
  simp [List.isEmpty_iff.1 hempty] at hstale

theorem settled_closeFailClosed {r : Review} (hnamed : Named r.grants)
    (hactive : r.campaign.activeDeadline = some d) (key : GrantKey) :
    Settled key now d (r.step (.closeFailClosed now)) := by
  intro t ht hlive
  by_contra hlt
  -- the grant survived the sweep, so it was not stale
  obtain ⟨g, hg, hgl⟩ := GrantSet.Live.mono hlive ht
  obtain ⟨hswept, hkept⟩ := lookup_sweep key now hnamed hactive
  have hattested := (attestedAt_step r (.closeFailClosed now)).trans_lt (not_le.1 hlt)
  by_cases hstale : r.grants.Live key now
  · exact absurd (hg.symm.trans (hswept ⟨hstale, hattested⟩)) (by simp)
  · exact hstale ⟨g, (hkept fun h => hstale h.1).symm.trans hg, hgl⟩

/-- **Closing an access review leaves no unreviewed grant.** -/
theorem closed_review_settled (history : List Action) (now d : ℕ)
    (hactive : (exec Review.step .new history).campaign.activeDeadline = some d) :
    let r := exec Review.step .new history
    (∀ a, (a = .close now ∧ (r.campaign.close r.grants now).2 = .ok () ∨ a = .closeFailClosed now) →
      ∀ (later : List Action) (key : GrantKey), (∀ op, .grantOp op ∈ later → op.key ≠ key) →
        ∀ t, now ≤ t → (exec Review.step (r.step a) later).grants.Live key t →
          d ≤ (exec Review.step (r.step a) later).campaign.attestedAt key) ∧
      (∀ key, (r.grants.Live key now ∧ r.campaign.attestedAt key < d →
          (r.step (.closeFailClosed now)).grants.lookup key = none) ∧
        (¬ (r.grants.Live key now ∧ r.campaign.attestedAt key < d) →
          (r.step (.closeFailClosed now)).grants.lookup key = r.grants.lookup key)) ∧
      ((r.campaign.close r.grants now).2 ≠ .ok () → r.step (.close now) = r) := by
  intro r
  have hnamed : Named r.grants := named_exec history
  refine ⟨fun a ha later key huntouched => Settled.exec ?_ later huntouched,
    fun key => lookup_sweep key now hnamed hactive, ?_⟩
  · rcases ha with ⟨rfl, hok⟩ | rfl
    · exact settled_close hnamed hactive hok key
    · exact settled_closeFailClosed hnamed hactive key
  · intro herr
    rw [AttestationCampaign.close] at herr
    split_ifs at herr with hempty
    · exact absurd rfl herr
    · rw [Review.step, AttestationCampaign.close, if_neg hempty]

/-- Two roles are granted, a review opens, and only one of them is attested. -/
def halfReviewed : List Action :=
  [.grantOp (.grantRole "alice" "billing" none), .grantOp (.grantRole "bob" "support" (some 90)),
    .open_ 40, .reattest ⟨"alice", .role, "billing"⟩ 45]

def swept : Review := (exec Review.step .new halfReviewed).step (.closeFailClosed 50)

theorem half_reviewed_swept : swept.grants.lookup ⟨"bob", .role, "support"⟩ = none ∧
    swept.grants.Live ⟨"alice", .role, "billing"⟩ 99 ∧
      40 ≤ swept.campaign.attestedAt ⟨"alice", .role, "billing"⟩ := by
  have hclosed := closed_review_settled halfReviewed 50 40 (by decide +kernel)
  have hlive : swept.grants.Live ⟨"alice", .role, "billing"⟩ 99 :=
    ⟨⟨"billing", none⟩, by decide +kernel, rfl⟩
  have hstale : (exec Review.step .new halfReviewed).grants.Live ⟨"bob", .role, "support"⟩ 50 :=
    ⟨⟨"support", some 90⟩, by decide +kernel, rfl⟩
  exact ⟨(hclosed.2.1 _).1 ⟨hstale, by decide +kernel⟩, hlive,
    hclosed.1 _ (.inr rfl) [] _ (by simp) 99 (by decide) hlive⟩

end Pillar.AccessReview
