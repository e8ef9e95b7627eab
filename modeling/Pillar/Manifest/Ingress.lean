import Pillar.Topology.Topology

/-!
# Attaching routes

`pillar-manifest`'s ingress: an app asks for a route to a frontend, and gets it if it holds a valid
claim for that.

* `endsWith_label_iff` — **what a label that ends like that can be a label of**: an action that ends
  in `route:attach`, or the action `attach` in a capacity that ends in `route`.
* `attached_iff_granted` — **with such claims the table has what is meant**.
-/

namespace Pillar.Manifest.Ingress

open Lib.Runs TrustArtifacts

/-! ## Routes -/

def attachAction : String := "route:attach"

inductive RouteKind where
  | http
  | http3
  | tcp
  | udp
  | quic
  | pillarNative
  deriving DecidableEq

/-- A place where routes are attached. -/
structure Frontend where
  name : String
  deriving DecidableEq

structure Backend where
  id : String
  deriving DecidableEq

/-- What an app asks to be served under a frontend. -/
structure Route where
  name : String
  app : NodeId
  frontend : String
  kind : RouteKind
  backends : List Backend
  deriving DecidableEq

inductive RouteStatus where
  | refused
  | attached
  | noSuchFrontend
  deriving DecidableEq

structure RouteEntry where
  route : String
  frontend : String
  status : RouteStatus
  deriving DecidableEq

structure RoutingTable where
  entries : List RouteEntry
  deriving DecidableEq

def RoutingTable.statusOf (table : RoutingTable) (route : String) : Option RouteStatus :=
  (table.entries.find? fun e => e.route = route).map (·.status)

def endsWith (s t : String) : Bool := t.toList.isSuffixOf s.toList

def isAttachAuthorized (store : TrustStore) (app : NodeId) (frontend : String) : Bool :=
  store.graphEdges.any fun e =>
    e.subject = app && endsWith e.label (attachAction ++ "(" ++ frontend ++ ")")

def routeStatus (frontends : List Frontend) (store : TrustStore) (r : Route) : RouteStatus :=
  if !isAttachAuthorized store r.app r.frontend then .refused
  else if !(frontends.map (·.name)).contains r.frontend then .noSuchFrontend
  else .attached

def deriveRoutingTable (frontends : List Frontend) (routes : List Route) (store : TrustStore) :
    RoutingTable :=
  ⟨routes.map fun r => ⟨r.name, r.frontend, routeStatus frontends store r⟩⟩

/-! ## Labels -/

theorem endsWith_iff {s t : String} : endsWith s t = true ↔ ∃ front, front ++ t.toList = s.toList :=
  List.isSuffixOf_iff_suffix

theorem attachAction_split {front back : List Char} :
    attachAction.toList = front ++ ':' :: back ↔
      front = "route".toList ∧ back = "attach".toList := by
  constructor
  · intro h
    have hcount := congrArg (List.count ':') h
    have hfront : ':' ∉ front := by
      rw [List.count_append, List.count_cons_self, show attachAction.toList.count ':' = 1 by decide]
        at hcount
      exact List.count_eq_zero.1 (by omega)
    have hsplit : "route".toList ++ ':' :: "attach".toList = front ++ ':' :: back := h
    obtain ⟨hroute, hattach⟩ := Lib.Delimited.append_sep_inj (by decide) hfront hsplit
    exact ⟨hroute.symm, hattach.symm⟩
  · rintro ⟨rfl, rfl⟩
    rfl

theorem endsWith_tag_action_iff {tag action : String} :
    endsWith (tag ++ ":" ++ action) attachAction = true ↔
      endsWith action attachAction = true ∨ action = "attach" ∧ endsWith tag "route" = true := by
  have htext : (tag ++ ":" ++ action).toList = tag.toList ++ ':' :: action.toList := by simp
  simp only [endsWith_iff, htext]
  constructor
  · rintro ⟨front, h⟩
    rcases List.append_eq_append_iff.1 h with ⟨rest, htag, hattach⟩ | ⟨rest, hfront, hattach⟩
    · obtain ⟨rfl, haction⟩ := attachAction_split.1 hattach
      exact .inr ⟨String.toList_injective haction, front, htag.symm⟩
    · cases rest with
      | nil => exact absurd (List.cons.inj hattach).1 (by decide)
      | cons c rest => exact .inl ⟨rest, (List.cons.inj hattach).2.symm⟩
  · rintro (⟨front, h⟩ | ⟨rfl, front, h⟩)
    · exact ⟨tag.toList ++ ':' :: front, by simp [h]⟩
    · exact ⟨front, by rw [← h, List.append_assoc]; rfl⟩

variable {a : Attest} {app : NodeId}

theorem endsWith_label_iff {frontend : String}
    (hresource : '(' ∉ a.predicate.resource.toList) (hfrontend : '(' ∉ frontend.toList) :
    endsWith a.label (attachAction ++ "(" ++ frontend ++ ")") = true ↔
      a.predicate.resource = frontend ∧ (endsWith a.predicate.action attachAction = true ∨
        a.predicate.action = "attach" ∧ endsWith a.capacity.tag "route" = true) := by
  have hlabel : a.label.toList = (a.capacity.tag ++ ":" ++ a.predicate.action).toList ++
      '(' :: a.predicate.resource.toList ++ [')'] := by simp [Attest.label]
  have hend : (attachAction ++ "(" ++ frontend ++ ")").toList =
      attachAction.toList ++ '(' :: frontend.toList ++ [')'] := by simp
  rw [← endsWith_tag_action_iff, endsWith_iff, endsWith_iff, hlabel, hend]
  constructor
  · rintro ⟨front, h⟩
    rw [← List.append_assoc, ← List.append_assoc] at h
    have hsplit := congrArg (Lib.Delimited.splitLast '(') (List.append_cancel_right h)
    rw [Lib.Delimited.splitLast_append _ hfrontend, Lib.Delimited.splitLast_append _ hresource]
      at hsplit
    obtain ⟨hfront, hsame⟩ := Prod.mk.inj hsplit
    exact ⟨String.toList_injective hsame.symm, front, hfront⟩
  · rintro ⟨rfl, front, h⟩
    exact ⟨front, by rw [← h]; simp⟩

/-! ## Claims -/

def Grants (a : Attest) (app : NodeId) (frontend : String) : Prop :=
  a.subject = app ∧ a.predicate.action = attachAction ∧ a.predicate.resource = frontend

def Live (store : TrustStore) (a : Attest) : Prop :=
  ∃ k : Cid, store.attests[k]? = some a ∧ k ∉ store.revoked ∧ (store.verify k).isOk = true

structure Plain (a : Attest) : Prop where
  resource : '(' ∉ a.predicate.resource.toList
  action : endsWith a.predicate.action attachAction = true → a.predicate.action = attachAction
  tag : a.predicate.action = "attach" → endsWith a.capacity.tag "route" = false

variable {frontend : String}

theorem isAttachAuthorized_iff {store : TrustStore} :
    isAttachAuthorized store app frontend = true ↔ ∃ a, Live store a ∧ a.subject = app ∧
      endsWith a.label (attachAction ++ "(" ++ frontend ++ ")") = true := by
  simp only [isAttachAuthorized, List.any_eq_true, Bool.and_eq_true, decide_eq_true_eq,
    TrustStore.mem_graphEdges_iff, TrustStore.mem_liveAttests_iff]
  constructor
  · rintro ⟨e, ⟨k, a, hlive, rfl⟩, happ, hlabel⟩
    exact ⟨a, ⟨k, hlive⟩, happ, hlabel⟩
  · rintro ⟨a, ⟨k, hlive⟩, happ, hlabel⟩
    exact ⟨_, ⟨k, a, hlive, rfl⟩, happ, hlabel⟩

theorem endsWith_label_of_grants (h : Grants a app frontend) :
    endsWith a.label (attachAction ++ "(" ++ frontend ++ ")") = true := by
  obtain ⟨-, haction, rfl⟩ := h
  rw [endsWith_iff]
  exact ⟨(a.capacity.tag ++ ":").toList, by simp [Attest.label, haction]⟩

theorem Plain.grants (h : Plain a) (hfrontend : '(' ∉ frontend.toList)
    (happ : a.subject = app)
    (hlabel : endsWith a.label (attachAction ++ "(" ++ frontend ++ ")") = true) :
    Grants a app frontend := by
  obtain ⟨hresource, haction | ⟨haction, htag⟩⟩ :=
    (endsWith_label_iff h.resource hfrontend).1 hlabel
  · exact ⟨happ, h.action haction, hresource⟩
  · rw [h.tag haction] at htag
    cases htag

theorem issued_of_stored {H : Bytes → Bytes} {E : Ed25519} {genesis : NodeId}
    {calls : List TrustStore.Call} {k : Cid}
    (h : (exec (TrustStore.step H E) (.new genesis) calls).attests[k]? = some a) :
    .issueAttest a ∈ calls := by
  induction calls using List.reverseRecOn with
  | nil => simp [TrustStore.new] at h
  | append_singleton calls call ih =>
    rw [exec_concat] at h
    have heffect := TrustStore.effect_step (H := H) (E := E)
      (exec (TrustStore.step H E) (.new genesis) calls) call
    generalize TrustStore.step H E _ call = next at h heffect
    cases heffect with
    | refused => exact List.mem_append_left _ (ih h)
    | issued b hb =>
      rw [Std.ExtTreeMap.getElem?_insert] at h
      split at h
      · obtain rfl := Option.some.inj h
        simp
      · exact List.mem_append_left _ (ih h)
    | revoked r hr => exact List.mem_append_left _ (ih h)

/-- **With plain claims the routing table has what is meant.** -/
theorem attached_iff_granted (H : Bytes → Bytes) (E : Ed25519) (genesis : NodeId)
    (calls : List TrustStore.Call) (hplain : ∀ a, .issueAttest a ∈ calls → Plain a)
    (frontends : List Frontend) (routes : List Route) {i : ℕ} {r : Route}
    (hr : routes[i]? = some r) (hfrontend : '(' ∉ r.frontend.toList) :
    let store := exec (TrustStore.step H E) (.new genesis) calls
    ((deriveRoutingTable frontends routes store).entries[i]?.map (·.status) = some .attached ↔
      (∃ f ∈ frontends, f.name = r.frontend) ∧ ∃ a, Live store a ∧ Grants a r.app r.frontend) := by
  intro store
  have hauthorized : isAttachAuthorized store r.app r.frontend = true ↔
      ∃ a, Live store a ∧ Grants a r.app r.frontend := by
    rw [isAttachAuthorized_iff]
    refine exists_congr fun a => and_congr_right fun ⟨k, hstored, _⟩ => ?_
    constructor
    · rintro ⟨happ, hlabel⟩
      exact (hplain a (issued_of_stored hstored)).grants hfrontend happ hlabel
    · intro hgrants
      exact ⟨hgrants.1, endsWith_label_of_grants hgrants⟩
  have hexists : (frontends.map (·.name)).contains r.frontend = true ↔
      ∃ f ∈ frontends, f.name = r.frontend := by simp
  rw [← hauthorized, ← hexists]
  simp only [deriveRoutingTable, List.getElem?_map, hr, Option.map_some, Option.some.injEq,
    routeStatus]
  split_ifs with h₁ h₂ <;> simp_all

/-! ## Claims of the owner -/

def ownerFields (capacity : Capacity) (action resource : String) : AttestFields :=
  ⟨"owner", capacity, none, "app", ⟨action, resource, none⟩, "", 0⟩

def ownerSig (fields : AttestFields) : Sig :=
  let keys := signingKeypairFromSeed tailDigest plainEd25519 (nameSeed tailDigest "owner")
  ⟨"owner", keys.1,
    plainEd25519.sign keys.2 (utf8 (TrustArtifacts.contentAddress tailDigest fields.parts))⟩

def storeOf (a : Attest) : TrustStore :=
  exec (TrustStore.step tailDigest plainEd25519) (.new "owner") [.issueAttest a]

def statuses (a : Attest) (frontends : List String) : List RouteStatus :=
  (deriveRoutingTable (frontends.map Frontend.mk)
    (frontends.map fun f => ⟨"r", "app", f, .tcp, []⟩) (storeOf a)).entries.map (·.status)

def edgeGrant : Attest :=
  ⟨ownerFields .selfCap "route:attach" "edge",
    ownerSig (ownerFields .selfCap "route:attach" "edge"),
    by decide +kernel⟩

/-- The app attaches a route to the edge with it, and none to another frontend. -/
theorem edge_attached :
    Plain edgeGrant ∧ ∀ (i : ℕ) (f : String), ["edge", "core"][i]? = some f →
      ((statuses edgeGrant ["edge", "core"])[i]? = some .attached ↔
        ∃ a, Live (storeOf edgeGrant) a ∧ Grants a "app" f) := by
  have hplain : Plain edgeGrant := ⟨by decide, by decide, by decide⟩
  refine ⟨hplain, fun i f hf => ?_⟩
  have hmem : f ∈ ["edge", "core"] := List.mem_of_getElem? hf
  have hroute : (["edge", "core"].map fun f => (⟨"r", "app", f, .tcp, []⟩ : Route))[i]? =
      some ⟨"r", "app", f, .tcp, []⟩ := by rw [List.getElem?_map, hf]; rfl
  have hfrontend : '(' ∉ f.toList := by
    rcases List.mem_pair.1 hmem with rfl | rfl <;> decide
  have h := attached_iff_granted tailDigest plainEd25519 "owner" [.issueAttest edgeGrant]
    (by simpa using hplain) (["edge", "core"].map Frontend.mk) _ hroute hfrontend
  rw [statuses, List.getElem?_map]
  exact h.trans (and_iff_right ⟨⟨f⟩, List.mem_map.2 ⟨f, hmem, rfl⟩, rfl⟩)

/-- The action only ends like the right one. -/
def otherAction : Attest :=
  ⟨ownerFields .selfCap "test-route:attach" "edge",
    ownerSig (ownerFields .selfCap "test-route:attach" "edge"), by decide +kernel⟩

/-- The scope of the role and the action make the right one together. -/
def otherTag : Attest :=
  ⟨ownerFields (.role "guest" "route") "attach" "edge",
    ownerSig (ownerFields (.role "guest" "route") "attach" "edge"), by decide +kernel⟩

/-- The resource is one that only ends like the right label. -/
def otherResource : Attest :=
  ⟨ownerFields .selfCap "read" "route:attach(edge",
    ownerSig (ownerFields .selfCap "read" "route:attach(edge"), by decide +kernel⟩

/-- The frontend has a parenthesis in its name. -/
def otherFrontend : Attest :=
  ⟨ownerFields .selfCap "route:attach(inner" "edge",
    ownerSig (ownerFields .selfCap "route:attach(inner" "edge"), by decide +kernel⟩

/-- Each of these claims attaches a route, and none of them is the right one. -/
theorem attached_by_lookalike :
    (statuses otherAction ["edge"] = [.attached] ∧
      ∀ a, Live (storeOf otherAction) a → ¬ Grants a "app" "edge") ∧
    (statuses otherTag ["edge"] = [.attached] ∧
      ∀ a, Live (storeOf otherTag) a → ¬ Grants a "app" "edge") ∧
    (statuses otherResource ["edge"] = [.attached] ∧
      ∀ a, Live (storeOf otherResource) a → ¬ Grants a "app" "edge") ∧
    (statuses otherFrontend ["inner(edge"] = [.attached] ∧
      ∀ a, Live (storeOf otherFrontend) a → ¬ Grants a "app" "inner(edge") := by
  have honly : ∀ {a b : Attest}, Live (storeOf b) a → a = b := by
    rintro a b ⟨k, hstored, -⟩
    simpa using issued_of_stored hstored
  refine ⟨⟨by decide +kernel, ?_⟩, ⟨by decide +kernel, ?_⟩, ⟨by decide +kernel, ?_⟩,
    by decide +kernel, ?_⟩ <;>
  · rintro a ha ⟨-, haction, hresource⟩
    obtain rfl := honly ha
    revert haction hresource
    decide

/-! ## Load balancing -/

/-- What of a policy decides on a backend. -/
structure LoadBalancerPolicy where
  localityTier : Option String
  consistencyClass : SideEffect

namespace LoadBalancerPolicy

variable (hash : String → ℕ)

def consistentHash (key : String) (len : ℕ) : ℕ := hash key % len

/-- The backend for a client: by hash if it is to be one and the same, else a near one. -/
def select (p : LoadBalancerPolicy) (key : String) (candidates : List (NodeId × Backend))
    (client : NodeId) (topology : Topology) : Option Backend :=
  if candidates = [] then none
  else if p.consistencyClass = .exclusive then
    candidates[consistentHash hash key candidates.length]?.map Prod.snd
  else
    let near := p.localityTier.bind fun tier => (topology.label tier client).bind fun value =>
      candidates.find? fun c => topology.label tier c.1 = some value
    (near <|> candidates.head?).map Prod.snd

variable {hash} {p : LoadBalancerPolicy}

theorem select_exclusive (hp : p.consistencyClass = .exclusive) (key : String)
    (candidates : List (NodeId × Backend)) (client : NodeId) (topology : Topology) :
    p.select hash key candidates client topology =
      (candidates.map Prod.snd)[hash key % candidates.length]? := by
  rw [select, if_pos hp, List.getElem?_map]
  split_ifs with hnil
  · rw [hnil]
    rfl
  · rfl

/-- **A key goes to one backend** whatever the order of the candidates, exactly if it is the same
order of backends. -/
theorem one_backend_iff (hp : p.consistencyClass = .exclusive) {l l' : List (NodeId × Backend)}
    (hperm : l.Perm l') (key : String) (client : NodeId) (topology : Topology) :
    (∀ hash, p.select hash key l client topology = p.select hash key l' client topology) ↔
      l.map Prod.snd = l'.map Prod.snd := by
  simp only [select_exclusive hp, ← hperm.length_eq]
  refine ⟨fun h => List.ext_getElem? fun i => ?_, fun h hash => by rw [h]⟩
  by_cases hi : i < l.length
  · have hindex := h fun _ => i
    rwa [Nat.mod_eq_of_lt hi] at hindex
  · have hi' : ¬ i < l'.length := hperm.length_eq ▸ hi
    simp [Nat.not_lt.1 hi, Nat.not_lt.1 hi']

def pinned : LoadBalancerPolicy := ⟨none, .exclusive⟩

/-- One backend on two nodes. -/
theorem shared_backend_selected :
    pinned.select String.length "key" [("n1", ⟨"b"⟩), ("n2", ⟨"b"⟩)] "client" (.new .default) =
      pinned.select String.length "key" [("n2", ⟨"b"⟩), ("n1", ⟨"b"⟩)] "client" (.new .default) := by
  have hperm : [("n1", Backend.mk "b"), ("n2", ⟨"b"⟩)].Perm [("n2", ⟨"b"⟩), ("n1", ⟨"b"⟩)] := .swap ..
  exact (one_backend_iff rfl hperm "key" "client" _).2 rfl _

/-- The candidates in another order. -/
theorem key_split :
    pinned.select (fun _ => 0) "key" [("n1", ⟨"a"⟩), ("n2", ⟨"b"⟩)] "client" (.new .default) ≠
      pinned.select (fun _ => 0) "key" [("n2", ⟨"b"⟩), ("n1", ⟨"a"⟩)] "client" (.new .default) := by
  decide +kernel

end LoadBalancerPolicy

end Pillar.Manifest.Ingress
