import Pillar.Manifest.Gitops
import Pillar.Manifest.Ingress
import Pillar.Psl.Parser

/-!
# Names of services

`pillar-manifest`'s service controller: a manifest declares a name, and the endpoints that it should
resolve to.

* `resolves_while_attached` — **along calls that do so names resolve while their service is
  attached**.
-/

namespace Pillar.Manifest.ServiceRoute

open Lib.Runs Ingress TrustArtifacts

/-! ## Requests -/

def dnsNameField : Str := .lit "dnsName"

def frontendField : Str := .lit "frontend"

def appField : Str := .lit "app"

def portField : Str := .lit "port"

/-- The endpoints of the service, separated by commas. -/
def endpointsField : Str := .lit "endpoints"

structure ServiceRequest where
  name : Str
  dnsName : Str
  frontend : Str
  app : Str
  port : UInt16
  endpoints : List String
  deriving DecidableEq

/-- Why a manifest asks for nothing. -/
inductive RequestError where
  | malformedSpec (field : Str)
  | portOutOfRange (port : Int64)
  | noEndpoints
  deriving DecidableEq

def stringField (crd : Crd) (name : Str) : Except RequestError Str :=
  match crd.spec[name]? with
  | some (.string s) => .ok s
  | _ => .error (.malformedSpec name)

def portOf (crd : Crd) : Except RequestError UInt16 :=
  match crd.spec[portField]? with
  | some (.integer i) =>
    if 0 ≤ i.toInt ∧ i.toInt < 2 ^ 16 then .ok (.ofNat i.toInt.toNat)
    else .error (.portOutOfRange i)
  | _ => .error (.malformedSpec portField)

/-- The endpoints of a text: what is between the commas, trimmed, unless it is empty. -/
def endpointsOf (text : Str) : List String :=
  (((text.val.toList.splitOn ',').map (Lib.Utf8.trim Psl.isWhitespace)).filter fun endpoint =>
    !endpoint.isEmpty).map String.ofList

def ServiceRequest.fromCrd (crd : Crd) : Except RequestError ServiceRequest := do
  let port ← portOf crd
  let endpoints := endpointsOf (← stringField crd endpointsField)
  if endpoints.isEmpty then throw .noEndpoints
  return ⟨crd.metadata.name, ← stringField crd dnsNameField, ← stringField crd frontendField,
    ← stringField crd appField, port, endpoints⟩

def ServiceRequest.toRoute (request : ServiceRequest) : Route :=
  ⟨request.name.val, request.app.val, request.frontend.val, .tcp, request.endpoints.map Backend.mk⟩

/-! ## Records -/

structure ServiceResolution where
  dnsName : Str
  port : UInt16
  endpoints : List String
  deriving DecidableEq

def ServiceRequest.resolution (request : ServiceRequest) : ServiceResolution :=
  ⟨request.dnsName, request.port, request.endpoints⟩

structure DnsRegistry where
  records : Str → Option ServiceResolution

namespace DnsRegistry

def new : DnsRegistry := ⟨fun _ => none⟩

def resolve (dns : DnsRegistry) (dnsName : Str) : Option ServiceResolution := dns.records dnsName

def publish (dns : DnsRegistry) (resolution : ServiceResolution) : DnsRegistry :=
  ⟨Function.update dns.records resolution.dnsName (some resolution)⟩

def withdraw (dns : DnsRegistry) (dnsName : Str) : DnsRegistry :=
  ⟨Function.update dns.records dnsName none⟩

end DnsRegistry

/-- What services are attached to. -/
structure ServiceSubstrate where
  frontends : List Frontend
  trustStore : TrustStore

def debugText : RequestError → String
  | .malformedSpec field => "MalformedSpec(\"" ++ field.val ++ "\")"
  | .portOutOfRange port => "PortOutOfRange(" ++ toString port ++ ")"
  | .noEndpoints => "NoEndpoints"

/-- The name is published if the route is attached; otherwise nothing changes. -/
def reconcile (substrate : ServiceSubstrate) (dns : DnsRegistry) (crd : Crd) :
    ReconcileOutcome × DnsRegistry :=
  match ServiceRequest.fromCrd crd with
  | .error e => (.failed ("malformed Service: " ++ debugText e), dns)
  | .ok request =>
    let table := deriveRoutingTable substrate.frontends [request.toRoute] substrate.trustStore
    match table.statusOf request.name.val with
    | some .attached => (.reconciled, dns.publish request.resolution)
    | some .refused =>
      (.failed ("service " ++ request.name.val ++
        " refused: app holds no route:attach grant over frontend " ++ request.frontend.val), dns)
    | some .noSuchFrontend =>
      (.failed ("service " ++ request.name.val ++ " targets non-existent frontend " ++
        request.frontend.val), dns)
    | none => (.failed ("service " ++ request.name.val ++ " produced no routing-table entry"), dns)

def delete (dns : DnsRegistry) (crd : Crd) : ReconcileOutcome × DnsRegistry :=
  match ServiceRequest.fromCrd crd with
  | .ok request => (.reconciled, dns.withdraw request.dnsName)
  | .error e => (.failed ("malformed Service on prune: " ++ debugText e), dns)

def controllerHook (substrate : ServiceSubstrate) : ControllerHook DnsRegistry where
  reconcile := reconcile substrate
  delete := delete

/-! ## Services that are attached -/

/-- A call of the hook, over what there is to attach to just then. -/
inductive Call where
  | reconcile (substrate : ServiceSubstrate) (crd : Crd)
  | delete (crd : Crd)

def Call.crd : Call → Crd
  | .reconcile _ crd => crd
  | .delete crd => crd

inductive Change where
  | published (request : ServiceRequest)
  | withdrawn (dnsName : Str)
  /-- Nothing: a service that is applied is not attached. -/
  | notAttached
  /-- Nothing: a service that is to be deleted is not well-formed. -/
  | notDeleted
  deriving DecidableEq

def Call.change : Call → Change
  | .reconcile substrate crd =>
    match ServiceRequest.fromCrd crd with
    | .ok request =>
      if routeStatus substrate.frontends substrate.trustStore request.toRoute = .attached then
        .published request
      else .notAttached
    | .error _ => .notAttached
  | .delete crd =>
    match ServiceRequest.fromCrd crd with
    | .ok request => .withdrawn request.dnsName
    | .error _ => .notDeleted

def Change.records (dns : DnsRegistry) : Change → DnsRegistry
  | .published request => dns.publish request.resolution
  | .withdrawn dnsName => dns.withdraw dnsName
  | .notAttached | .notDeleted => dns

def Change.services (services : Str → Option ServiceRequest) (name : Str) :
    Change → Str → Option ServiceRequest
  | .published request => Function.update services name (some request)
  | .withdrawn _ | .notAttached => Function.update services name none
  | .notDeleted => services

structure Served where
  dns : DnsRegistry
  /-- The service of a name, if its route was attached when it was applied last, and it was not
  deleted since. -/
  services : Str → Option ServiceRequest

def step (s : Served) (call : Call) : Served where
  dns :=
    match call with
    | .reconcile substrate crd => ((controllerHook substrate).reconcile s.dns crd).2
    | .delete crd => (delete s.dns crd).2
  services := call.change.services s.services call.crd.metadata.name

def start : Served := ⟨.new, fun _ => none⟩

def Answers (services : Str → Option ServiceRequest) (dnsName : Str) (r : ServiceResolution) :
    Prop :=
  ∃ name request, services name = some request ∧ request.dnsName = dnsName ∧ request.resolution = r

structure Agrees (s : Served) : Prop where
  sound : ∀ dnsName r, s.dns.resolve dnsName = some r → Answers s.services dnsName r
  complete : ∀ dnsName r, Answers s.services dnsName r → ∃ r', s.dns.resolve dnsName = some r'

def Change.dnsName : Change → Option Str
  | .published request => some request.dnsName
  | .withdrawn dnsName => some dnsName
  | .notAttached | .notDeleted => none

structure Keeps (s : Served) (call : Call) : Prop where
  others : ∀ dnsName r, call.change.dnsName ≠ some dnsName → Answers s.services dnsName r →
    Answers (step s call).services dnsName r
  withdrawn : ∀ dnsName r, call.change = .withdrawn dnsName →
    ¬ Answers (step s call).services dnsName r

/-! ## What a call does -/

theorem step_dns (s : Served) (call : Call) : (step s call).dns = call.change.records s.dns := by
  cases call with
  | reconcile substrate crd =>
    show (reconcile substrate s.dns crd).2 = _
    rw [reconcile, Call.change]
    cases ServiceRequest.fromCrd crd with
    | error e => rfl
    | ok request =>
      have htable : (deriveRoutingTable substrate.frontends [request.toRoute]
          substrate.trustStore).statusOf request.name.val =
          some (routeStatus substrate.frontends substrate.trustStore request.toRoute) := by
        simp [RoutingTable.statusOf, deriveRoutingTable, ServiceRequest.toRoute]
      simp only [htable]
      cases routeStatus substrate.frontends substrate.trustStore request.toRoute <;> rfl
  | delete crd =>
    show (delete s.dns crd).2 = _
    rw [delete, Call.change]
    cases ServiceRequest.fromCrd crd <;> rfl

theorem step_eq (s : Served) (call : Call) : step s call =
    ⟨call.change.records s.dns, call.change.services s.services call.crd.metadata.name⟩ := by
  rw [← step_dns]
  rfl

theorem answers_services {services : Str → Option ServiceRequest} {name : Str} {change : Change}
    {dnsName : Str} {r : ServiceResolution}
    (h : Answers (change.services services name) dnsName r) :
    Answers services dnsName r ∨ change.dnsName = some dnsName := by
  obtain ⟨n, request, hservice, hname, hr⟩ := h
  by_cases hn : n = name
  · subst hn
    cases change with
    | published req =>
      obtain rfl : req = request := by simpa [Change.services] using hservice
      exact .inr (by rw [Change.dnsName, hname])
    | withdrawn d | notAttached => simp [Change.services] at hservice
    | notDeleted => exact .inl ⟨n, request, hservice, hname, hr⟩
  · refine .inl ⟨n, request, ?_, hname, hr⟩
    cases change <;> simpa [Change.services, hn] using hservice

theorem resolve_records {dns : DnsRegistry} {change : Change} {dnsName : Str}
    (h : change.dnsName ≠ some dnsName) :
    (change.records dns).resolve dnsName = dns.resolve dnsName := by
  cases change with
  | published request =>
    exact Function.update_of_ne (fun heq => h (congrArg some heq.symm)) _ _
  | withdrawn d => exact Function.update_of_ne (fun heq => h (congrArg some heq.symm)) _ _
  | notAttached | notDeleted => rfl

theorem agrees_step {s : Served} {call : Call} (hs : Agrees s) (h : Keeps s call) :
    Agrees (step s call) := by
  constructor
  · intro dnsName r hresolve
    rw [step_dns] at hresolve
    by_cases hchange : call.change.dnsName = some dnsName
    · -- only a record that is published is there after the change
      cases hc : call.change with
      | published request =>
        obtain rfl : request.dnsName = dnsName := by simpa [hc, Change.dnsName] using hchange
        obtain rfl : request.resolution = r := by
          simpa [hc, Change.records, DnsRegistry.resolve, DnsRegistry.publish,
            ServiceRequest.resolution] using hresolve
        refine ⟨call.crd.metadata.name, request, ?_, rfl, rfl⟩
        simp [step, hc, Change.services]
      | withdrawn d =>
        obtain rfl : d = dnsName := by simpa [hc, Change.dnsName] using hchange
        simp [hc, Change.records, DnsRegistry.resolve, DnsRegistry.withdraw] at hresolve
      | notAttached | notDeleted => simp [hc, Change.dnsName] at hchange
    · rw [resolve_records hchange] at hresolve
      exact h.others dnsName r hchange (hs.sound dnsName r hresolve)
  · intro dnsName r hanswers
    rw [step_dns]
    by_cases hchange : call.change.dnsName = some dnsName
    · cases hc : call.change with
      | published request =>
        obtain rfl : request.dnsName = dnsName := by simpa [hc, Change.dnsName] using hchange
        exact ⟨request.resolution, Function.update_self _ _ _⟩
      | withdrawn d =>
        obtain rfl : d = dnsName := by simpa [hc, Change.dnsName] using hchange
        exact absurd hanswers (h.withdrawn d r hc)
      | notAttached | notDeleted => simp [hc, Change.dnsName] at hchange
    · rw [resolve_records hchange]
      rcases answers_services hanswers with hbefore | hpublished
      · exact hs.complete dnsName r hbefore
      · exact absurd hpublished hchange

/-- **Names resolve while their service is attached.** -/
theorem resolves_while_attached (calls : List Call) (h : Along step Keeps start calls) :
    ∀ p, p <+: calls → ∀ dnsName,
      (∀ r, (exec step start p).dns.resolve dnsName = some r →
        Answers (exec step start p).services dnsName r) ∧
      ((∃ r, Answers (exec step start p).services dnsName r) →
        ∃ r, (exec step start p).dns.resolve dnsName = some r) := by
  have hagrees : Throughout step Agrees start calls := by
    refine throughout_of_along (fun _ _ hs hcall => agrees_step hs hcall) ?_ h
    constructor
    · intro dnsName r hr
      cases hr
    · rintro dnsName r ⟨name, request, hservice, -⟩
      cases hservice
  intro p hp dnsName
  refine ⟨(hagrees p hp).sound dnsName, ?_⟩
  rintro ⟨r, hr⟩
  exact (hagrees p hp).complete dnsName r hr

/-! ## A service on the edge -/

def service (name dnsName : Str) : Crd :=
  ⟨routeVersion, .lit "Service", ⟨name, ∅⟩,
    (((((∅ : Std.ExtTreeMap Str Value).insert dnsNameField (.string dnsName)).insert
      frontendField (.string (.lit "edge"))).insert
      appField (.string (.lit "app"))).insert
      portField (.integer 80)).insert
      endpointsField (.string (.lit "10.0.0.1"))⟩

def request (name dnsName : Str) : ServiceRequest :=
  ⟨name, dnsName, .lit "edge", .lit "app", 80, ["10.0.0.1"]⟩

theorem fromCrd_service (name dnsName : Str) :
    ServiceRequest.fromCrd (service name dnsName) = .ok (request name dnsName) := rfl

/-- The edge, and the claim of the app for it. -/
def granted : ServiceSubstrate := ⟨[⟨"edge"⟩], storeOf edgeGrant⟩

def notGranted : ServiceSubstrate := ⟨[⟨"edge"⟩], .new "owner"⟩

theorem change_reconcile_granted (name dnsName : Str) :
    (Call.reconcile granted (service name dnsName)).change = .published (request name dnsName) := by
  have hattached : routeStatus granted.frontends granted.trustStore
      ⟨"", "app", "edge", .tcp, []⟩ = .attached := by decide +kernel
  rw [Call.change, fromCrd_service]
  exact if_pos hattached

theorem change_reconcile_notGranted (name dnsName : Str) :
    (Call.reconcile notGranted (service name dnsName)).change = .notAttached := by
  have hrefused : routeStatus notGranted.frontends notGranted.trustStore
      ⟨"", "app", "edge", .tcp, []⟩ ≠ .attached := by decide +kernel
  rw [Call.change, fromCrd_service]
  exact if_neg hrefused

theorem step_reconcile_granted (s : Served) (name dnsName : Str) :
    step s (.reconcile granted (service name dnsName)) =
      ⟨s.dns.publish (request name dnsName).resolution,
        Function.update s.services name (some (request name dnsName))⟩ := by
  rw [step_eq, change_reconcile_granted]
  rfl

theorem step_reconcile_notGranted (s : Served) (name dnsName : Str) :
    step s (.reconcile notGranted (service name dnsName)) =
      ⟨s.dns, Function.update s.services name none⟩ := by
  rw [step_eq, change_reconcile_notGranted]
  rfl

theorem step_delete (s : Served) (name dnsName : Str) :
    step s (.delete (service name dnsName)) =
      ⟨s.dns.withdraw dnsName, Function.update s.services name none⟩ := rfl

/-- A service is applied and deleted: its name resolves, and then it does not. -/
theorem service_comes_and_goes :
    Along step Keeps start
        [.reconcile granted (service routeX routeY), .delete (service routeX routeY)] ∧
      ∀ p, p <+: [.reconcile granted (service routeX routeY), .delete (service routeX routeY)] →
        ∀ dnsName,
        (∀ r, (exec step start p).dns.resolve dnsName = some r →
          Answers (exec step start p).services dnsName r) ∧
        ((∃ r, Answers (exec step start p).services dnsName r) →
          ∃ r, (exec step start p).dns.resolve dnsName = some r) := by
  have hkeeps : Along step Keeps start
      [.reconcile granted (service routeX routeY), .delete (service routeX routeY)] := by
    refine along_cons.2 ⟨⟨?_, ?_⟩, along_cons.2 ⟨⟨?_, ?_⟩, along_nil⟩⟩
    · rintro dnsName r _ ⟨name, req, hservice, -⟩
      cases hservice
    · intro dnsName r hchange
      rw [change_reconcile_granted] at hchange
      cases hchange
    · rintro dnsName r hne ⟨name, req, hservice, rfl, -⟩
      by_cases hname : name = routeX
      · obtain rfl : request routeX routeY = req := by
          simpa [step_reconcile_granted, hname] using hservice
        exact absurd rfl hne
      · simp [step_reconcile_granted, start, hname] at hservice
    · rintro dnsName r - ⟨name, req, hservice, -⟩
      rw [step_delete, step_reconcile_granted] at hservice
      by_cases hname : name = routeX <;> simp [hname, start] at hservice
  exact ⟨hkeeps, resolves_while_attached _ hkeeps⟩

/-- The records and the services after calls. -/
def after (calls : List Call) : Served := exec step start calls

def refusedLater : Served :=
  after [.reconcile granted (service routeX routeY), .reconcile notGranted (service routeX routeY)]

/-- A service is applied, and then it has another name. -/
def renamed : Served :=
  after [.reconcile granted (service routeX routeY), .reconcile granted (service routeX routeX)]

def shared : Served :=
  after [.reconcile granted (service routeX routeY), .reconcile granted (service routeY routeY),
    .delete (service routeX routeY)]

/-- A service is refused later, or has another name: the record stays. -/
theorem resolves_otherwise :
    (refusedLater.dns.resolve routeY = some (request routeX routeY).resolution ∧
      ∀ r, ¬ Answers refusedLater.services routeY r) ∧
    (renamed.dns.resolve routeY = some (request routeX routeY).resolution ∧
      ∀ r, ¬ Answers renamed.services routeY r) ∧
    shared.dns.resolve routeY = none ∧
      Answers shared.services routeY (request routeY routeY).resolution := by
  have hXY : routeX ≠ routeY := by decide
  refine ⟨⟨?_, ?_⟩, ⟨?_, ?_⟩, ?_, routeY, request routeY routeY, ?_, rfl, rfl⟩
  · simp [refusedLater, after, step_reconcile_granted, step_reconcile_notGranted,
      DnsRegistry.resolve, DnsRegistry.publish, request, ServiceRequest.resolution]
  · rintro r ⟨name, req, hservice, -⟩
    by_cases hname : name = routeX <;>
      simp [refusedLater, after, step_reconcile_granted, step_reconcile_notGranted, start, hname]
        at hservice
  · simp [renamed, after, step_reconcile_granted, DnsRegistry.resolve, DnsRegistry.publish,
      request, ServiceRequest.resolution, hXY.symm]
  · rintro r ⟨name, req, hservice, hdns, -⟩
    by_cases hname : name = routeX
    · obtain rfl : request routeX routeX = req := by
        simpa [renamed, after, step_reconcile_granted, hname] using hservice
      exact hXY hdns
    · simp [renamed, after, step_reconcile_granted, start, hname] at hservice
  · simp [shared, after, step_delete, DnsRegistry.resolve, DnsRegistry.withdraw]
  · simp [shared, after, step_delete, step_reconcile_granted, hXY.symm]

end Pillar.Manifest.ServiceRoute
