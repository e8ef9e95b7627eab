import Pillar.Bootstrap.TokenIssuer
import Pillar.Cells.Cell
import Pillar.Cells.Migration
import Pillar.Cli.ImageRef
import Pillar.Cli.JitElevation
import Pillar.Controller.WorkloadSpec
import Pillar.EventLog.AntiEntropy
import Pillar.EventLog.Audit
import Pillar.Iam.AccessReview
import Pillar.Iam.Delegation
import Pillar.Iam.Disabled
import Pillar.Identity.GlobalIdentity
import Pillar.Ipam.Exclusion
import Pillar.Ipam.Records
import Pillar.Ipam.Regrant
import Pillar.Ipfs.Head
import Pillar.KeyDistribution.Roots
import Pillar.Manifest.Admission
import Pillar.Manifest.Backoff
import Pillar.Manifest.NetworkPolicy
import Pillar.Manifest.ServiceRoute
import Pillar.Net.Erasure
import Pillar.Net.Forwarding
import Pillar.Net.Multiplex
import Pillar.Net.Session
import Pillar.Net.UdpStream
import Pillar.Observability.Timeseries
import Pillar.Oidc.Scopes
import Pillar.Oidc.Transfer
import Pillar.Psl.Safety
import Pillar.QuotaLedger.Replay
import Pillar.QuotaLedger.Replicas
import Pillar.Rbac.Revocation
import Pillar.Recovery.Ledger
import Pillar.StreamDb.GeoReplication
import Pillar.StreamDb.IoErrors
import Pillar.StreamDb.StreamOps
import Pillar.Topology.Attested
import Pillar.Topology.Declared
import Pillar.TrustArtifacts.Quota
import Pillar.WebAuthn.Records
import Pillar.Wire.Durability
import Pillar.WotAuthority.TrustReach
