import SolidServer.Library.Program
import SolidServer.Library.Interleaving
import SolidServer.Library.Linearization
import SolidServer.Library.Observation
import SolidServer.Library.Commuting
import SolidServer.Library.Runs
import SolidServer.Library.Chains
import SolidServer.Library.RwLock
import SolidServer.Library.FreshCalls
import SolidServer.Library.Sections
import SolidServer.Library.Moments
import SolidServer.Library.TwoRuns
import SolidServer.Library.LawfulMap
import SolidServer.Library.HashMap
import SolidServer.Library.Text
import SolidServer.Library.Search
import SolidServer.Library.Uppercase
import SolidServer.Library.Octets
import SolidServer.Library.Paths
import SolidServer.Library.PosixPath
import SolidServer.Library.JsonText
import SolidServer.Library.Json
import SolidServer.Library.Serde
import SolidServer.Library.StableSort
import SolidServer.Library.Float32
import SolidServer.Http.Header
import SolidServer.Http.Message
import SolidServer.HttpTypes
import SolidServer.HttpTypes.Operation
import SolidServer.HttpTypes.Method
import SolidServer.HttpTypes.Identifier
import SolidServer.HttpTypes.Containers
import SolidServer.HttpTypes.Handler
import SolidServer.HttpTypes.Error
import SolidServer.HttpTypes.Metadata
import SolidServer.Authz
import SolidServer.ServerCore.Store
import SolidServer.ServerCore.Ancestors
import SolidServer.ServerCore.Handlers
import SolidServer.ServerCore.Routing
import SolidServer.ServerCore.Requests
import SolidServer.ServerCore.Failure
import SolidServer.ServerCore.Hierarchy
import SolidServer.ServerCore.Durability
import SolidServer.ServerCore.Concurrency
import SolidServer.ServerCore.Responses
import SolidServer.ServerCore.Addressing
import SolidServer.ServerCore.Location
import SolidServer.ServerCore.Negotiation
import SolidServer.ServerCore.Accounting
import SolidServer.ServerCore.Linearizability
import SolidServer.ServerCore.Pipeline
import SolidServer.ServerCore.Access
import SolidServer.ServerCore.Server
import SolidServer.ServerCore.Confluence
import SolidServer.ServerCore.Confidentiality
import SolidServer.ServerCore.Ancestry
import SolidServer.ServerCore.Retries
import SolidServer.ServerCore.Provenance
import SolidServer.Storage.KeyValue
import SolidServer.Storage.Expiring
import SolidServer.Storage.Reference
import SolidServer.Storage.Eviction
import SolidServer.Storage.Deadlines
import SolidServer.Storage.Sweeps
import SolidServer.Storage.JsonFile
import SolidServer.Storage.Backends
import SolidServer.Storage.Passthrough
import SolidServer.Storage.FileLock
import SolidServer.Storage.Atomicity
import SolidServer.Storage.ExpiringFile
import SolidServer.Storage.SharedFile
import SolidServer.Storage.StoppedWrites
import SolidServer.Identity.ClientCredentials
import SolidServer.Identity.LabelIndex
import SolidServer.Identity.Revocation
import SolidServer.Identity.Account
import SolidServer.Identity.LoginMethods
import SolidServer.Identity.Cookie
import SolidServer.Identity.Sessions
import SolidServer.Identity.AccountExpiry
import SolidServer.Identity.Pod
import SolidServer.Identity.PodOwners
import SolidServer.Identity.PodSections
import SolidServer.Identity.WebId
import SolidServer.StaticAssets.Handler
import SolidServer.StaticAssets.Choice
