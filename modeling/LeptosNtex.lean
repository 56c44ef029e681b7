import LeptosNtex.Incremental
import LeptosNtex.Framing
import LeptosNtex.CheckedCodec
import LeptosNtex.Assembly
import LeptosNtex.FileTree
import LeptosNtex.Site
import LeptosNtex.Storage
import LeptosNtex.Publication
import LeptosNtex.Steps
import LeptosNtex.Admission
import LeptosNtex.Transition
import LeptosNtex.ManagedRoot
import LeptosNtex.Accounts
import LeptosNtex.Representation
import LeptosNtex.Snapshot
import LeptosNtex.Serving
import LeptosNtex.Trace
import LeptosNtex.Work
import LeptosNtex.Waiters
import LeptosNtex.Answers
import LeptosNtex.Endings
import LeptosNtex.Templates
import LeptosNtex.WorkKey
import LeptosNtex.Registry
import LeptosNtex.Mpsc
import LeptosNtex.Pump
import LeptosNtex.Url
import LeptosNtex.Redirect
import LeptosNtex.Installation
import LeptosNtex.Ways
import LeptosNtex.Unlimited
import LeptosNtex.Unmanaged
import LeptosNtex.Atomicity
import LeptosNtex.Mkdir
import LeptosNtex.Links
import LeptosNtex.OpenRoot
import LeptosNtex.LateBinding
import LeptosNtex.Capacity
import LeptosNtex.Slots
import LeptosNtex.RequestScope
import LeptosNtex.Waker
import LeptosNtex.Retirement
import LeptosNtex.Bindings
import LeptosNtex.Multimap
import LeptosNtex.HeaderMerge
import LeptosNtex.SnapshotCache
import LeptosNtex.OwnerScope
import LeptosNtex.Wakeups
import LeptosNtex.Permits
import LeptosNtex.Subscriptions
import LeptosNtex.Skeleton
import LeptosNtex.Pair
import LeptosNtex.Cleanup
import LeptosNtex.StoredMetadata
import LeptosNtex.Namespace
import LeptosNtex.ControlRecord
import LeptosNtex.Sandbox
import LeptosNtex.MetadataAbsence
import LeptosNtex.UnixPath
import LeptosNtex.StaticPath
import LeptosNtex.SiteFile
import LeptosNtex.FieldLines
import LeptosNtex.Encodings
import LeptosNtex.PayloadLimit
import LeptosNtex.RedirectStatus
import LeptosNtex.Base64
import LeptosNtex.Handshake
import LeptosNtex.FileResponse
import LeptosNtex.Mounts
import LeptosNtex.CaseRules
import LeptosNtex.EntryKeys
import LeptosNtex.DirectoryView
import LeptosNtex.Closing
import LeptosNtex.ConnectionScope
import LeptosNtex.Dictionary
import LeptosNtex.Dispatch
import LeptosNtex.ServerFns
import LeptosNtex.Routes
import LeptosNtex.Executor
import LeptosNtex.Generator
import LeptosNtex.Page
import LeptosNtex.FileService
import LeptosNtex.StaticRequest
import LeptosNtex.Flock
import LeptosNtex.LockEntry
import LeptosNtex.Leases
import LeptosNtex.StaticRender
