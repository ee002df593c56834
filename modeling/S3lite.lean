import S3lite.Base.Bytes
import S3lite.Base.Table
import S3lite.Base.Prog
import S3lite.Base.Trace
import S3lite.Base.Cell
import S3lite.Base.Pages
import S3lite.Base.RollUp
import S3lite.Base.Text
import S3lite.Base.Encoding
import S3lite.Base.Split
import S3lite.Storage.Manifest
import S3lite.Storage.MetaStore
import S3lite.Storage.Listing
import S3lite.Storage.Ops
import S3lite.Storage.Refcount
import S3lite.Storage.Rows
import S3lite.Storage.Steps
import S3lite.Listing.Reference
import S3lite.Listing.Walk
import S3lite.Server.World
import S3lite.Server.Handler
import S3lite.S3.Common
import S3lite.S3.Checksum
import S3lite.S3.Lock
import S3lite.S3.Tagging
import S3lite.S3.Object
import S3lite.S3.Copy
import S3lite.S3.Multipart
import S3lite.S3.Bucket
import S3lite.S3.Maintenance
import S3lite.S3.Listing
import S3lite.Server.Requests
import S3lite.Server.Rules
import S3lite.Safety.Discipline
import S3lite.Safety.Pool
import S3lite.Safety.Interlock
import S3lite.Storage.Freed
import S3lite.Server.Alone
import S3lite.Safety.Recovery
import S3lite.Safety.Buckets
import S3lite.Listing.Versions
import S3lite.Listing.Latest
import S3lite.Listing.Marker
import S3lite.Listing.KeyMarker
import S3lite.Listing.Cursor
import S3lite.Server.Effects
import S3lite.Safety.Retention
import S3lite.Safety.Conditional
import S3lite.Safety.Locks
import S3lite.Safety.Expiry
import S3lite.S3.Addressing
import S3lite.S3.Cors
import S3lite.S3.Dispatch
import S3lite.Http.Presigned
import S3lite.Http.Router
import S3lite.Http.App
import S3lite.Server.Answers
import S3lite.Access.Naming
import S3lite.Access.Hosts
import S3lite.Access.Signed
import S3lite.Access.Window
import S3lite.Access.Canonical
import S3lite.Access.SpecText
import S3lite.Access.Signer
import S3lite.Access.Scope
import S3lite.Access.CrossOrigin
import S3lite.Access.Unsigned
import S3lite.Access.Reload
import S3lite.Lifecycle.Rules
import S3lite.Lifecycle.Sweep
import S3lite.Base.Pieces
import S3lite.Ranges.Copy
import S3lite.Lifecycle.Document
import S3lite.Lifecycle.Suspended
import S3lite.Safety.Current
import S3lite.Safety.Leftover
import S3lite.Listing.Positions
import S3lite.Base.Decoder
import S3lite.Base.Form
import S3lite.S3.Decoders
import S3lite.S3.Events
import S3lite.Access.Tags
import S3lite.Access.Wildcard
import S3lite.Access.Webhooks
import S3lite.Access.Dates
import S3lite.Safety.Horizon
import S3lite.Safety.Uploads
import S3lite.Safety.Versions
import S3lite.Server.Performs
import S3lite.Safety.Completion
import S3lite.Safety.Sequential
import S3lite.Ranges.Header
import S3lite.Ranges.Get
import S3lite.Safety.Guarded
import S3lite.Safety.Saturation
import S3lite.Base.History
import S3lite.Vault.Store
import S3lite.Vault.Shows
import S3lite.Vault.Effects
import S3lite.Vault.Steps
import S3lite.Vault.Uploads
import S3lite.Vault.Requests
import S3lite.Vault.Writes
import S3lite.Vault.Runs
import S3lite.Vault.Basic
import S3lite.Vault.Granted
import S3lite.Base.Folder
import S3lite.Safety.Sources
import S3lite.Admin.Backup
import S3lite.Admin.Restored
import S3lite.Admin.RoundTrip
import S3lite.Base.Lowering
import S3lite.Storage.PartStore
import S3lite.Base.Moments
import S3lite.Safety.Untorn
import S3lite.Safety.Streams
import S3lite.Base.Mailbox
import S3lite.Storage.Actor
import S3lite.Listing.Client
import S3lite.Session.Changes
import S3lite.Session.Requests
import S3lite.Session.Uploads
import S3lite.Session.Completion
import S3lite.Session.Saturated
import S3lite.Session.Refined
