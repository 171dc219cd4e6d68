import QuicFs.Lib.Extent
import QuicFs.Lib.Run
import QuicFs.Lib.Prog
import QuicFs.Lib.Crash
import QuicFs.Common.Frames
import QuicFs.Common.Io
import QuicFs.Common.Path
import QuicFs.Client.WriteBuf
import QuicFs.Client.Accounting
import QuicFs.Client.Coalesce
import QuicFs.Client.Ages
import QuicFs.Client.Pool
import QuicFs.Client.Flights
import QuicFs.Client.Conn
import QuicFs.Server.Data
import QuicFs.Server.Fs
import QuicFs.Server.Handles
import QuicFs.Server.HandleRuns
import QuicFs.Server.Resolve
import QuicFs.Server.Sys
import QuicFs.Server.Sanitize
import QuicFs.Server.Meta
import QuicFs.Server.DataOps
import QuicFs.Server.Discipline
import QuicFs.Server.Jail
import QuicFs.System.Replay
import QuicFs.Client.Files
import QuicFs.Client.Paths
import QuicFs.System.Callbacks
import QuicFs.System.Discipline
import QuicFs.System.World
import QuicFs.System.Protocol
import QuicFs.Client.Inodes
import QuicFs.Server.Alone
import QuicFs.Server.Effects
import QuicFs.Server.Serial
import QuicFs.System.Base
import QuicFs.System.Rpcs
import QuicFs.System.Rule
import QuicFs.System.Served
import QuicFs.System.Steps
import QuicFs.Server.Disclosure
import QuicFs.Lib.Store
import QuicFs.Client.Cache
import QuicFs.Server.Tree
import QuicFs.Server.DirOps
import QuicFs.Server.Faultless
import QuicFs.System.Namespace
import QuicFs.System.NameRpcs
import QuicFs.System.Coherence
import QuicFs.System.Tracking
import QuicFs.System.Paths
import QuicFs.System.Listing
import QuicFs.System.Exchange
import QuicFs.System.Attempts
import QuicFs.Client.KnownHosts
import QuicFs.Client.Spec
import QuicFs.Client.Mounts
import QuicFs.Client.Identity
import QuicFs.Client.Trust
import QuicFs.Client.Phases
import QuicFs.Client.Pins
import QuicFs.Lib.Utf8
import QuicFs.Client.Names
import QuicFs.Server.AuthorizedKeys
import QuicFs.Server.Slots
import QuicFs.System.Times
import QuicFs.System.Appends
import QuicFs.Server.Walks
import QuicFs.Server.Create
import QuicFs.Server.SetAttr
import QuicFs.Server.Kinds
import QuicFs.System.Generations
import QuicFs.System.Reconnects
import QuicFs.System.Sending
import QuicFs.System.Serving
import QuicFs.System.Losses
import QuicFs.System.Fences
import QuicFs.System.Truncations
import QuicFs.System.Bindings
import QuicFs.Server.Calls
import QuicFs.Server.Contents
import QuicFs.System.Stats
import QuicFs.Lib.Writeback
import QuicFs.Client.Numbers
import QuicFs.System.Writers
import QuicFs.System.Flying
import QuicFs.System.Writeback
import QuicFs.Server.Session
