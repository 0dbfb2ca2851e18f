import Lofire.Reference
import Lofire.Branch.Ahead
import Lofire.Broker.Pins
import Lofire.Lmdb.Clocked
import Lofire.Net.Errors
import Lofire.Lmdb.Interleaving
import Lofire.Lmdb.Dangling
import Lofire.Lmdb.Uses
import Lofire.Object.Integrity
import Lofire.Object.Convergence
import Lofire.Object.Copy
import Lofire.Object.SelfContained
import Lofire.Lmdb.SameResults
import Lofire.Broker.RepoKeys
import Lofire.Broker.Joins
import Lofire.Broker.NoTrace
import Lofire.Broker.Locks
import Lofire.Broker.Auth
import Lofire.Node.Completion
import Lofire.Broker.Transfer
import Lofire.Broker.Abandoned
import Lofire.Broker.SameOutcome
import Lofire.Broker.CatchUp
import Lofire.Object.CopyRebuild
import Lofire.Broker.OverlayCache
import Lofire.Broker.Creation
import Lofire.Broker.Answers
import Lofire.Object.Rounding
import Lofire.Broker.Adverts
import Lofire.Object.Layout
import Lofire.Broker.Replies
import Lofire.Lmdb.Bracket
import Lofire.Broker.Rejoin
import Lofire.Broker.SyncStream
import Lofire.Broker.Connect
