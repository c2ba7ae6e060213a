import Dqrvcs.Bytes
import Dqrvcs.Codec
import Dqrvcs.Stdlib
import Dqrvcs.Operation
import Dqrvcs.Store
import Dqrvcs.Invariant
import Dqrvcs.Order
import Dqrvcs.Density
import Dqrvcs.Sync
import Dqrvcs.Peers
import Dqrvcs.Atomicity
import Dqrvcs.Answers
import Dqrvcs.Identity
import Dqrvcs.Pending
import Dqrvcs.PushFlow
import Dqrvcs.PushIntent
import Dqrvcs.Persist
import Dqrvcs.Handles
import Dqrvcs.Repository
import Dqrvcs.PushCommand
import Dqrvcs.Flags
import Dqrvcs.Commands
import Dqrvcs.Cli
