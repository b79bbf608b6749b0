import Ens.Tasks.TurnLock
import Ens.Collections.SortedRun
import Ens.Lex.Tiling
import Ens.Lex.Interpolated
import Ens.Json.RoundTrip
import Ens.Number.NearestDouble
import Ens.Tasks.ChannelOrder
import Ens.Tasks.ChannelWakes
import Ens.Tasks.Park
import Ens.Tasks.SchedulerRun
import Ens.Tasks.WaitEnds
import Ens.Collections.Frozen
import Ens.Tasks.SharedLock
import Ens.Packages.Again
import Ens.Packages.Order
import Ens.Packages.Limit
import Ens.Packages.Pins
import Ens.Packages.LockRoundTrip
import Ens.Reach.Reachable
import Ens.Tasks.ScopeRun
import Ens.Narrow.Branches
import Ens.Flow.Sound
import Ens.Graph.Exact
import Ens.Expansion.Exact
import Ens.Constants.Exact
import Ens.Throws.Exact
import Ens.Dispatch.OneAbi
import Ens.Tasks.Shares
import Ens.Packages.TreeDigest
import Ens.Collections.ListRun
import Ens.Collections.ListSort
import Ens.Collections.DequeRun
import Ens.Collections.QueueRun
import Ens.Tasks.TaskQueueRun
import Ens.Number.Radix
import Ens.Syntax.Faithful
import Ens.Streams.Faithful
import Ens.Equality.Agreement
import Ens.Text.SearchRun
import Ens.Parse.Open
import Ens.Tasks.WaitListRun
import Ens.Eir.Definite
import Ens.Constants.IntegerExact
import Ens.Inlining.Groups
import Ens.Eir.Place
import Ens.Tasks.Awaiting
import Ens.Tasks.Events
import Ens.Constants.TextLiteral
import Ens.Lex.Spelled
import Ens.Casts.Optionals
import Ens.Processes.Blocks
import Ens.Classes.Layout
import Ens.Files.Paths
import Ens.Classes.ValueCycles
import Ens.Eir.Devirtualize
import Ens.Eir.Destruction
import Ens.Casts.Unify
import Ens.Number.Buffer
import Ens.Parse.Operators
import Ens.Parse.Speculation
import Ens.Text.Lines
import Ens.Eir.Pruning
