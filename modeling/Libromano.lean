import Libromano.Foundation.RobinHood
import Libromano.Hashmap.Model
import Libromano.Hashmap.Layout
import Libromano.Hashmap.Runs
import Libromano.Json.Safety
import Libromano.Json.Accepts
import Libromano.Json.RoundTrip
import Libromano.Json.Arrays
import Libromano.Json.Dicts
import Libromano.Json.Sharing
import Libromano.Arena.Runs
import Libromano.Vectors.Refinement
import Libromano.Regex.Boundaries
import Libromano.Regex.Termination
import Libromano.Regex.Plain
import Libromano.Regex.Accepts
import Libromano.Strings.Formats
import Libromano.Base64.Canonical
import Libromano.Http.Receiving
import Libromano.Cli.Acceptance
import Libromano.Cli.Objects
import Libromano.Cli.Spellings
import Libromano.Cli.Tokens
import Libromano.Filesystem.Removal
import Libromano.Filesystem.Parents
import Libromano.Filesystem.Traversal
import Libromano.Stacks
import Libromano.Http.Capacities
import Libromano.Arena.Chain
import Libromano.Logger
import Libromano.Int128
import Libromano.Json.Literals
import Libromano.FmtWrites
import Libromano.Json.Writes
import Libromano.Json.StringSizes
import Libromano.Hashmap.PackedUpdates
import Libromano.Regex.Reach
import Libromano.Http.Removal
import Libromano.Hash
import Libromano.HashChanges
import Libromano.Random
import Libromano.StringAlgo
import Libromano.Strview.Trim
import Libromano.Strview.Find
import Libromano.Strview.Split
import Libromano.Strview.Parts
import Libromano.Threadpool.Waiting
import Libromano.Threadpool.Release
import Libromano.Threadpool.Stopping
import Libromano.Stats.Extremes
import Libromano.Stats.Moments
import Libromano.Linalg.Mul
import Libromano.Linalg.Solve
import Libromano.Vectors.Shuffle
import Libromano.Strings.Split
import Libromano.Pext
import Libromano.Popcount
import Libromano.SocketServer.Stopping
import Libromano.Hashmap.History
import Libromano.Hashmap.ProbeLimit
