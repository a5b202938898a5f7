import Jaguar.Runs
import Jaguar.WorkerPool
import Jaguar.Timers
import Jaguar.ReactorWait
import Jaguar.InterpLock
import Jaguar.LockSafety
import Jaguar.PrefixCode
import Jaguar.Bytes
import Jaguar.WsFrames
import Jaguar.Server
import Jaguar.Wakeups
import Jaguar.Backends
import Jaguar.ConnOwners
import Jaguar.FrameLog
import Jaguar.WsWire
import Jaguar.WsClose
import Jaguar.DataList
import Jaguar.Http
import Jaguar.Lexer
import Jaguar.Double
import Jaguar.Doubles
import Jaguar.JsonGrammar
import Jaguar.Json
import Jaguar.JsonCursor
import Jaguar.JsonEncoding
import Jaguar.JsonReading
import Jaguar.JsonRoundTrip
import Jaguar.JsonDecoding
import Jaguar.Diagnostics
import Jaguar.Ast
import Jaguar.Parser
import Jaguar.Linter
import Jaguar.Measured
import Jaguar.ParserProgress
import Jaguar.Templates
import Jaguar.Precedence
import Jaguar.HttpSegments
import Jaguar.Routing
import Jaguar.HeaderLines
import Jaguar.HttpClient
import Jaguar.Interpolation
import Jaguar.DollarHoles
import Jaguar.Exec
import Jaguar.CutRuns
import Jaguar.Climb
import Jaguar.ClassTable
import Jaguar.Heap
import Jaguar.Machine
import Jaguar.ClassLinks
import Jaguar.Natives
import Jaguar.Interp
import Jaguar.InterpSteps
import Jaguar.Places
import Jaguar.PlainExprs
import Jaguar.FrameEffect
import Jaguar.Scopes
import Jaguar.EnvTree
import Jaguar.Sessions
import Jaguar.TryCatch
import Jaguar.Callbacks
import Jaguar.MethodLookup
import Jaguar.Spans
import Jaguar.Formatter
import Jaguar.Layout
import Jaguar.Relexing
import Jaguar.HttpRequest
import Jaguar.HttpResponse
import Jaguar.Typecheck
import Jaguar.Comparisons
import Jaguar.CheckSites
import Jaguar.KnownClasses
import Jaguar.VisitsOnce
import Jaguar.ReturnTypes
import Jaguar.OperatorTypes
import Jaguar.Inference
import Jaguar.InferredTypes
import Jaguar.DataOrder
import Jaguar.ErrorState
import Jaguar.Sorting
import Jaguar.RunRules
import Jaguar.LawfulRuns
import Jaguar.Holdings
import Jaguar.MethodCalls
import Jaguar.FieldInit
import Jaguar.ListConcat
import Jaguar.Watched
import Jaguar.FaultWatch
import Jaguar.WatchRules
import Jaguar.WatchedRuns
import Jaguar.FirstError
import Jaguar.PendingError
import Jaguar.LoopCursor
import Jaguar.AugmentedAssign
import Jaguar.NumArith
import Jaguar.TypeText
import Jaguar.HoleErrors
import Jaguar.CountedBuffer
import Jaguar.DisplayBuffer
import Jaguar.HttpExchange
import Jaguar.BlockFeed
import Jaguar.Sha1
import Jaguar.WsHandshake
import Jaguar.LineMaps
import Jaguar.FormattedProgram
import Jaguar.EndOfFile
import Jaguar.Toolchain
