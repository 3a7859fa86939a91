import Catbench.Framework.CycleMap
import Catbench.Framework.HullDobell
import Catbench.Framework.Machine
import Catbench.Framework.LTS
import Catbench.Framework.Work
import Catbench.Framework.Signal
import Catbench.Framework.Dict
import Catbench.Framework.OuterJoin
import Catbench.Framework.Shell
import Catbench.Framework.TextLines
import Catbench.Framework.Memory
import Catbench.Framework.Recursion
import Catbench.Framework.RoughOrder
import Catbench.Framework.Getopt
import Catbench.Framework.Decimal
import Catbench.Framework.Empirical
import Catbench.Framework.Chunks
import Catbench.Framework.Passes
import Catbench.Framework.Pieces
import Catbench.Framework.Json.Number
import Catbench.Framework.Json.Str
import Catbench.Framework.Json.Value
import Catbench.Framework.Json.Load
import Catbench.Framework.Json.RoundTrip
import Catbench.Framework.Json.Documents
import Catbench.Framework.Json.Repr
import Catbench.Clients.Rng
import Catbench.Clients.Rng.Limits
import Catbench.Clients.SquareEvictions.Setup
import Catbench.Clients.SquareEvictions.Coverage
import Catbench.Clients.SquareEvictions.Traversal
import Catbench.Clients.SquareEvictions.Pass
import Catbench.Clients.SquareEvictions.Count
import Catbench.Clients.SquareEvictions.Cap
import Catbench.Clients.SquareEvictions.Histogram
import Catbench.Clients.SquareEvictions.Log
import Catbench.Clients.SquareEvictions.Failure
import Catbench.Clients.PtrChase
import Catbench.Clients.LockRoundTrip
import Catbench.Clients.LockServer
import Catbench.Clients.Llc
import Catbench.BenchCommands.Model
import Catbench.BenchCommands.Barrier
import Catbench.BenchCommands.Failure
import Catbench.BenchCommands.Completion
import Catbench.Jaguar.Convert
import Catbench.Jaguar.Model
import Catbench.Jaguar.Lookup
import Catbench.Jaguar.Replace
import Catbench.Jaguar.Commands
import Catbench.Jaguar.SetGet
import Catbench.Jaguar.Intact
import Catbench.Jaguar.Frame
import Catbench.Jaguar.Tokens
import Catbench.Jaguar.Typeless
import Catbench.Jaguar.Undo
import Catbench.Jaguar.Csv
import Catbench.Jaguar.Retry
import Catbench.Jaguar.Index
import Catbench.Jaguar.PathGrammar
import Catbench.Jaguar.PathLanguage
import Catbench.Clients.SquareEvictions.Options
import Catbench.Clients.SquareEvictions.Script
import Catbench.Clients.SquareEvictions.Agreement
import Catbench.CsvMerge.Model
import Catbench.CsvMerge.Table
import Catbench.CsvMerge.Rounds
import Catbench.CsvMerge.Join
import Catbench.NetworkRtt.RecordTrial
import Catbench.NetworkRtt.Zeros
import Catbench.Driver.Command
import Catbench.Batch.Oneline
import Catbench.Batch.Run
import Catbench.Batch.Annotations
import Catbench.GraphHelper.Model
import Catbench.GraphHelper.Order
import Catbench.GraphHelper.Bars
import Catbench.CsvMerge.Align
import Catbench.DataAnalysis.MakeCdf
import Catbench.DataAnalysis.FindZipfN
import Catbench.Driver.Rearrange
import Catbench.Driver.PickCore
import Catbench.GraphHelper.Crossings
import Catbench.NetworkRtt.RawNums
import Catbench.Combine.Model
import Catbench.Combine.Normalized
import Catbench.PostProcess.Model
import Catbench.PostProcess.Loops
import Catbench.PostProcess.Fields
import Catbench.PostProcess.Tables
import Catbench.PostProcess.Idempotent
import Catbench.ArrCsv.Model
import Catbench.ArrCsv.Pipeline
import Catbench.ArrCsv.Records
import Catbench.ArrCsv.PrintsBack
import Catbench.Framework.Json.Quotes
import Catbench.Framework.Json.Layouts
import Catbench.Strip.Model
import Catbench.Strip.Lines
import Catbench.Strip.Patterns
import Catbench.Strip.Removes
import Catbench.Strip.Exact
import Catbench.Framework.Layout
import Catbench.Clients.SquareEvictions.Factors
import Catbench.PerfExpl
import Catbench.Framework.Checksum
import Catbench.TestPmd.Ports
import Catbench.TestPmd.Streams
import Catbench.TestPmd.Mbuf
import Catbench.TestPmd.Words
import Catbench.TestPmd.IcmpEcho
import Catbench.TestPmd.FlowGen
import Catbench.TestPmd.TxOnly
import Catbench.TestPmd.PktSplit
import Catbench.TestPmd.CsumOnly
import Catbench.TestPmd.CsumDissect
import Catbench.TestPmd.CsumChecks
import Catbench.TestPmd.CsumBursts
import Catbench.TestPmd.Engines
import Catbench.TestPmd.Custody
import Catbench.TestPmd.Items
import Catbench.TestPmd.Selection
