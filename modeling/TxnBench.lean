import TxnBench.Collection.Faulty
import TxnBench.Collection.Session
import TxnBench.Main
import TxnBench.Proofs.Benchmarks
import TxnBench.Proofs.CommandLine
import TxnBench.Proofs.DryRunFlag
import TxnBench.Proofs.Files
import TxnBench.Proofs.Outcomes
import TxnBench.Proofs.Partition
import TxnBench.Proofs.PrintedReports
import TxnBench.Proofs.Program.Runs
import TxnBench.Proofs.Program.Traces
import TxnBench.Proofs.Records.Rows
import TxnBench.Proofs.Records.Sessions
import TxnBench.Proofs.Records.Shared
import TxnBench.Proofs.Sequential.Batches
import TxnBench.Proofs.Sequential.Bench
import TxnBench.Proofs.Sequential.BrokenWorkers
import TxnBench.Proofs.Sequential.KeptBatches
import TxnBench.Proofs.Sequential.NewKeys
import TxnBench.Proofs.Sequential.Populate
import TxnBench.Proofs.Sequential.SteadyWorkers
import TxnBench.Proofs.Sequential.Striped
import TxnBench.Proofs.Sequential.UndoLog
import TxnBench.Proofs.Sequential.Workers
import TxnBench.Proofs.Striped.AnyState
import TxnBench.Proofs.Striped.Conflicts
import TxnBench.Proofs.Striped.Coverage
import TxnBench.Proofs.Striped.FinerStripes
import TxnBench.Proofs.Striped.Invisibility
import TxnBench.Proofs.Striped.Opacity
import TxnBench.Proofs.Striped.PackedWords
import TxnBench.Proofs.Striped.Publishing
import TxnBench.Proofs.Striped.Representation
import TxnBench.Proofs.Striped.Serializability
import TxnBench.Proofs.Striped.Workers
import TxnBench.Proofs.Text.Numerals
import TxnBench.Proofs.Workers.Accounting
import TxnBench.Proofs.Workers.Batches
import TxnBench.Proofs.Workload
import TxnBench.Proofs.Workload.Composition
import TxnBench.Proofs.Workload.Generate
