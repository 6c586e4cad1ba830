import SiftMcp.Lib.Prog
import SiftMcp.Lib.RowTable
import SiftMcp.Lib.ExceptSteps
import SiftMcp.Storage.Record
import SiftMcp.Storage.Matrix
import SiftMcp.Storage.Db
import SiftMcp.Storage.Dir
import SiftMcp.Storage.Store
import SiftMcp.Storage.Manifest
import SiftMcp.Storage.MatrixLemmas
import SiftMcp.Storage.Contents
import SiftMcp.Storage.StoreLemmas
import SiftMcp.Storage.Compaction
import SiftMcp.Storage.StoreRuns
import SiftMcp.Storage.CompactFaults
import SiftMcp.Storage.InsertFaults
import SiftMcp.Lib.DocIndex
import SiftMcp.Retrieval.Lexical
import SiftMcp.Indexing.Worktree
import SiftMcp.Indexing.Exclusions
import SiftMcp.Indexing.Git
import SiftMcp.Indexing.Collect
import SiftMcp.Indexing.Pipeline
import SiftMcp.Indexing.Agreement
import SiftMcp.Indexing.Steps
import SiftMcp.Lib.Firsts
import SiftMcp.Lib.Counting
import SiftMcp.Indexing.Work
import SiftMcp.Indexing.Passes
import SiftMcp.Indexing.Histories
import SiftMcp.Indexing.Invariants
import SiftMcp.Indexing.Coverage
import SiftMcp.Indexing.Bodies
import SiftMcp.Indexing.Counters
import SiftMcp.Indexing.Recovery
import SiftMcp.Indexing.Fixpoint
import SiftMcp.Indexing.Locations
import SiftMcp.Indexing.Screening
import SiftMcp.Lib.StackSearch
import SiftMcp.Indexing.Walks
import SiftMcp.Indexing.Pruning
import SiftMcp.Lib.Globs
import SiftMcp.Indexing.TakenUp
import SiftMcp.Indexing.Isolation
import SiftMcp.Lib.Traces
import SiftMcp.Retrieval.Dense
import SiftMcp.Daemon.Protocol
import SiftMcp.Daemon.Resident
import SiftMcp.Daemon.Server
import SiftMcp.Daemon.Effects
import SiftMcp.Daemon.Ownership
import SiftMcp.Daemon.Settling
import SiftMcp.Daemon.FailedIndex
import SiftMcp.Lib.ByteStream
import SiftMcp.Retrieval.Fusion
import SiftMcp.Lib.Least
import SiftMcp.Retrieval.DenseSearch
import SiftMcp.Retrieval.LexicalSearch
import SiftMcp.Retrieval.RankFusion
import SiftMcp.Retrieval.Tokenize
import SiftMcp.Retrieval.Refresh
import SiftMcp.Retrieval.Nearest
import SiftMcp.Daemon.Search
import SiftMcp.Daemon.Codec
import SiftMcp.Daemon.Completion
import SiftMcp.Daemon.Client
import SiftMcp.Daemon.Link
import SiftMcp.McpClient.Server
import SiftMcp.Daemon.Leaving
import SiftMcp.Daemon.Reindexing
import SiftMcp.Daemon.Frozen
import SiftMcp.Daemon.Stability
import SiftMcp.Daemon.Replaced
import SiftMcp.Daemon.Creation
import SiftMcp.Daemon.OneRepository
import SiftMcp.Daemon.WholeSymbols
import SiftMcp.Lib.Utf8Text
import SiftMcp.Indexing.SyntaxTree
import SiftMcp.Indexing.Hash
import SiftMcp.Indexing.Chunker
import SiftMcp.Lib.OptionList
import SiftMcp.Indexing.AttachedDoc
import SiftMcp.Indexing.HardSplit
import SiftMcp.Indexing.Cuts
import SiftMcp.Indexing.Slices
import SiftMcp.Indexing.Fragments
import SiftMcp.Indexing.Members
import SiftMcp.Indexing.Prelude
import SiftMcp.Indexing.Constructs
import SiftMcp.Indexing.Pieces
import SiftMcp.Eval.Mine
import SiftMcp.Eval.Commits
import SiftMcp.Eval.Reports
import SiftMcp.Eval.Touched
import SiftMcp.Lib.TextLines
import SiftMcp.Lib.Utf8Bytes
import SiftMcp.Lib.LittleEndian
import SiftMcp.Lib.MarkedText
import SiftMcp.Lib.PathLookup
import SiftMcp.Storage.HeaderBytes
import SiftMcp.Storage.MatrixRuns
import SiftMcp.Storage.MatrixBytes
import SiftMcp.Storage.MatrixAccess
import SiftMcp.Storage.ReadOnly
import SiftMcp.Indexing.Normalize
import SiftMcp.Indexing.HashInput
import SiftMcp.Indexing.Reindent
import SiftMcp.Indexing.StatusStream
import SiftMcp.Indexing.Renumbering
import SiftMcp.Indexing.LinkedWalk
import SiftMcp.Daemon.RuntimeDir
import SiftMcp.Lib.Framing
import SiftMcp.Lib.RowMajor
import SiftMcp.Inference.Embedder
import SiftMcp.Inference.Artifacts
import SiftMcp.Inference.Pooling
import SiftMcp.Inference.Batches
import SiftMcp.Daemon.StoreUsers
import SiftMcp.Daemon.Transcript
import SiftMcp.Daemon.Searches
import SiftMcp.Inference.DenseScorer
import SiftMcp.Retrieval.CudaDense
import SiftMcp.Daemon.Matches
import SiftMcp.Eval.Evaluation
import SiftMcp.Daemon.Assembly
import SiftMcp.McpClient.Returns
import SiftMcp.Lib.Batches
import SiftMcp.Eval.HeldOut
