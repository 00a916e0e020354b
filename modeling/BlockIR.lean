import BlockIR.Machine.Dump
import BlockIR.Proofs.Builtins
import BlockIR.Proofs.Course
import BlockIR.Proofs.Depth
import BlockIR.Session
import BlockIR.Syntax.Document
import BlockIR.Proofs.Budget
import BlockIR.Proofs.Arena
import BlockIR.Proofs.Evaluation
import BlockIR.Proofs.Execution
import BlockIR.Proofs.Frame
import BlockIR.Proofs.Lexical
import BlockIR.Proofs.Congruence
import BlockIR.Proofs.Replay
import BlockIR.Proofs.WriteLog
import BlockIR.Proofs.Accounting
import BlockIR.Proofs.Cutoff
import BlockIR.Proofs.Level
import BlockIR.Proofs.Nesting
import BlockIR.Proofs.WordRange
import BlockIR.Proofs.Calling
import BlockIR.Proofs.MovedRuns
import BlockIR.Proofs.Signals
import BlockIR.Proofs.Outline
import BlockIR.Proofs.Abreast
import BlockIR.Proofs.Recast
import BlockIR.Proofs.RecastRuns
import BlockIR.Proofs.Hoisting
import BlockIR.Proofs.Splitting
import BlockIR.Proofs.RoundTrip
import BlockIR.Proofs.Dump
import BlockIR.Proofs.Environment
import BlockIR.Proofs.RenamedRuns
import BlockIR.Proofs.LastWrite
import BlockIR.Proofs.HighWater
import BlockIR.Proofs.Pointing
import BlockIR.Proofs.Unbinding
import BlockIR.Proofs.Footprint
import BlockIR.Proofs.Contract
import BlockIR.Proofs.Size
import BlockIR.Proofs.ReorderedRuns
import BlockIR.Proofs.Signed
import BlockIR.Proofs.Power
import BlockIR.Proofs.Lanes
import BlockIR.Proofs.Layout
import BlockIR.Proofs.Spelling
import BlockIR.Proofs.ArenaTree
