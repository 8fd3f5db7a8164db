import AegisCompiler.NodeKind
import AegisCompiler.SeaOfNodesGraph
import AegisCompiler.WordArithmetic
import AegisCompiler.SequentialMoves
import AegisCompiler.SyntaxTree
import AegisCompiler.Parser
import AegisCompiler.TypedBindings
import AegisCompiler.ParserRoundTrip
import AegisCompiler.FormatterRoundTrip
import AegisCompiler.HashConsing
import AegisCompiler.Lowering
import AegisCompiler.LoweringInduction
import AegisCompiler.LoweringParams
import AegisCompiler.SccpLattice
import AegisCompiler.SccpValuation
import AegisCompiler.SccpRewrite
import AegisCompiler.SccpTransfer
import AegisCompiler.SccpSweeps
import AegisCompiler.SccpSoundness
import AegisCompiler.Edce
import AegisCompiler.PassEdits
import AegisCompiler.MachineIR
import AegisCompiler.MachineExec
import AegisCompiler.InstrSelShapes
import AegisCompiler.InstrSelCollect
import AegisCompiler.InstrSelOwnership
import AegisCompiler.InstrSelEmit
import AegisCompiler.InstrSelLower
import AegisCompiler.InstrSelBackEdges
import AegisCompiler.InstrSelInduction
import AegisCompiler.InstrSelParams
import AegisCompiler.ParameterIndex
import AegisCompiler.LoweringCorrect
import AegisCompiler.LoweringFrame
import AegisCompiler.AssignmentForms
import AegisCompiler.CarriedVariables
import AegisCompiler.LinearScan
import AegisCompiler.CallSpanning
import AegisCompiler.FlowSpans
import AegisCompiler.LiveIntervals
import AegisCompiler.InductionVariablesExact
import AegisCompiler.LoopUnrollingExact
import AegisCompiler.LoopFusionExact
import AegisCompiler.GraphOperations
import AegisCompiler.EncodedInstructions
import AegisCompiler.StackAlignment
import AegisCompiler.HashCollisions
import AegisCompiler.PassManager
import AegisCompiler.JitEngine
import AegisCompiler.StrengthReduction
import AegisCompiler.SwissTableHistory
import AegisCompiler.SmallVectorPrograms
import AegisCompiler.PromotedAllocs
import AegisCompiler.SpeculativeOperands
import AegisCompiler.ParallelMoves
import AegisCompiler.EdceExact
import AegisCompiler.EffectChainPasses
import AegisCompiler.EscapePaths
import AegisCompiler.SccpFolding
import AegisCompiler.CopyPropagation
import AegisCompiler.LoopEntries
import AegisCompiler.ScevRecurrences
import AegisCompiler.ScevTripCounts
import AegisCompiler.LoweredControl
import AegisCompiler.GoverningBranch
import AegisCompiler.StraightLineRuns
import AegisCompiler.MoveCycles
import AegisCompiler.EncodingFailures
import AegisCompiler.LinkedTargets
import AegisCompiler.SparseSetRuns
import AegisCompiler.IntegerLiterals
import AegisCompiler.CommentEnds
import AegisCompiler.ParserLoops
import AegisCompiler.SLPVectorization
import AegisCompiler.PointerExecutions
import AegisCompiler.BitVectorRuns
import AegisCompiler.EffectContinuity
import AegisCompiler.ProfileData
import AegisCompiler.PageReclamation
import AegisCompiler.BumpAllocator
import AegisCompiler.PoolSlots
import AegisCompiler.SccpTermination
import AegisCompiler.SymbolTable
import AegisCompiler.Channel
import AegisCompiler.SourceImages
import AegisCompiler.PipelineEdits
import AegisCompiler.PipelineImages
