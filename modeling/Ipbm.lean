import Ipbm.Dataplane.Defs
import Ipbm.Dataplane.KeyPacker
import Ipbm.Dataplane.Matcher
import Ipbm.Dataplane.MatcherProperties
import Ipbm.Dataplane.KeyPackerProperties
import Ipbm.Dataplane.KeyLayout
import Ipbm.Dataplane.KeyConcatenation
import Ipbm.Dataplane.KeyInjectivity
import Ipbm.Controller.ModTable
import Ipbm.Dataplane.Executor
import Ipbm.Dataplane.ExecutorProperties
import Ipbm.System.TableEntry
import Ipbm.System.MatchKey
import Ipbm.Compiler.Ast
import Ipbm.Compiler.Gateway
import Ipbm.Controller.ExtractGateway
import Ipbm.Dataplane.GatewayProperties
import Ipbm.System.GatewayDecision
import Ipbm.Compiler.ActionManager
import Ipbm.Compiler.StageManager
import Ipbm.Compiler.TableManager
import Ipbm.Compiler.ProcessorManager
import Ipbm.Compiler.Distribution
import Ipbm.Compiler.Memory
import Ipbm.Compiler.Builder
import Ipbm.Compiler.ProcessorManagerProperties
import Ipbm.Compiler.DistributionProperties
import Ipbm.Compiler.BuilderProperties
import Ipbm.Compiler.ProcessorsProperties
import Ipbm.Compiler.AllocationProperties
import Ipbm.Compiler.References
import Ipbm.Compiler.MemoryProperties
import Ipbm.Compiler.Blocks
import Ipbm.Dataplane.Parser
import Ipbm.Dataplane.Pipeline
import Ipbm.Dataplane.Lookup
import Ipbm.Controller.ExtractConfig
import Ipbm.System.ParserEntry
import Ipbm.Compiler.HeaderManager
import Ipbm.Dataplane.Switch
import Ipbm.System.MetadataLayout
import Ipbm.Compiler.Compilation
import Ipbm.Dataplane.PipelineProperties
import Ipbm.System.KeylessTable
import Ipbm.Controller.ExtractProperties
import Ipbm.Compiler.BlockRuns
import Ipbm.Compiler.Numbering
import Ipbm.System.SharedMemory
import Ipbm.System.Capacity
import Ipbm.Compiler.Runtime
import Ipbm.System.SelectableActions
import Ipbm.Dataplane.RunProperties
import Ipbm.System.FrameBytes
import Ipbm.Compiler.P4Translation
import Ipbm.Dataplane.FieldWrites
import Ipbm.System.DroppedPacket
import Ipbm.Compiler.Incremental
import Ipbm.Compiler.IncrementalProperties
import Ipbm.Compiler.IncrementalUpdate
import Ipbm.Dataplane.Targets
import Ipbm.Dataplane.Termination
import Ipbm.System.InServiceUpdate
import Ipbm.System.ParserChain
import Ipbm.Compiler.Coverage
import Ipbm.Compiler.Elimination
import Ipbm.Compiler.EliminationRuns
import Ipbm.Lib.Paths
import Ipbm.Lib.Pointwise
import Ipbm.Lib.Simulation
import Ipbm.Compiler.Placement
import Ipbm.Compiler.DistributedLevels
import Ipbm.System.ExpressionMessage
import Ipbm.System.ExpressionMeaning
import Ipbm.Compiler.UpdateKey
import Ipbm.System.TableCommands
import Ipbm.Compiler.Lexer
import Ipbm.Compiler.Grammar
import Ipbm.Compiler.P4Parameter
import Ipbm.Compiler.ExpressionText
import Ipbm.Compiler.P4Pipeline
import Ipbm.Compiler.P4Stages
import Ipbm.Lib.Overrides
import Ipbm.Compiler.Declarations
import Ipbm.System.HitMiss
import Ipbm.Lib.Omission
import Ipbm.Compiler.RuntimeRuns
import Ipbm.Lib.Extraction
import Ipbm.Compiler.P4Parser
import Ipbm.Compiler.ParserGrammar
import Ipbm.Compiler.ParserText
import Ipbm.Lib.PointerChain
import Ipbm.Compiler.Renumbering
import Ipbm.Lib.DirectMapped
import Ipbm.Dataplane.ExactTable
import Ipbm.Dataplane.TableCalls
import Ipbm.Dataplane.ThreadStates
import Ipbm.Dataplane.TableReuse
import Ipbm.Dataplane.ClearedTable
import Ipbm.Dataplane.TcamTable
import Ipbm.System.LongestPrefix
import Ipbm.Dataplane.BlockCopies
import Ipbm.System.EntryCopies
import Ipbm.System.ValidityKey
import Ipbm.Compiler.LevelRuns
import Ipbm.Compiler.ParsePath
import Ipbm.Dataplane.FieldReads
import Ipbm.Dataplane.FieldAssignment
import Ipbm.Dataplane.ParserSteps
import Ipbm.Dataplane.TransitionKey
import Ipbm.Dataplane.TransitionLookup
import Ipbm.Dataplane.ParserClear
import Ipbm.System.ParsedHeaders
import Ipbm.System.SelectKey
import Ipbm.Dataplane.GatewayRuns
import Ipbm.Dataplane.ProcessorCalls
import Ipbm.Dataplane.Overwriting
import Ipbm.Controller.ProcessorPush
import Ipbm.System.Reconfiguration
import Ipbm.Dataplane.OperandReads
import Ipbm.Dataplane.ExpressionValues
import Ipbm.Dataplane.ParameterDecoding
import Ipbm.Dataplane.FieldRoundTrip
import Ipbm.Lib.BinaryCounter
import Ipbm.System.MissParameters
import Ipbm.Compiler.P4Condition
import Ipbm.Compiler.UpdateKeyProperties
import Ipbm.Legacy.LogicTcam
import Ipbm.Legacy.LogicTcamRuns
import Ipbm.Legacy.LogicSram
import Ipbm.Legacy.LogicSramRuns
import Ipbm.Legacy.Executor
import Ipbm.Lib.OnesSum
import Ipbm.Legacy.Checksum
import Ipbm.Compiler.TopologicalSort
import Ipbm.Compiler.NeededLevels
import Ipbm.Compiler.ParseOrder
import Ipbm.Json.Lexer
import Ipbm.Json.Parser
import Ipbm.Json.Documents
import Ipbm.Compiler.IpsaOutput
import Ipbm.Compiler.Document
import Ipbm.Compiler.DocumentProperties
import Ipbm.Controller.DesignFile
import Ipbm.Controller.DesignReading
import Ipbm.System.ConfigurationFile
import Ipbm.Controller.UpdateFile
import Ipbm.System.CommandFiles
import Ipbm.Lib.Lockstep
import Ipbm.Dataplane.Relocation
import Ipbm.Dataplane.RelocatedRuns
import Ipbm.Controller.RelocatedPush
import Ipbm.System.StagePipeline
import Ipbm.System.StageCommands
import Ipbm.Lib.Productions
import Ipbm.Compiler.ProgramGrammar
import Ipbm.Compiler.ProgramReading
import Ipbm.Compiler.ParserReading
import Ipbm.Compiler.ProgramTree
import Ipbm.Compiler.P4HitMiss
import Ipbm.Controller.PushedProcessor
