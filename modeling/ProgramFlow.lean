import ProgramFlow.Assembler.Op
import ProgramFlow.Config.Yaml
import ProgramFlow.FlowGraph.Position
import ProgramFlow.Json.Pretty
import ProgramFlow.Report
import ProgramFlow.Script.Document
import ProgramFlow.Script.Stop
import ProgramFlow.Proofs.BlockDominance
import ProgramFlow.Proofs.MemberQueries
import ProgramFlow.Proofs.SharedNodes
import ProgramFlow.Proofs.Offering
import ProgramFlow.Proofs.NodeLimit
import ProgramFlow.Proofs.CallLinks
import ProgramFlow.Proofs.ByteOrder
import ProgramFlow.Proofs.CallAccounting
import ProgramFlow.Proofs.CallClosure
import ProgramFlow.Proofs.Registration
import ProgramFlow.Proofs.DominatorMemory
import ProgramFlow.Proofs.ModifierText
import ProgramFlow.Proofs.ParameterLinks
import ProgramFlow.Proofs.DocumentForm
import ProgramFlow.Proofs.GraphReading
import ProgramFlow.Proofs.Paths
import ProgramFlow.Proofs.CallMerging
import ProgramFlow.Proofs.BlockLines
import ProgramFlow.Proofs.InsertionOrder
import ProgramFlow.Proofs.GraphIndex
import ProgramFlow.Proofs.NodesBetween
import ProgramFlow.Proofs.BlockExtent
import ProgramFlow.Proofs.ConstrainedNodes
import ProgramFlow.Proofs.AddedMembers
import ProgramFlow.Proofs.NarrowestFirst
import ProgramFlow.Proofs.RefusedOperations
import ProgramFlow.Proofs.RepeatedPasses
import ProgramFlow.Proofs.BlockMappings
import ProgramFlow.Proofs.FirstReferences
import ProgramFlow.Proofs.ConfigText
