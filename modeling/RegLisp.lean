import RegLisp.Command.Run
import RegLisp.Files.Tree
import RegLisp.Main
import RegLisp.Proofs.Allocation
import RegLisp.Proofs.ArgumentTypes
import RegLisp.Proofs.CodeLayout
import RegLisp.Proofs.CompiledModule
import RegLisp.Proofs.FormCases
import RegLisp.Proofs.FrameIsolation
import RegLisp.Proofs.GenerationPasses
import RegLisp.Proofs.InstructionForms
import RegLisp.Proofs.LinkedProgram
import RegLisp.Proofs.LinkAcceptance
import RegLisp.Proofs.LinkOrder
import RegLisp.Proofs.LinkResolution
import RegLisp.Proofs.Linking
import RegLisp.Proofs.LinkerRounds
import RegLisp.Proofs.ModuleFormat
import RegLisp.Proofs.PendingCalls
import RegLisp.Proofs.Reloading
import RegLisp.Proofs.RegisterSafety
import RegLisp.Proofs.StepEffects
import RegLisp.Proofs.AllocationMoments
import RegLisp.Proofs.ControlSafety
import RegLisp.Proofs.Evaluation
import RegLisp.Proofs.Limits
import RegLisp.Proofs.Segments
import RegLisp.Proofs.Simulation
import RegLisp.Proofs.CompilerCorrectness
import RegLisp.Proofs.CallDepth
import RegLisp.Proofs.FunctionTable
import RegLisp.Proofs.CallSignatures
import RegLisp.Proofs.PoolIntegrity
import RegLisp.Proofs.FrameSizes
import RegLisp.Proofs.Parentheses
import RegLisp.Proofs.SurfaceForms
import RegLisp.Proofs.TextPieces
import RegLisp.Proofs.PrintedForms
import RegLisp.Proofs.Faults
import RegLisp.Proofs.CodeRanges
import RegLisp.Proofs.TruncatedFiles
import RegLisp.Proofs.ModulePlacement
import RegLisp.Proofs.SlotSignatures
import RegLisp.Proofs.Resetting
import RegLisp.Proofs.ExactCasts
import RegLisp.Proofs.CodePaths
import RegLisp.Proofs.RegisterDiscipline
import RegLisp.Proofs.FrameReach
import RegLisp.Proofs.ScopeHistory
