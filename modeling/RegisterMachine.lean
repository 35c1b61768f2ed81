import RegisterMachine.AssociationList
import RegisterMachine.Numeral
import RegisterMachine.Text
import RegisterMachine.Decimal
import RegisterMachine.Binary32
import RegisterMachine.Register
import RegisterMachine.Opcode
import RegisterMachine.Instruction
import RegisterMachine.Fault
import RegisterMachine.Word
import RegisterMachine.Space
import RegisterMachine.DisplayWidth
import RegisterMachine.Table
import RegisterMachine.SpaceTable
import RegisterMachine.Store
import RegisterMachine.Program
import RegisterMachine.AssemblyError
import RegisterMachine.Listing
import RegisterMachine.Argument
import RegisterMachine.Assembly
import RegisterMachine.SystemCall
import RegisterMachine.HostCall
import RegisterMachine.Machine
import RegisterMachine.Trace
import RegisterMachine.Options
import RegisterMachine.Disk
import RegisterMachine.Command
import RegisterMachine.Main
import RegisterMachine.Proofs.ArgumentGrammar
import RegisterMachine.Proofs.InstructionFields
import RegisterMachine.Proofs.ByteForm
import RegisterMachine.Proofs.OperationGrammar
import RegisterMachine.Proofs.LabelOffsets
import RegisterMachine.Proofs.ListingGrammar
import RegisterMachine.Proofs.CanonicalListing
import RegisterMachine.Proofs.LabelResolution
import RegisterMachine.Proofs.OperationErrors
import RegisterMachine.Proofs.ListingErrors
import RegisterMachine.Proofs.Effect
import RegisterMachine.Proofs.Unchanged
import RegisterMachine.Proofs.RunSteps
import RegisterMachine.Proofs.Simulation
import RegisterMachine.Proofs.ListStack
import RegisterMachine.Proofs.EagerStore
import RegisterMachine.Proofs.FaultChecks
import RegisterMachine.Proofs.FaultStates
import RegisterMachine.Proofs.ListSteps
import RegisterMachine.Proofs.CallBrackets
import RegisterMachine.Proofs.EnclosedControl
import RegisterMachine.Proofs.TracedRuns
import RegisterMachine.Proofs.UnreadRegisters
import RegisterMachine.Proofs.Relocation
import RegisterMachine.Proofs.Layout
import RegisterMachine.Proofs.ExactArithmetic
import RegisterMachine.Proofs.ExactShifts
import RegisterMachine.Proofs.Footprint
import RegisterMachine.Proofs.DiskFiles
import RegisterMachine.Proofs.EmittedPrograms
import RegisterMachine.Proofs.StackInverse
import RegisterMachine.Proofs.ForwardPrograms
import RegisterMachine.Proofs.CallHistory
import RegisterMachine.Proofs.LabelNames
import RegisterMachine.Proofs.InstructionPacking
import RegisterMachine.Proofs.PrintedText
import RegisterMachine.Proofs.ProgramText
import RegisterMachine.Proofs.SpaceText
import RegisterMachine.Proofs.TableText
import RegisterMachine.Proofs.WordTables
import RegisterMachine.Proofs.MachineText
