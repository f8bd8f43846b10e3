import NativeBackend.Tree.Reading
import NativeBackend.Tree.Sketch
import NativeBackend.Tree.Writing
import NativeBackend.Image.Elf
import NativeBackend.Inspect.Pattern
import NativeBackend.Inspect.Routines
import NativeBackend.CommandLine.FileTree
import NativeBackend.Main
import NativeBackend.Proofs.Execution.Memory
import NativeBackend.Proofs.Execution.Processor
import NativeBackend.Proofs.Layout.FieldPlaces
import NativeBackend.Proofs.Source.Evaluation
import NativeBackend.Proofs.Layout.FrameSlots
import NativeBackend.Proofs.Code.Operators
import NativeBackend.Proofs.Code.Stack
import NativeBackend.Proofs.Code.Lines
import NativeBackend.Proofs.Code.Expressions
import NativeBackend.Proofs.Emission.Runs
import NativeBackend.Proofs.Emission.Assembled
import NativeBackend.Proofs.Emission.StaticAddresses
import NativeBackend.Proofs.Preservation.Expressions
import NativeBackend.Proofs.Emission.Linking
import NativeBackend.Proofs.Emission.WholeProgram
import NativeBackend.Proofs.Execution.Counter
import NativeBackend.Proofs.Encoding.OperandShapes
import NativeBackend.Proofs.Code.Placement
import NativeBackend.Proofs.Code.Paths
import NativeBackend.Proofs.Source.Statements
import NativeBackend.Proofs.Code.Frames
import NativeBackend.Proofs.Code.Statements
import NativeBackend.Proofs.Code.Bodies
import NativeBackend.Proofs.Preservation.Routines
import NativeBackend.Proofs.Text.ByteOrder
import NativeBackend.Proofs.Source.Calls
import NativeBackend.Proofs.Emission.CallSteps
import NativeBackend.Proofs.Linking.CallSites
import NativeBackend.Proofs.Linking.Unresolved
import NativeBackend.Proofs.Linking.ByName
import NativeBackend.Proofs.Linking.Hiding
import NativeBackend.Proofs.Linking.ByReference
import NativeBackend.Proofs.Decoding.RoundTrip
import NativeBackend.Proofs.OperandStack.Discipline
import NativeBackend.Proofs.Emission.Stages
import NativeBackend.Proofs.Branches.Arithmetic
import NativeBackend.Proofs.Branches.Placement
import NativeBackend.Proofs.Linking.EntryPoint
import NativeBackend.Proofs.ControlFlow.Flow
import NativeBackend.Proofs.ControlFlow.StackPointer
import NativeBackend.Proofs.ControlFlow.Tracking
import NativeBackend.Proofs.ControlFlow.Passing
import NativeBackend.Proofs.ControlFlow.Integrity
import NativeBackend.Proofs.Emission.Reach
import NativeBackend.Proofs.Emission.Plan
import NativeBackend.Proofs.Code.Opening
import NativeBackend.Proofs.Code.StageCode
import NativeBackend.Proofs.Source.Uses
import NativeBackend.Proofs.Emission.Leaves
import NativeBackend.Proofs.Rejection.Refusals
import NativeBackend.Proofs.Rejection.Faults
import NativeBackend.Proofs.Rejection.Programs
import NativeBackend.Proofs.Rejection.Trees
import NativeBackend.Proofs.Rejection.Undeclared
import NativeBackend.Proofs.Layout.StaticRanks
import NativeBackend.Proofs.Layout.Scoping
import NativeBackend.Proofs.Layout.FieldSlots
import NativeBackend.Proofs.Storage.References
import NativeBackend.Proofs.Storage.Loads
import NativeBackend.Proofs.Emission.Forms
import NativeBackend.Proofs.Image.Header
import NativeBackend.Proofs.Storage.StaticWords
import NativeBackend.Proofs.Code.Calls
import NativeBackend.Proofs.Preservation.CallFrames
import NativeBackend.Proofs.Streams.Edits
import NativeBackend.Proofs.Storage.Relocation
import NativeBackend.Proofs.Image.Compilation
import NativeBackend.Proofs.Image.AddressSpace
import NativeBackend.Proofs.Image.Loading
import NativeBackend.Proofs.Json.Nesting
import NativeBackend.Proofs.Tree.RoundTrip
import NativeBackend.Proofs.Tree.Spellings
import NativeBackend.Proofs.Inspect.RoutineSlices
import NativeBackend.Proofs.Inspect.PatternSearch
import NativeBackend.Proofs.Image.Listing
import NativeBackend.Proofs.CommandLine.LoadAddresses
