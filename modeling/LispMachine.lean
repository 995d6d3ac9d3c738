import LispMachine.Arity
import LispMachine.Assoc
import LispMachine.Cell
import LispMachine.Code
import LispMachine.CommandLine
import LispMachine.CommandLine.Arguments
import LispMachine.CommandLine.Folder
import LispMachine.CommandLine.Line
import LispMachine.CommandLine.Repl
import LispMachine.CommandLine.Shell
import LispMachine.Compiler
import LispMachine.Config
import LispMachine.Config.Text
import LispMachine.Double
import LispMachine.Draft
import LispMachine.Error
import LispMachine.Grapheme
import LispMachine.Grapheme.Table
import LispMachine.Heap
import LispMachine.Heap.Collect
import LispMachine.Heap.Stats
import LispMachine.Journal
import LispMachine.Json
import LispMachine.Machine
import LispMachine.Machine.Call
import LispMachine.Machine.Frame
import LispMachine.Machine.Natives
import LispMachine.Machine.Step
import LispMachine.Machine.Watched
import LispMachine.Main
import LispMachine.Native
import LispMachine.Opcode
import LispMachine.Opcode.Listing
import LispMachine.Printer
import LispMachine.Proofs.CommandLine.Agreement
import LispMachine.Proofs.CommandLine.Lines
import LispMachine.Proofs.CommandLine.Options
import LispMachine.Proofs.CommandLine.Transcript
import LispMachine.Proofs.Compiler.Acceptance
import LispMachine.Proofs.Compiler.Backdrop
import LispMachine.Proofs.Compiler.Contract
import LispMachine.Proofs.Compiler.Correctness
import LispMachine.Proofs.Compiler.Emission
import LispMachine.Proofs.Compiler.Expansion
import LispMachine.Proofs.Compiler.Failure
import LispMachine.Proofs.Compiler.Form
import LispMachine.Proofs.Compiler.Layout
import LispMachine.Proofs.Compiler.Scopes
import LispMachine.Proofs.Compiler.Simulation
import LispMachine.Proofs.Compiler.Verified
import LispMachine.Proofs.Heap.Accounting
import LispMachine.Proofs.Heap.Bookkeeping
import LispMachine.Proofs.Heap.Collect
import LispMachine.Proofs.Heap.FreeList
import LispMachine.Proofs.Heap.Lists
import LispMachine.Proofs.Heap.Marking
import LispMachine.Proofs.Machine.Arithmetic
import LispMachine.Proofs.Machine.Containment
import LispMachine.Proofs.Machine.Effect
import LispMachine.Proofs.Machine.Exhaustion
import LispMachine.Proofs.Machine.Frames
import LispMachine.Proofs.Machine.Growth
import LispMachine.Proofs.Machine.Safety
import LispMachine.Proofs.Machine.StraightLine
import LispMachine.Proofs.Machine.Tandem
import LispMachine.Proofs.Opcode.Listing
import LispMachine.Proofs.Reader.Balance
import LispMachine.Proofs.Reader.Completeness
import LispMachine.Proofs.Reader.RoundTrip
import LispMachine.Proofs.Reader.Tiling
import LispMachine.Proofs.Toplevel.Backdrop
import LispMachine.Proofs.Toplevel.Creation
import LispMachine.Proofs.Toplevel.Definitions
import LispMachine.Proofs.Toplevel.Development
import LispMachine.Proofs.Toplevel.Exhaustion
import LispMachine.Proofs.Toplevel.Founded
import LispMachine.Proofs.Toplevel.Handles
import LispMachine.Proofs.Toplevel.Isolation
import LispMachine.Proofs.Toplevel.Nesting
import LispMachine.Proofs.Toplevel.Safety
import LispMachine.Proofs.Toplevel.Showing
import LispMachine.Proofs.Toplevel.Symbols
import LispMachine.Proofs.Twins.Collecting
import LispMachine.Proofs.Twins.Compile
import LispMachine.Proofs.Twins.Reader
import LispMachine.Proofs.Twins.Session
import LispMachine.Reader
import LispMachine.Ref
import LispMachine.Registry
import LispMachine.Store
import LispMachine.Text
import LispMachine.Token
import LispMachine.Token.Lexer
import LispMachine.Toplevel
