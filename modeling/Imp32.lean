import Imp32.Editor.Server
import Imp32.Highlight
import Imp32.Main
import Imp32.Proofs.Grammar.Complete
import Imp32.Proofs.Nesting
import Imp32.Proofs.Munch
import Imp32.Proofs.Backend.Arm64.Behaviour
import Imp32.Proofs.Backend.X86.Behaviour
import Imp32.Proofs.Stack.Programs
import Imp32.Proofs.Listing.Programs
import Imp32.Proofs.Positions
import Imp32.Proofs.Progress
import Imp32.Proofs.Outlines
import Imp32.Proofs.Reading.Balance
import Imp32.Proofs.Values
import Imp32.Proofs.Totality
import Imp32.Proofs.ErrorPlaces
import Imp32.Proofs.Editing.Names
import Imp32.Proofs.Editing.Layout
import Imp32.Proofs.Joining.Programs
import Imp32.Proofs.Spans.Reports
import Imp32.Proofs.Unassigned
import Imp32.Proofs.DeadLoops
import Imp32.Proofs.Highlighting.Kinds
import Imp32.Proofs.Spans.Parts
import Imp32.Proofs.Commands.Effects
import Imp32.Proofs.Brevity
import Imp32.Proofs.Limits
import Imp32.Proofs.Heights
import Imp32.Proofs.Arithmetic
import Imp32.Proofs.Unbounded
import Imp32.Proofs.Footprint
import Imp32.Proofs.Stack.Frames
import Imp32.Proofs.Listing.Far
import Imp32.Proofs.Compiler.Renaming
import Imp32.Proofs.FirstTargets
import Imp32.Proofs.Carets
import Imp32.Proofs.Joining.Blanks
import Imp32.Proofs.Listing.Fresh
import Imp32.Proofs.Indentation
