import Nameless.Main
import Nameless.Surface.Cursor
import Nameless.Surface.Progress
import Nameless.Proofs.Term.Instantiate
import Nameless.Proofs.Term.Slot
import Nameless.Proofs.Term.Step
import Nameless.Proofs.Term.Alike
import Nameless.Proofs.Term.Parallel
import Nameless.Proofs.Term.Occurrences
import Nameless.Proofs.Term.Lowering
import Nameless.Proofs.Term.Uses
import Nameless.Proofs.Term.Leftmost
import Nameless.Proofs.Term.Weight
import Nameless.Proofs.Term.Outermost
import Nameless.Proofs.Term.Scope
import Nameless.Proofs.Reduction.Derivation
import Nameless.Proofs.Reduction.Reducer
import Nameless.Proofs.Reduction.Confluence
import Nameless.Proofs.Reduction.Resumption
import Nameless.Proofs.Reduction.Frame
import Nameless.Proofs.Reduction.Machine
import Nameless.Proofs.Reduction.Budget
import Nameless.Proofs.Reduction.Interruption
import Nameless.Proofs.Reduction.Correspondence
import Nameless.Proofs.Surface.Grammar
import Nameless.Proofs.Surface.Lookahead
import Nameless.Proofs.Surface.Acceptance
import Nameless.Proofs.Surface.Naming
import Nameless.Proofs.Surface.Unambiguous
import Nameless.Proofs.Surface.RoundTrip
import Nameless.Proofs.Surface.Outlook
import Nameless.Proofs.Surface.Completion
import Nameless.Proofs.Reduction.Printable
import Nameless.Proofs.Surface.Canonical
import Nameless.Proofs.Text.Filling
import Nameless.Proofs.Text.Braces
import Nameless.Proofs.Surface.Message
import Nameless.Proofs.Surface.Place
import Nameless.Proofs.Surface.Motion
import Nameless.Proofs.Surface.ViablePrefix
import Nameless.Proofs.Task
import Nameless.Proofs.Console.Announcement
import Nameless.Proofs.Console.Mishap
import Nameless.Proofs.Console.Diagnosis
import Nameless.Proofs.Surface.Outcome
import Nameless.Proofs.Text.Blank
import Nameless.Proofs.Text.Words
import Nameless.Proofs.Text.Numeral
import Nameless.Proofs.Text.Encoding
import Nameless.Proofs.Surface.Spacing
import Nameless.Proofs.Session.Comment
import Nameless.Proofs.Session.Assembly
import Nameless.Proofs.Session.Grouping
import Nameless.Proofs.Session.Statement
import Nameless.Proofs.Session.Unfinished
import Nameless.Proofs.Session.Prompt
import Nameless.Proofs.Session.Opening
import Nameless.Proofs.Session.Office
import Nameless.Proofs.Session.Sharing
import Nameless.Proofs.CommandLine.Batch
import Nameless.Proofs.Shell.Invariant
import Nameless.Proofs.Shell.Agreement
