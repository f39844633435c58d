import StackScript.Main
import StackScript.Session
import StackScript.Proofs.Cache.Entries
import StackScript.Proofs.Session.Transparency
import StackScript.Proofs.Session.Capture
import StackScript.Proofs.Execution.Course
import StackScript.Proofs.Execution.Interleaving
import StackScript.Proofs.Execution.Limit
import StackScript.Proofs.Arithmetic
import StackScript.Proofs.Numeral
import StackScript.Proofs.Machine.Ideal
import StackScript.Proofs.Text.Layout
import StackScript.Proofs.Text.Split
import StackScript.Proofs.Code.Printing
import StackScript.Proofs.Template.Directive
import StackScript.Proofs.Template.Grammar
import StackScript.Proofs.Template.Substitution
import StackScript.Proofs.Execution.Concatenation
import StackScript.Proofs.Cache.Fetch
import StackScript.Proofs.CommandLine.Passes
import StackScript.Proofs.Session.Caching
import StackScript.Proofs.Cache.Overrun
import StackScript.Proofs.Execution.Trace
import StackScript.Proofs.Code.Classification
import StackScript.Proofs.Division
import StackScript.Proofs.Template.FirstError
import StackScript.Proofs.Template.Malformed
import StackScript.Proofs.Template.Concatenation
import StackScript.Proofs.Machine.Operands
import StackScript.Proofs.Execution.EmptyStack
import StackScript.Proofs.Execution.Rounding
import StackScript.Proofs.Text.Trim
import StackScript.Proofs.Numeral.Spelling
import StackScript.Proofs.Binding
import StackScript.Proofs.Bindings
import StackScript.Proofs.Text.Utf8
import StackScript.Proofs.CommandLine.Arguments
import StackScript.Proofs.CommandLine.ProgramText
import StackScript.Proofs.Numeral.Whole
import StackScript.Proofs.Text.Tokens
import StackScript.Proofs.Machine.Text
import StackScript.Proofs.Messages
import StackScript.Proofs.CommandLine.Options
import StackScript.Proofs.CommandLine.Spelling
