import Recognizer.Main
import Recognizer.Proofs.Automaton.Alias
import Recognizer.Proofs.Automaton.Drawing
import Recognizer.Proofs.Automaton.FragmentShape
import Recognizer.Proofs.Automaton.Interning
import Recognizer.Proofs.Automaton.Label
import Recognizer.Proofs.Automaton.Ledger
import Recognizer.Proofs.Automaton.Liveness
import Recognizer.Proofs.Automaton.Lookup
import Recognizer.Proofs.Automaton.Reduced
import Recognizer.Proofs.Automaton.Shortlex
import Recognizer.Proofs.Automaton.Size
import Recognizer.Proofs.Automaton.Table
import Recognizer.Proofs.Automaton.Trap
import Recognizer.Proofs.Checked.Pipeline
import Recognizer.Proofs.Document.RoundTrip
import Recognizer.Proofs.Expr.Failure
import Recognizer.Proofs.Expr.Grammar
import Recognizer.Proofs.Expr.Numbered
import Recognizer.Proofs.Expr.Reading
import Recognizer.Proofs.Expr.RoundTrip
import Recognizer.Proofs.Trace.Cursor
import Recognizer.Proofs.Trace.Steps
