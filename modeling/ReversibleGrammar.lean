import ReversibleGrammar.Text.Blank
import ReversibleGrammar.Text.Word
import ReversibleGrammar.Text.Printable
import ReversibleGrammar.Text.CaseFolding
import ReversibleGrammar.Text.Quoted
import ReversibleGrammar.Text.Lines
import ReversibleGrammar.Text.Bytes
import ReversibleGrammar.Decimal.Shortest
import ReversibleGrammar.Shape.Printer
import ReversibleGrammar.Shape.Reader
import ReversibleGrammar.Doc.Render
import ReversibleGrammar.Grammar.Builder
import ReversibleGrammar.Tree.Outline
import ReversibleGrammar.Tree.Description
import ReversibleGrammar.Tree.Document
import ReversibleGrammar.Recognizer.Interner
import ReversibleGrammar.Recognizer.Result
import ReversibleGrammar.Recognizer.Machine
import ReversibleGrammar.Recognizer.Parser
import ReversibleGrammar.Shaping.Extract
import ReversibleGrammar.Shaping.Inject
import ReversibleGrammar.Regex.Match
import ReversibleGrammar.Regex.Parser
import ReversibleGrammar.Lexer.Basic
import ReversibleGrammar.Language.TokenCodec
import ReversibleGrammar.Language.Basic
import ReversibleGrammar.Language.Template
import ReversibleGrammar.Language.Xml
import ReversibleGrammar.Language.Logic
import ReversibleGrammar.Language.Bundled
import ReversibleGrammar.Diagnostic.Report
import ReversibleGrammar.CommandLine.Path
import ReversibleGrammar.CommandLine.Files
import ReversibleGrammar.CommandLine.Options
import ReversibleGrammar.CommandLine.View
import ReversibleGrammar.CommandLine.Session
import ReversibleGrammar.CommandLine.Run
import ReversibleGrammar.Main
import ReversibleGrammar.Proofs.Listwise
import ReversibleGrammar.Proofs.Grammar.Built
import ReversibleGrammar.Proofs.Grammar.Calls
import ReversibleGrammar.Proofs.Grammar.Derivation
import ReversibleGrammar.Proofs.Recognizer.Store
import ReversibleGrammar.Proofs.Recognizer.ResultSet
import ReversibleGrammar.Proofs.Recognizer.Operation
import ReversibleGrammar.Proofs.Recognizer.Rebuild
import ReversibleGrammar.Proofs.Recognizer.Meaning
import ReversibleGrammar.Proofs.Recognizer.Reading
import ReversibleGrammar.Proofs.Recognizer.Evaluation
import ReversibleGrammar.Proofs.Recognizer.Typing
import ReversibleGrammar.Proofs.Recognizer.Soundness
import ReversibleGrammar.Proofs.Recognizer.Termination
import ReversibleGrammar.Proofs.Grammar.LeftCall
import ReversibleGrammar.Proofs.Grammar.Readings
import ReversibleGrammar.Proofs.Recognizer.Listing
import ReversibleGrammar.Proofs.Recognizer.Construct
import ReversibleGrammar.Proofs.Recognizer.Repetition
import ReversibleGrammar.Proofs.Recognizer.Answer
import ReversibleGrammar.Proofs.Recognizer.Exactness
import ReversibleGrammar.Proofs.Recognizer.Completeness
import ReversibleGrammar.Proofs.Recognizer.GivingUp
import ReversibleGrammar.Proofs.Recognizer.Apart
import ReversibleGrammar.Proofs.LeftRecursion.Levels
import ReversibleGrammar.Proofs.LeftRecursion.Chains
import ReversibleGrammar.Proofs.LeftRecursion.Shapes
import ReversibleGrammar.Proofs.LeftRecursion.Sums
import ReversibleGrammar.Proofs.Grammar.Fitting
import ReversibleGrammar.Proofs.Grammar.Keys
import ReversibleGrammar.Proofs.Grammar.Omission
import ReversibleGrammar.Proofs.Shaping.Merging
import ReversibleGrammar.Proofs.Shaping.Injection
import ReversibleGrammar.Proofs.Shaping.Recovery
import ReversibleGrammar.Proofs.Shaping.RoundTrip
import ReversibleGrammar.Proofs.Shaping.Omission
import ReversibleGrammar.Proofs.Shaping.Tokens
import ReversibleGrammar.Proofs.Grammar.Stops
import ReversibleGrammar.Proofs.Grammar.Steady
import ReversibleGrammar.Proofs.Xml.Grammar
import ReversibleGrammar.Proofs.Xml.Shapes
import ReversibleGrammar.Proofs.Xml.Stops
import ReversibleGrammar.Proofs.Xml.Sentences
import ReversibleGrammar.Proofs.Xml.Recognition
import ReversibleGrammar.Proofs.Grammar.Relabelling
import ReversibleGrammar.Proofs.Lexing.Regex
import ReversibleGrammar.Proofs.Lexing.Scan
import ReversibleGrammar.Proofs.Printing.Layout
import ReversibleGrammar.Proofs.Xml.Lexemes
import ReversibleGrammar.Proofs.Recognizer.Leaves
import ReversibleGrammar.Proofs.Printing.Visible
import ReversibleGrammar.Proofs.Recognizer.Pairing
import ReversibleGrammar.Proofs.Recognizer.Simulation
import ReversibleGrammar.Proofs.Recognizer.TokenTypes
import ReversibleGrammar.Proofs.Printing.Reprint
import ReversibleGrammar.Proofs.Xml.Printing
import ReversibleGrammar.Proofs.Language
import ReversibleGrammar.Proofs.Logic.Grammar
import ReversibleGrammar.Proofs.Logic.Shapes
import ReversibleGrammar.Proofs.Recognizer.Giving
import ReversibleGrammar.Proofs.Recognizer.Distinct
import ReversibleGrammar.Proofs.Recognizer.EntryPoints
import ReversibleGrammar.Proofs.Recognizer.Truth
import ReversibleGrammar.Proofs.Recognizer.Reports
import ReversibleGrammar.Proofs.Labelling.Sites
import ReversibleGrammar.Proofs.Labelling.Lines
import ReversibleGrammar.Proofs.Labelling.Constructs
import ReversibleGrammar.Proofs.Labelling.Steps
import ReversibleGrammar.Proofs.Labelling.Candidates
import ReversibleGrammar.Proofs.Logic.Patterns
import ReversibleGrammar.Proofs.Printing.Spacing
import ReversibleGrammar.Proofs.Lexing.Texts
import ReversibleGrammar.Proofs.Lexing.Numbers
import ReversibleGrammar.Proofs.Logic.Lexemes
import ReversibleGrammar.Proofs.Logic.Printing
import ReversibleGrammar.Proofs.Printing.Flatness
import ReversibleGrammar.Proofs.Printing.LineEnds
import ReversibleGrammar.Proofs.Printing.Worklist
import ReversibleGrammar.Proofs.Printing.Lines
import ReversibleGrammar.Proofs.Printing.Width
import ReversibleGrammar.Proofs.Lexing.Stack
import ReversibleGrammar.Proofs.Lexing.Coverage
import ReversibleGrammar.Proofs.Diagnostic
import ReversibleGrammar.Proofs.Shaping.Ending
import ReversibleGrammar.Proofs.Grammar.Lookups
import ReversibleGrammar.Proofs.Recognizer.Repeating
import ReversibleGrammar.Proofs.Lexing.Ending
import ReversibleGrammar.Proofs.Printing.Joining
import ReversibleGrammar.Proofs.Recognizer.Storing
import ReversibleGrammar.Proofs.Recognizer.Positions
import ReversibleGrammar.Proofs.Recognizer.Contexts
import ReversibleGrammar.Proofs.Recognizer.Forms
import ReversibleGrammar.Proofs.Recognizer.Expansion
import ReversibleGrammar.Proofs.Recognizer.Sharing
