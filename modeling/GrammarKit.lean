import GrammarKit.Closure
import GrammarKit.Cyk.NormalForm
import GrammarKit.Cyk.Parser
import GrammarKit.Cyk.Table
import GrammarKit.Earley.Agenda
import GrammarKit.Earley.Assembly
import GrammarKit.Earley.Chart
import GrammarKit.Earley.Column
import GrammarKit.Earley.Forest
import GrammarKit.Earley.Parser
import GrammarKit.Earley.Scannerless
import GrammarKit.Failure
import GrammarKit.Grammar.Basic
import GrammarKit.Grammar.Derivation
import GrammarKit.Grammar.Dotted
import GrammarKit.Grammar.Draft
import GrammarKit.Grammar.Evaluation
import GrammarKit.Grammar.NodeAction
import GrammarKit.Grammar.Rule
import GrammarKit.Grammar.Sets
import GrammarKit.Grammar.Shaping
import GrammarKit.Grammar.Splicing
import GrammarKit.Grammar.Symbol
import GrammarKit.Grammar.Terminal
import GrammarKit.LR.Automaton
import GrammarKit.LR.Lookahead
import GrammarKit.LR.Machine
import GrammarKit.LR.Recovery
import GrammarKit.LR.Session
import GrammarKit.LR.Table
import GrammarKit.Pipeline.Basic
import GrammarKit.Pipeline.Choice
import GrammarKit.Pipeline.Tabular
import GrammarKit.Pipeline.Template
import GrammarKit.Pipeline.Text
import GrammarKit.Regex.CharSet
import GrammarKit.Regex.Ends
import GrammarKit.Regex.Reader
import GrammarKit.Regex.Search
import GrammarKit.Regex.Syntax
import GrammarKit.Regex.Width
import GrammarKit.Scan.Change
import GrammarKit.Scan.Config
import GrammarKit.Scan.Contextual
import GrammarKit.Scan.Cursor
import GrammarKit.Scan.Custom
import GrammarKit.Scan.Lexicon
import GrammarKit.Scan.Matcher
import GrammarKit.Scan.Plain
import GrammarKit.Scan.Source
import GrammarKit.Template.Basic
import GrammarKit.Template.Matching
import GrammarKit.Template.Tokens
import GrammarKit.Text.Decimal
import GrammarKit.Text.Lines
import GrammarKit.Text.Position
import GrammarKit.Text.Quoted
import GrammarKit.Text.Report
import GrammarKit.Text.Span
import GrammarKit.Text.Window
import GrammarKit.Tree.Basic
import GrammarKit.Tree.Host
import GrammarKit.Tree.Render
import GrammarKit.Tree.Splice
import GrammarKit.Unicode.Category
import GrammarKit.Unicode.Fold
import GrammarKit.Unicode.Property
import GrammarKit.Unicode.Run
import GrammarKit.Unicode.Script
import GrammarKit.Proofs.Closure
import GrammarKit.Proofs.Outcome
import GrammarKit.Proofs.Grammar.Continuation
import GrammarKit.Proofs.Grammar.Sets
import GrammarKit.Proofs.Grammar.Dotted
import GrammarKit.Proofs.Earley.Column
import GrammarKit.Proofs.Earley.Chart
import GrammarKit.Proofs.Earley.Recognition
import GrammarKit.Proofs.Earley.Source
import GrammarKit.Proofs.Earley.Idle
import GrammarKit.Proofs.Scan.Lexed
import GrammarKit.Proofs.Grammar.Items
import GrammarKit.Proofs.Grammar.Drafted
import GrammarKit.Proofs.Names
import GrammarKit.Proofs.Earley.Stretch
import GrammarKit.Proofs.Grammar.Trees
import GrammarKit.Proofs.Earley.Completeness
import GrammarKit.Proofs.Earley.Placement
import GrammarKit.Proofs.Earley.Agenda
import GrammarKit.Proofs.Earley.Assembly
import GrammarKit.Proofs.Earley.Parsing
import GrammarKit.Proofs.Earley.Calls
import GrammarKit.Proofs.LR.Automaton
import GrammarKit.Proofs.LR.Lookahead
import GrammarKit.Proofs.LR.Table
import GrammarKit.Proofs.LR.Stack
import GrammarKit.Proofs.LR.Run
import GrammarKit.Proofs.LR.Feeding
import GrammarKit.Proofs.LR.Reading
import GrammarKit.Proofs.LR.Session
import GrammarKit.Proofs.Grammar.Verdict
import GrammarKit.Proofs.LR.Parsing
import GrammarKit.Proofs.LR.Recovery
import GrammarKit.Proofs.LR.Canonical
import GrammarKit.Proofs.Earley.Verdict
import GrammarKit.Proofs.Cyk.NormalForm
import GrammarKit.Proofs.Cyk.Units
import GrammarKit.Proofs.Cyk.Derivation
import GrammarKit.Proofs.Cyk.Table
import GrammarKit.Proofs.Cyk.Parsing
import GrammarKit.Proofs.Cyk.Priority
import GrammarKit.Proofs.Agreement
import GrammarKit.Proofs.Grammar.Restless
import GrammarKit.Proofs.LR.Reached
import GrammarKit.Proofs.LR.Calls
import GrammarKit.Proofs.LR.Settling
import GrammarKit.Proofs.LR.Refusal
import GrammarKit.Proofs.LR.Strict
import GrammarKit.Proofs.Earley.Descent
import GrammarKit.Proofs.Earley.Canonical
import GrammarKit.Proofs.Tree.Sameness
import GrammarKit.Proofs.Splicing.Conservation
import GrammarKit.Proofs.Splicing.Extension
import GrammarKit.Proofs.Splicing.Substitution
import GrammarKit.Proofs.Template.Standing
import GrammarKit.Proofs.Template.Acceptance
import GrammarKit.Proofs.Tree.Choices
import GrammarKit.Proofs.Earley.Packing
import GrammarKit.Proofs.Earley.Alternatives
import GrammarKit.Proofs.Grammar.Shaping
import GrammarKit.Proofs.Earley.Shaping
import GrammarKit.Proofs.Text.Offsets
import GrammarKit.Proofs.Scannerless.Cutting
import GrammarKit.Proofs.Scannerless.Found
import GrammarKit.Proofs.Scannerless.Charting
import GrammarKit.Proofs.Scannerless.Extraction
import GrammarKit.Proofs.Scannerless.Parsing
import GrammarKit.Proofs.Grammar.Following
import GrammarKit.Proofs.Splicing.Sentences
import GrammarKit.Proofs.Grammar.Resolving
import GrammarKit.Proofs.Earley.Mirror
import GrammarKit.Proofs.Earley.Places
import GrammarKit.Proofs.Template.Literal
import GrammarKit.Proofs.Scan.Pieces
import GrammarKit.Proofs.Scan.Coverage
import GrammarKit.Proofs.Scan.Context
import GrammarKit.Proofs.Grammar.Leaves
import GrammarKit.Proofs.Grammar.Covering
import GrammarKit.Proofs.Grammar.Spans
import GrammarKit.Proofs.Regex.Cut
import GrammarKit.Proofs.Regex.Enclosed
import GrammarKit.Proofs.Scan.Anchored
import GrammarKit.Proofs.Scan.Literal
import GrammarKit.Proofs.Scan.Keywords
import GrammarKit.Proofs.Scannerless.Shorter
import GrammarKit.Proofs.Cyk.Refusal
import GrammarKit.Proofs.Splicing.Repeated
import GrammarKit.Proofs.Tree.Splicing
import GrammarKit.Proofs.Template.Counting
import GrammarKit.Proofs.Template.Interleaving
import GrammarKit.Proofs.Template.Places
import GrammarKit.Proofs.LR.Stepwise
import GrammarKit.Proofs.Template.Joining
import GrammarKit.Proofs.Text.Lines
import GrammarKit.Proofs.Grammar.Evaluation
import GrammarKit.Proofs.Scan.Meeting
import GrammarKit.Proofs.LR.Resuming
