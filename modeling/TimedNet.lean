import TimedNet.Text.Position
import TimedNet.Text.Bytes
import TimedNet.Text.LineIndex
import TimedNet.Text.Blank
import TimedNet.Text.Numeral
import TimedNet.Text.Lexeme
import TimedNet.Token.Kind
import TimedNet.Token.Basic
import TimedNet.Token.Scan
import TimedNet.Declaration.Kind
import TimedNet.Declaration.Attribute
import TimedNet.Declaration.Basic
import TimedNet.Declaration.Draft
import TimedNet.Store.Basic
import TimedNet.Store.Insert
import TimedNet.Store.Acceptance
import TimedNet.System
import TimedNet.Diagnostic.Code
import TimedNet.Diagnostic.Basic
import TimedNet.Diagnostic.Report
import TimedNet.Diagnostic.Problem
import TimedNet.Store.Submission
import TimedNet.Grammar.Context
import TimedNet.Grammar.Word
import TimedNet.Grammar.Place
import TimedNet.Grammar.Phrase
import TimedNet.Grammar.Reading
import TimedNet.Session.Entry
import TimedNet.Session.Basic
import TimedNet.Parsed
import TimedNet.Source.Path
import TimedNet.Source.Tree
import TimedNet.Source.Load
import TimedNet.Proofs.Text.Trim
import TimedNet.Proofs.Text.Decimal
import TimedNet.Proofs.Text.Numerals
import TimedNet.Proofs.Text.Lines
import TimedNet.Proofs.Text.Ranges
import TimedNet.Proofs.Text.Slices
import TimedNet.Proofs.Text.PrintedSpans
import TimedNet.Proofs.Spans
import TimedNet.Proofs.Store.Log
import TimedNet.Proofs.Store.Refinement
import TimedNet.Proofs.Store.Insertion
import TimedNet.Proofs.Store.Integrity
import TimedNet.Proofs.Token.Lexical
import TimedNet.Proofs.Token.Lines
import TimedNet.Proofs.Token.Printing
import TimedNet.Proofs.Token.Lossless
import TimedNet.Proofs.Token.Trails
import TimedNet.Proofs.Token.Windows
import TimedNet.Proofs.Token.Entries
import TimedNet.Proofs.Grammar.Language
import TimedNet.Proofs.Grammar.Recognition
import TimedNet.Proofs.Grammar.Lines
import TimedNet.Proofs.Grammar.LineReading
import TimedNet.Proofs.Grammar.LineEnds
import TimedNet.Proofs.Grammar.TextRows
import TimedNet.Proofs.Grammar.Expected
import TimedNet.Proofs.Grammar.InStep
import TimedNet.Proofs.Grammar.Content
import TimedNet.Proofs.Grammar.Parts
import TimedNet.Proofs.Grammar.Rereading
import TimedNet.Proofs.Grammar.Spelling
import TimedNet.Proofs.Grammar.Corresponds
import TimedNet.Proofs.Session.Semantic
import TimedNet.Proofs.Session.SyntaxErrors
import TimedNet.Proofs.Session.Verdict
import TimedNet.Proofs.Session.Lockstep
import TimedNet.Proofs.Session.Meaning
import TimedNet.Proofs.Session.FirstLines
import TimedNet.Proofs.Session.Growth
import TimedNet.Proofs.Session.LaterReadings
import TimedNet.Proofs.Session.Progress
import TimedNet.Proofs.Session.OneLine
import TimedNet.Proofs.Session.Redeclarations
import TimedNet.Proofs.Session.Messages
import TimedNet.Proofs.Session.PrintedLine
import TimedNet.Proofs.Session.Soundness
import TimedNet.Proofs.Session.ByLine
import TimedNet.Proofs.Session.EarliestFault
import TimedNet.Proofs.Session.FaultsInStep
import TimedNet.Proofs.Session.Stores
import TimedNet.Proofs.Session.WellFormed
import TimedNet.Proofs.Session.LineReport
import TimedNet.Proofs.Session.WordOrder
import TimedNet.Proofs.Text.Pieces
import TimedNet.Proofs.Text.LineStarts
import TimedNet.Proofs.Session.SourceOrder
import TimedNet.Proofs.Session.Places
import TimedNet.Proofs.Session.Alike
import TimedNet.Proofs.Session.Rows
import TimedNet.Proofs.Session.RejectedLine
import TimedNet.Proofs.Session.LaterText
import TimedNet.Proofs.Session.ErrorLimit
import TimedNet.Proofs.Session.CleanText
import TimedNet.Proofs.Session.TrailingText
import TimedNet.Proofs.Session.AttributeWords
import TimedNet.Proofs.Session.LineTokens
import TimedNet.Proofs.Session.SpanTexts
import TimedNet.Proofs.Session.BoundsModes
import TimedNet.Proofs.Session.SharedReport
import TimedNet.Proofs.Session.Corresponds
import TimedNet.Proofs.Session.PlaceIndependence
import TimedNet.Proofs.Session.Refusal
import TimedNet.Proofs.Session.Submission
import TimedNet.Proofs.Session.Conditions
import TimedNet.Proofs.Session.ByName
import TimedNet.Proofs.Session.Reordering
import TimedNet.Proofs.RoundTrip
