import RealtimeApp.App
import RealtimeApp.Binary64
import RealtimeApp.Bytes
import RealtimeApp.Comment
import RealtimeApp.Decimal
import RealtimeApp.Delimiter
import RealtimeApp.Description
import RealtimeApp.Document
import RealtimeApp.Export
import RealtimeApp.Fault
import RealtimeApp.Fields
import RealtimeApp.FileTree
import RealtimeApp.Grammar
import RealtimeApp.Grammar.Routine
import RealtimeApp.Grammar.Slot
import RealtimeApp.Grammar.Storage
import RealtimeApp.Grammar.Value
import RealtimeApp.Json
import RealtimeApp.Json.Reader
import RealtimeApp.Lexer
import RealtimeApp.Log
import RealtimeApp.NameMap
import RealtimeApp.Numeral
import RealtimeApp.Operation
import RealtimeApp.Operator
import RealtimeApp.ParseError
import RealtimeApp.Platform
import RealtimeApp.Proofs.AppFragments
import RealtimeApp.Proofs.ApplicationHistory
import RealtimeApp.Proofs.Boundary
import RealtimeApp.Proofs.Complaints
import RealtimeApp.Proofs.DecimalDigits
import RealtimeApp.Proofs.DelimiterRecovery
import RealtimeApp.Proofs.EntryOrder
import RealtimeApp.Proofs.ErrorWalk
import RealtimeApp.Proofs.ExportReading
import RealtimeApp.Proofs.FaithfulExport
import RealtimeApp.Proofs.FieldCalls
import RealtimeApp.Proofs.FieldReading
import RealtimeApp.Proofs.FloatLiterals
import RealtimeApp.Proofs.ForeignDigits
import RealtimeApp.Proofs.GrammarWalk
import RealtimeApp.Proofs.InsertedGaps
import RealtimeApp.Proofs.IntegerLiterals
import RealtimeApp.Proofs.JsonText
import RealtimeApp.Proofs.KeptFiles
import RealtimeApp.Proofs.Layout
import RealtimeApp.Proofs.Lexeme
import RealtimeApp.Proofs.LocatedErrors
import RealtimeApp.Proofs.LogDestination
import RealtimeApp.Proofs.LogState
import RealtimeApp.Proofs.LoggerLife
import RealtimeApp.Proofs.MatchedDelimiters
import RealtimeApp.Proofs.NameMap
import RealtimeApp.Proofs.NestRuns
import RealtimeApp.Proofs.Nesting
import RealtimeApp.Proofs.NestingLimit
import RealtimeApp.Proofs.NumeralLexeme
import RealtimeApp.Proofs.Offsets
import RealtimeApp.Proofs.OpaqueGroups
import RealtimeApp.Proofs.OpenGroups
import RealtimeApp.Proofs.Outcome
import RealtimeApp.Proofs.Places
import RealtimeApp.Proofs.QuotedLiterals
import RealtimeApp.Proofs.ReachedStates
import RealtimeApp.Proofs.Recognition
import RealtimeApp.Proofs.Relexing
import RealtimeApp.Proofs.Relocation
import RealtimeApp.Proofs.Reordering
import RealtimeApp.Proofs.Rescanning
import RealtimeApp.Proofs.Resumption
import RealtimeApp.Proofs.SameTokens
import RealtimeApp.Proofs.SessionSteps
import RealtimeApp.Proofs.SettingsLoading
import RealtimeApp.Proofs.SettingsReading
import RealtimeApp.Proofs.SettingsReload
import RealtimeApp.Proofs.SharedRuns
import RealtimeApp.Proofs.Sites
import RealtimeApp.Proofs.Skipped
import RealtimeApp.Proofs.Slots
import RealtimeApp.Proofs.Success
import RealtimeApp.Proofs.TokenChanges
import RealtimeApp.Proofs.TokenTree
import RealtimeApp.Proofs.TruthfulPlaces
import RealtimeApp.Proofs.Utf8Text
import RealtimeApp.Proofs.ValueReading
import RealtimeApp.Proofs.WrittenForm
import RealtimeApp.Proofs.WrittenNumerals
import RealtimeApp.Quoted
import RealtimeApp.Rule
import RealtimeApp.Session
import RealtimeApp.Settings
import RealtimeApp.Shared
import RealtimeApp.Span
import RealtimeApp.Token
import RealtimeApp.Token.Printer
