import ErlangLexer.Main
import ErlangLexer.Proofs.Resumption
import ErlangLexer.Proofs.Feeding
import ErlangLexer.Proofs.ChunkFlag
import ErlangLexer.Proofs.Pieces
import ErlangLexer.Proofs.Position
import ErlangLexer.Proofs.Tiling
import ErlangLexer.Proofs.FormLocation
import ErlangLexer.Proofs.LooseEnds
import ErlangLexer.Proofs.Completion
import ErlangLexer.Proofs.WholeText
import ErlangLexer.Proofs.View
import ErlangLexer.Proofs.Indifference
import ErlangLexer.Proofs.Severance
import ErlangLexer.Proofs.Rereading
import ErlangLexer.Proofs.Fed
import ErlangLexer.Proofs.Progress
import ErlangLexer.Proofs.Whereabouts
import ErlangLexer.Proofs.TokenOrder
import ErlangLexer.Proofs.Noncharacters
import ErlangLexer.Proofs.Transitions
import ErlangLexer.Proofs.Beginnings
import ErlangLexer.Proofs.Unterminated
import ErlangLexer.Proofs.ErrorRange
import ErlangLexer.Proofs.Relabelling
import ErlangLexer.Proofs.LineEnd
import ErlangLexer.Proofs.LineBreak
import ErlangLexer.Proofs.UnmarkedText
import ErlangLexer.Proofs.CommandAgreement
import ErlangLexer.Proofs.Findings
import ErlangLexer.Proofs.Numeral
import ErlangLexer.Proofs.NumberReading
import ErlangLexer.Proofs.SigilName
import ErlangLexer.Proofs.TripleQuotedText
import ErlangLexer.Proofs.EscapedText
import ErlangLexer.Proofs.EscapePaths
import ErlangLexer.Proofs.EscapeErrors
import ErlangLexer.Proofs.EscapeSpelling
import ErlangLexer.Proofs.PendingText
import ErlangLexer.Proofs.Readings
import ErlangLexer.Proofs.PunctuationReading
import ErlangLexer.Proofs.WholeNames
import ErlangLexer.Proofs.ChunkSizes
import ErlangLexer.Proofs.ClosingQuotes
import ErlangLexer.Proofs.Emissions
import ErlangLexer.Proofs.AdjacentStrings
import ErlangLexer.Proofs.TokenForm
import ErlangLexer.Proofs.EscapeDecision
import ErlangLexer.Proofs.CommentSearch
import ErlangLexer.Proofs.StoredLines
import ErlangLexer.Proofs.FlagSpelling
import ErlangLexer.Proofs.EnvironmentWords
import ErlangLexer.Proofs.CommandWords
import ErlangLexer.Proofs.Slices
import ErlangLexer.Proofs.OffsetMoves
import ErlangLexer.Proofs.OffsetScan
import ErlangLexer.Proofs.Boundaries
