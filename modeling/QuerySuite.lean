import QuerySuite.Main
import QuerySuite.Proofs.Agreement
import QuerySuite.Proofs.RegionCompletion
import QuerySuite.Proofs.Regions
import QuerySuite.Proofs.Totality
import QuerySuite.Proofs.Forward
import QuerySuite.Proofs.Outlines
import QuerySuite.Proofs.Nesting
import QuerySuite.Proofs.Braces
import QuerySuite.Proofs.Tallies
import QuerySuite.Proofs.ErrorRegions
import QuerySuite.Proofs.Productions
import QuerySuite.Proofs.Yields
import QuerySuite.Proofs.PhraseGrammar
import QuerySuite.Proofs.Series
import QuerySuite.Proofs.ClauseGrammar
import QuerySuite.Proofs.DocumentGrammar
import QuerySuite.Proofs.NumberTokens
import QuerySuite.Proofs.Acceptance
import QuerySuite.Proofs.LineScan
import QuerySuite.Proofs.Appended
import QuerySuite.Proofs.Coordinates
import QuerySuite.Proofs.Patterns
import QuerySuite.Proofs.Relabel
import QuerySuite.Proofs.LongestMatch
import QuerySuite.Proofs.Shapes
import QuerySuite.Proofs.PhraseShapes
import QuerySuite.Proofs.BodyShapes
import QuerySuite.Proofs.Lines
import QuerySuite.Proofs.Edits
import QuerySuite.Proofs.Targets
import QuerySuite.Proofs.CommentMaps
import QuerySuite.Proofs.Attachment
import QuerySuite.Proofs.Coherence
import QuerySuite.Proofs.Elements
import QuerySuite.Proofs.References
import QuerySuite.Proofs.Ways
import QuerySuite.Proofs.DeepestSite
import QuerySuite.Proofs.ExprText
import QuerySuite.Proofs.Origins
import QuerySuite.Proofs.Placeholders
import QuerySuite.Proofs.Places
import QuerySuite.Proofs.NodeSpans
import QuerySuite.Proofs.SourceRanges
import QuerySuite.Proofs.CompletionContexts
import QuerySuite.Proofs.Resumption
import QuerySuite.Proofs.FirstDefinitions
import QuerySuite.Proofs.EnclosedTests
import QuerySuite.Proofs.SymbolTables
import QuerySuite.Proofs.Separation
import QuerySuite.Proofs.TrailingComments
import QuerySuite.Proofs.DuplicateDefinitions
import QuerySuite.Proofs.JoinedTexts
import QuerySuite.Proofs.TestPaths
import QuerySuite.Proofs.MovedTexts
import QuerySuite.Proofs.CursorTokens
import QuerySuite.Proofs.ReturnFields
import QuerySuite.Proofs.Parameters
import QuerySuite.Proofs.BareTexts
import QuerySuite.Proofs.StatementKeys
import QuerySuite.Proofs.Visits
import QuerySuite.Proofs.AbsorbedRecords
import QuerySuite.Proofs.PlaceOrders
import QuerySuite.Proofs.TopLevelItems
