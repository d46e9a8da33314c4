import YamlLayout.Host.Memory
import YamlLayout.Main
import YamlLayout.Node.Arena
import YamlLayout.Proofs.BlockBody
import YamlLayout.Proofs.Ensures
import YamlLayout.Proofs.LexemeLength
import YamlLayout.Proofs.Lines
import YamlLayout.Proofs.Reading
import YamlLayout.Proofs.Reading.Pieces
import YamlLayout.Proofs.Reading.Trivia
import YamlLayout.Token.Query
import YamlLayout.Proofs.Reading.Scalar
import YamlLayout.Proofs.Reading.Flow
import YamlLayout.Proofs.Reading.Block
import YamlLayout.Proofs.Reading.Stream
import YamlLayout.Proofs.Substitution
import YamlLayout.Proofs.TokenPlaces
import YamlLayout.Proofs.Measured
import YamlLayout.Proofs.RepairEdits
import YamlLayout.Proofs.FixedText
import YamlLayout.Proofs.Settling
import YamlLayout.Proofs.Spelling
import YamlLayout.Proofs.Ownership
import YamlLayout.Proofs.ColumnRules
import YamlLayout.Proofs.ColumnCache
import YamlLayout.Proofs.PatchedRows
import YamlLayout.Proofs.BodyRows
import YamlLayout.Proofs.BodyMeasures
import YamlLayout.Proofs.BodyLines
import YamlLayout.Proofs.BodyContent
import YamlLayout.Proofs.Coverage
import YamlLayout.Proofs.TokenWalk
import YamlLayout.Proofs.NodeParts
import YamlLayout.Proofs.ArenaForest
import YamlLayout.Proofs.ArenaSpans
import YamlLayout.Proofs.Reading.Numbers
import YamlLayout.Proofs.Reading.Frames
import YamlLayout.Proofs.Canonical.Outline
import YamlLayout.Proofs.Canonical.Glyphs
import YamlLayout.Proofs.Canonical.Lexemes
import YamlLayout.Proofs.Canonical.Passing
import YamlLayout.Proofs.Canonical.Parsing
import YamlLayout.Proofs.Canonical.Columns
import YamlLayout.Proofs.Canonical.Clean
import YamlLayout.Proofs.CursorPlaces
import YamlLayout.Proofs.Outcomes
import YamlLayout.Proofs.InPlace
import YamlLayout.Proofs.ResolvedColumns
import YamlLayout.Proofs.FlushLeft
import YamlLayout.Proofs.NodeShape
import YamlLayout.Proofs.Reindented
import YamlLayout.Proofs.ReindentedLines
import YamlLayout.Proofs.FirmEdits
import YamlLayout.Proofs.ChangingRepairs
import YamlLayout.Proofs.EnforcedFindings
import YamlLayout.Proofs.Progress.Agreement
import YamlLayout.Proofs.Progress.Flow
import YamlLayout.Proofs.Progress.Block
import YamlLayout.Proofs.Progress.Stream
import YamlLayout.Proofs.Progress.Termination
import YamlLayout.Proofs.Alignment
import YamlLayout.Proofs.ColumnBounds
import YamlLayout.Proofs.MeasuredLines
import YamlLayout.Proofs.RepairsAtOnce
import YamlLayout.Proofs.Reading.Inline
import YamlLayout.Proofs.Reading.Marks
import YamlLayout.Proofs.Reading.Keys
import YamlLayout.Proofs.Reading.BlockMarks
import YamlLayout.Proofs.Introductions
import YamlLayout.Proofs.GapWidths
import YamlLayout.Proofs.KeyLines
import YamlLayout.Proofs.LineHeads
import YamlLayout.Proofs.MovedLines
import YamlLayout.Proofs.RepairReach
import YamlLayout.Proofs.TokenQueries
import YamlLayout.Proofs.DryRun
import YamlLayout.Proofs.ReportedPlaces
import YamlLayout.Proofs.WatchedFiles
import YamlLayout.Proofs.LineOffsets
import YamlLayout.Proofs.HangingLines
import YamlLayout.Proofs.OverlappingEdits
import YamlLayout.Proofs.MovedComments
