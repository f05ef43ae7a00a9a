import Stencil.Text.Bytes
import Stencil.Text.Utf8
import Stencil.Symbols
import Stencil.Text.Slice
import Stencil.Block
import Stencil.Pattern.Token
import Stencil.Pattern.Compile
import Stencil.Match
import Stencil.Template
import Stencil.Rule
import Stencil.Tally
import Stencil.Engine.Anchor
import Stencil.Engine.Basic
import Stencil.Text.Printable
import Stencil.Text.Blank
import Stencil.Text.Hex
import Stencil.Text.Quoted
import Stencil.Pattern.Describe
import Stencil.Declaration
import Stencil.Failure
import Stencil.Digest.Sha256
import Stencil.Digest.Base64
import Stencil.Text.Numeral
import Stencil.Text.Timestamp
import Stencil.RuleFile.Basic
import Stencil.Toml.Statement
import Stencil.Toml.Literal
import Stencil.Toml.Parse
import Stencil.Toml.Table
import Stencil.RuleFile.Toml
import Stencil.Yaml.Source
import Stencil.Yaml.Token
import Stencil.Yaml.Fold
import Stencil.Yaml.Block
import Stencil.Yaml.Tag
import Stencil.Yaml.Lexer
import Stencil.Yaml.Scalar
import Stencil.Yaml.Node
import Stencil.Yaml.Style
import Stencil.RuleFile.Yaml
import Stencil.RuleFile.Codec
import Stencil.Diff.Script
import Stencil.Diff.Listing
import Stencil.Report.Style
import Stencil.Report.Diff
import Stencil.Run.Result
import Stencil.Report.Summary
import Stencil.Path
import Stencil.Keyed
import Stencil.Files.Node
import Stencil.Files.Resolve
import Stencil.Files.Access
import Stencil.Scan
import Stencil.Cache.Basic
import Stencil.Cache.Store
import Stencil.Run.Basic
import Stencil.Watch
import Stencil.Command.Value
import Stencil.Command.Flag
import Stencil.Command.Suggest
import Stencil.Command.Line
import Stencil.Command.Execute
import Stencil.Main
import Stencil.Proofs.Utf8
import Stencil.Proofs.Cursor
import Stencil.Proofs.Block
import Stencil.Proofs.Tokens
import Stencil.Proofs.Reading
import Stencil.Proofs.MatchExactness
import Stencil.Proofs.AnchorSearch
import Stencil.Proofs.Engine
import Stencil.Proofs.PrefilterRefinement
import Stencil.Proofs.Tally
import Stencil.Proofs.ScanSemantics
import Stencil.Proofs.CharBoundary
import Stencil.Proofs.Utf8Preservation
import Stencil.Proofs.DeclarationSeams
import Stencil.Proofs.Hex
import Stencil.Proofs.Quotation
import Stencil.Proofs.DigestIdentity
import Stencil.Proofs.CacheHistory
import Stencil.Proofs.PatternRoundTrip
import Stencil.Proofs.SearchReplace
import Stencil.Proofs.Restart
import Stencil.Proofs.StrictBlocks
import Stencil.Proofs.TomlText
import Stencil.Proofs.TomlRoundTrip
import Stencil.Proofs.CleanPath
import Stencil.Proofs.WatchHistory
import Stencil.Proofs.FileCreation
import Stencil.Proofs.WatchedFolders
import Stencil.Proofs.FollowedPath
import Stencil.Proofs.LinkReplacement
import Stencil.Proofs.CacheStore
import Stencil.Proofs.InterruptedFix
import Stencil.Proofs.YamlBlock
import Stencil.Proofs.YamlLines
import Stencil.Proofs.YamlNodes
import Stencil.Proofs.YamlRoundTrip
import Stencil.Proofs.BalancedBlock
import Stencil.Proofs.FilledPattern
import Stencil.Proofs.CachePersistence
import Stencil.Proofs.SeparateChanges
import Stencil.Proofs.RunOrder
import Stencil.Proofs.PredictedRun
import Stencil.Proofs.TokenLayout
import Stencil.Proofs.TemplateSegmentation
import Stencil.Proofs.DeclarationPartition
import Stencil.Proofs.CheckedReads
import Stencil.Proofs.CheckedPattern
import Stencil.Proofs.CheckedMatch
import Stencil.Proofs.CheckedEngine
import Stencil.Proofs.CheckedInline
import Stencil.Proofs.EmptyMatch
import Stencil.Proofs.BlockSequence
import Stencil.Proofs.PlainPattern
import Stencil.Proofs.WordAssignment
import Stencil.Proofs.EditScript
import Stencil.Proofs.ListingWalk
import Stencil.Proofs.ChangeListing
import Stencil.Proofs.ShownChanges
import Stencil.Proofs.ScannedOnce
import Stencil.Proofs.IsolatedBlock
import Stencil.Proofs.Lookahead
import Stencil.Proofs.LocatedFiles
import Stencil.Proofs.CleanedSteps
import Stencil.Proofs.SelectedFiles
