import Typeahead.Completion
import Typeahead.Files.Include
import Typeahead.Files.Path
import Typeahead.Files.Tree
import Typeahead.Grammar.Basic
import Typeahead.Grammar.Draft
import Typeahead.Hint.Basic
import Typeahead.Json.Package
import Typeahead.Json.Scan
import Typeahead.Json.Scanner
import Typeahead.Json.Skip
import Typeahead.Json.Write
import Typeahead.Language
import Typeahead.Outline.Basic
import Typeahead.Outline.Grow
import Typeahead.Outline.Machine
import Typeahead.Outline.Offers
import Typeahead.Outline.Prune
import Typeahead.Outline.Shapes
import Typeahead.Outline.Unfold
import Typeahead.Proofs.Derivation
import Typeahead.Query.Basic
import Typeahead.Query.Reading
import Typeahead.Query.Scan
import Typeahead.Ranking
import Typeahead.SessionLog
import Typeahead.Settings.Basic
import Typeahead.Settings.Codec
import Typeahead.Settings.Field
import Typeahead.Settings.Load
import Typeahead.Settings.Text
import Typeahead.Symbols
import Typeahead.Text.Bytes
import Typeahead.Text.Offset
import Typeahead.Text.Quoted
import Typeahead.Text.Unprintable
import Typeahead.Text.Words
import Typeahead.Types.Basic
import Typeahead.Types.SymbolTable
import Typeahead.Proofs.Yield
import Typeahead.Proofs.Steps
import Typeahead.Proofs.Unfolding
import Typeahead.Proofs.Growth
import Typeahead.Proofs.Pruning
import Typeahead.Proofs.Settling
import Typeahead.Proofs.Layered
import Typeahead.Proofs.Offers
import Typeahead.Proofs.Sorting
import Typeahead.Proofs.Hints
import Typeahead.Proofs.Suggestions
import Typeahead.Proofs.LastToken
import Typeahead.Proofs.LeftOfCursor
import Typeahead.Proofs.Nodes
import Typeahead.Proofs.WordCounts
import Typeahead.Proofs.CompleteNodes
import Typeahead.Proofs.Scopes
import Typeahead.Proofs.Similar
import Typeahead.Proofs.Lockstep
import Typeahead.Proofs.BranchOrder
import Typeahead.Proofs.KnownNames
import Typeahead.Proofs.PlainReading
import Typeahead.Proofs.PlainGrowth
import Typeahead.Proofs.NameLists
import Typeahead.Proofs.NameSuggestions
import Typeahead.Proofs.NameTiming
import Typeahead.Proofs.Termination
import Typeahead.Proofs.Acyclic
import Typeahead.Proofs.RightRecursion
import Typeahead.Proofs.PruningSafety
import Typeahead.Proofs.FlatCommands
import Typeahead.Proofs.FlatSuggestions
import Typeahead.Proofs.TypeLoads
import Typeahead.Proofs.Wrappers
import Typeahead.Proofs.Unwrapping
import Typeahead.Proofs.WrapperTransparency
import Typeahead.Proofs.Placement
import Typeahead.Proofs.FollowingLoads
import Typeahead.Proofs.IncludeCommands
import Typeahead.Proofs.NestedNames
import Typeahead.Proofs.Places
import Typeahead.Proofs.MachineNumbers
import Typeahead.Proofs.Thinning
import Typeahead.Proofs.LossyDecoding
import Typeahead.Proofs.ByteRuns
import Typeahead.Proofs.Tokens
import Typeahead.Proofs.Scanning
import Typeahead.Proofs.Accepting
import Typeahead.Proofs.Joining
import Typeahead.Proofs.Spellings
import Typeahead.Proofs.CountedOffers
import Typeahead.Proofs.ByteRanking
import Typeahead.Proofs.BlockChains
import Typeahead.Proofs.PathResolution
import Typeahead.Proofs.IncludePaths
import Typeahead.Proofs.DeclaredNames
import Typeahead.Proofs.Inheritance
import Typeahead.Proofs.JsonStrings
import Typeahead.Proofs.JsonValues
import Typeahead.Proofs.JsonReading
import Typeahead.Proofs.SettingsTexts
