import CssOutline.Color.Reader
import CssOutline.Command.Folder
import CssOutline.Decode.Log
import CssOutline.Main
import CssOutline.Outline.Layout
import CssOutline.Sheet.Reader
import CssOutline.Proofs.Contributions
import CssOutline.Proofs.Entries
import CssOutline.Proofs.JsonRoundTrip
import CssOutline.Proofs.Keys
import CssOutline.Proofs.Merge
import CssOutline.Proofs.Transport
import CssOutline.Proofs.Lines
import CssOutline.Proofs.ReadBack
import CssOutline.Proofs.Grammar
import CssOutline.Proofs.Spelling
import CssOutline.Proofs.GrammarNodes
import CssOutline.Proofs.GrammarValues
import CssOutline.Proofs.GrammarHeads
import CssOutline.Proofs.RoundTrip
import CssOutline.Proofs.Idempotence
import CssOutline.Proofs.Overrun
import CssOutline.Proofs.Bodies
import CssOutline.Proofs.Declarations
import CssOutline.Proofs.CustomValues
import CssOutline.Proofs.Extents
import CssOutline.Proofs.BodyItems
import CssOutline.Proofs.PrintedNames
import CssOutline.Proofs.SelectorShape
import CssOutline.Proofs.PrintedSelectors
import CssOutline.Proofs.SelectorKeys
import CssOutline.Proofs.Reachable
import CssOutline.Proofs.Associativity
import CssOutline.Proofs.Nesting
import CssOutline.Proofs.Walk
import CssOutline.Proofs.Walk.Selectors
import CssOutline.Proofs.Walk.Colors
import CssOutline.Proofs.Walk.Math
import CssOutline.Proofs.Walk.Groups
import CssOutline.Proofs.Walk.Values
import CssOutline.Proofs.Walk.Preludes
import CssOutline.Proofs.Walk.Sheet
import CssOutline.Proofs.Walk.Completion
import CssOutline.Proofs.MergeLaw
import CssOutline.Proofs.QuotedStrings
import CssOutline.Proofs.SelectorRoundTrip
import CssOutline.Proofs.NumberCuts
import CssOutline.Proofs.Rescan
import CssOutline.Proofs.Slices
import CssOutline.Proofs.PrintedTokens
import CssOutline.Proofs.Meanings
import CssOutline.Proofs.Layout
import CssOutline.Proofs.GroupedValues
import CssOutline.Proofs.Trimming
import CssOutline.Proofs.Calls
import CssOutline.Proofs.DeclaredValues
import CssOutline.Proofs.TokensKept
import CssOutline.Proofs.LayoutErrors
import CssOutline.Proofs.UnquotedUrls
import CssOutline.Proofs.ClosedTexts
import CssOutline.Proofs.VerbatimBodies
import CssOutline.Proofs.Quantities
import CssOutline.Proofs.MathSlices
import CssOutline.Proofs.MathWords
import CssOutline.Proofs.MathParts
import CssOutline.Proofs.PrintedMath
import CssOutline.Proofs.UnknownSpaces
import CssOutline.Proofs.WrittenLines
import CssOutline.Proofs.JsonGrammar
import CssOutline.Proofs.JsonTexts
import CssOutline.Proofs.Rounding
import CssOutline.Proofs.JsonNumbers
import CssOutline.Proofs.JsonMembers
import CssOutline.Proofs.JsonReading
import CssOutline.Proofs.PlainNames
import CssOutline.Proofs.KeyOrigins
import CssOutline.Proofs.ConditionKeys
import CssOutline.Proofs.LineEnds
import CssOutline.Proofs.RulePlaces
import CssOutline.Proofs.Inputs
import CssOutline.Proofs.SumSources
import CssOutline.Proofs.WrittenSelectors
import CssOutline.Proofs.NumberTexts
