import NetPattern.Address.ColonGroups
import NetPattern.Address.DottedQuad
import NetPattern.Address.Family
import NetPattern.Address.QuadWord
import NetPattern.Address.Written
import NetPattern.Cidr
import NetPattern.CidrError
import NetPattern.CommandLine
import NetPattern.Distinct
import NetPattern.Fragment.Basic
import NetPattern.Fragment.Hextet
import NetPattern.Fragment.Octet
import NetPattern.Fragment.Words
import NetPattern.Json.Basic
import NetPattern.Json.Reader
import NetPattern.Json.Token
import NetPattern.Json.Units
import NetPattern.Main
import NetPattern.Masks
import NetPattern.Numeral
import NetPattern.Options.Basic
import NetPattern.Options.Reader
import NetPattern.Pattern
import NetPattern.PatternSet
import NetPattern.PatternSet.Words
import NetPattern.Positional
import NetPattern.Proofs.Address.ColonGroups
import NetPattern.Proofs.Address.DottedQuad
import NetPattern.Proofs.Address.FullForm
import NetPattern.Proofs.Address.QuadWord
import NetPattern.Proofs.Address.Spelling
import NetPattern.Proofs.Aligned
import NetPattern.Proofs.Cidr
import NetPattern.Proofs.Cidr.Classification
import NetPattern.Proofs.CommandLine
import NetPattern.Proofs.Distinct
import NetPattern.Proofs.Fragment.Balanced
import NetPattern.Proofs.Fragment.Case
import NetPattern.Proofs.Fragment.Digit
import NetPattern.Proofs.Fragment.Hextet
import NetPattern.Proofs.Fragment.Language
import NetPattern.Proofs.Fragment.Octet
import NetPattern.Proofs.Fragment.Phrase
import NetPattern.Proofs.Fragment.Preference
import NetPattern.Proofs.Fragment.Scan
import NetPattern.Proofs.Fragment.Stages
import NetPattern.Proofs.Fragment.Structure
import NetPattern.Proofs.Fragment.Union
import NetPattern.Proofs.Fragment.Words
import NetPattern.Proofs.Grammar
import NetPattern.Proofs.Numeral
import NetPattern.Proofs.Pattern
import NetPattern.Proofs.Pattern.Canonical
import NetPattern.Proofs.Pattern.Case
import NetPattern.Proofs.Pattern.Parsed
import NetPattern.Proofs.Pattern.Search
import NetPattern.Proofs.Pattern.Source
import NetPattern.Proofs.Pattern.WholeQuad
import NetPattern.Proofs.PatternSet
import NetPattern.Proofs.PatternSet.Words
import NetPattern.Proofs.Positional
import NetPattern.Proofs.Prefix
import NetPattern.Proofs.Program
import NetPattern.Proofs.Row.Aligned
import NetPattern.Proofs.Row.Boxes
import NetPattern.Proofs.Row.Classes
import NetPattern.Proofs.Row.Collapse
import NetPattern.Proofs.Row.Decomposition
import NetPattern.Proofs.Row.Grouping
import NetPattern.Proofs.Row.Intervals
import NetPattern.Proofs.Row.Language
import NetPattern.Proofs.Row.Merge
import NetPattern.Proofs.Row.Preference
import NetPattern.Proofs.Row.Stages
import NetPattern.Proofs.Runs
import NetPattern.Proofs.Search
import NetPattern.Proofs.SegmentOrder
import NetPattern.Proofs.Segments
import NetPattern.Proofs.Session
import NetPattern.Proofs.WrittenForm
import NetPattern.Range
import NetPattern.Regex.Basic
import NetPattern.Regex.Language
import NetPattern.Regex.LeftFactor
import NetPattern.Regex.LeftFactor.Language
import NetPattern.Regex.Match
import NetPattern.Regex.Preference
import NetPattern.Regex.Program
import NetPattern.Regex.Reader
import NetPattern.Regex.RoundTrip
import NetPattern.Row.Basic
import NetPattern.Row.Decomposition
import NetPattern.Row.Grouping
import NetPattern.Row.Merge
import NetPattern.Session
import NetPattern.Text.Blank
