import RowQuery.Text.Fold
import RowQuery.Text.Blank
import RowQuery.Text.Letter
import RowQuery.Text.LetterCase
import RowQuery.Integer
import RowQuery.Binary
import RowQuery.Binary.Text
import RowQuery.Decimal.Text
import RowQuery.Decimal.Conversion
import RowQuery.TimeSpan
import RowQuery.Value
import RowQuery.Catalog
import RowQuery.Main
import RowQuery.Proofs.Reading
import RowQuery.Proofs.Conformance
import RowQuery.Proofs.Derivation
import RowQuery.Proofs.Operations
import RowQuery.Proofs.Related
import RowQuery.Proofs.Members
import RowQuery.Proofs.Resolution
import RowQuery.Proofs.TypingRules
import RowQuery.Proofs.TypedEvaluation
import RowQuery.Proofs.Soundness
import RowQuery.Proofs.SlotDiscipline
import RowQuery.Proofs.Scanning
import RowQuery.Proofs.Formula
import RowQuery.Proofs.RoundTrip
import RowQuery.Proofs.Substitution
import RowQuery.Proofs.MemberPhrases
import RowQuery.Proofs.Grafting
import RowQuery.Proofs.Embedding
import RowQuery.Proofs.QuerySteps
import RowQuery.Proofs.FilterFusion
import RowQuery.Proofs.ValueOrder
import RowQuery.Proofs.StableOrder
import RowQuery.Proofs.OrderingChain
import RowQuery.Proofs.Grouping
import RowQuery.Proofs.IntegerConversion
import RowQuery.Proofs.IntegerComparison
import RowQuery.Proofs.Dominance
import RowQuery.Proofs.Compatibility
import RowQuery.Proofs.LosslessPromotion
import RowQuery.Proofs.NameFolding
import RowQuery.Proofs.Respelling
import RowQuery.Proofs.TextVariants
import RowQuery.Proofs.ArgumentValues
import RowQuery.Proofs.FilterAggregate
import RowQuery.Proofs.ProjectedFields
import RowQuery.Proofs.DataText
import RowQuery.Proofs.WrittenRows
import RowQuery.Proofs.ComparisonLaws
import RowQuery.Proofs.ShapeRequests
import RowQuery.Proofs.ComparisonCoherence
import RowQuery.Proofs.FilterComplement
import RowQuery.Proofs.Quotation
import RowQuery.Proofs.ReadRows
import RowQuery.Proofs.BinaryExactness
import RowQuery.Proofs.Boxing
import RowQuery.Proofs.DisplayText
import RowQuery.Proofs.CheckedConversion
import RowQuery.Proofs.IntegerLiterals
import RowQuery.Proofs.OperandTexts
import RowQuery.Proofs.NarrowEquality
import RowQuery.Proofs.IntegerArithmetic
import RowQuery.Proofs.Selection
import RowQuery.Proofs.CheckedSum
import RowQuery.Proofs.MemberOperands
import RowQuery.Proofs.StringMembers
import RowQuery.Proofs.Extremes
import RowQuery.Proofs.Receivers
import RowQuery.Proofs.ItemConditions
import RowQuery.Proofs.Quantifiers
import RowQuery.Proofs.TimeComponents
import RowQuery.Proofs.Tokenization
import RowQuery.Proofs.CursorProgress
import RowQuery.Proofs.ErrorPlaces
import RowQuery.Proofs.ErrorMarks
import RowQuery.Proofs.ObjectLayout
import RowQuery.Proofs.OperandForms
import RowQuery.Proofs.ExpressionDepth
import RowQuery.Proofs.TreeHeight
import RowQuery.Proofs.TypeNames
import RowQuery.Proofs.SchemaClosure
import RowQuery.Proofs.MarkedFields
import RowQuery.Proofs.OpenGrammar
import RowQuery.Proofs.RestoredStacks
