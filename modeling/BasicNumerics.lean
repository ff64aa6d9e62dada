import BasicNumerics.Main
import BasicNumerics.Printing.Using
import BasicNumerics.Proofs.Expr.Climbing
import BasicNumerics.Proofs.Expr.Precedence
import BasicNumerics.Proofs.Expr.Rendering
import BasicNumerics.Proofs.Floating.ByteOrder
import BasicNumerics.Proofs.Floating.Cut
import BasicNumerics.Proofs.Floating.Difference
import BasicNumerics.Proofs.Floating.Digits
import BasicNumerics.Proofs.Floating.Exact
import BasicNumerics.Proofs.Floating.Fits
import BasicNumerics.Proofs.Floating.InPlace
import BasicNumerics.Proofs.Floating.Incoming
import BasicNumerics.Proofs.Floating.OfDecimal
import BasicNumerics.Proofs.Floating.Powers
import BasicNumerics.Proofs.Floating.Precisions
import BasicNumerics.Proofs.Floating.Product
import BasicNumerics.Proofs.Floating.Quotient
import BasicNumerics.Proofs.Floating.Reading
import BasicNumerics.Proofs.Floating.RoundTrip
import BasicNumerics.Proofs.Floating.ScalingLoops
import BasicNumerics.Proofs.Floating.ScalingRuns
import BasicNumerics.Proofs.Floating.StoringOnce
import BasicNumerics.Proofs.Floating.WholeNumbers
import BasicNumerics.Proofs.Floating.WholePart
import BasicNumerics.Proofs.Floating.ZeroBits
import BasicNumerics.Proofs.Literal.Grammar
import BasicNumerics.Proofs.Literal.KeptDigits
import BasicNumerics.Proofs.Literal.Scanning
import BasicNumerics.Proofs.Literal.Value
import BasicNumerics.Proofs.Literal.Walking
import BasicNumerics.Proofs.Printing.Denotation
import BasicNumerics.Proofs.Printing.Fixed
import BasicNumerics.Proofs.Printing.Layout
import BasicNumerics.Proofs.Printing.Listing
import BasicNumerics.Proofs.Printing.Scientific
import BasicNumerics.Proofs.Register.Refinement
import BasicNumerics.Proofs.Session.LiteralKind
import BasicNumerics.Proofs.Session.Tolerance
import BasicNumerics.Proofs.Session.Typed
import BasicNumerics.Proofs.Text.Numerals
import BasicNumerics.Proofs.Text.Rounding
import BasicNumerics.Proofs.Value.Order
import BasicNumerics.Proofs.Value.Symmetry
import BasicNumerics.Proofs.Value.TokenStream
import BasicNumerics.Proofs.Value.Widening
import BasicNumerics.Value.Token
