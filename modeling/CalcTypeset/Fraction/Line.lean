import CalcTypeset.Fraction.Argument
import CalcTypeset.Fraction.CallDividend

/-!
# Divisions of a line

The divisions of a line are rewritten in a fixed order: inside the arguments of calls, below
closed calls, between groups, below flat calls and groups, and last between what remains. Each
kind is one scan that never looks at what it has written, so a slash gives at most one fraction.

In what remains, a chain of divisions is read from the left: a product in front of a slash is the
dividend as a whole, and a divisor is bound only where the multiplicative term ends.
-/

namespace CalcTypeset.Fraction

/-- Products in a line: factors joined by the multiplication sign. -/
def lineProduct : ProductNotation where
  sign := Markup.timesSign
  isFactorChar := isTermChar
  whole := .never

/-- Division sites of a line without regard to its calls: a group over a group, a product over a
term, a term over a call, a term over a term. -/
def basicSites : List (Recogniser Quotient) :=
  [division (withExponent group) spacedSlash groupContent, lineProduct.overTerm,
    division term spacedSlash endedCall, division term spacedSlash endedTerm]

/-- Two groups with markup around a slash. Their parentheses go when calls are typeset, since
sized ones are set around the fraction where it needs them. -/
def markupGroups (style : CallStyle) : Recogniser Quotient :=
  let groups :=
    match style with
    | .asTyped => markupContent.map Markup.parenthesised
    | .typeset => markupContent
  division groups tightSlash groups

/-- Two groups around a slash. Each keeps its parentheses, with its content braced. -/
def plainGroups : Recogniser Quotient :=
  let groups := groupContent.map fun t => Markup.parenthesised (Markup.braced t)
  division groups tightSlash groups

/-- Division sites that are looked at between the calls and what remains: two groups around a
slash, then a flat call or a group over a term. -/
def groupSites (style : CallStyle) : List (Recogniser Quotient) :=
  [markupGroups style, plainGroups, division (withExponent filledCall) spacedSlash term,
    division (withExponent group) spacedSlash term]

/-- Rewrites the divisions between plain terms, products, calls and groups. -/
def rewriteBasic : Text → Text := rewriteSites basicSites

/-- Rewrites the divisions of a line. -/
def rewrite (style : CallStyle) (s : Text) : Text :=
  rewriteBasic (rewriteSites (groupSites style) (rewriteCallDividends (rewriteArguments style s)))

end CalcTypeset.Fraction
