import CalcTypeset.Bracket
import CalcTypeset.Call.Basic
import CalcTypeset.Fraction.Operand
import CalcTypeset.Fraction.Product
import CalcTypeset.Text.WordRun

/-!
# Divisions in arguments

The argument of a call is rewritten on its own, before the line around it. Products go back to
asterisks for it, so that a factor ends at a sign of one character, and become multiplication
signs again afterwards. An argument without a slash is passed over, and the calls inside it are
looked at in turn; an argument that was rewritten is not entered again.
-/

namespace CalcTypeset.Fraction

open Text

/-- Products in an argument: factors joined by asterisks, references taken whole. -/
def argumentProduct : ProductNotation where
  sign := ['*']
  isFactorChar c := isTermChar c && c != '[' && c != ']'
  whole := Reference.reference.map Reference.write

/-- Division sites of an argument, in the order in which they are rewritten: a product over a
term, a term over a call, a group over a group, a term over a term. Groups keep their parentheses
unless calls are typeset. -/
def argumentSites (style : CallStyle) : List (Recogniser Quotient) :=
  let groups :=
    match style with
    | .asTyped => group
    | .typeset => groupContent
  [argumentProduct.overTerm, division term spacedSlash call, division groups tightSlash groups,
    division term spacedSlash term]

/-- Rewrites every site of each kind, one kind after the other. -/
def rewriteSites (kinds : List (Recogniser Quotient)) (s : Text) : Text :=
  kinds.foldl (fun s p => p.replaceAll Quotient.write s) s

/-- Multiplication signs go back to asterisks. -/
def starProducts : Text → Text :=
  (Recogniser.literal Markup.timesSign Markup.timesSign_ne_nil).replaceAll fun _ => ['*']

/-- Asterisks become multiplication signs, whatever stands around them. -/
def unstarProducts : Text → Text :=
  (Recogniser.single '*').replaceAll fun _ => Markup.times

/-- Rewrites the divisions of one argument. -/
def rewriteArgument (style : CallStyle) (s : Text) : Text :=
  unstarProducts (rewriteSites (argumentSites style) (starProducts s))

/-- Behind a name, a closed group that holds a slash. -/
def slashedCall : WordRule Call := fun w =>
  (Bracket.group.filter fun t => t.contains '/').map fun t => ⟨w, t⟩

/-- Rewrites the divisions in the arguments of calls. -/
def rewriteArguments (style : CallStyle) : Text → Text :=
  slashedCall.replaceAll fun c => Call.write ⟨c.name, rewriteArgument style c.content⟩

end CalcTypeset.Fraction
