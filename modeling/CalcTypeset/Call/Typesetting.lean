import CalcTypeset.Call.Basic
import CalcTypeset.Call.Replacement
import CalcTypeset.Vocabulary

/-!
# Typesetting the calls of the known functions

Each function has its own way of showing its argument. Angles are in degrees: the direct
trigonometric functions mark their argument, the inverse ones their value. Parentheses grow around
an argument that holds a fraction, under a condition that depends on the function.
-/

namespace CalcTypeset

open Text Markup

namespace KnownFunction

/-- An angle in degrees, marked once. -/
def markedOnce (content : Text) : Text :=
  if content.contains degree then content else content ++ [degree]

/-- Whether the parentheses around the argument grow. -/
def isSized (f : KnownFunction) (content : Text) : Bool :=
  occurs fracOpen content &&
    match f with
    | acos => occurs sqrtOpen content || Call.flatCall.occurs content
    | atan => !occurs timesSign content
    | ln => true
    | _ => false

/-- The argument between parentheses of the size it needs. -/
def delimited (f : KnownFunction) (content : Text) : Text :=
  if f.isSized content then sized content else parenthesised content

/-- A call with the given content as it is typeset. -/
def typeset (f : KnownFunction) (content : Text) : Text :=
  match f with
  | sin | cos | tan => f.latex ++ parenthesised (markedOnce content)
  | asin | acos | atan => f.latex ++ f.delimited content ++ [degree]
  | log | ln => f.latex ++ f.delimited content
  | sqrt => f.latex ++ braced content
  | exp => "e^".toList ++ braced content
  | dtor => f.latex ++ parenthesised (content ++ [degree])
  | rtod => f.latex ++ parenthesised content ++ [degree]

/-- The calls of one function are typeset. -/
def typesetCalls (f : KnownFunction) : Text → Text := Call.replace f.name f.typeset

/-- The calls of all functions are typeset, one function after the other. -/
def typesetEach (s : Text) : Text := typesetOrder.foldl (fun s f => f.typesetCalls s) s

end KnownFunction

end CalcTypeset
