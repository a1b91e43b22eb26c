import CalcTypeset.Text.Recogniser

/-!
# MathML elements

What an engine makes of a line is a text that should be one `math` element with the MathML
namespace. An engine may leave out the element, leave out the namespace, or name it twice in a
row; each is dealt with here.
-/

namespace CalcTypeset.MathML

open Text

/-- The MathML namespace. -/
def namespaceName : Text := "http://www.w3.org/1998/Math/MathML".toList

/-- The beginning of a `math` start tag. -/
def tagOpen : Text := "<math".toList

/-- The beginning of a namespace attribute. -/
def attributeOpen : Text := "xmlns=\"".toList

/-- The beginning of a namespace attribute, whatever quotes it. -/
def attributeName : Text := "xmlns=".toList

/-- The attribute that names the namespace, with the space in front. -/
def namespaceAttribute : Text := " xmlns=\"".toList ++ namespaceName ++ ['"']

/-- A `math` element with the given content. -/
def wrap (display content : Text) : Text :=
  tagOpen ++ namespaceAttribute ++ " display=\"".toList ++ display ++ "\">".toList ++ content ++
    "</math>".toList

/-- Whether another namespace attribute, set off by a blank, follows in the same tag. -/
def hasFurtherNamespace (s : Text) : Bool := go (s.takeWhile (· != '>'))
where
  go : Text → Bool
    | [] => false
    | c :: s => isBlank c && startsWith attributeName s || go s

/-- A namespace attribute with the blanks in front of it, where another one follows. -/
def repeatedNamespace : Recogniser Text :=
  ((Recogniser.run isBlank).bind fun _ =>
    (Recogniser.literal attributeOpen (List.cons_ne_nil _ _)).bind fun _ =>
      .upTo '"').followedBy hasFurtherNamespace

/-- The first `math` start tag, with the namespace put in. -/
def addNamespace : Text → Text :=
  (Recogniser.literal tagOpen (List.cons_ne_nil _ _)).replaceFirst fun _ =>
    tagOpen ++ namespaceAttribute

/-- Wraps a text without a `math` tag in an element; else puts the namespace into the first tag when
none is named, and drops the first namespace attribute that another one follows. -/
def ensureNamespace (display m : Text) : Text :=
  if !occurs tagOpen m then wrap display m
  else
    let m := if occurs attributeOpen m then m else addNamespace m
    repeatedNamespace.replaceFirst (fun _ => []) m

end CalcTypeset.MathML
