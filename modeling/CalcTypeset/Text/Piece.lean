import CalcTypeset.Text.Basic

/-!
# Pieces of a text

A pass cuts a text into pieces: stretches that stay as they are, and sites, which it has read as
something. What a pass then does is one function of the sites: write each anew, list them, or ask
whether there is any.
-/

namespace CalcTypeset

/-- A stretch that is left alone, or a site read as an `α`. -/
inductive Piece (α : Type) where
  | plain (t : Text)
  | site (a : α)
deriving Repr, DecidableEq

namespace Piece

variable {α : Type}

/-- The text of a piece, its site written by `render`. -/
def write (render : α → Text) : Piece α → Text
  | plain t => t
  | site a => render a

/-- What the piece was read as. -/
def site? : Piece α → Option α
  | plain _ => none
  | site a => some a

/-- The pieces one after the other. -/
def writeAll (render : α → Text) (ps : List (Piece α)) : Text := ps.flatMap (write render)

/-- The sites in their order. -/
def sites (ps : List (Piece α)) : List α := ps.filterMap site?

@[simp] theorem writeAll_nil (render : α → Text) : writeAll render [] = [] := rfl

@[simp] theorem writeAll_plain (render : α → Text) (t : Text) (ps : List (Piece α)) :
    writeAll render (plain t :: ps) = t ++ writeAll render ps := by
  simp [writeAll, write]

@[simp] theorem writeAll_site (render : α → Text) (a : α) (ps : List (Piece α)) :
    writeAll render (site a :: ps) = render a ++ writeAll render ps := by
  simp [writeAll, write]

@[simp] theorem sites_nil : sites ([] : List (Piece α)) = [] := rfl

@[simp] theorem sites_plain (t : Text) (ps : List (Piece α)) :
    sites (plain t :: ps) = sites ps := rfl

@[simp] theorem sites_site (a : α) (ps : List (Piece α)) :
    sites (site a :: ps) = a :: sites ps := rfl

end Piece

end CalcTypeset
