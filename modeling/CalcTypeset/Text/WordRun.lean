import CalcTypeset.Text.Recogniser
import CalcTypeset.Text.WordChar

/-!
# Word runs

The names in a line are its longest runs of word characters. A word rule says for such a run what
has to follow it; where that is read, the run and what follows are a site. Since runs are taken
whole, a rule never sees a name that is the tail of a longer one.
-/

namespace CalcTypeset

/-- For a word run, what is read behind it. -/
abbrev WordRule (α : Type) := Text → Recogniser α

namespace WordRule

variable {α : Type} (f : WordRule α)

/-- The text cut at the sites of the rule. A run that is no site stays whole. -/
def pieces : Text → List (Piece α)
  | [] => []
  | c :: s =>
      have _hs := Text.length_dropWhile_le Text.isWordChar s
      if Text.isWordChar c then
        match h : (f (c :: s.takeWhile Text.isWordChar)).read? (s.dropWhile Text.isWordChar) with
        | some (a, r) =>
            have _hr := (f _).shrinks h
            .site a :: pieces r
        | none =>
            .plain (c :: s.takeWhile Text.isWordChar) :: pieces (s.dropWhile Text.isWordChar)
      else .plain [c] :: pieces s
termination_by s => s.length
decreasing_by all_goals simp only [List.length_cons]; omega

/-- The text with every site written anew. -/
def replaceAll (render : α → Text) (s : Text) : Text := Piece.writeAll render (f.pieces s)

/-- Whether the text has a site. -/
def occurs (s : Text) : Bool := !(Piece.sites (f.pieces s)).isEmpty

@[simp] theorem pieces_nil : f.pieces [] = [] := by rw [pieces]

theorem pieces_cons_of_not_isWordChar {c : Char} (s : Text) (hc : Text.isWordChar c = false) :
    f.pieces (c :: s) = .plain [c] :: f.pieces s := by
  rw [pieces]
  simp [hc]

/-- A run that the rule reads is a site, and the scan goes on behind it. -/
theorem pieces_of_read {s w r r' : Text} {a : α} (hw : Text.run? Text.isWordChar s = some (w, r))
    (h : (f w).read? r = some (a, r')) : f.pieces s = .site a :: f.pieces r' := by
  obtain ⟨c, t, rfl, hc, rfl, rfl⟩ := Text.exists_of_run? hw
  rw [pieces]
  simp only [hc, if_true]
  split
  · next h' => rw [h] at h'; cases h'; rfl
  · next h' => rw [h] at h'; cases h'

/-- A run that the rule does not read is passed whole. -/
theorem pieces_of_none {s w r : Text} (hw : Text.run? Text.isWordChar s = some (w, r))
    (h : (f w).read? r = none) : f.pieces s = .plain w :: f.pieces r := by
  obtain ⟨c, t, rfl, hc, rfl, rfl⟩ := Text.exists_of_run? hw
  rw [pieces]
  simp only [hc, if_true]
  split
  · next h' => rw [h] at h'; cases h'
  · rfl

end WordRule

end CalcTypeset
