import CalcTypeset.Text.Blank
import CalcTypeset.Text.Piece

/-!
# Recognisers

A recogniser reads a piece at the start of a text and always takes something of it. Run over a
text from left to right it cuts the text into sites and single characters: where it reads, the
scan goes on behind what was read, and elsewhere one character is passed. So sites are disjoint,
each starts as far left as possible, and what is written for a site is never looked at again.
-/

namespace CalcTypeset

/-- Reads a piece at the start of a text and hands back the rest, which is shorter. -/
structure Recogniser (α : Type) where
  read? : Text → Option (α × Text)
  shrinks : ∀ {s a r}, read? s = some (a, r) → r.length < s.length

namespace Recogniser

variable {α : Type} (p : Recogniser α)

/-- The text cut at the sites of the recogniser. -/
def pieces : Text → List (Piece α)
  | [] => []
  | c :: s =>
      match h : p.read? (c :: s) with
      | some (a, r) =>
          have _hr := p.shrinks h
          .site a :: pieces r
      | none => .plain [c] :: pieces s
termination_by s => s.length
decreasing_by all_goals simp only [List.length_cons] at *; omega

/-- The text with every site written anew. -/
def replaceAll (render : α → Text) (s : Text) : Text := Piece.writeAll render (p.pieces s)

/-- The text with its first site written anew, and all else as it is. -/
def replaceFirst (render : α → Text) : Text → Text
  | [] => []
  | c :: s =>
      match p.read? (c :: s) with
      | some (a, r) => render a ++ r
      | none => c :: replaceFirst render s

/-- The sites of the text from left to right. -/
def sites (s : Text) : List α := Piece.sites (p.pieces s)

/-- Whether the text has a site. -/
def occurs (s : Text) : Bool := !(p.sites s).isEmpty

theorem read?_nil : p.read? [] = none := by
  match h : p.read? [] with
  | none => rfl
  | some (a, r) => exact absurd (p.shrinks h) (by simp)

@[simp] theorem pieces_nil : p.pieces [] = [] := by rw [pieces]

theorem pieces_of_read {s r : Text} {a : α} (h : p.read? s = some (a, r)) :
    p.pieces s = .site a :: p.pieces r := by
  match s with
  | [] => simp [p.read?_nil] at h
  | c :: s =>
      rw [pieces]
      split
      · next h' => rw [h] at h'; cases h'; rfl
      · next h' => rw [h] at h'; cases h'

theorem pieces_of_none {c : Char} {s : Text} (h : p.read? (c :: s) = none) :
    p.pieces (c :: s) = .plain [c] :: p.pieces s := by
  rw [pieces]
  split
  · next h' => rw [h] at h'; cases h'
  · rfl

@[simp] theorem replaceAll_nil (render : α → Text) : p.replaceAll render [] = [] := by
  simp [replaceAll]

theorem replaceAll_of_read {s r : Text} {a : α} (render : α → Text)
    (h : p.read? s = some (a, r)) :
    p.replaceAll render s = render a ++ p.replaceAll render r := by
  simp [replaceAll, p.pieces_of_read h]

theorem replaceAll_of_none {c : Char} {s : Text} (render : α → Text)
    (h : p.read? (c :: s) = none) :
    p.replaceAll render (c :: s) = c :: p.replaceAll render s := by
  simp [replaceAll, p.pieces_of_none h]

/-! Recognisers are put together from smaller ones. -/

/-- What is read, turned into something else. -/
def map {β : Type} (g : α → β) : Recogniser β where
  read? s := (p.read? s).map fun x => (g x.1, x.2)
  shrinks h := by
    obtain ⟨x, hx, he⟩ := Option.map_eq_some_iff.1 h
    cases he
    exact p.shrinks hx

/-- One reading after another, which may depend on what the first one read. -/
def bind {β : Type} (q : α → Recogniser β) : Recogniser β where
  read? s := (p.read? s).bind fun x => (q x.1).read? x.2
  shrinks h := by
    obtain ⟨x, hx, hq⟩ := Option.bind_eq_some_iff.1 h
    exact Nat.lt_trans ((q x.1).shrinks hq) (p.shrinks hx)

/-- The first of two readings that succeeds. -/
def orElse (q : Recogniser α) : Recogniser α where
  read? s := p.read? s <|> q.read? s
  shrinks h := by
    simp only [Option.orElse_eq_orElse, Option.orElse_eq_or, Option.or_eq_some_iff] at h
    rcases h with h | ⟨-, h⟩
    · exact p.shrinks h
    · exact q.shrinks h

/-- Only what passes the test is read. -/
def filter (test : α → Bool) : Recogniser α where
  read? s := (p.read? s).filter fun x => test x.1
  shrinks h := p.shrinks (Option.filter_eq_some_iff.1 h).1

/-- Only what is followed by a text that passes the test is read. -/
def followedBy (test : Text → Bool) : Recogniser α where
  read? s := (p.read? s).filter fun x => test x.2
  shrinks h := p.shrinks (Option.filter_eq_some_iff.1 h).1

/-- The same reading with the blanks around it. -/
def spaced : Recogniser α where
  read? s := (p.read? (Text.skipBlanks s)).map fun x => (x.1, Text.skipBlanks x.2)
  shrinks {s a r} h := by
    obtain ⟨x, hx, he⟩ := Option.map_eq_some_iff.1 h
    cases he
    have hs := Text.skipBlanks_length s
    have hr := Text.skipBlanks_length x.2
    have hp := p.shrinks hx
    omega

/-- Reads nothing at all. -/
def never : Recogniser α where
  read? _ := none
  shrinks h := nomatch h

/-- One character of a class. -/
def char (test : Char → Bool) : Recogniser Char where
  read? s := s.head?.bind fun c => if test c then some (c, s.tail) else none
  shrinks {s a r} h := by
    obtain ⟨c, hc, h⟩ := Option.bind_eq_some_iff.1 h
    split at h
    · cases h
      have := List.length_pos_iff.2 (List.ne_nil_of_mem (List.mem_of_mem_head? hc))
      rw [List.length_tail]
      omega
    · cases h

/-- The longest run of a class of characters. -/
def run (test : Char → Bool) : Recogniser Text := ⟨Text.run? test, Text.run?_length⟩

/-- The literal `lit`, which holds at least one character. -/
def literal (lit : Text) (nonempty : lit ≠ []) : Recogniser Unit where
  read? s := (Text.after? lit s).map ((), ·)
  shrinks h := by
    obtain ⟨r, hr, he⟩ := Option.map_eq_some_iff.1 h
    cases he
    have := Text.after?_length hr
    have := List.length_pos_iff.2 nonempty
    omega

/-- The literal of one character. -/
def single (c : Char) : Recogniser Unit := literal [c] (List.cons_ne_nil _ _)

/-- The text up to the first occurrence of a character, which is read with it. -/
def upTo (c : Char) : Recogniser Text where
  read? := Text.splitAt? c
  shrinks h := by
    have := Text.splitAt?_length h
    omega

@[simp] theorem read?_map {β : Type} (g : α → β) (s : Text) :
    (p.map g).read? s = (p.read? s).map fun x => (g x.1, x.2) := rfl

@[simp] theorem read?_bind {β : Type} (q : α → Recogniser β) (s : Text) :
    (p.bind q).read? s = (p.read? s).bind fun x => (q x.1).read? x.2 := rfl

@[simp] theorem read?_orElse (q : Recogniser α) (s : Text) :
    (p.orElse q).read? s = (p.read? s <|> q.read? s) := rfl

@[simp] theorem read?_filter (test : α → Bool) (s : Text) :
    (p.filter test).read? s = (p.read? s).filter fun x => test x.1 := rfl

@[simp] theorem read?_followedBy (test : Text → Bool) (s : Text) :
    (p.followedBy test).read? s = (p.read? s).filter fun x => test x.2 := rfl

@[simp] theorem read?_spaced (s : Text) :
    p.spaced.read? s =
      (p.read? (Text.skipBlanks s)).map fun x => (x.1, Text.skipBlanks x.2) := rfl

@[simp] theorem read?_run (test : Char → Bool) (s : Text) :
    (run test).read? s = Text.run? test s := rfl

@[simp] theorem read?_upTo (c : Char) (s : Text) : (upTo c).read? s = Text.splitAt? c s := rfl

/-- A literal is read exactly where the text starts with it. -/
theorem read?_literal_eq_some_iff {lit : Text} {h : lit ≠ []} {s r : Text} {u : Unit} :
    (literal lit h).read? s = some (u, r) ↔ s = lit ++ r := by
  cases u
  simp [literal, Text.after?_eq_some_iff]

end Recogniser

end CalcTypeset
