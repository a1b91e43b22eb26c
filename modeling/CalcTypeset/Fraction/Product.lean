import CalcTypeset.Fraction.Quotient
import CalcTypeset.Variable

/-!
# Products over a term

A product of two or more factors that is divided by a term becomes the dividend as a whole. The
multiplication sign is itself made of term characters, so a run of them can be cut into factors in
several ways; the reading prefers to go on with the factor at hand, then to take a further factor,
and ends the product only when neither leads to a slash.

Two notations share this reading: in an argument factors are joined by an asterisk, and a factor
may be a bracketed reference that holds anything; in a line they are joined by the multiplication
sign.
-/

namespace CalcTypeset.Fraction

open Text

/-- How the factors of a product are written. -/
structure ProductNotation where
  /-- The sign between two factors. -/
  sign : Text
  /-- A character of a factor after the first. -/
  isFactorChar : Char → Bool
  /-- Factors after the first that are read as a whole. -/
  whole : Recogniser Text

/-- What is left to read of the factor at hand. -/
inductive FactorState where
  /-- In the first factor. -/
  | first
  /-- In a later factor. -/
  | later
  /-- Behind a factor that was read as a whole. -/
  | complete
deriving DecidableEq, Repr

namespace ProductNotation

variable (f : ProductNotation)

/-- Whether the factor at hand may go on with a character. -/
def accepts : FactorState → Char → Bool
  | .first, c => isTermChar c
  | .later, c => f.isFactorChar c
  | .complete, _ => false

/-- The beginning of a factor after the first, and the state behind it: one character, or the
factor as a whole. -/
def factorStart : Recogniser (Text × FactorState) :=
  ((Recogniser.char f.isFactorChar).map fun c => ([c], .later)).orElse
    (f.whole.map fun t => (t, .complete))

/-- Takes a sign, with the blanks around it, and the beginning of a factor. Gives what was taken,
the state behind it, and the rest. -/
def nextFactor? (s : Text) : Option (Text × FactorState × Text) :=
  (after? f.sign (skipBlanks s)).bind fun r =>
    (f.factorStart.read? (skipBlanks r)).map fun x =>
      (s.takeWhile isBlank ++ f.sign ++ r.takeWhile isBlank ++ x.1.1, x.1.2, x.2)

theorem nextFactor?_length {s t r : Text} {st : FactorState}
    (h : f.nextFactor? s = some (t, st, r)) : r.length < s.length := by
  obtain ⟨r₁, h₁, h⟩ := Option.bind_eq_some_iff.1 h
  obtain ⟨x, h₂, he⟩ := Option.map_eq_some_iff.1 h
  cases he
  have hs := skipBlanks_length s
  have hr := skipBlanks_length r₁
  have h₁ := after?_length h₁
  have h₂ := f.factorStart.shrinks h₂
  omega

/-- A quotient whose dividend has `t` in front, and the rest behind it. -/
def prepend (t : Text) (x : Quotient × Text) : Quotient × Text :=
  (⟨t ++ x.1.dividend, x.1.divisor⟩, x.2)

/-- The end of a product: a slash and the divisor, with nothing in front yet. -/
def finish : Recogniser Quotient := divisor.map fun d => ⟨[], d⟩

/-- Reads on in a product, in the middle of a factor. The product may end here unless this is its
first factor. -/
def continue? (st : FactorState) (s : Text) : Option (Quotient × Text) :=
  (match s with
    | [] => none
    | c :: s => if f.accepts st c then (continue? st s).map (prepend [c]) else none) <|>
  (match _h : f.nextFactor? s with
    | none => none
    | some (t, st', r) =>
        have _hr := f.nextFactor?_length _h
        (continue? st' r).map (prepend t)) <|>
  (if st = .first then none else finish.read? s)
termination_by s.length
decreasing_by
  · exact Nat.lt_succ_self _
  · exact _hr

/-- What was read of a product went on with the factor at hand, took a further factor, or ended the
product, which has a second factor then. -/
theorem continue?_induction {f : ProductNotation}
    {motive : ∀ st s q r, f.continue? st s = some (q, r) → Prop}
    (extend : ∀ {st q r} (c s) {h h'}, f.accepts st c = true →
      motive st s q r h → motive st (c :: s) ⟨c :: q.dividend, q.divisor⟩ r h')
    (factor : ∀ {st q r} (s t st' s') {h h'}, f.nextFactor? s = some (t, st', s') →
      motive st' s' q r h → motive st s ⟨t ++ q.dividend, q.divisor⟩ r h')
    (finish : ∀ {st} (s q r) {h'}, st ≠ .first → finish.read? s = some (q, r) → motive st s q r h')
    {st : FactorState} {s : Text} {q : Quotient} {r : Text}
    (h : f.continue? st s = some (q, r)) : motive st s q r h := by
  fun_induction continue? f st s generalizing q r with
  | case1 st s ihExtend ihFactor =>
      have hread := h
      rw [continue?.eq_def] at hread
      simp only [Option.orElse_eq_orElse, Option.orElse_eq_or, Option.or_eq_some_iff] at hread
      rcases hread with hread | ⟨-, hread | ⟨-, hread⟩⟩
      · split at hread
        · cases hread
        · split at hread
          · next hc =>
              obtain ⟨x, hx, he⟩ := Option.map_eq_some_iff.1 hread
              cases he
              exact extend _ _ hc (ihExtend hx)
          · cases hread
      · split at hread
        · cases hread
        · next hn =>
            obtain ⟨x, hx, he⟩ := Option.map_eq_some_iff.1 hread
            cases he
            exact factor _ _ _ _ hn (ihFactor _ _ _ hn hx)
      · split at hread
        · cases hread
        · next hst => exact finish _ _ _ hst hread

theorem continue?_length {st : FactorState} {s r : Text} {q : Quotient}
    (h : f.continue? st s = some (q, r)) : r.length < s.length := by
  induction h using continue?_induction with
  | extend c s hc ih => exact Nat.lt_succ_of_lt ih
  | factor s t st' s' hn ih => exact Nat.lt_trans ih (f.nextFactor?_length hn)
  | finish s q r hst h => exact ProductNotation.finish.shrinks h

/-- Recognises what is left of a product over a term, in the middle of a factor. -/
def remainder (st : FactorState) : Recogniser Quotient := ⟨f.continue? st, f.continue?_length⟩

/-- A product of at least two factors over a term. -/
def overTerm : Recogniser Quotient :=
  (Recogniser.char isTermChar).bind fun c =>
    (f.remainder .first).map fun q => ⟨c :: q.dividend, q.divisor⟩

end ProductNotation

end CalcTypeset.Fraction
