/-!
# Texts

Every pass of the library works on the characters of a line, so a text is a list of characters
and positions are counted in characters. This file holds the readings that need to know nothing
about the characters themselves: a literal at the start of a text, a literal anywhere in it, and
the longest non-empty run of a class.

The statements say what a successful reading means: the text is the piece that was read followed
by the rest, and a run is followed by nothing that belongs to its class.
-/

namespace CalcTypeset

/-- A line of characters. -/
abbrev Text := List Char

namespace Text

/-! What is said of the characters of a text is decided along the text, not along all characters
that there are. -/

section

variable (p : Char → Prop) [DecidablePred p]

instance (priority := high) decidableForallMem (s : Text) : Decidable (∀ c ∈ s, p c) :=
  List.decidableBAll p s

instance (priority := high) decidableForallMemOption (o : Option Char) : Decidable (∀ c ∈ o, p c) :=
  Option.decidableForallMem o

instance (priority := high) decidableExistsMemOption (o : Option Char) : Decidable (∃ c ∈ o, p c) :=
  Option.decidableExistsMem o

end

/-- What follows the literal `lit` at the start of a text. -/
def after? : (lit s : Text) → Option Text
  | [], s => some s
  | _ :: _, [] => none
  | a :: lit, c :: s => if a = c then after? lit s else none

theorem after?_eq_some_iff {lit s r : Text} : after? lit s = some r ↔ s = lit ++ r := by
  induction lit generalizing s with
  | nil => simp [after?]
  | cons a lit ih =>
      cases s with
      | nil => simp [after?]
      | cons c s =>
          by_cases h : a = c
          · simp [after?, h, ih]
          · simp [after?, h, Ne.symm h]

theorem after?_append (lit r : Text) : after? lit (lit ++ r) = some r :=
  after?_eq_some_iff.2 rfl

/-- A literal is read part by part. -/
theorem after?_append_lit (lit lit' s : Text) :
    after? (lit ++ lit') s = (after? lit s).bind (after? lit') := by
  induction lit generalizing s with
  | nil => rfl
  | cons a lit ih =>
      cases s with
      | nil => rfl
      | cons c s =>
          rw [List.cons_append, after?, after?]
          split
          · exact ih s
          · rfl

/-- Whether the literal `lit` starts the text. -/
def startsWith (lit s : Text) : Bool := (after? lit s).isSome

/-- Whether the literal `lit` occurs in the text. -/
def occurs (lit : Text) : Text → Bool
  | [] => startsWith lit []
  | c :: s => startsWith lit (c :: s) || occurs lit s

theorem startsWith_iff {lit s : Text} : startsWith lit s = true ↔ ∃ r, s = lit ++ r := by
  simp [startsWith, Option.isSome_iff_exists, after?_eq_some_iff]

/-- The literal occurs exactly when the text is something, the literal, and something more. -/
theorem occurs_iff {lit s : Text} : occurs lit s = true ↔ ∃ p r, s = p ++ lit ++ r := by
  induction s with
  | nil =>
      simp only [occurs, startsWith_iff]
      exact ⟨fun ⟨r, h⟩ => ⟨[], r, h⟩, fun ⟨p, r, h⟩ => ⟨r, by simp_all⟩⟩
  | cons c s ih =>
      simp only [occurs, Bool.or_eq_true, startsWith_iff, ih]
      constructor
      · rintro (⟨r, h⟩ | ⟨p, r, h⟩)
        · exact ⟨[], r, h⟩
        · exact ⟨c :: p, r, by simp [h]⟩
      · rintro ⟨p, r, h⟩
        match p with
        | [] => exact .inl ⟨r, h⟩
        | d :: p => exact .inr ⟨p, r, by simp_all⟩

/-- The longest run of the class at the start of the text, when there is one, and the rest. -/
def run? (p : Char → Bool) : Text → Option (Text × Text)
  | [] => none
  | c :: s => if p c then some (c :: s.takeWhile p, s.dropWhile p) else none

/-- A run that is read begins with a character of the class and is as long as it can be. -/
theorem exists_of_run? {p : Char → Bool} {s w r : Text} (h : run? p s = some (w, r)) :
    ∃ c t, s = c :: t ∧ p c = true ∧ w = c :: t.takeWhile p ∧ r = t.dropWhile p := by
  cases s with
  | nil => cases h
  | cons c s =>
      rw [run?] at h
      split at h
      · next hc =>
          cases h
          exact ⟨c, s, rfl, hc, rfl, rfl⟩
      · cases h

theorem run?_eq_append {p : Char → Bool} {s w r : Text} (h : run? p s = some (w, r)) :
    s = w ++ r := by
  obtain ⟨c, t, rfl, -, rfl, rfl⟩ := exists_of_run? h
  rw [List.cons_append, List.takeWhile_append_dropWhile]

theorem run?_ne_nil {p : Char → Bool} {s w r : Text} (h : run? p s = some (w, r)) : w ≠ [] := by
  obtain ⟨c, t, -, -, rfl, -⟩ := exists_of_run? h
  exact List.cons_ne_nil _ _

theorem run?_length {p : Char → Bool} {s w r : Text} (h : run? p s = some (w, r)) :
    r.length < s.length := by
  have hpos := List.length_pos_iff.2 (run?_ne_nil h)
  rw [run?_eq_append h, List.length_append]
  omega

theorem after?_length {lit s r : Text} (h : after? lit s = some r) :
    s.length = lit.length + r.length := by
  rw [after?_eq_some_iff.1 h, List.length_append]

/-- Splits a text at the first occurrence of a character, which is dropped. -/
def splitAt? (x : Char) : Text → Option (Text × Text)
  | [] => none
  | c :: s => if c = x then some ([], s) else (splitAt? x s).map fun (a, r) => (c :: a, r)

theorem splitAt?_eq_some_iff {x : Char} {s a r : Text} :
    splitAt? x s = some (a, r) ↔ s = a ++ x :: r ∧ x ∉ a := by
  induction s generalizing a with
  | nil => simp [splitAt?]
  | cons c s ih =>
      by_cases hc : c = x
      · subst hc
        simp only [splitAt?, if_true, Option.some.injEq, Prod.mk.injEq]
        constructor
        · rintro ⟨rfl, rfl⟩
          simp
        · rintro ⟨h, hx⟩
          match a with
          | [] => simpa using h
          | d :: a => simp_all
      · simp only [splitAt?, hc, if_false, Option.map_eq_some_iff, Prod.exists, Prod.mk.injEq]
        constructor
        · rintro ⟨a', r', h, rfl, rfl⟩
          have := ih.1 h
          simp [this, Ne.symm hc]
        · rintro ⟨h, hx⟩
          match a with
          | [] => simp_all
          | d :: a =>
              simp only [List.cons_append, List.cons.injEq, List.mem_cons, not_or] at h hx
              exact ⟨a, r, ih.2 ⟨h.2, hx.2⟩, by rw [h.1], rfl⟩

theorem splitAt?_length {x : Char} {s a r : Text} (h : splitAt? x s = some (a, r)) :
    s.length = a.length + 1 + r.length := by
  rw [(splitAt?_eq_some_iff.1 h).1, List.length_append, List.length_cons]
  omega

theorem length_dropWhile_le (p : Char → Bool) (s : Text) :
    (s.dropWhile p).length ≤ s.length := by
  induction s with
  | nil => simp
  | cons c s ih =>
      rw [List.dropWhile_cons]
      split
      · simp only [List.length_cons]; omega
      · simp

end Text

end CalcTypeset
