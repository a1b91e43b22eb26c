import CalcTypeset.Text.Recogniser

/-!
# Brackets

Finding the bracket that closes another one is a matter of depth: an opening parenthesis adds to
it, a closing one takes from it, and the one that would take it below its start is the partner.

`closing?_eq_some_iff` says that the search finds exactly what the grammar of balanced texts
promises: the content is balanced, and the closing parenthesis follows it.
-/

namespace CalcTypeset.Bracket

/-- The depth at the end of a text read from depth `d`; none when it falls below zero. -/
def depthAfter (opening closing : Char) : (d : Nat) → Text → Option Nat
  | d, [] => some d
  | d, c :: s =>
      if c = opening then depthAfter opening closing (d + 1) s
      else if c = closing then
        match d with
        | 0 => none
        | d + 1 => depthAfter opening closing d s
      else depthAfter opening closing d s

/-- Every bracket of the pair is closed, and none is closed before it opens. -/
def IsBalanced (opening closing : Char) (s : Text) : Prop :=
  depthAfter opening closing 0 s = some 0

instance (opening closing : Char) (s : Text) : Decidable (IsBalanced opening closing s) :=
  inferInstanceAs (Decidable (_ = _))

/-- Splits a text inside `d + 1` open parentheses at the one that closes the outermost. -/
def closing? : (d : Nat) → Text → Option (Text × Text)
  | _, [] => none
  | d, c :: s =>
      if c = '(' then (closing? (d + 1) s).map fun (a, r) => (c :: a, r)
      else if c = ')' then
        match d with
        | 0 => some ([], s)
        | d + 1 => (closing? d s).map fun (a, r) => (c :: a, r)
      else (closing? d s).map fun (a, r) => (c :: a, r)

/-- The content of the parentheses at the start of a text, and the rest behind them. -/
def group? : Text → Option (Text × Text)
  | '(' :: s => closing? 0 s
  | _ => none

/-- The place just behind the parenthesis that closes the one at place `i`; none when there is no
opening parenthesis at that place or nothing closes it. -/
def partnerEnd? (s : Text) (i : Int) : Option Nat :=
  match i with
  | .ofNat n => (group? (s.drop n)).map fun (content, _) => n + content.length + 2
  | .negSucc _ => none

/-- One step of the search. Where the depth behind `c` is `e` the rest is searched from there,
unless `c` is the parenthesis that is looked for. -/
theorem map_cons_eq_some_iff {c : Char} {d e : Nat} {s a r : Text} (hc : c = ')' → d ≠ 0)
    (hdepth : ∀ a, depthAfter '(' ')' d (c :: a) = depthAfter '(' ')' e a)
    (hrest : ∀ {a}, closing? e s = some (a, r) ↔
      s = a ++ ')' :: r ∧ depthAfter '(' ')' e a = some 0) :
    (closing? e s).map (fun (a, r) => (c :: a, r)) = some (a, r) ↔
      c :: s = a ++ ')' :: r ∧ depthAfter '(' ')' d a = some 0 := by
  simp only [Option.map_eq_some_iff, Prod.exists, Prod.mk.injEq]
  constructor
  · rintro ⟨a, r, h, rfl, rfl⟩
    obtain ⟨rfl, hd⟩ := hrest.1 h
    exact ⟨rfl, (hdepth a).trans hd⟩
  · rintro ⟨h, hd⟩
    cases a with
    | nil => exact absurd (Option.some.inj hd) (hc (List.cons.inj h).1)
    | cons x a =>
        obtain ⟨rfl, rfl⟩ := List.cons.inj h
        exact ⟨a, r, hrest.2 ⟨rfl, (hdepth a).symm.trans hd⟩, rfl, rfl⟩

theorem closing?_eq_some_iff {d : Nat} {s a r : Text} :
    closing? d s = some (a, r) ↔ s = a ++ ')' :: r ∧ depthAfter '(' ')' d a = some 0 := by
  induction s generalizing d a with
  | nil => simp [closing?]
  | cons c s ih =>
      by_cases ho : c = '('
      · subst ho
        simp only [closing?, if_true]
        exact map_cons_eq_some_iff (fun h => absurd h (by decide)) (fun _ => rfl) ih
      · by_cases hc : c = ')'
        · subst hc
          cases d with
          | succ d =>
              simp only [closing?, ho, if_false, if_true]
              exact map_cons_eq_some_iff (fun _ => d.succ_ne_zero) (fun _ => rfl) ih
          | zero =>
              simp only [closing?, ho, if_false, if_true, Option.some.injEq, Prod.mk.injEq]
              constructor
              · rintro ⟨rfl, rfl⟩
                exact ⟨rfl, rfl⟩
              · rintro ⟨h, hd⟩
                cases a with
                | nil => exact ⟨rfl, (List.cons.inj h).2⟩
                | cons x a =>
                    obtain ⟨rfl, -⟩ := List.cons.inj h
                    cases hd
        · simp only [closing?, ho, hc, if_false]
          exact map_cons_eq_some_iff (absurd · hc) (fun a => by simp [depthAfter, ho, hc]) ih

theorem closing?_length {d : Nat} {s a r : Text} (h : closing? d s = some (a, r)) :
    r.length < s.length := by
  rw [(closing?_eq_some_iff.1 h).1, List.length_append, List.length_cons]
  omega

/-- A group is an opening parenthesis, a balanced content, and the closing parenthesis. -/
theorem group?_eq_some_iff {s a r : Text} :
    group? s = some (a, r) ↔ s = '(' :: a ++ ')' :: r ∧ IsBalanced '(' ')' a := by
  match s with
  | [] => simp [group?]
  | c :: s =>
      by_cases h : c = '('
      · subst h
        simp [group?, closing?_eq_some_iff, IsBalanced]
      · simp [group?, h]

theorem group?_length {s a r : Text} (h : group? s = some (a, r)) : r.length < s.length := by
  rw [(group?_eq_some_iff.1 h).1, List.length_append, List.length_cons, List.length_cons]
  omega

/-- Recognises groups and reads their content. -/
def group : Recogniser Text := ⟨group?, group?_length⟩

end CalcTypeset.Bracket
