import CalcTypeset.Proofs.Scan

/-!
# Loops over a text that they modify

The passes over the calls of a line may be told as loops. A loop searches the text from a position
on, writes something for what it has found, and goes on at a new position in the modified text. So
its state is the text cut at the position: what is written lies in front of it and is never searched
again, and what lies ahead is an untouched end of the text that was given.

Each turn finds an opening parenthesis ahead and leaves it behind, so there are at most as many
turns as there are opening parentheses (`Computes.ends`). What the loop ends with is what a function
gives that takes the same turns.
-/

namespace CalcTypeset.Located

open Text

/-- What a loop searches for, given the character in front of a place and the text behind it, and
what it does about it: what is written for what was found, and what lies ahead then. -/
structure Loop (α : Type) where
  read : Option Char → Text → Option (α × Text)
  treat : α → Text → Text × Text

namespace Loop

variable {α β : Type} {L : Loop α} {g : Option Char → Text → Text}
  {s r p w written ahead out : Text} {a : α} {before : Option Char} {n : Nat}

/-- What stands in front of the first place where something is found, what is found there, and what
stands behind it. -/
def search? (L : Loop α) : (before : Option Char) → Text → Option (Text × α × Text)
  | _, [] => none
  | before, c :: s =>
      match L.read before (c :: s) with
      | some (a, r) => some ([], a, r)
      | none => (L.search? (some c) s).map fun x => (c :: x.1, x.2)

/-- One turn of the loop: what it writes, and what lies ahead when it has been taken. -/
def turn? (L : Loop α) (before : Option Char) (s : Text) : Option (Text × Text) :=
  (L.search? before s).map fun x => (x.1 ++ (L.treat x.2.1 x.2.2).1, (L.treat x.2.1 x.2.2).2)

/-- The loop ends with the text `out` after `n` turns, from the state in which the text is cut into
`written` and `ahead`. -/
inductive Ends (L : Loop α) : (n : Nat) → (written ahead out : Text) → Prop where
  | done {written ahead : Text} (nothing : L.turn? written.getLast? ahead = none) :
      Ends L 0 written ahead (written ++ ahead)
  | turn {n : Nat} {written ahead w r out : Text}
      (found : L.turn? written.getLast? ahead = some (w, r))
      (rest : Ends L n (written ++ w) r out) :
      Ends L (n + 1) written ahead out

/-- The function takes the turns of the loop, and each turn leaves a parenthesis behind. -/
structure Computes (L : Loop α) (g : Option Char → Text → Text) : Prop where
  nil : ∀ before, g before [] = []
  pass : ∀ {before c s}, L.read before (c :: s) = none → g before (c :: s) = c :: g (some c) s
  turn : ∀ {before s a r}, L.read before s = some (a, r) →
    g before s = (L.treat a r).1 ++ g ((L.treat a r).1.getLast?.or before) (L.treat a r).2
  leaves : ∀ {before s a r}, L.read before s = some (a, r) → r.count '(' < s.count '('
  suffix : ∀ a r, (L.treat a r).2 <:+ r

theorem Computes.of_search?_none (h : L.Computes g) (hs : L.search? before s = none) :
    g before s = s := by
  induction s generalizing before with
  | nil => exact h.nil before
  | cons c s ih =>
      rw [search?] at hs
      split at hs
      · cases hs
      · next hread =>
          rw [h.pass hread, ih (Option.map_eq_none_iff.1 hs)]

/-- What is skipped by a search stays, and the function is where the loop is. -/
theorem Computes.of_search?_some (h : L.Computes g) (hs : L.search? before s = some (p, a, r)) :
    ∃ t, L.read (p.getLast?.or before) t = some (a, r) ∧ t.count '(' ≤ s.count '(' ∧
      g before s = p ++ g (p.getLast?.or before) t := by
  induction s generalizing before p with
  | nil => cases hs
  | cons c s ih =>
      rw [search?] at hs
      split at hs
      · next hread =>
          cases hs
          exact ⟨c :: s, hread, Nat.le_refl _, rfl⟩
      · next hread =>
          obtain ⟨⟨q, b, u⟩, hx, he⟩ := Option.map_eq_some_iff.1 hs
          cases he
          obtain ⟨t, ht, hcount, hg⟩ := ih hx
          have hlast : (c :: q).getLast?.or before = q.getLast?.or (some c) := by
            rw [List.getLast?_cons, Option.some_or]
            cases q.getLast? <;> rfl
          rw [hlast]
          refine ⟨t, ht, Nat.le_trans hcount (List.count_le_count_cons ..), ?_⟩
          rw [h.pass hread, hg, List.cons_append]

/-- The loop ends with what the function gives, after at most as many turns as there are opening
parentheses ahead. -/
theorem Computes.ends (h : L.Computes g) (written ahead : Text) :
    ∃ n ≤ ahead.count '(', L.Ends n written ahead (written ++ g written.getLast? ahead) := by
  induction hcount : ahead.count '(' using Nat.strongRecOn generalizing written ahead with
  | ind k ih =>
      cases hs : L.search? written.getLast? ahead with
      | none =>
          refine ⟨0, Nat.zero_le _, ?_⟩
          rw [h.of_search?_none hs]
          exact .done (Option.map_eq_none_iff.2 hs)
      | some x =>
          obtain ⟨p, a, r⟩ := x
          obtain ⟨t, hread, hle, hg⟩ := h.of_search?_some hs
          have hlt := h.leaves hread
          have hsuffix := (h.suffix a r).sublist.count_le '('
          obtain ⟨n, hn, hends⟩ := ih ((L.treat a r).2.count '(') (by omega)
            (written ++ (p ++ (L.treat a r).1)) (L.treat a r).2 rfl
          refine ⟨n + 1, by omega, .turn (Option.map_eq_some_iff.2 ⟨_, hs, rfl⟩) ?_⟩
          have hlast : (written ++ (p ++ (L.treat a r).1)).getLast? =
              (L.treat a r).1.getLast?.or (p.getLast?.or written.getLast?) := by
            rw [List.getLast?_append, List.getLast?_append, Option.or_assoc]
          rw [hg, h.turn hread]
          rw [hlast] at hends
          simpa using hends

/-! ## Word rules -/

/-- A word run and the opening parenthesis behind it. -/
def opening : Recogniser Text :=
  (Recogniser.run isWordChar).bind fun w => (Recogniser.single '(').map fun _ => w

/-- The loop that searches for a word run in front of a parenthesis. -/
def ofWords (treat : (name inside : Text) → Text × Text) : Loop Text where
  read _ := opening.read?
  treat := treat

theorem opening_read?_eq_some_iff :
    opening.read? s = some (w, r) ↔ run? isWordChar s = some (w, '(' :: r) := by
  simp only [opening, Recogniser.read?_bind, Recogniser.read?_run, Recogniser.read?_map,
    Option.bind_eq_some_iff, Option.map_eq_some_iff]
  constructor
  · rintro ⟨⟨v, t⟩, hrun, ⟨u, t'⟩, hread, he⟩
    cases he
    obtain rfl : t = '(' :: t' := Recogniser.read?_literal_eq_some_iff.1 hread
    exact hrun
  · intro hrun
    exact ⟨_, hrun, ((), r), Recogniser.read?_literal_eq_some_iff.2 rfl, rfl⟩

variable {f : WordRule β} {render : β → Text}

/-- A run with no parenthesis behind it is passed character by character. -/
theorem replaceAll_cons_of_not_opening (hf : ∀ w r, (f w).read? r ≠ none → r.head? = some '(')
    {c : Char} (h : opening.read? (c :: s) = none) :
    f.replaceAll render (c :: s) = c :: f.replaceAll render s := by
  cases hc : isWordChar c with
  | false => exact WordRule.replaceAll_cons_of_not_isWordChar s hc
  | true =>
      obtain ⟨⟨w, r⟩, hw⟩ : ∃ x, run? isWordChar (c :: s) = some x :=
        Option.ne_none_iff_exists'.1 (by simp [run?, hc])
      have hsplit := run?_eq_append hw
      obtain ⟨d, v, rfl⟩ := List.exists_cons_of_ne_nil (run?_ne_nil hw)
      obtain ⟨rfl, rfl⟩ := List.cons.inj hsplit
      have hnone : ∀ v, (f v).read? r = none := fun v => by
        refine Decidable.byContradiction fun hread => ?_
        obtain ⟨t, rfl⟩ := List.head?_eq_some_iff.1 (hf v r hread)
        rw [opening_read?_eq_some_iff.2 hw] at h
        cases h
      rw [WordRule.replaceAll_of_none hw (hnone _)]
      cases v with
      | nil => rfl
      | cons x v =>
          have hv : run? isWordChar (x :: v ++ r) = some (x :: v, r) :=
            run?_append (by simp) (fun y hy => run?_all hw y (List.mem_cons_of_mem _ hy))
              (run?_head hw)
          exact congrArg (c :: ·) (WordRule.replaceAll_of_none hv (hnone _)).symm

/-- Where the rule reads nothing behind a run and a parenthesis, both are passed. -/
theorem replaceAll_opening (hw : run? isWordChar s = some (w, '(' :: r))
    (hr : (f w).read? ('(' :: r) = none) :
    f.replaceAll render s = w ++ ['('] ++ f.replaceAll render r := by
  rw [WordRule.replaceAll_of_none hw hr,
    WordRule.replaceAll_cons_of_not_isWordChar r (run?_head hw '(' rfl)]
  simp

/-- The scan of a word rule that reads at parentheses only takes the turns of a loop over the word
runs in front of parentheses. -/
theorem computes_ofWords {treat : Text → Text → Text × Text}
    (hf : ∀ w r, (f w).read? r ≠ none → r.head? = some '(')
    (hsuffix : ∀ w r, (treat w r).2 <:+ r)
    (hturn : ∀ s w r, run? isWordChar s = some (w, '(' :: r) →
      f.replaceAll render s = (treat w r).1 ++ f.replaceAll render (treat w r).2) :
    (ofWords treat).Computes fun _ => f.replaceAll render where
  nil _ := WordRule.replaceAll_nil
  pass h := replaceAll_cons_of_not_opening hf h
  turn h := hturn _ _ _ (opening_read?_eq_some_iff.1 h)
  leaves {before s w r} h := by
    rw [run?_eq_append (opening_read?_eq_some_iff.1 h), List.count_append, List.count_cons_self]
    omega
  suffix := hsuffix

end Loop

end CalcTypeset.Located
