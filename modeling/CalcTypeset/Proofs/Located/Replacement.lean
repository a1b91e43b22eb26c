import CalcTypeset.Proofs.CallRule
import CalcTypeset.Proofs.Located.Loop
import CalcTypeset.Proofs.Located.Scan

/-!
# The calls of one name are replaced at once

Replacing the calls of a function is a loop over a text that it modifies, and it judges the word
boundary at its position by the last character that it has written. Still the result can be read off
the text as it was given: from left to right each closed call is replaced whose name begins at a
word boundary of that text, and nothing else is changed.

What is written for a call of a known function ends with no word character, and neither does the
call itself. This is why a boundary in the modified text is one in the given text.
-/

namespace CalcTypeset.Located

open Text CalcTypeset.Bracket

variable {name passed w behind : Text} {p : Piece Text} {make : Text → Text}

/-- A closed call of the name stands behind `passed`, at a word boundary of the text. It is read as
its content. -/
def TakesCall (name passed w : Text) (p : Piece Text) (behind : Text) : Prop :=
  ∃ t, p = .site t ∧ w = Call.write ⟨name, t⟩ ∧ IsBalanced '(' ')' t ∧
    Call.isBoundary passed.getLast? (w ++ behind) = true

/-- Behind no word character a name is at a word boundary, and nowhere else. -/
theorem takesCall_iff (hne : name ≠ []) (hword : ∀ x ∈ name, isWordChar x = true) :
    TakesCall name passed w p behind ↔
      ∃ t, p = .site t ∧ w = Call.write ⟨name, t⟩ ∧ IsClosedAfter passed ⟨name, t⟩ := by
  have hboundary : ∀ t, Call.isBoundary passed.getLast? (Call.write ⟨name, t⟩ ++ behind) = true ↔
      IsBreak passed := by
    intro t
    obtain ⟨x, v, rfl⟩ := List.exists_cons_of_ne_nil hne
    rw [write_append, List.cons_append, Call.isBoundary_cons, hword x (by simp), IsBreak]
    cases passed.getLast? <;> simp
  constructor
  · rintro ⟨t, rfl, rfl, ht, hb⟩
    exact ⟨t, rfl, rfl, hne, hword, (hboundary t).1 hb, ht⟩
  · rintro ⟨t, rfl, rfl, hc⟩
    exact ⟨t, rfl, rfl, hc.isBalanced, (hboundary t).2 hc.isBreak⟩

theorem determined_takesCall (hne : name ≠ []) (hword : ∀ x ∈ name, isWordChar x = true) :
    Determined (TakesCall name) fun t => Call.write ⟨name, t⟩ where
  write h := by
    obtain ⟨t, rfl, rfl, -⟩ := h
    rfl
  ne_nil h := by
    obtain ⟨t, -, rfl, -⟩ := h
    simp [Call.write, hne]
  eq h h' heq := by
    obtain ⟨t, rfl, rfl, hc⟩ := (takesCall_iff hne hword).1 h
    obtain ⟨t', rfl, rfl, hc'⟩ := (takesCall_iff hne hword).1 h'
    obtain ⟨hcall, hbehind⟩ := hc.eq_of_append_eq hc' heq
    cases hcall
    exact ⟨rfl, hbehind⟩

theorem follows_takesCall (hne : name ≠ []) (hword : ∀ x ∈ name, isWordChar x = true) :
    Follows (TakesCall name) make (Call.closedCall name) make where
  takes_of_read hbreak hw hr := by
    unfold Call.closedCall at hr
    split at hr
    · next hname =>
        obtain ⟨hs, hc⟩ := IsClosedAfter.of_read hw hr hbreak
        rw [hname] at hs hc
        exact ⟨_, _, hs, (takesCall_iff hne hword).2 ⟨_, rfl, rfl, hc⟩, rfl⟩
    · cases hr
  isBreak h := by
    obtain ⟨t, -, -, hc⟩ := (takesCall_iff hne hword).1 h
    exact hc.isBreak
  exists_read h := by
    obtain ⟨t, -, rfl, hc⟩ := (takesCall_iff hne hword).1 h
    refine ⟨_, _, hc.run? _, ?_⟩
    rw [Call.closedCall, if_pos rfl, hc.read?_group]
    exact Option.some_ne_none _
  apart h := by
    obtain ⟨t, -, rfl, -⟩ := h
    exact .inl (isBreak_write _)

/-! ## The loop -/

/-- The loop over the calls of a name. Of a call that is not closed only the name and its
parenthesis are left behind. -/
def callLoop (name : Text) (make : Text → Text) : Loop Unit where
  read before s := (Call.opening? name before s).map ((), ·)
  treat _ inside :=
    match closing? 0 inside with
    | none => (name ++ ['('], inside)
    | some (t, rest) => (make t, rest)

theorem callLoop_read?_eq_some_iff {before : Option Char} {s r : Text} {a : Unit} :
    (callLoop name make).read before s = some (a, r) ↔ Call.opening? name before s = some r := by
  simp [callLoop]

theorem computes_callLoop (name : Text) (make : Text → Text) :
    (callLoop name make).Computes (Call.replaceAfter name make) where
  nil _ := Call.replaceAfter_nil
  pass h := Call.replaceAfter_of_none (Option.map_eq_none_iff.1 h)
  turn {before s a r} h := by
    have hopening := callLoop_read?_eq_some_iff.1 h
    simp only [callLoop]
    split
    · next hclosing =>
        rw [Call.replaceAfter_of_unclosed hopening hclosing]
        simp
    · next hclosing => exact Call.replaceAfter_of_closed hopening hclosing
  leaves h := by
    rw [(Call.opening?_eq_some_iff.1 (callLoop_read?_eq_some_iff.1 h)).2, List.count_append,
      List.count_cons_self]
    omega
  suffix a r := by
    simp only [callLoop]
    split
    · exact List.suffix_refl r
    · next hclosing => exact suffix_of_closing? hclosing

/-! ## Known functions -/

/-- The calls of a known function are replaced as they stand in the given text. The loop that does
so ends, after at most as many turns as the text has opening parentheses. -/
theorem typesetCalls_isReplaced (f : KnownFunction) (s : Text) :
    IsReplaced (TakesCall f.name) (fun t => Call.write ⟨f.name, t⟩) f.typeset s
        (f.typesetCalls s) ∧
      ∃ n ≤ s.count '(', (callLoop f.name f.typeset).Ends n [] s (f.typesetCalls s) := by
  have hne := f.name_ne_nil
  have hword := f.isWordChar_of_mem_name
  constructor
  · rw [f.typesetCalls_eq]
    exact (follows_takesCall hne hword).isReplaced (determined_takesCall hne hword) s
  · exact (computes_callLoop f.name f.typeset).ends [] s

/-- A call that is not closed hides neither the call inside it nor what ends like its name. -/
example : KnownFunction.sin.typesetCalls "sin(asin(2)+sin(1)".toList =
    "sin(asin(2)+\\sin(1°)".toList := by decide +kernel

end CalcTypeset.Located
