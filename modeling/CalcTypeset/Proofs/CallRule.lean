import CalcTypeset.Call.Typesetting
import CalcTypeset.Proofs.Scan
import CalcTypeset.Proofs.Site

/-!
# Calls as word runs

The search for the calls of a name remembers the character that it has written last and judges word
boundaries by it. What is written for a call ends with a bracket or a degree mark, and so does no
name: behind a call a name may begin just as behind the parenthesis that closed it. The search is
therefore the scan of a word rule, which takes the name as a whole run with a closed group behind
it, and it can be read off the text as it stands.
-/

namespace CalcTypeset

open Text

namespace Call

/-- Behind the name, a closed group. -/
def closedCall (name : Text) : WordRule Text := fun w =>
  if w = name then Bracket.group else .never

theorem meets_closedCall (name w : Text) : (closedCall name w).Meets fun v t _ =>
    w = name ∧ v = Markup.parenthesised t ∧ Bracket.IsBalanced '(' ')' t := by
  unfold closedCall
  split
  · next hw => exact Bracket.meets_group.mono fun _ _ _ h => ⟨hw, h⟩
  · exact Recogniser.meets_never

variable {name : Text} {make : Text → Text} {before : Option Char} {c : Char} {s v r : Text}

theorem isBoundary_cons (before : Option Char) (c : Char) (s : Text) :
    isBoundary before (c :: s) = (before.any isWordChar != isWordChar c) := rfl

/-- A name begins with a word character, so no call starts at another one. -/
theorem opening?_eq_none (hne : name ≠ []) (hword : ∀ x ∈ name, isWordChar x = true)
    (hc : isWordChar c = false) (before : Option Char) (s : Text) :
    opening? name before (c :: s) = none := by
  rw [Option.eq_none_iff_forall_ne_some]
  intro inside h
  obtain ⟨x, name, rfl⟩ := List.exists_cons_of_ne_nil hne
  have hx := hword x (by simp)
  rw [← (List.cons.inj (opening?_eq_some_iff.1 h).2).1, hc] at hx
  cases hx

/-- Inside a word run no call starts. -/
theorem replaceAfter_run (hv : ∀ x ∈ v, isWordChar x = true) (hc : isWordChar c = true)
    (r : Text) : ∃ d, replaceAfter name make (some c) (v ++ r) =
      v ++ replaceAfter name make (some d) r ∧ isWordChar d = true := by
  induction v generalizing c with
  | nil => exact ⟨c, rfl, hc⟩
  | cons x v ih =>
      have hx := hv x (by simp)
      have hnone : opening? name (some c) (x :: (v ++ r)) = none := by
        rw [opening?, isBoundary_cons, Option.any_some, hc, hx]
        rfl
      obtain ⟨d, heq, hd⟩ := ih (fun y hy => hv y (by simp [hy])) hx
      exact ⟨d, by rw [List.cons_append, replaceAfter_of_none hnone, heq, List.cons_append], hd⟩

/-- A name and its parenthesis are a whole word run and what follows it. -/
theorem run?_of_opening? (hne : name ≠ []) (hword : ∀ x ∈ name, isWordChar x = true)
    {inside : Text} (h : opening? name before s = some inside) :
    run? isWordChar s = some (name, '(' :: inside) := by
  rw [(opening?_eq_some_iff.1 h).2]
  exact run?_append hne hword (by simp)

theorem opening?_eq_some (hne : name ≠ []) (hword : ∀ x ∈ name, isWordChar x = true)
    (hbefore : before.any isWordChar = false) (r : Text) :
    opening? name before (name ++ '(' :: r) = some r := by
  refine opening?_eq_some_iff.2 ⟨?_, rfl⟩
  obtain ⟨x, name, rfl⟩ := List.exists_cons_of_ne_nil hne
  rw [List.cons_append, isBoundary_cons, hbefore, hword x (by simp)]
  rfl

/-- The search for the closed calls of a name is the scan for its word runs, when what is written
for a call ends with no word character. -/
theorem replaceAfter_eq_replaceAll (hne : name ≠ []) (hword : ∀ x ∈ name, isWordChar x = true)
    (hmake : ∀ t, ∀ x ∈ (make t).getLast?, isWordChar x = false) (s : Text) (before : Option Char)
    (hbefore : ∀ c ∈ before, ∀ x ∈ s.head?, isWordChar x = true → isWordChar c = false) :
    replaceAfter name make before s = (closedCall name).replaceAll make s := by
  induction s using WordRule.scan_induction (closedCall name) generalizing before with
  | nil => rw [replaceAfter_nil, WordRule.replaceAll_nil]
  | read s w r t r' hw hr ih =>
      obtain ⟨v, hv, rfl, hgroup, ht⟩ := meets_closedCall name w r t r' hr
      have hsplit : s = w ++ '(' :: (t ++ ')' :: r') := by
        rw [run?_eq_append hw, hv, hgroup, Markup.parenthesised]
        simp
      have hfree : before.any isWordChar = false := by
        obtain ⟨x, w', rfl⟩ := List.exists_cons_of_ne_nil hne
        cases before with
        | none => rfl
        | some c => exact hbefore c rfl x (by rw [hsplit]; rfl) (hword x (by simp))
      have hopening : opening? w before s = some (t ++ ')' :: r') :=
        hsplit ▸ opening?_eq_some hne hword hfree _
      rw [replaceAfter_of_closed hopening (Bracket.closing?_eq_some_iff.2 ⟨rfl, ht⟩),
        WordRule.replaceAll_of_read hw hr]
      congr 1
      refine ih _ fun c hc _ _ _ => ?_
      cases hlast : (make t).getLast? with
      | some x =>
          rw [hlast] at hc
          obtain rfl : x = c := Option.some.inj hc
          exact hmake t x hlast
      | none =>
          obtain rfl : before = some c := by rwa [hlast, Option.none_or] at hc
          exact hfree
  | pass s w r hw hr ih =>
      have hsplit := run?_eq_append hw
      have hrun := run?_all hw
      rw [WordRule.replaceAll_of_none hw hr]
      have hstop : ∀ d, isWordChar d = true → ∀ c ∈ some d, ∀ x ∈ r.head?,
          isWordChar x = true → isWordChar c = false := fun d _ c _ x hx hword => by
        rw [run?_head hw x hx] at hword
        cases hword
      cases ho : opening? name before s with
      | none =>
          obtain ⟨x, w', rfl⟩ := List.exists_cons_of_ne_nil (run?_ne_nil hw)
          obtain ⟨d, heq, hd⟩ : ∃ d, replaceAfter name make (some x) (w' ++ r) =
              w' ++ replaceAfter name make (some d) r ∧ isWordChar d = true :=
            replaceAfter_run (fun y hy => hrun y (by simp [hy])) (hrun x (by simp)) r
          rw [hsplit, List.cons_append] at ho ⊢
          rw [replaceAfter_of_none ho, heq, ih _ (hstop d hd), List.cons_append]
      | some inside =>
          -- The call is never closed, so only its name and the parenthesis are passed.
          obtain ⟨rfl, rfl⟩ := Prod.mk.inj (Option.some.inj (hw.symm.trans
            (run?_of_opening? hne hword ho)))
          have hgroup : Bracket.group.read? ('(' :: inside) = none := by
            rwa [closedCall, if_pos rfl] at hr
          rw [replaceAfter_of_unclosed ho hgroup, ← ih none (by simp),
            replaceAfter_of_none (opening?_eq_none hne hword isWordChar_opening none inside)]
  | other c s hc ih =>
      rw [WordRule.replaceAll_cons_of_not_isWordChar s hc,
        replaceAfter_of_none (opening?_eq_none hne hword hc before s), ih]
      exact fun x hx _ _ _ => by obtain rfl := Option.some.inj hx; exact hc

end Call

namespace KnownFunction

theorem name_ne_nil (f : KnownFunction) : f.name ≠ [] := by cases f <;> decide

theorem name_injective {f g : KnownFunction} (h : f.name = g.name) : f = g := by
  revert h
  cases f <;> cases g <;> decide

theorem isWordChar_of_mem_name (f : KnownFunction) : ∀ c ∈ f.name, isWordChar c = true := by
  cases f <;> decide

/-- What may be written around the argument of a call when it is typeset. -/
def frames (f : KnownFunction) : List (Text × Text) :=
  match f with
  | sin | cos | tan =>
      [(f.latex ++ ['('], [')']), (f.latex ++ ['('], [Markup.degree, ')'])]
  | asin | acos | atan =>
      [(f.latex ++ ['('], [')', Markup.degree]),
        (f.latex ++ "\\left(".toList, "\\right)".toList ++ [Markup.degree])]
  | log | ln =>
      [(f.latex ++ ['('], [')']), (f.latex ++ "\\left(".toList, "\\right)".toList)]
  | sqrt => [(f.latex ++ ['\x7b'], ['\x7d'])]
  | exp => [("e^\x7b".toList, ['\x7d'])]
  | dtor => [(f.latex ++ ['('], [Markup.degree, ')'])]
  | rtod => [(f.latex ++ ['('], [')', Markup.degree])]

/-- What is written around an argument depends on whether its parentheses grow and whether it has a
degree mark. -/
def frame (f : KnownFunction) (grows marked : Bool) : Text × Text :=
  match f with
  | sin | cos | tan => (f.latex ++ ['('], if marked then [')'] else [Markup.degree, ')'])
  | asin | acos | atan =>
      if grows then (f.latex ++ "\\left(".toList, "\\right)".toList ++ [Markup.degree])
      else (f.latex ++ ['('], [')', Markup.degree])
  | log | ln =>
      if grows then (f.latex ++ "\\left(".toList, "\\right)".toList)
      else (f.latex ++ ['('], [')'])
  | sqrt => (f.latex ++ ['\x7b'], ['\x7d'])
  | exp => ("e^\x7b".toList, ['\x7d'])
  | dtor => (f.latex ++ ['('], [Markup.degree, ')'])
  | rtod => (f.latex ++ ['('], [')', Markup.degree])

theorem frame_mem_frames (f : KnownFunction) (grows marked : Bool) :
    f.frame grows marked ∈ f.frames := by
  cases f <;> cases grows <;> cases marked <;> simp [frame, frames]

/-- A typeset call is its argument in a frame. -/
theorem typeset_eq_frame (f : KnownFunction) (t : Text) :
    f.typeset t = (f.frame (f.isSized t) (t.contains Markup.degree)).1 ++ t ++
      (f.frame (f.isSized t) (t.contains Markup.degree)).2 := by
  have hsized : ∀ l : Text,
      l ++ Markup.sized t = l ++ "\\left(".toList ++ t ++ "\\right)".toList := fun l => by
    show l ++ ("\\left(".toList ++ t ++ "\\right)".toList) = _
    rw [List.append_assoc l, List.append_assoc l, List.append_assoc]
  cases f with
  | sin | cos | tan =>
      rw [typeset, markedOnce, frame]
      split <;> simp [Markup.parenthesised]
  | asin | acos | atan =>
      rw [typeset, delimited, frame]
      split
      · rw [hsized, List.append_assoc]
      · simp [Markup.parenthesised]
  | log | ln =>
      rw [typeset, delimited, frame]
      split
      · exact hsized _
      · simp [Markup.parenthesised]
  | sqrt | exp => simp [typeset, frame, Markup.braced]
  | dtor | rtod => simp [typeset, frame, Markup.parenthesised]

/-- A typeset call is its argument in one of the frames of the function. -/
theorem exists_frame (f : KnownFunction) (t : Text) :
    ∃ p ∈ f.frames, f.typeset t = p.1 ++ t ++ p.2 :=
  ⟨_, f.frame_mem_frames _ _, f.typeset_eq_frame t⟩

/-- A typeset call ends with a bracket or a degree mark. -/
theorem getLast?_typeset (f : KnownFunction) (t : Text) :
    ∃ c, (f.typeset t).getLast? = some c ∧ c ∈ [')', '\x7d', Markup.degree] := by
  have hframes : ∀ p ∈ f.frames, ∃ c ∈ p.2.getLast?, c ∈ [')', '\x7d', Markup.degree] := by
    cases f <;> decide +kernel
  obtain ⟨p, hp, heq⟩ := f.exists_frame t
  obtain ⟨c, hlast, hc⟩ := hframes p hp
  exact ⟨c, by rw [heq, List.getLast?_append, hlast, Option.some_or], hc⟩

theorem isWordChar_of_mem_getLast?_typeset (f : KnownFunction) (t : Text) :
    ∀ c ∈ (f.typeset t).getLast?, isWordChar c = false := by
  have hends : ∀ c ∈ [')', '\x7d', Markup.degree], isWordChar c = false := by decide +kernel
  obtain ⟨c, hlast, hc⟩ := f.getLast?_typeset t
  rw [hlast]
  rintro _ ⟨⟩
  exact hends c hc

/-- Typesetting the calls of a function is the scan for its closed calls. -/
theorem typesetCalls_eq (f : KnownFunction) (s : Text) :
    f.typesetCalls s = (Call.closedCall f.name).replaceAll f.typeset s := by
  refine Call.replaceAfter_eq_replaceAll f.name_ne_nil f.isWordChar_of_mem_name
    f.isWordChar_of_mem_getLast?_typeset s none (by simp)

end KnownFunction

end CalcTypeset
