import CalcTypeset.Proofs.Operands.Token
import CalcTypeset.Proofs.Settled
import CalcTypeset.Proofs.Sum.Operators

/-!
# Commands are set off

A backslash may stand in front of a name, as it does in the symbol of a constant, and a pass that
takes the call of that name begins behind the backslash. A command that the passes write is never
taken in this way, since it is set off: a blank or a bracket that is no parenthesis follows it, or
another command, or nothing.

The gauge of this file holds the command that is being read, and gets stuck where a command is not
set off. Every pass eases it, whatever the line holds otherwise.
-/

namespace CalcTypeset

open Text

namespace Operands

/-- The text is a command. -/
def isCommand (x : Text) : Bool := commands.any fun k => k.1 = x

/-- A command begins with the text. -/
def isBeginning (x : Text) : Bool := commands.any fun k => x.isPrefixOf k.1

/-- The beginning of a command that has been read, with one more character; none when a command
has been read and a name or a parenthesis follows. -/
def setOffStep (x : Text) (c : Char) : Option Text :=
  if c = '\\' then some ['\\']
  else if isCommand x && (isWordChar c || c = '(') then none
  else if !x.isEmpty && isBeginning (x ++ [c]) then some (x ++ [c])
  else some []

theorem setOffStep_nil {c : Char} (hc : c ≠ '\\') : setOffStep [] c = some [] := by
  rw [setOffStep, if_neg hc]
  rfl

/-- The gauge of the commands. Where no command has been begun, everything may follow. -/
def setOff : Gauge Text where
  step := setOffStep
  le x y := x = y ∨ x = []
  refl _ := .inl rfl
  trans h h' := by
    rcases h with rfl | rfl
    · exact h'
    · exact .inr rfl
  mono {q q' r c} hle hstep := by
    rcases hle with rfl | rfl
    · exact ⟨r, hstep, .inl rfl⟩
    · by_cases hc : c = '\\'
      · exact ⟨r, by rw [← hstep, setOffStep, setOffStep, if_pos hc, if_pos hc], .inl rfl⟩
      · exact ⟨[], setOffStep_nil hc, .inr rfl⟩

/-- The commands of the text are set off. -/
def IsSetOff (s : Text) : Prop := ∃ r, setOff.follow [] s = some r

variable {q q' r s t : Text} {c : Char}

/-- From whatever state, a command is read as it stands. -/
theorem follow_command {k : Text × Text} (hk : k ∈ commands) (q : Text) :
    setOff.follow q k.1 = some k.1 := by
  have hslash : ∀ l, setOff.follow q ('\\' :: l) = setOff.follow ['\\'] l := fun _ => rfl
  simp only [commands, List.mem_cons, List.not_mem_nil, or_false] at hk
  rcases hk with rfl | rfl | rfl <;> exact (hslash _).trans (by decide)

/-- No command is followed by a word character or an opening parenthesis. -/
theorem IsSetOff.not_followed {k : Text × Text} (h : IsSetOff s) (hk : k ∈ commands)
    (hr : k.1 ++ c :: r <:+ s) : isWordChar c = false ∧ c ≠ '(' := by
  obtain ⟨q, h⟩ := h
  obtain ⟨p, rfl⟩ := hr
  rw [← List.append_assoc] at h
  obtain ⟨m, hm, hr⟩ := Gauge.follow_append_eq_some_iff.1 h
  obtain ⟨m', -, hm'⟩ := Gauge.follow_append_eq_some_iff.1 hm
  rw [follow_command hk] at hm'
  obtain rfl := Option.some.inj hm'
  obtain ⟨_, hstep, -⟩ := Option.bind_eq_some_iff.1 hr
  have hcommand : isCommand k.1 = true := List.any_eq_true.2 ⟨k, hk, by simp⟩
  by_cases hslash : c = '\\'
  · subst hslash
    exact ⟨isWordChar_eq_false (by decide), by decide⟩
  · replace hstep : setOffStep k.1 c = some _ := hstep
    rw [setOffStep, if_neg hslash, hcommand, Bool.true_and] at hstep
    split at hstep
    · cases hstep
    · next hword => simpa using hword

/-! ## What is written -/

/-- No command goes on with a character that is no part of a word. -/
theorem isBeginning_concat (hword : isWordChar c = false) (q : Text) :
    (!q.isEmpty && isBeginning (q ++ [c])) = false := by
  rw [Bool.and_eq_false_imp]
  intro hq
  rw [isBeginning, List.any_eq_false]
  intro k hk hprefix
  obtain ⟨l, hl, hlower⟩ := exists_letters hk
  obtain ⟨a, q, rfl⟩ := List.exists_cons_of_ne_nil (l := q) (by simpa using hq)
  obtain ⟨z, hz⟩ := List.isPrefixOf_iff_prefix.1 hprefix
  rw [hl] at hz
  have hmem : c ∈ l := by rw [← (List.cons.inj hz).2]; simp
  have : isWordChar c = true := by
    exact isWordChar_of_isLower (hlower c hmem)
  rw [hword] at this
  cases this

/-- What ends no command and is followed by none. -/
theorem step_plain (hslash : c ≠ '\\') (hword : isWordChar c = false) (hround : c ≠ '(')
    (q : Text) : setOff.step q c = some [] := by
  show setOffStep q c = some []
  rw [setOffStep, if_neg hslash, hword, isBeginning_concat hword]
  simp [hround]

theorem eq_nil_of_step (hslash : c ≠ '\\') (hword : isWordChar c = false)
    (h : setOff.step q c = some r) : r = [] := by
  replace h : setOffStep q c = some r := h
  rw [setOffStep, if_neg hslash, isBeginning_concat hword, if_neg Bool.false_ne_true] at h
  split at h
  · cases h
  · exact (Option.some.inj h).symm

theorem follow_concat (hslash : c ≠ '\\') (hword : isWordChar c = false) (hround : c ≠ '(')
    (h : setOff.follow q t = some r) : setOff.follow q (t ++ [c]) = some [] := by
  rw [Gauge.follow_append_of_some h, Gauge.follow_cons, step_plain hslash hword hround]
  rfl

/-- What may be read at all may be read where no command has been begun. -/
theorem isSetOff_of_follow (h : setOff.follow q t = some r) : IsSetOff t := by
  obtain ⟨r', hr', -⟩ := Gauge.follow_mono (G := setOff) (.inr rfl) h
  exact ⟨r', hr'⟩

theorem IsSetOff.of_isInfix (h : IsSetOff s) (ht : t <:+: s) : IsSetOff t := by
  obtain ⟨a, b, rfl⟩ := ht
  obtain ⟨r, h⟩ := h
  obtain ⟨m, hm, -⟩ := Gauge.follow_append_eq_some_iff.1 h
  obtain ⟨m', -, hm'⟩ := Gauge.follow_append_eq_some_iff.1 hm
  exact isSetOff_of_follow hm'

theorem IsSetOff.content {c : Call} (h : IsSetOff (t ++ (c.write ++ r))) :
    IsSetOff c.content :=
  h.of_isInfix ⟨t ++ c.name ++ ['('], ')' :: r, by simp [Call.write, Markup.parenthesised]⟩

theorem IsSetOff.of_eases (hs : IsSetOff s) (h : setOff.Eases s t) : IsSetOff t := by
  obtain ⟨r, hr⟩ := hs
  obtain ⟨r', hr', -⟩ := h [] r hr
  exact ⟨r', hr'⟩

theorem isWordChar_brace : isWordChar '\x7b' = false ∧ isWordChar '\x7d' = false := by
  constructor <;> exact isWordChar_eq_false (by decide)

/-- From whatever state, the opening of a fraction leaves no command open. -/
theorem follow_fracOpen (q : Text) : setOff.follow q Markup.fracOpen = some [] :=
  follow_concat (by decide) isWordChar_brace.1 (by decide)
    (follow_command (k := ("\\frac".toList, [])) (by simp [commands]) q)

/-- A multiplication sign is set off by its blank. -/
theorem follow_times (q : Text) : setOff.follow q Markup.times = some [] :=
  follow_concat (by decide) (isWordChar_eq_false (by decide)) (by decide)
    (follow_command (k := (Markup.timesSign, ['*'])) (by simp [commands]) q)

section

variable {f : KnownFunction} {p : Text × Text}

/-- What is written in front of an argument can be read wherever the name and the parenthesis can,
and leaves no command open. -/
theorem follow_frame_front (hp : p ∈ f.frames) (h : setOff.follow q (f.name ++ ['(']) = some r) :
    setOff.follow q p.1 = some [] := by
  have hfront : ∀ p ∈ f.frames,
      (p.1.head? = some '\\' ∧ setOff.follow ['\\'] p.1.tail = some []) ∨
        p.1 = f.name ++ ['('] ∨ f = KnownFunction.exp := by
    cases f <;> decide +kernel
  rcases hfront p hp with ⟨hhead, htail⟩ | hname | rfl
  · obtain ⟨l, hl⟩ := List.head?_eq_some_iff.1 hhead
    rw [hl] at htail ⊢
    exact htail
  · obtain ⟨m, -, hm⟩ := Gauge.follow_append_eq_some_iff.1 h
    obtain ⟨m', hm', hr⟩ := Option.bind_eq_some_iff.1 hm
    obtain rfl := eq_nil_of_step (by decide) isWordChar_opening hm'
    obtain rfl : [] = r := Option.some.inj hr
    rw [hname, h]
  · obtain rfl := List.mem_singleton.1 hp
    obtain ⟨m, hm, -⟩ := Option.bind_eq_some_iff.1 h
    have he : setOff.follow q ['e'] = some m := congrArg (Option.bind · some) hm
    have hpower : setOff.follow q ['e', '^'] = some [] :=
      follow_concat (t := ['e']) (by decide) (isWordChar_eq_false (by decide))
        (by decide) he
    exact follow_concat (t := ['e', '^']) (by decide) isWordChar_brace.1 (by decide) hpower

/-- What is written behind an argument can be read from every state, and leaves no command open. -/
theorem follow_frame_back (hp : p ∈ f.frames) (q : Text) : setOff.follow q p.2 = some [] := by
  have hback : ∀ p ∈ f.frames, ∃ c ∈ p.2.head?, setOff.follow [] p.2 = some [] ∧
      (c = '\\' ∨ isWordChar c = false ∧ c ≠ '(') := by
    cases f <;> decide +kernel
  obtain ⟨c, hc, hnil, hcase⟩ := hback p hp
  obtain ⟨l, hl⟩ := List.head?_eq_some_iff.1 hc
  have hstep : setOff.step q c = setOff.step [] c := by
    by_cases hslash : c = '\\'
    · subst hslash
      rfl
    · obtain ⟨hword, hround⟩ := hcase.resolve_left hslash
      rw [step_plain hslash hword hround, step_plain hslash hword hround]
  rw [hl] at hnil ⊢
  rwa [Gauge.follow_cons, hstep]

end

theorem settles_setOff : setOff.SettlesAtCalls [] where
  least _ := .inr rfl
  blank q c hc := by
    have hne : c ≠ '\\' ∧ c ≠ '(' := by
      constructor <;> rintro rfl <;> exact absurd hc (by decide)
    exact step_plain hne.1 (Fraction.isWordChar_of_isBlank hc) hne.2 q
  opening := step_plain (by decide) isWordChar_brace.1 (by decide)
  closing := step_plain (by decide) isWordChar_brace.2 (by decide)
  fracOpen := follow_fracOpen
  star _ := follow_concat (t := []) (by decide) (isWordChar_eq_false (by decide)) (by decide) rfl
  times := follow_times
  front := follow_frame_front
  back hp q := follow_frame_back hp q

end Operands

open Operands

/-! ## The passes -/

namespace Fraction

theorem eases_rewrite (style : CallStyle) (s : Text) : setOff.Eases s (rewrite style s) :=
  settles_setOff.eases_rewrite style s

end Fraction

theorem Operator.eases_prepare (s : Text) : setOff.Eases s (prepare s) :=
  settles_setOff.eases_prepare s

namespace Operands

/-- A line in which a backslash stands for a constant only holds no command. -/
theorem isSetOff_of_backslashIsPi {s : Text} (h : Sum.BackslashIsPi s) : IsSetOff s := by
  induction s with
  | nil => exact ⟨[], rfl⟩
  | cons c s ih =>
      obtain ⟨r, hr⟩ := ih fun x hx => h x (hx.trans (List.suffix_cons c s))
      by_cases hc : c = '\\'
      · -- The letter that follows is no beginning of a command.
        obtain ⟨s', rfl⟩ :=
          List.head?_eq_some_iff.1 (h s (by simp only [hc, List.suffix_refl]))
        exact ⟨r, by rw [hc]; exact hr⟩
      · exact ⟨r, by rw [Gauge.follow_cons, show setOff.step [] c = some [] from setOffStep_nil hc,
          Option.bind_some, hr]⟩

end Operands

end CalcTypeset
