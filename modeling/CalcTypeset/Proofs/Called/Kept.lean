import CalcTypeset.Proofs.Called.Constants
import CalcTypeset.Proofs.Operands.Kept

/-!
# The calls are kept

No pass makes a call, and none takes a name from its parenthesis except that the end of a fraction
or of an exponent may come between the two. So the calls of the LaTeX line are among those of the
line as it was typed, and these are among the ones that a reader finds in the LaTeX line who passes
over the markup of fractions.
-/

namespace CalcTypeset.Called

open Text Fraction Operands

variable {before : Option Char} {opens : Text → Bool} {c : Char} {w w' s s' t r v run : Text}

/-! ## Pieces that separate -/

/-- In front of `r` the piece opens nothing, and what is called behind it does not depend on what
stands in front of it. -/
def Separates (w r : Text) : Prop :=
  ∀ opens, Looks opens →
    opens (w ++ r) = false ∧ ∀ run, calledAfter opens run (w ++ r) = calledAfter opens [] r

theorem Fewer.of_separates {r' : Text} (h : Separates w r) (h' : Separates w' r')
    (hr : Fewer [] r r') (run : Text) : Fewer run (w ++ r) (w' ++ r') := by
  have hstrict := h isOpening looks_isOpening
  have hstrict' := h' isOpening looks_isOpening
  refine ⟨fun ho => ?_, ?_⟩
  · rw [hstrict'.1] at ho
    cases ho
  · rw [hstrict.2, hstrict'.2]
    exact hr.calls

theorem Keeps.of_separates {r' : Text} (h : Separates w r) (h' : Separates w' r')
    (hr : Keeps [] r r') (run : Text) : Keeps run (w ++ r) (w' ++ r') := by
  have hloose := h isLooseOpening looks_isLooseOpening
  have hloose' := h' isLooseOpening looks_isLooseOpening
  refine ⟨.of_separates h h' hr.toFewer run, fun ho => ?_, ?_⟩
  · rw [hloose.1] at ho
    cases ho
  · rw [hloose.2, hloose'.2]
    exact hr.looseCalls

theorem keptAt_of_separates (h : Separates w r) (h' : ∀ r', Separates w' r') :
    KeptAt Keeps before w w' r := fun run r' _ _ hr => .of_separates h (h' r') hr run

theorem Separates.append (h : Separates w (t ++ r)) (h' : Separates t r) :
    Separates (w ++ t) r := by
  intro opens ho
  have hw := h opens ho
  refine ⟨by rw [List.append_assoc]; exact hw.1, fun run => ?_⟩
  rw [List.append_assoc, hw.2, (h' opens ho).2]

theorem separates_of_stop (hstop : c ∉ '(' :: fractionChars)
    (hw : ∀ x ∈ c :: w, isWordChar x = false) (r : Text) : Separates (c :: w) r := by
  intro opens ho
  have hclosed : opens (c :: (w ++ r)) = false :=
    (ho.stops hstop [] (w ++ r)).trans (ho.eq_false (by simp))
  refine ⟨hclosed, fun run => ?_⟩
  rw [List.cons_append, calledAfter_other (hw c (by simp)), hclosed,
    calledAfter_separators fun x hx => hw x (by simp [hx])]
  rfl

/-- A command separates when no name goes on behind it. -/
theorem separates_command (hc : c ∉ '(' :: fractionChars)
    (hw : ∀ x ∈ c :: w, isWordChar x = true) (hname : KnownFunction.ofName? (c :: w) = none)
    (hr : ∀ x ∈ r.head?, isWordChar x = false) : Separates ('\\' :: c :: w) r := by
  intro opens ho
  have hclosed : opens ('\\' :: c :: (w ++ r)) = false :=
    (ho.stops hc ['\\'] (w ++ r)).trans (ho.eq_false (by decide))
  refine ⟨hclosed, fun run => ?_⟩
  show calledAfter opens run ('\\' :: ((c :: w) ++ r)) = _
  rw [calledAfter_other isWordChar_backslash, show opens ('\\' :: ((c :: w) ++ r)) = false from hclosed,
    calledAfter_run hw, List.nil_append, calledAfter_of_ofName?_eq_none hname hr]
  rfl

theorem stops_of_isBlank (h : isBlank c = true) : c ∉ '(' :: fractionChars := by
  intro hmem
  have hterm : ∀ x ∈ fractionChars, isTermChar x = true := by decide
  rcases List.mem_cons.1 hmem with rfl | hmem
  · exact absurd h (by decide)
  · rw [isBlank_of_isTermChar (hterm c hmem)] at h
    cases h

theorem separates_blank (h : isBlank c = true) (r : Text) : Separates [c] r :=
  separates_of_stop (stops_of_isBlank h) (by simpa using isWordChar_of_isBlank h) r

/-- A sign with the blanks around it separates. -/
theorem separates_infixSign {b b' : Text} (hc : c ∉ '(' :: fractionChars)
    (hword : isWordChar c = false) (hb : ∀ x ∈ b, isBlank x = true)
    (hb' : ∀ x ∈ b', isBlank x = true) (r : Text) : Separates (b ++ c :: b') r := by
  have hall : ∀ x ∈ b ++ c :: b', isWordChar x = false := by
    intro x hx
    rcases List.mem_append.1 hx with hx | hx
    · exact isWordChar_of_isBlank (hb x hx)
    · rcases List.mem_cons.1 hx with rfl | hx
      · exact hword
      · exact isWordChar_of_isBlank (hb' x hx)
  cases b with
  | nil => exact separates_of_stop hc hall r
  | cons x b => exact separates_of_stop (stops_of_isBlank (hb x (by simp))) hall r

theorem separates_timesSign (hr : ∀ x ∈ r.head?, isWordChar x = false) :
    Separates Markup.timesSign r :=
  separates_command (c := 't') (w := "imes".toList) (by decide) (by decide) (by decide) hr

theorem separates_times (r : Text) : Separates Markup.times r :=
  (separates_timesSign (by simp)).append
    (separates_blank (by decide) r)

theorem separates_modulo (r : Text) : Separates Markup.modulo r := by
  have hspace : isBlank ' ' = true := by decide
  have hcommand : Separates ("\\bmod".toList ++ [' ']) r :=
    (separates_command (c := 'b') (w := "mod".toList) (by decide) (by decide) (by decide)
      (by simp)).append (separates_blank hspace r)
  exact (separates_blank hspace _).append hcommand

/-! ## Operators -/

/-- A pass whose pieces separate, as what is written for them does. -/
theorem keeps_replaceAll {α : Type} {p : Recogniser α} {render : α → Text}
    {P : Text → α → Text → Prop} (hp : p.Meets P)
    (hP : ∀ before w a r, before.toList ++ (w ++ r) <:+ s → P w a r →
      KeptAt Keeps before w (render a) r) : Keeps [] s (p.replaceAll render s) := by
  refine goesOn_keeps.of_traces ((Recogniser.traces_replaceAll (A := fun _ _ => True) hp
    (fun _ _ _ _ _ => trivial) s).mono ?_) [] (by simp) (by simp)
  rintro before w _ r ⟨-, hsuffix, a, ha, rfl⟩
  exact hP before w a r hsuffix ha

theorem keeps_infixSign {sign : Char} (hstop : sign ∉ '(' :: fractionChars)
    (hword : isWordChar sign = false) (ht : ∀ r, Separates t r) (s : Text) :
    Keeps [] s ((Operator.infixSign sign).replaceAll (fun _ => t) s) := by
  refine keeps_replaceAll (Operator.meets_infixSign sign) ?_
  rintro before _ _ r - ⟨b, b', rfl, hb, hb'⟩
  exact keptAt_of_separates (separates_infixSign hstop hword hb hb' r) ht

theorem keeps_writeProducts (s : Text) : Keeps [] s (Operator.writeProducts s) :=
  keeps_infixSign (by decide) (isWordChar_eq_false (by decide)) separates_times s

theorem keeps_writeRemainders (s : Text) : Keeps [] s (Operator.writeRemainders s) :=
  keeps_infixSign (by decide) (isWordChar_eq_false (by decide)) separates_modulo s

theorem keeps_mergeDegrees (s : Text) : Keeps [] s (Operator.mergeDegrees s) := by
  have hstop : Markup.degree ∉ '(' :: fractionChars := by decide
  refine keeps_replaceAll ((Recogniser.meets_run fun c => c = Markup.degree).filter _) ?_
  rintro before w _ r - ⟨⟨rfl, hne, hw, -⟩, -⟩
  have hall : ∀ c ∈ w, c = Markup.degree := fun c hc => of_decide_eq_true (hw c hc)
  obtain ⟨c, w, rfl⟩ := List.exists_cons_of_ne_nil hne
  obtain rfl := hall c (by simp)
  exact keptAt_of_separates
    (separates_of_stop hstop (fun x hx => by rw [hall x hx]; exact Markup.isWordChar_degree) r)
    (separates_of_stop hstop (by simp))

theorem keeps_starProducts (hset : IsSetOff s) : Keeps [] s (starProducts s) := by
  refine keeps_replaceAll (Recogniser.meets_literal _ _) ?_
  rintro before _ _ r hsuffix rfl
  refine keptAt_of_separates (separates_timesSign fun c hc => ?_)
    (separates_of_stop (by decide) (by simpa using (isWordChar_eq_false (by decide))))
  obtain ⟨r, rfl⟩ := List.head?_eq_some_iff.1 hc
  exact (hset.not_followed (k := (Markup.timesSign, ['*'])) (by simp [commands])
    ((List.suffix_append _ _).trans hsuffix)).1

theorem keeps_unstarProducts (s : Text) : Keeps [] s (unstarProducts s) := by
  refine keeps_replaceAll (Recogniser.meets_single '*') ?_
  rintro before _ _ r - rfl
  exact keptAt_of_separates (separates_of_stop (by decide)
    (by simpa using (isWordChar_eq_false (by decide))) r) separates_times

/-! ## Fractions -/

theorem calledAfter_parenthesised (ho : Looks opens) (t r : Text) :
    calledAfter opens [] (Markup.parenthesised t ++ r) =
      calledAfter opens [] t ++ calledAfter opens [] r := by
  show calledAfter opens [] ('(' :: (t ++ [')'] ++ r)) = _
  rw [calledAfter_separator isWordChar_opening, List.append_assoc]
  exact calledAfter_append (ho.eq_false (by simp)) isWordChar_closing
    (fun x => ho.stops (by decide) x r) [] t

/-- A closing brace is no opening, and behind it stands no name. -/
theorem calls_append_close (t r : Text) :
    calls (t ++ '\x7d' :: r) = calls t ++ calls r := by
  refine calledAfter_append rfl isWordChar_brace.2 (fun x => ?_) [] t
  cases x <;> rfl

theorem calls_braced (t r : Text) : calls (Markup.braced t ++ r) = calls t ++ calls r := by
  show calls ('\x7b' :: (t ++ ['\x7d'] ++ r)) = _
  rw [List.append_assoc, calls, calledAfter_separator isWordChar_brace.1]
  exact calls_append_close t r

/-- A fraction is scanned from its first operand on. -/
theorem calledAfter_frac (opens : Text → Bool) (n d r : Text) :
    calledAfter opens [] (Markup.frac n d ++ r) =
      calledAfter opens [] (n ++ '\x7d' :: '\x7b' :: (d ++ '\x7d' :: r)) := by
  have hopen : Markup.fracOpen = '\\' :: ("frac".toList ++ ['\x7b']) := rfl
  have hrest : n ++ '\x7d' :: '\x7b' :: (d ++ ['\x7d']) ++ r =
      n ++ '\x7d' :: '\x7b' :: (d ++ '\x7d' :: r) := by simp
  rw [frac_eq, List.append_assoc, hrest, hopen, List.cons_append, List.append_assoc,
    calledAfter_separator isWordChar_backslash, calledAfter_run (by decide), List.nil_append,
    calledAfter_of_ofName?_eq_none (by decide) (by simpa using isWordChar_brace.1)]
  exact calledAfter_separator isWordChar_brace.1 _

theorem parts_of_endsClear (h : EndsClear w r) : Parts w r := by
  have hclose : ∀ {x : Char}, isWordChar x = false → w.getLast? = some x → Parts w r :=
    fun hx hlast => .inl fun c hc => by
      rw [hlast] at hc
      obtain rfl := Option.some.inj hc
      exact hx
  rcases h with h | h | h | h
  · exact hclose (isWordChar_eq_false (by decide)) h
  · exact hclose isWordChar_brace.2 h
  · refine .inr fun c hc => Bool.eq_false_iff.2 fun hlower => ?_
    have := h c hc
    rw [isTermChar_of_isLower hlower] at this
    cases this
  · exact .inr (isLower_of_endsTerm h)

/-- An operand calls no more in the fraction than it called in the line. -/
theorem calls_taken (h : Taken w t) : (calls t).Sublist (calls w) := by
  have hinside : ∀ t, calls (Markup.parenthesised t) = calls t := fun t => by
    have := calledAfter_parenthesised looks_isOpening t []
    rwa [List.append_nil, calledAfter_nil, List.append_nil] at this
  cases h with
  | whole => exact List.Sublist.refl _
  | bare => simp only [hinside, List.Sublist.refl]
  | @braced t =>
      have hbraced : calls (Markup.braced t) = calls t := by
        rw [← List.append_nil (Markup.braced t), calls_braced]
        exact List.append_nil _
      simp only [hinside, hbraced, List.Sublist.refl]

/-- In front of a closing brace an operand calls no less than it called in the line. -/
theorem looseCalls_taken (h : Taken w t) (v : Text) :
    (looseCalls (w ++ '\x7d' :: v)).Sublist (looseCalls (t ++ '\x7d' :: v)) := by
  have hparts : ∀ t v : Text, Parts ([] ++ t) ('\x7d' :: v) := fun _ v => parts_cons rfl _ v
  have happend := fun (t v : Text) =>
    append_sublist looks_isLooseOpening (by simp) (hparts t v)
  cases h with
  | whole => exact List.Sublist.refl _
  | @bare t =>
      rw [looseCalls, calledAfter_parenthesised looks_isLooseOpening]
      exact happend t v
  | @braced t =>
      have hbraced : (looseCalls t).Sublist (looseCalls (Markup.braced t)) := by
        rw [looseCalls, looseCalls, Markup.braced, List.cons_append,
          calledAfter_separator isWordChar_brace.1]
        exact (List.sublist_append_left _ _).trans (happend t [])
      rw [looseCalls, looseCalls, calledAfter_parenthesised looks_isLooseOpening,
        calledAfter_parenthesised looks_isLooseOpening]
      exact hbraced.append (List.Sublist.refl _)

theorem stops_of_isSlash {g : Text} (h : IsSlash g) : ∀ c ∈ g, c ∉ '(' :: fractionChars := by
  obtain ⟨b, b', rfl, hb, hb'⟩ := h
  intro c hc
  rcases List.mem_append.1 hc with hc | hc
  · exact stops_of_isBlank (hb c hc)
  · rcases List.mem_cons.1 hc with rfl | hc
    · decide
    · exact stops_of_isBlank (hb' c hc)

theorem separates_slash {g : Text} (h : IsSlash g) (r : Text) : Separates g r := by
  obtain ⟨b, b', rfl, hb, hb'⟩ := h
  exact separates_infixSign (by decide) (isWordChar_eq_false (by decide)) hb hb' r

theorem calls_write (q : Quotient) (r : Text) :
    calls (q.write ++ r) = calls q.dividend ++ (calls q.divisor ++ calls r) := by
  rw [calls, Quotient.write, calledAfter_frac]
  refine (calls_append_close _ _).trans (congrArg _ ?_)
  rw [calls, calledAfter_separator isWordChar_brace.1]
  exact calls_append_close _ _

theorem looseCalls_write (q : Quotient) (r : Text) : looseCalls (q.write ++ r) =
    looseCalls (q.dividend ++ '\x7d' :: '\x7b' :: (q.divisor ++ '\x7d' :: r)) :=
  calledAfter_frac _ _ _ _

/-- What is called in front of `r` is called in front of a closing brace with `r'` behind it. -/
theorem looseCalls_append_close {r' : Text} (h : Keeps [] r r') (ht : Parts t r) :
    (looseCalls (t ++ r)).Sublist (looseCalls (t ++ '\x7d' :: r')) := by
  have hopens : isLooseOpening r = true → isLooseOpening ('\x7d' :: r') = true := fun ho => by
    rw [isLooseOpening_cons, if_pos (by decide)]
    exact h.looseOpening ho
  refine append_mono (w := []) (by simp) ht ⟨'\x7d', r', rfl, isWordChar_brace.2⟩
    (isLooseOpening_append_mono hopens) ?_
  rw [calledAfter_separator isWordChar_brace.2]
  exact h.looseCalls

/-- A quotient whose dividend begins with a parenthesis when the site does. -/
def KeepsRound (w : Text) (q : Quotient) (_ : Text) : Prop :=
  w.head? = some '(' → q.dividend.head? = some '('

theorem isLooseOpening_write {q : Quotient} (h : isLooseOpening q.dividend = true) (r : Text) :
    isLooseOpening (q.write ++ r) = true := by
  have hmarkup : ∀ x : Text, (∀ c ∈ x, c ∈ fractionChars) → ∀ s,
      isLooseOpening (x ++ s) = isLooseOpening s := by
    intro x hx s
    induction x with
    | nil => rfl
    | cons c x ih =>
        rw [List.cons_append, isLooseOpening_cons, if_pos (hx c (by simp)),
          ih fun y hy => hx y (by simp [hy])]
  rw [Quotient.write, frac_eq, List.append_assoc, List.append_assoc, hmarkup _ (by decide)]
  exact looks_isLooseOpening.append h _

/-- A quotient whose dividend begins with a parenthesis when the site does, is found as an opening
when the site is. -/
theorem isLooseOpening_taken (h : Taken w t) (hround : w.head? = some '(' → t.head? = some '(')
    (ho : isLooseOpening w = true) : isLooseOpening t = true := by
  have hgroup : w.head? = some '(' → isLooseOpening t = true := fun hw => by
    obtain ⟨t, rfl⟩ := List.head?_eq_some_iff.1 (hround hw)
    exact looks_isLooseOpening.round t
  cases h with
  | whole => exact ho
  | bare => exact hgroup rfl
  | braced => exact hgroup rfl

/-- In front of the slash and behind the divisor no name goes on. -/
theorem parts_of_isSite {n g d : Text} {q : Quotient} (h : IsSite (n ++ g ++ d) q r)
    (hg : IsSlash g) : Parts n (g ++ (d ++ r)) ∧ Parts d r := by
  obtain ⟨a, g, rfl⟩ := List.exists_cons_of_ne_nil hg.ne_nil
  exact ⟨parts_cons (hg.isSeparator a (by simp)).2 n _,
    (parts_of_endsClear h.endsClear).of_suffix (List.suffix_append _ _)⟩

theorem fewer_site {q : Quotient} {r' : Text} (h : IsSite w q r) (hr : Fewer [] r r') :
    Fewer [] (w ++ r) (q.write ++ r') := by
  have hsite := h
  obtain ⟨n, g, d, rfl, hg, hn, -, hd, -⟩ := h
  obtain ⟨hfront, hback⟩ := parts_of_isSite hsite hg
  have hslash : calledAfter isOpening [] (g ++ (d ++ r)) = calls (d ++ r) :=
    (separates_slash hg (d ++ r) isOpening looks_isOpening).2 []
  rw [List.append_assoc, List.append_assoc]
  refine ⟨(nomatch ·), List.Sublist.trans ?_
    (append_sublist (w := []) looks_isOpening (by simp) hfront)⟩
  rw [hslash]
  show (calls (q.write ++ r')).Sublist _
  rw [calls_write]
  exact (calls_taken hn).append (((calls_taken hd).append hr.calls).trans
    (append_sublist (w := []) looks_isOpening (by simp) hback))

theorem keeps_site {q : Quotient} {r' : Text} (h : IsSite w q r) (hround : KeepsRound w q r)
    (hr : Keeps [] r r') : Keeps [] (w ++ r) (q.write ++ r') := by
  have hsite := h
  obtain ⟨n, g, d, rfl, hg, hn, -, hd, -⟩ := h
  obtain ⟨hfront, hback⟩ := parts_of_isSite hsite hg
  have hslash : calledAfter isLooseOpening [] (g ++ (d ++ r)) = looseCalls (d ++ r) :=
    (separates_slash hg (d ++ r) isLooseOpening looks_isLooseOpening).2 []
  obtain ⟨a, g, rfl⟩ := List.exists_cons_of_ne_nil hg.ne_nil
  have hstop := stops_of_isSlash hg a (by simp)
  refine ⟨fewer_site hsite hr.toFewer, fun ho => ?_, ?_⟩
  · rw [List.append_assoc, List.append_assoc, List.cons_append,
      looks_isLooseOpening.stops hstop] at ho
    refine isLooseOpening_write (isLooseOpening_taken hn (fun hhead => hround ?_) ho) r'
    rw [List.append_assoc, List.head?_append, hhead]
    rfl
  · rw [List.append_assoc, List.append_assoc]
    show (looseCalls _).Sublist (looseCalls _)
    rw [looseCalls_write]
    refine List.Sublist.trans ?_ (looseCalls_taken hn _)
    refine append_mono (w := []) (by simp) hfront ⟨_, _, rfl, isWordChar_brace.2⟩
      (fun x ho => ?_) ?_
    · rw [List.cons_append, looks_isLooseOpening.stops hstop] at ho
      exact looks_isLooseOpening.append ho _
    · rw [hslash, calledAfter_separator isWordChar_brace.2,
        calledAfter_separator isWordChar_brace.1]
      exact (looseCalls_append_close hr hback).trans (looseCalls_taken hd r')

/-- A run goes on to the character in front of a site. -/
theorem run_eq_nil (hrun : ∀ c ∈ run, isWordChar c = true) (hlast : ∀ c ∈ run.getLast?, c ∈ before)
    (hbefore : ∀ c ∈ before, isWordChar c = false) : run = [] := by
  cases hc : run.getLast? with
  | none => exact List.getLast?_eq_none_iff.1 hc
  | some c =>
      have := hbefore c (hlast c hc)
      rw [hrun c (List.mem_of_getLast? hc)] at this
      cases this

theorem run_cases (hrun : ∀ c ∈ run, isWordChar c = true) (hlast : ∀ c ∈ run.getLast?, c ∈ before)
    (hbegins : ∀ c ∈ before, BeginsAt c s) : run = [] ∨ s.head? = some '(' := by
  by_cases hhead : s.head? = some '('
  · exact .inr hhead
  · refine .inl (run_eq_nil hrun hlast fun c hc => ?_)
    rcases hbegins c hc with hterm | hround | ⟨hother, -⟩
    · exact Bool.eq_false_iff.2 fun hword => by
        rw [isTermChar_of_isWordChar hword] at hterm
        cases hterm
    · exact absurd hround hhead
    · exact hother

theorem fewerAt_site {q : Quotient} (h : IsSite w q r)
    (hbegins : ∀ c ∈ before, BeginsAt c (w ++ r)) : KeptAt Fewer before w q.write r := by
  intro run r' hrun hlast hr
  have hfewer := fewer_site h hr
  rcases run_cases hrun hlast hbegins with rfl | hhead
  · exact hfewer
  · obtain ⟨s, hs⟩ := List.head?_eq_some_iff.1 hhead
    rw [hs] at hfewer ⊢
    exact hfewer.of_separator (isWordChar_eq_false (by decide)) isWordChar_backslash run

/-- Fractions make no call, whatever becomes of the parentheses around their operands. -/
theorem fewer_rewriteSites {kinds : List (Recogniser Quotient)}
    (hmeets : ∀ p ∈ kinds, p.Meets IsSite) (hbegins : ∀ p ∈ kinds, Begins p) (s : Text) :
    Fewer [] s (rewriteSites kinds s) := by
  induction kinds generalizing s with
  | nil => exact .refl [] s
  | cons p kinds ih =>
      have hp : Fewer [] s (p.replaceAll Quotient.write s) := by
        refine goesOn_fewer.of_traces ((Recogniser.traces_replaceAll (hmeets p (by simp))
          (hbegins p (by simp)) s).mono ?_) [] (by simp) (by simp)
        rintro before w _ r ⟨hb, -, q, hsite, rfl⟩
        exact fewerAt_site hsite hb
      exact hp.trans (ih (fun p hp => hmeets p (by simp [hp]))
        (fun p hp => hbegins p (by simp [hp])) _)

theorem keptAt_site {q : Quotient} (h : IsSite w q r) (hround : KeepsRound w q r)
    (hbegins : ∀ c ∈ before, BeginsAt c (w ++ r)) : KeptAt Keeps before w q.write r := by
  intro run r' hrun hlast hr
  have hkeeps := keeps_site h hround hr
  rcases run_cases hrun hlast hbegins with rfl | hhead
  · exact hkeeps
  · obtain ⟨s, hs⟩ := List.head?_eq_some_iff.1 hhead
    rw [hs] at hkeeps ⊢
    exact hkeeps.of_separator (isWordChar_eq_false (by decide)) isWordChar_backslash run

theorem keeps_rewriteSites {kinds : List (Recogniser Quotient)}
    (hmeets : ∀ p ∈ kinds, p.Meets IsSite) (hround : ∀ p ∈ kinds, p.Meets KeepsRound)
    (hbegins : ∀ p ∈ kinds, Begins p) (s : Text) : Keeps [] s (rewriteSites kinds s) := by
  induction kinds generalizing s with
  | nil => exact .refl [] s
  | cons p kinds ih =>
      have hp : Keeps [] s (p.replaceAll Quotient.write s) := by
        refine goesOn_keeps.of_traces ((Recogniser.traces_replaceAll
          ((hmeets p (by simp)).and (hround p (by simp))) (hbegins p (by simp)) s).mono ?_) []
          (by simp) (by simp)
        rintro before w _ r ⟨hb, -, q, ⟨hsite, hq⟩, rfl⟩
        exact keptAt_site hsite hq hb
      exact hp.trans (ih (fun p hp => hmeets p (by simp [hp]))
        (fun p hp => hround p (by simp [hp])) (fun p hp => hbegins p (by simp [hp])) _)

/-! Which parenthesis a dividend begins with is seen in the operand. -/

/-- An operand that begins with a parenthesis when what was taken for it does. -/
def KeepsHead (w t : Text) (_ : Text) : Prop :=
  w ≠ [] ∧ (w.head? = some '(' → t.head? = some '(')

theorem keepsRound_division {n d : Recogniser Text} {slash : Recogniser Unit}
    {P : Text → Unit → Text → Prop} {R : Text → Text → Text → Prop} (hn : n.Meets KeepsHead)
    (hslash : slash.Meets P) (hd : d.Meets R) : (division n slash d).Meets KeepsRound := by
  refine (hn.bind fun n => hslash.bind fun _ => hd.map fun d => Fraction.Quotient.mk n d).mono ?_
  rintro w q r ⟨v, n, x, rfl, ⟨hne, hhead⟩, g, _, _, rfl, -, d, -, rfl⟩ hround
  obtain ⟨c, v, rfl⟩ := List.exists_cons_of_ne_nil hne
  exact hhead hround

theorem keepsRound_overTerm {f : ProductNotation} (hf : f.overTerm.Meets IsSite) :
    f.overTerm.Meets KeepsRound := by
  intro s q r hs
  obtain ⟨w, hw, hsite⟩ := hf s q r hs
  refine ⟨w, hw, fun hround => ?_⟩
  obtain ⟨w, rfl⟩ := List.head?_eq_some_iff.1 hround
  obtain ⟨⟨c, s'⟩, hc, hq⟩ := Option.bind_eq_some_iff.1 hs
  obtain ⟨x, hx, he⟩ := Option.map_eq_some_iff.1 hq
  cases he
  obtain ⟨_, rfl, rfl, -⟩ := Recogniser.meets_char _ _ _ _ hc
  obtain rfl : c = '(' := (List.cons.inj hw).1
  rfl

theorem keepsHead_term : term.Meets KeepsHead := by
  refine (Recogniser.meets_run isTermChar).mono ?_
  rintro w _ r ⟨rfl, hne, -⟩
  exact ⟨hne, id⟩

theorem keepsHead_withExponent {p : Recogniser Text} (hp : p.Meets KeepsHead) :
    (withExponent p).Meets KeepsHead := by
  refine ((hp.bind fun t => meets_exponent.map fun e => t ++ e).orElse hp).mono ?_
  rintro w _ r (⟨v, t, _, rfl, ⟨hne, hhead⟩, e, ⟨rfl, -⟩, rfl⟩ | h)
  · obtain ⟨c, v, rfl⟩ := List.exists_cons_of_ne_nil hne
    refine ⟨by simp, fun hround => ?_⟩
    rw [List.head?_append, hhead hround]
    rfl
  · exact h

theorem keepsHead_group {p : Recogniser Text} {P : Text → Text → Text → Prop}
    (hp : p.Meets P) (hP : ∀ w t r, P w t r → w = Markup.parenthesised t)
    (write : Text → Text) : (p.map fun t => Markup.parenthesised (write t)).Meets KeepsHead := by
  refine (hp.map _).mono ?_
  rintro w _ r ⟨t, ht, rfl⟩
  rw [hP w t r ht]
  exact ⟨parenthesised_ne_nil t, fun _ => rfl⟩

theorem keepsRound_argumentSites : ∀ p ∈ argumentSites .asTyped, p.Meets KeepsRound := by
  have hgroup : group.Meets KeepsHead :=
    keepsHead_group (Call.meets_flatGroup.filter _) (fun _ _ _ h => h.1.1) id
  exact forall_argumentSites.2 ⟨keepsRound_overTerm meets_argumentProduct,
    keepsRound_division keepsHead_term meets_spacedSlash meets_call,
    keepsRound_division hgroup meets_tightSlash meets_group,
    keepsRound_division keepsHead_term meets_spacedSlash meets_term⟩

theorem keepsHead_powerGroup : (withExponent group).Meets KeepsHead :=
  keepsHead_withExponent
    (keepsHead_group (Call.meets_flatGroup.filter _) (fun _ _ _ h => h.1.1) id)

theorem keepsRound_groupSites : ∀ p ∈ groupSites .asTyped, p.Meets KeepsRound := by
  have hcall : filledCall.Meets KeepsHead := by
    refine ((Call.meets_flatCall.filter _).map _).mono ?_
    rintro w _ r ⟨c, ⟨⟨rfl, -⟩, -⟩, rfl⟩
    exact ⟨write_ne_nil c, id⟩
  exact forall_groupSites.2 ⟨keepsRound_division
      (keepsHead_group (Call.meets_flatGroup.filter _) (fun _ _ _ h => h.1.1) id)
      meets_tightSlash meets_markupGroup,
    keepsRound_division
      (keepsHead_group (Call.meets_flatGroup.filter _) (fun _ _ _ h => h.1.1) Markup.braced)
      meets_tightSlash meets_bracedGroup,
    keepsRound_division (keepsHead_withExponent hcall) meets_spacedSlash meets_term,
    keepsRound_division keepsHead_powerGroup meets_spacedSlash meets_term⟩

theorem keepsRound_basicSites : ∀ p ∈ basicSites, p.Meets KeepsRound := by
  exact forall_basicSites.2
    ⟨keepsRound_division keepsHead_powerGroup meets_spacedSlash meets_groupContent,
    keepsRound_overTerm meets_lineProduct,
    keepsRound_division keepsHead_term meets_spacedSlash meets_endedCall,
    keepsRound_division keepsHead_term meets_spacedSlash meets_endedTerm⟩

/-! ## Arguments and calls -/

/-- Behind a closing parenthesis the text is scanned on its own. -/
theorem calledAfter_close (ho : Looks opens) (run s r : Text) :
    opens (s ++ ')' :: r) = opens s ∧
      calledAfter opens run (s ++ ')' :: r) = calledAfter opens run s ++ calledAfter opens [] r :=
  have hopens := fun s => ho.stops (c := ')') (by decide) s r
  ⟨hopens s, calledAfter_append (ho.eq_false (by simp)) (isWordChar_eq_false (by decide)) hopens
    run s⟩

/-- What is written anew in front of a closing parenthesis. -/
theorem fewer_closed {r' : Text} (h : Fewer run s s') (hr : Fewer [] r r') :
    Fewer run (s ++ [')'] ++ r) (s' ++ [')'] ++ r') := by
  have hclose := calledAfter_close looks_isOpening run
  simp only [List.append_assoc, List.singleton_append]
  constructor
  · rw [(hclose s r).1, (hclose s' r').1]
    exact h.opening
  · rw [(hclose s r).2, (hclose s' r').2]
    exact h.calls.append hr.calls

theorem keeps_closed {r' : Text} (h : Keeps run s s') (hr : Keeps [] r r') :
    Keeps run (s ++ [')'] ++ r) (s' ++ [')'] ++ r') := by
  have hclose := calledAfter_close looks_isLooseOpening run
  refine ⟨fewer_closed h.toFewer hr.toFewer, ?_, ?_⟩ <;>
    simp only [List.append_assoc, List.singleton_append]
  · rw [(hclose s r).1, (hclose s' r').1]
    exact h.looseOpening
  · rw [(hclose s r).2, (hclose s' r').2]
    exact h.looseCalls.append hr.looseCalls

theorem GoesOn.word_append {K : Text → Text → Text → Prop} (hK : GoesOn K)
    (hv : ∀ c ∈ v, isWordChar c = true) (h : K (w ++ v) s s') : K w (v ++ s) (v ++ s') := by
  induction v generalizing w with
  | nil => rwa [List.append_nil] at h
  | cons c v ih =>
      refine hK.cons ?_
      rw [if_pos (hv c (by simp))]
      exact ih (fun x hx => hv x (by simp [hx])) (by simpa using h)

/-- The arguments of calls may be written anew when each may on its own. -/
theorem GoesOn.rewriteArguments {K : Text → Text → Text → Prop} (hK : GoesOn K)
    (hclosed : ∀ {run s s' r r'}, K run s s' → K [] r r' →
      K run (s ++ [')'] ++ r) (s' ++ [')'] ++ r')) (style : CallStyle)
    (hargument : ∀ {s}, IsSetOff s → K [] s (rewriteArgument style s)) (hset : IsSetOff s) :
    K [] s (rewriteArguments style s) := by
  refine hK.of_traces ((WordRule.traces_replaceAll meets_slashedCall s).mono ?_) [] (by simp)
    (by simp)
  rintro before w _ r ⟨hb, hsuffix, n, v, c, rfl, -, hn, ⟨hw, rfl, -⟩, rfl⟩ run r' hrun hlast hr
  have hwrite : ∀ t, Call.write ⟨c.name, t⟩ = c.name ++ '(' :: t ++ [')'] := fun t => by
    simp [Call.write, Markup.parenthesised]
  have hcontent : IsSetOff c.content := by
    obtain ⟨p, rfl⟩ := hsuffix
    rw [hw, ← List.append_assoc] at hset
    exact hset.content
  obtain rfl := run_eq_nil hrun hlast hb
  show K [] _ (Call.write ⟨c.name, rewriteArgument style c.content⟩ ++ r')
  rw [hw, show c.write = _ from hwrite c.content, hwrite]
  refine hclosed (hK.word_append hn (hK.cons ?_)) hr
  rw [isWordChar_of_lt (by decide)]
  exact hargument hcontent

theorem fewer_rewriteArguments (style : CallStyle) (hset : IsSetOff s) :
    Fewer [] s (rewriteArguments style s) :=
  goesOn_fewer.rewriteArguments fewer_closed style (fun hset =>
    ((keeps_starProducts hset).toFewer.trans (fewer_rewriteSites (meets_argumentSites style)
      (begins_argumentSites style) _)).trans (keeps_unstarProducts _).toFewer) hset

theorem keeps_rewriteArguments (hset : IsSetOff s) : Keeps [] s (rewriteArguments .asTyped s) :=
  goesOn_keeps.rewriteArguments keeps_closed .asTyped (fun hset =>
    ((keeps_starProducts hset).trans (keeps_rewriteSites (meets_argumentSites _)
      keepsRound_argumentSites (begins_argumentSites _) _)).trans (keeps_unstarProducts _)) hset

theorem keeps_rewriteCallDividends (s : Text) : Keeps [] s (rewriteCallDividends s) := by
  refine goesOn_keeps.of_traces ((WordRule.traces_replaceAll
    (fun w => (meets_callSite w).and (meets_callSite_head w)) s).mono ?_) [] (by simp) (by simp)
  rintro before w _ r ⟨hb, -, n, v, c, rfl, hne, hn, ⟨⟨rfl, -, hcase⟩, hhead⟩, rfl⟩
    run r' hrun hlast hr
  obtain rfl := run_eq_nil hrun hlast hb
  rcases hcase with ⟨hnone, hw⟩ | ⟨d, hd, hsite⟩
  · have hwrite : c.call.write = (c.call.name ++ '(' :: c.call.content) ++ [')'] := by
      simp [Call.write, Markup.parenthesised]
    rw [CallSite.write, hnone, hw, hwrite]
    exact keeps_closed (.refl [] _) hr
  · rw [CallSite.write, hd]
    refine keeps_site hsite (fun hround => ?_) hr
    obtain ⟨x, n, hx⟩ := List.exists_cons_of_ne_nil hne
    rw [hx] at hround
    show c.call.write.head? = some '('
    rw [Call.write, hx]
    exact hround

/-- No division makes a call. -/
theorem fewer_rewrite (style : CallStyle) (hset : IsSetOff s) : Fewer [] s (rewrite style s) :=
  (((fewer_rewriteArguments style hset).trans (keeps_rewriteCallDividends _).toFewer).trans
    (fewer_rewriteSites (meets_groupSites style) (begins_groupSites style) _)).trans
      (fewer_rewriteSites meets_basicSites begins_basicSites _)

theorem keeps_rewrite (hset : IsSetOff s) : Keeps [] s (rewrite .asTyped s) :=
  (((keeps_rewriteArguments hset).trans (keeps_rewriteCallDividends _)).trans
    (keeps_rewriteSites (meets_groupSites _) keepsRound_groupSites (begins_groupSites _) _)).trans
      (keeps_rewriteSites meets_basicSites keepsRound_basicSites begins_basicSites _)

/-! ## Powers and gaps -/

theorem keeps_braced {e r' : Text} (he : Parts e r) (hr : Keeps [] r r') :
    Keeps [] (e ++ r) (Markup.braced e ++ r') := by
  refine ⟨⟨(nomatch ·), ?_⟩, fun ho => ?_, ?_⟩
  · show (calls (Markup.braced e ++ r')).Sublist _
    rw [calls_braced]
    exact ((List.Sublist.refl _).append hr.calls).trans
      (append_sublist (w := []) looks_isOpening (by simp) he)
  · show isLooseOpening ('\x7b' :: (e ++ ['\x7d'] ++ r')) = true
    rw [isLooseOpening_cons, if_pos (by decide), List.append_assoc]
    refine isLooseOpening_append_mono (fun ho => ?_) e ho
    rw [List.singleton_append, isLooseOpening_cons, if_pos (by decide)]
    exact hr.looseOpening ho
  · show (looseCalls _).Sublist (looseCalls ('\x7b' :: (e ++ ['\x7d'] ++ r')))
    rw [looseCalls, looseCalls, calledAfter_separator isWordChar_brace.1, List.append_assoc]
    exact looseCalls_append_close hr he

theorem keeps_bracePowers (s : Text) : Keeps [] s (Operator.bracePowers s) := by
  refine keeps_replaceAll Operator.meets_power ?_
  rintro before _ e r - ⟨rfl, -, -, hr⟩ run r' - - hkeeps
  have hparts : Parts e r := .inr fun c hc => Bool.eq_false_iff.2 fun hlower => by
    have := hr c hc
    rw [Operator.isExponentChar_of_isLower hlower] at this
    cases this
  refine .cons ?_
  rw [isWordChar_of_lt (by decide)]
  exact keeps_braced hparts hkeeps

theorem keeps_squeezeAfter (s : Text) : (∀ run, Keeps run s (squeezeAfter false s)) ∧
    ∀ c run, isBlank c = true → Keeps run (c :: s) (squeezeAfter true s) := by
  induction s with
  | nil =>
      refine ⟨fun run => .refl run [], fun c run hc => ?_⟩
      have hloose := separates_blank hc [] isLooseOpening looks_isLooseOpening
      refine ⟨⟨(nomatch ·), List.nil_sublist _⟩, fun ho => ?_, ?_⟩
      · rw [show isLooseOpening [c] = false from hloose.1] at ho
        cases ho
      · rw [show calledAfter isLooseOpening run [c] = _ from hloose.2 run]
        exact List.Sublist.refl _
  | cons x s ih =>
      cases hx : isBlank x with
      | true =>
          have hblank : ∀ gap, squeezeAfter gap (x :: s) = squeezeAfter true s := fun gap => by
            rw [squeezeAfter, if_pos hx]
          rw [hblank, hblank]
          refine ⟨fun run => ih.2 x run hx, fun c run hc => ?_⟩
          exact (Keeps.of_separates (w := [c, x])
            (.append (w := [c]) (separates_blank hc _) (separates_blank hx s))
            (separates_blank hx s) (.refl [] s) run).trans (ih.2 x run hx)
      | false =>
          have hsolid : squeezeAfter false (x :: s) = x :: squeezeAfter false s := by
            simp [squeezeAfter, hx]
          have hgap : squeezeAfter true (x :: s) = ' ' :: x :: squeezeAfter false s := by
            simp [squeezeAfter, hx]
          have hcons : ∀ run, Keeps run (x :: s) (x :: squeezeAfter false s) :=
            fun run => .cons (ih.1 _)
          rw [hsolid, hgap]
          exact ⟨hcons, fun c run hc => .of_separates (w := [c]) (separates_blank hc _)
            (separates_blank (by decide) _) (hcons []) run⟩

/-! ## The conversion -/

/-- Squeezing changes no call, also where it drops blanks at the beginning of the line. -/
theorem keeps_squeeze (s : Text) : Keeps [] (skipBlanks s) (squeeze s) :=
  (keeps_squeezeAfter (skipBlanks s)).1 []

theorem calledAfter_skipBlanks (opens : Text → Bool) (s : Text) :
    calledAfter opens [] (skipBlanks s) = calledAfter opens [] s := by
  obtain ⟨b, hb, hblank⟩ := skipBlanks_eq_append s
  have hskip : calledAfter opens [] (b ++ skipBlanks s) = calledAfter opens [] (skipBlanks s) :=
    calledAfter_separators (fun c hc => isWordChar_of_isBlank (hblank c hc)) (skipBlanks s)
  rw [← hb] at hskip
  exact hskip.symm

end CalcTypeset.Called
