import CalcTypeset.Proofs.Layout
import Mathlib.Data.List.Infix

/-!
# No division is lost

The divisions of a line are its slashes and its fractions. A site has one slash between its operands
and becomes one fraction, and all that stands elsewhere is kept, so the number of divisions is a
matter that layout does not touch. Nor does it depend on how calls are written: no name holds a
slash, and no markup of a call holds one or begins a fraction.

Where the line has no backslash, the divisions of the LaTeX line are the slashes that were typed.
-/

namespace CalcTypeset

open Text Operands Fraction

/-- How often a fraction begins in the text. -/
def fractions (s : Text) : Nat := s.tails.countP fun t => "\\frac".toList.isPrefixOf t

/-- How many divisions the text holds, be they written as slashes or as fractions. -/
def divisions (s : Text) : Nat := fractions s + s.count '/'

variable {s t u : Text} {c : Char}

/-! ## Fractions and divisions of a text -/

@[simp] theorem fractions_nil : fractions [] = 0 := rfl

theorem fractions_cons (c : Char) (s : Text) :
    fractions (c :: s) = fractions s + if "\\frac".toList.isPrefixOf (c :: s) then 1 else 0 := by
  rw [fractions, List.tails_cons, List.countP_cons]
  rfl

theorem fractions_cons_of_ne (hc : c ≠ '\\') (s : Text) : fractions (c :: s) = fractions s := by
  have hprefix : "\\frac".toList.isPrefixOf (c :: s) = false := Bool.eq_false_iff.2 fun h =>
    hc (List.cons_prefix_cons.1 (List.isPrefixOf_iff_prefix.1 h)).1.symm
  rw [fractions_cons, hprefix]
  rfl

/-- A backslash that stands for a constant begins no fraction. -/
theorem fractions_of_backslashIsPi (h : Sum.BackslashIsPi s) : fractions s = 0 := by
  induction s with
  | nil => rfl
  | cons c s ih =>
      have hprefix : "\\frac".toList.isPrefixOf (c :: s) = false := by
        refine Bool.eq_false_iff.2 fun hprefix => ?_
        obtain ⟨r, hr⟩ := List.isPrefixOf_iff_prefix.1 hprefix
        cases h ("frac".toList ++ r) (by rw [← hr]; exact List.suffix_refl _)
      rw [fractions_cons, hprefix, ih fun r hr => h r (hr.trans (List.suffix_cons c s))]
      rfl

theorem fractions_of_not_mem (hs : '\\' ∉ s) : fractions s = 0 :=
  fractions_of_backslashIsPi fun _ hr => absurd (hr.subset (by simp)) hs

/-- In front of a cut, a fraction begins as it does in the text on its own. -/
theorem isPrefixOf_append (h : IsCut s t) (hs : s ≠ []) :
    "\\frac".toList.isPrefixOf (s ++ t) = "\\frac".toList.isPrefixOf s := by
  rw [Bool.eq_iff_iff, List.isPrefixOf_iff_prefix, List.isPrefixOf_iff_prefix]
  refine ⟨fun hprefix => ?_, fun hprefix => hprefix.trans (List.prefix_append s t)⟩
  by_contra hnot
  obtain ⟨z, hz⟩ : s <+: "\\frac".toList :=
    (List.prefix_or_prefix_of_prefix (List.prefix_append s t) hprefix).resolve_right hnot
  have hne : z ≠ [] := by
    rintro rfl
    rw [List.append_nil] at hz
    exact hnot (hz ▸ List.prefix_refl s)
  rw [← hz, List.prefix_append_right_inj] at hprefix
  exact h ("\\frac".toList, []) (by simp [commands]) s z hs hne hz.symm (List.suffix_refl s) hprefix

theorem fractions_append (h : IsCut s t) : fractions (s ++ t) = fractions s + fractions t := by
  induction s with
  | nil => rw [List.nil_append, fractions_nil, Nat.zero_add]
  | cons c s ih =>
      have hprefix := isPrefixOf_append h (List.cons_ne_nil c s)
      rw [List.cons_append] at hprefix ⊢
      rw [fractions_cons, fractions_cons, hprefix, ih (h.of_suffix (List.suffix_cons c s))]
      omega

theorem divisions_append (h : IsCut s t) : divisions (s ++ t) = divisions s + divisions t := by
  rw [divisions, divisions, divisions, fractions_append h, List.count_append]
  omega

/-- Two characters of the layout around a text. -/
theorem divisions_wrapped {a b : Char} (ha : a ≠ '\\' ∧ a ≠ '/') (hb : divisions [b] = 0)
    (hlower : b.isLower = false) (t : Text) : divisions (a :: t ++ [b]) = divisions t := by
  have hfront : divisions (a :: t) = divisions t := by
    rw [divisions, fractions_cons_of_ne ha.1, List.count_cons_of_ne ha.2, divisions]
  rw [divisions_append (isCut_of_head (by simpa using hlower) _), hfront, hb, Nat.add_zero]

theorem divisions_braced (t : Text) : divisions (Markup.braced t) = divisions t :=
  divisions_wrapped (by decide) (by decide) (by decide) t

theorem divisions_parenthesised (t : Text) : divisions (Markup.parenthesised t) = divisions t :=
  divisions_wrapped (by decide) (by decide) (by decide) t

theorem divisions_of_isBlank {b : Text} (hb : ∀ c ∈ b, isBlank c = true) : divisions b = 0 := by
  have hslash : '/' ∉ b := fun h => absurd (hb '/' h) (by decide)
  rw [divisions, fractions_of_not_mem fun h => absurd (hb _ h) (by decide),
    List.count_eq_zero_of_not_mem hslash]

/-! ## Slashes and fractions are one -/

namespace Fraction

theorem IsSlash.divisions {g : Text} (h : IsSlash g) : divisions g = 1 := by
  obtain ⟨b, b', rfl, hb, hb'⟩ := h
  have hslash : IsCut ['/'] b' := isCut_of_last (by decide) b'
  rw [divisions_append (isCut_close (c := '/') rfl b b'), divisions_of_isBlank hb,
    ← List.singleton_append, divisions_append hslash, divisions_of_isBlank hb']
  decide

theorem divisions_frac (n d : Text) :
    divisions (Markup.frac n d) = 1 + divisions n + divisions d := by
  have hcommand : IsCut "\\frac".toList (Markup.braced n) := isCut_close (c := '\x7b') rfl _ _
  have hnum : IsCut ("\\frac".toList ++ Markup.braced n) (Markup.braced d) :=
    isCut_close (c := '\x7b') rfl _ _
  show divisions ("\\frac".toList ++ Markup.braced n ++ Markup.braced d) = _
  rw [divisions_append hnum, divisions_append hcommand, divisions_braced, divisions_braced]
  rfl

theorem divisions_divided {n g d : Text} (hg : IsSlash g) :
    divisions (n ++ g ++ d) = 1 + divisions n + divisions d := by
  rw [List.append_assoc, divisions_append (hg.isCut n d).1, divisions_append (hg.isCut n d).2,
    hg.divisions]
  omega

end Fraction

/-- Having as many divisions is a matter of what is written, not of how it is laid out. -/
theorem overlooksLayout_divisions : OverlooksLayout fun s s' => divisions s' = divisions s where
  refl _ := rfl
  symm := Eq.symm
  trans h h' := h'.trans h
  append hcut hcut' h h' := by rw [divisions_append hcut, divisions_append hcut', h, h']
  blank {c} h := (divisions_of_isBlank (b := [c]) (by simpa using h)).symm
  degrees := by decide
  braced := divisions_braced
  parenthesised := divisions_parenthesised
  times := by decide
  modulo := by decide
  frac hg hn hd := by
    rw [Fraction.divisions_frac, Fraction.divisions_divided hg, hn, hd]

/-! ## Constants and calls -/

namespace KnownConstant

theorem divisions_replaceEach (hs : '\\' ∉ s) : divisions (replaceEach s) = divisions s := by
  have hcongruence : Congruence fun s s' : Text => s'.count '/' = s.count '/' :=
    ⟨fun _ => rfl, fun h h' => by rw [List.count_append, List.count_append, h, h']⟩
  have hreplace : ∀ (k : KnownConstant) (s : Text), (k.replace s).count '/' = s.count '/' := by
    intro k s
    refine WordRule.replaceAll_rel hcongruence k.meets_call ?_ s
    rintro _ _ _ _ - - ⟨rfl, rfl⟩
    cases k <;> rfl
  have hcount : (replaceEach s).count '/' = s.count '/' := (hreplace e _).trans (hreplace pi s)
  rw [divisions, divisions, fractions_of_backslashIsPi (Sum.backslashIsPi_replaceEach hs), hcount,
    fractions_of_not_mem hs]

end KnownConstant

namespace KnownFunction

variable {f : KnownFunction} {p : Text × Text}

/-- No command is cut where an argument ends and what is written around it begins. -/
theorem isCut_frame (hp : p ∈ f.frames) (t u : Text) : IsCut p.1 t ∧ IsCut u p.2 := by
  have hframes : ∀ p ∈ f.frames, (∀ c ∈ p.1.getLast?, c ≠ '\\' ∧ c.isLower = false) ∧
      ∀ c ∈ p.2.head?, c.isLower = false := by
    cases f <;> decide +kernel
  exact ⟨isCut_of_last (hframes p hp).1 t, isCut_of_head (hframes p hp).2 u⟩

/-- What is written for a call begins with the letters with which its name begins, or with none. -/
theorem exists_letters_frame (hp : p ∈ f.frames) :
    ∃ n x l, p.1 = n ++ x :: l ∧ x.isLower = false ∧ n <+: f.name := by
  have hframes : ∀ p ∈ f.frames, ∃ n ∈ [[], ['e'], f.name], ∃ x ∈ (p.1.drop n.length).head?,
      n <+: p.1 ∧ x.isLower = false ∧ n <+: f.name := by
    cases f <;> decide +kernel
  obtain ⟨n, -, x, hx, ⟨m, hm⟩, hlower, hprefix⟩ := hframes p hp
  rw [← hm, List.drop_left] at hx
  obtain ⟨l, rfl⟩ := List.head?_eq_some_iff.1 hx
  exact ⟨n, x, l, hm.symm, hlower, hprefix⟩

theorem divisions_typeset (f : KnownFunction) (t : Text) :
    divisions (f.typeset t) = divisions (f.name ++ Markup.parenthesised t) := by
  -- Neither the name of a function nor what is written for it holds a division.
  have hframes : ∀ p ∈ f.frames,
      divisions f.name = 0 ∧ divisions p.1 = 0 ∧ divisions p.2 = 0 := by
    cases f <;> decide +kernel
  obtain ⟨p, hp, heq⟩ := f.exists_frame t
  obtain ⟨hname, hfront, hback⟩ := hframes p hp
  have hcut : IsCut f.name (Markup.parenthesised t) := isCut_close (c := '(') rfl _ _
  rw [heq, divisions_append (isCut_frame hp t _).2, divisions_append (isCut_frame hp t []).1,
    divisions_append hcut, divisions_parenthesised, hname, hfront, hback, Nat.add_zero]

/-- Where commands are set off, a call is typeset with the divisions of its argument. -/
theorem divisions_typesetCalls (hset : IsSetOff s) :
    divisions (f.typesetCalls s) = divisions s := by
  rw [f.typesetCalls_eq]
  refine overlooksLayout_divisions.of_traces
    ((WordRule.traces_replaceAll (Call.meets_closedCall f.name) s).mono ?_)
  rintro before w _ r ⟨hb, hsuffix, n, v, t, rfl, -, hn, ⟨rfl, rfl, -⟩, rfl⟩
  obtain ⟨p, hp, heq⟩ := f.exists_frame t
  have hcall : ∀ u, u.getLast? = before → ∀ r', IsCut u (f.name ++ '(' :: r') := by
    rintro u rfl r'
    exact isCut_call (r := t ++ ')' :: r) hset hb
      (by simpa [Markup.parenthesised] using hsuffix) hn r'
  refine ⟨⟨fun u hu => ?_, ?_, fun u hu r' => ?_, fun r' => ?_⟩, divisions_typeset f t⟩
  · simpa [Markup.parenthesised] using hcall u hu (t ++ ')' :: r)
  · exact isCut_of_getLast? (getLast?_write ⟨f.name, t⟩) (by decide) r
  · obtain ⟨n, x, l, hfront, hx, hprefix⟩ := exists_letters_frame hp
    have hwritten : f.typeset t ++ r' = n ++ x :: (l ++ t ++ p.2 ++ r') := by
      rw [heq, hfront]
      simp
    exact (hcall u hu []).of_letters hprefix hx hwritten
  · obtain ⟨x, hlast, hx⟩ := f.getLast?_typeset t
    have hplain : ∀ c ∈ [')', '\x7d', Markup.degree], c ≠ '\\' ∧ c.isLower = false := by decide
    exact isCut_of_getLast? hlast (hplain x hx) r'

theorem divisions_typesetEach (hset : IsSetOff s) :
    divisions (typesetEach s) = divisions s := by
  have hall : IsSetOff (typesetEach s) ∧ divisions (typesetEach s) = divisions s :=
    List.foldlRecOn (motive := fun t => IsSetOff t ∧ divisions t = divisions s) typesetOrder _
      ⟨hset, rfl⟩ fun t ht f _ =>
        ⟨ht.1.of_eases (settles_setOff.eases_typesetCalls f t),
          (divisions_typesetCalls ht.1).trans ht.2⟩
  exact hall.2

end KnownFunction

/-! ## The conversion -/

/-- Every slash of a line without backslashes becomes one fraction or stays a slash. -/
theorem Conversion.fractions_convert (style : CallStyle) {s : Text} (hs : '\\' ∉ s) :
    fractions (convert style s) + (convert style s).count '/' = s.count '/' := by
  have hline : divisions s = s.count '/' := by
    rw [divisions, fractions_of_not_mem hs, Nat.zero_add]
  show divisions (convert style s) = _
  rw [← hline]
  unfold convert
  split
  · next hblank =>
      exact (divisions_of_isBlank fun c hc => List.all_eq_true.1 hblank c hc).symm
  · have hsqueezed : '\\' ∉ squeeze s := fun h => (mem_squeeze h).elim (by decide) hs
    have hset : IsSetOff (Operator.prepare (KnownConstant.replaceEach (squeeze s))) :=
      (isSetOff_of_backslashIsPi (Sum.backslashIsPi_replaceEach hsqueezed)).of_eases
        (Operator.eases_prepare _)
    have hprepared :
        divisions (Operator.prepare (KnownConstant.replaceEach (squeeze s))) = divisions s := by
      rw [overlooksLayout_divisions.prepare, KnownConstant.divisions_replaceEach hsqueezed,
        overlooksLayout_divisions.squeeze]
    have hdivided := overlooksLayout_divisions.rewrite style hset
    cases style with
    | asTyped =>
        calc divisions (Operator.finish (Fraction.rewrite .asTyped _))
            = divisions (Fraction.rewrite .asTyped _) := overlooksLayout_divisions.finish _
          _ = divisions s := hdivided.trans hprepared
    | typeset =>
        have hset' := hset.of_eases (Fraction.eases_rewrite .typeset _)
        calc divisions (Operator.finish (KnownFunction.typesetEach (Fraction.rewrite .typeset _)))
            = divisions (KnownFunction.typesetEach (Fraction.rewrite .typeset _)) :=
              overlooksLayout_divisions.finish _
          _ = divisions (Fraction.rewrite .typeset _) := KnownFunction.divisions_typesetEach hset'
          _ = divisions s := hdivided.trans hprepared

/-- Divisions in a call, of calls and of groups, and a slash that divides nothing. -/
theorem Conversion.fractions_convert_quotient_of_calls :
    '\\' ∉ "sin(a/b) / ln(2) + ((x)/(y))/".toList ∧
      fractions (convert .typeset "sin(a/b) / ln(2) + ((x)/(y))/".toList) +
        (convert .typeset "sin(a/b) / ln(2) + ((x)/(y))/".toList).count '/' = 4 := by
  have hs : '\\' ∉ "sin(a/b) / ln(2) + ((x)/(y))/".toList := by decide
  exact ⟨hs, fractions_convert .typeset hs⟩

end CalcTypeset
