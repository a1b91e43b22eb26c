import CalcTypeset.Proofs.Nesting.Site

/-!
# Tame lines stay well nested

Whether a line is tame is judged when its constants are symbols, since the parentheses behind the
name of a constant are no group. From there to the typesetting of calls every pass eases the gauges
of a tame line and, since the line is tame, the stack of its brackets too. A call is typeset with
both of its parentheses, whatever stands between them. So the LaTeX line of a well nested, tame line
is well nested, in both styles.
-/

namespace CalcTypeset

open Text CalcTypeset.Bracket

namespace Nesting

variable {s t w : Text}

theorem eased_of_eases (hnest : nest.Eases s t) (htame : tame.Eases s t) : Eased s t :=
  fun _ => ⟨hnest, htame⟩

theorem isNeutral_times : ∀ k : Kind, k.IsNeutral Markup.times := by
  intro k
  cases k <;> decide

theorem nest_eases_squeeze (s : Text) : nest.Eases s (squeeze s) :=
  Gauge.eases_of_filter_eq (fun st c hc => nest_neutral
    (fun k => isNeutral_of_isBlank (b := [c]) (by simpa using hc) c (by simp)) st)
    (filter_squeeze s)

theorem nest_eases_constants (s : Text) : nest.Eases s (KnownConstant.replaceEach s) := by
  have hone : ∀ (c : KnownConstant) (s : Text), nest.Eases s (c.replace s) := by
    intro c s
    refine WordRule.replaceAll_rel (Gauge.congruence_eases nest) c.meets_call ?_ s
    rintro w v _ r - - ⟨rfl, rfl⟩
    rw [nest_eases_iff]
    rintro st st' h
    rw [← h]
    cases c <;> rfl
  exact (hone .pi s).trans (hone .e _)

end Nesting

namespace Operator

open Nesting

theorem isExponent_of_power : power.Meets fun w e _ => w = '^' :: e ∧ IsExponent e := by
  refine ((Recogniser.meets_single '^').bind fun _ => ((Recogniser.meets_single '-').bind fun _ =>
      (Recogniser.meets_run isExponentChar).map fun w => '-' :: w).orElse
    (Recogniser.meets_run isExponentChar)).mono ?_
  rintro w e r
    ⟨_, _, _, rfl, rfl, ⟨_, _, _, rfl, rfl, v, ⟨rfl, hne, hv, -⟩, rfl⟩ | ⟨rfl, hne, hv, -⟩⟩
  · exact ⟨rfl, _, hne, hv, .inr rfl⟩
  · exact ⟨rfl, _, hne, hv, .inl rfl⟩

theorem eased_bracePowers (s : Text) : Eased s (bracePowers s) := by
  refine Recogniser.replaceAll_rel congruence_eased isExponent_of_power ?_ s
  rintro w e r ⟨rfl, he⟩
  exact eased_of_eases ((Gauge.Eases.refl ['^']).append
    (eases_braced (isBalanced_of_isNeutral (isNeutral_of_isExponent he)))) (tame_tolerates.power he)

theorem nest_eases_infixSign {sign : Char} {t : Text} (hsign : ∀ k : Kind, k.IsNeutral [sign])
    (ht : ∀ k : Kind, k.IsNeutral t) {w : Text}
    (hw : ∃ b b', w = b ++ sign :: b' ∧ (∀ c ∈ b, isBlank c = true) ∧ ∀ c ∈ b', isBlank c = true) :
    nest.Eases w t := by
  obtain ⟨b, b', rfl, hb, hb'⟩ := hw
  exact nest_eases_of_isNeutral (fun k => (isNeutral_of_isBlank hb).append
    ((hsign k).append (isNeutral_of_isBlank hb'))) ht

theorem eased_writeProducts (s : Text) : Eased s (writeProducts s) := by
  refine Recogniser.replaceAll_rel congruence_eased (meets_infixSign '*') ?_ s
  intro w _ r hw
  refine eased_of_eases
    (nest_eases_infixSign (fun k => by cases k <;> decide) isNeutral_times hw) ?_
  obtain ⟨b, b', rfl, hb, hb'⟩ := hw
  have := (tame_eases_blanks hb).append (tame_tolerates.product.append (tame_eases_blanks hb'))
  rwa [List.nil_append, List.append_nil] at this

theorem eased_prepare (s : Text) : Eased s (prepare s) :=
  (eased_bracePowers s).trans (eased_writeProducts _)

/-- What is written at the end is well nested whether the line is tame or not. -/
theorem nest_eases_finish (s : Text) : nest.Eases s (finish s) := by
  have hremainders : ∀ s, nest.Eases s (writeRemainders s) := fun s =>
    Recogniser.replaceAll_rel (Gauge.congruence_eases nest) (meets_infixSign '%')
      (fun w _ r hw => nest_eases_infixSign (fun k => by cases k <;> decide)
        (fun k => by cases k <;> decide) hw) s
  have hdegrees : ∀ s, nest.Eases s (mergeDegrees s) := by
    refine fun s => Recogniser.replaceAll_rel (Gauge.congruence_eases nest)
      ((Recogniser.meets_run fun c => c = Markup.degree).filter _) ?_ s
    rintro w _ r ⟨⟨rfl, -, hw, -⟩, -⟩
    refine nest_eases_of_isNeutral (fun k c hc => ?_) (fun k => by cases k <;> decide)
    rw [of_decide_eq_true (hw c hc)]
    cases k <;> decide
  exact ((hremainders s).trans (hdegrees _)).trans (nest_eases_squeeze _)

end Operator

namespace Fraction

open Nesting

variable {s : Text}

theorem eased_rewriteSites {kinds : List (Recogniser Quotient)}
    (h : ∀ p ∈ kinds, p.Meets fun w q _ => Eased w q.write) (s : Text) :
    Eased s (rewriteSites kinds s) := by
  induction kinds generalizing s with
  | nil => exact .refl s
  | cons p kinds ih =>
      have hp := Recogniser.replaceAll_rel congruence_eased (h p (by simp)) (fun _ _ _ hw => hw) s
      exact hp.trans (ih (fun p hp => h p (by simp [hp])) _)

theorem eased_rewriteArgument (style : CallStyle) (s : Text) :
    Eased s (rewriteArgument style s) := by
  have hstar : ∀ k : Kind, k.IsNeutral ['*'] ∧ k.IsNeutral Markup.timesSign := fun k => by
    cases k <;> decide
  have hstars : ∀ s, Eased s (starProducts s) := fun s =>
    Recogniser.replaceAll_rel congruence_eased (Recogniser.meets_literal _ _) (fun w _ r hw =>
      hw ▸ eased_of_eases (nest_eases_of_isNeutral (fun k => (hstar k).2) fun k => (hstar k).1)
        tame_tolerates.star) s
  have hunstars : ∀ s, Eased s (unstarProducts s) := fun s =>
    Recogniser.replaceAll_rel congruence_eased (Recogniser.meets_single '*') (fun w _ r hw =>
      hw ▸ eased_of_eases (nest_eases_of_isNeutral (fun k => (hstar k).1) isNeutral_times)
        tame_tolerates.product) s
  exact ((hstars s).trans (eased_rewriteSites (eased_argumentSites style) _)).trans (hunstars _)

theorem eased_rewriteArguments (style : CallStyle) (s : Text) :
    Eased s (rewriteArguments style s) := by
  refine WordRule.replaceAll_rel congruence_eased meets_slashedCall ?_ s
  rintro w v c r - - ⟨hw, -, -⟩
  rw [hw]
  exact (Eased.refl c.name).append (((Eased.refl ['(']).append
    (eased_rewriteArgument style c.content)).append (.refl [')']))

theorem eased_callSite (w : Text) :
    (callSite w).Meets fun v c _ => (∀ y ∈ w, isWordChar y = true) → Eased (w ++ v) c.write := by
  refine ((Bracket.meets_group.bind fun t => (meets_spacedSlash.bind fun _ =>
      neutral_term).map fun d => CallSite.mk ⟨w, t⟩ (some d)).orElse
    (Bracket.meets_group.map fun t => CallSite.mk ⟨w, t⟩ none)).mono ?_
  rintro v _ r
    (⟨_, t, _, rfl, ⟨rfl, ht⟩, _, ⟨g, _, _, rfl, hg, rfl, hd⟩, rfl⟩ | ⟨t, ⟨rfl, -⟩, rfl⟩) hw
  · rw [← List.append_assoc, ← List.append_assoc]
    exact eased_frac (.whole (balanced_call hw ht)) hg (.whole (isBalanced_of_isNeutral hd))
  · exact .refl _

theorem eased_rewriteCallDividends (s : Text) : Eased s (rewriteCallDividends s) :=
  WordRule.replaceAll_rel congruence_eased eased_callSite (fun _ _ _ _ _ hword h => h hword) s

theorem eased_rewrite (style : CallStyle) (s : Text) : Eased s (rewrite style s) :=
  (((eased_rewriteArguments style s).trans (eased_rewriteCallDividends _)).trans
    (eased_rewriteSites (eased_groupSites style) _)).trans (eased_rewriteSites eased_basicSites _)

end Fraction

/-! ## Calls

A call is replaced with its parentheses, so nothing but the stack of brackets matters from here on,
and the line need not be tame any more. -/

namespace KnownFunction

open Nesting

theorem nest_eases_name_latex (f : KnownFunction) : nest.Eases f.name f.latex := by
  rw [nest_eases_iff]
  intro st st' h
  rw [← h]
  cases f <;> rfl

theorem nest_eases_degree (t : Text) : nest.Eases t (t ++ [Markup.degree]) := by
  have hdegree : nest.Eases [] [Markup.degree] :=
    nest_eases_of_isNeutral (fun _ _ hc => nomatch hc) fun k => by cases k <;> decide
  have := (Gauge.Eases.refl t).append hdegree
  rwa [List.append_nil] at this

theorem nest_eases_markedOnce (t : Text) : nest.Eases t (markedOnce t) := by
  unfold markedOnce
  split
  · exact .refl t
  · exact nest_eases_degree t

theorem nest_eases_delimited (f : KnownFunction) (t : Text) :
    nest.Eases (Markup.parenthesised t) (f.delimited t) := by
  have hleft : nest.Eases ['('] "\\left(".toList := nest_eases_iff.2 fun _ _ h => h
  have hright : nest.Eases [')'] "\\right)".toList := nest_eases_iff.2 fun _ _ h => h
  unfold delimited
  split
  · exact (hleft.append (.refl t)).append hright
  · exact .refl _

/-- A call stays well nested when it is typeset: where its parentheses become braces, what stands
between them is well nested itself. -/
theorem nest_eases_typeset (f : KnownFunction) {t : Text} (ht : IsBalanced '(' ')' t) :
    nest.Eases (f.name ++ Markup.parenthesised t) (f.typeset t) := by
  cases f with
  | sin | cos | tan =>
      exact (nest_eases_name_latex _).append (eases_parenthesised (nest_eases_markedOnce t))
  | asin | acos | atan =>
      exact ((nest_eases_name_latex _).append (nest_eases_delimited _ t)).trans
        (nest_eases_degree _)
  | log | ln => exact (nest_eases_name_latex _).append (nest_eases_delimited _ t)
  | sqrt => exact (nest_eases_name_latex _).append (eases_content ht)
  | exp =>
      exact (nest_eases_of_isNeutral (fun k => by cases k <;> decide)
        fun k => by cases k <;> decide).append (eases_content ht)
  | dtor => exact (nest_eases_name_latex _).append (eases_parenthesised (nest_eases_degree t))
  | rtod => exact ((nest_eases_name_latex _).append (.refl _)).trans (nest_eases_degree _)

theorem nest_eases_typesetCalls (f : KnownFunction) (s : Text) :
    nest.Eases s (f.typesetCalls s) := by
  refine Call.replaceAfter_rel (Gauge.congruence_eases nest) (fun t ht => ?_) none s
  rw [List.append_assoc]
  exact nest_eases_typeset f ht

theorem nest_eases_typesetEach (s : Text) : nest.Eases s (typesetEach s) :=
  List.foldlRecOn typesetOrder _ (.refl s) fun t ht f _ => ht.trans (nest_eases_typesetCalls f t)

end KnownFunction

/-! ## The conversion -/

namespace Nesting

/-- A line in which, once its constants are symbols, no group is divided that stands in another one,
no group that divides holds another one, and no parenthesis stands in a reference. -/
def IsTame (s : Text) : Prop :=
  (tame.follow (.outer, .nothing, .plain, false)
    (KnownConstant.replaceEach (squeeze s))).isSome = true

instance (s : Text) : Decidable (IsTame s) := inferInstanceAs (Decidable (_ = true))

/-- The LaTeX line of a tame line leaves the brackets open that the line does. -/
theorem nest_eases_convert {s : Text} (h : IsTame s) (style : CallStyle) :
    nest.Eases s (Conversion.convert style s) := by
  have hconstants : nest.Eases s (KnownConstant.replaceEach (squeeze s)) :=
    (nest_eases_squeeze s).trans (nest_eases_constants _)
  have hrewritten : nest.Eases s
      (Fraction.rewrite style (Operator.prepare (KnownConstant.replaceEach (squeeze s)))) := by
    obtain ⟨r, hr⟩ := Option.isSome_iff_exists.1 h
    exact hconstants.trans
      (((Operator.eased_prepare _).trans (Fraction.eased_rewrite style _)) ⟨_, r, hr⟩).1
  unfold Conversion.convert
  split
  · next hblank =>
      exact nest_eases_of_isNeutral
        (fun k => isNeutral_of_isBlank fun c hc => List.all_eq_true.1 hblank c hc)
        fun _ _ hc => nomatch hc
  · cases style with
    | asTyped => exact hrewritten.trans (Operator.nest_eases_finish _)
    | typeset =>
        exact (hrewritten.trans (KnownFunction.nest_eases_typesetEach _)).trans
          (Operator.nest_eases_finish _)

/-- The LaTeX line of a tame line is well nested: no parentheses are closed across the boundary of
a brace group, and no braces across parentheses. -/
theorem isNested_convert {s : Text} (hs : IsBalanced '(' ')' s) (hopen : '{' ∉ s) (hclose : '}' ∉ s)
    (h : IsTame s) (style : CallStyle) : IsNested (Conversion.convert style s) := by
  refine (isNested_of_isBalanced hs fun c hc => ⟨?_, ?_⟩).of_eases (nest_eases_convert h style)
  · rintro rfl
    exact hopen hc
  · rintro rfl
    exact hclose hc

/-- Calls and a divided constant in a call that is divided, a group over a group, and a call in a
divisor. -/
theorem isNested_convert_calls :
    IsTame "log(sqrt(a*b/2) + sin(pi()/2)^2) / 3 - (x+1)/(y-2)*exp(-t/acos(u))".toList ∧
      IsNested (Conversion.convert .typeset
        "log(sqrt(a*b/2) + sin(pi()/2)^2) / 3 - (x+1)/(y-2)*exp(-t/acos(u))".toList) := by
  have htame : IsTame
      "log(sqrt(a*b/2) + sin(pi()/2)^2) / 3 - (x+1)/(y-2)*exp(-t/acos(u))".toList := by decide +kernel
  exact ⟨htame, isNested_convert (by decide) (by decide) (by decide) htame .typeset⟩

/-- A divided group that stands in another one: the fraction begins at the outer parenthesis. -/
theorem not_isNested_convert :
    IsBalanced '(' ')' "(1+(2)/3)".toList ∧ '{' ∉ "(1+(2)/3)".toList ∧ '}' ∉ "(1+(2)/3)".toList ∧
      '\\' ∉ "(1+(2)/3)".toList ∧
      ¬ IsNested (Conversion.convert .asTyped "(1+(2)/3)".toList) ∧
      ¬ IsNested (Conversion.convert .typeset "(1+(2)/3)".toList) := by
  decide +kernel

end Nesting

end CalcTypeset
