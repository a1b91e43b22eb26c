import CalcTypeset.Proofs.Argument.Leftover
import CalcTypeset.Proofs.Reference.Scan

/-!
# The argument of a call

In the argument of a call products go back to asterisks, are divided, and become multiplication
signs again, which leaves one blank more behind each sign. When gaps are squeezed at the end, a sum
of products and quotients has become in the argument what it becomes as a line.

What an argument does not have is the look ahead for the end of a term. Divisors are followed by
nothing else of their product here, and neither way of dividing knows more than the other. But the
passes over a line see the call as well: a slash that is left in the argument stays only when they
leave it too.
-/

namespace CalcTypeset.Argument

open Text Chain Fraction CalcTypeset.Sum

variable {s v σ σ' : Text} {c : Char}

/-! ## Passes over single characters -/

/-- The characters that these passes keep besides the plain ones. -/
def keptChars : Text := "()/\\\x7b\x7d".toList

/-- The asterisk between the factors of an argument. -/
def star : Text := ['*', ' ']

/-- A multiplication sign that was an asterisk. -/
def unstarred : Text := Markup.times ++ [' ']

theorem kept_ne {x : Char} (hx : isPlainChar x = false ∧ x ∉ keptChars)
    (hc : isPlainChar c = true ∨ c ∈ keptChars) : c ≠ x := by
  rintro rfl
  rcases hc with hc | hc
  · rw [hx.1] at hc
    cases hc
  · exact hx.2 hc

theorem isBlank_of_kept (hc : isPlainChar c = true ∨ c ∈ keptChars) : isBlank c = false := by
  have hkept : ∀ c ∈ keptChars, isBlank c = false := by decide
  exact hc.elim isBlank_of_isPlainChar (hkept c)

theorem Begins.kept (h : Begins s) :
    ∃ c r, s = c :: r ∧ (isPlainChar c = true ∨ c ∈ keptChars) := by
  obtain ⟨c, r, rfl, hc | rfl⟩ := h
  · exact ⟨c, r, rfl, .inl hc⟩
  · exact ⟨'\\', r, rfl, .inr (by decide)⟩

theorem isBlank_sign (g : Sign) : isBlank g.1 = false := by
  obtain ⟨g, rfl | rfl⟩ := g <;> decide

theorem turns_squeeze (hfactor : ∀ {s}, IsSolidHead s →
      squeezeAfter false (σ ++ s) = σ' ++ squeezeAfter false s) :
    Turns (squeezeAfter false) keptChars σ σ' where
  keep {c} hc s := by simp [squeezeAfter, isBlank_of_kept hc]
  factor := hfactor
  sign g s hs := by
    obtain ⟨c, r, rfl, hc⟩ := hs.kept
    have hspace : isBlank ' ' = true := by decide
    simp [squeezeAfter, isBlank_of_kept hc, isBlank_sign, hspace]

theorem squeezeAfter_times {b : Text} (hb : ∀ c ∈ b, isBlank c = true) (hs : IsSolidHead s) :
    squeezeAfter false (Markup.times ++ b ++ s) = Markup.times ++ squeezeAfter false s := by
  have hsign : ∀ c ∈ Markup.timesSign, isBlank c = false := by decide
  obtain ⟨c, r, rfl, hc, -⟩ := hs
  rw [Markup.times, List.append_assoc, List.append_assoc, squeezeAfter_append_of_no_blank hsign,
    List.append_assoc, List.singleton_append, List.singleton_append,
    ← squeezeAfter_true_append_cons hb hc]
  rfl

theorem turns_writeProducts : Turns Operator.writeProducts keptChars ['*'] Markup.times where
  keep hc s := Recogniser.replaceAll_of_none _ _
    (Operator.infixSign_read?_eq_none (isBlank_of_kept hc) (kept_ne (by decide) hc) s)
  factor hs := writeProducts_star hs
  sign g s hs := by
    obtain ⟨c, r, rfl, hc⟩ := hs.kept
    have hstar : g.1 ≠ '*' := by obtain ⟨g, rfl | rfl⟩ := g <;> decide
    have hnone : ∀ {c s}, isBlank c = false → c ≠ '*' →
        (Operator.infixSign '*').read? (' ' :: c :: s) = none := fun hb hc =>
      (Operator.infixSign_read?_cons_of_isBlank (by decide) _).trans
        (Operator.infixSign_read?_eq_none hb hc _)
    rw [tail, Operator.writeProducts,
      Recogniser.replaceAll_of_none _ _ (hnone (isBlank_sign g) hstar),
      Recogniser.replaceAll_of_none _ _
        (Operator.infixSign_read?_eq_none (isBlank_sign g) hstar _),
      Recogniser.replaceAll_of_none _ _ (hnone (isBlank_of_kept hc) (kept_ne (by decide) hc))]

/-- Replacing a literal that begins with neither a blank nor a sign nor a kept character. -/
theorem turns_literal {lit t K : Text} {hne : lit ≠ []} {x : Char} (hx : lit.head? = some x)
    (hplain : isPlainChar x = false) (hK : x ∉ K) (hsign : x ∉ [' ', '+', '-']) :
    Turns ((Recogniser.literal lit hne).replaceAll fun _ => t) K (lit ++ [' ']) (t ++ [' ']) := by
  have hpass : ∀ {c : Char}, c ≠ x → ∀ s, (Recogniser.literal lit hne).replaceAll
      (fun _ => t) (c :: s) = c :: (Recogniser.literal lit hne).replaceAll (fun _ => t) s :=
    fun hc s => Recogniser.replaceAll_of_none _ _
      (Recogniser.read?_literal_eq_none (by rw [hx]; simpa using hc.symm) s)
  have hblank : ' ' ≠ x := fun h => hsign (by simp [← h])
  refine ⟨fun {c} hc s => hpass ?_ s, fun {s} _ => ?_, fun g s _ => ?_⟩
  · rintro rfl
    rcases hc with hc | hc
    · rw [hplain] at hc
      cases hc
    · exact hK hc
  · have hread : (Recogniser.literal lit hne).read? (lit ++ [' '] ++ s) = some ((), ' ' :: s) :=
      Recogniser.read?_literal_eq_some_iff.2 (List.append_assoc ..)
    rw [Recogniser.replaceAll_of_read _ _ hread, hpass hblank, List.append_assoc]
    rfl
  · have hg : g.1 ≠ x := fun h => hsign (by obtain ⟨g, rfl | rfl⟩ := g <;> simp [← h])
    rw [tail, hpass hblank, hpass hg, hpass hblank]

theorem turns_starProducts : Turns starProducts ['/'] Markup.times star :=
  turns_literal (x := '\\') rfl (by decide) (by decide) (by decide)

theorem turns_unstarProducts : Turns unstarProducts keptChars star unstarred :=
  turns_literal (x := '*') rfl (by decide) (by decide) (by decide)

/-! ## The two ways to divide a sum -/

variable (e : Summand) (es : List (Sign × Summand))

/-- The sum as a line. -/
theorem divideTerms_divideProducts :
    divideTerms (divideProducts (sum (Summand.slashed Markup.times) e es)) =
      sum (Summand.divided Markup.times) e es := by
  have hproducts : Distributes divideProducts (Summand.slashed Markup.times)
      (Summand.halfway Markup.times) [] :=
    distributes_overTerm hasSign_lineProduct
      (fun g => by obtain ⟨g, rfl | rfl⟩ := g <;> decide)
      fun t => ⟨.later, by decide, takes_lineProduct t.toFactor⟩
  have hterms : Distributes divideTerms (Summand.halfway Markup.times)
      (Summand.divided Markup.times) [] := by
    refine distributes_divideBy (show '/' ∉ Markup.timesSign by decide) meets_endedTerm
      fun t v hv => ?_
    cases hv with
    | slash s => exact endedTerm?_slash t.isRun t.ne_nil s
    | tail hv =>
        cases hv with
        | last =>
            rw [List.append_nil]
            exact endedTerm?_end t.isRun t.ne_nil
        | sign g e r => exact endedTerm?_append t.isRun t.ne_nil rfl (endsTerm_tail g.2)
  rw [hproducts.sum_eq (Recogniser.replaceAll_nil _ _),
    hterms.sum_eq (Recogniser.replaceAll_nil _ _)]

/-- The sum as an argument. -/
theorem rewriteArgument_sum :
    rewriteArgument .asTyped (sum (Summand.slashed Markup.times) e es) =
      sum (Summand.divided unstarred) e es := by
  have hproducts : Distributes (argumentProduct.overTerm.replaceAll Quotient.write)
      (Summand.slashed star) (Summand.halfway star) [] :=
    distributes_overTerm hasSign_argumentProduct
      (fun g => by obtain ⟨g, rfl | rfl⟩ := g <;> decide) exists_takes_argumentProduct
  have hterms : Distributes (divideBy term) (Summand.halfway star) (Summand.divided star) [] :=
    distributes_divideBy (show '/' ∉ ['*'] by decide) meets_term fun t v hv =>
      run?_term t.isRun t.ne_nil hv.isTermChar
  have hstar := turns_starProducts.distributes (turns_starProducts.slashed (by decide))
    (begins_slashed _) []
  have hunstar := turns_unstarProducts.distributes (turns_unstarProducts.divided (by decide))
    (begins_divided _) []
  have hround : '(' ∉ sum (Summand.slashed star) e es :=
    (hasSumChars_sum (hasSumChars_slashed (by unfold HasSumChars; decide)) e es).not_mem (by decide)
  rw [rewriteArgument, hstar.sum_eq (Recogniser.replaceAll_nil _ _),
    rewriteSites_argumentSites_of_not_mem hround,
    hproducts.sum_eq (Recogniser.replaceAll_nil _ _)]
  show unstarProducts (divideBy term (sum (Summand.halfway star) e es)) = _
  rw [hterms.sum_eq (Recogniser.replaceAll_nil _ _),
    hunstar.sum_eq (Recogniser.replaceAll_nil _ _)]

/-! ## Converting -/

theorem hasSumChars_times : HasSumChars Markup.times := by unfold HasSumChars; decide

theorem hasSumChars_typed : HasSumChars (sum Summand.typed e es) :=
  hasSumChars_sum (hasSumChars_slashed (by unfold HasSumChars; decide)) e es

theorem hasSumChars_prepared : HasSumChars (sum (Summand.slashed Markup.times) e es) :=
  hasSumChars_sum (hasSumChars_slashed hasSumChars_times) e es

theorem begins_sum {w : Summand → Text} (hw : ∀ e, Begins (w e)) : Begins (sum w e es) := by
  obtain ⟨r, hr⟩ := exists_sum_eq w e es
  rw [hr]
  exact (hw e).append r

theorem turns_squeeze_typed : Turns (squeezeAfter false) keptChars ['*'] ['*'] :=
  turns_squeeze fun {s} _ => by
    have hstar : isBlank '*' = false := by decide
    simp [squeezeAfter, hstar]

theorem turns_squeeze_times {b : Text} (hb : ∀ c ∈ b, isBlank c = true) :
    Turns (squeezeAfter false) keptChars (Markup.times ++ b) Markup.times :=
  turns_squeeze fun hs => squeezeAfter_times hb hs

theorem squeeze_divided {b : Text} (hb : ∀ c ∈ b, isBlank c = true) :
    squeeze (sum (Summand.divided (Markup.times ++ b)) e es) =
      sum (Summand.divided Markup.times) e es := by
  rw [squeeze, (begins_sum e es (begins_divided _)).isSolidHead.skipBlanks]
  exact ((turns_squeeze_times hb).distributes ((turns_squeeze_times hb).divided (by decide))
    (begins_divided _) []).sum_eq rfl e es

/-- What becomes of a sum. -/
theorem convert_sum (style : CallStyle) :
    Conversion.convert style (sum Summand.typed e es) =
      sum (Summand.divided Markup.times) e es := by
  have hchars := hasSumChars_typed e es
  have hbegins := begins_sum e es (w := Summand.typed) (begins_slashed _)
  have hvisible : isAllBlank (sum Summand.typed e es) = false := by
    obtain ⟨c, r, hr, hc, -⟩ := hbegins.isSolidHead
    rw [hr, isAllBlank, List.all_cons, hc]
    rfl
  have hsqueeze : squeeze (sum Summand.typed e es) = sum Summand.typed e es := by
    rw [squeeze, hbegins.isSolidHead.skipBlanks]
    exact (turns_squeeze_typed.distributes (turns_squeeze_typed.slashed (by decide))
      (begins_slashed _) []).sum_eq rfl e es
  have hwrite : Operator.writeProducts (sum Summand.typed e es) =
      sum (Summand.slashed Markup.times) e es :=
    (turns_writeProducts.distributes (turns_writeProducts.slashed (by decide))
      (begins_slashed _) []).sum_eq (Recogniser.replaceAll_nil _ _) e es
  have hdivide := divideTerms_divideProducts e es
  rw [divideTerms, divideProducts] at hdivide
  have hfinal := squeeze_divided e es (b := []) (by simp)
  rw [List.append_nil] at hfinal
  rw [Conversion.convert_of_not_mem style hvisible (hchars.not_mem (by decide))
    (hchars.not_mem (by decide)) (hchars.not_mem (by decide)) (hchars.not_mem (by decide)),
    hsqueeze, hwrite, hdivide, hfinal]

/-! ## The sum in a call -/

/-- A name that a call may have. -/
structure Name where
  text : Text
  ne_nil : text ≠ []
  isName : ∀ c ∈ text, Variable.isNameChar c = true

/-- The call of the name. -/
def Name.call (f : Name) (t : Text) : Text := Call.write ⟨f.text, t⟩

theorem isPlainChar_of_isNameChar (h : Variable.isNameChar c = true) : isPlainChar c = true := by
  have hlist : ∀ x ∈ Markup.degree :: "\\\x7b\x7d*+-^%".toList, Variable.isNameChar x = false := by
    decide
  have hmarks : c ∉ Markup.degree :: "\\\x7b\x7d*+-^%".toList := fun hmem => by
    rw [hlist c hmem] at h
    cases h
  rw [List.mem_cons, not_or] at hmarks
  rw [isPlainChar, isTermChar_of_isNameChar h, List.contains_eq_mem, decide_eq_false hmarks.1,
    decide_eq_false hmarks.2]
  rfl

namespace Name

variable (f : Name)

theorem isPlain : IsPlain f.text := fun c hc => isPlainChar_of_isNameChar (f.isName c hc)

theorem isWord : ∀ c ∈ f.text, isWordChar c = true := fun c hc =>
  Reference.isWordChar_of_isNameChar (f.isName c hc)

theorem isSolidHead_call (t : Text) : IsSolidHead (f.call t) :=
  Factor.isSolidHead ⟨f.text, f.ne_nil, f.isPlain⟩ (Markup.parenthesised t)

theorem isAllBlank_call (t : Text) : isAllBlank (f.call t) = false := by
  obtain ⟨c, r, hr, hc, -⟩ := f.isSolidHead_call t
  rw [hr, isAllBlank, List.all_cons, hc]
  rfl

theorem not_mem_call {t : Text} {x : Char} (hplain : isPlainChar x = false)
    (hround : x ≠ '(' ∧ x ≠ ')') (ht : x ∉ t) : x ∉ f.call t := by
  have hname : x ∉ f.text := fun h => by
    rw [f.isPlain x h] at hplain
    cases hplain
  simp [call, Call.write, Markup.parenthesised, hname, ht, hround]

/-- The call of a constant has nothing between its parentheses. -/
theorem replaceEach_call {t : Text} (ht : '(' ∉ t) (hhead : ∃ c r, t = c :: r ∧ c ≠ ')') :
    KnownConstant.replaceEach (f.call t) = f.call t := by
  have hone : ∀ k : KnownConstant, k.replace (f.call t) = f.call t := by
    intro k
    refine WordRule.replaceAll_call
      (fun w => (k.meets_call w).mono fun v _ _ hv => by rw [hv.2]; simp) f.ne_nil f.isWord ht ?_
    show (k.call f.text).read? _ = none
    rw [KnownConstant.call]
    split
    · obtain ⟨c, r, rfl, hc⟩ := hhead
      simp [Recogniser.literal, Markup.parenthesised, after?, hc.symm]
    · rfl
  rw [KnownConstant.replaceEach, KnownConstant.all, List.foldl_cons, hone, List.foldl_cons, hone]
  rfl

theorem group_read?_parenthesised {t : Text} (hopen : '(' ∉ t) (hclose : ')' ∉ t) :
    Bracket.group.read? (Markup.parenthesised t) = some (t, []) := by
  have hneutral : Bracket.Kind.round.IsNeutral t := fun c hc =>
    ⟨ne_of_mem_of_not_mem hc hopen, ne_of_mem_of_not_mem hc hclose⟩
  have hbalanced : Bracket.IsBalanced '(' ')' t := Bracket.Kind.depthAfter_of_isNeutral hneutral 0
  exact Bracket.group?_eq_some_iff.2 ⟨rfl, hbalanced⟩

theorem run?_call (t : Text) :
    run? isWordChar (f.call t) = some (f.text, Markup.parenthesised t) :=
  run?_append f.ne_nil f.isWord fun x hx => by
    obtain rfl : '(' = x := Option.some.inj hx
    exact isWordChar_opening

/-- The argument of a call is rewritten when it holds a slash. -/
theorem rewriteArguments_call (style : CallStyle) {t : Text} (hopen : '(' ∉ t) (hclose : ')' ∉ t) :
    rewriteArguments style (f.call t) =
      f.call (if '/' ∈ t then rewriteArgument style t else t) := by
  have hgroup := group_read?_parenthesised hopen hclose
  have hread : (slashedCall f.text).read? (Markup.parenthesised t) =
      if '/' ∈ t then some (⟨f.text, t⟩, []) else none := by
    rw [slashedCall, Recogniser.read?_map, Recogniser.read?_filter, hgroup]
    by_cases h : '/' ∈ t <;> simp [Option.filter, h]
  by_cases h : '/' ∈ t
  · rw [if_pos h] at hread ⊢
    rw [rewriteArguments, WordRule.replaceAll_of_read (f.run?_call t) hread,
      WordRule.replaceAll_nil, List.append_nil]
    rfl
  · rw [if_neg h] at hread ⊢
    refine WordRule.replaceAll_call (fun w => (meets_slashedCall w).mono ?_) f.ne_nil f.isWord hopen
      hread
    rintro v c r ⟨hv, rfl, -⟩
    obtain rfl := List.append_cancel_left hv
    simp [Markup.parenthesised]

/-- A call that nothing follows is no dividend. -/
theorem rewriteCallDividends_call {t : Text} (hopen : '(' ∉ t) (hclose : ')' ∉ t) :
    rewriteCallDividends (f.call t) = f.call t := by
  have hgroup := group_read?_parenthesised hopen hclose
  have hread : (callSite f.text).read? (Markup.parenthesised t) =
      some (⟨⟨f.text, t⟩, none⟩, []) := by
    rw [callSite, Recogniser.read?_orElse, Recogniser.read?_bind, hgroup, Recogniser.read?_map,
      hgroup]
    rfl
  rw [rewriteCallDividends, WordRule.replaceAll_of_read (f.run?_call t) hread,
    WordRule.replaceAll_nil, List.append_nil]
  rfl

end Name

variable (f : Name)

/-- Whether or not there is something to divide, the argument is written as fractions with one blank
or two behind each multiplication sign. -/
theorem exists_argument : ∃ b : Text, (∀ c ∈ b, c = ' ') ∧
    (if '/' ∈ sum (Summand.slashed Markup.times) e es then
        rewriteArgument .asTyped (sum (Summand.slashed Markup.times) e es)
      else sum (Summand.slashed Markup.times) e es) =
        sum (Summand.divided (Markup.times ++ b)) e es := by
  by_cases h : '/' ∈ sum (Summand.slashed Markup.times) e es
  · rw [if_pos h]
    exact ⟨[' '], by decide, rewriteArgument_sum e es⟩
  · have hdivide := divideTerms_divideProducts e es
    rw [divideProducts_eq_self h, divideTerms_eq_self h] at hdivide
    rw [if_neg h]
    exact ⟨[], by simp, by rw [List.append_nil]; exact hdivide⟩

/-- Up to the fractions a call is prepared like the sum in it. -/
theorem prepare_call :
    Operator.prepare (KnownConstant.replaceEach (squeeze (f.call (sum Summand.typed e es)))) =
      f.call (sum (Summand.slashed Markup.times) e es) := by
  have htyped := hasSumChars_typed e es
  have hsqueeze : squeeze (f.call (sum Summand.typed e es)) = f.call (sum Summand.typed e es) := by
    rw [squeeze, (f.isSolidHead_call _).skipBlanks]
    exact turns_squeeze_typed.call (by decide) rfl (turns_squeeze_typed.slashed (by decide))
      (begins_slashed _) f.isPlain e es
  have hhead : ∃ c r, sum Summand.typed e es = c :: r ∧ c ≠ ')' := by
    obtain ⟨c, r, hr, hc | rfl⟩ := begins_sum e es (begins_slashed ['*'])
    · exact ⟨c, r, hr, ne_of_isPlainChar hc (by decide)⟩
    · exact ⟨'\\', r, hr, by decide⟩
  have hcaret := f.not_mem_call (by decide) (by decide)
    (htyped.not_mem (show isSumChar '^' = false by decide))
  rw [hsqueeze, f.replaceEach_call (htyped.not_mem (by decide)) hhead, Operator.prepare,
    Operator.bracePowers_eq_self hcaret]
  exact turns_writeProducts.call (by decide) (Recogniser.replaceAll_nil _ _)
    (turns_writeProducts.slashed (by decide)) (begins_slashed _) f.isPlain e es

theorem finish_call {b : Text} (hb : ∀ c ∈ b, c = ' ') :
    Operator.finish (f.call (sum (Summand.divided (Markup.times ++ b)) e es)) =
      f.call (sum (Summand.divided Markup.times) e es) := by
  have hblank : ∀ c ∈ b, isBlank c = true := fun c hc => by rw [hb c hc]; decide
  have hchars : HasSumChars (sum (Summand.divided (Markup.times ++ b)) e es) :=
    hasSumChars_sum (hasSumChars_divided
      (hasSumChars_times.append fun c hc => by rw [hb c hc]; decide)) e es
  rw [Operator.finish, Operator.writeRemainders_eq_self
      (f.not_mem_call (by decide) (by decide) (hchars.not_mem (by decide))),
    Operator.mergeDegrees_eq_self
      (f.not_mem_call (by decide) (by decide) (hchars.not_mem (by decide))),
    squeeze, (f.isSolidHead_call _).skipBlanks]
  exact (turns_squeeze_times hblank).call (by decide) rfl
    ((turns_squeeze_times hblank).divided (by decide)) (begins_divided _) f.isPlain e es

/-- A sum of products that are divided one divisor after the other is typeset in a call as it is
typeset outside, when it keeps no slash or keeps one in its last summand, a single term. -/
theorem convert_call (h : IsSettled e es) :
    Conversion.convert .asTyped (f.call (sum Summand.typed e es)) =
      f.call (Conversion.convert .asTyped (sum Summand.typed e es)) := by
  have hprepared := hasSumChars_prepared e es
  obtain ⟨b, hb, hargument⟩ := exists_argument e es
  have hchars : HasSumChars (Markup.times ++ b) :=
    hasSumChars_times.append fun c hc => by rw [hb c hc]; decide
  have hslash : '/' ∉ Markup.times ++ b := by
    rw [List.mem_append, not_or]
    exact ⟨by decide, fun h => absurd (hb _ h) (by decide)⟩
  have harguments : rewriteArguments .asTyped (f.call (sum (Summand.slashed Markup.times) e es)) =
      f.call (sum (Summand.divided (Markup.times ++ b)) e es) := by
    rw [f.rewriteArguments_call _ (hprepared.not_mem (by decide)) (hprepared.not_mem (by decide)),
      hargument]
  have hdivided := hasSumChars_sum (hasSumChars_divided hchars) e es
  have hsites : ∀ {kinds : List (Recogniser Quotient)}, (∀ p ∈ kinds, p.Meets IsLineSite) →
      rewriteSites kinds (f.call (sum (Summand.divided (Markup.times ++ b)) e es)) =
        f.call (sum (Summand.divided (Markup.times ++ b)) e es) := fun hkinds =>
    rewriteSites_call hkinds hchars hslash f.isPlain h
  have hrewrite : rewrite .asTyped (f.call (sum (Summand.slashed Markup.times) e es)) =
      f.call (sum (Summand.divided (Markup.times ++ b)) e es) := by
    rw [rewrite, harguments, f.rewriteCallDividends_call (hdivided.not_mem (by decide))
      (hdivided.not_mem (by decide)), hsites (lineSite_groupSites .asTyped), rewriteBasic,
      hsites lineSite_basicSites]
  rw [convert_sum, Conversion.convert, if_neg (by rw [f.isAllBlank_call]; decide)]
  simp only [Stage.ofStyle, List.foldl_cons, List.foldl_nil, Stage.apply, prepare_call, hrewrite,
    finish_call e es f hb]

/-- A letter or a digit as a term. -/
def single (c : Char) (hc : isPlainChar c = true ∧ c ≠ '[' ∧ c ≠ ']') : Term where
  text := [c]
  ne_nil := singleton_ne_nil c
  isPlain _ hx := List.mem_singleton.1 hx ▸ hc.1
  shape := .inl ⟨fun h => hc.2.1 (List.mem_singleton.1 h).symm,
    fun h => hc.2.2 (List.mem_singleton.1 h).symm⟩

/-- The product `a*b`, divided by `c` and by `d`. -/
def dividedProduct : Summand where
  front := [single 'a' (by decide)]
  last := single 'b' (by decide)
  divisors := [single 'c' (by decide), single 'd' (by decide)]

/-- The term `x`, divided by `y` and by `z`. -/
def dividedTerm : Summand where
  front := []
  last := single 'x' (by decide)
  divisors := [single 'y' (by decide), single 'z' (by decide)]

/-- The product is divided twice, and a slash is left of the term behind it. -/
theorem convert_call_divided_twice :
    IsSettled dividedProduct [(⟨'+', .inl rfl⟩, dividedTerm)] ∧
      Conversion.convert .asTyped "f(a*b/c/d + x/y/z)".toList =
        "f(".toList ++ Conversion.convert .asTyped "a*b/c/d + x/y/z".toList ++ ")".toList := by
  have hsettled : IsSettled dividedProduct [(⟨'+', .inl rfl⟩, dividedTerm)] := by
    simp [IsSettled, Summand.IsClosed, dividedProduct, dividedTerm]
  have hcall := convert_call _ _ ⟨"f".toList, by decide, by decide⟩ hsettled
  have hsum : sum Summand.typed dividedProduct [(⟨'+', .inl rfl⟩, dividedTerm)] =
      "a*b/c/d + x/y/z".toList := by decide
  rw [hsum] at hcall
  exact ⟨hsettled, hcall⟩

/-- A factor behind a divisor is not waited for in a call: its sign goes into the denominator. -/
theorem convert_call_ne :
    Conversion.convert .asTyped "f(a/b*c)".toList = "f(\\frac\x7ba\x7d\x7bb\\times \x7d c)".toList ∧
      Conversion.convert .asTyped "a/b*c".toList = "\\frac\x7ba\x7d\x7bb\x7d\\times c".toList :=
  ⟨by decide +kernel, by decide +kernel⟩

end CalcTypeset.Argument
