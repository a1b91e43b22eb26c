import CalcTypeset.Proofs.Chain.Line
import CalcTypeset.Proofs.Enclosed.Passes
import CalcTypeset.Proofs.Nesting.Site
import CalcTypeset.Proofs.Spacing.Respaced
import Mathlib.Data.List.Basic

/-!
# A call or a group over the first factor of a product

A plain term over `d` is a fraction that ends with `d`, whatever is multiplied to it. Behind a call
or a group the divisor is read as long as it goes, and the multiplication sign behind it consists of
characters of a term, so the sign is taken into the denominator and the other factor is left alone.
A group is read flatly: when there are parentheses in it, none of the scans finds a dividend in
front of the slash, and the quotient stays a quotient.
-/

namespace CalcTypeset.Enclosed

open Text Fraction Chain

variable {a u w r : Text} {x : Char}

/-! ## Dividends that are read flatly -/

/-- The text ends with no closing parenthesis, or with the only one of a group at its end. -/
def EndsFlat (w : Text) : Prop :=
  w.getLast? ≠ some ')' ∨ ∃ y c, w = y ++ Markup.parenthesised c ∧ ')' ∉ c

/-- A division site whose dividend is read flatly. -/
def IsFlatSite (w : Text) : Prop :=
  ∃ n g d, w = n ++ g ++ d ∧ IsSlash g ∧ n ≠ [] ∧ EndsFlat n

theorem endsFlat_of_isRun (hw : IsRun w) : EndsFlat w :=
  .inl fun h => absurd (hw _ (List.mem_of_mem_getLast? h)) (by decide)

theorem flat_term : term.Meets fun w _ _ => w ≠ [] ∧ EndsFlat w := by
  refine (Recogniser.meets_run isTermChar).mono ?_
  rintro w _ r ⟨rfl, hne, hw, -⟩
  exact ⟨hne, endsFlat_of_isRun hw⟩

theorem flat_of_flat {p : Recogniser Text} (hp : p.Meets Nesting.Flat) :
    p.Meets fun w _ _ => w ≠ [] ∧ EndsFlat w := by
  refine hp.mono ?_
  rintro w t r ⟨y, c, rfl, -, hc, -⟩
  exact ⟨by simp [Markup.parenthesised], .inr ⟨y, c, rfl, hc⟩⟩

theorem flat_withExponent {p : Recogniser Text} (hp : p.Meets fun w _ _ => w ≠ [] ∧ EndsFlat w) :
    (withExponent p).Meets fun w _ _ => w ≠ [] ∧ EndsFlat w := by
  refine ((hp.bind fun t => meets_exponent.map fun e => t ++ e).orElse hp).mono ?_
  rintro w t r (⟨v, _, _, rfl, -, e, ⟨rfl, u, -, rfl⟩, -⟩ | h)
  · have hlast : (v ++ '^' :: Markup.braced u).getLast? = some '}' := by
      rw [Markup.braced, ← List.cons_append, ← List.append_assoc, List.getLast?_concat]
    exact ⟨by simp, .inl (by rw [hlast]; decide)⟩
  · exact h

theorem flat_division {n d : Recogniser Text} {slash : Recogniser Unit}
    {P : Text → Text → Text → Prop} (hn : n.Meets fun w _ _ => w ≠ [] ∧ EndsFlat w)
    (hslash : slash.Meets fun w _ _ => IsSlash w) (hd : d.Meets P) :
    (division n slash d).Meets fun w _ _ => IsFlatSite w := by
  refine (hn.bind fun n => hslash.bind fun _ => hd.map fun d => Fraction.Quotient.mk n d).mono ?_
  rintro w q r ⟨n, _, _, rfl, ⟨hne, hflat⟩, g, _, d, rfl, hg, -⟩
  exact ⟨n, g, d, by simp, hg, hne, hflat⟩

/-- Between two factors of a product are no parentheses. -/
theorem not_mem_nextFactor {s t r : Text} {st : FactorState}
    (h : lineProduct.nextFactor? s = some (t, st, r)) : ')' ∉ t := by
  obtain ⟨b, b', c, rfl, hb, hb', hc⟩ := Chain.nextFactor?_spec h
  have hblank : ∀ {b : Text}, (∀ x ∈ b, isBlank x = true) → ')' ∉ b := fun hb hmem =>
    absurd (hb _ hmem) (by decide)
  have hsign : ')' ∉ Markup.timesSign := by decide
  have hne : ')' ≠ c := by
    rintro rfl
    cases hc
  simp [hblank hb, hblank hb', hsign, hne]

theorem not_mem_continue {st : FactorState} {s r : Text} {q : Quotient}
    (h : lineProduct.continue? st s = some (q, r)) : ')' ∉ q.dividend := by
  induction h using ProductNotation.continue?_induction with
  | @extend st q r c s _ _ hc ih =>
      have hne : ')' ≠ c := by
        rintro rfl
        rw [Chain.accepts_eq_false st (by decide)] at hc
        cases hc
      simp [hne, ih]
  | factor s t st' s' hn ih => simp [not_mem_nextFactor hn, ih]
  | finish s q r hst h =>
      obtain ⟨_, -, _, -, -, hnil, -⟩ := meets_finish _ _ _ h
      simp [hnil]

theorem flat_overTerm : lineProduct.overTerm.Meets fun w _ _ => IsFlatSite w := by
  intro s q r hs
  obtain ⟨c, t, q', rfl, hterm, hq', rfl⟩ := ProductNotation.exists_continue?_of_overTerm hs
  obtain ⟨g, rfl, hg, -⟩ := ProductNotation.continue?_spec Recogniser.meets_never hq'
  refine ⟨c :: q'.dividend ++ g ++ q'.divisor, by simp, _, g, _, rfl, hg, by simp, .inl ?_⟩
  intro hlast
  rcases List.mem_cons.1 (List.mem_of_mem_getLast? hlast) with rfl | hmem
  · cases hterm
  · exact not_mem_continue hq' hmem

theorem flat_groupSites (style : CallStyle) :
    ∀ p ∈ groupSites style, p.Meets fun w _ _ => IsFlatSite w := by
  have hgroup : group.Meets fun w _ _ => w ≠ [] ∧ EndsFlat w := flat_of_flat (flat_group _)
  have hcall : filledCall.Meets fun w _ _ => w ≠ [] ∧ EndsFlat w := by
    refine flat_of_flat (((Call.meets_flatCall.filter _).map _).mono ?_)
    rintro w _ r ⟨c, ⟨⟨rfl, -, hname, hcontent⟩, -⟩, rfl⟩
    exact flat_write hname hcontent
  have hmarkup : (markupGroups style).Meets fun w _ _ => IsFlatSite w := by
    cases style with
    | asTyped =>
        exact flat_division (flat_of_flat (flat_group _)) meets_tightSlash meets_markupGroup
    | typeset =>
        exact flat_division (flat_of_flat (flat_content _)) meets_tightSlash meets_markupContent
  exact forall_groupSites.2 ⟨hmarkup,
    flat_division (flat_of_flat flat_bracedGroup) meets_tightSlash meets_bracedGroup,
    flat_division (flat_withExponent hcall) meets_spacedSlash meets_term,
    flat_division (flat_withExponent hgroup) meets_spacedSlash meets_term⟩

theorem flat_basicSites : ∀ p ∈ basicSites, p.Meets fun w _ _ => IsFlatSite w := by
  have hgroup : group.Meets fun w _ _ => w ≠ [] ∧ EndsFlat w := flat_of_flat (flat_group _)
  exact forall_basicSites.2
    ⟨flat_division (flat_withExponent hgroup) meets_spacedSlash meets_groupContent, flat_overTerm,
      flat_division flat_term meets_spacedSlash meets_endedCall,
      flat_division flat_term meets_spacedSlash meets_endedTerm⟩

/-! ## Groups in groups -/

/-- In front of the slash behind a group with parentheses in it, nothing is read flatly. -/
theorem not_isFlatSite (hbalanced : Bracket.IsBalanced '(' ')' a) (hopen : '(' ∈ a)
    (ha : '/' ∉ a) (hu : '/' ∉ u) (hw : w ++ r <:+ around [] a ('/' :: u)) : ¬ IsFlatSite w := by
  rintro ⟨n, g, d, rfl, ⟨b, b', rfl, hb, -⟩, hne, hflat⟩
  obtain ⟨x, hx⟩ := hw
  have hsplit : '(' :: a ++ [')'] ++ '/' :: u = (x ++ n ++ b) ++ '/' :: (b' ++ d ++ r) := by
    simpa [around] using hx.symm
  have hfront : '/' ∉ '(' :: a ++ [')'] := by simp [ha]
  obtain ⟨hgroup, -, -⟩ := (List.append_cons_inj_of_notMem hfront hu).1 hsplit
  -- No blank stands behind the group.
  obtain rfl : b = [] := by
    rcases List.eq_nil_or_concat b with rfl | ⟨b, c, rfl⟩
    · rfl
    · have hlast := congrArg List.getLast? hgroup
      rw [List.getLast?_concat, List.concat_eq_append, ← List.append_assoc,
        List.getLast?_concat] at hlast
      exact absurd (hb c (by simp)) (by rw [← Option.some.inj hlast]; decide)
  rw [List.append_nil] at hgroup
  rcases hflat with hlast | ⟨y, c, rfl, hc⟩
  · have hclose := congrArg List.getLast? hgroup
    rw [List.getLast?_append_of_ne_nil _ hne, List.getLast?_concat] at hclose
    exact hlast hclose.symm
  · have hcontent : '(' :: a = x ++ y ++ '(' :: c := by
      have : '(' :: a ++ [')'] = (x ++ y ++ '(' :: c) ++ [')'] := by
        simpa [Markup.parenthesised] using hgroup
      exact List.append_cancel_right this
    have hclosing : ∀ {t}, '(' :: t <:+ a → ')' ∈ t :=
      Bracket.Kind.closing_mem_of_suffix (k := .round) hbalanced
    cases hxy : x ++ y with
    | nil =>
        obtain ⟨-, rfl⟩ := List.cons.inj (hxy ▸ hcontent)
        obtain ⟨l, t, rfl⟩ := List.append_of_mem hopen
        exact hc (by simp [hclosing (List.suffix_append l _)])
    | cons z l =>
        rw [hxy] at hcontent
        obtain ⟨-, rfl⟩ := List.cons.inj hcontent
        exact hc (hclosing (List.suffix_append l _))

theorem rewriteSites_nested {kinds : List (Recogniser Quotient)}
    (hkinds : ∀ p ∈ kinds, p.Meets fun w _ _ => IsFlatSite w)
    (hbalanced : Bracket.IsBalanced '(' ')' a) (hopen : '(' ∈ a) (ha : '/' ∉ a) (hu : '/' ∉ u) :
    rewriteSites kinds (around [] a ('/' :: u)) = around [] a ('/' :: u) :=
  rewriteSites_eq_self_of_meets hkinds fun _ _ _ ht =>
    not_isFlatSite hbalanced hopen ha hu ht

/-! ## The divisions -/

section

variable (e : Enclosed) {d m : Factor}

/-- What follows the call or the group when the divisions are looked at. -/
def quotientTail (d m : Factor) : Text := '/' :: (d.text ++ Markup.timesSign ++ ' ' :: m.text)

theorem not_mem_quotientTail (hplain : isPlainChar x = false) (hx : x ∉ '/' :: Markup.times) :
    x ∉ quotientTail d m := by
  have hfactor : ∀ t : Factor, x ∉ t.text := fun t hmem => by
    rw [t.isPlain x hmem] at hplain
    cases hplain
  have htimes : x ∉ Markup.timesSign ∧ x ≠ ' ' ∧ x ≠ '/' := by
    simp only [Markup.times, List.mem_cons, List.mem_append, not_or, List.not_mem_nil,
      not_false_iff, and_true] at hx
    exact ⟨hx.2.1, hx.2.2, hx.1⟩
  simp [quotientTail, hfactor, htimes]

/-- The divisor is read with the multiplication sign behind it. -/
theorem read?_quotientTail (d m : Factor) :
    spacedSlash.read? (quotientTail d m) =
        some ((), d.text ++ Markup.timesSign ++ ' ' :: m.text) ∧
      term.read? (d.text ++ Markup.timesSign ++ ' ' :: m.text) =
        some (d.text ++ Markup.timesSign, ' ' :: m.text) := by
  have hrun : IsRun (d.text ++ Markup.timesSign) := d.isRun.append (by decide)
  have hne : d.text ++ Markup.timesSign ≠ [] := by simp [d.ne_nil]
  refine ⟨spacedSlash_read?_slash (hrun.isSolidHead hne _), run?_term hrun hne fun c hc => ?_⟩
  obtain rfl : ' ' = c := Option.some.inj hc
  rfl

/-- The other factor is left alone. -/
theorem not_mem_round_blank (m : Factor) : '(' ∉ ' ' :: m.text := fun hmem => by
  rcases List.mem_cons.1 hmem with h | h
  · cases h
  · exact absurd (m.isPlain _ h) (by decide)

theorem not_mem_around (hname : x ∉ e.name) (hx : x ∉ ['(', ')']) (h : x ∉ e.prepared) :
    x ∉ around e.name e.prepared [] := by
  simp only [List.mem_cons, not_or, List.not_mem_nil, not_false_iff, and_true] at hx
  simp [around, hname, hx, h]

theorem not_mem_slash_name : '/' ∉ e.name := fun hmem =>
  absurd (Called.isTermChar_of_isWordChar (e.isWord _ hmem)) (by decide)

/-- The slash is in no argument. -/
theorem rewriteArguments_around (style : CallStyle) :
    rewriteArguments style (around e.name e.prepared (quotientTail d m)) =
      around e.name e.prepared (quotientTail d m) := by
  have hbalanced : Bracket.IsBalanced '(' ')' (around e.name e.prepared []) :=
    Nesting.balanced_call e.isWord e.prepared_isBalanced
  have hslash := e.not_mem_around e.not_mem_slash_name (by decide) e.prepared_noSlash
  have hcut : rewriteArguments style (around e.name e.prepared [] ++ quotientTail d m) =
      rewriteArguments style (around e.name e.prepared []) ++
        rewriteArguments style (quotientTail d m) := by
    refine WordRule.replaceAll_append (fun c hc => ?_)
      (fun w t ht => ((Bracket.localAt_group (.inr (by simp [quotientTail])) ?_).filter _).map _)
      fun w => (meets_slashedCall w).mono fun _ _ _ _ => trivial
    · obtain rfl : '/' = c := Option.some.inj hc
      exact isWordChar_eq_false (by decide)
    · rintro t' rfl
      exact Bracket.closing?_isSome_of_suffix hbalanced ht
  rw [around_nil_eq]
  refine hcut.trans ?_
  exact congrArg₂ _ (rewriteArguments_of_not_mem_slash style hslash)
    (rewriteArguments_eq_self style (not_mem_quotientTail (by decide) (by decide)))

/-- The call or the group over the divisor and its sign, and the other factor behind it. -/
def torn (d m : Factor) : Text :=
  Markup.frac (around e.name e.prepared []) (d.text ++ Markup.timesSign) ++ ' ' :: m.text

theorem rewriteCallDividends_call (hname : e.name ≠ []) :
    rewriteCallDividends (around e.name e.prepared (quotientTail d m)) = e.torn d m := by
  have hrun : run? isWordChar (around e.name e.prepared (quotientTail d m)) =
      some (e.name, '(' :: (e.prepared ++ ')' :: quotientTail d m)) :=
    run?_append hname e.isWord (by simp)
  have hgroup : Bracket.group.read? ('(' :: (e.prepared ++ ')' :: quotientTail d m)) =
      some (e.prepared, quotientTail d m) :=
    Bracket.group?_eq_some_iff.2 ⟨rfl, e.prepared_isBalanced⟩
  have hread : (callSite e.name).read? ('(' :: (e.prepared ++ ')' :: quotientTail d m)) =
      some (⟨⟨e.name, e.prepared⟩, some (d.text ++ Markup.timesSign)⟩, ' ' :: m.text) := by
    obtain ⟨hslash, hterm⟩ := read?_quotientTail d m
    rw [callSite, Recogniser.read?_orElse, Recogniser.read?_bind, hgroup, Option.bind_some,
      Recogniser.read?_map, divisor, Recogniser.read?_bind, hslash, Option.bind_some, hterm]
    rfl
  rw [rewriteCallDividends, WordRule.replaceAll_of_read hrun hread]
  exact congrArg _ (rewriteCallDividends_eq_self (not_mem_round_blank m))

/-- Of the calls in a group none stands in front of the slash. -/
theorem rewriteCallDividends_group (hbalanced : Bracket.IsBalanced '(' ')' a) (ha : '/' ∉ a) :
    rewriteCallDividends (around [] a (quotientTail d m)) = around [] a (quotientTail d m) := by
  have hclose : IsSolidHead (')' :: quotientTail d m) := ⟨')', _, rfl, by decide, by decide⟩
  have hdivisor : ∀ {r}, r <:+ a → divisor.LocalAt (')' :: quotientTail d m) r := by
    intro r hr
    have hslash : '/' ∉ r := fun hmem => ha (hr.subset hmem)
    have hnone : spacedSlash.read? r = none := by
      cases hread : spacedSlash.read? r with
      | none => rfl
      | some x =>
          obtain ⟨_, rfl, b, b', rfl, -⟩ := meets_spacedSlash r x.1 x.2 hread
          exact absurd (by simp) hslash
    rw [Recogniser.LocalAt, divisor, Recogniser.read?_bind_eq_none hnone,
      Recogniser.read?_bind_eq_none (spacedSlash_read?_append hslash
        (by rwa [hclose.skipBlanks]))]
    rfl
  have hlocal : ∀ w t, t <:+ a → (callSite w).LocalAt (')' :: quotientTail d m) t := by
    intro w t ht
    have hgroup : Bracket.group.LocalAt (')' :: quotientTail d m) t :=
      Bracket.localAt_group (.inr (by simp)) fun t' h =>
        Bracket.closing?_isSome_of_suffix hbalanced (h ▸ ht)
    refine (hgroup.bind fun t' r hr => (hdivisor ?_).map _).orElse (hgroup.map _)
    obtain ⟨v, rfl, -⟩ := Bracket.meets_group t t' r hr
    exact (List.suffix_append v r).trans ht
  have hcut : rewriteCallDividends (a ++ ')' :: quotientTail d m) =
      rewriteCallDividends a ++ rewriteCallDividends (')' :: quotientTail d m) :=
    WordRule.replaceAll_append (by simp) hlocal
      fun w => (meets_callSite w).mono fun _ _ _ _ => trivial
  have htail : '(' ∉ ')' :: quotientTail d m := by
    simp [not_mem_quotientTail (show isPlainChar '(' = false by decide) (by decide)]
  have hopen : rewriteCallDividends ('(' :: (a ++ ')' :: quotientTail d m)) =
      '(' :: rewriteCallDividends (a ++ ')' :: quotientTail d m) :=
    WordRule.replaceAll_cons_of_not_isWordChar _ isWordChar_opening
  refine hopen.trans (congrArg ('(' :: ·) (hcut.trans ?_))
  exact congrArg₂ _ (rewriteCallDividends_of_not_mem_slash ha) (rewriteCallDividends_eq_self htail)

/-- What closes its parentheses and opens none closes none. -/
theorem not_mem_closing (hbalanced : Bracket.IsBalanced '(' ')' a) (hopen : '(' ∉ a) : ')' ∉ a := by
  induction a with
  | nil => simp
  | cons c a ih =>
      rw [List.mem_cons, not_or] at hopen
      have hc : c ≠ ')' := by
        rintro rfl
        cases hbalanced
      rw [Bracket.IsBalanced, Bracket.depthAfter, if_neg (Ne.symm hopen.1), if_neg hc] at hbalanced
      simp [hc.symm, ih hbalanced hopen.2]

theorem flatGroup_read?_around (hclose : ')' ∉ a) (u : Text) :
    Call.flatGroup.read? (around [] a u) = some (a, u) := by
  have hround : (Recogniser.single '(').read? (around [] a u) = some ((), a ++ ')' :: u) := rfl
  rw [Call.flatGroup, Recogniser.read?_bind, hround, Option.bind_some, Recogniser.read?_upTo]
  exact splitAt?_eq_some_iff.2 ⟨rfl, hclose⟩

/-- Behind the slash is no group. -/
theorem groups_read?_around (hclose : ')' ∉ a) (test test' : Text → Bool) (g g' : Text → Text) :
    (division ((Call.flatGroup.filter test).map g) tightSlash
      ((Call.flatGroup.filter test').map g')).read? (around [] a (quotientTail d m)) = none := by
  have htight : tightSlash.read? (quotientTail d m) =
      some ((), d.text ++ Markup.timesSign ++ ' ' :: m.text) := rfl
  have hnone : Call.flatGroup.read? (d.text ++ Markup.timesSign ++ ' ' :: m.text) = none := by
    obtain ⟨c, v, hv, hc, -⟩ := d.exists_cons
    rw [hv]
    exact Call.flatGroup_read?_eq_none (ne_of_isPlainChar hc (by decide)) _
  have hdivisor : ((Call.flatGroup.filter test').map g').read?
      (d.text ++ Markup.timesSign ++ ' ' :: m.text) = none :=
    Recogniser.read?_map_eq_none (Recogniser.read?_filter_eq_none hnone _) _
  rw [division, Recogniser.read?_bind, Recogniser.read?_map, Recogniser.read?_filter,
    flatGroup_read?_around hclose]
  cases htest : test a with
  | false => simp [Option.filter, htest]
  | true =>
      have hfilter : (some (a, quotientTail d m)).filter (fun x => test x.1) =
          some (a, quotientTail d m) := by simp [Option.filter, htest]
      rw [hfilter, Option.map_some, Option.bind_some, Recogniser.read?_bind, htight,
        Option.bind_some, Recogniser.read?_map, hdivisor]
      rfl

/-- A group is no call. -/
theorem call_read?_around (a u : Text) :
    (division (withExponent filledCall) spacedSlash term).read? (around [] a u) = none := by
  have hrun : run? isWordChar (around [] a u) = none :=
    run?_eq_none_iff.2 (by simp [around])
  have hflat : Call.flatCall.read? (around [] a u) = none :=
    Recogniser.read?_bind_eq_none hrun _
  exact division_read?_eq_none (withExponent_read?_eq_none
    (Recogniser.read?_map_eq_none (Recogniser.read?_filter_eq_none hflat _) _))

/-- The group is read, and the divisor with the multiplication sign behind it. -/
theorem group_read?_around (hne : a ≠ []) (hclose : ')' ∉ a) (d m : Factor) :
    (division (withExponent group) spacedSlash term).read? (around [] a (quotientTail d m)) =
      some (⟨around [] a [], d.text ++ Markup.timesSign⟩, ' ' :: m.text) := by
  obtain ⟨hslash, hterm⟩ := read?_quotientTail d m
  have hexponent : Fraction.exponent.read? (quotientTail d m) = none := rfl
  have hfilled : group.read? (around [] a (quotientTail d m)) =
      some (Markup.parenthesised a, quotientTail d m) := by
    rw [group, Recogniser.read?_map, groupContent, Recogniser.read?_filter,
      flatGroup_read?_around hclose]
    simp [Option.filter, hne]
  have hpower : (withExponent group).read? (around [] a (quotientTail d m)) =
      some (Markup.parenthesised a, quotientTail d m) := by
    rw [withExponent, Recogniser.read?_orElse, Recogniser.read?_bind, hfilled, Option.bind_some,
      Recogniser.read?_map, hexponent]
    rfl
  rw [division, Recogniser.read?_bind, hpower, Option.bind_some, Recogniser.read?_bind, hslash,
    Option.bind_some, Recogniser.read?_map, hterm]
  rfl

/-- A group without parentheses in it is read flatly. -/
theorem rewriteSites_flat (hne : a ≠ []) (hopen : '(' ∉ a) (hclose : ')' ∉ a) :
    rewriteSites (groupSites .asTyped) (around [] a (quotientTail d m)) =
      Markup.frac (around [] a []) (d.text ++ Markup.timesSign) ++ ' ' :: m.text := by
  have hrest : '(' ∉ a ++ ')' :: quotientTail d m := by
    simp [hopen, not_mem_quotientTail (show isPlainChar '(' = false by decide) (by decide)]
  -- Two groups are looked for first, and then a call.
  have hidle : rewriteSites [markupGroups .asTyped, plainGroups,
      division (withExponent filledCall) spacedSlash term] (around [] a (quotientTail d m)) =
        around [] a (quotientTail d m) := by
    refine rewriteSites_eq_self fun p hp t ht => ?_
    rcases List.suffix_cons_iff.1 ht with rfl | ht
    · simp only [List.mem_cons, List.not_mem_nil, or_false] at hp
      rcases hp with rfl | rfl | rfl
      · exact groups_read?_around hclose _ _ _ _
      · exact groups_read?_around hclose _ _ _ _
      · exact call_read?_around _ _
    · refine groupSites_read?_of_not_mem .asTyped (fun hmem => hrest (ht.subset hmem)) p ?_
      simp only [groupSites, List.mem_cons, List.not_mem_nil, or_false] at hp ⊢
      tauto
  show (division (withExponent group) spacedSlash term).replaceAll _ (rewriteSites
    [markupGroups .asTyped, plainGroups, division (withExponent filledCall) spacedSlash term] _) = _
  rw [hidle, Recogniser.replaceAll_of_read _ _ (group_read?_around hne hclose d m)]
  refine congrArg _ (Recogniser.replaceAll_eq_self fun t ht => ?_)
  exact groupSites_read?_of_not_mem .asTyped
    (fun hmem => not_mem_round_blank m (ht.subset hmem)) _ (by simp [groupSites])

/-- Whatever stands in the parentheses, the quotient is torn or it is left as it is. -/
theorem rewrite_around : rewrite .asTyped (around e.name e.prepared (quotientTail d m)) =
    if e.name = [] ∧ e.IsNested then around e.name e.prepared (quotientTail d m)
    else e.torn d m := by
  have htail : '/' ∉ d.text ++ Markup.timesSign ++ ' ' :: m.text := by
    have hsign : '/' ∉ Markup.timesSign := by decide
    simp [d.isRun.not_mem_slash, m.isRun.not_mem_slash, hsign]
  have htorn : '/' ∉ e.torn d m := by
    have haround := e.not_mem_around e.not_mem_slash_name (by decide) e.prepared_noSlash
    rw [List.mem_append, not_or] at htail
    rw [torn, List.mem_append, not_or]
    exact ⟨not_mem_slash_frac haround htail.1, htail.2⟩
  have hdivided : ∀ s, rewriteSites (groupSites .asTyped) (rewriteCallDividends s) = e.torn d m →
      rewriteBasic (rewriteSites (groupSites .asTyped) (rewriteCallDividends s)) = e.torn d m :=
    fun s hs => by rw [hs, rewriteBasic, rewriteSites_of_not_mem_slash meets_basicSites htorn]
  rw [rewrite, rewriteArguments_around]
  by_cases hname : e.name = []
  · by_cases hnested : e.IsNested
    · have hopen := e.mem_prepared_iff.2 hnested
      rw [if_pos ⟨hname, hnested⟩, hname,
        rewriteCallDividends_group e.prepared_isBalanced e.prepared_noSlash, quotientTail,
        rewriteSites_nested (flat_groupSites .asTyped) e.prepared_isBalanced hopen
          e.prepared_noSlash htail, rewriteBasic,
        rewriteSites_nested flat_basicSites e.prepared_isBalanced hopen e.prepared_noSlash htail]
    · have hopen : '(' ∉ e.prepared := fun h => hnested (e.mem_prepared_iff.1 h)
      have hclose := not_mem_closing e.prepared_isBalanced hopen
      rw [if_neg fun h => hnested h.2]
      refine hdivided _ ?_
      rw [hname, rewriteCallDividends_group e.prepared_isBalanced e.prepared_noSlash,
        rewriteSites_flat e.prepared_ne_nil hopen hclose, torn, hname]
  · rw [if_neg fun h => hname h.1]
    refine hdivided _ ?_
    rw [e.rewriteCallDividends_call hname,
      rewriteSites_of_not_mem_slash (meets_groupSites .asTyped) htorn]

/-! ## The conversion -/

/-- No character is looked at when the operators are finished. -/
def IsQuiet (w : Text) : Prop := ∀ c ∈ w, isBlank c = false ∧ c ≠ '%' ∧ c ≠ Markup.degree

instance (w : Text) : Decidable (IsQuiet w) := List.decidableBAll _ w

theorem IsQuiet.append {v : Text} (hv : IsQuiet v) (hw : IsQuiet w) : IsQuiet (v ++ w) :=
  fun c hc => (List.mem_append.1 hc).elim (hv c) (hw c)

theorem isQuiet_factor (t : Factor) : IsQuiet t.text := fun c hc =>
  ⟨isBlank_of_isPlainChar (t.isPlain c hc), ne_of_isPlainChar (t.isPlain c hc) (by decide),
    ne_of_isPlainChar (t.isPlain c hc) (by decide)⟩

theorem isQuiet_name : IsQuiet e.name := by
  have hword : ∀ c ∈ ['%', Markup.degree], isWordChar c = false := by decide +kernel
  intro c hc
  refine ⟨e.isBlank_of_mem_name c hc, ?_, ?_⟩ <;> rintro rfl
  · exact absurd (e.isWord _ hc) (by rw [hword '%' (by simp)]; decide)
  · exact absurd (e.isWord _ hc) (by rw [hword Markup.degree (by simp)]; decide)

/-- Nothing is left to be done to the operators and gaps of the text. -/
def IsFinished (u : Text) : Prop := squeezeAfter false (tidy u) = u

theorem isFinished_nil : IsFinished [] := by
  rw [IsFinished, tidy_eq_self (by simp) (by simp)]
  rfl

theorem isFinished_blank (hw : IsQuiet w) (m : Factor) : IsFinished (w ++ ' ' :: m.text) := by
  have hm := isQuiet_factor m
  have htidy : tidy (w ++ ' ' :: m.text) = w ++ ' ' :: m.text := by
    refine tidy_eq_self (fun h => ?_) fun h => ?_ <;>
      rcases List.mem_append.1 h with h | h
    · exact (hw _ h).2.1 rfl
    · exact (hm '%' (by simpa using h)).2.1 rfl
    · exact (hw _ h).2.2 rfl
    · exact (hm Markup.degree (by simpa [Markup.degree] using h)).2.2 rfl
  have hspace : squeezeAfter false (' ' :: m.text) = ' ' :: m.text := by
    obtain ⟨c, v, hv, hc, -⟩ := m.exists_cons
    have hfactor := squeezeAfter_append_of_no_blank (fun c hc => (hm c hc).1) []
    rw [List.append_nil, hv] at hfactor
    rw [hv, squeezeAfter, if_pos (by decide), squeezeAfter_true_eq (isBlank_of_isPlainChar hc),
      hfactor]
    simp [squeezeAfter]
  rw [IsFinished, htidy, squeezeAfter_append_of_no_blank fun c hc => (hw c hc).1, hspace]

/-- What the content is when the operators are finished. -/
def finished : Text := squeezeInside false (tidy e.prepared)

theorem finish_around (hw : IsQuiet w) (hu : IsFinished u) :
    Operator.finish (around w e.prepared u) = around w e.finished u := by
  have hself : tidy w = w := tidy_eq_self (fun h => (hw _ h).2.1 rfl) fun h => (hw _ h).2.2 rfl
  have htidy := (cutsAt_tidy (x := '(') (by simp)).around (cutsAt_tidy (by simp)) hself
    e.prepared u
  show squeeze (tidy _) = _
  rw [htidy, squeeze_around fun c hc => (hw c hc).1, hu]
  rfl

theorem convert_append (hu : squeezeAfter false u = u) :
    Conversion.convert .asTyped (e.write ++ u) = Operator.finish (rewrite .asTyped
      (around e.name e.prepared (Operator.prepare (KnownConstant.replaceEach u)))) := by
  have hvisible : isAllBlank (e.write ++ u) = false :=
    isVisible_iff.1 ⟨'(', by simp [write_append, around], by decide⟩
  rw [Conversion.convert, if_neg (by rw [hvisible]; decide)]
  show Operator.finish (rewrite _ (Operator.prepare (KnownConstant.replaceEach (squeeze _)))) = _
  rw [prepare_write_append, hu]

theorem convert_write : Conversion.convert .asTyped e.write = around e.name e.finished [] := by
  have hprepare : Operator.prepare (KnownConstant.replaceEach []) = [] := by
    rw [KnownConstant.replaceEach_eq_self (by simp), Operator.prepare,
      Operator.bracePowers_eq_self (by simp), Operator.writeProducts, Recogniser.replaceAll_nil]
  have hslash := e.not_mem_around e.not_mem_slash_name (by decide) e.prepared_noSlash
  have happend := e.convert_append (u := []) rfl
  rw [List.append_nil, hprepare, rewrite_eq_self _ hslash,
    e.finish_around e.isQuiet_name isFinished_nil] at happend
  exact happend

theorem prepare_quotient (d m : Factor) :
    Operator.prepare (KnownConstant.replaceEach ('/' :: (d.text ++ '*' :: m.text))) =
      quotientTail d m := by
  have hmem : ∀ x, isPlainChar x = false → x ∉ ['/', '*'] →
      x ∉ '/' :: (d.text ++ '*' :: m.text) := by
    intro x hplain hx
    have hfactor : ∀ t : Factor, x ∉ t.text := fun t hmem => by
      rw [t.isPlain x hmem] at hplain
      cases hplain
    simpa [hfactor] using hx
  have hfactor : ∀ (t : Factor) s, Operator.writeProducts (t.text ++ s) =
      t.text ++ Operator.writeProducts s := fun t s =>
    writeProducts_append (fun c hc => .inl (t.isPlain c hc)) s
  have hlast := hfactor m []
  have hslash := cutsAt_writeProducts (x := '/') (by decide) (by decide) []
    (d.text ++ '*' :: m.text)
  have hstar : Operator.writeProducts ('*' :: m.text) =
      Markup.times ++ Operator.writeProducts m.text := by
    have hsolid := m.isSolidHead []
    rw [List.append_nil] at hsolid
    exact writeProducts_star hsolid
  have hnil : Operator.writeProducts [] = [] := Recogniser.replaceAll_nil _ _
  rw [hnil, List.append_nil] at hlast
  rw [KnownConstant.replaceEach_eq_self (hmem '(' (by decide) (by decide)), Operator.prepare,
    Operator.bracePowers_eq_self (hmem '^' (by decide) (by decide))]
  refine hslash.trans ?_
  rw [hnil, hfactor, hstar, hlast, quotientTail, Markup.times]
  simp

theorem frac_around (w a x u : Text) : Markup.frac (around w a []) x ++ u =
    around (Markup.fracOpen ++ w) a ('}' :: '{' :: x ++ ['}'] ++ u) := by
  rw [frac_eq]
  simp [around]

/-- A call or a group over a term, with a further factor: the sign in front of the factor goes into
the denominator, and when there are parentheses in the group there is no fraction. -/
theorem convert_quotient_times (e : Enclosed) (d m : Factor) :
    Conversion.convert .asTyped (e.write ++ '/' :: (d.text ++ '*' :: m.text)) =
      if e.name = [] ∧ e.IsNested then
        Conversion.convert .asTyped e.write ++ '/' :: (d.text ++ Markup.times ++ m.text)
      else
        Markup.frac (Conversion.convert .asTyped e.write) (d.text ++ Markup.timesSign) ++
          ' ' :: m.text := by
  have hdivisor : IsQuiet (d.text ++ Markup.timesSign) :=
    (isQuiet_factor d).append (by decide)
  have hsolid : IsQuiet ('/' :: (d.text ++ '*' :: m.text)) :=
    (show IsQuiet ['/'] by decide).append
      ((isQuiet_factor d).append ((show IsQuiet ['*'] by decide).append (isQuiet_factor m)))
  have hsqueeze := squeezeAfter_append_of_no_blank (fun c hc => (hsolid c hc).1) []
  rw [List.append_nil] at hsqueeze
  rw [e.convert_append (hsqueeze.trans (List.append_nil _)), prepare_quotient, rewrite_around,
    convert_write]
  split
  · next h =>
      have hslash : IsQuiet ['/'] := by decide
      have htail : IsFinished (quotientTail d m) := isFinished_blank (hslash.append hdivisor) m
      rw [e.finish_around e.isQuiet_name htail]
      simp [around, quotientTail, Markup.times]
  · have hname : IsQuiet (Markup.fracOpen ++ e.name) :=
      (show IsQuiet Markup.fracOpen by decide).append e.isQuiet_name
    have hbraces : IsQuiet ('}' :: '{' :: (d.text ++ Markup.timesSign) ++ ['}']) :=
      ((show IsQuiet ['}', '{'] by decide).append hdivisor).append (by decide)
    rw [torn, frac_around, e.finish_around hname (isFinished_blank hbraces m), frac_around]

end

/-- A plain term over the first factor of a product is a fraction with this factor below. -/
theorem convert_quotient_times_ne :
    Conversion.convert .asTyped "n/d*m".toList =
        Markup.frac (Conversion.convert .asTyped "n".toList) "d".toList ++ "\\times m".toList ∧
      Conversion.convert .asTyped "f(x)/d*m".toList ≠
        Markup.frac (Conversion.convert .asTyped "f(x)".toList) "d".toList ++ "\\times m".toList ∧
      Conversion.convert .asTyped "f(x)/d*m".toList =
        "\\frac\x7bf(x)\x7d\x7bd\\times\x7d m".toList ∧
      Conversion.convert .asTyped "((a)+b)/d*m".toList = "((a)+b)/d\\times m".toList :=
  ⟨by decide +kernel, by decide +kernel, by decide +kernel, by decide +kernel⟩

end CalcTypeset.Enclosed
