import CalcTypeset.Call.Usage
import CalcTypeset.Proofs.Called.Kept
import CalcTypeset.Proofs.CallRule

/-!
# Where the styles agree

The style shows in two places. Two groups with nothing but a slash between them, in an argument or
with markup in both, keep their parentheses or lose them, and calls stay as they are or are typeset.
So the two LaTeX lines are the same when no group is directly divided by a group and nothing is
called.

Neither can come about on the way. What is written beside an operand keeps two groups apart, which
the gauge of this file follows, and no pass makes a call, except that a word behind a constant may
become a part of its symbol.
-/

namespace CalcTypeset

open Text

namespace Fraction

/-! ## Groups over groups -/

/-- How far a group that is divided by a group has been read. -/
inductive Between where
  | other
  /-- Behind a closing parenthesis. -/
  | group
  /-- Behind a closing parenthesis and a slash. -/
  | slash
deriving DecidableEq

/-- The state behind a character; none where the second group opens. -/
def Between.step (q : Between) (c : Char) : Option Between :=
  if c = ')' then some group
  else
    match q with
    | other => some other
    | group => some (if c = '/' then slash else other)
    | slash => if c = '(' then none else some other

/-- What has been read in a state. -/
def Between.front : Between → Text
  | other => []
  | group => [')']
  | slash => [')', '/']

/-- No group is directly divided by a group. -/
def apart : Gauge Between := .flat Between.step .other fun {q r c} h => by
  by_cases hc : c = ')'
  · subst hc
    exact .inl (by cases q <;> exact h)
  · exact .inr (if_neg hc)

theorem settles_apart : apart.Settles .other where
  least _ := .inr rfl
  blank q c hc := by
    have hne : c ≠ ')' ∧ c ≠ '/' ∧ c ≠ '(' := by
      refine ⟨?_, ?_, ?_⟩ <;> rintro rfl <;> exact absurd hc (by decide)
    show q.step c = some .other
    cases q <;> simp [Between.step, hne]
  opening q := by cases q <;> rfl
  closing q := by cases q <;> rfl
  fracOpen q := by cases q <;> rfl
  star q := by cases q <;> rfl
  times q := by cases q <;> rfl

variable {s t : Text} {style : CallStyle}

/-- Behind a state the rest can be read unless it holds what is missing. -/
theorem Between.exists_follow {q : Between} (h : ¬ ")/(".toList <:+: q.front ++ s) :
    ∃ r, apart.follow q s = some r := by
  induction s generalizing q with
  | nil => exact ⟨q, rfl⟩
  | cons c s ih =>
      obtain ⟨m, hm, hfront⟩ : ∃ m, apart.step q c = some m ∧ m.front <:+ q.front ++ [c] := by
        show ∃ m, q.step c = some m ∧ _
        by_cases hclose : c = ')'
        · exact ⟨.group, if_pos hclose, q.front, by rw [hclose]; rfl⟩
        · cases q with
          | other => exact ⟨.other, if_neg hclose, List.nil_suffix⟩
          | group =>
              by_cases hslash : c = '/'
              · exact ⟨.slash, by simp [step, hslash], by rw [hslash]; exact List.suffix_refl _⟩
              · exact ⟨.other, by simp [step, hclose, hslash], List.nil_suffix⟩
          | slash =>
              by_cases hopen : c = '('
              · exact absurd ⟨[], s, by rw [hopen]; rfl⟩ h
              · exact ⟨.other, by simp [step, hclose, hopen], List.nil_suffix⟩
      have hsuffix : m.front ++ s <:+ q.front ++ c :: s := by
        obtain ⟨p, hp⟩ := hfront
        exact ⟨p, by rw [← List.append_assoc, hp, List.append_assoc]; rfl⟩
      obtain ⟨r, hr⟩ := ih fun hwithin => h (hwithin.trans hsuffix.isInfix)
      exact ⟨r, by rw [Gauge.follow_cons, hm, Option.bind_some, hr]⟩

theorem reads_apart (h : Text.occurs ")/(".toList s = false) : apart.Reads s := by
  have hwithin : ¬ ")/(".toList <:+: s := by
    rintro ⟨p, r, hs⟩
    rw [occurs_iff.2 ⟨p, r, hs.symm⟩] at h
    cases h
  obtain ⟨r, hr⟩ := Between.exists_follow (q := .other) hwithin
  exact ⟨.other, r, hr⟩

/-- Where no group is divided by a group, no such site is read. -/
theorem replaceAll_tightGroups {p : Recogniser Text}
    (hp : p.Meets fun w _ _ => ∃ t, w = Markup.parenthesised t) (hs : apart.Reads s) :
    (division p tightSlash p).replaceAll Quotient.write s = s := by
  refine Recogniser.replaceAll_eq_self fun t ht => Option.eq_none_iff_forall_ne_some.2 ?_
  rintro ⟨q, r⟩ hread
  obtain ⟨n, hn, hread⟩ := Option.bind_eq_some_iff.1 hread
  obtain ⟨x, hx, hread⟩ := Option.bind_eq_some_iff.1 hread
  obtain ⟨d, hd, -⟩ := Option.map_eq_some_iff.1 hread
  obtain ⟨_, rfl, u, rfl⟩ := hp _ _ _ hn
  obtain ⟨_, hv, v, rfl⟩ := hp _ _ _ hd
  have hslash := Recogniser.read?_single_eq_some_iff.1 hx
  rw [hslash, hv] at ht
  have hwithin : ")/(".toList <:+: s :=
    List.IsInfix.trans ⟨'(' :: u, v ++ ')' :: d.2, by simp [Markup.parenthesised]⟩ ht.isInfix
  obtain ⟨m, m', hm⟩ := hs.of_isInfix hwithin
  cases m <;> cases hm

theorem meets_filter_flatGroup (test : Text → Bool) :
    (Call.flatGroup.filter test).Meets fun w _ _ => ∃ t, w = Markup.parenthesised t :=
  (Call.meets_flatGroup.filter test).mono fun _ t _ hw => ⟨t, hw.1.1⟩

theorem meets_argumentGroups (style : CallStyle) :
    (argumentGroups style).Meets fun w _ _ => ∃ t, w = Markup.parenthesised t := by
  cases style with
  | asTyped => exact ((meets_filter_flatGroup _).map _).mono fun _ _ _ ⟨_, hw, _⟩ => hw
  | typeset => exact meets_filter_flatGroup fun t => !t.isEmpty

theorem replaceAll_markupGroups (style : CallStyle) (hs : apart.Reads s) :
    (markupGroups style).replaceAll Quotient.write s = s := by
  cases style with
  | asTyped =>
      exact replaceAll_tightGroups
        (((meets_filter_flatGroup _).map _).mono fun _ _ _ ⟨_, hw, _⟩ => hw) hs
  | typeset => exact replaceAll_tightGroups (meets_filter_flatGroup _) hs

/-! ## The passes -/

theorem rewriteSites_argumentSites (hs : apart.Reads s) :
    rewriteSites (argumentSites .asTyped) s = rewriteSites (argumentSites .typeset) s := by
  let before := rewriteSites [argumentProduct.overTerm, division term spacedSlash call] s
  have hbefore : apart.Reads before :=
    hs.of_eases (settles_apart.admits.rewriteSites (List.forall_mem_cons.2
      ⟨meets_argumentProduct, List.forall_mem_singleton.2
        (meets_division meets_term meets_spacedSlash meets_call)⟩) s)
  have hsites : ∀ style, rewriteSites (argumentSites style) s =
      (division term spacedSlash term).replaceAll Quotient.write before := fun style =>
    calc rewriteSites (argumentSites style) s
        = (division term spacedSlash term).replaceAll Quotient.write
            ((division (argumentGroups style) tightSlash (argumentGroups style)).replaceAll
              Quotient.write before) := by cases style <;> rfl
      _ = (division term spacedSlash term).replaceAll Quotient.write before := by
          rw [replaceAll_tightGroups (meets_argumentGroups style) hbefore]
  rw [hsites, hsites]

theorem rewriteSites_groupSites (hs : apart.Reads s) :
    rewriteSites (groupSites .asTyped) s = rewriteSites (groupSites .typeset) s := by
  show rewriteSites _ ((markupGroups .asTyped).replaceAll Quotient.write s) =
    rewriteSites _ ((markupGroups .typeset).replaceAll Quotient.write s)
  rw [replaceAll_markupGroups .asTyped hs, replaceAll_markupGroups .typeset hs]

theorem rewriteArgument_asTyped (hs : apart.Reads s) :
    rewriteArgument .asTyped s = rewriteArgument .typeset s := by
  rw [rewriteArgument, rewriteArgument,
    rewriteSites_argumentSites (hs.of_eases (settles_apart.eases_starProducts s))]

theorem rewriteArguments_asTyped (hs : apart.Reads s) :
    rewriteArguments .asTyped s = rewriteArguments .typeset s := by
  refine WordRule.replaceAll_congr meets_slashedCall ?_
  rintro w v c r hwithin ⟨hw, -, -⟩
  have hcontent : c.content <:+: s := by
    refine List.IsInfix.trans ⟨c.name ++ ['('], [')'], ?_⟩ hwithin
    rw [hw, Call.write, Markup.parenthesised]
    simp
  rw [rewriteArgument_asTyped (hs.of_isInfix hcontent)]

/-- In a line where no group is directly divided by a group the divisions are the same in both
styles. -/
theorem rewrite_asTyped (hs : apart.Reads s) : rewrite .asTyped s = rewrite .typeset s := by
  have hcalls : apart.Reads (rewriteCallDividends (rewriteArguments .typeset s)) :=
    (hs.of_eases (settles_apart.admits.rewriteArguments .typeset s)).of_eases
      (settles_apart.admits.rewriteCallDividends _)
  rw [rewrite, rewrite, rewriteArguments_asTyped hs, rewriteSites_groupSites hcalls]

end Fraction

/-! ## Lines that call nothing -/

namespace Called

variable {s : Text}

/-- A line that uses no function calls none: a call is a use without a gap behind the name. -/
theorem calls_eq_nil_of_usesFunctions (h : Call.usesFunctions s = false) : calls s = [] := by
  unfold Call.usesFunctions at h
  induction s using WordRule.scan_induction Call.countedOpening with
  | nil => rfl
  | read s w r a r' hw hr ih =>
      rw [WordRule.occurs_of_read hw hr] at h
      cases h
  | pass s w r hw hr ih =>
      rw [WordRule.occurs_of_none hw hr] at h
      rw [calls_of_run hw, ih h, List.append_nil]
      split
      · next hopen =>
          obtain ⟨r, rfl⟩ := List.head?_eq_some_iff.1 (of_decide_eq_true hopen)
          cases hf : KnownFunction.ofName? w with
          | none => rfl
          | some f =>
              have hcounted : Vocabulary.countedNames.contains w = true := by
                rw [← name_of_ofName? hf]
                cases f <;> decide
              rw [Call.countedOpening, if_pos hcounted] at hr
              cases hr
      · rfl
  | other c s hc ih =>
      rw [WordRule.occurs_cons hc] at h
      rw [calls, calledAfter_separator hc]
      exact ih h

/-- Where nothing is called there is no closed call of a function. -/
theorem closedCall_occurs_of_calls (f : KnownFunction) (h : calls s = []) :
    (Call.closedCall f.name).occurs s = false := by
  induction s using WordRule.scan_induction (Call.closedCall f.name) with
  | nil => exact WordRule.occurs_nil _
  | read s w r a r' hw hr ih =>
      obtain ⟨v, rfl, rfl, rfl, -⟩ := Call.meets_closedCall f.name w _ _ _ hr
      rw [calls_of_run hw, List.append_eq_nil_iff] at h
      cases f <;> cases h.1
  | pass s w r hw hr ih =>
      rw [calls_of_run hw, List.append_eq_nil_iff] at h
      rw [WordRule.occurs_of_none hw hr]
      exact ih h.2
  | other c s hc ih =>
      rw [calls, calledAfter_separator hc] at h
      rw [WordRule.occurs_cons hc]
      exact ih h

theorem typesetEach_of_calls (h : calls s = []) : KnownFunction.typesetEach s = s :=
  KnownFunction.typesetEach_of_typesetCalls fun f => by
    rw [f.typesetCalls_eq, WordRule.replaceAll_eq_self_of_occurs (closedCall_occurs_of_calls f h)]

/-- Up to the divisions nothing is called in a line that uses no function. -/
theorem calls_rewrite_of_usesFunctions (hs : '\\' ∉ s) (huses : Call.usesFunctions s = false)
    (hjoined : ∀ k : KnownConstant, k.joinedCall.occurs s = false) :
    calls (Fraction.rewrite .asTyped (Operator.prepare (KnownConstant.replaceEach (squeeze s)))) =
      [] := by
  have hsqueeze : calls (squeeze s) = [] := by
    have hcalls := (keeps_squeeze s).calls
    rw [calledAfter_skipBlanks] at hcalls
    exact List.sublist_nil.1 (calls_eq_nil_of_usesFunctions huses ▸ hcalls)
  have hconstants : calls (KnownConstant.replaceEach (squeeze s)) = [] :=
    (calls_replaceEach fun k => joinedCall_occurs_squeeze (hjoined k)).trans hsqueeze
  have hset : Operands.IsSetOff (KnownConstant.replaceEach (squeeze s)) :=
    Operands.isSetOff_of_backslashIsPi (Sum.backslashIsPi_replaceEach fun hmem =>
      (mem_squeeze hmem).elim (by decide) hs)
  have hkeeps := ((keeps_bracePowers (KnownConstant.replaceEach (squeeze s))).trans
    (keeps_writeProducts _)).trans (keeps_rewrite (hset.of_eases (Operator.eases_prepare _)))
  exact List.sublist_nil.1 (hconstants ▸ hkeeps.calls)

end Called

namespace Conversion

/-- The two LaTeX lines of a line are the same when it uses no function, no word stands directly
behind a constant, and no group is directly divided by a group when the operators are prepared. -/
theorem convert_asTyped_eq_typeset {s : Text} (hs : '\\' ∉ s)
    (huses : Call.usesFunctions s = false)
    (hjoined : ∀ k : KnownConstant, k.joinedCall.occurs s = false)
    (hgroups : occurs ")/(".toList
      (Operator.prepare (KnownConstant.replaceEach (squeeze s))) = false) :
    convert .asTyped s = convert .typeset s := by
  unfold convert
  split
  · rfl
  · have hcalls := Called.calls_rewrite_of_usesFunctions hs huses hjoined
    rw [Fraction.rewrite_asTyped (Fraction.reads_apart hgroups)] at hcalls
    show Operator.finish (Fraction.rewrite .asTyped (Operator.prepare
        (KnownConstant.replaceEach (squeeze s)))) =
      Operator.finish (KnownFunction.typesetEach (Fraction.rewrite .typeset (Operator.prepare
        (KnownConstant.replaceEach (squeeze s)))))
    rw [Fraction.rewrite_asTyped (Fraction.reads_apart hgroups), Called.typesetEach_of_calls hcalls]

/-- Constants and calls of other names look the same in both styles, also in divisions. -/
theorem convert_asTyped_eq_typeset_constants :
    '\\' ∉ "pi()*(a+1)/2 + random(e()/3, x^2)/[b]".toList ∧
      Call.usesFunctions "pi()*(a+1)/2 + random(e()/3, x^2)/[b]".toList = false ∧
      convert .asTyped "pi()*(a+1)/2 + random(e()/3, x^2)/[b]".toList =
        convert .typeset "pi()*(a+1)/2 + random(e()/3, x^2)/[b]".toList := by
  have hs : '\\' ∉ "pi()*(a+1)/2 + random(e()/3, x^2)/[b]".toList := by decide
  have huses : Call.usesFunctions "pi()*(a+1)/2 + random(e()/3, x^2)/[b]".toList = false := by
    decide +kernel
  refine ⟨hs, huses, convert_asTyped_eq_typeset hs huses ?_ (by decide +kernel)⟩
  rintro (_ | _) <;> decide +kernel

/-- In an argument, two groups with nothing but a slash between them show the style. -/
example :
    convert .asTyped "random((a)/(b))".toList ≠ convert .typeset "random((a)/(b))".toList := by
  decide +kernel

end Conversion

end CalcTypeset
