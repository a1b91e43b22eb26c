import CalcTypeset.Proofs.Settled

/-!
# The form of a LaTeX line

Whatever was typed, its LaTeX has no asterisk, no percent sign, no doubled degree mark, no gap wider
than a space and no gap at its ends, and each exponent that could do without braces has them.

An early pass sees to each of these and later ones could undo it: products go back to asterisks in
an argument, degree marks and carets are written with the calls, and blanks and parentheses that
kept two characters apart are dropped. Carets and degree marks are therefore read by gauges. What is
written beside an operand or an argument brings both to rest, and so does a gap of any width.
-/

namespace CalcTypeset

open Text

variable {s t : Text} {x : Char}

/-! ## Signs that are replaced -/

/-- A scan that begins a site at every sign of a kind leaves none, unless it writes one. -/
theorem Recogniser.not_mem_replaceAll {α : Type} {p : Recogniser α} {render : α → Text}
    (hread : ∀ r, p.read? (x :: r) ≠ none) (hrender : ∀ a, x ∉ render a) (s : Text) :
    x ∉ p.replaceAll render s := by
  induction s using scan_induction p with
  | nil => simp
  | read s a r hs ih =>
      rw [p.replaceAll_of_read render hs, List.mem_append, not_or]
      exact ⟨hrender a, ih⟩
  | pass c s hs ih =>
      rw [p.replaceAll_of_none render hs, List.mem_cons, not_or]
      exact ⟨fun hx => hread s (hx ▸ hs), ih⟩

theorem KnownFunction.not_mem_typesetEach (hframes : ∀ f : KnownFunction, ∀ p ∈ f.frames,
    x ∉ p.1 ∧ x ∉ p.2) (hs : x ∉ s) : x ∉ typesetEach s := by
  have hone : ∀ (f : KnownFunction) (s : Text), x ∉ s → x ∉ f.typesetCalls s := by
    intro f s
    refine Call.replaceAfter_rel (congruence_not_mem x) (fun t _ ht hmem => ?_) none s
    obtain ⟨p, hp, heq⟩ := f.exists_frame t
    rw [heq, List.mem_append, List.mem_append] at hmem
    rcases hmem with (hmem | hmem) | hmem
    · exact (hframes f p hp).1 hmem
    · exact ht (by simp [hmem])
    · exact (hframes f p hp).2 hmem
  exact List.foldlRecOn (motive := (x ∉ ·)) typesetOrder _ hs fun t ht f _ => hone f t ht

namespace Fraction

/-- Asterisks are back in an argument only while it is rewritten. -/
theorem not_mem_star_rewriteArgument (style : CallStyle) (s : Text) :
    '*' ∉ rewriteArgument style s :=
  Recogniser.not_mem_replaceAll (fun _ => Option.some_ne_none _) (fun _ => by decide) _

theorem not_mem_star_rewrite (style : CallStyle) (hs : '*' ∉ s) : '*' ∉ rewrite style s := by
  have hadmits : Admits fun s s' => '*' ∉ s → '*' ∉ s' := {
    congruence := congruence_not_mem '*'
    trans := fun h h' hs => h' (h hs)
    site := fun hsite hw hmem => (hsite.mem hmem).elim hw (by decide)
    argument := fun style s _ => not_mem_star_rewriteArgument style s }
  exact hadmits.rewrite style s hs

end Fraction

namespace Operator

theorem infixSign_read?_ne_none (hx : isBlank x = false) (r : Text) :
    (infixSign x).read? (x :: r) ≠ none := by
  have hread : (Recogniser.single x).read? (x :: r) = some ((), r) :=
    Recogniser.read?_single_eq_some_iff.2 rfl
  rw [infixSign, Recogniser.read?_spaced, skipBlanks_cons_of_not_isBlank r hx, hread]
  exact Option.some_ne_none _

theorem not_mem_star_writeProducts (s : Text) : '*' ∉ writeProducts s :=
  Recogniser.not_mem_replaceAll (infixSign_read?_ne_none (by decide)) (fun _ => by decide) s

theorem not_mem_percent_writeRemainders (s : Text) : '%' ∉ writeRemainders s :=
  Recogniser.not_mem_replaceAll (infixSign_read?_ne_none (by decide)) (fun _ => by decide) s

theorem not_mem_writeRemainders (hx : x ∉ Markup.modulo) (hs : x ∉ s) : x ∉ writeRemainders s :=
  Recogniser.replaceAll_rel (congruence_not_mem x) (meets_infixSign '%') (fun _ _ _ _ _ => hx) s hs

theorem not_mem_mergeDegrees (hx : x ≠ Markup.degree) (hs : x ∉ s) : x ∉ mergeDegrees s :=
  Recogniser.replaceAll_rel (congruence_not_mem x)
    ((Recogniser.meets_run fun c => c = Markup.degree).filter _)
    (fun _ _ _ _ _ hmem => hx (List.mem_singleton.1 hmem)) s hs

theorem not_mem_finish (hspace : x ≠ ' ') (hx : x ≠ Markup.degree) (hs : x ∉ writeRemainders s) :
    x ∉ finish s := fun hmem =>
  (mem_squeeze hmem).elim hspace (not_mem_mergeDegrees hx hs)

/-! ## Exponents -/

/-- Whether the text begins with a bare exponent: a minus sign, which may be missing, and an
exponent character. -/
def startsExponent : Text → Bool
  | [] => false
  | c :: s => isExponentChar c || (c = '-' && s.head?.any isExponentChar)

/-- What stands in front, as far as it matters to an exponent. -/
inductive Lead where
  | other
  | caret
  /-- A caret and a minus sign. -/
  | minus
deriving DecidableEq

/-- The state behind a character; none where a bare exponent follows a caret. -/
def Lead.step (q : Lead) (c : Char) : Option Lead :=
  if c = '^' then some caret
  else
    match q with
    | other => some other
    | caret => if isExponentChar c then none else some (if c = '-' then minus else other)
    | minus => if isExponentChar c then none else some other

/-- What may follow in a state. -/
def Lead.Allows : Lead → Text → Prop
  | other, _ => True
  | caret, s => startsExponent s = false
  | minus, s => s.head?.any isExponentChar = false

/-- No caret is followed by a bare exponent. -/
def carets : Gauge Lead := .flat Lead.step .other fun {q r c} h => by
  by_cases hc : c = '^'
  · subst hc
    exact .inl h
  · exact .inr (if_neg hc)

theorem carets_step (q : Lead) (c : Char) : carets.step q c = q.step c := rfl

theorem carets_step_caret (q : Lead) : carets.step q '^' = some .caret := by
  cases q <;> rfl

theorem isExponentChar_caret : isExponentChar '^' = false := by decide +kernel

/-- A character is read where it is allowed, and behind it the rest is allowed, unless the two are a
power. -/
theorem Lead.exists_step {q : Lead} {c : Char} (h : q.Allows (c :: s))
    (hpower : c = '^' → startsExponent s = false) :
    ∃ m, carets.step q c = some m ∧ m.Allows s := by
  by_cases hc : c = '^'
  · subst hc
    exact ⟨.caret, carets_step_caret q, hpower rfl⟩
  · cases q with
    | other => exact ⟨.other, by rw [carets_step, step, if_neg hc], trivial⟩
    | minus =>
        replace h : isExponentChar c = false := h
        exact ⟨.other, by simp [carets_step, step, hc, h], trivial⟩
    | caret =>
        simp only [Allows, startsExponent, Bool.or_eq_false_iff] at h
        by_cases hminus : c = '-'
        · subst hminus
          exact ⟨.minus, by simp [carets_step, step, h.1], by simpa [Allows] using h.2⟩
        · exact ⟨.other, by simp [carets_step, step, hc, h.1, hminus], trivial⟩

/-- What can be read from a state is allowed there. -/
theorem Lead.allows_of_follow {q r : Lead} (h : carets.follow q s = some r) : q.Allows s := by
  have hstep : ∀ {q m : Lead} {c}, q ≠ other → carets.step q c = some m →
      isExponentChar c = false := by
    intro q m c hq hm
    have hcaret := isExponentChar_caret
    cases q <;> grind [carets_step, step]
  cases s with
  | nil => cases q <;> trivial
  | cons c s =>
      obtain ⟨m, hm, hr⟩ := Option.bind_eq_some_iff.1 h
      cases q with
      | other => trivial
      | minus => exact hstep (q := minus) (by decide) hm
      | caret =>
          have hc := hstep (q := caret) (by decide) hm
          cases s with
          | nil => simp [Allows, startsExponent, hc]
          | cons d s =>
              obtain ⟨m', hm', -⟩ := Option.bind_eq_some_iff.1 hr
              have hd : c = '-' → isExponentChar d = false := fun hminus =>
                hstep (q := m) (by grind [carets_step, step]) hm'
              simpa [Allows, startsExponent, hc] using hd

theorem settles_carets : carets.SettlesAtCalls .other where
  least _ := .inr rfl
  blank q c hc := by
    have hexponent : isExponentChar c = false := eq_false_of_isBlank (by decide +kernel) hc
    have hne : c ≠ '^' ∧ c ≠ '-' := by
      constructor <;> rintro rfl <;> exact absurd hc (by decide)
    cases q <;> simp [carets_step, Lead.step, hexponent, hne]
  opening q := by cases q <;> decide +kernel
  closing q := by cases q <;> decide +kernel
  fracOpen q := by cases q <;> decide +kernel
  star q := by cases q <;> decide +kernel
  times q := by cases q <;> decide +kernel
  front {f p q r} hp h := by
    have hframes : (carets.follow q (f.name ++ ['('])).isSome = true →
        ∀ p ∈ f.frames, carets.follow q p.1 = some .other := by
      cases q <;> cases f <;> decide +kernel
    exact hframes (by rw [h]; rfl) p hp
  back {f p} hp q := by
    have hframes : ∀ p ∈ f.frames, carets.follow q p.2 = some .other := by
      cases q <;> cases f <;> decide +kernel
    exact hframes p hp

theorem startsExponent_of_read? (h : exponent.read? s = none) : startsExponent s = false := by
  rw [exponent, Recogniser.read?_orElse, Option.orElse_eq_orElse, Option.orElse_eq_or,
    Option.or_eq_none_iff, Recogniser.read?_run, run?_eq_none_iff] at h
  cases s with
  | nil => rfl
  | cons c s =>
      have hsigned : c = '-' → s.head?.any isExponentChar = false := by
        rintro rfl
        have hnone : (Recogniser.run isExponentChar).read? s = none := by
          simpa [Recogniser.single, Recogniser.literal, after?] using h.1
        rw [Option.any_eq_false]
        exact fun d hd => run?_eq_none_iff.1 hnone d hd
      simpa [startsExponent, h.2 c rfl] using hsigned

/-- Powers get their braces. -/
theorem reads_bracePowers (s : Text) : carets.Reads (bracePowers s) := by
  refine ⟨.other, Gauge.follow_replaceAll Lead.Allows ?_ ?_ trivial⟩
  · intro q s e r hs _
    obtain ⟨w, rfl, rfl, -, he, -⟩ := meets_power s e r hs
    have hreads : carets.follow .other e = some .other := Gauge.follow_of_idle fun c hc => by
      have hne : c ≠ '^' := by
        rintro rfl
        rcases he _ hc with h | h
        · exact absurd h (by decide)
        · rw [isExponentChar_caret] at h
          cases h
      rw [carets_step, Lead.step, if_neg hne]
    exact ⟨.other, settles_carets.follow_braced ⟨_, _, hreads⟩ .caret, trivial⟩
  · intro q c s hs h
    refine Lead.exists_step h fun hc => startsExponent_of_read? ?_
    subst hc
    have hread : (Recogniser.single '^').read? ('^' :: s) = some ((), s) :=
      Recogniser.read?_single_eq_some_iff.2 rfl
    rwa [power, Recogniser.read?_bind, hread] at hs

theorem eases_writeRemainders (s : Text) : carets.Eases s (writeRemainders s) :=
  Recogniser.replaceAll_rel carets.congruence_eases (meets_infixSign '%') (fun _ _ _ _ =>
    settles_carets.eases_of_follow fun q _ _ => by cases q <;> decide +kernel) s

theorem eases_mergeDegrees (s : Text) : carets.Eases s (mergeDegrees s) :=
  Recogniser.replaceAll_rel carets.congruence_eases
    ((Recogniser.meets_run fun c => c = Markup.degree).filter _) (fun _ _ _ _ =>
      settles_carets.eases_of_follow fun q _ _ => by cases q <;> decide +kernel) s

theorem reads_finish (hs : carets.Reads s) : carets.Reads (finish s) :=
  settles_carets.reads_squeeze
    ((hs.of_eases (eases_writeRemainders s)).of_eases (eases_mergeDegrees _))

/-! ## Degree marks -/

/-- The state behind a character, which tells whether it is a degree mark; none at a second one. -/
def markStep (marked : Bool) (c : Char) : Option Bool :=
  if c = Markup.degree then if marked then none else some true
  else some false

/-- No degree mark is followed by another one. -/
def degrees : Gauge Bool := .flat markStep false fun {marked r c} h => by
  by_cases hc : c = Markup.degree
  · cases marked with
    | false => exact .inl h
    | true => rw [markStep, if_pos hc, if_pos rfl] at h; cases h
  · exact .inr (if_neg hc)

theorem rests_degrees : degrees.Rests false where
  least _ := .inr rfl
  blank q c hc := by
    have hne : c ≠ Markup.degree := by rintro rfl; exact absurd hc (by decide)
    exact if_neg hne

theorem reads_mergeDegrees (s : Text) : degrees.Reads (mergeDegrees s) := by
  refine ⟨false, Gauge.follow_replaceAll
    (fun marked s => marked = true → ∀ c ∈ s.head?, c ≠ Markup.degree) ?_ ?_
      (absurd · Bool.false_ne_true)⟩
  · intro marked s w r hs hmarked
    obtain ⟨hw, -⟩ := Option.filter_eq_some_iff.1 hs
    obtain ⟨c, w, rfl⟩ := List.exists_cons_of_ne_nil (run?_ne_nil hw)
    have hc : c = Markup.degree := of_decide_eq_true (run?_all hw c (by simp))
    have hfree : marked = false := Bool.eq_false_iff.2 fun hm =>
      hmarked hm c (by rw [run?_eq_append hw]; rfl) hc
    subst hfree
    exact ⟨true, rfl, fun _ c hc => of_decide_eq_false (run?_head hw c hc)⟩
  · intro marked c s hs hmarked
    by_cases hc : c = Markup.degree
    · -- A mark that is passed is not followed by another one.
      have hfree : marked = false := Bool.eq_false_iff.2 fun hm => hmarked hm c rfl hc
      refine ⟨true, by rw [hfree, hc]; rfl, fun _ d hd he => ?_⟩
      obtain ⟨s, rfl⟩ := List.head?_eq_some_iff.1 hd
      rw [hc, he, degreeRun, Recogniser.read?_filter, Recogniser.read?_run] at hs
      simp [run?, Option.filter] at hs
    · exact ⟨false, if_neg hc, (absurd · Bool.false_ne_true)⟩

theorem occurs_degrees (hs : degrees.Reads s) :
    Text.occurs [Markup.degree, Markup.degree] s = false := by
  rw [Bool.eq_false_iff, Ne, occurs_iff]
  rintro ⟨a, b, rfl⟩
  obtain ⟨q, r, h⟩ := hs.of_isInfix ⟨a, b, rfl⟩
  cases q <;> cases h

end Operator

/-! ## The conversion -/

open Operator

/-- The form of a LaTeX line. -/
structure IsNormal (t : Text) : Prop where
  star : '*' ∉ t
  percent : '%' ∉ t
  degrees : Text.occurs [Markup.degree, Markup.degree] t = false
  /-- A blank is a space, and stands between two characters that are none. -/
  gaps : ∀ a c b, t = a ++ c :: b → isBlank c = true →
    c = ' ' ∧ (∃ x ∈ a.getLast?, isBlank x = false) ∧ ∃ y ∈ b.head?, isBlank y = false
  carets : ∀ a b, t = a ++ '^' :: b → startsExponent b = false

theorem isNormal_nil : IsNormal [] where
  star := List.not_mem_nil
  percent := List.not_mem_nil
  degrees := rfl
  gaps a _ _ h := by cases a <;> cases h
  carets a _ h := by cases a <;> cases h

/-- The last stage sees to the form, when the stages before it see to products and exponents. -/
theorem Operator.isNormal_finish (hstar : '*' ∉ s) (hcarets : Operator.carets.Reads s) :
    IsNormal (finish s) where
  star := not_mem_finish (by decide) (by decide) (not_mem_writeRemainders (by decide) hstar)
  percent := not_mem_finish (by decide) (by decide) (not_mem_percent_writeRemainders s)
  degrees := occurs_degrees (rests_degrees.reads_squeeze (reads_mergeDegrees _))
  gaps a c b h hc := by
    obtain ⟨hspace, hnext, hlast⟩ := space_of_squeezeAfter h hc
    refine ⟨hspace, ?_, hnext⟩
    cases ha : a.getLast? with
    | some x => exact ⟨x, rfl, hlast x ha⟩
    | none =>
        -- The line would begin with the blank.
        obtain rfl := List.getLast?_eq_none_iff.1 ha
        have hhead : c ∈ (finish s).head? := by rw [h]; rfl
        rw [isBlank_of_mem_head?_squeeze hhead] at hc
        cases hc
  carets a b h := by
    obtain ⟨q, r, hr⟩ := reads_finish hcarets
    rw [h] at hr
    obtain ⟨m, -, hb⟩ := Gauge.follow_append_eq_some_iff.1 hr
    rw [Gauge.follow_cons, carets_step_caret] at hb
    exact Lead.allows_of_follow (q := .caret) hb

/-- Every LaTeX line is in normal form. -/
theorem Conversion.isNormal_convert (style : CallStyle) (s : Text) :
    IsNormal (convert style s) := by
  unfold convert
  split
  · exact isNormal_nil
  · have hprepared : ∀ t, '*' ∉ prepare t ∧ Operator.carets.Reads (prepare t) := fun t =>
      ⟨not_mem_star_writeProducts _,
        (reads_bracePowers t).of_eases (settles_carets.eases_writeProducts _)⟩
    have hdivided : ∀ t, '*' ∉ t ∧ Operator.carets.Reads t →
        '*' ∉ Fraction.rewrite style t ∧ Operator.carets.Reads (Fraction.rewrite style t) :=
      fun t ht => ⟨Fraction.not_mem_star_rewrite style ht.1,
        ht.2.of_eases (settles_carets.eases_rewrite style t)⟩
    have hcalls : ∀ t, '*' ∉ t ∧ Operator.carets.Reads t →
        '*' ∉ KnownFunction.typesetEach t ∧
          Operator.carets.Reads (KnownFunction.typesetEach t) := fun t ht =>
      ⟨KnownFunction.not_mem_typesetEach (fun f => by cases f <;> decide) ht.1,
        ht.2.of_eases (settles_carets.eases_typesetEach t)⟩
    have hline := hdivided _ (hprepared (KnownConstant.replaceEach (squeeze s)))
    cases style with
    | asTyped => exact isNormal_finish hline.1 hline.2
    | typeset => exact isNormal_finish (hcalls _ hline).1 (hcalls _ hline).2

/-- A product and a power that are divided in an argument, a degree mark that is typed and written,
and a remainder. -/
example : Conversion.convert .typeset " dtor(a * b^2/c + x°)  % 2 ".toList =
    "dtor(\\frac\x7ba\\times b^\x7b2\x7d\x7d\x7bc\x7d + x°) \\bmod 2".toList := by
  decide +kernel

end CalcTypeset
