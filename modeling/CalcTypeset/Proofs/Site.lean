import CalcTypeset.Fraction.Line
import CalcTypeset.Proofs.Reading
import CalcTypeset.Variable

/-!
# Division sites

Every pass over the divisions reads sites of one shape: a dividend, a slash with blanks around it,
and a divisor. What differs is how the two operands are cut out of the line. This file gives each
operand its contract, and from them the one contract `IsSite` that all sites of all passes meet:
an operand is written as it stood, or it was a flat group and its parentheses were dropped or its
content was braced.
-/

namespace CalcTypeset

open Text

namespace Bracket

theorem meets_group :
    group.Meets fun w t _ => w = Markup.parenthesised t ∧ IsBalanced '(' ')' t := by
  intro s t r hs
  obtain ⟨rfl, ht⟩ := group?_eq_some_iff.1 hs
  exact ⟨Markup.parenthesised t, by simp [Markup.parenthesised], rfl, ht⟩

end Bracket

namespace Call

theorem meets_flatGroup :
    flatGroup.Meets fun w t _ => w = Markup.parenthesised t ∧ ')' ∉ t := by
  refine ((Recogniser.meets_single '(').bind fun _ => Recogniser.meets_upTo ')').mono ?_
  rintro w t r ⟨_, _, _, rfl, rfl, rfl, ht⟩
  exact ⟨by simp [Markup.parenthesised], ht⟩

theorem meets_flatCall :
    flatCall.Meets fun w c _ => w = c.write ∧ c.name ≠ [] ∧
      (∀ x ∈ c.name, isWordChar x = true) ∧ ')' ∉ c.content := by
  refine ((Recogniser.meets_run isWordChar).bind fun name =>
    meets_flatGroup.map fun content => Call.mk name content).mono ?_
  rintro w c r ⟨_, name, _, rfl, ⟨rfl, hne, hname, -⟩, content, ⟨rfl, hcontent⟩, rfl⟩
  exact ⟨rfl, hne, hname, hcontent⟩

theorem flatGroup_read?_eq_none {c : Char} (hc : c ≠ '(') (r : Text) :
    flatGroup.read? (c :: r) = none :=
  Recogniser.read?_bind_eq_none (Recogniser.read?_single_eq_none hc r) _

end Call

namespace Fraction

/-- A slash with blanks around it. -/
def IsSlash (g : Text) : Prop :=
  ∃ b b', g = b ++ '/' :: b' ∧ (∀ c ∈ b, isBlank c = true) ∧ ∀ c ∈ b', isBlank c = true

/-- An operand as it stood in the line and as it is written into the fraction. -/
inductive Taken : Text → Text → Prop
  /-- The operand is written as it stood. -/
  | whole (t : Text) : Taken t t
  /-- The operand was a flat group, and its parentheses are dropped. -/
  | bare {t : Text} (h : ')' ∉ t) : Taken (Markup.parenthesised t) t
  /-- The operand was a flat group, and its content is braced. -/
  | braced {t : Text} (h : ')' ∉ t) :
      Taken (Markup.parenthesised t) (Markup.parenthesised (Markup.braced t))

/-- The operand ends at a bracket that closes it, or where no further character of a term
follows, or where a multiplicative term may end. -/
def EndsClear (w r : Text) : Prop :=
  w.getLast? = some ')' ∨ w.getLast? = some '}' ∨ (∀ c ∈ r.head?, isTermChar c = false) ∨
    endsTerm r = true

/-- An operand was cut out of the line in front of `r`. -/
def IsOperand (w t r : Text) : Prop := Taken w t ∧ w ≠ [] ∧ EndsClear w r

/-- A division site: what was taken, the quotient it was read as, and the rest. -/
def IsSite (w : Text) (q : Quotient) (r : Text) : Prop :=
  ∃ n g d, w = n ++ g ++ d ∧ IsSlash g ∧ Taken n q.dividend ∧ n ≠ [] ∧ IsOperand d q.divisor r

/-! ## Terms -/

theorem toNat_of_isNameChar {c : Char} (h : Variable.isNameChar c = true) :
    0x30 ≤ c.toNat ∧ c.toNat ≤ 0x7A := by
  delta Variable.isNameChar Char.isAlphanum Char.isAlpha Char.isUpper Char.isLower
    Char.isDigit at h
  simp only [Bool.or_eq_true, Bool.and_eq_true, decide_eq_true_eq, ge_iff_le,
    UInt32.le_iff_toNat_le, Char.toNat_val, Char.reduceToNat] at h
  rcases h with ((h | h) | h) | rfl
  · omega
  · omega
  · omega
  · decide

/-- The characters of a name are characters of a term. -/
theorem isTermChar_of_isNameChar {c : Char} (h : Variable.isNameChar c = true) :
    isTermChar c = true := by
  have hbounds := toNat_of_isNameChar h
  have hblank : isBlank c = false := by
    simp only [isBlank, Bool.or_eq_false_iff, Bool.and_eq_false_iff, decide_eq_false_iff_not]
    omega
  have hne : c ≠ '/' ∧ c ≠ '(' ∧ c ≠ ')' := by
    refine ⟨?_, ?_, ?_⟩ <;> rintro rfl <;> exact absurd hbounds (by decide)
  simp [isTermChar, hblank, hne]

theorem isBlank_of_isTermChar {c : Char} (h : isTermChar c = true) : isBlank c = false := by
  cases hb : isBlank c with
  | false => rfl
  | true => simp [isTermChar, hb] at h

/-- No blank is a letter or a character with a numeric value. -/
theorem isWordChar_of_isBlank {c : Char} (h : isBlank c = true) : isWordChar c = false :=
  eq_false_of_isBlank (by decide +kernel) h

theorem isBlank_of_isWordChar {c : Char} (h : isWordChar c = true) : isBlank c = false :=
  Bool.eq_false_iff.2 fun hb => Bool.false_ne_true ((isWordChar_of_isBlank hb).symm.trans h)

/-! ## Slashes -/

theorem isSlash_singleton : IsSlash ['/'] := ⟨[], [], rfl, by simp, by simp⟩

theorem IsSlash.exists_cons {g : Text} (h : IsSlash g) :
    ∃ c x, g = c :: x ∧ isTermChar c = false := by
  obtain ⟨b, b', rfl, hb, -⟩ := h
  cases b with
  | nil => exact ⟨'/', b', rfl, by decide⟩
  | cons c b => exact ⟨c, b ++ '/' :: b', rfl, by simp [isTermChar, hb c (by simp)]⟩

theorem IsSite.mem_slash {w r : Text} {q : Quotient} (h : IsSite w q r) : '/' ∈ w := by
  obtain ⟨n, g, d, rfl, ⟨b, b', rfl, -⟩, -⟩ := h
  simp

theorem meets_tightSlash : tightSlash.Meets fun w _ _ => IsSlash w :=
  (Recogniser.meets_single '/').mono fun _ _ _ h => h ▸ isSlash_singleton

theorem meets_spacedSlash : spacedSlash.Meets fun w _ _ => IsSlash w := by
  refine (Recogniser.meets_single '/').spaced.mono ?_
  rintro w _ r ⟨b, _, b', rfl, hb, hb', rfl⟩
  exact ⟨b, b', by simp, hb, hb'⟩

/-! ## Operands -/

theorem meets_term : term.Meets IsOperand := by
  refine (Recogniser.meets_run isTermChar).mono ?_
  rintro w t r ⟨rfl, hne, -, hr⟩
  exact ⟨.whole _, hne, .inr (.inr (.inl hr))⟩

theorem endedTerm?_spec {s t r : Text} (h : endedTerm? s = some (t, r)) :
    s = t ++ r ∧ t ≠ [] ∧ (∀ c ∈ t, isTermChar c = true) ∧ endsTerm r = true := by
  induction s generalizing t with
  | nil => simp [endedTerm?] at h
  | cons c s ih =>
      rw [endedTerm?] at h
      split at h
      · next hc =>
          split at h
          · next t' r' ht =>
              obtain ⟨rfl, rfl⟩ := Prod.mk.inj (Option.some.inj h)
              obtain ⟨rfl, -, htc, hr⟩ := ih ht
              exact ⟨rfl, by simp, by simpa [hc] using htc, hr⟩
          · split at h
            · next he =>
                obtain ⟨rfl, rfl⟩ := Prod.mk.inj (Option.some.inj h)
                exact ⟨rfl, by simp, by simpa using hc, he⟩
            · cases h
      · cases h

theorem meets_endedTerm : endedTerm.Meets IsOperand := by
  intro s t r hs
  obtain ⟨rfl, hne, -, hr⟩ := endedTerm?_spec hs
  exact ⟨t, rfl, .whole t, hne, .inr (.inr (.inr hr))⟩

theorem getLast?_parenthesised (t : Text) : (Markup.parenthesised t).getLast? = some ')' := by
  rw [Markup.parenthesised, List.getLast?_concat]

theorem parenthesised_ne_nil (t : Text) : Markup.parenthesised t ≠ [] := by
  simp [Markup.parenthesised]

theorem getLast?_write (c : Call) : c.write.getLast? = some ')' := by
  rw [Call.write, List.getLast?_append, getLast?_parenthesised]
  rfl

theorem write_ne_nil (c : Call) : c.write ≠ [] := by
  simp [Call.write, Markup.parenthesised]

theorem meets_groupContent : groupContent.Meets IsOperand := by
  refine (Call.meets_flatGroup.filter _).mono ?_
  rintro w t r ⟨⟨rfl, ht⟩, -⟩
  exact ⟨.bare ht, parenthesised_ne_nil t, .inl (getLast?_parenthesised t)⟩

theorem meets_group : group.Meets IsOperand := by
  refine ((Call.meets_flatGroup.filter _).map _).mono ?_
  rintro w _ r ⟨t, ⟨⟨rfl, -⟩, -⟩, rfl⟩
  exact ⟨.whole _, parenthesised_ne_nil t, .inl (getLast?_parenthesised t)⟩

theorem meets_markupContent : markupContent.Meets IsOperand := by
  refine (Call.meets_flatGroup.filter _).mono ?_
  rintro w t r ⟨⟨rfl, ht⟩, -⟩
  exact ⟨.bare ht, parenthesised_ne_nil t, .inl (getLast?_parenthesised t)⟩

theorem meets_markupGroup : (markupContent.map Markup.parenthesised).Meets IsOperand := by
  refine ((Call.meets_flatGroup.filter _).map _).mono ?_
  rintro w _ r ⟨t, ⟨⟨rfl, -⟩, -⟩, rfl⟩
  exact ⟨.whole _, parenthesised_ne_nil t, .inl (getLast?_parenthesised t)⟩

theorem meets_bracedGroup :
    (groupContent.map fun t => Markup.parenthesised (Markup.braced t)).Meets IsOperand := by
  refine ((Call.meets_flatGroup.filter _).map _).mono ?_
  rintro w _ r ⟨t, ⟨⟨rfl, ht⟩, -⟩, rfl⟩
  exact ⟨.braced ht, parenthesised_ne_nil t, .inl (getLast?_parenthesised t)⟩

theorem meets_call : call.Meets IsOperand := by
  refine (Call.meets_flatCall.map _).mono ?_
  rintro w _ r ⟨c, ⟨rfl, -⟩, rfl⟩
  exact ⟨.whole _, write_ne_nil c, .inl (getLast?_write c)⟩

theorem meets_filledCall : filledCall.Meets IsOperand := by
  refine ((Call.meets_flatCall.filter _).map _).mono ?_
  rintro w _ r ⟨c, ⟨⟨rfl, -⟩, -⟩, rfl⟩
  exact ⟨.whole _, write_ne_nil c, .inl (getLast?_write c)⟩

theorem meets_endedCall : endedCall.Meets IsOperand :=
  (meets_call.followedBy endsTerm).mono fun _ _ _ h => h.1

theorem meets_exponent :
    exponent.Meets fun w e _ => w = e ∧ ∃ t, '}' ∉ t ∧ e = '^' :: Markup.braced t := by
  refine ((Recogniser.meets_literal ['^', '{'] (List.cons_ne_nil _ _)).bind fun _ =>
    ((Recogniser.meets_upTo '}').filter _).map fun t => '^' :: Markup.braced t).mono ?_
  rintro w _ r ⟨_, _, _, rfl, rfl, t, ⟨⟨rfl, ht⟩, -⟩, rfl⟩
  exact ⟨by simp [Markup.braced], t, ht, rfl⟩

/-- An operand that is written as it stood may carry an exponent. -/
theorem meets_withExponent {p : Recogniser Text}
    (hp : p.Meets fun w t _ => w = t ∧ w.getLast? = some ')') :
    (withExponent p).Meets IsOperand := by
  refine ((hp.bind fun t => meets_exponent.map fun e => t ++ e).orElse hp).mono ?_
  rintro w t r (⟨v, _, _, rfl, ⟨rfl, -⟩, e, ⟨rfl, x, -, rfl⟩, rfl⟩ | ⟨rfl, hlast⟩)
  · refine ⟨.whole _, by simp, .inr (.inl ?_)⟩
    rw [Markup.braced, ← List.cons_append, ← List.append_assoc, List.getLast?_concat]
  · exact ⟨.whole _, fun h => by simp [h] at hlast, .inl hlast⟩

/-! ## Sites -/

theorem meets_division {n d : Recogniser Text} {slash : Recogniser Unit}
    (hn : n.Meets IsOperand) (hslash : slash.Meets fun w _ _ => IsSlash w)
    (hd : d.Meets IsOperand) : (division n slash d).Meets IsSite := by
  refine (hn.bind fun n => hslash.bind fun _ => hd.map fun d => Quotient.mk n d).mono ?_
  rintro w q r ⟨v, n, _, rfl, ⟨hn, hne, -⟩, g, _, _, rfl, hg, d, hd, rfl⟩
  exact ⟨v, g, _, by simp, hg, hn, hne, hd⟩

theorem meets_finish : ProductNotation.finish.Meets fun w q r =>
    ∃ g, w = g ++ q.divisor ∧ IsSlash g ∧ q.dividend = [] ∧ IsOperand q.divisor q.divisor r := by
  refine ((meets_spacedSlash.bind fun _ => Recogniser.meets_run isTermChar).map _).mono ?_
  rintro w q r ⟨_, ⟨g, _, d, rfl, hg, rfl, hne, -, hr⟩, rfl⟩
  exact ⟨g, rfl, hg, rfl, .whole _, hne, .inr (.inr (.inl hr))⟩

namespace ProductNotation

variable {f : ProductNotation}

theorem meets_factorStart (hf : f.whole.Meets fun w t _ => w = t) :
    f.factorStart.Meets fun w x _ => w = x.1 ∧ (x.2 = .later → w ≠ []) := by
  refine (((Recogniser.meets_char f.isFactorChar).map _).orElse (hf.map _)).mono ?_
  rintro w _ r (⟨c, ⟨rfl, -⟩, rfl⟩ | ⟨t, rfl, rfl⟩)
  · exact ⟨rfl, by simp⟩
  · exact ⟨rfl, by simp⟩

theorem nextFactor?_eq_append (hf : f.whole.Meets fun w t _ => w = t) {s t r : Text}
    {st : FactorState} (h : f.nextFactor? s = some (t, st, r)) : s = t ++ r := by
  obtain ⟨r₁, h₁, h⟩ := Option.bind_eq_some_iff.1 h
  obtain ⟨⟨⟨v, st'⟩, r₂⟩, h₂, he⟩ := Option.map_eq_some_iff.1 h
  cases he
  obtain ⟨_, hv, rfl, -⟩ := meets_factorStart hf _ _ _ h₂
  have hs : s = s.takeWhile isBlank ++ skipBlanks s := (List.takeWhile_append_dropWhile).symm
  have hr : r₁ = r₁.takeWhile isBlank ++ skipBlanks r₁ :=
    (List.takeWhile_append_dropWhile).symm
  rw [after?_eq_some_iff.1 h₁] at hs
  rw [hv] at hr
  simp only [List.append_assoc]
  rw [← hr]
  exact hs

/-- A product is read on by going on with the factor, else by taking a further one, else by
ending it. -/
theorem continue?_eq (st : FactorState) (s : Text) :
    f.continue? st s =
      ((match s with
        | [] => none
        | c :: s => if f.accepts st c then (f.continue? st s).map (prepend [c]) else none).or
      (((f.nextFactor? s).bind fun x => (f.continue? x.2.1 x.2.2).map (prepend x.1)).or
        (if st = FactorState.first then none else finish.read? s))) := by
  rw [continue?.eq_def]
  simp only [Option.orElse_eq_orElse, Option.orElse_eq_or]
  congr 2
  cases f.nextFactor? s <;> rfl

/-- What is left of a product is its dividend, a slash and the divisor. -/
theorem continue?_spec (hf : f.whole.Meets fun w t _ => w = t) {st : FactorState} {s r : Text}
    {q : Quotient} (h : f.continue? st s = some (q, r)) :
    ∃ g, s = q.dividend ++ g ++ q.divisor ++ r ∧ IsSlash g ∧
      IsOperand q.divisor q.divisor r := by
  induction h using continue?_induction with
  | extend c s hc ih =>
      obtain ⟨g, rfl, hg, hd⟩ := ih
      exact ⟨g, by simp, hg, hd⟩
  | factor s t st' s' hn ih =>
      obtain ⟨g, rfl, hg, hd⟩ := ih
      refine ⟨g, ?_, hg, hd⟩
      rw [nextFactor?_eq_append hf hn]
      simp
  | finish s q r hst h =>
      obtain ⟨_, rfl, g, rfl, hg, hnil, hd⟩ := meets_finish _ _ _ h
      exact ⟨g, by rw [hnil]; simp, hg, hd⟩

theorem overTerm_read?_cons (c : Char) (s : Text) : f.overTerm.read? (c :: s) =
    if isTermChar c then (f.continue? .first s).map (prepend [c]) else none := by
  cases hc : isTermChar c with
  | false => simp [overTerm, Recogniser.char, hc]
  | true =>
      have hchar : (Recogniser.char isTermChar).read? (c :: s) = some (c, s) := if_pos hc
      rw [overTerm, Recogniser.read?_bind, hchar]
      rfl

/-- A product over a term begins with a term character, and is read on behind it. -/
theorem exists_continue?_of_overTerm {s r : Text} {q : Quotient}
    (h : f.overTerm.read? s = some (q, r)) :
    ∃ c t q', s = c :: t ∧ isTermChar c = true ∧ f.continue? .first t = some (q', r) ∧
      q = ⟨c :: q'.dividend, q'.divisor⟩ := by
  cases s with
  | nil => cases h
  | cons c t =>
      rw [overTerm_read?_cons] at h
      split at h
      · next hc =>
          obtain ⟨⟨q', r'⟩, hq', he⟩ := Option.map_eq_some_iff.1 h
          cases he
          exact ⟨c, t, q', rfl, hc, hq', rfl⟩
      · cases h

theorem meets_overTerm (hf : f.whole.Meets fun w t _ => w = t) : f.overTerm.Meets IsSite := by
  intro s q r hs
  obtain ⟨c, t, q', rfl, -, hq', rfl⟩ := exists_continue?_of_overTerm hs
  obtain ⟨g, rfl, hg, hd⟩ := continue?_spec hf hq'
  exact ⟨[c] ++ q'.dividend ++ g ++ q'.divisor, by simp, c :: q'.dividend, g, q'.divisor,
    by simp, hg, .whole _, by simp, hd⟩

end ProductNotation

theorem meets_reference : Reference.reference.Meets fun w name _ =>
    w = Reference.write name ∧ name ≠ [] ∧ ']' ∉ name := by
  refine ((Recogniser.meets_single '[').bind fun _ =>
    (Recogniser.meets_upTo ']').filter _).mono ?_
  rintro w name r ⟨_, _, _, rfl, rfl, ⟨rfl, hmem⟩, hne⟩
  exact ⟨by simp [Reference.write], by simpa using hne, hmem⟩

theorem meets_argumentProduct : argumentProduct.overTerm.Meets IsSite := by
  refine ProductNotation.meets_overTerm ((meets_reference.map _).mono ?_)
  rintro w t r ⟨_, ⟨rfl, -⟩, rfl⟩
  rfl

theorem meets_lineProduct : lineProduct.overTerm.Meets IsSite :=
  ProductNotation.meets_overTerm Recogniser.meets_never

theorem meets_powerGroup : (withExponent group).Meets IsOperand := by
  refine meets_withExponent (((Call.meets_flatGroup.filter _).map _).mono ?_)
  rintro w _ r ⟨t, ⟨⟨rfl, -⟩, -⟩, rfl⟩
  exact ⟨rfl, getLast?_parenthesised t⟩

theorem meets_powerCall : (withExponent filledCall).Meets IsOperand := by
  refine meets_withExponent (((Call.meets_flatCall.filter _).map _).mono ?_)
  rintro w _ r ⟨c, ⟨⟨rfl, -⟩, -⟩, rfl⟩
  exact ⟨rfl, getLast?_write c⟩

/-- The groups that are divided by each other in an argument. -/
def argumentGroups : CallStyle → Recogniser Text
  | .asTyped => group
  | .typeset => groupContent

/-! What is said of a list of sites is said of each kind of site. -/

section

variable {P : Recogniser Quotient → Prop} {style : CallStyle}

theorem forall_argumentSites : (∀ p ∈ argumentSites style, P p) ↔ P argumentProduct.overTerm ∧
    P (division term spacedSlash call) ∧
    P (division (argumentGroups style) tightSlash (argumentGroups style)) ∧
    P (division term spacedSlash term) := by
  cases style <;> simp only [argumentSites, argumentGroups, List.forall_mem_cons,
    List.not_mem_nil, false_imp_iff, implies_true, and_true]

theorem forall_groupSites : (∀ p ∈ groupSites style, P p) ↔ P (markupGroups style) ∧
    P plainGroups ∧ P (division (withExponent filledCall) spacedSlash term) ∧
    P (division (withExponent group) spacedSlash term) := by
  simp only [groupSites, List.forall_mem_cons, List.not_mem_nil, false_imp_iff, implies_true,
    and_true]

theorem forall_basicSites : (∀ p ∈ basicSites, P p) ↔
    P (division (withExponent group) spacedSlash groupContent) ∧ P lineProduct.overTerm ∧
    P (division term spacedSlash endedCall) ∧ P (division term spacedSlash endedTerm) := by
  simp only [basicSites, List.forall_mem_cons, List.not_mem_nil, false_imp_iff, implies_true,
    and_true]

end

theorem meets_argumentSites (style : CallStyle) :
    ∀ p ∈ argumentSites style, p.Meets IsSite := by
  refine forall_argumentSites.2 ⟨meets_argumentProduct,
    meets_division meets_term meets_spacedSlash meets_call, ?_,
    meets_division meets_term meets_spacedSlash meets_term⟩
  cases style with
  | asTyped => exact meets_division meets_group meets_tightSlash meets_group
  | typeset => exact meets_division meets_groupContent meets_tightSlash meets_groupContent

theorem meets_markupGroups (style : CallStyle) : (markupGroups style).Meets IsSite := by
  cases style with
  | asTyped => exact meets_division meets_markupGroup meets_tightSlash meets_markupGroup
  | typeset => exact meets_division meets_markupContent meets_tightSlash meets_markupContent

theorem meets_groupSites (style : CallStyle) : ∀ p ∈ groupSites style, p.Meets IsSite := by
  exact forall_groupSites.2 ⟨meets_markupGroups style,
    meets_division meets_bracedGroup meets_tightSlash meets_bracedGroup,
    meets_division meets_powerCall meets_spacedSlash meets_term,
    meets_division meets_powerGroup meets_spacedSlash meets_term⟩

theorem meets_basicSites : ∀ p ∈ basicSites, p.Meets IsSite := by
  exact forall_basicSites.2 ⟨meets_division meets_powerGroup meets_spacedSlash meets_groupContent,
    meets_lineProduct, meets_division meets_term meets_spacedSlash meets_endedCall,
    meets_division meets_term meets_spacedSlash meets_endedTerm⟩

theorem meets_slashedCall (w : Text) : (slashedCall w).Meets fun v c _ =>
    w ++ v = c.write ∧ c.name = w ∧ Bracket.IsBalanced '(' ')' c.content := by
  refine ((Bracket.meets_group.filter _).map _).mono ?_
  rintro v _ r ⟨t, ⟨⟨rfl, ht⟩, -⟩, rfl⟩
  exact ⟨rfl, rfl, ht⟩

theorem meets_callSite (w : Text) : (callSite w).Meets fun v c r =>
    c.call.name = w ∧ Bracket.IsBalanced '(' ')' c.call.content ∧
      ((c.divisor? = none ∧ w ++ v = c.call.write) ∨
        ∃ d, c.divisor? = some d ∧ IsSite (w ++ v) ⟨c.call.write, d⟩ r) := by
  refine ((Bracket.meets_group.bind fun t => (meets_spacedSlash.bind fun _ =>
      Recogniser.meets_run isTermChar).map fun d => CallSite.mk ⟨w, t⟩ (some d)).orElse
    (Bracket.meets_group.map fun t => CallSite.mk ⟨w, t⟩ none)).mono ?_
  rintro v _ r (⟨_, t, _, rfl, ⟨rfl, ht⟩, _, ⟨g, _, _, rfl, hg, rfl, hne, -, hr⟩, rfl⟩ |
    ⟨t, ⟨rfl, ht⟩, rfl⟩)
  · refine ⟨rfl, ht, .inr ⟨_, rfl, _, g, _, ?_, hg, .whole _, write_ne_nil _, .whole _, hne,
      .inr (.inr (.inl hr))⟩⟩
    simp [Call.write]
  · exact ⟨rfl, ht, .inl ⟨rfl, rfl⟩⟩

/-! ## Where no site starts -/

section

variable {s r : Text} {c : Char}

theorem withExponent_read?_eq_none {p : Recogniser Text} (h : p.read? s = none) :
    (withExponent p).read? s = none :=
  Recogniser.read?_orElse_eq_none (Recogniser.read?_bind_eq_none h _) h

theorem powerGroup_read?_eq_none (hc : c ≠ '(') : (withExponent group).read? (c :: r) = none :=
  withExponent_read?_eq_none (Recogniser.read?_map_eq_none
    (Recogniser.read?_filter_eq_none (Call.flatGroup_read?_eq_none hc r) _) _)

theorem division_read?_eq_none {n d : Recogniser Text} {slash : Recogniser Unit}
    (h : n.read? s = none) : (division n slash d).read? s = none :=
  Recogniser.read?_bind_eq_none h _

/-- The dividends of the group sites are groups and calls. -/
theorem groupSites_read?_eq_none (style : CallStyle) (hc : c ≠ '(')
    (hcall : Call.flatCall.read? (c :: r) = none) :
    ∀ p ∈ groupSites style, p.read? (c :: r) = none := by
  have hgroup := Call.flatGroup_read?_eq_none hc r
  have hmarkup : markupContent.read? (c :: r) = none := Recogniser.read?_filter_eq_none hgroup _
  refine forall_groupSites.2 ⟨division_read?_eq_none ?_,
    division_read?_eq_none (Recogniser.read?_map_eq_none
      (Recogniser.read?_filter_eq_none hgroup _) _),
    division_read?_eq_none (withExponent_read?_eq_none (Recogniser.read?_map_eq_none
      (Recogniser.read?_filter_eq_none hcall _) _)),
    division_read?_eq_none (powerGroup_read?_eq_none hc)⟩
  cases style with
  | asTyped => exact Recogniser.read?_map_eq_none hmarkup _
  | typeset => exact hmarkup

end

end Fraction

end CalcTypeset
