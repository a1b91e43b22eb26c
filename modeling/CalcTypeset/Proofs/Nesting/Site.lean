import CalcTypeset.Proofs.Idle
import CalcTypeset.Proofs.Nesting.Tame

/-!
# Division sites of a tame line

In a tame line no group that a division site takes ends too early, so both operands of the site have
balanced parentheses. A dividend shows it to the gauge of the dividends, by the slash behind it, and
a divisor to the gauge of the divisors, by the slash in front. What is left are products in which
references are factors, and exponents.
-/

namespace CalcTypeset

open Text CalcTypeset.Bracket

namespace Nesting

/-- The gauge of a tame line. -/
def tame : Gauge (Level × Behind × Power × Bool) :=
  dividends.prod (divisors.prod (powers.prod references))

theorem tame_tolerates : tame.Tolerates :=
  dividends_tolerates.prod (divisors_tolerates.prod (powers_tolerates.prod references_tolerates))

variable {c e g n d t w x : Text}

theorem reads_of_tame (h : tame.Reads t) :
    dividends.Reads t ∧ divisors.Reads t ∧ powers.Reads t ∧ references.Reads t := by
  obtain ⟨q, r, h⟩ := h
  rw [tame, Gauge.follow_prod_eq_some_iff, Gauge.follow_prod_eq_some_iff,
    Gauge.follow_prod_eq_some_iff] at h
  exact ⟨⟨_, _, h.1⟩, ⟨_, _, h.2.1⟩, ⟨_, _, h.2.2.1⟩, ⟨_, _, h.2.2.2⟩⟩

/-! ## What ends at its first closing parenthesis -/

theorem isNeutral_iff : Kind.round.IsNeutral t ↔ '(' ∉ t ∧ ')' ∉ t := by
  refine ⟨fun h => ⟨fun hmem => (h _ hmem).1 rfl, fun hmem => (h _ hmem).2 rfl⟩,
    fun h c hc => ⟨?_, ?_⟩⟩
  · rintro rfl
    exact h.1 hc
  · rintro rfl
    exact h.2 hc

/-- A text that closes nothing goes in as deep as it opens parentheses. -/
theorem dividends_rise {i : Nat} {k : Wake} {r : Level} (hc : ')' ∉ c)
    (h : dividends.follow (.inner i k) c = some r) :
    ∃ k', r = .inner (i + c.count '(') k' := by
  induction c generalizing i k with
  | nil => exact ⟨k, (Option.some.inj h).symm⟩
  | cons a c ih =>
      obtain ⟨m, hm, hr⟩ := Option.bind_eq_some_iff.1 h
      rw [List.mem_cons, not_or] at hc
      replace hm : Level.step (.inner i k) a = some m := hm
      by_cases ha : a = '('
      · subst ha
        rw [Level.step, if_pos rfl] at hm
        split at hm
        · cases hm
        · obtain rfl := Option.some.inj hm
          obtain ⟨k', rfl⟩ := ih hc.2 hr
          exact ⟨k', by rw [List.count_cons_self, Nat.add_right_comm, Nat.add_assoc]⟩
      · rw [Level.step, if_neg ha, if_neg (Ne.symm hc.1)] at hm
        obtain ⟨k₁, -, rfl⟩ := Option.map_eq_some_iff.1 hm
        obtain ⟨k', rfl⟩ := ih hc.2 hr
        exact ⟨k', by rw [List.count_cons_of_ne (Ne.symm ha).symm]⟩

/-- A braced exponent, or none. -/
def IsRaised (e : Text) : Prop := e = [] ∨ ∃ t, '}' ∉ t ∧ e = '^' :: Markup.braced t

theorem dividends_braced {i : Nat} {r : Level} (ht : '}' ∉ t)
    (h : dividends.follow (.inner i .braced) t = some r) : r = .inner i .braced := by
  induction t with
  | nil => exact (Option.some.inj h).symm
  | cons a t ih =>
      obtain ⟨m, hm, hr⟩ := Option.bind_eq_some_iff.1 h
      rw [List.mem_cons, not_or] at ht
      replace hm : Level.step (.inner i .braced) a = some m := hm
      have hne : a ≠ '}' := Ne.symm ht.1
      obtain rfl : m = .inner i .braced := by grind [Level.step, Wake.step]
      exact ih ht.2 hr

/-- Behind a group in another one, and its exponent, no slash can be read. -/
theorem dividends_closed {i : Nat} (he : IsRaised e) (hg : Fraction.IsSlash g) :
    dividends.follow (.inner i .closed) (e ++ g) = none := by
  have hslash : dividends.follow (.inner i .closed) g = none := by
    obtain ⟨b, b', rfl, hb, -⟩ := hg
    rw [Gauge.follow_append_of_some
      (Gauge.follow_of_idle fun x hx => dividends_tolerates.blank _ (hb x hx))]
    rfl
  rcases he with rfl | ⟨t, ht, rfl⟩
  · exact hslash
  · rw [Gauge.follow_append]
    cases h : dividends.follow (.inner i .closed) ('^' :: Markup.braced t) with
    | none => rfl
    | some r =>
        obtain ⟨m, m', hm, hfollow, hr⟩ := Gauge.follow_wrapped_eq_some_iff.1
          (show dividends.follow (.inner i .raised) ('{' :: t ++ ['}']) = some r from h)
        obtain rfl : Level.inner i .braced = m := Option.some.inj hm
        obtain rfl := dividends_braced ht hfollow
        obtain rfl : Level.inner i .closed = r := Option.some.inj hr
        exact hslash

/-- A group in front of a slash holds no other group. -/
theorem isNeutral_dividend (hc : ')' ∉ c) (he : IsRaised e) (hg : Fraction.IsSlash g)
    (h : dividends.Reads (Markup.parenthesised c ++ (e ++ g))) : Kind.round.IsNeutral c := by
  refine isNeutral_iff.2 ⟨fun hmem => ?_, hc⟩
  obtain ⟨q, r, h⟩ := h
  obtain ⟨m, hgroup, hslash⟩ := Gauge.follow_append_eq_some_iff.1 h
  obtain ⟨q₁, q₂, hq₁, hfollow, hm⟩ := Gauge.follow_wrapped_eq_some_iff.1 hgroup
  obtain ⟨i, rfl⟩ : ∃ i, q₁ = .inner i .anything := by
    replace hq₁ : Level.step q '(' = some q₁ := hq₁
    cases q with
    | outer => exact ⟨0, (Option.some.inj hq₁).symm⟩
    | inner i k =>
        rw [Level.step, if_pos rfl] at hq₁
        split at hq₁
        · cases hq₁
        · exact ⟨i + 1, (Option.some.inj hq₁).symm⟩
  obtain ⟨k, rfl⟩ := dividends_rise hc hfollow
  obtain ⟨j, hj⟩ : ∃ j, i + c.count '(' = j + 1 := by
    have := List.count_pos_iff.2 hmem
    exact ⟨i + c.count '(' - 1, by omega⟩
  rw [hj] at hm
  replace hm : Level.step (.inner (j + 1) k) ')' = some m := hm
  rw [Level.step, if_neg (by decide), if_pos rfl] at hm
  split at hm
  · cases hm
  · obtain rfl : Level.inner j .closed = m := Option.some.inj hm
    rw [dividends_closed he hg] at hslash
    cases hslash

theorem divisors_slash {q r : Behind} (hg : Fraction.IsSlash g)
    (h : divisors.follow q g = some r) : r ≠ .nothing := by
  have hblank : ∀ {b : Text} {q}, (∀ x ∈ b, isBlank x = true) → divisors.follow q b = some q :=
    fun hb => Gauge.follow_of_idle fun x hx => divisors_tolerates.blank _ (hb x hx)
  obtain ⟨b, b', rfl, hb, hb'⟩ := hg
  rw [Gauge.follow_append_of_some (hblank hb), Gauge.follow_cons] at h
  obtain ⟨m, hm, h⟩ := Option.bind_eq_some_iff.1 h
  obtain rfl := Option.some.inj ((hblank hb').symm.trans h)
  replace hm : Behind.step q '/' = some m := hm
  cases q <;> grind [Behind.step]

theorem divisors_name {q : Behind} (hx : ∀ y ∈ x, isWordChar y = true) (hq : q ≠ .nothing) :
    divisors.follow q x = some q := by
  refine Gauge.follow_of_idle fun y hy => ?_
  have hword := hx y hy
  have hne : y ≠ '/' ∧ y ≠ '(' ∧ y ≠ ')' := by
    refine ⟨?_, ?_, ?_⟩ <;> rintro rfl <;>
      exact absurd hword (by rw [isWordChar_of_lt (by decide)]; decide)
  show Behind.step q y = some q
  cases q with
  | nothing => exact absurd rfl hq
  | slash => simp [Behind.step, hword, hne]
  | group => simp [Behind.step, hne]

theorem divisors_group {r : Behind} (hc : ')' ∉ c) (h : divisors.follow .group c = some r) :
    '(' ∉ c := by
  induction c with
  | nil => simp
  | cons a c ih =>
      obtain ⟨m, hm, hr⟩ := Option.bind_eq_some_iff.1 h
      rw [List.mem_cons, not_or] at hc
      replace hm : Behind.step .group a = some m := hm
      have hne : a ≠ ')' := Ne.symm hc.1
      have ha : m = .group ∧ a ≠ '(' := by grind [Behind.step]
      obtain ⟨rfl, ha⟩ := ha
      rw [List.mem_cons, not_or]
      exact ⟨Ne.symm ha, ih hc.2 hr⟩

/-- A group behind a slash, or behind a slash and a name, holds no other group. -/
theorem isNeutral_divisor (hg : Fraction.IsSlash g) (hx : ∀ y ∈ x, isWordChar y = true)
    (hc : ')' ∉ c) (h : divisors.Reads (g ++ (x ++ Markup.parenthesised c))) :
    Kind.round.IsNeutral c := by
  obtain ⟨q, r, h⟩ := h
  obtain ⟨q₁, hq₁, h⟩ := Gauge.follow_append_eq_some_iff.1 h
  have hne := divisors_slash hg hq₁
  rw [Gauge.follow_append_of_some (divisors_name hx hne)] at h
  obtain ⟨m, m', hm, hfollow, -⟩ := Gauge.follow_wrapped_eq_some_iff.1 h
  cases q₁ with
  | nothing => exact absurd rfl hne
  | slash =>
      obtain rfl : Behind.group = m := Option.some.inj hm
      exact isNeutral_iff.2 ⟨divisors_group hc hfollow, hc⟩
  | group => cases hm

/-- A gauge that refuses parentheses in a state, and leaves the state at one character only, reads
no parenthesis up to there. -/
theorem isNeutral_of_follow {α : Type} {G : Gauge α} {q : α} {close : Char}
    (hstep : ∀ {a m}, a ≠ close → G.step q a = some m → m = q ∧ a ≠ '(' ∧ a ≠ ')')
    (ht : close ∉ t) {r : α} (h : G.follow q t = some r) : Kind.round.IsNeutral t := by
  induction t with
  | nil => exact List.forall_mem_nil _
  | cons a t ih =>
      obtain ⟨m, hm, hr⟩ := Option.bind_eq_some_iff.1 h
      rw [List.mem_cons, not_or] at ht
      obtain ⟨rfl, ha⟩ := hstep (Ne.symm ht.1) hm
      exact List.forall_mem_cons.2 ⟨ha, ih ht.2 hr⟩

/-- Between the braces of an exponent stands no parenthesis. -/
theorem isNeutral_exponent (ht : '}' ∉ t)
    (h : powers.Reads (')' :: '^' :: Markup.braced t)) : Kind.round.IsNeutral t := by
  have hinside : ∀ {a m}, a ≠ '}' → powers.step .inside a = some m →
      m = .inside ∧ a ≠ '(' ∧ a ≠ ')' := by
    intro a m hne hm
    replace hm : Power.step .inside a = some m := hm
    grind [Power.step]
  obtain ⟨q, r, h⟩ := h
  cases q with
  | inside => cases h
  | plain | caret =>
      obtain ⟨m, m', hm, hfollow, -⟩ := Gauge.follow_wrapped_eq_some_iff.1
        (show powers.follow .caret ('{' :: t ++ ['}']) = some r from h)
      obtain rfl : Power.inside = m := Option.some.inj hm
      exact isNeutral_of_follow hinside ht hfollow

/-! ## Operands -/

theorem isBalanced_of_isNeutral (h : Kind.round.IsNeutral t) : IsBalanced '(' ')' t :=
  Kind.depthAfter_of_isNeutral h 0

theorem isBalanced_append (hs : IsBalanced '(' ')' w) (ht : IsBalanced '(' ')' t) :
    IsBalanced '(' ')' (w ++ t) :=
  (Kind.depthAfter_append_of_some (k := .round) hs t).trans ht

theorem isBalanced_parenthesised (h : IsBalanced '(' ')' t) :
    IsBalanced '(' ')' (Markup.parenthesised t) :=
  depthAfter_parenthesised (k := .round) h

/-- An operand with balanced parentheses as it stood and as it is written into the fraction. -/
inductive Balanced : Text → Text → Prop
  | whole {t : Text} (h : IsBalanced '(' ')' t) : Balanced t t
  | bare {t : Text} (h : Kind.round.IsNeutral t) : Balanced (Markup.parenthesised t) t
  | braced {t : Text} (h : Kind.round.IsNeutral t) :
      Balanced (Markup.parenthesised t) (Markup.parenthesised (Markup.braced t))

theorem Balanced.nest_eases (h : Balanced w t) : nest.Eases w (Markup.braced t) := by
  cases h with
  | whole h => exact eases_braced h
  | bare h => exact eases_content (isBalanced_of_isNeutral h)
  | braced h =>
      have hbraced := isBalanced_of_isNeutral (isNeutral_braced h)
      exact (eases_parenthesised (eases_braced (isBalanced_of_isNeutral h))).trans
        (eases_braced (isBalanced_parenthesised hbraced))

theorem Balanced.tame_eases (h : Balanced w t) :
    tame.Eases (Markup.braced w) (Markup.braced t) := by
  cases h with
  | whole h => exact .refl _
  | bare h => exact tame_tolerates.unwrap h
  | @braced t h =>
      have hinside : tame.Eases (Markup.parenthesised t)
          (Markup.parenthesised (Markup.braced t)) := by
        have hwrapped := (tame_tolerates.wrap.append (.refl t)).append
          (tame_tolerates.close.append (.refl [')']))
        simpa [Markup.parenthesised, Markup.braced] using hwrapped
      exact ((Gauge.Eases.refl ['{']).append hinside).append (.refl ['}'])

/-! ## Sites -/

/-- A text and what is written for it in a tame line. -/
def Eased (s s' : Text) : Prop := tame.Reads s → nest.Eases s s' ∧ tame.Eases s s'

theorem Eased.refl (s : Text) : Eased s s := fun _ => ⟨.refl s, .refl s⟩

theorem Eased.trans {s s' s'' : Text} (h : Eased s s') (h' : Eased s' s'') : Eased s s'' := by
  intro hs
  obtain ⟨hnest, htame⟩ := h hs
  obtain ⟨hnest', htame'⟩ := h' (hs.of_eases htame)
  exact ⟨hnest.trans hnest', htame.trans htame'⟩

theorem congruence_eased : Text.Congruence Eased where
  refl := Eased.refl
  append {s s' t t'} h h' hst := by
    obtain ⟨hnest, htame⟩ := h (hst.of_isInfix ⟨[], t, by simp⟩)
    obtain ⟨hnest', htame'⟩ := h' (hst.of_isInfix ⟨s, [], by simp⟩)
    exact ⟨hnest.append hnest', htame.append htame'⟩

theorem Eased.append {s s' t t' : Text} (h : Eased s s') (h' : Eased t t') :
    Eased (s ++ t) (s' ++ t') := congruence_eased.append h h'

/-- What holds no bracket may be dropped. -/
theorem nest_eases_of_isNeutral (hs : ∀ k : Kind, k.IsNeutral w) (ht : ∀ k : Kind, k.IsNeutral t) :
    nest.Eases w t := by
  have hfollow : ∀ {w : Text}, (∀ k : Kind, k.IsNeutral w) → ∀ st, nest.follow st w = some st :=
    fun h st => Gauge.follow_of_idle fun c hc => nest_neutral (fun k => h k c hc) st
  rw [nest_eases_iff]
  intro st st' h
  rw [hfollow hs] at h
  rw [hfollow ht, h]

theorem tame_eases_blanks (h : ∀ x ∈ w, isBlank x = true) : tame.Eases w [] := by
  intro q r hr
  rw [Gauge.follow_of_idle fun x hx => tame_tolerates.blank q (h x hx)] at hr
  obtain rfl := Option.some.inj hr
  exact ⟨q, rfl, tame.refl q⟩

/-- A division site with balanced operands is eased by its fraction. -/
theorem eased_frac (hn : Balanced n w) (hg : Fraction.IsSlash g) (hd : Balanced d t) :
    Eased (n ++ g ++ d) (Markup.frac w t) := by
  intro _
  have hgap : nest.Eases g [] :=
    nest_eases_of_isNeutral (fun k => hg.isNeutral) (fun k c hc => nomatch hc)
  have hcommand : nest.Eases [] "\\frac".toList :=
    nest_eases_of_isNeutral (fun k c hc => nomatch hc) (fun k => by cases k <;> decide)
  have hslash : tame.Eases g ['}', '{'] := by
    obtain ⟨b, b', rfl, hb, hb'⟩ := hg
    exact (tame_eases_blanks hb).append (tame_tolerates.slash.append (tame_eases_blanks hb'))
  constructor
  · have := (hcommand.append hn.nest_eases).append (hgap.append hd.nest_eases)
    rw [List.append_assoc]
    exact this
  · have hwhole : tame.Eases (n ++ g ++ d) (Markup.frac n d) := by
      have := ((tame_tolerates.frac.append (.refl n)).append hslash).append
        ((Gauge.Eases.refl d).append tame_tolerates.close)
      simpa [Fraction.frac_eq] using this
    exact hwhole.trans (((Gauge.Eases.refl "\\frac".toList).append hn.tame_eases).append
      hd.tame_eases)

/-! What the recognisers of operands take is balanced in a tame line. -/

/-- In front of a slash the operand is balanced. -/
def Dividend (w t : Text) (_ : Text) : Prop :=
  ∀ g, Fraction.IsSlash g → tame.Reads (w ++ g) → Balanced w t

/-- Behind a slash the operand is balanced. -/
def Divisor (w t : Text) (_ : Text) : Prop :=
  ∀ g, Fraction.IsSlash g → tame.Reads (g ++ w) → Balanced w t

/-- A group or a call up to its first closing parenthesis. -/
def Flat (w t : Text) (_ : Text) : Prop :=
  ∃ x c, w = x ++ Markup.parenthesised c ∧ (∀ y ∈ x, isWordChar y = true) ∧ ')' ∉ c ∧
    (Kind.round.IsNeutral c → Balanced w t)

theorem Flat.dividend {r : Text} (h : Flat w t r) : Dividend w t r := by
  obtain ⟨x, c, rfl, -, hc, hbalanced⟩ := h
  intro g hg hreads
  exact hbalanced (isNeutral_dividend hc (.inl rfl) hg
    ((reads_of_tame hreads).1.of_isInfix ⟨x, [], by simp⟩))

theorem Flat.divisor {r : Text} (h : Flat w t r) : Divisor w t r := by
  obtain ⟨x, c, rfl, hx, hc, hbalanced⟩ := h
  intro g hg hreads
  exact hbalanced (isNeutral_divisor hg hx hc (reads_of_tame hreads).2.1)

theorem balanced_call (hx : ∀ y ∈ x, isWordChar y = true) (hc : IsBalanced '(' ')' c) :
    IsBalanced '(' ')' (x ++ Markup.parenthesised c) :=
  isBalanced_append (isBalanced_of_isNeutral (Bracket.isNeutral_of_isWordChar hx))
    (isBalanced_parenthesised hc)

theorem dividend_of_isNeutral {r : Text} (h : Kind.round.IsNeutral t) : Dividend t t r :=
  fun _ _ _ => .whole (isBalanced_of_isNeutral h)

theorem divisor_of_isNeutral {r : Text} (h : Kind.round.IsNeutral t) : Divisor t t r :=
  fun _ _ _ => .whole (isBalanced_of_isNeutral h)

end Nesting

namespace Fraction

open Nesting

theorem isNeutral_of_isTermChar {t : Text} (h : ∀ c ∈ t, isTermChar c = true) :
    Kind.round.IsNeutral t := by
  intro c hc
  have := h c hc
  refine ⟨?_, ?_⟩ <;> rintro rfl <;> exact absurd this (by decide)

theorem neutral_term : term.Meets fun w t _ => w = t ∧ Kind.round.IsNeutral t := by
  refine (Recogniser.meets_run isTermChar).mono ?_
  rintro w _ r ⟨rfl, -, hw, -⟩
  exact ⟨rfl, isNeutral_of_isTermChar hw⟩

theorem dividend_term : term.Meets Dividend := by
  refine neutral_term.mono ?_
  rintro w _ r ⟨rfl, h⟩
  exact dividend_of_isNeutral h

theorem divisor_term : term.Meets Divisor := by
  refine neutral_term.mono ?_
  rintro w _ r ⟨rfl, h⟩
  exact divisor_of_isNeutral h

theorem divisor_endedTerm : endedTerm.Meets Divisor := by
  intro s t r hs
  obtain ⟨rfl, -, ht, -⟩ := endedTerm?_spec hs
  exact ⟨t, rfl, divisor_of_isNeutral (isNeutral_of_isTermChar ht)⟩

theorem flat_content (test : Text → Bool) : (Call.flatGroup.filter test).Meets Flat := by
  refine (Call.meets_flatGroup.filter test).mono ?_
  rintro w t r ⟨⟨rfl, ht⟩, -⟩
  exact ⟨[], t, rfl, by simp, ht, .bare⟩

theorem flat_group (test : Text → Bool) :
    ((Call.flatGroup.filter test).map Markup.parenthesised).Meets Flat := by
  refine ((Call.meets_flatGroup.filter test).map _).mono ?_
  rintro w _ r ⟨t, ⟨⟨rfl, ht⟩, -⟩, rfl⟩
  exact ⟨[], t, rfl, by simp, ht,
    fun h => .whole (isBalanced_parenthesised (isBalanced_of_isNeutral h))⟩

theorem flat_bracedGroup :
    (groupContent.map fun t => Markup.parenthesised (Markup.braced t)).Meets Flat := by
  refine ((Call.meets_flatGroup.filter _).map _).mono ?_
  rintro w _ r ⟨t, ⟨⟨rfl, ht⟩, -⟩, rfl⟩
  exact ⟨[], t, rfl, by simp, ht, .braced⟩

theorem flat_write {c : Call} {r : Text} (hname : ∀ y ∈ c.name, isWordChar y = true)
    (hcontent : ')' ∉ c.content) : Flat c.write c.write r :=
  ⟨c.name, c.content, rfl, hname, hcontent,
    fun h => .whole (balanced_call hname (isBalanced_of_isNeutral h))⟩

theorem flat_call : call.Meets Flat := by
  refine (Call.meets_flatCall.map _).mono ?_
  rintro w _ r ⟨c, ⟨rfl, -, hname, hcontent⟩, rfl⟩
  exact flat_write hname hcontent

/-- What is read as it stands, a group or a call, may be followed by an exponent. -/
theorem dividend_withExponent {p : Recogniser Text}
    (hp : p.Meets fun w t r => w = t ∧ Flat w t r) : (withExponent p).Meets Dividend := by
  refine ((hp.bind fun t => meets_exponent.map fun e => t ++ e).orElse hp).mono ?_
  rintro w t r (⟨v, _, _, rfl, ⟨rfl, x, c, rfl, hx, hc, -⟩, e, ⟨rfl, u, hu, rfl⟩, rfl⟩ | ⟨-, h⟩)
  · intro g hg hreads
    obtain ⟨hdividends, -, hpowers, -⟩ := reads_of_tame hreads
    have hcontent := isNeutral_dividend hc (.inr ⟨u, hu, rfl⟩) hg
      (hdividends.of_isInfix ⟨x, [], by simp⟩)
    have hexponent := isNeutral_exponent hu
      (hpowers.of_isInfix ⟨x ++ '(' :: c, g, by simp [Markup.parenthesised]⟩)
    have hcaret : Kind.round.IsNeutral ['^'] := by decide
    exact .whole (isBalanced_append (balanced_call hx (isBalanced_of_isNeutral hcontent))
      (isBalanced_of_isNeutral (hcaret.append (isNeutral_braced hexponent))))
  · exact h.dividend

theorem dividend_powerGroup : (withExponent group).Meets Dividend := by
  refine dividend_withExponent (((Call.meets_flatGroup.filter _).map _).mono ?_)
  rintro w _ r ⟨t, ⟨⟨rfl, ht⟩, -⟩, rfl⟩
  exact ⟨rfl, [], t, rfl, by simp, ht,
    fun h => .whole (isBalanced_parenthesised (isBalanced_of_isNeutral h))⟩

theorem dividend_powerCall : (withExponent filledCall).Meets Dividend := by
  refine dividend_withExponent (((Call.meets_flatCall.filter _).map _).mono ?_)
  rintro w _ r ⟨c, ⟨⟨rfl, -, hname, hcontent⟩, -⟩, rfl⟩
  exact ⟨rfl, flat_write hname hcontent⟩

theorem eased_division {n d : Recogniser Text} {slash : Recogniser Unit}
    (hn : n.Meets Dividend) (hslash : slash.Meets fun w _ _ => IsSlash w) (hd : d.Meets Divisor) :
    (division n slash d).Meets fun w q _ => Eased w q.write := by
  refine (hn.bind fun n => hslash.bind fun _ => hd.map fun d => Fraction.Quotient.mk n d).mono ?_
  rintro w q r ⟨v, n, x, rfl, hn, g, _, u, rfl, hg, d, hd, rfl⟩ hreads
  rw [← List.append_assoc] at hreads ⊢
  exact eased_frac (hn g hg (hreads.of_isInfix ⟨[], u, by simp⟩)) hg
    (hd g hg (hreads.of_isInfix ⟨v, [], by simp⟩)) hreads

/-! Of a product the references could hold parentheses, and do not in a tame line. -/

theorem neutral_reference :
    (Reference.reference.map Reference.write).Meets fun w t _ =>
      w = t ∧ (references.Reads t → Kind.round.IsNeutral t) := by
  have hinside : ∀ {a m}, a ≠ ']' → references.step true a = some m →
      m = true ∧ a ≠ '(' ∧ a ≠ ')' := by
    intro a m hne hm
    replace hm : (if a = '[' then some true else if a = ']' then some false
      else if true && (a = '(' || a = ')') then none else some true) = some m := hm
    grind
  refine (meets_reference.map _).mono ?_
  rintro w _ r ⟨name, ⟨rfl, -, hname⟩, rfl⟩
  refine ⟨rfl, fun ⟨q, r, h⟩ => ?_⟩
  obtain ⟨m, m', hm, hfollow, -⟩ := Gauge.follow_wrapped_eq_some_iff.1
    (show references.follow q ('[' :: name ++ [']']) = some r from h)
  obtain rfl : true = m := Option.some.inj hm
  have hneutral := isNeutral_of_follow hinside hname hfollow
  exact (show Kind.round.IsNeutral ['['] by decide).append
    (hneutral.append (t := [']']) (by decide))

namespace ProductNotation

/-- No parenthesis stands in a product, unless in one of the references that it may hold. -/
structure IsNeutral (f : ProductNotation) : Prop where
  sign : Kind.round.IsNeutral f.sign
  factor : ∀ c, f.isFactorChar c = true → isTermChar c = true
  whole : f.whole.Meets fun w t _ => w = t ∧ (references.Reads t → Kind.round.IsNeutral t)

theorem isNeutral_argumentProduct : argumentProduct.IsNeutral where
  sign := by decide
  factor c hc := by
    simp only [argumentProduct, Bool.and_eq_true] at hc
    exact hc.1.1
  whole := neutral_reference

theorem isNeutral_lineProduct : lineProduct.IsNeutral where
  sign := by decide
  factor _ hc := hc
  whole := Recogniser.meets_never

variable {f : ProductNotation}

theorem neutral_nextFactor (hf : f.IsNeutral) {s t r : Text} {st : FactorState}
    (h : f.nextFactor? s = some (t, st, r)) (ht : references.Reads t) : Kind.round.IsNeutral t := by
  have hstart : f.factorStart.Meets fun _ x _ =>
      references.Reads x.1 → Kind.round.IsNeutral x.1 := by
    refine (((Recogniser.meets_char f.isFactorChar).map _).orElse (hf.whole.map _)).mono ?_
    rintro w _ r (⟨c, ⟨rfl, hc⟩, rfl⟩ | ⟨t, ⟨rfl, ht⟩, rfl⟩)
    · exact fun _ => isNeutral_of_isTermChar (by simpa using hf.factor c hc)
    · exact ht
  have hblank : ∀ s : Text, Kind.round.IsNeutral (s.takeWhile isBlank) := fun s =>
    isNeutral_of_isBlank fun _ hc => List.all_eq_true.1 List.all_takeWhile _ hc
  obtain ⟨r₁, -, h⟩ := Option.bind_eq_some_iff.1 h
  obtain ⟨x, hx, he⟩ := Option.map_eq_some_iff.1 h
  cases he
  obtain ⟨_, -, hneutral⟩ := hstart _ _ _ hx
  exact (((hblank s).append hf.sign).append (hblank r₁)).append
    (hneutral (ht.of_isInfix (List.suffix_append _ _).isInfix))

theorem neutral_continue (hf : f.IsNeutral) {st : FactorState} {s r : Text} {q : Quotient}
    (h : f.continue? st s = some (q, r)) :
    Kind.round.IsNeutral q.divisor ∧
      (references.Reads q.dividend → Kind.round.IsNeutral q.dividend) := by
  induction h using continue?_induction with
  | @extend st q r c s _ _ hc ih =>
      have hterm : isTermChar c = true := by
        cases st with
        | first => exact hc
        | later => exact hf.factor c hc
        | complete => cases hc
      refine ⟨ih.1, fun ht => ?_⟩
      exact (isNeutral_of_isTermChar (t := [c]) (by simpa using hterm)).append
        (ih.2 (ht.of_isInfix (List.suffix_append [c] _).isInfix))
  | factor s t st' s' hn ih =>
      refine ⟨ih.1, fun ht => ?_⟩
      exact (neutral_nextFactor hf hn (ht.of_isInfix (List.prefix_append _ _).isInfix)).append
        (ih.2 (ht.of_isInfix (List.suffix_append _ _).isInfix))
  | finish s q r hst h =>
      have hfinish : finish.Meets fun _ q _ =>
          q.dividend = [] ∧ Kind.round.IsNeutral q.divisor := by
        refine ((meets_spacedSlash.bind fun _ => neutral_term).map _).mono ?_
        rintro w _ r ⟨d, ⟨_, _, _, -, -, rfl, hd⟩, rfl⟩
        exact ⟨rfl, hd⟩
      obtain ⟨_, -, hnil, hdivisor⟩ := hfinish _ _ _ h
      refine ⟨hdivisor, fun _ => ?_⟩
      rw [hnil]
      exact List.forall_mem_nil _

theorem eased_overTerm (hf : f.IsNeutral) :
    f.overTerm.Meets fun w q _ => Eased w q.write := by
  intro s q r hs
  obtain ⟨c, t, q', rfl, hterm, hq', rfl⟩ := exists_continue?_of_overTerm hs
  obtain ⟨hdivisor, hdividend⟩ := neutral_continue hf hq'
  obtain ⟨g, rfl, hg, -⟩ := continue?_spec (hf.whole.mono fun _ _ _ h => h.1) hq'
  refine ⟨[c] ++ q'.dividend ++ g ++ q'.divisor, by simp, fun hreads => ?_⟩
  have hneutral : Kind.round.IsNeutral (c :: q'.dividend) :=
    (isNeutral_of_isTermChar (t := [c]) (by simpa using hterm)).append
      (hdividend ((reads_of_tame hreads).2.2.2.of_isInfix ⟨[c], g ++ q'.divisor, by simp⟩))
  exact eased_frac (.whole (isBalanced_of_isNeutral hneutral)) hg
    (.whole (isBalanced_of_isNeutral hdivisor)) hreads

end ProductNotation

/-! ## The lists of sites -/

/-- Two operands of one kind around a slash. -/
theorem eased_groups {p : Recogniser Text} (hp : p.Meets Flat) :
    (division p tightSlash p).Meets fun w q _ => Eased w q.write :=
  eased_division (hp.mono fun _ _ _ h => h.dividend) meets_tightSlash
    (hp.mono fun _ _ _ h => h.divisor)

theorem eased_argumentSites (style : CallStyle) :
    ∀ p ∈ argumentSites style, p.Meets fun w q _ => Eased w q.write := by
  refine forall_argumentSites.2
    ⟨ProductNotation.eased_overTerm ProductNotation.isNeutral_argumentProduct,
    eased_division dividend_term meets_spacedSlash (flat_call.mono fun _ _ _ h => h.divisor), ?_,
    eased_division dividend_term meets_spacedSlash divisor_term⟩
  cases style with
  | asTyped => exact eased_groups (flat_group _)
  | typeset => exact eased_groups (p := groupContent) (flat_content _)

theorem eased_markupGroups (style : CallStyle) :
    (markupGroups style).Meets fun w q _ => Eased w q.write := by
  cases style with
  | asTyped => exact eased_groups (flat_group _)
  | typeset => exact eased_groups (flat_content _)

theorem eased_groupSites (style : CallStyle) :
    ∀ p ∈ groupSites style, p.Meets fun w q _ => Eased w q.write := by
  exact forall_groupSites.2 ⟨eased_markupGroups style, eased_groups flat_bracedGroup,
    eased_division dividend_powerCall meets_spacedSlash divisor_term,
    eased_division dividend_powerGroup meets_spacedSlash divisor_term⟩

theorem eased_basicSites : ∀ p ∈ basicSites, p.Meets fun w q _ => Eased w q.write := by
  have hcall : endedCall.Meets Divisor :=
    (flat_call.followedBy endsTerm).mono fun _ _ _ h => h.1.divisor
  exact forall_basicSites.2 ⟨eased_division dividend_powerGroup meets_spacedSlash
      ((flat_content _).mono fun _ _ _ h => h.divisor),
    ProductNotation.eased_overTerm ProductNotation.isNeutral_lineProduct,
    eased_division dividend_term meets_spacedSlash hcall,
    eased_division dividend_term meets_spacedSlash divisor_endedTerm⟩

end Fraction

end CalcTypeset
