import CalcTypeset.Proofs.Argument.Divide
import CalcTypeset.Proofs.Nesting.Site
import Mathlib.Data.List.Basic

/-!
# A slash that is left in a call

When an argument has been rewritten, the passes over a line still see it, with the parentheses of
its call around it. A slash that is left in the argument could be divided by them. It is not when it
stands in the last summand and a single fraction is in front of it: no group, no call and no product
is in front of the slash, and what is behind it ends at the closing parenthesis, where no term ends.

In front of a sign a term does end, so no other summand may keep a slash.
-/

namespace CalcTypeset.Argument

open Text Chain Fraction CalcTypeset.Sum

variable {n d r w x y p z σ : Text} {q : Quotient} {e : Summand} {es : List (Sign × Summand)}

/-! ## The sites of a line -/

/-- The text ends with a multiplication sign and what may be a factor. -/
def EndsProduct (n : Text) : Prop :=
  ∃ u b m, n = u ++ Markup.timesSign ++ b ++ m ∧ (∀ c ∈ b, isBlank c = true) ∧ IsRun m

/-- Why a line is divided between `n` and `d`, with `r` behind them. -/
inductive Divides (n d r : Text) : Prop where
  /-- There is a group or a call in front of the slash. -/
  | closing (h : ')' ∈ n)
  /-- There is a group or a call behind the slash. -/
  | opening (h : '(' ∈ d)
  /-- There is a product in front of the slash. -/
  | product (h : EndsProduct n)
  /-- There is a term behind the slash, and it ends. -/
  | term (hne : d ≠ []) (hrun : IsRun d) (hends : endsTerm r = true)

/-- A site of a pass over a line, and what there is behind it. -/
def IsLineSite (w : Text) (_ : Quotient) (r : Text) : Prop :=
  ∃ n g d, w = n ++ g ++ d ∧ IsSlash g ∧ Divides n d r

theorem IsLineSite.mem_slash (h : IsLineSite w q r) : '/' ∈ w := by
  obtain ⟨n, g, d, rfl, ⟨b, b', rfl, -⟩, -⟩ := h
  simp

theorem EndsProduct.append (h : EndsProduct n) (p : Text) : EndsProduct (p ++ n) := by
  obtain ⟨u, b, m, rfl, hb, hm⟩ := h
  exact ⟨p ++ u, b, m, by simp, hb, hm⟩

theorem lineSite_division {n d : Recogniser Text} {slash : Recogniser Unit} {P : Text → Prop}
    {Q : Text → Text → Prop} (hn : n.Meets fun w _ _ => P w)
    (hslash : slash.Meets fun w _ _ => IsSlash w) (hd : d.Meets fun w _ r => Q w r)
    (h : ∀ {n d r}, P n → Q d r → Divides n d r) : (division n slash d).Meets IsLineSite := by
  refine (hn.bind fun n => hslash.bind fun _ => hd.map fun d => Fraction.Quotient.mk n d).mono ?_
  rintro w q r ⟨v, n, _, rfl, hn, g, _, v', rfl, hg, d, hd, -⟩
  exact ⟨v, g, v', by simp, hg, h hn hd⟩

theorem closing_of_flat {p : Recogniser Text} (hp : p.Meets Nesting.Flat) :
    p.Meets fun w _ _ => ')' ∈ w := by
  refine hp.mono ?_
  rintro w t r ⟨y, c, rfl, -⟩
  simp [Markup.parenthesised]

theorem closing_withExponent {p : Recogniser Text} (hp : p.Meets fun w _ _ => ')' ∈ w) :
    (withExponent p).Meets fun w _ _ => ')' ∈ w := by
  refine ((hp.bind fun t => meets_exponent.map fun e => t ++ e).orElse hp).mono ?_
  rintro w t r (⟨v, _, _, rfl, hv, -⟩ | h)
  · exact List.mem_append_left _ hv
  · exact h

/-- A division below a group or a call. -/
theorem lineSite_closing {n d : Recogniser Text} {slash : Recogniser Unit}
    {Q : Text → Text → Text → Prop} (hn : n.Meets fun w _ _ => ')' ∈ w)
    (hslash : slash.Meets fun w _ _ => IsSlash w) (hd : d.Meets Q) :
    (division n slash d).Meets IsLineSite :=
  lineSite_division (Q := fun _ _ => True) hn hslash (hd.mono fun _ _ _ _ => trivial)
    fun hn _ => .closing hn

theorem closing_group : group.Meets fun w _ _ => ')' ∈ w := closing_of_flat (flat_group _)

theorem lineSite_groupSites (style : CallStyle) :
    ∀ p ∈ groupSites style, p.Meets IsLineSite := by
  have hcall : filledCall.Meets fun w _ _ => ')' ∈ w := by
    refine ((Call.meets_flatCall.filter _).map _).mono ?_
    rintro w _ r ⟨c, ⟨⟨rfl, -⟩, -⟩, rfl⟩
    simp [Call.write, Markup.parenthesised]
  have hmarkup : (markupGroups style).Meets IsLineSite := by
    cases style with
    | asTyped =>
        exact lineSite_closing (closing_of_flat (flat_group _)) meets_tightSlash
          meets_markupGroup
    | typeset =>
        exact lineSite_closing (closing_of_flat (flat_content _)) meets_tightSlash
          meets_markupContent
  exact forall_groupSites.2 ⟨hmarkup,
    lineSite_closing (closing_of_flat flat_bracedGroup) meets_tightSlash meets_bracedGroup,
    lineSite_closing (closing_withExponent hcall) meets_spacedSlash meets_term,
    lineSite_closing (closing_withExponent closing_group) meets_spacedSlash meets_term⟩

/-- What is read of a product behind its first factor ends with a sign and a factor. -/
theorem endsProduct_continue {st : FactorState} {s : Text}
    (h : lineProduct.continue? st s = some (q, r)) :
    EndsProduct q.dividend ∨ (st ≠ .first ∧ IsRun q.dividend) := by
  induction h using ProductNotation.continue?_induction with
  | @extend st q r c s _ _ hc ih =>
      have hterm : isTermChar c = true := Bool.of_not_eq_false fun hnot => by
        rw [accepts_eq_false st hnot] at hc
        cases hc
      exact ih.imp (fun h => h.append [c]) fun h => ⟨h.1, isRun_cons hterm h.2⟩
  | factor s t st' s' hn ih =>
      refine .inl ?_
      obtain ⟨b, b', c, rfl, -, hb', hc⟩ := nextFactor?_spec hn
      rcases ih with h | ⟨-, hrun⟩
      · exact h.append _
      · exact ⟨b, b', _, List.append_assoc .., hb', isRun_cons hc hrun⟩
  | finish s q r hst h =>
      obtain ⟨_, -, _, -, -, hnil, -⟩ := meets_finish _ _ _ h
      exact .inr ⟨hst, by simp [hnil, IsRun]⟩

theorem lineSite_overTerm : lineProduct.overTerm.Meets IsLineSite := by
  intro s q r hs
  obtain ⟨c, t, q', rfl, -, hq', rfl⟩ := ProductNotation.exists_continue?_of_overTerm hs
  obtain ⟨g, rfl, hg, -⟩ := ProductNotation.continue?_spec Recogniser.meets_never hq'
  have hproduct : EndsProduct q'.dividend :=
    (endsProduct_continue hq').resolve_right fun h => h.1 rfl
  exact ⟨c :: q'.dividend ++ g ++ q'.divisor, by simp, _, g, _, rfl, hg,
    .product (hproduct.append [c])⟩

theorem lineSite_basicSites : ∀ p ∈ basicSites, p.Meets IsLineSite := by
  have hcall : endedCall.Meets fun w _ _ => '(' ∈ w :=
    (meets_call_mem.followedBy endsTerm).mono fun _ _ _ h => h.1
  have hended : endedTerm.Meets fun w _ r => w ≠ [] ∧ IsRun w ∧ endsTerm r = true := by
    intro s t r hs
    obtain ⟨rfl, h⟩ := endedTerm?_spec hs
    exact ⟨t, rfl, h⟩
  have hterm : term.Meets fun _ _ _ => True := meets_term.mono fun _ _ _ _ => trivial
  exact forall_basicSites.2
    ⟨lineSite_closing (closing_withExponent closing_group) meets_spacedSlash meets_groupContent,
      lineSite_overTerm,
      lineSite_division (P := fun _ => True) (Q := fun w _ => '(' ∈ w) hterm meets_spacedSlash hcall
        fun _ hd => .opening hd,
      lineSite_division (P := fun _ => True) hterm meets_spacedSlash hended
        fun _ hd => .term hd.1 hd.2.1 hd.2.2⟩

/-! ## Where nothing is divided -/

/-- Nothing is divided at the slash between `x` and `y`. -/
structure IsLeft (x y : Text) : Prop where
  front : '/' ∉ x ∧ ')' ∉ x
  behind : '/' ∉ y ∧ '(' ∉ y
  noProduct : ∀ {n b}, x = n ++ b → (∀ c ∈ b, isBlank c = true) → ¬ EndsProduct n
  noEnd : ∀ {b d r}, y = b ++ d ++ r → d ≠ [] → IsRun d → endsTerm r = false

theorem IsLeft.not_isLineSite (h : IsLeft x y) (hw : w ++ r <:+ x ++ '/' :: y) :
    ¬ IsLineSite w q r := by
  rintro ⟨n, g, d, rfl, ⟨b, b', rfl, hb, -⟩, hdivides⟩
  obtain ⟨p, hp⟩ := hw
  have hsplit : x ++ '/' :: y = (p ++ n ++ b) ++ '/' :: (b' ++ d ++ r) := by simpa using hp.symm
  obtain ⟨hx, -, hy⟩ := (List.append_cons_inj_of_notMem h.front.1 h.behind.1).1 hsplit
  cases hdivides with
  | closing hmem => exact h.front.2 (by rw [hx]; simp [hmem])
  | opening hmem => exact h.behind.2 (by rw [hy]; simp [hmem])
  | product hn => exact h.noProduct hx hb (hn.append p)
  | term hne hrun hends =>
      rw [h.noEnd hy hne hrun] at hends
      cases hends

theorem IsLeft.rewriteSites (h : IsLeft x y) {kinds : List (Recogniser Quotient)}
    (hkinds : ∀ p ∈ kinds, p.Meets IsLineSite) :
    rewriteSites kinds (x ++ '/' :: y) = x ++ '/' :: y :=
  rewriteSites_eq_self_of_meets hkinds fun _ _ _ ht => h.not_isLineSite ht

/-! ## In front of the slash -/

/-- Blanks do not end a text that ends with another character. -/
theorem eq_nil_of_append_eq {b u v : Text} (h : u ++ b = v ++ w)
    (hb : ∀ c ∈ b, isBlank c = true) (hne : w ≠ []) (hw : ∀ c ∈ w.getLast?, isBlank c = false) :
    b = [] := by
  rcases List.eq_nil_or_concat b with rfl | ⟨b, c, rfl⟩
  · rfl
  · have hlast := congrArg List.getLast? h
    rw [List.concat_eq_append, ← List.append_assoc, List.getLast?_concat,
      List.getLast?_append_of_ne_nil _ hne] at hlast
    have hblank := hb c (by simp)
    rw [hw c hlast.symm] at hblank
    cases hblank

/-- Only a blank or the character of a factor can end a product. -/
theorem EndsProduct.last {c : Char} (h : EndsProduct (p ++ [c])) :
    isTermChar c = true ∨ isBlank c = true := by
  obtain ⟨u, b, m, heq, hb, hm⟩ := h
  have hsign : ∀ c ∈ Markup.timesSign, isTermChar c = true := by decide
  have hne : Markup.timesSign ++ b ++ m ≠ [] := by simp [Markup.timesSign_ne_nil]
  have hlast : (p ++ [c]).getLast? = (u ++ (Markup.timesSign ++ b ++ m)).getLast? := by
    rw [heq, List.append_assoc, List.append_assoc, List.append_assoc]
  rw [List.getLast?_concat, List.getLast?_append_of_ne_nil _ hne] at hlast
  have hmem : c ∈ Markup.timesSign ++ b ++ m := List.mem_of_mem_getLast? hlast.symm
  rcases List.mem_append.1 hmem with hmem | hmem
  · exact (List.mem_append.1 hmem).imp (hsign c) (hb c)
  · exact .inl (hm c hmem)

/-- A product with a blank at its end stops behind a sign. -/
theorem EndsProduct.of_blank (h : EndsProduct (p ++ [' '])) :
    ∃ u b, p = u ++ Markup.timesSign ++ b ∧ ∀ c ∈ b, isBlank c = true := by
  obtain ⟨u, b, m, heq, hb, hm⟩ := h
  rcases List.eq_nil_or_concat m with rfl | ⟨m, c, rfl⟩
  · rcases List.eq_nil_or_concat b with rfl | ⟨b, c, rfl⟩
    · have hlast := congrArg List.getLast? heq
      rw [List.append_nil, List.append_nil, List.getLast?_concat,
        List.getLast?_append_of_ne_nil _ Markup.timesSign_ne_nil] at hlast
      exact absurd hlast (by decide)
    · refine ⟨u, b, ?_, fun x hx => hb x (by simp [hx])⟩
      have hinit := congrArg List.dropLast heq
      simpa using hinit
  · have hlast := congrArg List.getLast? heq
    rw [List.concat_eq_append, ← List.append_assoc, List.getLast?_concat,
      List.getLast?_concat] at hlast
    obtain rfl := Option.some.inj hlast
    exact absurd (hm ' ' (by simp)) (by decide)

/-- Two texts that go on alike behind their last `c` are the same from there. -/
theorem eq_of_append_cons {u v : Text} {c : Char} (h : x ++ c :: u = y ++ c :: v) (hu : c ∉ u)
    (hv : c ∉ v) : u = v := by
  rcases List.append_eq_append_iff.1 h with ⟨a, -, ha⟩ | ⟨a, -, ha⟩
  · cases a with
    | nil => exact (List.cons.inj ha).2
    | cons b a => exact absurd ((List.cons.inj ha).2 ▸ List.mem_append_right a (.head v)) hu
  · cases a with
    | nil => exact (List.cons.inj ha).2.symm
    | cons b a => exact absurd ((List.cons.inj ha).2 ▸ List.mem_append_right a (.head u)) hv

/-- A fraction begins with its only backslash, and no term ends in front of its other characters. -/
theorem exists_frac_eq (t d : Term) : ∃ y, Markup.frac t.text d.text = '\\' :: 'f' :: y ∧
    ∀ c ∈ 'f' :: y, isTermChar c = true ∧ c ∉ ['/', '+', '-', '\\'] := by
  have hterm : ∀ (t : Term), ∀ c ∈ t.text, isTermChar c = true ∧ c ∉ ['/', '+', '-', '\\'] := by
    intro t c hc
    have hsigns : ∀ x ∈ ['/', '+', '-', '\\'], isPlainChar x = false := by decide
    exact ⟨t.isRun c hc, fun hmem => absurd (t.isPlain c hc) (by rw [hsigns c hmem]; decide)⟩
  have hmarkup : ∀ c ∈ "frac\x7b\x7d".toList,
      isTermChar c = true ∧ c ∉ ['/', '+', '-', '\\'] := by decide
  refine ⟨"rac\x7b".toList ++ (t.text ++ ("\x7d\x7b".toList ++ (d.text ++ ['}']))),
    by rw [frac_eq]; rfl, fun c hc => ?_⟩
  have hmem : c ∈ "frac\x7b\x7d".toList ∨ c ∈ t.text ∨ c ∈ d.text := by
    simp only [List.mem_cons, List.mem_append] at hc ⊢
    grind
  rcases hmem with hc | hc | hc
  · exact hmarkup c hc
  · exact hterm t c hc
  · exact hterm d c hc

/-- A fraction is no factor of a product that does not begin in front of it. -/
theorem not_endsProduct_frac (hx : ¬ EndsProduct x) (t d : Term) :
    ¬ EndsProduct (x ++ Markup.frac t.text d.text) := by
  obtain ⟨y, hy, hchars⟩ := exists_frac_eq t d
  rw [hy]
  rintro ⟨u, b, m, heq, hb, hm⟩
  rcases List.append_eq_append_iff.1 heq with ⟨v, hv, hfrac⟩ | ⟨v, rfl, rfl⟩
  · cases v with
    | nil => exact hx ⟨u, b, [], by simpa using hv.symm, hb, by simp [IsRun]⟩
    | cons c v =>
        -- The sign would have to be the fraction's command.
        obtain ⟨rfl, htail⟩ := List.cons.inj hfrac
        have hv' : ∀ c ∈ v, isTermChar c = true ∧ c ∉ ['/', '+', '-', '\\'] := fun c hc =>
          hchars c (htail ▸ List.mem_append_left m hc)
        have hrun : IsRun ('\\' :: v) := isRun_cons (by decide) fun c hc => (hv' c hc).1
        obtain rfl := eq_nil_of_append_eq hv hb (List.cons_ne_nil _ _) fun c hc =>
          isBlank_of_isTermChar (hrun c (List.mem_of_mem_getLast? hc))
        have hsign : u ++ '\\' :: "times".toList = x ++ '\\' :: v := by rwa [List.append_nil] at hv
        obtain rfl := eq_of_append_cons hsign (by decide) fun hmem => (hv' _ hmem).2 (by simp)
        cases htail
  · exact hx ⟨u, b, v, rfl, hb, fun c hc => hm c (List.mem_append_left _ hc)⟩

/-! ## Behind the slash -/

/-- A term or a fraction, which is what a slash that is left has behind it. -/
inductive IsRest : Text → Prop where
  | term (t : Term) : IsRest t.text
  | frac (t d : Term) : IsRest (Markup.frac t.text d.text)

theorem IsRest.exists_cons (h : IsRest z) : ∃ c y, z = c :: y ∧ isTermChar c = true ∧
    ∀ x ∈ y, isTermChar x = true ∧ x ∉ ['/', '+', '-', '\\'] := by
  cases h with
  | term t =>
      obtain ⟨c, y, ht, hc, hy⟩ := t.exists_cons
      have hsigns : ∀ x ∈ ['/', '+', '-', '\\'], isPlainChar x = false := by decide
      exact ⟨c, y, ht, isTermChar_of_isPlainChar hc, fun x hx =>
        ⟨isTermChar_of_isPlainChar (hy x hx),
          fun hmem => absurd (hy x hx) (by rw [hsigns x hmem]; decide)⟩⟩
  | frac t d =>
      obtain ⟨y, hfrac, hy⟩ := exists_frac_eq t d
      exact ⟨'\\', 'f' :: y, hfrac, by decide, hy⟩

theorem IsRest.isRun (h : IsRest z) : IsRun z := by
  obtain ⟨c, y, rfl, hc, hy⟩ := h.exists_cons
  exact isRun_cons hc fun x hx => (hy x hx).1

/-- In front of the closing parenthesis no term ends. -/
theorem IsRest.endsTerm_eq_false (h : IsRest z) {b : Text} (heq : z ++ [')'] = b ++ d ++ r)
    (hne : d ≠ []) (hrun : IsRun d) : endsTerm r = false := by
  obtain ⟨c, y, rfl, -, hy⟩ := h.exists_cons
  cases r with
  | nil =>
      have hlast := congrArg List.getLast? heq
      rw [List.append_nil, List.getLast?_concat, List.getLast?_append_of_ne_nil _ hne] at hlast
      exact absurd (hrun _ (List.mem_of_mem_getLast? hlast.symm)) (by decide)
  | cons x r =>
      obtain ⟨c', e, hfront⟩ := List.exists_cons_of_ne_nil (List.append_ne_nil_of_right_ne_nil b hne)
      rw [hfront] at heq
      have htail : y ++ [')'] = e ++ x :: r := (List.cons.inj heq).2
      have hmem : x ∈ y ++ [')'] := by simp [htail]
      have hx : isBlank x = false ∧ x ∉ ['/', '+', '-', '\\'] := by
        rcases List.mem_append.1 hmem with hmem | hmem
        · exact ⟨isBlank_of_isTermChar (hy x hmem).1, (hy x hmem).2⟩
        · rw [List.mem_singleton.1 hmem]
          decide
      exact endsTerm_cons_eq_false hx.1 hx.2 r

/-! ## The call -/

/-- Nothing, or what stands in front of a summand. -/
def IsLed (a : Text) : Prop := a = [] ∨ ∃ (p : Text) (g : Sign), a = p ++ [g.1] ++ [' ']

/-- Behind an opening parenthesis or a sign no product goes on. -/
theorem IsLed.not_endsProduct {a : Text} (h : IsLed a) (name : Text) :
    ¬ EndsProduct (name ++ '(' :: a) := by
  rcases h with rfl | ⟨p, g, rfl⟩
  · intro h
    have := h.last
    revert this
    decide
  · intro h
    have hfront : name ++ '(' :: (p ++ [g.1] ++ [' ']) =
        ((name ++ '(' :: p) ++ [g.1]) ++ [' '] := by simp
    have hsolid : ∀ c ∈ [g.1].getLast?, isBlank c = false := by
      obtain ⟨g, rfl | rfl⟩ := g <;> decide
    obtain ⟨u, b, heq, hb⟩ := (hfront ▸ h).of_blank
    obtain rfl := eq_nil_of_append_eq heq.symm hb (List.cons_ne_nil _ _) hsolid
    have hlast := congrArg List.getLast? heq
    rw [List.getLast?_concat, List.append_nil,
      List.getLast?_append_of_ne_nil _ Markup.timesSign_ne_nil] at hlast
    obtain ⟨g, rfl | rfl⟩ := g <;> exact absurd hlast (by decide)

theorem isLeft_call {name a : Text} (hname : '/' ∉ name ∧ ')' ∉ name) (ha : IsLed a)
    (hmem : '/' ∉ a ∧ ')' ∉ a) (t d : Term) (hz : IsRest z) :
    IsLeft (name ++ '(' :: (a ++ Markup.frac t.text d.text)) (z ++ [')']) where
  front := by
    have hfrac : IsRun (Markup.frac t.text d.text) := (IsRest.frac t d).isRun
    have hround : ')' ∉ Markup.frac t.text d.text := fun hmem => absurd (hfrac _ hmem) (by decide)
    simp [hname, hmem, hround, hfrac.not_mem_slash]
  behind := by
    have hround : '(' ∉ z := fun hmem => absurd (hz.isRun _ hmem) (by decide)
    simp [hround, hz.isRun.not_mem_slash]
  noProduct {n b} heq hb hn := by
    -- A fraction has no blank at its end.
    have hsplit : n ++ b = (name ++ '(' :: a) ++ Markup.frac t.text d.text := by simp [← heq]
    have hfrac : Markup.frac t.text d.text ≠ [] := List.cons_ne_nil _ _
    obtain rfl := eq_nil_of_append_eq hsplit hb hfrac fun c hc =>
      isBlank_of_isTermChar ((IsRest.frac t d).isRun c (List.mem_of_mem_getLast? hc))
    refine not_endsProduct_frac (ha.not_endsProduct name) t d ?_
    rw [List.append_nil] at heq
    simpa [← heq] using hn
  noEnd heq hne hrun := hz.endsTerm_eq_false heq hne hrun

/-! ## The sum in the call -/

/-- No slash is left of the summand: a single term is divided once at most, and a product of two
factors or more twice. -/
def Summand.IsClosed (e : Summand) : Prop := e.divisors.length ≤ if e.front.isEmpty then 1 else 2

/-- No slash is left of any summand but the last, which may be a single term that is divided three
times at most. -/
def IsSettled : Summand → List (Sign × Summand) → Prop
  | e, [] => e.divisors.length ≤ if e.front.isEmpty then 3 else 2
  | e, (_, e') :: es => e.IsClosed ∧ IsSettled e' es

theorem not_mem_slash_divided (hσ : '/' ∉ σ) (h : e.IsClosed) : '/' ∉ e.divided σ := by
  have hrun := (isRun_run e).not_mem_slash
  have hpaired : '/' ∉ paired e.run e.pending := by
    have hpending : e.pending.length ≤ 1 := by
      obtain ⟨front, last, divisors⟩ := e
      cases front <;> cases divisors <;> simp [Summand.IsClosed, Summand.pending] at h ⊢ <;> omega
    rcases hds : e.pending with _ | ⟨d, _ | ⟨d', ds⟩⟩
    · exact hrun
    · exact not_mem_slash_frac hrun d.isRun.not_mem_slash
    · simp [hds] at hpending
  rw [Summand.divided, List.mem_append, not_or]
  exact ⟨not_mem_slash_lead hσ e, hpaired⟩

/-- A summand that keeps a slash has a single fraction in front of it. -/
theorem exists_of_mem_slash (hσ : '/' ∉ σ) (h : IsSettled e [])
    (hmem : '/' ∈ e.divided σ) : ∃ (t d : Term) (z : Text), e.divided σ =
      Markup.frac t.text d.text ++ '/' :: z ∧ IsRest z := by
  by_cases hclosed : e.IsClosed
  · exact absurd hmem (not_mem_slash_divided hσ hclosed)
  · obtain ⟨front, last, divisors⟩ := e
    cases front with
    | nil =>
        match divisors with
        | [] | [_] => simp [Summand.IsClosed] at hclosed
        | [d, d'] => exact ⟨last, d, d'.text, rfl, .term d'⟩
        | [d, d', d''] => exact ⟨last, d, _, rfl, .frac d' d''⟩
        | _ :: _ :: _ :: _ :: ds =>
            have hlength : ds.length + 4 ≤ 3 := h
            omega
    | cons t ts => exact absurd h hclosed

/-- The slash that is left of a sum stands behind a fraction of its last summand. -/
theorem exists_left (hσ : '/' ∉ σ) (h : IsSettled e es)
    (hmem : '/' ∈ sum (Summand.divided σ) e es) : ∃ (a : Text) (t d : Term) (z : Text),
      sum (Summand.divided σ) e es = a ++ (Markup.frac t.text d.text ++ '/' :: z) ∧
        IsLed a ∧ '/' ∉ a ∧ IsRest z := by
  induction es generalizing e with
  | nil =>
      obtain ⟨t, d, z, heq, hz⟩ := exists_of_mem_slash hσ h hmem
      exact ⟨[], t, d, z, heq, .inl rfl, by simp, hz⟩
  | cons x es ih =>
      obtain ⟨g, e'⟩ := x
      have hclosed := not_mem_slash_divided hσ h.1
      have hsign : '/' ≠ g.1 := by obtain ⟨g, rfl | rfl⟩ := g <;> decide
      have hrest : '/' ∈ sum (Summand.divided σ) e' es := by
        simpa [sum, joined, hclosed, hsign] using hmem
      obtain ⟨a, t, d, z, heq, ha, hslash, hz⟩ := ih h.2 hrest
      refine ⟨e.divided σ ++ ' ' :: g.1 :: ' ' :: a, t, d, z, ?_, ?_, ?_, hz⟩
      · simp [sum, joined, heq]
      · rcases ha with rfl | ⟨p, g', rfl⟩
        · exact .inr ⟨e.divided σ ++ [' '], g, by simp⟩
        · exact .inr ⟨e.divided σ ++ ' ' :: g.1 :: ' ' :: p, g', by simp⟩
      · simp [hclosed, hsign, hslash]

/-- The passes over a line leave the call of a sum that has been divided as it is. -/
theorem rewriteSites_call {kinds : List (Recogniser Quotient)}
    (hkinds : ∀ p ∈ kinds, p.Meets IsLineSite) (hσ : HasSumChars σ) (hslash : '/' ∉ σ)
    {name : Text} (hname : IsPlain name) (h : IsSettled e es) :
    rewriteSites kinds (Call.write ⟨name, sum (Summand.divided σ) e es⟩) =
      Call.write ⟨name, sum (Summand.divided σ) e es⟩ := by
  have hround : '/' ∉ name ∧ ')' ∉ name :=
    ⟨fun hmem => absurd (hname _ hmem) (by decide), fun hmem => absurd (hname _ hmem) (by decide)⟩
  by_cases hmem : '/' ∈ sum (Summand.divided σ) e es
  · obtain ⟨a, t, d, z, heq, ha, hfront, hz⟩ := exists_left hslash h hmem
    have hclosing : ')' ∉ sum (Summand.divided σ) e es :=
      (hasSumChars_sum (hasSumChars_divided hσ) e es).not_mem (by decide)
    rw [heq, List.mem_append, not_or] at hclosing
    have hcall : Call.write ⟨name, sum (Summand.divided σ) e es⟩ =
        name ++ '(' :: (a ++ Markup.frac t.text d.text) ++ '/' :: (z ++ [')']) := by
      simp [heq, Call.write, Markup.parenthesised]
    rw [hcall]
    exact (isLeft_call hround ha ⟨hfront, hclosing.1⟩ t d hz).rewriteSites hkinds
  · have hcall : '/' ∉ Call.write ⟨name, sum (Summand.divided σ) e es⟩ := by
      simp [Call.write, Markup.parenthesised, hround, hmem]
    exact rewriteSites_eq_self_of_meets hkinds fun _ _ _ ht hw =>
      hcall (ht.subset (List.mem_append_left _ hw.mem_slash))

end CalcTypeset.Argument
