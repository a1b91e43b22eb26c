import CalcTypeset.Proofs.Called.Constants
import CalcTypeset.Proofs.Sum.Additivity

/-!
# Calls and groups on their way to the divisions

What is done to the operators on one side of a parenthesis or a slash does not depend on the other
side, since neither is part of an operator or a blank. So of a call or a group each pass in front of
the divisions rewrites the content on its own, whatever follows; a gap at an edge of the content
stays there as one space. The parentheses of constants go in these passes, and no others do.
-/

namespace CalcTypeset

open Text Operator

/-- A call, or a group when there is no name. Its content is not empty, closes its parentheses and
holds no slash. -/
structure Enclosed where
  name : Text
  content : Text
  isWord : ∀ c ∈ name, isWordChar c = true
  ne_nil : content ≠ []
  isBalanced : Bracket.IsBalanced '(' ')' content
  noSlash : '/' ∉ content

namespace Enclosed

/-- Something in parentheses, with `w` in front of them and `u` behind them. -/
def around (w a u : Text) : Text := w ++ '(' :: (a ++ ')' :: u)

/-- The pass treats both sides of the character on their own. -/
def CutsAt (F : Text → Text) (x : Char) : Prop := ∀ s t, F (s ++ x :: t) = F s ++ x :: F t

variable {s t u w a : Text} {x : Char} {F G : Text → Text} {k : KnownConstant}

theorem around_nil_eq (w a u : Text) : around w a u = around w a [] ++ u := by simp [around]

/-! ## Operators -/

theorem CutsAt.comp (hF : CutsAt F x) (hG : CutsAt G x) : CutsAt (fun s => G (F s)) x :=
  fun s t => (congrArg G (hF s t)).trans (hG (F s) (F t))

theorem CutsAt.around (hopen : CutsAt F '(') (hclose : CutsAt F ')') (hw : F w = w) (a u : Text) :
    F (around w a u) = Enclosed.around w (F a) (F u) := by
  rw [Enclosed.around, hopen, hclose, hw, Enclosed.around]

theorem cutsAt_bracePowers (hx : isExponentChar x = false) (hne : x ≠ '^' ∧ x ≠ '-') :
    CutsAt bracePowers x := by
  intro s t
  have hrun : ∀ c ∈ (x :: t).head?, isExponentChar c = false := by simpa using hx
  have hlocal : ∀ r, power.LocalAt (x :: t) r := fun r =>
    (Recogniser.localAt_single (by simpa using hne.1) r).bind fun _ r _ =>
      (((Recogniser.localAt_single (by simpa using hne.2) r).bind fun _ r _ =>
        (Recogniser.localAt_run hrun r).map _).orElse (Recogniser.localAt_run hrun r))
  have hnone : power.read? (x :: t) = none :=
    Recogniser.read?_bind_eq_none (Recogniser.read?_single_eq_none hne.1 t) _
  rw [bracePowers, Recogniser.replaceAll_append (fun r _ _ => hlocal r)
    (meets_power.mono fun _ _ _ _ => trivial), Recogniser.replaceAll_of_none _ _ hnone]

theorem cutsAt_writeProducts (hx : isBlank x = false) (hne : x ≠ '*') : CutsAt writeProducts x :=
  infixSign_replaceAll_append hx hne

theorem cutsAt_writeRemainders (hx : isBlank x = false) (hne : x ≠ '%') :
    CutsAt writeRemainders x :=
  infixSign_replaceAll_append hx hne

theorem cutsAt_prepare (hx : x ∈ ['(', ')', '/']) : CutsAt prepare x := by
  have hexponent : ∀ x ∈ ['(', ')', '/'], isExponentChar x = false := by decide
  have hsign : ∀ x ∈ ['(', ')', '/'], (x ≠ '^' ∧ x ≠ '-') ∧ isBlank x = false ∧ x ≠ '*' := by
    decide
  obtain ⟨hpower, hblank, hstar⟩ := hsign x hx
  exact (cutsAt_bracePowers (hexponent x hx) hpower).comp (cutsAt_writeProducts hblank hstar)

/-- What is done to the operators at the end, up to the gaps. -/
def tidy (s : Text) : Text := mergeDegrees (writeRemainders s)

theorem cutsAt_tidy (hx : x ∈ ['(', ')', '/', '{', '}']) : CutsAt tidy x := by
  have hsign : ∀ x ∈ ['(', ')', '/', '{', '}'],
      x ≠ Markup.degree ∧ isBlank x = false ∧ x ≠ '%' := by decide
  obtain ⟨hdegree, hblank, hpercent⟩ := hsign x hx
  exact (cutsAt_writeRemainders hblank hpercent).comp (Sum.mergeDegrees_append hdegree)

theorem tidy_eq_self (hpercent : '%' ∉ s) (hdegree : Markup.degree ∉ s) : tidy s = s := by
  rw [tidy, writeRemainders_eq_self hpercent, mergeDegrees_eq_self hdegree]

/-! ## Gaps -/

theorem squeezeAfter_around (hw : ∀ c ∈ w, isBlank c = false) (a u : Text) :
    squeezeAfter false (around w a u) =
      around w (squeezeInside false a) (squeezeAfter false u) := by
  have hopen : isBlank '(' = false ∧ isBlank ')' = false := by decide
  rw [around, squeezeAfter_append_of_no_blank hw, squeezeAfter_cons hopen.1,
    squeezeAfter_append_cons hopen.2]
  rfl

theorem squeeze_around (hw : ∀ c ∈ w, isBlank c = false) (a u : Text) :
    squeeze (around w a u) = around w (squeezeInside false a) (squeezeAfter false u) := by
  have hhead : ∀ c ∈ (around w a u).head?, isBlank c = false := by
    intro c hc
    cases w with
    | nil =>
        obtain rfl : '(' = c := Option.some.inj hc
        decide
    | cons y w =>
        obtain rfl : y = c := Option.some.inj hc
        exact hw y (by simp)
  rw [squeeze, skipBlanks_eq_self hhead, squeezeAfter_around hw]

theorem mem_squeezeAfter_iff (hx : isBlank x = false) (gap : Bool) :
    x ∈ squeezeAfter gap s ↔ x ∈ s := by
  have hfilter : ∀ t : Text, x ∈ t ↔ x ∈ t.filter fun c => !isBlank c := fun t => by
    simp [List.mem_filter, hx]
  rw [hfilter, filter_squeezeAfter, ← hfilter]

theorem mem_squeezeInside_iff (hx : isBlank x = false) : x ∈ squeezeInside false s ↔ x ∈ s := by
  have hspace : ∀ gap, x ∉ gapSpace gap := fun gap hmem => by
    cases gap with
    | false => cases hmem
    | true =>
        rw [List.mem_singleton.1 hmem] at hx
        cases hx
  rw [squeezeInside, List.mem_append, mem_squeezeAfter_iff hx, or_iff_left (hspace _)]

/-! ## Constants -/

/-- A constant has no content, so a parenthesis behind some content closes none. -/
theorem localAt_constant (k : KnownConstant) (w u : Text) (ht : t ≠ ['(']) :
    (k.call w).LocalAt (')' :: u) t := by
  unfold KnownConstant.call
  split
  · rcases t with _ | ⟨c, _ | ⟨d, t⟩⟩
    · rfl
    · have hc : '(' ≠ c := fun h => ht (by rw [h])
      simp [Recogniser.LocalAt, Recogniser.literal, after?, hc]
    · simp only [Recogniser.LocalAt, Recogniser.literal, List.cons_append, after?]
      split
      · split <;> rfl
      · rfl
  · rfl

/-- The constants of a content are replaced on their own. -/
theorem replace_around (k : KnownConstant) (hw : ∀ c ∈ w, isWordChar c = true) (ha : a ≠ [])
    (hbalanced : Bracket.IsBalanced '(' ')' a) (u : Text) :
    k.replace (around w a u) = around w (k.replace a) (k.replace u) := by
  obtain ⟨c, r, rfl⟩ := List.exists_cons_of_ne_nil ha
  have hc : c ≠ ')' := by
    rintro rfl
    cases hbalanced
  have hfront : k.replace (w ++ '(' :: (c :: r ++ ')' :: u)) =
      w ++ '(' :: k.replace (c :: r ++ ')' :: u) := by
    have hopen : ∀ s, k.replace ('(' :: s) = '(' :: k.replace s :=
      Called.replace_cons isWordChar_opening
    by_cases hnil : w = []
    · rw [hnil]
      exact hopen _
    · have hrun : run? isWordChar (w ++ '(' :: (c :: r ++ ')' :: u)) =
          some (w, '(' :: (c :: r ++ ')' :: u)) :=
        run?_append hnil hw (by simp)
      have hnone : (k.call w).read? ('(' :: (c :: r ++ ')' :: u)) = none := by
        unfold KnownConstant.call
        split
        · simp [Recogniser.literal, after?, Ne.symm hc]
        · rfl
      rw [KnownConstant.replace, WordRule.replaceAll_of_none hrun hnone]
      exact congrArg (w ++ ·) (hopen _)
  have hback : k.replace (c :: r ++ ')' :: u) = k.replace (c :: r) ++ ')' :: k.replace u := by
    have hcut : k.replace (c :: r ++ ')' :: u) = k.replace (c :: r) ++ k.replace (')' :: u) := by
      refine WordRule.replaceAll_append (by simp) (fun w t ht => ?_)
        fun w => (k.meets_call w).mono fun _ _ _ _ => trivial
      refine localAt_constant k w u fun h => ?_
      have := Bracket.Kind.closing_mem_of_suffix (k := .round) hbalanced (h ▸ ht)
      cases this
    exact hcut.trans (congrArg (_ ++ ·) (Called.replace_cons isWordChar_closing u))
  rw [around, hfront, hback]
  rfl

theorem replace_ne_nil (hs : s ≠ []) : k.replace s ≠ [] :=
  (Sum.rewrites_constant k s).ne_nil (fun _ _ => Sum.ConstantOf.ne_nil) hs

theorem replaceEach_around (hw : ∀ c ∈ w, isWordChar c = true) (ha : a ≠ [])
    (hbalanced : Bracket.IsBalanced '(' ')' a) (u : Text) :
    KnownConstant.replaceEach (around w a u) =
      around w (KnownConstant.replaceEach a) (KnownConstant.replaceEach u) := by
  show KnownConstant.replace .e (KnownConstant.replace .pi (around w a u)) = _
  rw [replace_around .pi hw ha hbalanced, replace_around .e hw (replace_ne_nil ha)
    ((KnownConstant.keeps_replace (k := .round) .pi a).isBalanced hbalanced)]
  rfl

theorem isBlank_of_mem_latex (k : KnownConstant) : ∀ c ∈ k.latex, isBlank c = false := by
  cases k <;> decide

/-- A gap in front of a visible character is written as one blank, before the constants are
replaced and after. -/
theorem replace_squeezeAfter_cons {k : KnownConstant} {x y : Char} {s t : Text}
    (hx : isBlank x = false) (hy : isBlank y = false)
    (h : k.replace (squeezeAfter false (x :: s)) = squeezeAfter false (y :: t)) (gap : Bool) :
    k.replace (squeezeAfter gap (x :: s)) = squeezeAfter gap (y :: t) := by
  cases gap with
  | false => exact h
  | true =>
      rw [squeezeAfter_true_eq hx, squeezeAfter_true_eq hy,
        Called.replace_cons isWordChar_blank, h]

/-- Constants are replaced alike whether gaps are squeezed before or after. -/
theorem replace_squeezeAfter (k : KnownConstant) (gap : Bool) (s : Text) :
    k.replace (squeezeAfter gap s) = squeezeAfter gap (k.replace s) := by
  have hsolid : ∀ {w : Text}, (∀ c ∈ w, isWordChar c = true) → ∀ c ∈ w, isBlank c = false :=
    fun hw c hc => Fraction.isBlank_of_isWordChar (hw c hc)
  induction s using WordRule.scan_induction k.call generalizing gap with
  | nil =>
      rw [KnownConstant.replace, WordRule.replaceAll_nil, squeezeAfter, WordRule.replaceAll_nil]
  | read s w r a r' hw hr ih =>
      have hword := run?_all hw
      have hreplace : k.replace s = k.latex ++ k.replace r' := WordRule.replaceAll_of_read hw hr
      have hread : ∀ t, (k.call w).read? (['(', ')'] ++ t) = some ((), t) := by
        obtain ⟨-, -, rfl, -⟩ := k.meets_call w _ _ _ hr
        intro t
        rw [KnownConstant.call, if_pos rfl]
        exact Recogniser.read?_literal_eq_some_iff.2 rfl
      obtain ⟨_, rfl, -, rfl⟩ := k.meets_call w _ _ _ hr
      have hround : ∀ c ∈ ['(', ')'], isBlank c = false := by decide
      obtain ⟨x, w, rfl⟩ := List.exists_cons_of_ne_nil (run?_ne_nil hw)
      obtain ⟨y, l, hl⟩ : ∃ y l, k.latex = y :: l := by cases k <;> exact ⟨_, _, rfl⟩
      rw [hreplace, hl, run?_eq_append hw]
      refine replace_squeezeAfter_cons (hsolid hword x (by simp))
        (isBlank_of_mem_latex k y (by simp [hl])) ?_ gap
      show k.replace (squeezeAfter false (x :: w ++ (['(', ')'] ++ r'))) =
        squeezeAfter false (y :: l ++ k.replace r')
      rw [← hl, squeezeAfter_append_of_no_blank (hsolid hword),
        squeezeAfter_append_of_no_blank hround,
        squeezeAfter_append_of_no_blank (isBlank_of_mem_latex k), ← ih false]
      exact WordRule.replaceAll_of_read (run?_append (by simp) hword (by simp)) (hread _)
  | pass s w r hw hr ih =>
      have hword := run?_all hw
      have hreplace : k.replace s = w ++ k.replace r := WordRule.replaceAll_of_none hw hr
      obtain ⟨x, w, rfl⟩ := List.exists_cons_of_ne_nil (run?_ne_nil hw)
      have hx := hsolid hword x (by simp)
      rw [hreplace, run?_eq_append hw]
      refine replace_squeezeAfter_cons hx hx ?_ gap
      show k.replace (squeezeAfter false (x :: w ++ r)) =
        squeezeAfter false (x :: w ++ k.replace r)
      rw [squeezeAfter_append_of_no_blank (hsolid hword),
        squeezeAfter_append_of_no_blank (hsolid hword), ← ih false]
      exact WordRule.replaceAll_of_none
        (run?_append (by simp) hword (Called.keepsFront_squeezeAfter.word (run?_head hw)))
        (Called.keepsFront_squeezeAfter.call_read?_eq_none hr)
  | other c s hc ih =>
      rw [Called.replace_cons hc]
      cases hb : isBlank c with
      | true =>
          rw [squeezeAfter, if_pos hb, squeezeAfter, if_pos hb]
          exact ih true
      | false =>
          refine replace_squeezeAfter_cons hb hb ?_ gap
          have hcons : ∀ s, squeezeAfter false (c :: s) = c :: squeezeAfter false s := fun s => by
            simp [squeezeAfter, hb]
          rw [hcons, hcons, Called.replace_cons hc, ih false]

theorem replace_append_gap (k : KnownConstant) (s : Text) (gap : Bool) :
    k.replace (s ++ gapSpace gap) = k.replace s ++ gapSpace gap := by
  cases gap with
  | false => exact congrArg k.replace (List.append_nil s) |>.trans (List.append_nil _).symm
  | true =>
      have hword : ∀ c ∈ [' '].head?, isWordChar c = false := by decide +kernel
      have hlocal : ∀ w t, (k.call w).LocalAt [' '] t := fun w t => by
        unfold KnownConstant.call
        split
        · exact Recogniser.localAt_literal (by decide) t
        · rfl
      have hcut : k.replace (s ++ [' ']) = k.replace s ++ k.replace [' '] :=
        WordRule.replaceAll_append hword (fun w t _ => hlocal w t)
          fun w => (k.meets_call w).mono fun _ _ _ _ => trivial
      have hspace : k.replace [' '] = [' '] :=
        (Called.replace_cons (hword ' ' rfl) []).trans
          (congrArg (' ' :: ·) WordRule.replaceAll_nil)
      exact hcut.trans (congrArg (k.replace s ++ ·) hspace)

theorem replaceEach_squeezeInside (s : Text) :
    KnownConstant.replaceEach (squeezeInside false s) =
      squeezeAfter false (KnownConstant.replaceEach s) ++
        gapSpace (gapAfter false s) := by
  show KnownConstant.replace .e (KnownConstant.replace .pi (squeezeInside false s)) = _
  rw [squeezeInside, replace_append_gap, replace_squeezeAfter, replace_append_gap,
    replace_squeezeAfter]
  rfl

/-! ## In front of the divisions -/

variable (e : Enclosed)

/-- The call or the group as it is typed. -/
def write : Text := Call.write ⟨e.name, e.content⟩

/-- The content when gaps are squeezed, constants replaced and operators prepared. -/
def prepared : Text := prepare (KnownConstant.replaceEach (squeezeInside false e.content))

/-- The content has parentheses, those of constants apart. -/
def IsNested : Prop := '(' ∈ KnownConstant.replaceEach e.content

instance : Decidable e.IsNested := inferInstanceAs (Decidable (_ ∈ _))

theorem write_append (u : Text) : e.write ++ u = around e.name e.content u := by
  simp [write, Call.write, Markup.parenthesised, around]

theorem isBlank_of_mem_name : ∀ c ∈ e.name, isBlank c = false := fun c hc =>
  Fraction.isBlank_of_isWordChar (e.isWord c hc)

theorem prepare_name : prepare e.name = e.name := by
  have hword : ∀ x ∈ ['^', '*'], isWordChar x = false := by decide +kernel
  have hmem : ∀ x ∈ ['^', '*'], x ∉ e.name := fun x hx hmem => by
    have := hword x hx
    rw [e.isWord x hmem] at this
    cases this
  rw [prepare, bracePowers_eq_self (hmem '^' (by simp))]
  exact infixSign_replaceAll_eq_self (hmem '*' (by simp))

/-- Up to the divisions, the content and what follows are prepared on their own. -/
theorem prepare_write_append (u : Text) :
    prepare (KnownConstant.replaceEach (squeeze (e.write ++ u))) =
      around e.name e.prepared (prepare (KnownConstant.replaceEach (squeezeAfter false u))) := by
  have hbalanced := (keeps_squeezeInside (k := .round) false e.content).isBalanced e.isBalanced
  rw [write_append, squeeze_around e.isBlank_of_mem_name,
    replaceEach_around e.isWord (squeezeInside_ne_nil e.ne_nil) hbalanced]
  exact (cutsAt_prepare (by simp)).around (cutsAt_prepare (by simp)) e.prepare_name _ _

/-! ## The prepared content -/

/-- Written anew, a text has a character or not as it had it before. -/
theorem congruence_mem (x : Char) : Text.Congruence fun s s' => x ∈ s' ↔ x ∈ s where
  refl _ := .rfl
  append hs ht := by rw [List.mem_append, List.mem_append, hs, ht]

theorem mem_prepare_iff (hx : x ∈ ['(', ')', '/']) : x ∈ prepare s ↔ x ∈ s := by
  have hbraces : ∀ x ∈ ['(', ')', '/'], x ≠ '{' ∧ x ≠ '}' ∧ x ∉ Markup.times ∧ x ≠ '*' ∧
      isBlank x = false := by decide
  obtain ⟨hopen, hclose, htimes, hstar, hblank⟩ := hbraces x hx
  have hpowers : x ∈ bracePowers s ↔ x ∈ s := by
    refine Recogniser.replaceAll_rel (congruence_mem x) meets_power ?_ s
    rintro _ w r ⟨rfl, -⟩
    simp [Markup.braced, hopen, hclose]
  have hproducts : ∀ t, x ∈ writeProducts t ↔ x ∈ t := by
    refine Recogniser.replaceAll_rel (congruence_mem x) (meets_infixSign '*') ?_
    rintro _ _ r ⟨b, b', rfl, hb, hb'⟩
    have hgap : ∀ {b : Text}, (∀ c ∈ b, isBlank c = true) → x ∉ b := fun hb hmem => by
      rw [hb x hmem] at hblank
      cases hblank
    simp [htimes, hgap hb, hgap hb', hstar]
  rw [prepare, hproducts, hpowers]

theorem mem_slash_replaceEach_iff : '/' ∈ KnownConstant.replaceEach s ↔ '/' ∈ s := by
  have hone : ∀ (k : KnownConstant) s, '/' ∈ k.replace s ↔ '/' ∈ s := by
    intro k
    refine WordRule.replaceAll_rel (congruence_mem '/') k.meets_call ?_
    rintro w _ _ r - - ⟨rfl, rfl⟩
    cases k <;> decide
  exact (hone .e _).trans (hone .pi s)

theorem prepared_isBalanced : Bracket.IsBalanced '(' ')' e.prepared :=
  (((keeps_squeezeInside (k := .round) false e.content).trans
    (KnownConstant.keeps_replaceEach _)).trans (keeps_prepare _)).isBalanced e.isBalanced

theorem prepared_noSlash : '/' ∉ e.prepared := by
  rw [prepared, mem_prepare_iff (by simp), mem_slash_replaceEach_iff,
    mem_squeezeInside_iff (by decide)]
  exact e.noSlash

theorem prepared_ne_nil : e.prepared ≠ [] := by
  have hpowers : ∀ {s}, s ≠ [] → bracePowers s ≠ [] := fun hs =>
    (Recogniser.rewrites_replaceAll (S := fun _ w' => w' ≠ []) meets_power
      (fun _ _ _ _ => by simp) _).ne_nil (fun _ _ h => h) hs
  exact infixSign_replaceAll_ne_nil (by decide)
    (hpowers (replace_ne_nil (replace_ne_nil (squeezeInside_ne_nil e.ne_nil))))

theorem mem_prepared_iff : '(' ∈ e.prepared ↔ e.IsNested := by
  rw [prepared, mem_prepare_iff (by simp), replaceEach_squeezeInside, List.mem_append,
    mem_squeezeAfter_iff (by decide), IsNested]
  refine or_iff_left ?_
  cases gapAfter false e.content <;> decide

end Enclosed

end CalcTypeset
