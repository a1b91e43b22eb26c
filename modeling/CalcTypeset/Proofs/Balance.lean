import CalcTypeset.Conversion
import CalcTypeset.Proofs.Rewriting
import CalcTypeset.Proofs.Squeeze

/-!
# Brackets keep their depth

A rewriting keeps the brackets of a kind when it takes every depth at which it may start to the
same depth as the text it stands for, and never lower on the way than the text did. The relation
respects concatenation, so a pass keeps the brackets of a line as soon as it keeps those of the
pieces it takes.

For a fraction that comes down to two remarks. A text may be read from any greater depth than its
own, so braces can be put around any stretch at all, balanced or not. And a flat group, which ends
at its first closing parenthesis, can only rise on the way to it, so its two parentheses can be
dropped.
-/

namespace CalcTypeset

open Text

namespace Bracket

/-- The brackets that the passes move. -/
inductive Kind where
  | round | curly
deriving DecidableEq, Repr

/-- The opening bracket of a kind. -/
def Kind.opening : Kind → Char
  | round => '('
  | curly => '{'

/-- The closing bracket of a kind. -/
def Kind.closing : Kind → Char
  | round => ')'
  | curly => '}'

/-- The depth at the end of a text in brackets of one kind. -/
abbrev Kind.depthAfter (k : Kind) : Nat → Text → Option Nat :=
  Bracket.depthAfter k.opening k.closing

/-- The text holds no bracket of the kind. -/
def Kind.IsNeutral (k : Kind) (s : Text) : Prop := ∀ c ∈ s, c ≠ k.opening ∧ c ≠ k.closing

instance (k : Kind) (s : Text) : Decidable (k.IsNeutral s) :=
  List.decidableBAll _ s

variable {k : Kind} {d e : Nat} {s t : Text}

theorem Kind.opening_ne_closing (k : Kind) : k.opening ≠ k.closing := by
  cases k <;> decide

theorem Kind.depthAfter_opening (s : Text) :
    k.depthAfter d (k.opening :: s) = k.depthAfter (d + 1) s := by
  cases d <;> simp [Bracket.depthAfter]

theorem Kind.depthAfter_closing (s : Text) :
    k.depthAfter (d + 1) (k.closing :: s) = k.depthAfter d s := by
  rw [Kind.depthAfter, Bracket.depthAfter, if_neg k.opening_ne_closing.symm, if_pos rfl]

theorem Kind.depthAfter_neutral_cons {c : Char} (h : c ≠ k.opening ∧ c ≠ k.closing) (s : Text) :
    k.depthAfter d (c :: s) = k.depthAfter d s := by
  cases d <;> simp [Bracket.depthAfter, h.1, h.2]

theorem Kind.depthAfter_append (s t : Text) :
    k.depthAfter d (s ++ t) = (k.depthAfter d s).bind fun e => k.depthAfter e t := by
  induction s generalizing d with
  | nil => rfl
  | cons c s ih =>
      rw [List.cons_append]
      by_cases ho : c = k.opening
      · rw [ho, depthAfter_opening, depthAfter_opening, ih]
      · by_cases hc : c = k.closing
        · rw [hc]
          cases d with
          | zero =>
              simp [Kind.depthAfter, Bracket.depthAfter, k.opening_ne_closing.symm]
          | succ d => rw [depthAfter_closing, depthAfter_closing, ih]
        · rw [depthAfter_neutral_cons ⟨ho, hc⟩, depthAfter_neutral_cons ⟨ho, hc⟩, ih]

theorem Kind.depthAfter_append_of_some (h : k.depthAfter d s = some e) (t : Text) :
    k.depthAfter d (s ++ t) = k.depthAfter e t := by
  rw [depthAfter_append, h, Option.bind_some]

/-- A text can be read from any greater depth, and ends as much higher. -/
theorem Kind.depthAfter_add (n : Nat) (h : k.depthAfter d s = some e) :
    k.depthAfter (d + n) s = some (e + n) := by
  induction s generalizing d with
  | nil =>
      obtain rfl : d = e := Option.some.inj h
      rfl
  | cons c s ih =>
      by_cases ho : c = k.opening
      · rw [ho, depthAfter_opening] at h ⊢
        have := ih h
        rwa [show d + 1 + n = d + n + 1 by omega] at this
      · by_cases hc : c = k.closing
        · rw [hc] at h ⊢
          cases d with
          | zero => simp [Kind.depthAfter, Bracket.depthAfter, k.opening_ne_closing.symm] at h
          | succ d =>
              rw [depthAfter_closing] at h
              rw [show d + 1 + n = d + n + 1 by omega, depthAfter_closing]
              exact ih h
        · rw [depthAfter_neutral_cons ⟨ho, hc⟩] at h ⊢
          exact ih h

theorem Kind.depthAfter_of_isNeutral (h : k.IsNeutral s) (d : Nat) :
    k.depthAfter d s = some d := by
  induction s with
  | nil => rfl
  | cons c s ih =>
      rw [depthAfter_neutral_cons (h c (by simp))]
      exact ih fun x hx => h x (by simp [hx])

/-- A text that closes nothing only rises. -/
theorem Kind.exists_depthAfter_of_not_mem (h : k.closing ∉ s) :
    ∃ n, ∀ d, k.depthAfter d s = some (d + n) := by
  induction s with
  | nil => exact ⟨0, fun d => rfl⟩
  | cons c s ih =>
      rw [List.mem_cons, not_or] at h
      obtain ⟨n, hn⟩ := ih h.2
      by_cases ho : c = k.opening
      · refine ⟨n + 1, fun d => ?_⟩
        rw [ho, depthAfter_opening, hn, show d + 1 + n = d + (n + 1) by omega]
      · exact ⟨n, fun d => by rw [depthAfter_neutral_cons ⟨ho, Ne.symm h.1⟩, hn]⟩

theorem Kind.IsNeutral.append (hs : k.IsNeutral s) (ht : k.IsNeutral t) :
    k.IsNeutral (s ++ t) := fun c hc =>
  (List.mem_append.1 hc).elim (hs c) (ht c)

/-! ## Rewritings that keep the brackets -/

/-- The rewriting takes every depth to the same depth as the text, when the text may be read from
it at all. -/
def Keeps (k : Kind) (s s' : Text) : Prop :=
  ∀ d e, k.depthAfter d s = some e → k.depthAfter d s' = some e

theorem congruence_keeps (k : Kind) : Text.Congruence (Keeps k) where
  refl _ _ _ h := h
  append {s s' t t'} hs ht d e h := by
    rw [Kind.depthAfter_append] at h ⊢
    obtain ⟨x, hx, hxt⟩ := Option.bind_eq_some_iff.1 h
    rw [hs d x hx]
    exact ht x e hxt

theorem Keeps.refl (k : Kind) (s : Text) : Keeps k s s := fun _ _ h => h

theorem Keeps.trans {s s' s'' : Text} (h : Keeps k s s') (h' : Keeps k s' s'') : Keeps k s s'' :=
  fun d e hs => h' d e (h d e hs)

theorem Keeps.append {s s' t t' : Text} (h : Keeps k s s') (h' : Keeps k t t') :
    Keeps k (s ++ t) (s' ++ t') := (congruence_keeps k).append h h'

theorem Keeps.isBalanced {s s' : Text} (h : Keeps k s s')
    (hs : IsBalanced k.opening k.closing s) : IsBalanced k.opening k.closing s' := h 0 0 hs

theorem keeps_of_isNeutral (hs : k.IsNeutral s) (ht : k.IsNeutral t) : Keeps k s t := by
  intro d e h
  rw [Kind.depthAfter_of_isNeutral hs] at h
  rw [Kind.depthAfter_of_isNeutral ht, h]

/-- Markup that leaves the depth as it is may be written anywhere. -/
theorem keeps_of_level (hs : ∀ d, k.depthAfter d s = some d)
    (ht : ∀ d, k.depthAfter d t = some d) : Keeps k s t := by
  intro d e h
  rw [hs] at h
  rw [ht, h]

/-- Any stretch may be put between braces. -/
theorem keeps_braced (k : Kind) (t : Text) : Keeps k t (Markup.braced t) := by
  intro d e h
  rw [Markup.braced, List.cons_append]
  cases k with
  | round =>
      rw [Kind.depthAfter_neutral_cons (by decide), Kind.depthAfter_append_of_some h]
      rfl
  | curly =>
      rw [show '{' = Kind.curly.opening from rfl, Kind.depthAfter_opening,
        Kind.depthAfter_append_of_some (Kind.depthAfter_add 1 h)]
      rfl

theorem depthAfter_parenthesised {t : Text} (h : k.depthAfter d t = some e) :
    k.depthAfter d (Markup.parenthesised t) = some e := by
  rw [Markup.parenthesised, List.cons_append]
  cases k with
  | round =>
      rw [show '(' = Kind.round.opening from rfl, Kind.depthAfter_opening,
        Kind.depthAfter_append_of_some (Kind.depthAfter_add 1 h)]
      rfl
  | curly =>
      rw [Kind.depthAfter_neutral_cons (by decide), Kind.depthAfter_append_of_some h]
      rfl

/-- The depth behind a group tells the depth behind its content, when the content may be read on
its own: it is flat or balanced. -/
theorem keeps_of_keeps_content {t t' : Text}
    (ht : (∃ n, ∀ d, Kind.round.depthAfter d t = some (d + n)))
    (h : Keeps k t t') : Keeps k (Markup.parenthesised t) t' := by
  intro d e hd
  apply h
  cases k with
  | round =>
      obtain ⟨n, hn⟩ := ht
      rw [depthAfter_parenthesised (hn d)] at hd
      rw [hn, hd]
  | curly =>
      rw [Markup.parenthesised, List.cons_append, Kind.depthAfter_neutral_cons (by decide),
        Kind.depthAfter_append] at hd
      obtain ⟨x, hx, hxe⟩ := Option.bind_eq_some_iff.1 hd
      rw [hx, ← hxe]
      rfl

theorem keeps_parenthesised {t t' : Text} (h : Keeps k t t') :
    Keeps k (Markup.parenthesised t) (Markup.parenthesised t') :=
  ((Keeps.refl k ['(']).append h).append (Keeps.refl k [')'])

theorem exists_depthAfter_of_isBalanced {t : Text} (h : IsBalanced '(' ')' t) :
    ∃ n, ∀ d, Kind.round.depthAfter d t = some (d + n) :=
  ⟨0, fun d => by
    have := Kind.depthAfter_add (k := .round) d h
    rwa [Nat.zero_add] at this⟩

theorem isNeutral_of_isBlank {b : Text} (hb : ∀ c ∈ b, isBlank c = true) : k.IsNeutral b := by
  intro c hc
  have := hb c hc
  refine ⟨?_, ?_⟩ <;> rintro rfl <;> cases k <;> exact absurd this (by decide)

theorem isNeutral_of_isWordChar {w : Text} (hw : ∀ c ∈ w, isWordChar c = true) :
    k.IsNeutral w := by
  intro c hc
  have := hw c hc
  refine ⟨?_, ?_⟩ <;> rintro rfl <;> cases k <;>
    exact absurd this (by rw [isWordChar_of_lt (by decide)]; decide)

end Bracket

open CalcTypeset.Bracket

/-! ## Divisions -/

namespace Fraction

variable {k : Kind}

theorem IsSlash.isNeutral {g : Text} (h : IsSlash g) : k.IsNeutral g := by
  obtain ⟨b, b', rfl, hb, hb'⟩ := h
  refine (isNeutral_of_isBlank hb).append fun c hc => ?_
  rcases List.mem_cons.1 hc with rfl | hc
  · cases k <;> decide
  · exact isNeutral_of_isBlank hb' c hc

theorem Taken.keeps {w t : Text} (h : Taken w t) : Keeps k w (Markup.braced t) := by
  cases h with
  | whole => exact keeps_braced k w
  | bare h =>
      exact keeps_of_keeps_content (Kind.exists_depthAfter_of_not_mem (k := .round) h)
        (keeps_braced k _)
  | braced h =>
      exact (keeps_parenthesised (keeps_braced k _)).trans (keeps_braced k _)

theorem keeps_frac {n g d n' d' : Text} (hg : IsSlash g) (hn : Keeps k n (Markup.braced n'))
    (hd : Keeps k d (Markup.braced d')) : Keeps k (n ++ g ++ d) (Markup.frac n' d') := by
  have hfrac : Keeps k [] "\\frac".toList :=
    keeps_of_level (fun _ => rfl) fun d => by cases k <;> rfl
  have hslash : Keeps k g [] := keeps_of_isNeutral hg.isNeutral (by intro c hc; cases hc)
  have := ((hfrac.append hn).append hslash).append hd
  rw [List.nil_append, List.append_nil] at this
  exact this

theorem IsSite.keeps {w r : Text} {q : Quotient} (h : IsSite w q r) : Keeps k w q.write := by
  obtain ⟨n, g, d, rfl, hg, hn, -, hd, -⟩ := h
  exact keeps_frac hg hn.keeps hd.keeps

theorem admits_keeps (k : Kind) : Admits (Keeps k) :=
  .of_products (congruence_keeps k) Keeps.trans IsSite.keeps
    (keeps_of_level (fun _ => by cases k <;> rfl) fun _ => by cases k <;> rfl)
    (keeps_of_level (fun _ => by cases k <;> rfl) fun _ => by cases k <;> rfl)

theorem keeps_rewriteArgument (style : CallStyle) (s : Text) :
    Keeps k s (rewriteArgument style s) := (admits_keeps k).argument style s

theorem keeps_rewrite (style : CallStyle) (s : Text) : Keeps k s (rewrite style s) :=
  (admits_keeps k).rewrite style s

end Fraction

/-! ## Operators, constants and calls -/

namespace Text

theorem depthAfter_squeezeAfter {k : Kind} {d : Nat} (gap : Bool) (s : Text) :
    k.depthAfter d (squeezeAfter gap s) = k.depthAfter d s := by
  induction s generalizing gap d with
  | nil => rfl
  | cons c s ih =>
      have hcons : ∀ d, k.depthAfter d (c :: squeezeAfter false s) = k.depthAfter d (c :: s) := by
        intro d
        rw [← List.singleton_append, Kind.depthAfter_append, ← List.singleton_append (l := s),
          Kind.depthAfter_append]
        simp only [ih]
      rw [squeezeAfter]
      split
      · next hc =>
          rw [ih, Kind.depthAfter_neutral_cons]
          exact isNeutral_of_isBlank (b := [c]) (by simpa using hc) c (by simp)
      · split
        · rw [Kind.depthAfter_neutral_cons (by cases k <;> decide), hcons]
        · exact hcons d

theorem keeps_squeeze {k : Kind} (s : Text) : Keeps k s (squeeze s) := by
  intro d e h
  obtain ⟨b, hb, hblank⟩ := skipBlanks_eq_append s
  rw [hb, Kind.depthAfter_append_of_some
    (Kind.depthAfter_of_isNeutral (isNeutral_of_isBlank hblank) d)] at h
  rw [squeeze, depthAfter_squeezeAfter, h]

theorem keeps_squeezeInside {k : Kind} (gap : Bool) (s : Text) :
    Keeps k s (squeezeInside gap s) := by
  intro d e h
  have hspace : k.IsNeutral (gapSpace (gapAfter gap s)) := by
    cases gapAfter gap s <;> cases k <;> decide
  rw [squeezeInside, Kind.depthAfter_append_of_some ((depthAfter_squeezeAfter gap s).trans h),
    Kind.depthAfter_of_isNeutral hspace]

end Text

namespace Operator

variable {k : Kind}

/-- An exponent is read as it stands: a sign, which may be missing, and as many exponent characters
as there are. -/
theorem meets_exponent : exponent.Meets fun w e r => w = e ∧ e ≠ [] ∧
    (∀ c ∈ e, c = '-' ∨ isExponentChar c = true) ∧ ∀ c ∈ r.head?, isExponentChar c = false := by
  refine (((Recogniser.meets_single '-').bind fun _ =>
      (Recogniser.meets_run isExponentChar).map fun w => '-' :: w).orElse
    (Recogniser.meets_run isExponentChar)).mono ?_
  rintro w e r (⟨_, _, _, rfl, rfl, v, ⟨rfl, -, hv, hr⟩, rfl⟩ | ⟨rfl, hne, he, hr⟩)
  · refine ⟨rfl, by simp, fun c hc => ?_, hr⟩
    rcases List.mem_cons.1 hc with rfl | hc
    · exact .inl rfl
    · exact .inr (hv c hc)
  · exact ⟨rfl, hne, fun c hc => .inr (he c hc), hr⟩

theorem meets_power : power.Meets fun w e r => w = '^' :: e ∧ e ≠ [] ∧
    (∀ c ∈ e, c = '-' ∨ isExponentChar c = true) ∧ ∀ c ∈ r.head?, isExponentChar c = false := by
  refine ((Recogniser.meets_single '^').bind fun _ => meets_exponent).mono ?_
  rintro w e r ⟨_, _, _, rfl, rfl, rfl, he⟩
  exact ⟨rfl, he⟩

theorem meets_infixSign (sign : Char) : (infixSign sign).Meets fun w _ _ =>
    ∃ b b', w = b ++ sign :: b' ∧ (∀ c ∈ b, isBlank c = true) ∧ ∀ c ∈ b', isBlank c = true := by
  refine (Recogniser.meets_single sign).spaced.mono ?_
  rintro w _ r ⟨b, _, b', rfl, hb, hb', rfl⟩
  exact ⟨b, b', by simp, hb, hb'⟩

theorem keeps_bracePowers (s : Text) : Keeps k s (bracePowers s) := by
  refine Recogniser.replaceAll_rel (congruence_keeps k) meets_power ?_ s
  rintro w e r ⟨rfl, -⟩
  exact (Keeps.refl k ['^']).append (keeps_braced k e)

theorem keeps_infixSign {sign : Char} (hsign : k.IsNeutral [sign]) {t : Text}
    (ht : k.IsNeutral t) (s : Text) :
    Keeps k s ((infixSign sign).replaceAll (fun _ => t) s) := by
  refine Recogniser.replaceAll_rel (congruence_keeps k) (meets_infixSign sign) ?_ s
  rintro w _ r ⟨b, b', rfl, hb, hb'⟩
  have := ((isNeutral_of_isBlank (k := k) hb).append hsign).append (isNeutral_of_isBlank hb')
  rw [List.append_assoc] at this
  exact keeps_of_isNeutral this ht

theorem keeps_writeProducts (s : Text) : Keeps k s (writeProducts s) :=
  keeps_infixSign (by cases k <;> decide) (by cases k <;> decide) s

theorem keeps_writeRemainders (s : Text) : Keeps k s (writeRemainders s) :=
  keeps_infixSign (by cases k <;> decide) (by cases k <;> decide) s

theorem keeps_mergeDegrees (s : Text) : Keeps k s (mergeDegrees s) := by
  refine Recogniser.replaceAll_rel (congruence_keeps k)
    ((Recogniser.meets_run fun c => c = Markup.degree).filter _) ?_ s
  rintro w e r ⟨⟨rfl, -, hw, -⟩, -⟩
  have hdegree : Markup.degree ≠ k.opening ∧ Markup.degree ≠ k.closing := by
    cases k <;> decide
  refine keeps_of_isNeutral (fun c hc => ?_) fun c hc => ?_
  · rw [of_decide_eq_true (hw c hc)]; exact hdegree
  · rw [List.mem_singleton.1 hc]; exact hdegree

theorem keeps_prepare (s : Text) : Keeps k s (prepare s) :=
  (keeps_bracePowers s).trans (keeps_writeProducts _)

theorem keeps_finish (s : Text) : Keeps k s (finish s) :=
  ((keeps_writeRemainders s).trans (keeps_mergeDegrees _)).trans (keeps_squeeze _)

end Operator

namespace KnownConstant

variable {k : Kind}

theorem meets_call (c : KnownConstant) (w : Text) :
    (c.call w).Meets fun v _ _ => w = c.name ∧ v = ['(', ')'] := by
  unfold call
  split
  · next hw => exact (Recogniser.meets_literal _ _).mono fun _ _ _ h => ⟨hw, h⟩
  · exact Recogniser.meets_never

theorem keeps_replace (c : KnownConstant) (s : Text) : Keeps k s (c.replace s) := by
  refine WordRule.replaceAll_rel (congruence_keeps k) c.meets_call ?_ s
  rintro w v _ r - - ⟨rfl, rfl⟩
  exact keeps_of_level (fun _ => by cases k <;> cases c <;> rfl)
    fun _ => by cases k <;> cases c <;> rfl

theorem keeps_replaceEach (s : Text) : Keeps k s (replaceEach s) :=
  (keeps_replace pi s).trans (keeps_replace e _)

end KnownConstant

namespace KnownFunction

variable {k : Kind}

theorem level_latex (f : KnownFunction) (d : Nat) : k.depthAfter d f.latex = some d := by
  cases k <;> cases f <;> rfl

theorem level_name (f : KnownFunction) (d : Nat) : k.depthAfter d f.name = some d := by
  cases k <;> cases f <;> rfl

theorem keeps_name_latex (f : KnownFunction) : Keeps k f.name f.latex :=
  keeps_of_level f.level_name f.level_latex

theorem keeps_degree : Keeps k [] [Markup.degree] :=
  keeps_of_level (fun _ => rfl) fun _ => by cases k <;> rfl

theorem keeps_markedOnce (t : Text) : Keeps k t (markedOnce t) := by
  unfold markedOnce
  split
  · exact Keeps.refl k t
  · have := (Keeps.refl k t).append (keeps_degree (k := k))
    rwa [List.append_nil] at this

theorem keeps_delimited (f : KnownFunction) (t : Text) :
    Keeps k (Markup.parenthesised t) (f.delimited t) := by
  unfold delimited
  split
  · have hleft : Keeps k ['('] "\\left(".toList := by
      intro d e h
      rw [← h]
      cases k <;> rfl
    have hright : Keeps k [')'] "\\right)".toList := by
      intro d e h
      rw [← h]
      cases k <;> rfl
    exact (hleft.append (Keeps.refl k t)).append hright
  · exact Keeps.refl k _

/-- A call keeps the brackets when it is typeset: its parentheses may become braces, since what
stands between them is balanced. -/
theorem keeps_typeset (f : KnownFunction) {t : Text} (ht : IsBalanced '(' ')' t) :
    Keeps k (f.name ++ Markup.parenthesised t) (f.typeset t) := by
  have hmark : ∀ s, Keeps k s (s ++ [Markup.degree]) := fun s => by
    have := (Keeps.refl k s).append (keeps_degree (k := k))
    rwa [List.append_nil] at this
  have hbraced : Keeps k (Markup.parenthesised t) (Markup.braced t) :=
    keeps_of_keeps_content (exists_depthAfter_of_isBalanced ht) (keeps_braced k t)
  cases f with
  | sin | cos | tan =>
      exact (keeps_name_latex _).append (keeps_parenthesised (keeps_markedOnce t))
  | asin | acos | atan =>
      exact ((keeps_name_latex _).append (keeps_delimited _ t)).trans (hmark _)
  | log | ln => exact (keeps_name_latex _).append (keeps_delimited _ t)
  | sqrt => exact (keeps_name_latex _).append hbraced
  | exp =>
      exact Keeps.append (keeps_of_level (level_name exp) fun _ => by cases k <;> rfl) hbraced
  | dtor => exact (keeps_name_latex _).append (keeps_parenthesised (hmark t))
  | rtod =>
      exact ((keeps_name_latex _).append (Keeps.refl k (Markup.parenthesised t))).trans (hmark _)

theorem keeps_typesetCalls (f : KnownFunction) (s : Text) : Keeps k s (f.typesetCalls s) := by
  refine Call.replaceAfter_rel (congruence_keeps k) (fun t ht => ?_) none s
  rw [List.append_assoc]
  exact keeps_typeset f ht

theorem keeps_foldl (fs : List KnownFunction) (s : Text) :
    Keeps k s (fs.foldl (fun s f => f.typesetCalls s) s) :=
  List.foldlRecOn fs _ (Keeps.refl k s) fun t ht f _ => ht.trans (keeps_typesetCalls f t)

theorem keeps_typesetEach (s : Text) : Keeps k s (typesetEach s) := keeps_foldl typesetOrder s

end KnownFunction

/-! ## The conversion -/

theorem Stage.keeps_apply {k : Kind} (style : CallStyle) (st : Stage) (s : Text) :
    Keeps k s (st.apply style s) := by
  cases st with
  | squeezing => exact keeps_squeeze s
  | constants => exact KnownConstant.keeps_replaceEach s
  | preparation => exact Operator.keeps_prepare s
  | fractions => exact Fraction.keeps_rewrite style s
  | calls => exact KnownFunction.keeps_typesetEach s
  | finishing => exact Operator.keeps_finish s

/-- However far the conversion has come, the brackets are as deep as in the line. -/
theorem Stage.keeps_foldl {k : Kind} (style : CallStyle) (stages : List Stage) (s : Text) :
    Keeps k s (stages.foldl (fun s st => st.apply style s) s) := by
  induction stages generalizing s with
  | nil => exact Keeps.refl k s
  | cons st stages ih => exact (st.keeps_apply style s).trans (ih _)

/-- Whichever kind of bracket the line balances, the LaTeX line balances too. -/
theorem Conversion.isBalanced_convert {k : Kind} {s : Text} (style : CallStyle)
    (hs : IsBalanced k.opening k.closing s) :
    IsBalanced k.opening k.closing (convert style s) := by
  unfold convert
  split
  · rfl
  · exact (Stage.keeps_foldl style (Stage.ofStyle style) s).isBalanced hs

/-- Parentheses become braces, and others are dropped; a brace stands in the operand of a
division. -/
theorem Conversion.isBalanced_convert_root_of_quotient :
    IsBalanced '(' ')' "sqrt((a+\x7bb\x7d)/(2))^x/ln(3)".toList ∧
      IsBalanced '(' ')' (convert .typeset "sqrt((a+\x7bb\x7d)/(2))^x/ln(3)".toList) ∧
      IsBalanced '{' '}' (convert .asTyped "sqrt((a+\x7bb\x7d)/(2))^x/ln(3)".toList) := by
  have hround : IsBalanced '(' ')' "sqrt((a+\x7bb\x7d)/(2))^x/ln(3)".toList := by decide
  exact ⟨hround, isBalanced_convert (k := .round) .typeset hround,
    isBalanced_convert (k := .curly) .asTyped (by decide)⟩

end CalcTypeset
