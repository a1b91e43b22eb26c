import CalcTypeset.Proofs.Balance
import CalcTypeset.Proofs.Reference.Scan
import CalcTypeset.Proofs.Squeeze

/-!
# The conversion keeps the references

Every pass keeps the names of a line with valid names. The division sites need the most care: a
dividend and a divisor are taken from either side of a slash, which stands in no reference, so the
cuts on both sides of it are clear; and a site ends at a bracket of another kind, or where the term
that it takes ends, so the cut behind it is clear too.

The names must be valid. A reference to a name with a slash or a blank in it is cut like any other
text.
-/

namespace CalcTypeset

open Text Reference

namespace Reference

variable {a b s t w w' r : Text}

/-! ## Pieces -/

/-- A text without square brackets. -/
def IsPlain (s : Text) : Prop := ∀ c ∈ s, isSquare c = false

instance (s : Text) : Decidable (IsPlain s) := List.decidableBAll _ s

theorem IsPlain.append (ha : IsPlain a) (hb : IsPlain b) : IsPlain (a ++ b) := fun c hc =>
  (List.mem_append.1 hc).elim (ha c) (hb c)

theorem IsPlain.not_mem (h : IsPlain s) : '[' ∉ s ∧ ']' ∉ s :=
  ⟨fun hc => absurd (h _ hc) (by decide), fun hc => absurd (h _ hc) (by decide)⟩

/-- The second text is the first with plain markup around it. -/
def Wraps (t u : Text) : Prop := ∃ a b, u = a ++ t ++ b ∧ IsPlain a ∧ IsPlain b

theorem Wraps.refl (t : Text) : Wraps t t :=
  ⟨[], [], by simp, by simp [IsPlain], by simp [IsPlain]⟩

theorem Wraps.prepend {u : Text} (ha : IsPlain a) (h : Wraps t u) : Wraps t (a ++ u) := by
  obtain ⟨x, y, rfl, hx, hy⟩ := h
  exact ⟨a ++ x, y, by simp, ha.append hx, hy⟩

theorem Wraps.append {u : Text} (h : Wraps t u) (hb : IsPlain b) : Wraps t (u ++ b) := by
  obtain ⟨x, y, rfl, hx, hy⟩ := h
  exact ⟨x, y ++ b, by simp, hx, hy.append hb⟩

theorem Wraps.parenthesised {u : Text} (h : Wraps t u) : Wraps t (Markup.parenthesised u) :=
  (h.prepend (a := ['(']) (by decide)).append (b := [')']) (by decide)

theorem Wraps.braced {u : Text} (h : Wraps t u) : Wraps t (Markup.braced u) :=
  (h.prepend (a := ['{']) (by decide)).append (b := ['}']) (by decide)

theorem Wraps.brackets {u : Text} (h : Wraps t u) : brackets u = brackets t := by
  obtain ⟨a, b, rfl, ha, hb⟩ := h
  rw [brackets_append, brackets_append, brackets_eq_nil_iff.2 ha, brackets_eq_nil_iff.2 hb,
    List.append_nil, List.nil_append]

/-- Nothing is referred to in the markup around a text. -/
theorem Wraps.names {u : Text} (h : Wraps t u) : names u = names t := by
  obtain ⟨a, b, rfl, ha, hb⟩ := h
  rw [List.append_assoc, names_append_of_not_mem ha.not_mem.1,
    names_append fun _ => hb.not_mem.2, names_of_not_mem hb.not_mem.2, List.append_nil]

theorem spares_of_isPlain (hw : IsPlain w) (hw' : IsPlain w') (r : Text) : Spares w w' r where
  brackets := by rw [brackets_eq_nil_iff.2 hw, brackets_eq_nil_iff.2 hw']
  cut _ hopen := by
    rw [IsOpen, brackets_eq_nil_iff.2 hw] at hopen
    cases hopen
  names _ := by rw [names_of_not_mem hw.not_mem.2, names_of_not_mem hw'.not_mem.2]

/-- A character stands in no reference when it is of a kind that neither the brackets nor the
characters of a name are of. -/
theorem isOutside_of_eq_false {p : Char → Bool} {c : Char} (hsquare : p '[' = true ∧ p ']' = true)
    (hname : ∀ {c}, Variable.isNameChar c = true → p c = true) (h : p c = false) :
    IsOutside c := by
  constructor
  · cases hc : isSquare c with
    | false => rfl
    | true =>
        rcases (by simpa [isSquare] using hc) with rfl | rfl
        · rw [hsquare.1] at h; cases h
        · rw [hsquare.2] at h; cases h
  · cases hc : Variable.isNameChar c with
    | false => rfl
    | true => rw [hname hc] at h; cases h

/-- No reference with a valid name holds a character that no term holds. -/
theorem isOutside_of_not_isTermChar {c : Char} (h : Fraction.isTermChar c = false) :
    IsOutside c :=
  isOutside_of_eq_false (by decide) Fraction.isTermChar_of_isNameChar h

theorem isOutside_of_isBlank {c : Char} (h : isBlank c = true) : IsOutside c :=
  isOutside_of_not_isTermChar (by simp [Fraction.isTermChar, h])

theorem isBlank_of_isInside {c : Char} (hc : IsInside c) : isBlank c = false := by
  cases hb : isBlank c with
  | false => rfl
  | true => exact absurd rfl (hc.ne (isOutside_of_isBlank hb))

theorem isPlain_of_isBlank (h : ∀ c ∈ s, isBlank c = true) : IsPlain s := fun c hc =>
  (isOutside_of_isBlank (h c hc)).1

theorem isPlain_of_isWordChar (h : ∀ c ∈ s, isWordChar c = true) : IsPlain s := by
  intro c hc
  have hword := h c hc
  cases hsquare : isSquare c with
  | false => rfl
  | true =>
      rcases (by simpa [isSquare] using hsquare) with rfl | rfl <;>
        exact absurd hword (by rw [isWordChar_of_lt (by decide)]; decide)

theorem wraps_write {name : Text} (h : ∀ x ∈ name, isWordChar x = true) (t : Text) :
    Wraps t (Call.write ⟨name, t⟩) :=
  (Wraps.refl t).parenthesised.prepend (isPlain_of_isWordChar h)

/-! ## Division sites -/

end Reference

namespace Fraction

variable {w t r : Text}

/-- What was taken and what is written differ by markup around the same text. -/
theorem Taken.exists_wraps (h : Taken w t) : ∃ u, Wraps u w ∧ Wraps u t := by
  cases h with
  | whole => exact ⟨w, .refl w, .refl w⟩
  | bare => exact ⟨t, (Wraps.refl t).parenthesised, .refl t⟩
  | @braced t => exact ⟨t, (Wraps.refl t).parenthesised, (Wraps.refl t).braced.parenthesised⟩

theorem Taken.brackets (h : Taken w t) : brackets t = brackets w := by
  obtain ⟨u, hw, ht⟩ := h.exists_wraps
  rw [ht.brackets, hw.brackets]

theorem Taken.names (h : Taken w t) : names t = names w := by
  obtain ⟨u, hw, ht⟩ := h.exists_wraps
  rw [ht.names, hw.names]

theorem IsSlash.isPlain {g : Text} (h : IsSlash g) : IsPlain g := by
  obtain ⟨b, b', rfl, hb, hb'⟩ := h
  refine (isPlain_of_isBlank hb).append fun c hc => ?_
  rcases List.mem_cons.1 hc with rfl | hc
  · decide
  · exact isPlain_of_isBlank hb' c hc

/-- A slash with its blanks stands in no reference. -/
theorem IsSlash.isOutside {g : Text} (h : IsSlash g) : ∀ c ∈ g, IsOutside c := by
  obtain ⟨b, b', rfl, hb, hb'⟩ := h
  intro c hc
  rcases List.mem_append.1 hc with hc | hc
  · exact isOutside_of_isBlank (hb c hc)
  · rcases List.mem_cons.1 hc with rfl | hc
    · decide
    · exact isOutside_of_isBlank (hb' c hc)

theorem IsSlash.ne_nil {g : Text} (h : IsSlash g) : g ≠ [] := by
  obtain ⟨b, b', rfl, -, -⟩ := h
  simp

theorem endsTerm_head (h : endsTerm r = true) : ∀ c ∈ r.head?, IsOutside c := by
  intro c hc
  match r with
  | [] => cases hc
  | x :: r =>
      obtain rfl : x = c := Option.some.inj hc
      cases hb : isBlank x with
      | true => exact isOutside_of_isBlank hb
      | false =>
          rw [endsTerm, skipBlanks_cons_of_not_isBlank r hb] at h
          simp only [Bool.or_eq_true, decide_eq_true_eq, startsWith_iff] at h
          rcases h with ((rfl | rfl) | rfl) | ⟨y, hy⟩
          · decide
          · decide
          · decide
          · obtain rfl : x = '\\' := (List.cons.inj hy).1
            decide

/-- A site ends where the line may be cut. -/
theorem EndsClear.isClear (h : EndsClear w r) : IsClear w r := by
  rcases h with h | h | h | h
  · exact .inl fun c hc => by
      obtain rfl : ')' = c := Option.some.inj (h.symm.trans hc)
      decide
  · exact .inl fun c hc => by
      obtain rfl : '}' = c := Option.some.inj (h.symm.trans hc)
      decide
  · exact .inr fun c hc => isOutside_of_not_isTermChar (h c hc)
  · exact .inr (endsTerm_head h)

theorem brackets_frac (n d : Text) : Reference.brackets (Markup.frac n d) =
    Reference.brackets n ++ Reference.brackets d := by
  have hfrac : Reference.brackets "\\frac".toList = [] := by decide
  unfold Markup.frac
  rw [brackets_append, brackets_append, (Wraps.refl n).braced.brackets,
    (Wraps.refl d).braced.brackets, hfrac, List.nil_append]

theorem names_frac {n d : Text} (h : IsOpen n → ']' ∉ d) :
    Reference.names (Markup.frac n d) = Reference.names n ++ Reference.names d := by
  have hfrac : IsPlain "\\frac".toList := by decide
  have heq : Markup.frac n d = "\\frac".toList ++ (Markup.braced n ++ Markup.braced d) :=
    List.append_assoc ..
  have hcut : IsOpen (Markup.braced n) → ']' ∉ Markup.braced d := fun hopen =>
    not_mem_congr (Wraps.refl d).braced.brackets
      (h ((isOpen_congr (Wraps.refl n).braced.brackets).1 hopen))
  rw [heq, names_append_of_not_mem hfrac.not_mem.1, names_append hcut,
    (Wraps.refl n).braced.names, (Wraps.refl d).braced.names]

theorem IsSite.spares {q : Quotient} (h : IsSite w q r) : Spares w q.write r := by
  obtain ⟨n, g, d, rfl, hg, hn, hne, hd, hdne, hends⟩ := h
  have hbrackets : Reference.brackets (n ++ g ++ d) =
      Reference.brackets n ++ Reference.brackets d := by
    rw [brackets_append, brackets_append, brackets_eq_nil_iff.2 hg.isPlain, List.append_nil]
  refine ⟨?_, fun hvalid hopen => ?_, fun hvalid => ?_⟩
  · rw [Quotient.write, brackets_frac, hn.brackets, hd.brackets, hbrackets]
  · refine not_mem_of_isClear hvalid ?_ hopen
    refine hends.isClear.imp_left fun h c hc => h c ?_
    have hlast := List.getLast?_eq_some_getLast hdne
    rwa [List.getLast?_append, hlast, Option.some_or, ← hlast] at hc
  · -- Both cuts, in front of the slash and behind it, are next to a character of the slash.
    have hclear : IsClear n (g ++ d) := by
      obtain ⟨x, y, rfl⟩ := List.exists_cons_of_ne_nil hg.ne_nil
      exact .inr fun c hc => hg.isOutside c (by
        obtain rfl : x = c := Option.some.inj hc
        simp)
    have hleft : IsOpen n → ']' ∉ g ++ d :=
      not_mem_of_isClear (by rwa [← List.append_assoc]) hclear
    have hright : IsOpen g → ']' ∉ d := fun hopen => by
      rw [Reference.IsOpen, brackets_eq_nil_iff.2 hg.isPlain] at hopen
      cases hopen
    rw [Quotient.write, names_frac fun hopen => ?_, hn.names, hd.names, List.append_assoc,
      names_append hleft, names_append hright, names_of_not_mem hg.isPlain.not_mem.2]
    · rfl
    · have := hleft ((isOpen_congr hn.brackets).1 hopen)
      exact not_mem_congr hd.brackets fun hmem => this (List.mem_append_right g hmem)

/-! ## Divisions -/

/-- A term that goes on to the left is divided as before. -/
theorem extends_division_term {slash : Recogniser Unit} {d : Recogniser Text} :
    Extends (division term slash d) := by
  intro c s hc hnone
  match h : run? isTermChar s with
  | none => exact division_read?_eq_none h
  | some (v, r) =>
      have hrun : run? isTermChar (c :: s) = some (c :: v, r) := by
        rw [run?_eq_append h, ← List.cons_append]
        refine run?_append (by simp) (fun x hx => ?_) (run?_head h)
        rcases List.mem_cons.1 hx with rfl | hx
        · exact hc
        · exact run?_all h x hx
      rw [division, Recogniser.read?_bind, term, Recogniser.read?_run] at hnone ⊢
      rw [hrun, Option.bind_some, Recogniser.read?_bind] at hnone
      rw [h, Option.bind_some, Recogniser.read?_bind]
      cases hs : slash.read? r with
      | none => rfl
      | some x =>
          simp only [hs, Option.bind_some, Recogniser.read?_map, Option.map_eq_none_iff] at hnone ⊢
          exact hnone

/-- The first factor of a product may go on to the left. -/
theorem extends_overTerm (f : ProductNotation) : Extends f.overTerm := by
  intro c s hc hnone
  have hfirst : f.continue? .first s = none := by
    simpa [ProductNotation.overTerm, Recogniser.char, hc, ProductNotation.remainder] using hnone
  cases s with
  | nil => exact f.overTerm.read?_nil
  | cons x s =>
      cases hx : isTermChar x with
      | false => simp [ProductNotation.overTerm, Recogniser.char, hx]
      | true =>
          rw [ProductNotation.continue?_eq, Option.or_eq_none_iff] at hfirst
          have hnext : f.continue? .first s = none := by
            simpa [ProductNotation.accepts, hx] using hfirst.1
          simp [ProductNotation.overTerm, Recogniser.char, hx, ProductNotation.remainder, hnext]

theorem skipsNames_argumentSites (style : CallStyle) :
    ∀ p ∈ argumentSites style, SkipsNames p := by
  refine forall_argumentSites.2 ⟨skipsNames_of_extends (extends_overTerm _),
    skipsNames_of_extends extends_division_term,
    skipsNames_of_head fun c x hc => division_read?_eq_none ?_,
    skipsNames_of_extends extends_division_term⟩
  have hgroup : groupContent.read? (c :: x) = none := Recogniser.read?_filter_eq_none
    (Call.flatGroup_read?_eq_none (hc.ne (by decide)) x) _
  cases style with
  | asTyped => exact Recogniser.read?_map_eq_none hgroup _
  | typeset => exact hgroup

theorem skipsNames_basicSites : ∀ p ∈ basicSites, SkipsNames p := by
  exact forall_basicSites.2 ⟨skipsNames_of_head fun c x hc =>
      division_read?_eq_none (powerGroup_read?_eq_none (hc.ne (by decide))),
    skipsNames_of_extends (extends_overTerm _), skipsNames_of_extends extends_division_term,
    skipsNames_of_extends extends_division_term⟩

/-- A name inside a reference is followed by its bracket and not by a parenthesis. -/
theorem flatCall_read?_name_eq_none {m : Text} (hm : ∀ c ∈ m, Variable.isNameChar c = true)
    (t : Text) : Call.flatCall.read? (m ++ ']' :: t) = none := by
  have hbracket : isWordChar ']' = false := isWordChar_eq_false (by decide)
  cases m with
  | nil =>
      have hrun : run? isWordChar (']' :: t) = none := run?_eq_none_iff.2 (by simpa using hbracket)
      exact Recogniser.read?_bind_eq_none hrun _
  | cons c m =>
      have hrun : run? isWordChar (c :: m ++ ']' :: t) = some (c :: m, ']' :: t) :=
        run?_append (by simp) (fun x hx => isWordChar_of_isNameChar (hm x hx))
          (by simpa using hbracket)
      have hgroup := Call.flatGroup_read?_eq_none (c := ']') (by decide) t
      rw [Call.flatCall, Recogniser.read?_bind, Recogniser.read?_run, hrun, Option.bind_some]
      exact Recogniser.read?_map_eq_none hgroup _

theorem skipsNames_groupSites (style : CallStyle) : ∀ p ∈ groupSites style, SkipsNames p := by
  intro p hp n t hn _ y hy h
  obtain ⟨m, hm, rfl⟩ := suffix_name hy h
  have hcall := flatCall_read?_name_eq_none (fun c hc => hn c (hm.subset hc)) t
  rw [List.append_assoc]
  cases m with
  | nil => exact groupSites_read?_eq_none style (by decide) hcall p hp
  | cons c m =>
      have hc : IsInside c := .inl (hn c (hm.subset (by simp)))
      exact groupSites_read?_eq_none style (hc.ne (by decide)) hcall p hp

theorem keepsReferences_rewriteSites {kinds : List (Recogniser Quotient)}
    (hmeets : ∀ p ∈ kinds, p.Meets IsSite) (hskips : ∀ p ∈ kinds, SkipsNames p) :
    KeepsReferences (rewriteSites kinds) := by
  induction kinds with
  | nil => exact keepsReferences_id
  | cons p kinds ih =>
      have hp : KeepsReferences (p.replaceAll Quotient.write) :=
        keepsReferences_replaceAll (hmeets p (by simp)) (fun _ _ _ h => h.spares)
          (hskips p (by simp))
      exact hp.comp (ih (fun p hp => hmeets p (by simp [hp])) fun p hp => hskips p (by simp [hp]))

theorem skipsNames_timesSign :
    SkipsNames (Recogniser.literal Markup.timesSign Markup.timesSign_ne_nil) := by
  refine skipsNames_of_head fun c x hc => ?_
  rw [Option.eq_none_iff_forall_ne_some]
  intro y hy
  exact hc.ne (by decide) (List.cons.inj (Recogniser.read?_literal_eq_some_iff.1 hy)).1

theorem keepsReferences_starProducts : KeepsReferences starProducts := by
  refine keepsReferences_replaceAll (Recogniser.meets_literal _ _) (fun w _ r h => ?_)
    skipsNames_timesSign
  exact h ▸ spares_of_isPlain (by decide) (by decide) r

theorem skipsNames_star : SkipsNames (Recogniser.single '*') :=
  skipsNames_of_head fun _ x hc => Recogniser.read?_single_eq_none (hc.ne (by decide)) x

theorem keepsReferences_unstarProducts : KeepsReferences unstarProducts := by
  refine keepsReferences_replaceAll (Recogniser.meets_single '*') (fun w _ r h => ?_)
    skipsNames_star
  exact h ▸ spares_of_isPlain (by decide) (by decide) r

/-- Behind a name, the closed groups that are looked at begin with their parenthesis. -/
theorem slashedCall_read?_close (w t : Text) : (slashedCall w).read? (']' :: t) = none :=
  Recogniser.read?_map_eq_none (Recogniser.read?_filter_eq_none rfl _) _

theorem callSite_read?_close (w t : Text) : (callSite w).read? (']' :: t) = none :=
  Recogniser.read?_orElse_eq_none (Recogniser.read?_bind_eq_none rfl _)
    (Recogniser.read?_map_eq_none rfl _)

theorem keepsReferences_rewriteArgument (style : CallStyle) :
    KeepsReferences (rewriteArgument style) :=
  (keepsReferences_starProducts.comp (keepsReferences_rewriteSites (meets_argumentSites style)
    (skipsNames_argumentSites style))).comp keepsReferences_unstarProducts

/-- A piece that ends with a parenthesis ends where the line may be cut. -/
theorem not_mem_of_write {c : Call} (hvalid : HasValidNames (c.write ++ r))
    (hopen : IsOpen c.write) : ']' ∉ r := by
  refine not_mem_of_isClear hvalid (.inl fun x hx => ?_) hopen
  obtain rfl : ')' = x := Option.some.inj ((getLast?_write c).symm.trans hx)
  decide

theorem keepsReferences_rewriteArguments (style : CallStyle) :
    KeepsReferences (rewriteArguments style) := by
  refine keepsReferences_wordRule meets_slashedCall ?_ slashedCall_read?_close
  rintro w v ⟨name, content⟩ r - hword ⟨hw, rfl, -⟩
  have hargument := keepsReferences_rewriteArgument style
  rw [hw]
  refine ⟨?_, not_mem_of_write, fun hvalid => ?_⟩
  · rw [(wraps_write hword _).brackets, (wraps_write hword _).brackets, hargument.brackets]
  · rw [(wraps_write hword _).names, (wraps_write hword _).names]
    exact hargument.names content fun n hn => hvalid n (by rwa [(wraps_write hword _).names])

theorem keepsReferences_rewriteCallDividends : KeepsReferences rewriteCallDividends := by
  refine keepsReferences_wordRule meets_callSite ?_ callSite_read?_close
  rintro w v ⟨⟨name, content⟩, d?⟩ r - hword ⟨rfl, -, ⟨rfl, hw⟩ | ⟨d, rfl, hsite⟩⟩
  · rw [hw]
    exact ⟨rfl, not_mem_of_write, fun _ => rfl⟩
  · exact hsite.spares

/-- Rewriting the divisions of a line keeps its references. -/
theorem keepsReferences_rewrite (style : CallStyle) : KeepsReferences (rewrite style) :=
  ((keepsReferences_rewriteArguments style).comp keepsReferences_rewriteCallDividends).comp
    ((keepsReferences_rewriteSites (meets_groupSites style) (skipsNames_groupSites style)).comp
      (keepsReferences_rewriteSites meets_basicSites skipsNames_basicSites))

end Fraction

/-! ## Operators, constants and calls -/

namespace Operator

theorem skipsNames_infixSign {sign : Char} (hsign : IsOutside sign) :
    SkipsNames (infixSign sign) := by
  refine skipsNames_of_head fun c x hc => ?_
  rw [infixSign, Recogniser.read?_spaced,
    skipBlanks_cons_of_not_isBlank x (isBlank_of_isInside hc),
    Recogniser.read?_single_eq_none (hc.ne hsign)]
  rfl

theorem keepsReferences_infixSign {sign : Char} (hsign : sign = '*' ∨ sign = '%') {t : Text}
    (ht : IsPlain t) : KeepsReferences ((infixSign sign).replaceAll fun _ => t) := by
  have hout : IsOutside sign := by rcases hsign with rfl | rfl <;> decide
  refine keepsReferences_replaceAll (meets_infixSign sign) ?_ (skipsNames_infixSign hout)
  rintro w _ r ⟨b, b', rfl, hb, hb'⟩
  refine spares_of_isPlain ((isPlain_of_isBlank hb).append fun c hc => ?_) ht r
  rcases List.mem_cons.1 hc with rfl | hc
  · rcases hsign with rfl | rfl <;> decide
  · exact isPlain_of_isBlank hb' c hc

theorem isExponentChar_of_isNameChar {c : Char} (h : Variable.isNameChar c = true) :
    isExponentChar c = true := by
  simp only [Variable.isNameChar, Char.isAlphanum, Bool.or_eq_true, decide_eq_true_eq] at h
  rcases h with (h | h) | rfl
  · simp [isExponentChar, h]
  · simp [isExponentChar, isDigit, h]
  · decide

/-- An exponent ends in front of a character that stands in no reference. -/
theorem isOutside_of_not_isExponentChar {c : Char} (h : isExponentChar c = false) :
    IsOutside c :=
  isOutside_of_eq_false ⟨by decide, by decide⟩ isExponentChar_of_isNameChar h

theorem skipsNames_power : SkipsNames power :=
  skipsNames_of_head fun _ x hc =>
    Recogniser.read?_bind_eq_none (Recogniser.read?_single_eq_none (hc.ne (by decide)) x) _

theorem keepsReferences_bracePowers : KeepsReferences bracePowers := by
  refine keepsReferences_replaceAll meets_power ?_ skipsNames_power
  rintro w e r ⟨rfl, -, -, hr⟩
  have hcaret : IsPlain ['^'] := by decide
  have htyped : Wraps e ('^' :: e) := (Wraps.refl e).prepend hcaret
  have hbraced : Wraps e ('^' :: Markup.braced e) := (Wraps.refl e).braced.prepend hcaret
  exact ⟨hbraced.brackets.trans htyped.brackets.symm, fun hvalid => not_mem_of_isClear hvalid
    (.inr fun c hc => isOutside_of_not_isExponentChar (hr c hc)),
    fun _ => hbraced.names.trans htyped.names.symm⟩

theorem skipsNames_degreeRun : SkipsNames degreeRun := by
  refine skipsNames_of_head fun c x hc => Recogniser.read?_filter_eq_none ?_ _
  have hne : c ≠ Markup.degree := hc.ne (by decide)
  have hrun : run? (fun c => c = Markup.degree) (c :: x) = none :=
    run?_eq_none_iff.2 (by simpa using hne)
  exact hrun

theorem keepsReferences_mergeDegrees : KeepsReferences mergeDegrees := by
  refine keepsReferences_replaceAll
    ((Recogniser.meets_run fun c => c = Markup.degree).filter _) ?_ skipsNames_degreeRun
  rintro w e r ⟨⟨rfl, -, hw, -⟩, -⟩
  refine spares_of_isPlain (fun c hc => ?_) (by decide) r
  rw [of_decide_eq_true (hw c hc)]
  decide

theorem keepsReferences_prepare : KeepsReferences prepare :=
  keepsReferences_bracePowers.comp (keepsReferences_infixSign (.inl rfl) (by decide))

end Operator

namespace Text

/-- No blank stands in a reference, so a gap is squeezed beside it. -/
theorem keepsReferences_squeezeAfter (gap : Bool) : KeepsReferences (squeezeAfter gap) := by
  have hspace : IsPlain [' '] := by decide
  have hgap : ∀ gap c s, isBlank c = false →
      Wraps (c :: squeezeAfter false s) (squeezeAfter gap (c :: s)) := by
    intro gap c s hc
    rw [squeezeAfter, hc]
    cases gap with
    | false => exact Wraps.refl _
    | true => exact (Wraps.refl _).prepend hspace
  have hbrackets : ∀ s gap, brackets (squeezeAfter gap s) = brackets s := by
    intro s
    induction s with
    | nil => exact fun _ => rfl
    | cons c s ih =>
        intro gap
        cases hc : isBlank c with
        | true =>
            have hplain : IsPlain [c] := isPlain_of_isBlank (by simpa using hc)
            rw [squeezeAfter, if_pos hc, ih]
            exact ((Wraps.refl s).prepend hplain).brackets.symm
        | false =>
            rw [(hgap gap c s hc).brackets]
            exact congruence_brackets.append (s := [c]) rfl (ih false)
  have hnames : ∀ s gap, HasValidNames s → names (squeezeAfter gap s) = names s := by
    intro s
    induction s with
    | nil => exact fun _ _ => rfl
    | cons c s ih =>
        intro gap hs
        cases hc : isBlank c with
        | true =>
            have hplain : IsPlain [c] := isPlain_of_isBlank (by simpa using hc)
            have hcons : names (c :: s) = names s := ((Wraps.refl s).prepend hplain).names
            rw [squeezeAfter, if_pos hc, hcons]
            exact ih true fun n hn => hs n (by rwa [hcons])
        | false =>
            rw [(hgap gap c s hc).names]
            refine names_pass (hbrackets s false) hs (ih false) ?_
            rintro n t - rfl hn
            refine ⟨squeezeAfter false t, ?_⟩
            have hblank : ∀ x ∈ n ++ [']'], isBlank x = false := by
              intro x hx
              refine isBlank_of_isInside ?_
              exact (List.mem_append.1 hx).imp (hn x) List.mem_singleton.1
            have := squeezeAfter_append_of_no_blank hblank t
            rwa [List.append_assoc, List.append_assoc] at this
  exact ⟨fun s => hbrackets s gap, fun s => hnames s gap⟩

theorem keepsReferences_squeeze : KeepsReferences squeeze := by
  have hskip : ∀ s, Wraps (skipBlanks s) s := fun s => by
    obtain ⟨b, hb, hblank⟩ := skipBlanks_eq_append s
    conv => rhs; rw [hb]
    exact (Wraps.refl _).prepend (isPlain_of_isBlank hblank)
  have hafter := keepsReferences_squeezeAfter false
  refine ⟨fun s => (hafter.brackets _).trans (hskip s).brackets.symm, fun s hs => ?_⟩
  rw [(hskip s).names]
  exact hafter.names _ fun n hn => hs n (by rwa [(hskip s).names])

end Text

theorem Operator.keepsReferences_finish : KeepsReferences finish :=
  ((keepsReferences_infixSign (.inr rfl) (by decide)).comp keepsReferences_mergeDegrees).comp
    keepsReferences_squeeze

namespace KnownConstant

theorem call_read?_close (k : KnownConstant) (w t : Text) : (k.call w).read? (']' :: t) = none := by
  unfold call
  split <;> rfl

theorem keepsReferences_replaceEach : KeepsReferences replaceEach := by
  have hone : ∀ k : KnownConstant, KeepsReferences k.replace := by
    intro k
    refine keepsReferences_wordRule k.meets_call ?_ k.call_read?_close
    rintro w v _ r - hword ⟨rfl, rfl⟩
    refine spares_of_isPlain ((isPlain_of_isWordChar hword).append (by decide)) ?_ r
    cases k <;> decide
  exact (hone pi).comp (hone e)

end KnownConstant

namespace KnownFunction

theorem wraps_delimited (f : KnownFunction) (t : Text) : Wraps t (f.delimited t) := by
  unfold delimited
  split
  · exact ((Wraps.refl t).prepend (a := "\\left(".toList) (by decide)).append (by decide)
  · exact (Wraps.refl t).parenthesised

/-- The typeset call has its argument in it, with markup around it. -/
theorem wraps_typeset (f : KnownFunction) (t : Text) : Wraps t (f.typeset t) := by
  have hlatex : IsPlain f.latex := by cases f <;> decide
  have hmark : Wraps t (markedOnce t) := by
    unfold markedOnce
    split
    · exact .refl t
    · exact (Wraps.refl t).append (by decide)
  cases f with
  | sin | cos | tan => exact hmark.parenthesised.prepend hlatex
  | asin | acos | atan => exact ((wraps_delimited _ t).prepend hlatex).append (by decide)
  | log | ln => exact (wraps_delimited _ t).prepend hlatex
  | sqrt => exact (Wraps.refl t).braced.prepend hlatex
  | exp => exact (Wraps.refl t).braced.prepend (a := "e^".toList) (by decide)
  | dtor => exact ((Wraps.refl t).append (by decide)).parenthesised.prepend hlatex
  | rtod => exact ((Wraps.refl t).parenthesised.prepend hlatex).append (by decide)

theorem keepsReferences_typesetCalls (f : KnownFunction) : KeepsReferences f.typesetCalls := by
  have hall : f.name.all Variable.isNameChar = true := by cases f <;> decide
  refine keepsReferences_replace (List.all_eq_true.1 hall) fun content r => ?_
  have hname : IsPlain (f.name ++ ['(']) := by cases f <;> decide
  have hcall : Wraps content (f.name ++ '(' :: content ++ [')']) := by
    have := ((Wraps.refl content).prepend hname).append (b := [')']) (by decide)
    rwa [List.append_assoc f.name] at this
  have htypeset := f.wraps_typeset content
  refine ⟨by rw [htypeset.brackets, hcall.brackets], fun hvalid => not_mem_of_isClear hvalid
    (.inl fun c hc => ?_), fun _ => by rw [htypeset.names, hcall.names]⟩
  rw [List.getLast?_concat] at hc
  obtain rfl : ')' = c := Option.some.inj hc
  decide

theorem keepsReferences_typesetEach : KeepsReferences typesetEach := by
  have hall : ∀ fs : List KnownFunction,
      KeepsReferences fun s => fs.foldl (fun s f => f.typesetCalls s) s := by
    intro fs
    induction fs with
    | nil => exact keepsReferences_id
    | cons f fs ih => exact (keepsReferences_typesetCalls f).comp ih
  exact hall typesetOrder

end KnownFunction

/-! ## The conversion -/

theorem Stage.keepsReferences_apply (style : CallStyle) (st : Stage) :
    KeepsReferences (st.apply style) := by
  cases st with
  | squeezing => exact keepsReferences_squeeze
  | constants => exact KnownConstant.keepsReferences_replaceEach
  | preparation => exact Operator.keepsReferences_prepare
  | fractions => exact Fraction.keepsReferences_rewrite style
  | calls => exact KnownFunction.keepsReferences_typesetEach
  | finishing => exact Operator.keepsReferences_finish

theorem Stage.keepsReferences_foldl (style : CallStyle) (stages : List Stage) :
    KeepsReferences fun s => stages.foldl (fun s st => st.apply style s) s := by
  induction stages with
  | nil => exact keepsReferences_id
  | cons st stages ih => exact (st.keepsReferences_apply style).comp ih

/-- A line whose references are to valid names refers to the same variables when it is converted:
none is lost, none comes twice, and they stay in their order. -/
theorem Conversion.names_convert (style : CallStyle) (s : Text)
    (h : ∀ n ∈ Reference.names s, Variable.isValidName n = true) :
    Reference.names (convert style s) = Reference.names s := by
  unfold convert
  split
  · next hblank =>
      have hplain : IsPlain s := isPlain_of_isBlank (List.all_eq_true.1 hblank)
      rw [names_nil, names_of_not_mem hplain.not_mem.2]
  · exact (Stage.keepsReferences_foldl style (Stage.ofStyle style)).names s h

theorem Conversion.names_convert_nested_quotient :
    (∀ n ∈ Reference.names "sin([a]/[b_1])^[]/[a]".toList, Variable.isValidName n = true) ∧
      Reference.names (convert .typeset "sin([a]/[b_1])^[]/[a]".toList) =
        ["a".toList, "b_1".toList, "a".toList] := by
  have hvalid : ∀ n ∈ Reference.names "sin([a]/[b_1])^[]/[a]".toList,
      Variable.isValidName n = true := by decide +kernel
  exact ⟨hvalid, (names_convert .typeset _ hvalid).trans (by decide +kernel)⟩

end CalcTypeset
