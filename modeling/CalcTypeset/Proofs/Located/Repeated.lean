import CalcTypeset.Proofs.Called.Scan
import CalcTypeset.Proofs.Idle
import CalcTypeset.Proofs.Located.Place
import CalcTypeset.Proofs.Sum.Locality

/-!
# Calls over a term, looked for once more

Once the calls over a term are fractions, the same pass finds nothing more to do. It comes to the
calls that it came to before: a call that is not closed stays so, since a rewriting opens and closes
what the text did. And each call that it steps over has no divisor behind it. For a dividend this
is so because a brace follows it. For another call it was so before, and what is made of the text
behind it begins as that text did, or with a backslash in place of a name, and neither brings a
slash (`divisor_read?_rewrite`).
-/

namespace CalcTypeset.Located

open Text CalcTypeset.Bracket
open Fraction (callSite divisor spacedSlash tightSlash term isTermChar rewriteCallDividends)

variable {s r r' t u w b d : Text} {c : Char}

/-- The text `rest` follows a slash `g` with blanks around it and a divisor `d`, which is as long as
it can be. -/
structure IsDivisor (g d rest : Text) : Prop where
  isSlash : Fraction.IsSlash g
  ne_nil : d ≠ []
  isTerm : ∀ c ∈ d, isTermChar c = true
  isMaximal : ∀ c ∈ rest.head?, isTermChar c = false

theorem isDivisor_of_read? (h : divisor.read? s = some (d, r)) :
    ∃ g, s = g ++ (d ++ r) ∧ IsDivisor g d r := by
  obtain ⟨_, rfl, g, _, _, rfl, hslash, rfl, hne, hterm, hmax⟩ :=
    (Fraction.meets_spacedSlash.bind fun _ => Recogniser.meets_run isTermChar) s d r h
  exact ⟨g, by rw [List.append_assoc], hslash, hne, hterm, hmax⟩

theorem IsDivisor.not_mem {g : Text} (h : IsDivisor g d r) (hc : isTermChar c = false) :
    c ∉ d := fun hmem => by
  rw [h.isTerm c hmem] at hc
  cases hc

/-- Behind a name a closed group is read, and with it the divisor that follows. -/
theorem callSite_read?_eq (w r : Text) : (callSite w).read? r =
    (group.read? r).map fun x =>
      match divisor.read? x.2 with
      | some (d, r') => (⟨⟨w, x.1⟩, some d⟩, r')
      | none => (⟨⟨w, x.1⟩, none⟩, x.2) := by
  rw [callSite, Recogniser.read?_orElse, Recogniser.read?_bind, Recogniser.read?_map]
  cases group.read? r with
  | none => rfl
  | some x =>
      rw [Option.bind_some, Recogniser.read?_map]
      cases hd : divisor.read? x.2 <;> simp [hd]

theorem callSite_read?_eq_none_iff : (callSite w).read? r = none ↔ group.read? r = none := by
  rw [callSite_read?_eq, Option.map_eq_none_iff]

/-! ## The steps of the pass -/

theorem rewrite_nil : rewriteCallDividends [] = [] := WordRule.replaceAll_nil

theorem rewrite_cons (hc : isWordChar c = false) (s : Text) :
    rewriteCallDividends (c :: s) = c :: rewriteCallDividends s :=
  WordRule.replaceAll_cons_of_not_isWordChar s hc

theorem rewrite_of_none (hw : run? isWordChar s = some (w, r)) (hr : group.read? r = none) :
    rewriteCallDividends s = w ++ rewriteCallDividends r :=
  WordRule.replaceAll_of_none hw (callSite_read?_eq_none_iff.2 hr)

theorem rewrite_of_undivided (hw : run? isWordChar s = some (w, r))
    (hr : group.read? r = some (t, r')) (hd : divisor.read? r' = none) :
    rewriteCallDividends s = Call.write ⟨w, t⟩ ++ rewriteCallDividends r' := by
  have hread : (callSite w).read? r = some (⟨⟨w, t⟩, none⟩, r') := by
    rw [callSite_read?_eq, hr, Option.map_some]
    simp [hd]
  exact WordRule.replaceAll_of_read hw hread

theorem rewrite_of_divided (hw : run? isWordChar s = some (w, r))
    (hr : group.read? r = some (t, r')) (hd : divisor.read? r' = some (d, u)) :
    rewriteCallDividends s =
      Markup.frac (Call.write ⟨w, t⟩) d ++ rewriteCallDividends u := by
  have hread : (callSite w).read? r = some (⟨⟨w, t⟩, some d⟩, u) := by
    rw [callSite_read?_eq, hr, Option.map_some]
    simp [hd]
  exact WordRule.replaceAll_of_read hw hread

/-- The steps of the pass: a name without a closed group is passed, a closed call is stepped over or
becomes a dividend, and any other character is passed. -/
@[elab_as_elim]
theorem rewrite_induction {motive : Text → Prop} (nil : motive [])
    (pass : ∀ s w r, run? isWordChar s = some (w, r) → group.read? r = none → motive r → motive s)
    (undivided : ∀ s w r t r', run? isWordChar s = some (w, r) → group.read? r = some (t, r') →
      divisor.read? r' = none → motive r' → motive s)
    (divided : ∀ s w r t r' d u, run? isWordChar s = some (w, r) →
      group.read? r = some (t, r') → divisor.read? r' = some (d, u) → motive u → motive s)
    (other : ∀ c s, isWordChar c = false → motive s → motive (c :: s)) (s : Text) : motive s := by
  induction s using WordRule.scan_induction callSite with
  | nil => exact nil
  | read s w r a u hw hr ih =>
      rw [callSite_read?_eq] at hr
      obtain ⟨⟨t, r'⟩, hgroup, hread⟩ := Option.map_eq_some_iff.1 hr
      cases hd : divisor.read? r' with
      | none =>
          simp only [hd] at hread
          cases hread
          exact undivided s w r t u hw hgroup hd ih
      | some x =>
          simp only [hd] at hread
          cases hread
          exact divided s w r t r' x.1 x.2 hw hgroup hd ih
  | pass s w r hw hr ih => exact pass s w r hw (callSite_read?_eq_none_iff.1 hr) ih
  | other c s hc ih => exact other c s hc ih

/-- The rewritten text begins as the text does, or with a backslash in place of a word. -/
theorem head?_rewrite (s : Text) : (rewriteCallDividends s).head? = s.head? ∨
    (rewriteCallDividends s).head? = some '\\' ∧ ∃ c ∈ s.head?, isWordChar c = true := by
  have hfront : ∀ {s w r : Text} (x : Text), run? isWordChar s = some (w, r) →
      (w ++ x).head? = s.head? := by
    intro s w r x hw
    obtain ⟨c, w, rfl⟩ := List.exists_cons_of_ne_nil (run?_ne_nil hw)
    rw [run?_eq_append hw]
    rfl
  cases s using rewrite_induction with
  | nil => exact .inl (by rw [rewrite_nil])
  | pass s w r hw hr _ => exact .inl (by rw [rewrite_of_none hw hr, hfront _ hw])
  | undivided s w r t r' hw hr hd _ =>
      rw [rewrite_of_undivided hw hr hd, Call.write, List.append_assoc]
      exact .inl (hfront _ hw)
  | divided s w r t r' d u hw hr hd _ =>
      obtain ⟨c, w, rfl⟩ := List.exists_cons_of_ne_nil (run?_ne_nil hw)
      rw [rewrite_of_divided hw hr hd]
      exact .inr ⟨rfl, c, by rw [← hfront [] hw]; rfl, run?_all hw c (by simp)⟩
  | other c s hc _ => exact .inl (by rw [rewrite_cons hc]; rfl)

theorem rewrite_blanks (hb : ∀ c ∈ b, isBlank c = true) (s : Text) :
    rewriteCallDividends (b ++ s) = b ++ rewriteCallDividends s := by
  induction b with
  | nil => rfl
  | cons c b ih =>
      rw [List.cons_append, rewrite_cons (Fraction.isWordChar_of_isBlank (hb c (by simp))),
        ih fun x hx => hb x (by simp [hx]), List.cons_append]

/-- Blanks in front of the text are skipped before or after. -/
theorem skipBlanks_rewrite (s : Text) :
    skipBlanks (rewriteCallDividends s) = rewriteCallDividends (skipBlanks s) := by
  obtain ⟨b, hs, hb⟩ := skipBlanks_eq_append s
  have hhead : ∀ c ∈ (rewriteCallDividends (skipBlanks s)).head?, isBlank c = false := by
    intro c hc
    rcases head?_rewrite (skipBlanks s) with h | ⟨h, -⟩
    · exact isBlank_of_mem_head?_skipBlanks (h ▸ hc)
    · rw [h] at hc
      rw [← Option.some.inj hc]
      decide
  have hrewrite : rewriteCallDividends s = b ++ rewriteCallDividends (skipBlanks s) := by
    rw [← rewrite_blanks hb, ← hs]
  rw [hrewrite, skipBlanks_append_of_all_blank _ hb, skipBlanks_eq_self hhead]

/-! ## The second time -/

/-- No divisor is read when no slash comes first, or no term behind it. -/
theorem divisor_read?_eq_none_iff : divisor.read? s = none ↔
    ∀ t, skipBlanks s = '/' :: t → ∀ c ∈ (skipBlanks t).head?, isTermChar c = false := by
  have hterm : ∀ t, term.read? t = none ↔ ∀ c ∈ t.head?, isTermChar c = false := fun t =>
    run?_eq_none_iff
  rw [divisor, Recogniser.read?_bind, spacedSlash, Recogniser.read?_spaced]
  cases hs : skipBlanks s with
  | nil => simp [tightSlash, Recogniser.read?_nil]
  | cons c t =>
      by_cases hc : c = '/'
      · subst hc
        have hslash : tightSlash.read? ('/' :: t) = some ((), t) := rfl
        rw [hslash, Option.map_some, Option.bind_some, hterm]
        simp
      · rw [tightSlash, Recogniser.read?_single_eq_none hc]
        simp [hc]

/-- A text that begins with no slash and divisor does not begin with one when it is rewritten. -/
theorem divisor_read?_rewrite (h : divisor.read? s = none) :
    divisor.read? (rewriteCallDividends s) = none := by
  rw [divisor_read?_eq_none_iff] at h ⊢
  intro t ht c hc
  rw [skipBlanks_rewrite] at ht
  obtain ⟨x, hx⟩ : ∃ x, skipBlanks s = '/' :: x := by
    have hslash : (rewriteCallDividends (skipBlanks s)).head? = some '/' := by rw [ht]; rfl
    rcases head?_rewrite (skipBlanks s) with hhead | ⟨hhead, -⟩
    · exact List.head?_eq_some_iff.1 (hhead ▸ hslash)
    · rw [hhead] at hslash
      cases hslash
  rw [hx, rewrite_cons (isWordChar_eq_false (by decide))] at ht
  obtain ⟨-, rfl⟩ := List.cons.inj ht
  rw [skipBlanks_rewrite] at hc
  rcases head?_rewrite (skipBlanks x) with hhead | ⟨-, y, hy, hword⟩
  · exact h x hx c (hhead ▸ hc)
  · have hterm := h x hx y hy
    rw [Called.isTermChar_of_isWordChar hword] at hterm
    cases hterm

/-- A call that is not closed stays so when what follows is rewritten. -/
theorem group_read?_rewrite (hhead : ∀ c ∈ r.head?, isWordChar c = false)
    (h : group.read? r = none) : group.read? (rewriteCallDividends r) = none := by
  cases r with
  | nil => rwa [rewrite_nil]
  | cons c r =>
      rw [rewrite_cons (hhead c rfl)]
      by_cases hc : c = '('
      · subst hc
        obtain ⟨e, he⟩ := closing?_eq_none_iff.1 (show closing? 0 r = none from h)
        have hkeeps : Keeps .round r (rewriteCallDividends r) :=
          (Fraction.admits_keeps .round).rewriteCallDividends r
        exact closing?_eq_none_iff.2 ⟨e, hkeeps 0 e he⟩
      · simp [group, group?, hc]

/-- Nothing is rewritten in a text without a parenthesis, and the text behind it is rewritten on
its own where it ends with no word. -/
theorem rewrite_append (hs : '(' ∉ s) (hc : isWordChar c = false) (hopen : c ≠ '(') (u : Text) :
    rewriteCallDividends (s ++ c :: u) = s ++ c :: rewriteCallDividends u := by
  have hgroup : ∀ {r : Text}, r.head? ≠ some '(' → group.read? r = none := by
    intro r hr
    cases r with
    | nil => rfl
    | cons x r => simp [group, group?, show x ≠ '(' by simpa using hr]
  have hlocal : ∀ w t, t <:+ s → (callSite w).LocalAt (c :: u) t := by
    intro w t ht
    have hhead : t.head? ≠ some '(' := fun h => hs (ht.subset (List.mem_of_mem_head? h))
    have hfar : (t ++ c :: u).head? ≠ some '(' := by
      cases t with
      | nil => simpa using hopen
      | cons x t => exact hhead
    rw [Recogniser.LocalAt, callSite_read?_eq_none_iff.2 (hgroup hhead),
      callSite_read?_eq_none_iff.2 (hgroup hfar)]
    rfl
  have hcut : rewriteCallDividends (s ++ c :: u) =
      rewriteCallDividends s ++ rewriteCallDividends (c :: u) :=
    WordRule.replaceAll_append (by simpa using hc) hlocal
      fun w => (Fraction.meets_callSite w).mono fun _ _ _ _ => trivial
  rw [hcut, Fraction.rewriteCallDividends_eq_self hs, rewrite_cons hc]

/-- The pass finds nothing to do in what it has written. -/
theorem rewrite_rewrite (s : Text) :
    rewriteCallDividends (rewriteCallDividends s) = rewriteCallDividends s := by
  have hcall : ∀ {s w r t r' : Text}, run? isWordChar s = some (w, r) →
      group.read? r = some (t, r') → ∀ v, divisor.read? v = none →
      rewriteCallDividends (Call.write ⟨w, t⟩ ++ v) =
        Call.write ⟨w, t⟩ ++ rewriteCallDividends v := by
    intro s w r t r' hw hr v hv
    obtain ⟨-, hclosed⟩ := IsClosedAfter.of_read hw hr isBreak_nil
    exact rewrite_of_undivided (hclosed.run? v) (hclosed.read?_group v) hv
  induction s using rewrite_induction with
  | nil => rw [rewrite_nil, rewrite_nil]
  | pass s w r hw hr ih =>
      have hhead := run?_head hw
      have hrun : run? isWordChar (w ++ rewriteCallDividends r) =
          some (w, rewriteCallDividends r) := by
        refine run?_append (run?_ne_nil hw) (run?_all hw) fun c hc => ?_
        rcases head?_rewrite r with h | ⟨-, x, hx, hword⟩
        · exact hhead c (h ▸ hc)
        · rw [hhead x hx] at hword
          cases hword
      rw [rewrite_of_none hw hr, rewrite_of_none hrun (group_read?_rewrite hhead hr), ih]
  | undivided s w r t r' hw hr hd ih =>
      rw [rewrite_of_undivided hw hr hd, hcall hw hr _ (divisor_read?_rewrite hd), ih]
  | divided s w r t r' d u hw hr hd ih =>
      have hbrace : isWordChar '{' = false ∧ isWordChar '}' = false := by decide +kernel
      obtain ⟨g, -, hdivisor⟩ := isDivisor_of_read? hd
      have hopen : '(' ∉ '}' :: '{' :: d := by
        simp [hdivisor.not_mem (c := '(') (by decide)]
      have hnone : divisor.read? ('}' :: '{' :: (d ++ '}' :: rewriteCallDividends u)) = none :=
        divisor_read?_eq_none_iff.2 fun t ht => by cases ht
      -- The markup in front of the call, the call, and the markup and the divisor behind it.
      have hfront := rewrite_append (s := "\\frac".toList) (by decide) hbrace.1 (by decide)
        (Call.write ⟨w, t⟩ ++ '}' :: '{' :: (d ++ '}' :: rewriteCallDividends u))
      have hback : rewriteCallDividends ('}' :: '{' :: (d ++ '}' :: rewriteCallDividends u)) =
          '}' :: '{' :: (d ++ '}' :: rewriteCallDividends (rewriteCallDividends u)) :=
        rewrite_append hopen hbrace.2 (by decide) (rewriteCallDividends u)
      have hsplit : ∀ v, Markup.frac (Call.write ⟨w, t⟩) d ++ v =
          "\\frac".toList ++ '{' :: (Call.write ⟨w, t⟩ ++ '}' :: '{' :: (d ++ '}' :: v)) :=
        fun v => by
          rw [Fraction.frac_eq, show Markup.fracOpen = "\\frac".toList ++ ['{'] from rfl]
          simp only [List.append_assoc, List.cons_append, List.nil_append]
      rw [rewrite_of_divided hw hr hd, hsplit, hfront, hcall hw hr _ hnone, hback, ih]
  | other c s hc ih => rw [rewrite_cons hc, rewrite_cons hc, ih]

end CalcTypeset.Located
