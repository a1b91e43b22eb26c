import CalcTypeset.Proofs.Delimiter.Calls
import CalcTypeset.Proofs.Operands.Cut
import CalcTypeset.Proofs.Squeeze
import CalcTypeset.Proofs.Sum.Operators

/-!
# Delimiters of the LaTeX line

Until the calls are typeset no parenthesis stands behind a command, so all of them are plain. From
there on the gauge of the parentheses is eased by all that follows: a call leaves none open that it
opens, and the operators touch none. So at the end of the LaTeX line only plain ones are open, and
each other one has been closed by what it waited for.
-/

namespace CalcTypeset

open Text CalcTypeset.Bracket

namespace Delimiter

variable {s t u x y p : Text} {c : Char} {st : List Delimiter} {q r : State}

/-! ## Lines without delimiters -/

/-- The gauge of the commands alone. It gets stuck at a parenthesis behind one. -/
def bare : Gauge Text :=
  .flat (fun x c => if (c = '(' ∨ c = ')') ∧ commands.contains x then none else some (advance x c)) []
    fun {x y c} h => by
      have hnil : commands.contains [] = false := by decide
      simp only [hnil, Bool.false_eq_true, and_false, if_false]
      split at h
      · cases h
      · obtain rfl := Option.some.inj h
        by_cases hc : c = '\\'
        · subst hc
          exact .inl rfl
        · exact .inr (by simp [advance, hc])

theorem bare_step (h : c ≠ '(' ∧ c ≠ ')' ∨ x ∉ commands) :
    bare.step x c = some (advance x c) := if_neg fun ⟨hround, hmem⟩ =>
  h.elim (fun h => hround.elim h.1 h.2) (absurd (List.contains_iff_mem.1 hmem))

/-- What ends a command, and is no parenthesis. -/
theorem bare_step_eq_nil (hslash : c ≠ '\\') (hlower : c.isLower = false) (hopen : c ≠ '(')
    (hclose : c ≠ ')') (x : Text) : bare.step x c = some [] := by
  rw [bare_step (.inl ⟨hopen, hclose⟩), advance_eq_nil hslash hlower]

theorem ne_of_isBlank (hc : isBlank c = true) :
    c ≠ '\\' ∧ c.isLower = false ∧ c ≠ '(' ∧ c ≠ ')' := by
  refine ⟨?_, ?_, ?_, ?_⟩
  · rintro rfl
    exact absurd hc (by decide)
  · exact Operands.isLower_of_isBlank hc
  · rintro rfl
    exact absurd hc (by decide)
  · rintro rfl
    exact absurd hc (by decide)

/-- A command is read alike whatever has been read. -/
theorem bare_follow_command (ht : t.head? = some '\\') (x : Text) :
    bare.follow x t = bare.follow [] t := by
  obtain ⟨l, rfl⟩ := List.head?_eq_some_iff.1 ht
  rw [Gauge.follow_cons, Gauge.follow_cons, bare_step (.inl (by decide)),
    bare_step (.inl (by decide))]
  rfl

theorem settles_bare : bare.Settles [] where
  least _ := .inr rfl
  blank x c hc := by
    obtain ⟨hslash, hlower, hopen, hclose⟩ := ne_of_isBlank hc
    exact bare_step_eq_nil hslash hlower hopen hclose x
  opening := bare_step_eq_nil (by decide) (by decide) (by decide) (by decide)
  closing := bare_step_eq_nil (by decide) (by decide) (by decide) (by decide)
  fracOpen x := (bare_follow_command (by decide) x).trans (by decide)
  star x := by
    rw [Gauge.follow_cons, bare_step_eq_nil (by decide) (by decide) (by decide) (by decide)]
    rfl
  times x := (bare_follow_command (by decide) x).trans (by decide)

/-- A line in which a backslash stands for a constant only has no parenthesis behind a command. -/
theorem bare_of_backslashIsPi (h : Sum.BackslashIsPi s) : ∃ y, bare.follow [] s = some y := by
  induction s with
  | nil => exact ⟨[], rfl⟩
  | cons c s ih =>
      obtain ⟨y, hy⟩ := ih fun u hu => h u (hu.trans (List.suffix_cons c s))
      by_cases hc : c = '\\'
      · -- The letter that follows is no beginning of a command.
        obtain ⟨s', rfl⟩ := List.head?_eq_some_iff.1 (h s (by simp only [hc, List.suffix_refl]))
        exact ⟨y, by rw [hc]; exact hy⟩
      · have hadvance : advance [] c = [] := if_neg hc
        refine ⟨y, ?_⟩
        rw [Gauge.follow_cons, bare_step (.inr (by decide)), Option.bind_some, hadvance, hy]

/-- Where no parenthesis stands behind a command, only plain ones are opened and closed. -/
theorem follow_of_bare (h : bare.follow x s = some y) (n : Nat) :
    ∃ m, delimiters.follow ⟨x, List.replicate n .plain⟩ s =
      some ⟨y, List.replicate m .plain⟩ := by
  induction s generalizing x n with
  | nil =>
      obtain rfl := Option.some.inj h
      exact ⟨n, rfl⟩
  | cons c s ih =>
      obtain ⟨x', hx', hy⟩ := Option.bind_eq_some_iff.1 h
      replace hx' : (if _ then none else some (advance x c)) = some x' := hx'
      split at hx'
      · cases hx'
      · next hcommand =>
          obtain rfl := Option.some.inj hx'
          by_cases hopen : c = '('
          · subst hopen
            have hx : x ∉ commands := fun hx => hcommand ⟨.inl rfl, List.contains_iff_mem.2 hx⟩
            rw [Gauge.follow_cons, step_opening, behind_of_not_mem hx, Option.bind_some]
            obtain ⟨m, hm⟩ := ih hy (n + 1)
            rw [advance_eq_nil (by decide) (by decide)] at hm
            exact ⟨m, hm⟩
          · by_cases hclose : c = ')'
            · subst hclose
              have hx : x ∉ commands := fun hx => hcommand ⟨.inr rfl, List.contains_iff_mem.2 hx⟩
              have hstep : delimiters.step ⟨x, List.replicate n .plain⟩ ')' =
                  some ⟨[], List.replicate (n - 1) .plain⟩ := by
                refine step_closing_eq_some_iff.2 ⟨?_, by rw [List.tail_replicate]⟩
                cases n <;> exact closedBy_plain hx
              obtain ⟨m, hm⟩ := ih hy (n - 1)
              rw [advance_eq_nil (by decide) (by decide)] at hm
              rw [Gauge.follow_cons, hstep, Option.bind_some]
              exact ⟨m, hm⟩
            · rw [Gauge.follow_cons, step_other hopen hclose, Option.bind_some,
                List.map_replicate]
              exact ih hy n

/-! ## Operators -/

/-- A blank ends a command and does nothing else. -/
theorem step_blank (hc : isBlank c = true) (q : State) :
    delimiters.step q c = some ⟨[], q.opened⟩ := by
  obtain ⟨hslash, hlower, hopen, hclose⟩ := ne_of_isBlank hc
  have hdegree : Markup.degree ∉ [c] := by
    intro hmem
    rw [← List.mem_singleton.1 hmem] at hc
    exact absurd hc (by decide)
  rw [step_other hopen hclose, advance_eq_nil hslash hlower, map_marks_of_not_mem hdegree]

theorem follow_blanks {b : Text} (hb : ∀ c ∈ b, isBlank c = true) (st : List Delimiter) :
    delimiters.follow ⟨[], st⟩ b = some ⟨[], st⟩ :=
  Gauge.follow_of_idle fun _ hc => step_blank (hb _ hc) _

/-- A remainder sign ends a command, and so does what is written for it. -/
theorem eases_writeRemainders (s : Text) : delimiters.Eases s (Operator.writeRemainders s) := by
  refine Recogniser.replaceAll_rel delimiters.congruence_eases (Operator.meets_infixSign '%') ?_ s
  rintro w _ r ⟨b, b', rfl, hb, hb'⟩ q r h
  have hmodulo : delimiters.follow q Markup.modulo = some ⟨[], q.opened⟩ := by
    have hread : "\\bmod ".toList.foldl advance [] = [] := by decide
    show delimiters.follow q (' ' :: "\\bmod ".toList) = _
    rw [Gauge.follow_cons, step_blank (by decide), Option.bind_some,
      follow_neutral (by decide), hread]
  have hblanks : ∃ y, delimiters.follow q b = some ⟨y, q.opened⟩ := by
    obtain _ | ⟨c, b⟩ := b
    · exact ⟨q.command, rfl⟩
    · refine ⟨[], ?_⟩
      rw [Gauge.follow_cons, step_blank (hb c (by simp)), Option.bind_some,
        follow_blanks fun d hd => hb d (by simp [hd])]
  obtain ⟨y, hy⟩ := hblanks
  have hsign : delimiters.follow q (b ++ '%' :: b') = some ⟨[], q.opened⟩ := by
    rw [Gauge.follow_append_of_some hy, Gauge.follow_cons, step_other (by decide) (by decide),
      Option.bind_some, advance_eq_nil (by decide) (by decide), map_marks_of_not_mem (by decide),
      follow_blanks hb']
  obtain rfl := Option.some.inj (hsign.symm.trans h)
  exact ⟨_, hmodulo, delimiters.refl _⟩

/-- However many they are, degree marks mark once. -/
theorem follow_degrees {w : Text} (hw : ∀ c ∈ w, c = Markup.degree) (x : Text)
    (st : List Delimiter) : delimiters.follow ⟨x, st⟩ (Markup.degree :: w) =
      some ⟨[], st.map (marks [Markup.degree])⟩ := by
  have hstep : ∀ x st, delimiters.step ⟨x, st⟩ Markup.degree =
      some ⟨[], st.map (marks [Markup.degree])⟩ := fun x st => by
    rw [step_other (by decide) (by decide), advance_eq_nil (by decide) (by decide)]
  induction w generalizing x st with
  | nil => rw [Gauge.follow_cons, hstep]; rfl
  | cons c w ih =>
      have hmarks : ((st.map (marks [Markup.degree])).map (marks [Markup.degree])) =
          st.map (marks [Markup.degree]) := by
        rw [← map_marks_append]
        exact List.map_congr_left fun k _ => by cases k <;> rfl
      rw [Gauge.follow_cons, hstep, Option.bind_some, hw c (by simp),
        ih (fun d hd => hw d (by simp [hd])), hmarks]

theorem eases_mergeDegrees (s : Text) : delimiters.Eases s (Operator.mergeDegrees s) := by
  refine Recogniser.replaceAll_rel delimiters.congruence_eases
    ((Recogniser.meets_run fun c => c = Markup.degree).filter _) ?_ s
  rintro w _ r ⟨⟨rfl, hne, hw, -⟩, -⟩ q r h
  obtain ⟨c, w, rfl⟩ := List.exists_cons_of_ne_nil hne
  obtain rfl : c = Markup.degree := of_decide_eq_true (hw c (by simp))
  rw [follow_degrees fun d hd => of_decide_eq_true (hw d (by simp [hd]))] at h
  exact ⟨r, (follow_degrees (by simp) q.command q.opened).trans h, delimiters.refl r⟩

/-- The same parentheses are open behind a line when its gaps are squeezed. -/
theorem follow_squeezeAfter (gap : Bool)
    (h : delimiters.follow (if gap then ⟨[], q.opened⟩ else q) s = some r) :
    ∃ y, delimiters.follow q (squeezeAfter gap s) = some ⟨y, r.opened⟩ := by
  induction s generalizing gap q with
  | nil =>
      refine ⟨q.command, ?_⟩
      cases gap <;> obtain rfl := Option.some.inj h <;> rfl
  | cons c s ih =>
      obtain ⟨m, hm, hr⟩ := Option.bind_eq_some_iff.1 h
      rw [squeezeAfter]
      cases hc : isBlank c with
      | true =>
          rw [step_blank hc] at hm
          obtain rfl := Option.some.inj hm
          refine ih true (q := q) ?_
          cases gap <;> exact hr
      | false =>
          obtain ⟨y, hy⟩ := ih false hr
          refine ⟨y, ?_⟩
          cases gap with
          | true =>
              show delimiters.follow q (' ' :: c :: squeezeAfter false s) = _
              rw [Gauge.follow_cons, step_blank (by decide), Option.bind_some, Gauge.follow_cons]
              exact (congrArg (Option.bind · _) hm).trans hy
          | false => exact (congrArg (Option.bind · _) hm).trans hy

/-! ## The LaTeX line -/

/-- Only plain parentheses are open at the end. -/
def IsDelimited (s : Text) : Prop :=
  ∃ r, delimiters.follow ⟨[], []⟩ s = some r ∧ ∀ k ∈ r.opened, k = plain

theorem IsDelimited.of_eases (hs : IsDelimited s) (h : delimiters.Eases s t) : IsDelimited t := by
  have hplain : ∀ {st st' : List Delimiter}, List.Forall₂ le st' st → (∀ k ∈ st, k = plain) →
      ∀ k ∈ st', k = plain := by
    intro st st' hle hst
    induction hle with
    | nil => exact hst
    | cons hk _ ih =>
        rw [List.forall_mem_cons] at hst ⊢
        refine ⟨?_, ih hst.2⟩
        rcases hk with rfl | rfl
        · exact hst.1
        · exact marks_eq_plain_iff.2 hst.1
  obtain ⟨r, hr, hopened⟩ := hs
  obtain ⟨r', hr', hle⟩ := h _ r hr
  exact ⟨r', hr', hplain hle.opened hopened⟩

theorem IsDelimited.squeeze (hs : IsDelimited s) : IsDelimited (squeeze s) := by
  obtain ⟨r, hr, hopened⟩ := hs
  obtain ⟨b, hb, hblank⟩ := skipBlanks_eq_append s
  rw [hb, Gauge.follow_append_of_some (follow_blanks hblank [])] at hr
  obtain ⟨y, hy⟩ := follow_squeezeAfter false hr
  exact ⟨_, hy, hopened⟩

theorem IsDelimited.finish (hs : IsDelimited s) : IsDelimited (Operator.finish s) :=
  ((hs.of_eases (eases_writeRemainders s)).of_eases (eases_mergeDegrees _)).squeeze

/-- Of a line without backslashes each parenthesis of the LaTeX line is closed by what it waits for,
unless it is plain. -/
theorem isDelimited_convert (hs : '\\' ∉ s) (style : CallStyle) :
    IsDelimited (Conversion.convert style s) := by
  unfold Conversion.convert
  split
  · exact ⟨_, rfl, by simp⟩
  · have hbare := bare_of_backslashIsPi (Sum.backslashIsPi_replaceEach fun hmem =>
      (mem_squeeze hmem).elim (by decide) hs)
    have hrewrite : IsDelimited (Fraction.rewrite style (Operator.prepare
        (KnownConstant.replaceEach (squeeze s)))) := by
      obtain ⟨y, hy⟩ := hbare
      obtain ⟨y', hy', -⟩ := ((settles_bare.eases_prepare _).trans
        (settles_bare.eases_rewrite style _)) _ _ hy
      obtain ⟨m, hm⟩ := follow_of_bare hy' 0
      exact ⟨_, hm, fun k hk => List.eq_of_mem_replicate hk⟩
    cases style with
    | asTyped => exact hrewrite.finish
    | typeset => exact (hrewrite.of_eases (eases_typesetEach _)).finish

end Delimiter

namespace Conversion

open Delimiter

variable {s p r u : Text} {f : KnownFunction}

/-- The parenthesis behind the command of a function that takes an angle is closed, and what stands
in front of that has a degree mark. -/
theorem degree_mem_argument (hs : '\\' ∉ s) (hf : f ∈ direct)
    (h : convert .typeset s = p ++ f.latex ++ '(' :: r) :
    ∃ t u, closing? 0 r = some (t, u) ∧ Markup.degree ∈ t := by
  obtain ⟨q, hq, hplain⟩ := isDelimited_convert hs .typeset
  have hsplit : p ++ f.latex ++ '(' :: r = p ++ (f.latex ++ ['(']) ++ r := by simp
  rw [h, hsplit] at hq
  obtain ⟨m, hm, hr⟩ := Gauge.follow_append_eq_some_iff.1 hq
  obtain ⟨m', -, hm'⟩ := Gauge.follow_append_eq_some_iff.1 hm
  rw [follow_direct hf] at hm'
  obtain rfl := Option.some.inj hm'
  obtain ⟨t, u, y, hclosing, -, hclosed⟩ := exists_closing hr hplain (by decide)
  refine ⟨t, u, hclosing, ?_⟩
  simpa [marks, closedBy] using And.left (Bool.and_eq_true_iff.1 hclosed)

/-- A parenthesis around the call is never closed, and a fraction ends its dividend inside. -/
theorem degree_mem_argument_unclosed :
    '\\' ∉ "(sin(acos(sqrt(x)/2))".toList ∧
      ∃ t u, closing? 0 "\\cos^\x7b-1\x7d(\\sqrt\x7bx\x7d\x7d\x7b2\x7d)°)".toList = some (t, u) ∧
        Markup.degree ∈ t := by
  have hs : '\\' ∉ "(sin(acos(sqrt(x)/2))".toList := by decide
  exact ⟨hs, degree_mem_argument (f := .sin) (p := "(\\frac\x7b".toList) hs (by decide)
    (by decide +kernel)⟩

/-- A sized parenthesis is closed by a sized one, and a closing sized one was opened by one. -/
theorem sized_parentheses (hs : '\\' ∉ s) :
    (∀ p r, convert .typeset s = p ++ left ++ '(' :: r →
      ∃ a u, closing? 0 r = some (a ++ right, u)) ∧
    ∀ p u, convert .typeset s = p ++ right ++ ')' :: u →
      ∃ q a, p = q ++ left ++ '(' :: a ∧
        closing? 0 (a ++ right ++ ')' :: u) = some (a ++ right, u) := by
  obtain ⟨q, hq, hplain⟩ := isDelimited_convert hs .typeset
  constructor
  · intro p r h
    have hsplit : p ++ left ++ '(' :: r = p ++ left ++ ['('] ++ r := by simp
    rw [h, hsplit] at hq
    obtain ⟨m, hm, hr⟩ := Gauge.follow_append_eq_some_iff.1 hq
    obtain ⟨m', hm', hopen⟩ := Gauge.follow_append_eq_some_iff.1 hm
    obtain ⟨m'', -, hleft⟩ := Gauge.follow_append_eq_some_iff.1 hm'
    rw [follow_left] at hleft
    obtain rfl := Option.some.inj hleft
    have hstep : delimiters.follow ⟨left, m''.opened⟩ ['('] = some ⟨[], sized :: m''.opened⟩ := rfl
    obtain rfl := Option.some.inj (hstep.symm.trans hopen)
    obtain ⟨t, u, y, hclosing, hy, hclosed⟩ := exists_closing hr hplain (by decide)
    obtain rfl : y = right := by simpa [marks, closedBy] using hclosed
    obtain ⟨a, rfl⟩ := hy
    exact ⟨a, u, hclosing⟩
  · intro p u h
    rw [h] at hq
    obtain ⟨q, a, rfl, ha⟩ := exists_opening hq
    refine ⟨q, a, rfl, closing?_eq_some_iff.2 ⟨rfl, ?_⟩⟩
    exact (Kind.depthAfter_append_of_some (k := .round) ha right).trans (by decide)

/-- Sized parentheses in others, behind one that closes nothing. -/
theorem sized_parentheses_nested :
    '\\' ∉ "1)+ln(acos(sqrt(x)+y/2))".toList ∧
      (∀ p r, convert .typeset "1)+ln(acos(sqrt(x)+y/2))".toList = p ++ left ++ '(' :: r →
        ∃ a u, closing? 0 r = some (a ++ right, u)) ∧
      ∀ p u, convert .typeset "1)+ln(acos(sqrt(x)+y/2))".toList = p ++ right ++ ')' :: u →
        ∃ q a, p = q ++ left ++ '(' :: a ∧
          closing? 0 (a ++ right ++ ')' :: u) = some (a ++ right, u) := by
  have hs : '\\' ∉ "1)+ln(acos(sqrt(x)+y/2))".toList := by decide
  exact ⟨hs, sized_parentheses hs⟩

end Conversion

end CalcTypeset
