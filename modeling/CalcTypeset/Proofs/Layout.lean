import CalcTypeset.Proofs.Operands.Cut

/-!
# What layout does not touch

A relation between texts overlooks their layout when it relates a text to itself in brackets, a
division to its fraction, a sign to its command and any blank to nothing, and when two lines are
related as soon as their parts are, wherever no command is cut. Having the same operands is such a
relation, and so is having as many divisions.

The passes over operators, gaps and divisions change nothing but layout, and they cut no command. So
each of them keeps a line related to what it was. The argument does not depend on what the relation
says of the lines; it is made once, here, for all of them.
-/

namespace CalcTypeset

open Text Operands Fraction

/-- No command is cut at the ends of the piece, nor at those of what is written for it. -/
structure CutAt (before : Option Char) (w w' r : Text) : Prop where
  front : ∀ u, u.getLast? = before → IsCut u (w ++ r)
  back : IsCut w r
  front' : ∀ u, u.getLast? = before → ∀ r', IsCut u (w' ++ r')
  back' : ∀ r', IsCut w' r'

/-- The relation does not depend on how a text is laid out. -/
structure OverlooksLayout (R : Text → Text → Prop) : Prop where
  refl : ∀ s, R s s
  symm : ∀ {s t}, R s t → R t s
  trans : ∀ {s t u}, R s t → R t u → R s u
  append : ∀ {s s' t t'}, IsCut s t → IsCut s' t' → R s s' → R t t' → R (s ++ t) (s' ++ t')
  blank : ∀ {c}, isBlank c = true → R [c] []
  degrees : R [Markup.degree, Markup.degree] [Markup.degree]
  braced : ∀ t, R t (Markup.braced t)
  parenthesised : ∀ t, R t (Markup.parenthesised t)
  times : R ['*'] Markup.timesSign
  modulo : R ['%'] "\\bmod".toList
  frac : ∀ {n n' g d d'}, IsSlash g → R n n' → R d d' → R (n ++ g ++ d) (Markup.frac n' d')

theorem isCut_nil (u : Text) : IsCut [] u := isCut_of_last (by simp) u

/-- A blank is in no command. -/
theorem isCut_of_isBlank {b : Text} (hb : ∀ c ∈ b, isBlank c = true) (u : Text) :
    IsCut b u ∧ IsCut u b :=
  ⟨isCut_of_forall (fun c hc =>
      ⟨(isSeparator_of_isBlank (hb c hc)).2, isLower_of_isBlank (hb c hc)⟩) u,
    isCut_of_head (fun c hc => isLower_of_isBlank (hb c (List.mem_of_mem_head? hc))) u⟩

theorem isBlank_of_mem_space : ∀ c ∈ [' '], isBlank c = true := by decide

theorem Fraction.IsSite.cutAt {w r : Text} {q : Quotient} {before : Option Char}
    (h : IsSite w q r) (hfront : ∀ u, u.getLast? = before → IsCut u (w ++ r)) :
    CutAt before w q.write r where
  front := hfront
  back := h.endsClear.isCut
  front' u _ r' := (isCut_write q u r').1
  back' r' := (isCut_write q [] r').2

namespace OverlooksLayout

variable {R : Text → Text → Prop} (hR : OverlooksLayout R) {s t t' w r b b' : Text}

include hR

/-- A scan that cuts no command and relates each piece to what it writes for it relates the line
to its rewriting. -/
theorem of_traces {s' : Text}
    (h : Traces (fun before w w' r => CutAt before w w' r ∧ R w w') none s s') : R s s' := by
  have hall : ∀ {before s s'},
      Traces (fun before w w' r => CutAt before w w' r ∧ R w w') before s s' →
        ∀ u, u.getLast? = before → R (u ++ s) (u ++ s') := by
    intro before s s' h
    induction h with
    | nil before => exact fun u _ => hR.refl _
    | site h hr ih =>
        intro u hu
        obtain ⟨hcut, hw⟩ := h
        exact hR.append (hcut.front u hu) (hcut.front' u hu _) (hR.refl u)
          (hR.append hcut.back (hcut.back' _) hw (ih [] rfl))
    | keep c hr ih =>
        intro u _
        have := ih (u ++ [c]) (by simp)
        rwa [List.append_assoc, List.append_assoc] at this
  exact hall h [] rfl

/-! ## Divisions -/

theorem blanks (hb : ∀ c ∈ b, isBlank c = true) : R b [] := by
  induction b with
  | nil => exact hR.refl []
  | cons c b ih =>
      have hc : ∀ x ∈ [c], isBlank x = true := by simpa using hb c (by simp)
      exact hR.append (isCut_of_isBlank hc b).1 (isCut_nil []) (hR.blank (hb c (by simp)))
        (ih fun x hx => hb x (by simp [hx]))

/-- Blanks around a text say nothing. -/
theorem spaced (hb : ∀ c ∈ b, isBlank c = true) (hb' : ∀ c ∈ b', isBlank c = true) (t : Text) :
    R (b ++ t ++ b') t := by
  have h := hR.append (isCut_of_isBlank hb' (b ++ t)).2 (isCut_of_head (by simp) t)
    (hR.append (isCut_of_isBlank hb t).1 (isCut_nil t) (hR.blanks hb) (hR.refl t))
    (hR.blanks hb')
  rwa [List.append_nil] at h

theorem taken (h : Taken w t) : R w t := by
  cases h with
  | whole => exact hR.refl _
  | bare => exact hR.symm (hR.parenthesised _)
  | @braced t _ =>
      have hbare : R (Markup.parenthesised t) t := hR.symm (hR.parenthesised t)
      exact hR.trans hbare (hR.trans (hR.braced t) (hR.parenthesised _))

theorem site {q : Quotient} (h : IsSite w q r) : R w q.write := by
  obtain ⟨n, g, d, rfl, hg, hn, -, hd, -⟩ := h
  exact hR.frac hg (hR.taken hn) (hR.taken hd)

/-- A pass over divisions, in a line in which commands are set off. -/
theorem replaceAll {p : Recogniser Quotient} (hp : p.Meets IsSite) (hbegins : Begins p)
    (hset : IsSetOff s) : R s (p.replaceAll Quotient.write s) := by
  refine hR.of_traces ((Recogniser.traces_replaceAll hp hbegins s).mono ?_)
  rintro before w _ r ⟨hb, hsuffix, q, hq, rfl⟩
  exact ⟨hq.cutAt fun u hu => isCut_of_beginsAt hset hb hsuffix hu, hR.site hq⟩

theorem rewriteSites {kinds : List (Recogniser Quotient)}
    (hmeets : ∀ p ∈ kinds, p.Meets IsSite) (hbegins : ∀ p ∈ kinds, Begins p) (hset : IsSetOff s) :
    R s (rewriteSites kinds s) := by
  induction kinds generalizing s with
  | nil => exact hR.refl s
  | cons p kinds ih =>
      have hset' := hset.of_eases (settles_setOff.admits.replaceAll (hmeets p (by simp)) s)
      exact hR.trans (hR.replaceAll (hmeets p (by simp)) (hbegins p (by simp)) hset)
        (ih (fun p hp => hmeets p (by simp [hp])) (fun p hp => hbegins p (by simp [hp])) hset')

theorem starProducts (s : Text) : R s (starProducts s) := by
  refine hR.of_traces ((Recogniser.traces_replaceAll (A := fun _ _ => True)
    (Recogniser.meets_literal _ _) (fun _ _ _ _ _ => trivial) s).mono ?_)
  rintro before _ _ r ⟨-, -, x, rfl, rfl⟩
  exact ⟨⟨fun u _ => isCut_close (c := '\\') rfl u _,
    isCut_command (k := (Markup.timesSign, ['*'])) (by simp [commands]) r,
    fun u _ r' => isCut_close (c := '*') rfl u _, fun r' => isCut_star r'⟩, hR.symm hR.times⟩

theorem spacedTimes : R ['*'] Markup.times :=
  hR.trans hR.times (hR.symm (hR.spaced (List.forall_mem_nil _) isBlank_of_mem_space _))

theorem unstarProducts (s : Text) : R s (unstarProducts s) := by
  refine hR.of_traces ((Recogniser.traces_replaceAll (A := fun _ _ => True)
    (Recogniser.meets_single '*') (fun _ _ _ _ _ => trivial) s).mono ?_)
  rintro before _ _ r ⟨-, -, x, rfl, rfl⟩
  exact ⟨⟨fun u _ => isCut_close (c := '*') rfl u _, isCut_star r,
    fun u _ r' => (isCut_times u r').1, fun r' => (isCut_times [] r').2⟩, hR.spacedTimes⟩

theorem rewriteArgument (style : CallStyle) (hset : IsSetOff s) : R s (rewriteArgument style s) :=
  hR.trans (hR.trans (hR.starProducts s) (hR.rewriteSites (meets_argumentSites style)
    (begins_argumentSites style) (hset.of_eases (settles_setOff.eases_starProducts s))))
    (hR.unstarProducts _)

theorem call (n : Text) (h : R t t') :
    R (n ++ Markup.parenthesised t) (n ++ Markup.parenthesised t') :=
  hR.append (isCut_close (c := '(') rfl n _) (isCut_close (c := '(') rfl n _) (hR.refl n)
    (hR.trans (hR.trans (hR.symm (hR.parenthesised t)) h) (hR.parenthesised t'))

/-- A closed call is written with another argument, between the same parentheses. -/
theorem rewriteArguments (style : CallStyle) (hset : IsSetOff s) :
    R s (rewriteArguments style s) := by
  refine hR.of_traces ((WordRule.traces_replaceAll meets_slashedCall s).mono ?_)
  rintro before w _ r ⟨hb, hsuffix, n, v, c, rfl, -, hn, ⟨hw, rfl, -⟩, rfl⟩
  have hcontent : IsSetOff c.content := by
    obtain ⟨p, rfl⟩ := hsuffix
    rw [hw, ← List.append_assoc] at hset
    exact hset.content
  have hfront : ∀ u, u.getLast? = before →
      ∀ t r', IsCut u (c.name ++ Markup.parenthesised t ++ r') := by
    rintro u rfl t r'
    rw [hw, Call.write, Markup.parenthesised] at hsuffix
    have := isCut_call (r := c.content ++ [')'] ++ r) hset hb (by simpa using hsuffix) hn
      (t ++ [')'] ++ r')
    simpa [Markup.parenthesised] using this
  have hback : ∀ t r', IsCut (c.name ++ Markup.parenthesised t) r' := fun t r' =>
    isCut_of_getLast? (getLast?_write ⟨c.name, t⟩) (by decide) r'
  rw [hw]
  exact ⟨⟨fun u hu => hfront u hu _ r, hback _ r, fun u hu r' => hfront u hu _ r',
    fun r' => hback _ r'⟩, hR.call c.name (hR.rewriteArgument style hcontent)⟩

theorem rewriteCallDividends (hset : IsSetOff s) : R s (rewriteCallDividends s) := by
  refine hR.of_traces ((WordRule.traces_replaceAll
    (fun w => (meets_callSite w).and (meets_callSite_head w)) s).mono ?_)
  rintro before w _ r ⟨hb, hsuffix, n, v, c, rfl, -, hn, ⟨⟨rfl, -, hcase⟩, hhead⟩, rfl⟩
  obtain ⟨v, rfl⟩ := List.head?_eq_some_iff.1 hhead
  have hfront : ∀ u, u.getLast? = before → ∀ r', IsCut u (c.call.name ++ '(' :: r') := by
    rintro u rfl r'
    exact isCut_call (r := v ++ r) hset hb (by simpa using hsuffix) hn r'
  rcases hcase with ⟨hnone, hw⟩ | ⟨d, hd, hsite⟩
  · -- The call stays as it is.
    rw [CallSite.write, hnone, ← hw]
    have hback : ∀ r', IsCut (c.call.name ++ '(' :: v) r' := fun r' =>
      isCut_of_getLast? (hw ▸ getLast?_write c.call) (by decide) r'
    exact ⟨⟨fun u hu => by simpa using hfront u hu (v ++ r), hback r,
      fun u hu r' => by simpa using hfront u hu (v ++ r'), hback⟩, hR.refl _⟩
  · rw [CallSite.write, hd]
    exact ⟨hsite.cutAt fun u hu => by simpa using hfront u hu (v ++ r), hR.site hsite⟩

/-- The divisions of a line in which commands are set off become fractions. -/
theorem rewrite (style : CallStyle) (hset : IsSetOff s) : R s (rewrite style s) := by
  have harguments := hset.of_eases (settles_setOff.admits.rewriteArguments style s)
  have hcalls := harguments.of_eases (settles_setOff.admits.rewriteCallDividends _)
  have hgroups := hcalls.of_eases
    (settles_setOff.admits.rewriteSites (meets_groupSites style) _)
  exact hR.trans (hR.trans (hR.rewriteArguments style hset) (hR.rewriteCallDividends harguments))
    (hR.trans (hR.rewriteSites (meets_groupSites style) (begins_groupSites style) hcalls)
      (hR.rewriteSites meets_basicSites begins_basicSites hgroups))

end OverlooksLayout

/-! ## Operators and gaps -/

namespace Operator

theorem isExponentChar_of_isLower {c : Char} (h : c.isLower = true) : isExponentChar c = true := by
  simp [isExponentChar, Operands.isAlpha_of_isLower h]

end Operator

namespace OverlooksLayout

open Operator

variable {R : Text → Text → Prop} (hR : OverlooksLayout R) {s t : Text}

include hR

theorem bracePowers (s : Text) : R s (bracePowers s) := by
  have hA : ∀ c t x, power.read? (c :: t) = none → power.read? t = some x →
      t.head? = some '^' := by
    intro c t x _ ht
    obtain ⟨_, rfl, rfl, -⟩ := meets_power _ _ _ ht
    rfl
  refine hR.of_traces ((Recogniser.traces_replaceAll meets_power hA s).mono ?_)
  rintro before _ _ r ⟨-, -, e, ⟨rfl, hne, he, hr⟩, rfl⟩
  refine ⟨⟨fun u _ => isCut_close (c := '^') rfl u _, ?_,
    fun u _ r' => isCut_close (c := '^') rfl u _, fun r' => ?_⟩, ?_⟩
  · refine isCut_of_head (fun c hc => Bool.eq_false_iff.2 fun hlower => ?_) _
    have := hr c hc
    rw [isExponentChar_of_isLower hlower] at this
    cases this
  · have hlast : ('^' :: Markup.braced e).getLast? = some '\x7d' := by
      rw [Markup.braced, ← List.cons_append, List.getLast?_concat]
    exact isCut_of_getLast? hlast (by decide) r'
  · exact hR.append (isCut_of_last (by decide) e) (isCut_of_last (by decide) _) (hR.refl ['^'])
      (hR.braced e)

theorem infixSign {sign : Char} (hsign : sign.isLower = false ∧ sign ≠ '\\')
    (hfront : ∀ u r, IsCut u (t ++ r)) (hback : ∀ r, IsCut t r) (ht : R [sign] t) (s : Text) :
    R s ((infixSign sign).replaceAll (fun _ => t) s) := by
  refine hR.of_traces ((Recogniser.traces_replaceAll (A := fun _ _ => True)
    (meets_infixSign sign) (fun _ _ _ _ _ => trivial) s).mono ?_)
  rintro before _ _ r ⟨-, -, x, ⟨b, b', rfl, hb, hb'⟩, rfl⟩
  refine ⟨⟨fun u _ => ?_, ?_, fun u _ r' => hfront u r', hback⟩, ?_⟩
  · refine isCut_of_head (fun c hc => ?_) u
    cases b with
    | nil => obtain rfl := Option.some.inj hc; exact hsign.1
    | cons a b => obtain rfl := Option.some.inj hc; exact isLower_of_isBlank (hb _ (by simp))
  · refine isCut_of_forall (fun c hc => ?_) r
    rcases List.mem_append.1 hc with hc | hc
    · exact ⟨(isSeparator_of_isBlank (hb c hc)).2, isLower_of_isBlank (hb c hc)⟩
    · rcases List.mem_cons.1 hc with rfl | hc
      · exact ⟨hsign.2, hsign.1⟩
      · exact ⟨(isSeparator_of_isBlank (hb' c hc)).2, isLower_of_isBlank (hb' c hc)⟩
  · have := hR.spaced hb hb' [sign]
    rw [List.append_assoc] at this
    exact hR.trans this ht

theorem writeProducts (s : Text) : R s (writeProducts s) :=
  hR.infixSign (by decide) (fun u r => (isCut_times u r).1) (fun r => (isCut_times [] r).2)
    hR.spacedTimes s

theorem writeRemainders (s : Text) : R s (writeRemainders s) := by
  have hspaced : R "\\bmod".toList Markup.modulo :=
    hR.symm (hR.spaced isBlank_of_mem_space isBlank_of_mem_space "\\bmod".toList)
  exact hR.infixSign (by decide) (fun u _ => isCut_close (c := ' ') rfl u _)
    (fun r => isCut_of_last (by decide) r) (hR.trans hR.modulo hspaced) s

theorem degreeRun (hne : t ≠ []) (ht : ∀ c ∈ t, c = Markup.degree) : R t [Markup.degree] := by
  have hmark : ∀ r, IsCut [Markup.degree] r := fun r => isCut_of_last (by decide) r
  induction t with
  | nil => exact absurd rfl hne
  | cons c t ih =>
      obtain rfl := ht c (by simp)
      by_cases hnil : t = []
      · rw [hnil]
        exact hR.refl _
      · have := hR.append (hmark t) (hmark _) (hR.refl [Markup.degree])
          (ih hnil fun x hx => ht x (by simp [hx]))
        exact hR.trans this hR.degrees

theorem mergeDegrees (s : Text) : R s (mergeDegrees s) := by
  refine hR.of_traces ((Recogniser.traces_replaceAll (A := fun _ _ => True)
    ((Recogniser.meets_run fun c => c = Markup.degree).filter _)
    (fun _ _ _ _ _ => trivial) s).mono ?_)
  rintro before w _ r ⟨-, -, x, ⟨⟨rfl, hne, hw, -⟩, -⟩, rfl⟩
  have hall : ∀ c ∈ w, c = Markup.degree := fun c hc => of_decide_eq_true (hw c hc)
  have hmark : ∀ r, IsCut [Markup.degree] r := fun r => isCut_of_last (by decide) r
  refine ⟨⟨fun u _ => ?_, ?_, fun u _ r' => isCut_close (by decide) u _, hmark⟩,
    hR.degreeRun hne hall⟩
  · refine isCut_of_head (fun c hc => ?_) u
    obtain ⟨a, w, rfl⟩ := List.exists_cons_of_ne_nil hne
    obtain rfl := Option.some.inj hc
    rw [hall a (by simp)]
    decide
  · refine isCut_of_forall (fun c hc => ?_) r
    rw [hall c hc]
    decide

theorem prepare (s : Text) : R s (prepare s) :=
  hR.trans (hR.bracePowers s) (hR.writeProducts _)

theorem squeezeAfter (gap : Bool) {u : Text} (hgap : gap = true → u = []) (s : Text) :
    R (u ++ s) (u ++ squeezeAfter gap s) := by
  induction s generalizing gap u with
  | nil => exact hR.refl _
  | cons c s ih =>
      rw [Text.squeezeAfter]
      cases hc : isBlank c with
      | true =>
          -- Whatever a blank stands between, no command goes on behind it.
          have hblank : ∀ x ∈ [c], isBlank x = true := by simpa using hc
          have hsqueezed : IsCut u (Text.squeezeAfter true s) := isCut_of_head (fun x hx => by
            rw [head?_squeezeAfter_true s x hx]; rfl) u
          exact hR.append (isCut_close (isLower_of_isBlank hc) u s) hsqueezed (hR.refl u)
            (hR.append (isCut_of_isBlank hblank s).1 (isCut_nil _) (hR.blank hc)
              (ih true (u := []) fun _ => rfl))
      | false =>
          have hcons := ih false (u := u ++ [c]) (absurd · (by decide))
          rw [List.append_assoc, List.append_assoc] at hcons
          cases gap with
          | false => exact hcons
          | true =>
              have hspace : R [] [' '] := hR.symm (hR.blank (by decide))
              rw [hgap rfl, List.nil_append] at hcons ⊢
              have hgapped : R ([] ++ (c :: s)) ([' '] ++ (c :: Text.squeezeAfter false s)) :=
                hR.append (isCut_nil _) (isCut_of_isBlank (by decide) _).1 hspace hcons
              exact hgapped

theorem squeeze (s : Text) : R s (squeeze s) := by
  obtain ⟨b, hb, hblank⟩ := skipBlanks_eq_append s
  have hskip : R s (skipBlanks s) := by
    have := hR.append (isCut_of_isBlank hblank (skipBlanks s)).1 (isCut_nil _) (hR.blanks hblank)
      (hR.refl (skipBlanks s))
    rwa [← hb] at this
  exact hR.trans hskip (hR.squeezeAfter false (u := []) (fun _ => rfl) (skipBlanks s))

theorem finish (s : Text) : R s (finish s) :=
  hR.trans (hR.trans (hR.writeRemainders s) (hR.mergeDegrees _)) (hR.squeeze _)

end OverlooksLayout

end CalcTypeset
