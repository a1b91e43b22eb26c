import CalcTypeset.Proofs.Chain.Factor

/-!
# Blanks around slashes

A division is read with the blanks around its slash, so two lines that differ only in these blanks
are read alike: what is taken from one at a place is taken from the other at the same place, and the
rests differ only in these blanks again. The two passes that divide lines without parentheses begin
no site at a blank or a slash, so they keep such lines alike as a whole.
-/

namespace CalcTypeset

open Text Fraction

/-- Two texts that differ only in the blanks around slashes. -/
inductive Respaced : Text → Text → Prop where
  | nil : Respaced [] []
  | keep (c : Char) {s s' : Text} (h : Respaced s s') : Respaced (c :: s) (c :: s')
  | slash {g g' s s' : Text} (hg : IsSlash g) (hg' : IsSlash g') (h : Respaced s s') :
      Respaced (g ++ s) (g' ++ s')

variable {s s' t t' w r : Text} {c : Char}

namespace Respaced

theorem refl (s : Text) : Respaced s s := by
  induction s with
  | nil => exact .nil
  | cons c s ih => exact .keep c ih

theorem append (hs : Respaced s s') (ht : Respaced t t') : Respaced (s ++ t) (s' ++ t') := by
  induction hs with
  | nil => exact ht
  | keep c h ih => exact .keep c ih
  | slash hg hg' h ih => rw [List.append_assoc, List.append_assoc]; exact .slash hg hg' ih

theorem symm (h : Respaced s s') : Respaced s' s := by
  induction h with
  | nil => exact .nil
  | keep c h ih => exact .keep c ih
  | slash hg hg' h ih => exact .slash hg' hg ih

theorem eq_nil (h : Respaced [] s') : s' = [] := by
  generalize hs : ([] : Text) = s at h
  cases h with
  | nil => rfl
  | keep c h => cases hs
  | slash hg hg' h =>
      obtain ⟨c, x, rfl, -⟩ := hg.exists_cons
      cases hs

/-- A character of a term stands in both texts. -/
theorem cons_of_isTermChar (h : Respaced (c :: s) s') (hc : isTermChar c = true) :
    ∃ t, s' = c :: t ∧ Respaced s t := by
  generalize hs : c :: s = v at h
  cases h with
  | nil => cases hs
  | keep d h =>
      obtain ⟨rfl, rfl⟩ := List.cons.inj hs
      exact ⟨_, rfl, h⟩
  | slash hg hg' h =>
      obtain ⟨d, x, rfl, hd⟩ := hg.exists_cons
      obtain ⟨rfl, -⟩ := List.cons.inj hs
      rw [hc] at hd
      cases hd

theorem append_of_isRun (hw : ∀ c ∈ w, isTermChar c = true) (h : Respaced (w ++ s) s') :
    ∃ t, s' = w ++ t ∧ Respaced s t := by
  induction w generalizing s' with
  | nil => exact ⟨s', rfl, h⟩
  | cons c w ih =>
      obtain ⟨t, rfl, ht⟩ := h.cons_of_isTermChar (hw c (by simp))
      obtain ⟨u, rfl, hu⟩ := ih (fun x hx => hw x (by simp [hx])) ht
      exact ⟨u, rfl, hu⟩

theorem head_isTermChar (h : Respaced s s') (hs : ∀ c ∈ s.head?, isTermChar c = false) :
    ∀ c ∈ s'.head?, isTermChar c = false := by
  intro c hc
  obtain ⟨t', rfl⟩ := List.head?_eq_some_iff.1 hc
  refine Bool.eq_false_iff.2 fun hterm => ?_
  obtain ⟨t, rfl, -⟩ := h.symm.cons_of_isTermChar hterm
  rw [hs c rfl] at hterm
  cases hterm

theorem skipBlanks (h : Respaced s s') : Respaced (skipBlanks s) (skipBlanks s') := by
  induction h with
  | nil => exact .nil
  | keep c h ih =>
      cases hc : isBlank c with
      | true => rwa [skipBlanks_cons_of_isBlank _ hc, skipBlanks_cons_of_isBlank _ hc]
      | false =>
          rw [skipBlanks_cons_of_not_isBlank _ hc, skipBlanks_cons_of_not_isBlank _ hc]
          exact .keep c h
  | slash hg hg' h ih =>
      have hskip : ∀ {g s}, IsSlash g → ∃ b, Text.skipBlanks (g ++ s) = ('/' :: b) ++ s ∧
          IsSlash ('/' :: b) := by
        rintro _ s ⟨b, b', rfl, hb, hb'⟩
        refine ⟨b', ?_, [], b', rfl, by simp, hb'⟩
        rw [List.append_assoc, skipBlanks_append_of_all_blank _ hb, List.cons_append,
          skipBlanks_cons_of_not_isBlank _ (by decide)]
      obtain ⟨b, hb, hslash⟩ := hskip hg
      obtain ⟨b', hb', hslash'⟩ := hskip hg'
      rw [hb, hb']
      exact .slash hslash hslash' h

/-- Behind a slash in one text and the blanks around it, both texts go on alike. -/
theorem slash_cons (h : Respaced ('/' :: s) s') (hs' : ∀ c ∈ s'.head?, isBlank c = false) :
    ∃ t, s' = '/' :: t ∧ Respaced (Text.skipBlanks s) (Text.skipBlanks t) := by
  generalize hs : '/' :: s = v at h
  cases h with
  | nil => cases hs
  | keep d h =>
      obtain ⟨rfl, rfl⟩ := List.cons.inj hs
      exact ⟨_, rfl, h.skipBlanks⟩
  | slash hg hg' h =>
      obtain ⟨b, b₁, rfl, hb, hb₁⟩ := hg
      obtain ⟨b', b₁', rfl, hb', hb₁'⟩ := hg'
      have hnil : ∀ {b x : Text}, (∀ c ∈ b, isBlank c = true) →
          (∀ c ∈ (b ++ x).head?, isBlank c = false) → b = [] := by
        intro b x hb hx
        cases b with
        | nil => rfl
        | cons c b =>
            have := hx c rfl
            rw [hb c (by simp)] at this
            cases this
      rw [List.append_assoc] at hs hs' ⊢
      obtain rfl := hnil hb' hs'
      obtain rfl := hnil hb (by rw [← hs]; simp; decide)
      obtain ⟨-, rfl⟩ := List.cons.inj hs
      refine ⟨b₁' ++ _, rfl, ?_⟩
      show Respaced (Text.skipBlanks (b₁ ++ _)) _
      rw [skipBlanks_append_of_all_blank _ hb₁, skipBlanks_append_of_all_blank _ hb₁']
      exact h.skipBlanks

/-- In front of anything but a slash, both texts have the same blanks. -/
theorem takeWhile_isBlank (h : Respaced s s') (hs : '/' ∉ (Text.skipBlanks s).head?) :
    s'.takeWhile isBlank = s.takeWhile isBlank := by
  induction h with
  | nil => rfl
  | keep c h ih =>
      cases hc : isBlank c with
      | true =>
          rw [skipBlanks_cons_of_isBlank _ hc] at hs
          rw [List.takeWhile_cons_of_pos hc, List.takeWhile_cons_of_pos hc, ih hs]
      | false =>
          rw [List.takeWhile_cons_of_neg (by simp [hc]), List.takeWhile_cons_of_neg (by simp [hc])]
  | slash hg hg' h ih =>
      obtain ⟨b, b', rfl, hb, -⟩ := hg
      rw [List.append_assoc, skipBlanks_append_of_all_blank _ hb, List.cons_append,
        skipBlanks_cons_of_not_isBlank _ (by decide)] at hs
      exact absurd rfl hs

/-- What can be seen of the two texts is the same. -/
theorem filter (h : Respaced s s') :
    s'.filter (fun c => !isBlank c) = s.filter fun c => !isBlank c := by
  have hslash : ∀ {g : Text}, IsSlash g → g.filter (fun c => !isBlank c) = ['/'] := by
    rintro _ ⟨b, b', rfl, hb, hb'⟩
    have hnone : ∀ {b : Text}, (∀ c ∈ b, isBlank c = true) →
        b.filter (fun c => !isBlank c) = [] := fun hb =>
      List.filter_eq_nil_iff.2 fun c hc => by simp [hb c hc]
    rw [List.filter_append, hnone hb, List.filter_cons_of_pos (by decide), hnone hb']
    rfl
  induction h with
  | nil => rfl
  | keep c h ih =>
      cases hc : isBlank c with
      | true =>
          rw [List.filter_cons_of_neg (by simp [hc]), List.filter_cons_of_neg (by simp [hc]), ih]
      | false =>
          rw [List.filter_cons_of_pos (by simp [hc]), List.filter_cons_of_pos (by simp [hc]), ih]
  | slash hg hg' h ih => rw [List.filter_append, List.filter_append, hslash hg, hslash hg', ih]

/-- Without a slash nothing can differ. -/
theorem eq_of_not_mem (h : Respaced s s') (hs : '/' ∉ s) : s' = s := by
  induction h with
  | nil => rfl
  | keep c h ih => rw [ih fun hmem => hs (List.mem_cons_of_mem c hmem)]
  | slash hg hg' h ih =>
      obtain ⟨b, b', rfl, -⟩ := hg
      exact absurd (by simp) hs

end Respaced

/-! ## Reading alike -/

/-- The same result with rests that differ only in the blanks around slashes, or no result. -/
inductive Alike {β : Type} : Option (β × Text) → Option (β × Text) → Prop where
  | none : Alike none none
  | some (b : β) {r r' : Text} (h : Respaced r r') : Alike (some (b, r)) (some (b, r'))

namespace Alike

variable {β γ : Type} {x x' y y' : Option (β × Text)}

theorem map (h : Alike x x') (g : β → γ) :
    Alike (x.map fun z => (g z.1, z.2)) (x'.map fun z => (g z.1, z.2)) := by
  cases h with
  | none => exact .none
  | some b h => exact .some (g b) h

theorem prepend {x x' : Option (Fraction.Quotient × Text)} (h : Alike x x') (w : Text) :
    Alike (x.map (ProductNotation.prepend w)) (x'.map (ProductNotation.prepend w)) := by
  cases h with
  | none => exact .none
  | some q h => exact .some (Fraction.Quotient.mk (w ++ q.dividend) q.divisor) h

theorem bind (h : Alike x x') {f : β × Text → Option (γ × Text)}
    (hf : ∀ b r r', Respaced r r' → Alike (f (b, r)) (f (b, r'))) :
    Alike (x.bind f) (x'.bind f) := by
  cases h with
  | none => exact .none
  | some b h => exact hf b _ _ h

theorem or (h : Alike x x') (h' : Alike y y') : Alike (x.or y) (x'.or y') := by
  cases h with
  | none => exact h'
  | some b h => exact .some b h

end Alike

/-- What is read of one text is read of the other too, so it is enough to look at what is read. -/
theorem Respaced.alike {β : Type} {f : Text → Option (β × Text)}
    (hf : ∀ {s s' b r}, Respaced s s' → f s = some (b, r) →
      ∃ r', f s' = some (b, r') ∧ Respaced r r')
    {s s' : Text} (h : Respaced s s') : Alike (f s) (f s') := by
  cases hs : f s with
  | some x =>
      obtain ⟨r', hs', hr⟩ := hf h hs
      rw [hs']
      exact .some x.1 hr
  | none =>
      cases hs' : f s' with
      | none => exact .none
      | some x =>
          obtain ⟨r, hr, -⟩ := hf h.symm hs'
          rw [hs] at hr
          cases hr

/-- The recogniser reads texts alike that differ only in the blanks around slashes, and it takes
nothing that begins with a blank or a slash. -/
structure IgnoresSpacing {α : Type} (p : Recogniser α) : Prop where
  alike : ∀ {s s'}, Respaced s s' → Alike (p.read? s) (p.read? s')
  head : ∀ {c s}, isTermChar c = false → p.read? (c :: s) = none

/-- Such a pass leaves a slash and the blanks around it. -/
theorem IgnoresSpacing.replaceAll_slash {α : Type} {p : Recogniser α} (hp : IgnoresSpacing p)
    (render : α → Text) {g : Text} (hg : IsSlash g) (s : Text) :
    p.replaceAll render (g ++ s) = g ++ p.replaceAll render s := by
  obtain ⟨b, b', rfl, hb, hb'⟩ := hg
  refine Recogniser.replaceAll_append_of_none fun t hne ht => ?_
  obtain ⟨c, t, rfl⟩ := List.exists_cons_of_ne_nil hne
  refine hp.head ?_
  have hmem : c ∈ b ++ '/' :: b' := ht.subset (by simp)
  rcases List.mem_append.1 hmem with hc | hc
  · simp [isTermChar, hb c hc]
  · rcases List.mem_cons.1 hc with rfl | hc
    · decide
    · simp [isTermChar, hb' c hc]

/-- A pass keeps texts alike that differ only in the blanks around slashes. -/
theorem Respaced.replaceAll {α : Type} {p : Recogniser α} (hp : IgnoresSpacing p)
    (render : α → Text) {s s' : Text} (h : Respaced s s') :
    Respaced (p.replaceAll render s) (p.replaceAll render s') := by
  cases h with
  | nil => rw [Recogniser.replaceAll_nil]; exact .nil
  | @keep c s s' h =>
      have halike := hp.alike (Respaced.keep c h)
      generalize hx : p.read? (c :: s) = x at halike
      generalize hx' : p.read? (c :: s') = x' at halike
      cases halike with
      | none =>
          rw [p.replaceAll_of_none render hx, p.replaceAll_of_none render hx']
          exact .keep c (Respaced.replaceAll hp render h)
      | some a hr =>
          have hshrinks := p.shrinks hx
          rw [p.replaceAll_of_read render hx, p.replaceAll_of_read render hx']
          exact (Respaced.refl _).append (Respaced.replaceAll hp render hr)
  | slash hg hg' h =>
      rw [hp.replaceAll_slash render hg, hp.replaceAll_slash render hg']
      exact .slash hg hg' (Respaced.replaceAll hp render h)
termination_by s.length
decreasing_by
  · simp
  · exact hshrinks
  · obtain ⟨c, x, rfl, -⟩ := hg.exists_cons
    simp only [List.length_append, List.length_cons]
    omega

/-! ## The divisions of a line without parentheses -/

namespace Respaced

theorem alike_run (h : Respaced s s') :
    Alike (run? isTermChar s) (run? isTermChar s') := by
  refine Respaced.alike (fun {s s' w r} h hs => ?_) h
  rw [run?_eq_append hs] at h
  obtain ⟨r', rfl, hr⟩ := h.append_of_isRun (run?_all hs)
  exact ⟨r', run?_append (run?_ne_nil hs) (run?_all hs) (hr.head_isTermChar (run?_head hs)), hr⟩

theorem alike_char (h : Respaced s s') :
    Alike ((Recogniser.char isTermChar).read? s) ((Recogniser.char isTermChar).read? s') := by
  refine Respaced.alike (fun {s s' c r} h hs => ?_) h
  obtain ⟨_, rfl, rfl, hc⟩ := Recogniser.meets_char _ _ _ _ hs
  obtain ⟨t, rfl, ht⟩ := h.cons_of_isTermChar hc
  exact ⟨t, if_pos hc, ht⟩

theorem alike_spacedSlash (h : Respaced s s') :
    Alike (spacedSlash.read? s) (spacedSlash.read? s') := by
  refine Respaced.alike (fun {s s' _ r} h hs => ?_) h
  rw [spacedSlash, Recogniser.read?_spaced] at hs ⊢
  obtain ⟨⟨_, v⟩, hv, he⟩ := Option.map_eq_some_iff.1 hs
  obtain ⟨-, rfl⟩ := Prod.mk.inj he
  have hskip := h.skipBlanks
  rw [Recogniser.read?_single_eq_some_iff.1 hv] at hskip
  obtain ⟨v', hs', hv'⟩ := hskip.slash_cons fun _ => isBlank_of_mem_head?_skipBlanks
  refine ⟨Text.skipBlanks v', ?_, hv'⟩
  rw [tightSlash, Recogniser.read?_single_eq_some_iff.2 hs']
  rfl

theorem endsTerm (h : Respaced s s') : endsTerm s' = endsTerm s := by
  have hsign : ∀ c ∈ Markup.timesSign, isTermChar c = true := by decide
  have hends : ∀ {s s' : Text}, Respaced s s' → Fraction.endsTerm s = true →
      Fraction.endsTerm s' = true := by
    intro s s' h hs
    have hskip := h.skipBlanks
    have hhead' : ∀ c ∈ (Text.skipBlanks s').head?, isBlank c = false := fun _ =>
      isBlank_of_mem_head?_skipBlanks
    rw [Fraction.endsTerm] at hs ⊢
    generalize Text.skipBlanks s = v at hskip hs
    generalize Text.skipBlanks s' = v' at hskip hhead' ⊢
    cases v with
    | nil => rw [hskip.eq_nil]
    | cons c v =>
        by_cases hc : c = '/'
        · subst hc
          obtain ⟨u, rfl, -⟩ := hskip.slash_cons hhead'
          rfl
        · have hterm : isTermChar c = true := by
            simp only [hc, decide_false, Bool.false_or, Bool.or_eq_true, decide_eq_true_eq,
              startsWith_iff] at hs
            rcases hs with (rfl | rfl) | ⟨r, hr⟩
            · rfl
            · rfl
            · obtain rfl : c = '\\' := (List.cons.inj hr).1
              rfl
          obtain ⟨u, rfl, -⟩ := hskip.cons_of_isTermChar hterm
          simp only [Bool.or_eq_true, startsWith_iff] at hs ⊢
          refine hs.imp_right ?_
          rintro ⟨r, hr⟩
          rw [hr] at hskip
          obtain ⟨r', hr', -⟩ := hskip.append_of_isRun hsign
          exact ⟨r', hr'⟩
  cases hs : Fraction.endsTerm s with
  | true => exact hends h hs
  | false => exact Bool.eq_false_iff.2 fun hs' => by rw [hends h.symm hs'] at hs; cases hs

theorem alike_endedTerm (h : Respaced s s') : Alike (endedTerm? s) (endedTerm? s') := by
  induction s generalizing s' with
  | nil => rw [h.eq_nil]; exact .none
  | cons c s ih =>
      cases hc : isTermChar c with
      | true =>
          obtain ⟨t, rfl, ht⟩ := h.cons_of_isTermChar hc
          rw [endedTerm?, endedTerm?, if_pos hc, if_pos hc, ht.endsTerm]
          have := ih ht
          generalize endedTerm? s = x at this
          generalize endedTerm? t = x' at this
          cases this with
          | some b hr => exact .some (c :: b) hr
          | none =>
              show Alike (if _ then some ([c], s) else none) (if _ then some ([c], t) else none)
              split
              · exact .some [c] ht
              · exact .none
      | false =>
          have hnone : ∀ {u : Text}, (∀ x ∈ u.head?, isTermChar x = false) →
              endedTerm? u = none := by
            intro u hu
            cases u with
            | nil => rfl
            | cons x u => rw [endedTerm?, if_neg (by simp [hu x rfl])]
          rw [hnone (by simpa using hc), hnone (h.head_isTermChar (by simpa using hc))]
          exact .none

end Respaced

theorem ignoresSpacing_divideTerms : IgnoresSpacing (division term spacedSlash endedTerm) where
  alike h := by
    refine h.alike_run.bind fun n r r' hr => ?_
    refine hr.alike_spacedSlash.bind fun _ u u' hu => ?_
    exact hu.alike_endedTerm.map fun d => Fraction.Quotient.mk n d
  head {c s} hc := by
    have hrun : run? isTermChar (c :: s) = none := run?_eq_none_iff.2 (by simpa using hc)
    exact division_read?_eq_none hrun

namespace Respaced

/-- The next factor of a product is taken with the same blanks around its sign. -/
theorem alike_nextFactor (h : Respaced s s') :
    Alike ((lineProduct.nextFactor? s).map fun x => ((x.1, x.2.1), x.2.2))
      ((lineProduct.nextFactor? s').map fun x => ((x.1, x.2.1), x.2.2)) := by
  refine Respaced.alike
    (f := fun s => (lineProduct.nextFactor? s).map fun x => ((x.1, x.2.1), x.2.2))
    (fun {s s' _ u} h hs => ?_) h
  obtain ⟨⟨w, st, _⟩, hnext, he⟩ := Option.map_eq_some_iff.1 hs
  obtain ⟨rfl, rfl⟩ := Prod.mk.inj he
  obtain ⟨r, hr, hnext⟩ := Option.bind_eq_some_iff.1 hnext
  obtain ⟨⟨⟨v, st'⟩, u'⟩, hstart, he⟩ := Option.map_eq_some_iff.1 hnext
  cases he
  rw [Chain.factorStart_read?_eq] at hstart
  obtain ⟨⟨c, u''⟩, hc, he⟩ := Option.map_eq_some_iff.1 hstart
  cases he
  obtain ⟨_, hrs, rfl, hterm⟩ := Recogniser.meets_char _ _ _ _ hc
  have hskip := h.skipBlanks
  rw [after?_eq_some_iff.1 hr] at hskip
  obtain ⟨r', hr', hrr'⟩ := hskip.append_of_isRun (by decide)
  have hskip' := hrr'.skipBlanks
  rw [hrs] at hskip'
  obtain ⟨z, hz, huz⟩ := hskip'.cons_of_isTermChar hterm
  have hblank : s'.takeWhile isBlank = s.takeWhile isBlank := by
    refine h.takeWhile_isBlank ?_
    rw [after?_eq_some_iff.1 hr]
    exact fun hmem => absurd (Option.some.inj hmem) (by decide)
  have hblank' : r'.takeWhile isBlank = r.takeWhile isBlank := by
    refine hrr'.takeWhile_isBlank ?_
    rw [hrs]
    intro hmem
    obtain rfl : c = '/' := Option.some.inj hmem
    cases hterm
  refine ⟨z, ?_, huz⟩
  have hchar : (Recogniser.char isTermChar).read? (c :: z) = some (c, z) := if_pos hterm
  have hafter : Text.after? lineProduct.sign (Text.skipBlanks s') = some r' :=
    after?_eq_some_iff.2 hr'
  show ((lineProduct.nextFactor? s').map fun x => ((x.1, x.2.1), x.2.2)) = _
  rw [ProductNotation.nextFactor?, hafter, Option.bind_some, Chain.factorStart_read?_eq, hz, hchar,
    hblank, hblank']
  rfl

theorem alike_finish (h : Respaced s s') :
    Alike (ProductNotation.finish.read? s) (ProductNotation.finish.read? s') := by
  have hdivisor : Alike (divisor.read? s) (divisor.read? s') :=
    h.alike_spacedSlash.bind fun _ u u' hu => hu.alike_run
  exact hdivisor.map fun d => Fraction.Quotient.mk [] d

/-- Past the next factor the same is taken, when it is in shorter lines. -/
theorem alike_nextFactor_bind
    (ih : ∀ st u u', u.length < s.length → Respaced u u' →
      Alike (lineProduct.continue? st u) (lineProduct.continue? st u'))
    (h : Respaced s s') :
    Alike ((lineProduct.nextFactor? s).bind fun x =>
        (lineProduct.continue? x.2.1 x.2.2).map (ProductNotation.prepend x.1))
      ((lineProduct.nextFactor? s').bind fun x =>
        (lineProduct.continue? x.2.1 x.2.2).map (ProductNotation.prepend x.1)) := by
  have hnext := h.alike_nextFactor
  generalize hx : lineProduct.nextFactor? s = x at hnext ⊢
  generalize lineProduct.nextFactor? s' = x' at hnext ⊢
  match x, x' with
  | none, none => exact .none
  | none, some _ => cases hnext
  | some _, none => cases hnext
  | some (w, st, r), some (w', st', r') =>
      generalize hb : (w', st') = b at hnext
      cases hnext with
      | some b hr =>
          obtain ⟨rfl, rfl⟩ := Prod.mk.inj hb
          exact (ih b.2 _ _ (lineProduct.nextFactor?_length hx) hr).prepend b.1

/-- Reading on in a product, the same is taken. -/
theorem alike_continue (st : FactorState) {s s' : Text} (h : Respaced s s') :
    Alike (lineProduct.continue? st s) (lineProduct.continue? st s') := by
  rw [ProductNotation.continue?_eq, ProductNotation.continue?_eq]
  refine .or ?_ (.or ?_ ?_)
  · match s, h with
    | [], h => rw [h.eq_nil]; exact .none
    | c :: s, h =>
        cases hc : isTermChar c with
        | true =>
            obtain ⟨t, rfl, ht⟩ := h.cons_of_isTermChar hc
            show Alike (if _ then (lineProduct.continue? st s).map _ else none)
              (if _ then (lineProduct.continue? st t).map _ else none)
            split
            · exact (alike_continue st ht).prepend [c]
            · exact .none
        | false =>
            show Alike (if _ then (lineProduct.continue? st s).map _ else none) _
            rw [Chain.accepts_eq_false st hc]
            cases s' with
            | nil => exact .none
            | cons d t =>
                have hd := h.head_isTermChar (by simpa using hc) d rfl
                show Alike none (if lineProduct.accepts st d = true then _ else none)
                rw [Chain.accepts_eq_false st hd]
                exact .none
  · exact alike_nextFactor_bind (fun st u u' hlength hu => alike_continue st hu) h
  · split
    · exact .none
    · exact h.alike_finish
termination_by s.length
decreasing_by
  · simp
  · exact hlength

end Respaced

theorem ignoresSpacing_divideProducts : IgnoresSpacing lineProduct.overTerm where
  alike h := h.alike_char.bind fun c r r' hr =>
    (hr.alike_continue .first).map fun q => Fraction.Quotient.mk (c :: q.dividend) q.divisor
  head {c s} hc := by
    have hchar : (Recogniser.char isTermChar).read? (c :: s) = none := if_neg (by simp [hc])
    exact Recogniser.read?_bind_eq_none hchar _

end CalcTypeset
