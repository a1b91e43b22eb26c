import CalcTypeset.Proofs.Argument.Sum
import CalcTypeset.Proofs.Reference.Cut

/-!
# The divisions of a sum

In an argument factors stand around asterisks, in a line around multiplication signs. Nothing else
tells the two apart. In both the product pass takes the first divisor of a product of two factors or
more, and the term pass pairs what is left: the last factor, with the divisor that is below its
product, over the next divisor, then the one behind over the one after it. Both passes stop at the
blank in front of a sign.
-/

namespace CalcTypeset.Argument

open Text Chain Fraction CalcTypeset.Sum

variable {s v r σ : Text} {x : Char} {l : Text} {f : ProductNotation} {e : Summand}

/-! ## The notation of an argument -/

theorem hasSign_argumentProduct : HasSign argumentProduct '*' [] :=
  ⟨rfl, by decide, by decide, fun st c hc => by
    cases st <;> simp [ProductNotation.accepts, argumentProduct, hc]⟩

theorem takes_reference {t : Factor} {name : Text} (ht : t.text = Reference.write name)
    (hne : name ≠ []) (hname : ']' ∉ name) : Takes argumentProduct t .complete := by
  intro s
  have hread : Reference.reference.read? (Reference.write name ++ s) = some (name, s) := by
    rw [show Reference.write name ++ s = '[' :: (name ++ ']' :: s) by simp [Reference.write],
      Reference.reference_read?_eq, splitAt?_eq_some_iff.2 ⟨rfl, hname⟩]
    simp [Option.filter, hne]
  have hstart : argumentProduct.factorStart.read? (Reference.write name ++ s) =
      some ((Reference.write name, .complete), s) := by
    have hchar : (Recogniser.char argumentProduct.isFactorChar).read?
        (Reference.write name ++ s) = none := rfl
    have hwhole : argumentProduct.whole.read? (Reference.write name ++ s) =
        some (Reference.write name, s) := by
      show ((Reference.reference.read? _).map _) = _
      rw [hread]
      rfl
    rw [ProductNotation.factorStart, Recogniser.read?_orElse, Recogniser.read?_map, hchar,
      Recogniser.read?_map, hwhole]
    rfl
  rw [ht, hstart]
  rfl

/-- A term of an argument is read to its end, and the product may end behind it. -/
theorem exists_takes_argumentProduct (t : Term) :
    ∃ st, st ≠ .first ∧ Takes argumentProduct t.toFactor st := by
  rcases t.shape with ⟨hopen, hclose⟩ | ⟨name, ht, hne, hname⟩
  · refine ⟨.later, by decide, hasSign_argumentProduct.takes fun c hc => ?_⟩
    have hterm := isTermChar_of_isPlainChar (t.isPlain c hc)
    have hbrackets : c ≠ '[' ∧ c ≠ ']' :=
      ⟨fun h => hopen (h ▸ hc), fun h => hclose (h ▸ hc)⟩
    simp [argumentProduct, hterm, hbrackets]
  · exact ⟨.complete, by decide, takes_reference ht hne hname⟩

/-! ## Products -/

/-- A product of two or more factors, read from its first. -/
theorem led_eq_factors (sign : Text) (t : Term) (us : List Term) (last : Term) :
    led (sign ++ [' ']) (t :: us) ++ last.text =
      t.text ++ factors sign ((us ++ [last]).map fun u => u.toFactor) := by
  induction us generalizing t with
  | nil => simp [led, factors]
  | cons u us ih =>
      have hcons : led (sign ++ [' ']) (t :: u :: us) ++ last.text =
          t.text ++ (sign ++ ' ' :: (led (sign ++ [' ']) (u :: us) ++ last.text)) := by
        simp [led]
      rw [hcons, ih]
      simp [factors]

theorem exists_slashed_plain (σ : Text) (e : Summand) (r : Text) :
    ∃ c y, e.slashed σ ++ r = c :: y ∧ isPlainChar c = true := by
  obtain ⟨front, last, divisors⟩ := e
  cases front with
  | nil =>
      obtain ⟨c, y, h, hc⟩ := last.exists_plain (slashes divisors ++ r)
      exact ⟨c, y, by rw [← h]; simp [Summand.slashed, Summand.product, led], hc⟩
  | cons t us =>
      obtain ⟨c, y, h, hc⟩ := t.exists_plain
        (σ ++ (led σ us ++ (last.text ++ (slashes divisors ++ r))))
      exact ⟨c, y, by rw [← h]; simp [Summand.slashed, Summand.product, led], hc⟩

theorem isBreak_sign (g : Sign) (hx : g.1 ≠ x) (s : Text) :
    HasSign.IsBreak x (' ' :: g.1 :: s) := by
  refine .inr ⟨g.1 :: s, rfl, ⟨g.1, s, rfl, ?_⟩, by simpa using hx⟩
  obtain ⟨g, rfl | rfl⟩ := g <;> decide

/-- A product does not go on in front of a sign and a summand. -/
theorem isBreak_of_isTail {w : Summand → Text} (hx : ∀ g : Sign, g.1 ≠ x) (hv : IsTail w [] v) :
    HasSign.IsBreak x v := by
  cases hv with
  | last => exact .inl rfl
  | sign g e r => exact isBreak_sign g (hx g) _

theorem isTermChar_of_isTail {w : Summand → Text} (hv : IsTail w [] v) :
    ∀ c ∈ v.head?, isTermChar c = false := by
  intro c hc
  cases hv with
  | last => cases hc
  | sign g e r =>
      obtain rfl := eq_of_mem_head?_tail hc
      rfl

/-- Behind a divisor the summand ends, or the next divisor follows. -/
inductive IsStop (w : Summand → Text) : Text → Prop where
  | tail {v : Text} (h : IsTail w [] v) : IsStop w v
  | slash (s : Text) : IsStop w ('/' :: s)

theorem isStop_slashes {w : Summand → Text} (hv : IsTail w [] v) (ds : List Term) :
    IsStop w (slashes ds ++ v) := by
  cases ds with
  | nil => exact .tail hv
  | cons d ds => exact .slash _

theorem IsStop.isTermChar {w : Summand → Text} (h : IsStop w v) :
    ∀ c ∈ v.head?, isTermChar c = false := by
  cases h with
  | tail hv => exact isTermChar_of_isTail hv
  | slash s =>
      intro c hc
      obtain rfl : '/' = c := Option.some.inj hc
      rfl

/-- The product pass passes single terms, whatever divides them. -/
theorem overTerm_replaceAll_slashes (h : HasSign f x l) (hv : HasSign.IsBreak x v) (t : Term)
    (ds : List Term) : f.overTerm.replaceAll Quotient.write (t.text ++ (slashes ds ++ v)) =
      t.text ++ (slashes ds ++ f.overTerm.replaceAll Quotient.write v) := by
  induction ds generalizing t with
  | nil =>
      have hnone : ∀ t ∈ ([] : List Factor), ∃ st, st ≠ .first ∧ Takes f t st :=
        fun _ ht => nomatch ht
      exact h.overTerm_replaceAll_break Quotient.write t.toFactor hnone hv
  | cons d ds ih =>
      rw [slashes_cons_append, slashes_cons_append,
        h.overTerm_replaceAll_factor Quotient.write t.toFactor, ih]

theorem overTerm_replaceAll_pending (h : HasSign f x l) (hv : HasSign.IsBreak x v)
    (ds : List Term) : f.overTerm.replaceAll Quotient.write (slashes ds ++ v) =
      slashes ds ++ f.overTerm.replaceAll Quotient.write v := by
  cases ds with
  | nil => rfl
  | cons d ds =>
      rw [slashes_cons_append, slashes_cons_append, f.overTerm.replaceAll_of_none _ rfl,
        overTerm_replaceAll_slashes h hv]

theorem Summand.halfway_term (σ : Text) (t : Term) (ds : List Term) :
    Summand.halfway σ ⟨[], t, ds⟩ = t.text ++ slashes ds := rfl

theorem Summand.halfway_product (σ : Text) (t u : Term) (ts : List Term) :
    Summand.halfway σ ⟨t :: ts, u, []⟩ = led σ (t :: ts) ++ u.text := by
  simp [halfway, lead, bar, run, pending, slashes]

theorem Summand.halfway_quotient (σ : Text) (t u d : Term) (ts ds : List Term) :
    Summand.halfway σ ⟨t :: ts, u, d :: ds⟩ =
      Markup.frac (led σ (t :: ts) ++ u.text) d.text ++ slashes ds := by
  simp [halfway, lead, bar, run, pending, frac_eq]

/-- The product pass divides the products of two factors or more. -/
theorem distributes_overTerm (h : HasSign f x l) (hx : ∀ g : Sign, g.1 ≠ x)
    (htakes : ∀ t : Term, ∃ st, st ≠ .first ∧ Takes f t.toFactor st) :
    Distributes (f.overTerm.replaceAll Quotient.write) (Summand.slashed (f.sign ++ [' ']))
      (Summand.halfway (f.sign ++ [' '])) [] where
  sign g e r := by
    obtain ⟨c, y, hcy, hc⟩ := exists_slashed_plain (f.sign ++ [' ']) e r
    have hsolid : IsSolidHead (c :: y) :=
      ⟨c, y, rfl, isBlank_of_isPlainChar hc, ne_of_isPlainChar hc (by decide)⟩
    have hhead : x ∉ (c :: y).head? := by simpa using ne_of_isPlainChar hc h.head.1
    have hblank : ∀ s, f.overTerm.read? (' ' :: s) = none := fun _ => rfl
    have hsign : f.overTerm.read? (g.1 :: ' ' :: c :: y) = none :=
      HasSign.overTerm_read?_eq_none
        (h.continue?_blank (w := []) (by simp [IsPlain]) hsolid hhead) g.1
    rw [hcy, tail, f.overTerm.replaceAll_of_none _ (hblank _),
      f.overTerm.replaceAll_of_none _ hsign, f.overTerm.replaceAll_of_none _ (hblank _)]
  summand e v hv := by
    have hbreak := isBreak_of_isTail hx hv
    obtain ⟨front, last, divisors⟩ := e
    cases front with
    | nil =>
        simpa [Summand.slashed, Summand.product, Summand.halfway_term, led] using
          overTerm_replaceAll_slashes h hbreak last divisors
    | cons t us =>
        let ts := (us ++ [last]).map fun u => u.toFactor
        have hts : ∀ t ∈ ts, ∃ st, st ≠ .first ∧ Takes f t st := by
          intro t ht
          obtain ⟨u, -, rfl⟩ := List.mem_map.1 ht
          exact htakes u
        have hproduct : led (f.sign ++ [' ']) (t :: us) ++ last.text =
            t.text ++ factors f.sign ts := led_eq_factors f.sign t us last
        cases divisors with
        | nil =>
            have hpass := h.overTerm_replaceAll_break Quotient.write t.toFactor hts hbreak
            simp only [← List.append_assoc, ← hproduct] at hpass
            simpa [Summand.slashed, Summand.product, Summand.halfway_product, slashes] using hpass
        | cons d ds =>
            have hne : ts ≠ [] := by simp [ts]
            have hread := h.overTerm_read?_product (t := t.toFactor) hne hts isSlash_singleton
              d.isRun d.ne_nil (isStop_slashes hv ds).isTermChar
            have hdivide := f.overTerm.replaceAll_of_read Quotient.write hread
            rw [overTerm_replaceAll_pending h hbreak, ← hproduct] at hdivide
            simpa [Summand.slashed, Summand.product, Summand.halfway_quotient, slashes,
              Quotient.write] using hdivide

/-! ## Terms -/

theorem isSolidHead_sign (g : Sign) (s : Text) : IsSolidHead (g.1 :: s) := by
  refine ⟨g.1, s, rfl, ?_⟩
  obtain ⟨g, rfl | rfl⟩ := g <;> decide

theorem isRun_run (e : Summand) : IsRun e.run := by
  have hmarkup : ∀ c ∈ fractionChars, isTermChar c = true := by decide
  exact fun c hc => (Summand.mem_run hc).elim isTermChar_of_isPlainChar (hmarkup c)

theorem run_ne_nil (e : Summand) : e.run ≠ [] := by
  obtain ⟨c, r, h, -⟩ := e.begins_run
  simp [h]

theorem not_mem_slash_lead (hσ : '/' ∉ σ) (e : Summand) : '/' ∉ e.lead σ := fun hmem => by
  rcases mem_lead hmem with h | h | h
  · exact absurd h (by decide)
  · exact absurd h (by decide)
  · exact hσ h

/-- The last factor stands behind a blank, or at the front of the summand. -/
theorem exists_lead_eq {sign : Text} (hsign : '/' ∉ sign) (e : Summand) :
    e.lead (sign ++ [' ']) = [] ∨ ∃ w, e.lead (sign ++ [' ']) = w ++ [' '] ∧ '/' ∉ w := by
  have hslash : '/' ∉ e.lead (sign ++ [' ']) := not_mem_slash_lead (by simp [hsign]) e
  rcases List.eq_nil_or_concat e.front with hfront | ⟨us, u, hfront⟩
  · exact .inl (by simp [Summand.lead, Summand.bar, hfront, led])
  · have hlead : e.lead (sign ++ [' ']) =
        (e.bar ++ led (sign ++ [' ']) us ++ u.text ++ sign) ++ [' '] := by
      simp [Summand.lead, hfront, led]
    rw [hlead, List.mem_append, not_or] at hslash
    exact .inr ⟨_, hlead, hslash.1⟩

/-- The term pass goes on at the last factor. -/
theorem divideBy_lead {d : Recogniser Text} {sign : Text} (hsign : '/' ∉ sign) (e : Summand)
    (hs : IsSolidHead s) : divideBy d (e.lead (sign ++ [' ']) ++ s) =
      e.lead (sign ++ [' ']) ++ divideBy d s := by
  rcases exists_lead_eq hsign e with h | ⟨w, h, hw⟩
  · rw [h]
    rfl
  · have := divideBy_blank (d := d) hw hs
    simpa [h] using this

/-- The term pass pairs a run and the divisors behind it. -/
theorem divideBy_paired {d : Recogniser Text} {w : Summand → Text} {y : Text}
    (hd : ∀ (t : Term) {v}, IsStop w v → d.read? (t.text ++ v) = some (t.text, v))
    (hpass : ∀ {y}, '/' ∉ y → divideBy d (y ++ v) = y ++ divideBy d v) (hv : IsTail w [] v)
    (hy : IsRun y) (hne : y ≠ []) (ds : List Term) :
    divideBy d (y ++ (slashes ds ++ v)) = paired y ds ++ divideBy d v := by
  have hdivide : ∀ {y : Text} (u : Term) (ds : List Term), IsRun y → y ≠ [] →
      divideBy d (y ++ (slashes (u :: ds) ++ v)) =
        Markup.frac y u.text ++ divideBy d (slashes ds ++ v) := by
    intro y u ds hy hne
    have := divideBy_slash hy hne isSlash_singleton (u.isSolidHead (slashes ds ++ v))
      (hd u (isStop_slashes hv ds))
    simpa [slashes] using this
  induction y, ds using paired.induct with
  | case1 y => exact hpass hy.not_mem_slash
  | case2 y u => exact hdivide u [] hy hne
  | case3 y u u' ds ih =>
      have hslash : ∀ s, divideBy d ('/' :: s) = '/' :: divideBy d s := fun s =>
        Recogniser.replaceAll_of_none _ _ rfl
      rw [hdivide u (u' :: ds) hy hne, slashes_cons_append, hslash, ih u'.isRun u'.ne_nil, paired]
      simp

/-- The term pass divides what is left, when it takes a divisor up to where the next one follows or
the summand ends. -/
theorem distributes_divideBy {d : Recogniser Text} {sign : Text} (hsign : '/' ∉ sign)
    (hmeets : d.Meets IsOperand)
    (hd : ∀ (t : Term) {v}, IsStop (Summand.halfway (sign ++ [' '])) v →
      d.read? (t.text ++ v) = some (t.text, v)) :
    Distributes (divideBy d) (Summand.halfway (sign ++ [' ']))
      (Summand.divided (sign ++ [' '])) [] where
  sign g e r := by
    have hslash : '/' ∉ [g.1] := by obtain ⟨g, rfl | rfl⟩ := g <;> decide
    have hleft := divideBy_blank (d := d) (w := []) (by simp)
      (isSolidHead_sign g (' ' :: (e.halfway (sign ++ [' ']) ++ r)))
    have hright := divideBy_blank (d := d) hslash
      ((begins_halfway (sign ++ [' ']) e).append r).isSolidHead
    simp only [List.nil_append, List.cons_append] at hleft hright
    rw [tail, hleft, hright]
  summand e v hv := by
    have hpass : ∀ {y}, '/' ∉ y → divideBy d (y ++ v) = y ++ divideBy d v := by
      intro y hy
      cases hv with
      | last =>
          have hnil : divideBy d [] = [] := Recogniser.replaceAll_nil _ _
          rw [hnil, List.append_nil]
          exact Recogniser.replaceAll_eq_self_of_not_mem
            ((meets_division meets_term meets_spacedSlash hmeets).mono
              fun _ _ _ hw => hw.mem_slash) hy
      | sign g e r =>
          have hblank := divideBy_blank (d := d) (w := []) (by simp)
            (isSolidHead_sign g (' ' :: (e.halfway (sign ++ [' ']) ++ r)))
          rw [tail, divideBy_blank hy (isSolidHead_sign g _)]
          exact congrArg (y ++ ·) hblank.symm
    have hsolid : IsSolidHead (e.run ++ (slashes e.pending ++ v)) :=
      (isRun_run e).isSolidHead (run_ne_nil e) _
    simp only [Summand.halfway, Summand.divided, List.append_assoc]
    rw [divideBy_lead hsign e hsolid,
      divideBy_paired hd hpass hv (isRun_run e) (run_ne_nil e) e.pending]

end CalcTypeset.Argument
