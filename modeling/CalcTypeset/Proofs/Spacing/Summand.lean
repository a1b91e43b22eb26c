import CalcTypeset.Proofs.Argument.Kept
import CalcTypeset.Proofs.Spacing.Spelling

/-!
# A summand with at most one division

A product, a product over a term, and a term over the first factor of a product: with one slash at
most the two passes that divide a line have one site at most, and what they leave is known to the
character. Blanks around an asterisk go into the multiplication sign, and blanks around the slash
are read with it, so the spelling does not matter.
-/

namespace CalcTypeset.Spelling

open Text Fraction Chain

/-- Factors with an asterisk in front of each, and gaps around it. -/
def starred (us : List (Gap × Gap × Factor)) : List (Joint × Factor) :=
  us.map fun x => (⟨.times, x.1, x.2.1⟩, x.2.2)

/-- The product of a term and the factors behind it. -/
def productOf (t : Factor) (us : List (Gap × Gap × Factor)) : Product := ⟨t, us.map (·.2.2)⟩

variable {c : Char} {js : List (Joint × Factor)} {t : Factor} {p q : Product}

/-! ## The passes -/

theorem prepared_starred (t : Factor) (us : List (Gap × Gap × Factor)) :
    prepared t (starred us) = (productOf t us).write := by
  induction us generalizing t with
  | nil => rfl
  | cons x us ih =>
      obtain ⟨l, r, u⟩ := x
      have hcons : starred ((l, r, u) :: us) = (⟨.times, l, r⟩, u) :: starred us := rfl
      have htail : prepared u (starred us) = u.text ++ further (us.map (·.2.2)) := ih u
      rw [hcons, prepared_cons, htail]
      exact congrArg (t.text ++ ·) (further_cons u _).symm

/-- A product and a slash without blanks, and what stands behind it. -/
theorem prepared_slash (t : Factor) (us : List (Gap × Gap × Factor)) (d : Factor) :
    prepared t (starred us ++ (tight .slash, d) :: js) =
      (productOf t us).write ++ '/' :: prepared d js := by
  have happend : ∀ js', prepared t (starred us ++ js') = prepared t (starred us) ++
      js'.flatMap fun x => x.1.prepared ++ x.2.text := by
    intro js'
    rw [prepared, prepared, List.flatMap_append, List.append_assoc]
  have hslash : (tight .slash).prepared = ['/'] := rfl
  rw [happend, prepared_starred, prepared, List.flatMap_cons, hslash]
  simp

/-- Both passes read a line alike whatever blanks are around its slashes. -/
theorem divide_prepared {js' : List (Joint × Factor)} (h : told js = told js')
    (hslash : '/' ∉ divide (prepared t js')) :
    divide (prepared t js) = divide (prepared t js') := by
  have hproducts := (respaced_prepared (t := t) h.symm).replaceAll ignoresSpacing_divideProducts
    Quotient.write
  exact (hproducts.replaceAll ignoresSpacing_divideTerms Quotient.write).eq_of_not_mem hslash

/-- One slash at most: the fraction of the product and a factor, or of a factor and the first of a
product, with the rest of the product behind it. -/
theorem divide_quotients (hpq : p.others = [] ∨ q.others = []) :
    divide (quotients p [q]) = Markup.frac p.write q.first.text ++ further q.others := by
  have hbecomes := becomes_typeset p [q]
  by_cases hp : p.others = []
  · rw [typeset?_factor hp] at hbecomes
    rw [write_of_single hp]
    exact hbecomes
  · have hq := hpq.resolve_left hp
    rw [typeset?_product_factor hp hq] at hbecomes
    rw [hq]
    exact hbecomes.trans (List.append_nil _).symm

theorem not_mem_slash_divided (p q : Product) :
    '/' ∉ Markup.frac p.write q.first.text ++ further q.others := by
  rw [List.mem_append, not_or]
  exact ⟨not_mem_slash_frac (not_mem_slash_write p) q.first.isRun.not_mem_slash,
    not_mem_slash_further q.others⟩

/-! ## Gaps -/

theorem squeezeAfter_factor (t : Factor) (s : Text) :
    squeezeAfter false (t.text ++ s) = t.text ++ squeezeAfter false s :=
  squeezeAfter_append_of_no_blank (fun c hc => isBlank_of_isPlainChar (t.isPlain c hc)) s

theorem squeezeAfter_further (ts : List Factor) (s : Text) :
    squeezeAfter false (further ts ++ s) = further ts ++ squeezeAfter false s := by
  induction ts with
  | nil => rfl
  | cons t ts ih =>
      have htimes := Argument.squeezeAfter_times (b := []) (by simp)
        (t.isSolidHead (further ts ++ s))
      rw [List.append_nil] at htimes
      rw [further_cons, List.append_assoc, List.append_assoc, htimes, squeezeAfter_factor, ih,
        List.append_assoc, List.append_assoc]

theorem squeezeAfter_write (p : Product) (s : Text) :
    squeezeAfter false (p.write ++ s) = p.write ++ squeezeAfter false s := by
  rw [Product.write, List.append_assoc, squeezeAfter_factor, squeezeAfter_further,
    List.append_assoc]

theorem squeeze_write (p : Product) : squeeze p.write = p.write := by
  have hwrite := squeezeAfter_write p []
  have hsolid : IsSolidHead p.write := p.first.isSolidHead _
  rw [List.append_nil] at hwrite
  rw [squeeze, hsolid.skipBlanks, hwrite]
  exact List.append_nil _

theorem squeeze_divided (p q : Product) :
    squeeze (Markup.frac p.write q.first.text ++ further q.others) =
      Markup.frac p.write q.first.text ++ further q.others := by
  have hopen : ∀ c ∈ Markup.fracOpen, isBlank c = false := by decide
  have hbetween : ∀ c ∈ ['}', '{'], isBlank c = false := by decide
  have hclose : ∀ c ∈ ['}'], isBlank c = false := by decide
  have hfurther := squeezeAfter_further q.others []
  have hsplit : Markup.frac p.write q.first.text ++ further q.others = Markup.fracOpen ++
      (p.write ++ (['}', '{'] ++ (q.first.text ++ (['}'] ++ further q.others)))) := by
    rw [frac_eq]
    simp
  have hskip : ∀ s, skipBlanks (Markup.fracOpen ++ s) = Markup.fracOpen ++ s := fun s =>
    skipBlanks_cons_of_not_isBlank _ (by decide)
  rw [List.append_nil] at hfurther
  rw [hsplit, squeeze, hskip, squeezeAfter_append_of_no_blank hopen, squeezeAfter_write,
    squeezeAfter_append_of_no_blank hbetween, squeezeAfter_factor,
    squeezeAfter_append_of_no_blank hclose, hfurther]
  simp [squeezeAfter]

/-! ## The conversion -/

/-- One slash, with a single term on one side of it. -/
theorem convert_quotient (style : CallStyle) {us us' : List (Gap × Gap × Factor)} (l r : Gap)
    (d : Factor) (h : us = [] ∨ us' = []) :
    Conversion.convert style (spell t (starred us ++ (⟨.slash, l, r⟩, d) :: starred us')) =
      Markup.frac (productOf t us).write d.text ++ further (us'.map (·.2.2)) := by
  have hquotients : prepared t (starred us ++ (tight .slash, d) :: starred us') =
      quotients (productOf t us) [productOf d us'] := by
    rw [prepared_slash, prepared_starred, quotients, List.flatMap_singleton]
  have hothers : (productOf t us).others = [] ∨ (productOf d us').others = [] :=
    h.imp (by rintro rfl; rfl) (by rintro rfl; rfl)
  have hdivide : divide (prepared t (starred us ++ (tight .slash, d) :: starred us')) =
      Markup.frac (productOf t us).write d.text ++ further (us'.map (·.2.2)) := by
    rw [hquotients]
    exact divide_quotients hothers
  have hslash : '/' ∉ divide (prepared t (starred us ++ (tight .slash, d) :: starred us')) := by
    rw [hdivide]
    exact not_mem_slash_divided (productOf t us) (productOf d us')
  have htold : told (starred us ++ (⟨.slash, l, r⟩, d) :: starred us') =
      told (starred us ++ (tight .slash, d) :: starred us') := by
    simp only [told, List.map_append, List.map_cons]
    rfl
  rw [convert_spell]
  show squeeze (divide _) = _
  rw [divide_prepared htold hslash, hdivide]
  exact squeeze_divided (productOf t us) (productOf d us')

/-- What a product, a product over a term, and a term over the first factor of a product become, in
both styles and whatever gaps are around the operators. -/
theorem convert_summand (style : CallStyle) (t d : Factor) (us : List (Gap × Gap × Factor))
    (l r : Gap) :
    Conversion.convert style (spell t (starred us)) = t.text ++ further (us.map (·.2.2)) ∧
      Conversion.convert style (spell t (starred us ++ [(⟨.slash, l, r⟩, d)])) =
        Markup.frac (t.text ++ further (us.map (·.2.2))) d.text ∧
      Conversion.convert style (spell t ((⟨.slash, l, r⟩, d) :: starred us)) =
        Markup.frac t.text d.text ++ further (us.map (·.2.2)) := by
  refine ⟨?_, ?_, ?_⟩
  · have hdivide : divide (productOf t us).write = (productOf t us).write := by
      rw [divide, divideProducts_write, divideTerms_eq_self (not_mem_slash_write _)]
    rw [convert_spell, prepared_starred]
    show squeeze (divide _) = _
    rw [hdivide]
    exact squeeze_write _
  · have hquotient := convert_quotient (t := t) style l r d
      (.inr rfl : us = [] ∨ ([] : List (Gap × Gap × Factor)) = [])
    exact hquotient.trans (List.append_nil _)
  · have hquotient := convert_quotient (t := t) style l r d
      (.inl rfl : ([] : List (Gap × Gap × Factor)) = [] ∨ us = [])
    have hwrite : (productOf t []).write = t.text := write_of_single rfl
    rwa [hwrite] at hquotient

end CalcTypeset.Spelling
