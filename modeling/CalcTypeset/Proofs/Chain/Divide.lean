import CalcTypeset.Proofs.Chain.Factor

/-!
# What becomes of products with slashes between them

The product pass and the term pass go over the line one after the other, and each takes a slash
with one operand on either side. `typeset?` follows the two of them along the products of a line:
a numerator is waiting for the next product, or none is.

Two things go wrong when a product stands where a single factor is expected. Behind a numerator,
the product has become a fraction of its own when more slashes follow, and the term pass takes its
opening with the first factor alone; behind a product, the multiplication sign is taken into the
divisor. Either way the line is torn, and `typeset?` gives none.
-/

namespace CalcTypeset.Chain

open Text Fraction

/-- The last factor. -/
def Product.last (p : Product) : Factor := p.others.getLast?.getD p.first

/-- What stands in front of the last factor of a product of two or more. -/
def Product.front (p : Product) : Text :=
  p.first.text ++ further p.others.dropLast ++ Markup.times

/-- What becomes of products with slashes between them, when `above` is the numerator that waits
for the first of them; none when the line is torn. -/
def typeset? : (above : Option Text) → Product → List Product → Option Text
  | none, p, [] => some p.write
  | none, p, q :: qs =>
      match p.others with
      | [] => typeset? (some p.first.text) q qs
      | _ :: _ =>
          match q.others with
          | [] =>
              match qs with
              | [] => some (Markup.frac p.write q.first.text)
              | r :: rs =>
                  typeset? (some (p.front ++ Markup.frac p.last.text q.first.text)) r rs
          | _ :: _ => none
  | some n, p, [] => some (Markup.frac n p.first.text ++ further p.others)
  | some n, p, q :: qs =>
      match p.others with
      | [] => (typeset? none q qs).map fun s => Markup.frac n p.first.text ++ '/' :: s
      | _ :: _ => none

variable {p q : Product} {qs : List Product} {s n x a : Text}

section

variable {u : Factor} {us : List Factor}

theorem typeset?_factor (hp : p.others = []) :
    typeset? none p (q :: qs) = typeset? (some p.first.text) q qs := by
  rw [typeset?.eq_def]
  simp only [hp]

theorem typeset?_product_factor (hp : p.others ≠ []) (hq : q.others = []) :
    typeset? none p [q] = some (Markup.frac p.write q.first.text) := by
  obtain ⟨u, us, hus⟩ := List.exists_cons_of_ne_nil hp
  rw [typeset?.eq_def]
  simp only [hus, hq]

theorem typeset?_product_factors (hp : p.others ≠ []) (hq : q.others = []) (r : Product) :
    typeset? none p (q :: r :: qs) =
      typeset? (some (p.front ++ Markup.frac p.last.text q.first.text)) r qs := by
  obtain ⟨u, us, hus⟩ := List.exists_cons_of_ne_nil hp
  rw [typeset?.eq_def]
  simp only [hus, hq]

theorem typeset?_products (hp : p.others ≠ []) (hq : q.others ≠ []) :
    typeset? none p (q :: qs) = none := by
  obtain ⟨u, us, hus⟩ := List.exists_cons_of_ne_nil hp
  obtain ⟨v, vs, hvs⟩ := List.exists_cons_of_ne_nil hq
  rw [typeset?.eq_def]
  simp only [hus, hvs]

theorem typeset?_above_factor (hp : p.others = []) :
    typeset? (some n) p (q :: qs) =
      (typeset? none q qs).map (Markup.frac n p.first.text ++ '/' :: ·) := by
  rw [typeset?.eq_def]
  simp only [hp]

theorem typeset?_above_product (hp : p.others ≠ []) : typeset? (some n) p (q :: qs) = none := by
  obtain ⟨u, us, hus⟩ := List.exists_cons_of_ne_nil hp
  rw [typeset?.eq_def]
  simp only [hus]

end

/-- A numerator is cut off in front of its denominator, or an operand behind its sign. -/
inductive IsTorn : Text → Prop where
  | numerator (a : Text) (t : Factor) (b : Text) :
      IsTorn (a ++ (Markup.fracOpen ++ t.text ++ '}' :: Markup.timesSign) ++ b)
  | sign (a b : Text) : IsTorn (a ++ (Markup.timesSign ++ ['}']) ++ b)

/-- The text is what was expected, or it is torn. -/
def Becomes (s : Text) : Option Text → Prop
  | some t => s = t
  | none => IsTorn s

theorem IsTorn.prepend (a : Text) (h : IsTorn s) : IsTorn (a ++ s) := by
  cases h with
  | numerator b t r =>
      rw [List.append_assoc b, ← List.append_assoc, ← List.append_assoc]
      exact .numerator (a ++ b) t r
  | sign b r =>
      rw [List.append_assoc b, ← List.append_assoc, ← List.append_assoc]
      exact .sign (a ++ b) r

theorem Becomes.map_append {t : Option Text} (h : Becomes s t) (a : Text) :
    Becomes (a ++ s) (t.map (a ++ ·)) := by
  cases t with
  | some t => exact congrArg (a ++ ·) h
  | none => exact IsTorn.prepend a h

/-- Both passes. -/
def divide (s : Text) : Text := divideTerms (divideProducts s)

theorem quotients_cons (p q : Product) (qs : List Product) :
    quotients p (q :: qs) = p.write ++ '/' :: quotients q qs := by
  rw [quotients, List.flatMap_cons]
  rfl

theorem write_of_single (hp : p.others = []) : p.write = p.first.text := by
  rw [Product.write, hp]
  exact List.append_nil _

theorem not_mem_slash_further (ts : List Factor) : '/' ∉ further ts := by
  rw [further, List.mem_flatMap]
  rintro ⟨t, -, ht⟩
  rcases List.mem_append.1 ht with ht | ht
  · exact absurd ht (by decide)
  · exact absurd (t.isRun _ ht) (by decide)

theorem not_mem_slash_write (p : Product) : '/' ∉ p.write := fun h =>
  (List.mem_append.1 h).elim (fun h => absurd (p.first.isRun _ h) (by decide))
    (not_mem_slash_further p.others)

theorem divideProducts_write (p : Product) : divideProducts p.write = p.write :=
  divideProducts_eq_self (not_mem_slash_write p)

theorem exists_run_quotients (q : Product) (qs : List Product) :
    ∃ w r, quotients q qs = w ++ r ∧ IsRun w ∧ w ≠ [] ∧ ∀ c ∈ r.head?, isTermChar c = false := by
  obtain ⟨c, v, hv, hc, -⟩ := q.first.exists_cons
  obtain ⟨t, ht⟩ : ∃ t, quotients q qs = c :: t := by
    rw [quotients, Product.write, hv]
    exact ⟨_, rfl⟩
  rw [ht]
  exact exists_run (isTermChar_of_isPlainChar hc) t

theorem endedTerm?_write (q : Product) :
    endedTerm? q.write = some (q.first.text, further q.others) := by
  by_cases hq : q.others = []
  · rw [write_of_single hq, hq]
    exact endedTerm?_end q.first.isRun q.first.ne_nil
  · have := endedTerm?_further q.others q.first.isRun q.first.ne_nil hq []
    rwa [List.append_nil] at this

theorem isRun_fracOpen : IsRun Markup.fracOpen := by decide

/-! ## Behind a numerator -/

/-- A product behind a numerator is torn when it is divided again. -/
theorem isTorn_divided (hx : IsRun x) (hne : x ≠ []) (hq : q.others ≠ []) (q' : Product)
    (qs : List Product) :
    IsTorn (divideTerms (x ++ '/' :: divideProducts (quotients q (q' :: qs)))) := by
  obtain ⟨w, r, hw, hrun, hwne, hr⟩ := exists_run_quotients q' qs
  obtain ⟨u, us, hus⟩ := List.exists_cons_of_ne_nil hq
  have hopen : IsRun (Markup.fracOpen ++ q.first.text) := isRun_fracOpen.append q.first.isRun
  have hopenne : Markup.fracOpen ++ q.first.text ≠ [] := by simp [q.first.ne_nil]
  have hproduct : divideProducts (quotients q (q' :: qs)) =
      (Markup.fracOpen ++ q.first.text) ++
        (further q.others ++ ('}' :: '{' :: (w ++ '}' :: divideProducts r))) := by
    rw [quotients_cons, hw, divideProducts_product hq hrun hwne hr, frac_eq, Product.write]
    simp
  have hfurther : ∀ z, further q.others ++ z =
      Markup.timesSign ++ ' ' :: (u.text ++ (further us ++ z)) := by
    intro z
    rw [hus, further_cons, Markup.times]
    simp
  rw [hproduct, divideTerms_divided hx hne (hopen.isSolidHead hopenne _)
    (endedTerm?_further _ hopen hopenne hq _), hfurther,
    divideTerms_blank (by decide) (u.isSolidHead _), frac_eq]
  have := IsTorn.numerator (Markup.fracOpen ++ x ++ ['}', '{']) q.first
    (' ' :: divideTerms (u.text ++ (further us ++ ('}' :: '{' :: (w ++ '}' :: divideProducts r)))))
  simpa using this

/-- A numerator takes the first factor of what it is divided by. The text in front of it is there
already: of a fraction whose numerator is a product, only the last factor is taken. -/
theorem becomes_divided (hx : IsRun x) (hne : x ≠ [])
    (hn : ∀ d, Markup.frac n d = a ++ Markup.frac x d)
    (ih : ∀ r rs, qs = r :: rs → Becomes (divide (quotients r rs)) (typeset? none r rs)) :
    Becomes (a ++ divideTerms (x ++ '/' :: divideProducts (quotients q qs)))
      (typeset? (some n) q qs) := by
  cases qs with
  | nil =>
      have hwrite : quotients q [] = q.write := List.append_nil _
      have hsolid : IsSolidHead q.write := q.first.isSolidHead _
      show _ = _
      rw [hwrite, divideProducts_write, divideTerms_divided hx hne hsolid (endedTerm?_write q),
        divideTerms_eq_self (not_mem_slash_further _), hn, List.append_assoc]
  | cons r rs =>
      by_cases hq : q.others = []
      · have htypeset : typeset? (some n) q (r :: rs) =
            ((typeset? none r rs).map (Markup.frac x q.first.text ++ '/' :: ·)).map (a ++ ·) := by
          rw [typeset?_above_factor hq, Option.map_map]
          simp only [hn]
          congr 1
          funext s
          simp
        have hpass : divideTerms (x ++ '/' :: divideProducts (quotients q (r :: rs))) =
            Markup.frac x q.first.text ++ '/' :: divide (quotients r rs) := by
          rw [quotients_cons, write_of_single hq, divideProducts_factor,
            divideTerms_divided hx hne (q.first.isSolidHead _)
              (endedTerm?_slash q.first.isRun q.first.ne_nil _), divideTerms_slash]
          rfl
        rw [htypeset, hpass]
        refine Becomes.map_append ?_ a
        have := (ih r rs rfl).map_append (Markup.frac x q.first.text ++ ['/'])
        simpa using this
      · rw [typeset?_above_product hq]
        exact (isTorn_divided hx hne hq r rs).prepend a

/-! ## Behind a product -/

theorem exists_concat (hp : p.others ≠ []) : ∃ ts t, p.others = ts ++ [t] ∧ p.last = t ∧
    p.front = p.first.text ++ further ts ++ Markup.times := by
  refine ⟨p.others.dropLast, p.others.getLast hp, (List.dropLast_concat_getLast hp).symm, ?_, rfl⟩
  rw [Product.last, List.getLast?_eq_some_getLast hp]
  rfl

theorem write_eq_front (hp : p.others ≠ []) : p.write = p.front ++ p.last.text := by
  obtain ⟨ts, t, hts, hlast, hfront⟩ := exists_concat hp
  rw [Product.write, hts, hlast, hfront, further, List.flatMap_append]
  simp [further]

/-- A fraction above a product is passed up to the last factor. -/
theorem divideTerms_front (hp : p.others ≠ []) (s : Text) :
    divideTerms (Markup.fracOpen ++ (p.write ++ s)) =
      Markup.fracOpen ++ (p.front ++ divideTerms (p.last.text ++ s)) := by
  obtain ⟨ts, t, hts, hlast, hfront⟩ := exists_concat hp
  have := divideTerms_further ts t (isRun_fracOpen.append p.first.isRun) s
  rw [write_eq_front hp, hlast, hfront]
  simpa using this

theorem divideProducts_blank (s : Text) :
    divideProducts (' ' :: s) = ' ' :: divideProducts s :=
  lineProduct.overTerm.replaceAll_of_none _ rfl

theorem isSolidHead_divideProducts (h : IsSolidHead s) : IsSolidHead (divideProducts s) := by
  obtain ⟨c, r, rfl, hb, hc⟩ := h
  cases hread : lineProduct.overTerm.read? (c :: r) with
  | none => exact ⟨c, _, lineProduct.overTerm.replaceAll_of_none _ hread, hb, hc⟩
  | some x =>
      rw [divideProducts, lineProduct.overTerm.replaceAll_of_read _ hread]
      exact ⟨'\\', _, rfl, by decide, by decide⟩

/-- The divisor takes the multiplication sign of a product behind it. -/
theorem isTorn_product (hp : p.others ≠ []) (hq : q.others ≠ []) (qs : List Product) :
    IsTorn (divide (quotients p (q :: qs))) := by
  obtain ⟨u, us, hus⟩ := List.exists_cons_of_ne_nil hq
  obtain ⟨z, hz⟩ : ∃ z, quotients q qs =
      (q.first.text ++ Markup.timesSign) ++ ' ' :: (u.text ++ z) := by
    refine ⟨further us ++ qs.flatMap fun q => '/' :: q.write, ?_⟩
    rw [quotients, Product.write, hus, further_cons, Markup.times]
    simp
  have hsign : IsRun (q.first.text ++ Markup.timesSign) := q.first.isRun.append (by decide)
  have hblank : ∀ c ∈ (' ' :: (u.text ++ z)).head?, isTermChar c = false := by
    intro c hc
    obtain rfl : ' ' = c := Option.some.inj hc
    rfl
  have hlast : IsRun (p.last.text ++ '}' :: '{' :: (q.first.text ++ Markup.timesSign) ++ ['}']) :=
    (p.last.isRun.append ((isRun_cons (by decide) (isRun_cons (by decide) hsign)))).append
      (by decide)
  have hsolid := isSolidHead_divideProducts (u.isSolidHead z)
  have hproduct : divideProducts (quotients p (q :: qs)) = Markup.fracOpen ++ (p.write ++
      ('}' :: '{' :: (q.first.text ++ Markup.timesSign) ++ '}' :: ' ' ::
        divideProducts (u.text ++ z))) := by
    rw [quotients_cons, hz, divideProducts_product hp hsign (by simp [q.first.ne_nil]) hblank,
      frac_eq, divideProducts_blank]
    simp
  have hpass := divideTerms_blank hlast hsolid
  rw [divide, hproduct, divideTerms_front hp]
  have := (IsTorn.sign (p.last.text ++ '}' :: '{' :: q.first.text)
    (' ' :: divideTerms (divideProducts (u.text ++ z)))).prepend (Markup.fracOpen ++ p.front)
  simp only [List.append_assoc, List.cons_append, List.nil_append] at hpass this ⊢
  rwa [hpass]

/-- The fraction of a product and a factor. -/
theorem divideProducts_quotient (hp : p.others ≠ []) (hq : q.others = []) (s : Text)
    (hs : ∀ c ∈ s.head?, isTermChar c = false) :
    divideProducts (p.write ++ '/' :: (q.write ++ s)) =
      Markup.frac p.write q.first.text ++ divideProducts s := by
  rw [write_of_single hq, divideProducts_product hp q.first.isRun q.first.ne_nil hs]

/-- The last factor, the factor under it and the brackets between them stand in front of the next
slash without a blank, so the two become one numerator inside the fraction. -/
theorem becomes_divided_again (hp : p.others ≠ []) (hq : q.others = []) {r : Product}
    {rs : List Product}
    (ih : ∀ r' rs', rs = r' :: rs' → Becomes (divide (quotients r' rs')) (typeset? none r' rs')) :
    Becomes (divide (quotients p (q :: r :: rs))) (typeset? none p (q :: r :: rs)) := by
  let x := p.last.text ++ '}' :: '{' :: (q.first.text ++ ['}'])
  have hx : IsRun x :=
    p.last.isRun.append (isRun_cons (by decide) (isRun_cons (by decide)
      (q.first.isRun.append (by decide))))
  have hn : ∀ d, Markup.frac (p.front ++ Markup.frac p.last.text q.first.text) d =
      (Markup.fracOpen ++ p.front) ++ Markup.frac x d := by
    intro d
    rw [frac_eq, frac_eq, frac_eq]
    simp [x]
  have hproduct : divideProducts (quotients p (q :: r :: rs)) = Markup.fracOpen ++ (p.write ++
      ('}' :: '{' :: (q.first.text ++ ['}']) ++ '/' :: divideProducts (quotients r rs))) := by
    have hslash : ∀ c ∈ ('/' :: quotients r rs).head?, isTermChar c = false := by
      intro c hc
      obtain rfl : '/' = c := Option.some.inj hc
      rfl
    rw [quotients_cons, quotients_cons, divideProducts_quotient hp hq _ hslash, frac_eq,
      divideProducts_slash]
    simp
  have hdivided := becomes_divided (q := r) hx (by simp [x]) hn ih
  rw [typeset?_product_factors hp hq, divide, hproduct, divideTerms_front hp]
  simp only [x, List.append_assoc, List.cons_append, List.nil_append] at hdivided ⊢
  exact hdivided

/-- Both passes make of a line what `typeset?` says, or tear it. -/
theorem becomes_typeset (p : Product) (ps : List Product) :
    Becomes (divide (quotients p ps)) (typeset? none p ps) := by
  match ps with
  | [] =>
      have hwrite : quotients p [] = p.write := List.append_nil _
      show _ = _
      rw [hwrite, divide, divideProducts_write, divideTerms_eq_self (not_mem_slash_write p)]
  | q :: qs =>
      by_cases hp : p.others = []
      · rw [typeset?_factor hp, divide, quotients_cons, write_of_single hp, divideProducts_factor]
        exact becomes_divided (a := []) p.first.isRun p.first.ne_nil (fun _ => rfl)
          fun r rs _ => becomes_typeset r rs
      · by_cases hq : q.others = []
        · match qs with
          | [] =>
              have hquotient := divideProducts_quotient hp hq [] (by simp)
              have hslash : '/' ∉ Markup.frac p.write q.first.text :=
                not_mem_slash_frac (not_mem_slash_write p) q.first.isRun.not_mem_slash
              rw [typeset?_product_factor hp hq, divide, quotients, List.flatMap_singleton]
              rw [List.append_nil] at hquotient
              show divideTerms (divideProducts (p.write ++ '/' :: q.write)) = _
              rw [hquotient, divideProducts_eq_self (by simp), List.append_nil,
                divideTerms_eq_self hslash]
          | r :: rs => exact becomes_divided_again hp hq fun r' rs' _ => becomes_typeset r' rs'
        · rw [typeset?_products hp hq]
          exact isTorn_product hp hq qs
termination_by ps.length

end CalcTypeset.Chain
