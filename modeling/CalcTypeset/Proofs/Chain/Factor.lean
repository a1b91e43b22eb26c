import CalcTypeset.Proofs.Idle

/-!
# Factors, products and the divisions between them

A factor is a plain term without signs and markup, and a product is typeset as its factors with
multiplication signs between them. In a line of products and slashes only two passes find sites,
and this file says which.

The product pass takes a product of two or more factors in front of a slash, and with it all that
follows up to the next blank or slash: that is the first factor of the next product, and the
multiplication sign behind it when there is one. The term pass takes what stands without a blank
in front of a slash, and of the next product the first factor alone.
-/

namespace CalcTypeset.Chain

open Text Fraction

/-- A character that no pass looks at. -/
def isPlainChar (c : Char) : Bool :=
  isTermChar c && !("\\\x7b\x7d*+-^%".toList.contains c || c = Markup.degree)

/-- All characters are plain. -/
def IsPlain (w : Text) : Prop := ∀ c ∈ w, isPlainChar c = true

instance (w : Text) : Decidable (IsPlain w) := List.decidableBAll _ w

/-- A plain term without signs and markup. -/
structure Factor where
  text : Text
  ne_nil : text ≠ []
  isPlain : IsPlain text

/-- One or more factors. -/
structure Product where
  first : Factor
  others : List Factor

/-- Factors with a multiplication sign in front of each. -/
def further (ts : List Factor) : Text := ts.flatMap fun t => Markup.times ++ t.text

/-- The product as it is typeset. -/
def Product.write (p : Product) : Text := p.first.text ++ further p.others

theorem singleton_ne_nil (c : Char) : [c] ≠ [] := List.cons_ne_nil c []

theorem further_cons (t : Factor) (ts : List Factor) :
    further (t :: ts) = Markup.times ++ (t.text ++ further ts) :=
  List.append_assoc ..

/-- Products with slashes between them. -/
def quotients (p : Product) (ps : List Product) : Text :=
  p.write ++ ps.flatMap fun q => '/' :: q.write

variable {s r w : Text} {c : Char} {t : Factor} {ts : List Factor} {p : Product}

theorem isTermChar_of_isPlainChar (h : isPlainChar c = true) : isTermChar c = true :=
  (Bool.and_eq_true_iff.1 h).1

theorem isBlank_of_isPlainChar (h : isPlainChar c = true) : isBlank c = false :=
  isBlank_of_isTermChar (isTermChar_of_isPlainChar h)

theorem ne_of_isPlainChar {x : Char} (h : isPlainChar c = true) (hx : isPlainChar x = false) :
    c ≠ x := fun he => by rw [he, hx] at h; cases h

/-- Letters, digits, points, underscores and brackets are plain, so they make up factors. -/
theorem isPlainChar_of_isExponentChar (h : Operator.isExponentChar c = true) :
    isPlainChar c = true := by
  have hblank : isBlank c = false := by
    cases hb : isBlank c with
    | false => rfl
    | true =>
        have : Operator.isExponentChar c = false := eq_false_of_isBlank (by decide +kernel) hb
        rw [h] at this
        cases this
  have hspecial : ∀ x ∈ "/()\\\x7b\x7d*+-^%".toList, Operator.isExponentChar x = false := by
    decide +kernel
  have hne : c ∉ "/()\\\x7b\x7d*+-^%".toList := fun hc => by
    rw [hspecial c hc] at h
    cases h
  have hdegree : c ≠ Markup.degree := by
    rintro rfl
    exact absurd h (by decide +kernel)
  rw [isPlainChar, isTermChar, hblank]
  simpa [hdegree, and_assoc] using hne

/-- A character at which an operand may go on: neither blank nor slash. -/
def IsSolidHead (s : Text) : Prop := ∃ c r, s = c :: r ∧ isBlank c = false ∧ c ≠ '/'

theorem Factor.exists_cons (t : Factor) :
    ∃ c w, t.text = c :: w ∧ isPlainChar c = true ∧ ∀ x ∈ w, isPlainChar x = true := by
  obtain ⟨c, w, h⟩ := List.exists_cons_of_ne_nil t.ne_nil
  exact ⟨c, w, h, t.isPlain c (by simp [h]), fun x hx => t.isPlain x (by simp [h, hx])⟩

theorem Factor.isSolidHead (t : Factor) (r : Text) : IsSolidHead (t.text ++ r) := by
  obtain ⟨c, w, h, hc, -⟩ := t.exists_cons
  exact ⟨c, w ++ r, by rw [h]; rfl, isBlank_of_isPlainChar hc, ne_of_isPlainChar hc (by decide)⟩

theorem IsSolidHead.skipBlanks (h : IsSolidHead s) : skipBlanks s = s := by
  obtain ⟨c, r, rfl, hc, -⟩ := h
  exact skipBlanks_cons_of_not_isBlank r hc

theorem spacedSlash_read?_eq_none (h : IsSolidHead (skipBlanks s)) :
    spacedSlash.read? s = none := by
  obtain ⟨c, r, hs, -, hc⟩ := h
  have hslash : tightSlash.read? (skipBlanks s) = none := by
    rw [hs]
    exact Recogniser.read?_single_eq_none hc r
  rw [spacedSlash, Recogniser.read?_spaced, hslash]
  rfl

/-- What holds no slash is followed by one only when nothing else can be seen between them. -/
theorem spacedSlash_read?_append (hw : '/' ∉ w) (hs : IsSolidHead (skipBlanks s)) :
    spacedSlash.read? (w ++ s) = none := by
  obtain ⟨b, hb, hblank⟩ := skipBlanks_eq_append w
  by_cases hvisible : skipBlanks w = []
  · rw [hvisible, List.append_nil] at hb
    refine spacedSlash_read?_eq_none ?_
    rwa [hb, skipBlanks_append_of_all_blank _ hblank]
  · obtain ⟨c, r, hr⟩ := List.exists_cons_of_ne_nil hvisible
    refine spacedSlash_read?_eq_none ?_
    rw [skipBlanks_append _ (.inl hvisible), hr]
    refine ⟨c, _, rfl, isBlank_of_mem_head?_skipBlanks (s := w) (by rw [hr]; rfl), ?_⟩
    rintro rfl
    exact hw (by rw [hb, hr]; simp)

theorem spacedSlash_read?_of_isSlash {g : Text} (hg : IsSlash g) (h : IsSolidHead s) :
    spacedSlash.read? (g ++ s) = some ((), s) := by
  obtain ⟨b, b', rfl, hb, hb'⟩ := hg
  have hslash : tightSlash.read? ('/' :: (b' ++ s)) = some ((), b' ++ s) := rfl
  rw [spacedSlash, Recogniser.read?_spaced, List.append_assoc,
    skipBlanks_append_of_all_blank _ hb, List.cons_append,
    skipBlanks_cons_of_not_isBlank _ (by decide), hslash, Option.map_some,
    skipBlanks_append_of_all_blank _ hb', h.skipBlanks]

theorem spacedSlash_read?_slash (h : IsSolidHead s) :
    spacedSlash.read? ('/' :: s) = some ((), s) :=
  spacedSlash_read?_of_isSlash isSlash_singleton h

/-! ## Runs -/

/-- A text is a run of term characters. -/
def IsRun (w : Text) : Prop := ∀ c ∈ w, isTermChar c = true

instance (w : Text) : Decidable (IsRun w) := List.decidableBAll _ w

theorem Factor.isRun (t : Factor) : IsRun t.text := fun c hc =>
  isTermChar_of_isPlainChar (t.isPlain c hc)

theorem IsRun.append {v : Text} (hv : IsRun v) (hw : IsRun w) : IsRun (v ++ w) := fun c hc =>
  (List.mem_append.1 hc).elim (hv c) (hw c)

theorem isRun_cons (hc : isTermChar c = true) (hw : IsRun w) : IsRun (c :: w) :=
  List.forall_mem_cons.2 ⟨hc, hw⟩

theorem run?_term (hw : IsRun w) (hne : w ≠ []) (hr : ∀ c ∈ r.head?, isTermChar c = false) :
    run? isTermChar (w ++ r) = some (w, r) := run?_append hne hw hr

/-- A text that begins with a character of a term begins with a run that is as long as possible. -/
theorem exists_run (hc : isTermChar c = true) (s : Text) :
    ∃ w r, c :: s = w ++ r ∧ IsRun w ∧ w ≠ [] ∧ ∀ c ∈ r.head?, isTermChar c = false := by
  have hrun : run? isTermChar (c :: s) =
      some (c :: s.takeWhile isTermChar, s.dropWhile isTermChar) := if_pos hc
  exact ⟨_, _, run?_eq_append hrun, run?_all hrun, run?_ne_nil hrun, run?_head hrun⟩

theorem IsRun.isSolidHead (hw : IsRun w) (hne : w ≠ []) (r : Text) : IsSolidHead (w ++ r) := by
  obtain ⟨c, w, rfl⟩ := List.exists_cons_of_ne_nil hne
  have hc := hw c (by simp)
  exact ⟨c, w ++ r, rfl, isBlank_of_isTermChar hc, fun he => by rw [he] at hc; cases hc⟩

/-! ## Reading on in a product -/

theorem finish_read?_eq_none (h : IsSolidHead (skipBlanks s)) :
    ProductNotation.finish.read? s = none :=
  Recogniser.read?_map_eq_none
    (Recogniser.read?_bind_eq_none (spacedSlash_read?_eq_none h) _) _

theorem map_prepend_append (a b : Text) (x : Option (Quotient × Text)) :
    (x.map (ProductNotation.prepend b)).map (ProductNotation.prepend a) =
      x.map (ProductNotation.prepend (a ++ b)) := by
  cases x with
  | none => rfl
  | some x => simp [ProductNotation.prepend]

/-- The sign of the notation begins with a character that no factor holds and goes on with
characters that may be read as a factor's. Neither a blank nor a slash belongs to a factor. -/
structure HasSign (f : ProductNotation) (x : Char) (l : Text) : Prop where
  sign : f.sign = x :: l
  head : isPlainChar x = false ∧ isBlank x = false ∧ x ≠ '/'
  letters : IsPlain l
  accepts : ∀ st c, isTermChar c = false → f.accepts st c = false

theorem accepts_eq_false (st : FactorState) (hc : isTermChar c = false) :
    lineProduct.accepts st c = false := by
  cases st with
  | first => exact hc
  | later => exact hc
  | complete => rfl

theorem hasSign_lineProduct : HasSign lineProduct '\\' "times".toList :=
  ⟨rfl, by decide, by decide, fun st _ => accepts_eq_false st⟩

/-- The notation takes the factor behind a sign, and reads on in the state `st`. -/
def Takes (f : ProductNotation) (t : Factor) (st : FactorState) : Prop :=
  ∀ s, ((f.factorStart.read? (t.text ++ s)).bind fun x =>
      (f.continue? x.1.2 x.2).map (ProductNotation.prepend x.1.1)) =
    (f.continue? st s).map (ProductNotation.prepend t.text)

/-- Factors with a sign and a space in front of each. -/
def factors (sign : Text) (ts : List Factor) : Text := ts.flatMap fun t => sign ++ ' ' :: t.text

theorem further_eq_factors (ts : List Factor) : further ts = factors Markup.timesSign ts := by
  simp [further, factors, Markup.times]

namespace HasSign

variable {f : ProductNotation} {st : FactorState} {x : Char} {l : Text}

theorem nextFactor?_eq_none (h : HasSign f x l) (hb : isBlank c = false) (hc : c ≠ x) (s : Text) :
    f.nextFactor? (c :: s) = none := by
  have hsign : after? f.sign (c :: s) = none := by
    rw [h.sign]
    exact if_neg hc.symm
  rw [ProductNotation.nextFactor?, skipBlanks_cons_of_not_isBlank s hb, hsign]
  rfl

theorem of_isPlain (h : HasSign f x l) (hw : IsPlain w) :
    ∀ c ∈ w, isTermChar c = true ∧ c ≠ x := fun c hc =>
  ⟨isTermChar_of_isPlainChar (hw c hc), ne_of_isPlainChar (hw c hc) h.head.1⟩

/-- A character of a term that begins no sign only goes on with the factor at hand. -/
theorem continue?_cons (h : HasSign f x l) (hc : isTermChar c = true ∧ c ≠ x) (s : Text) :
    f.continue? st (c :: s) = if f.accepts st c = true then
      (f.continue? st s).map (ProductNotation.prepend [c]) else none := by
  have hb := isBlank_of_isTermChar hc.1
  have hsolid : IsSolidHead (skipBlanks (c :: s)) := by
    rw [skipBlanks_cons_of_not_isBlank s hb]
    exact ⟨c, s, rfl, hb, fun he => by rw [he] at hc; cases hc.1⟩
  rw [ProductNotation.continue?_eq, h.nextFactor?_eq_none hb hc.2, finish_read?_eq_none hsolid]
  simp

theorem continue?_append (h : HasSign f x l) (hw : ∀ c ∈ w, isTermChar c = true ∧ c ≠ x)
    (haccepts : ∀ c ∈ w, f.accepts st c = true) (s : Text) :
    f.continue? st (w ++ s) = (f.continue? st s).map (ProductNotation.prepend w) := by
  induction w with
  | nil => cases hs : f.continue? st s <;> simp [ProductNotation.prepend, hs]
  | cons c w ih =>
      rw [List.cons_append, h.continue?_cons (hw c (by simp)), if_pos (haccepts c (by simp)),
        ih (fun y hy => hw y (by simp [hy])) (fun y hy => haccepts y (by simp [hy])),
        map_prepend_append]
      rfl

/-- No product goes on behind a blank. -/
theorem continue?_blank (h : HasSign f x l) (hw : IsPlain w) (hs : IsSolidHead s)
    (hx : x ∉ s.head?) : f.continue? st (w ++ ' ' :: s) = none := by
  induction w with
  | nil =>
      have hskip : skipBlanks (' ' :: s) = s := by
        rw [skipBlanks_cons_of_isBlank s (by decide), hs.skipBlanks]
      have hsign : after? f.sign s = none := by
        obtain ⟨c, r, rfl, -⟩ := hs
        rw [h.sign]
        exact if_neg fun he => hx (by rw [he]; rfl)
      have hnext : f.nextFactor? (' ' :: s) = none := by
        rw [ProductNotation.nextFactor?, hskip, hsign]
        rfl
      rw [List.nil_append, ProductNotation.continue?_eq, hnext,
        finish_read?_eq_none (by rw [hskip]; exact hs)]
      simp [h.accepts st ' ' (by decide)]
  | cons c w ih =>
      rw [List.cons_append, h.continue?_cons (h.of_isPlain hw c (by simp)),
        ih fun y hy => hw y (by simp [hy])]
      split <;> rfl

/-- No product goes on at the end of a line. -/
theorem continue?_end (h : HasSign f x l) (hw : IsPlain w) : f.continue? st w = none := by
  induction w with
  | nil =>
      have hsign : f.nextFactor? [] = none := by
        rw [ProductNotation.nextFactor?, h.sign]
        rfl
      have hfinish : ProductNotation.finish.read? [] = none := Recogniser.read?_nil _
      rw [ProductNotation.continue?_eq, hsign, hfinish]
      simp
  | cons c w ih =>
      rw [h.continue?_cons (h.of_isPlain hw c (by simp)), ih fun y hy => hw y (by simp [hy])]
      split <;> rfl

/-- Nothing, or a blank and something that is neither a slash nor a sign of the notation. -/
def IsBreak (x : Char) (v : Text) : Prop :=
  v = [] ∨ ∃ s, v = ' ' :: s ∧ IsSolidHead s ∧ x ∉ s.head?

theorem continue?_break {v : Text} (h : HasSign f x l) (hw : IsPlain w) (hv : IsBreak x v) :
    f.continue? st (w ++ v) = none := by
  rcases hv with rfl | ⟨s, rfl, hs, hx⟩
  · rw [List.append_nil]
    exact h.continue?_end hw
  · exact h.continue?_blank hw hs hx

/-- A sign begins a further factor: its characters alone lead to no slash. -/
theorem continue?_sign (h : HasSign f x l) (hs : IsSolidHead s) (hx : x ∉ s.head?) :
    f.continue? st (f.sign ++ ' ' :: s) = (f.factorStart.read? s).bind fun y =>
      (f.continue? y.1.2 y.2).map (ProductNotation.prepend (f.sign ++ ' ' :: y.1.1)) := by
  have hcons : f.sign ++ ' ' :: s = x :: (l ++ ' ' :: s) := by rw [h.sign]; rfl
  have hskip : skipBlanks (x :: (l ++ ' ' :: s)) = x :: (l ++ ' ' :: s) :=
    skipBlanks_cons_of_not_isBlank _ h.head.2.1
  have hnext : f.nextFactor? (x :: (l ++ ' ' :: s)) = (f.factorStart.read? s).map fun y =>
      (f.sign ++ ' ' :: y.1.1, y.1.2, y.2) := by
    have htake : (' ' :: s).takeWhile isBlank = [' '] := by
      obtain ⟨c, r, rfl, hc, -⟩ := hs
      simp [hc, show isBlank ' ' = true by decide]
    have hnone : (x :: (l ++ ' ' :: s)).takeWhile isBlank = [] :=
      List.takeWhile_cons_of_neg (by simp [h.head.2.1])
    have hafter : after? f.sign (x :: (l ++ ' ' :: s)) = some (' ' :: s) := by
      rw [← hcons, after?_append]
    rw [ProductNotation.nextFactor?, hskip, hafter, Option.bind_some,
      skipBlanks_cons_of_isBlank s (by decide), hs.skipBlanks, htake, hnone]
    simp
  have hfinish : ProductNotation.finish.read? (x :: (l ++ ' ' :: s)) = none :=
    finish_read?_eq_none (by rw [hskip]; exact ⟨x, _, rfl, h.head.2⟩)
  have hextend : (if f.accepts st x = true then
      (f.continue? st (l ++ ' ' :: s)).map (ProductNotation.prepend [x]) else none) = none := by
    rw [h.continue?_blank h.letters hs hx]
    split <;> rfl
  rw [hcons, ProductNotation.continue?_eq, hnext, hfinish]
  show Option.or (if f.accepts st x = true then
      (f.continue? st (l ++ ' ' :: s)).map (ProductNotation.prepend [x]) else none) _ = _
  rw [hextend, Option.bind_map]
  simp only [Option.none_or, ite_self, Option.or_none, Function.comp_def]

theorem not_mem_head? (h : HasSign f x l) (t : Factor) (s : Text) : x ∉ (t.text ++ s).head? := by
  obtain ⟨c, w, hw, hc, -⟩ := t.exists_cons
  rw [hw]
  simpa using ne_of_isPlainChar hc h.head.1

theorem continue?_factor (h : HasSign f x l) {t : Factor} {st' : FactorState}
    (ht : Takes f t st') (s : Text) :
    f.continue? st (f.sign ++ ' ' :: (t.text ++ s)) =
      (f.continue? st' s).map (ProductNotation.prepend (f.sign ++ ' ' :: t.text)) := by
  have := congrArg (Option.map (ProductNotation.prepend (f.sign ++ [' ']))) (ht s)
  rw [map_prepend_append, Option.map_bind] at this
  rw [h.continue?_sign (t.isSolidHead s) (h.not_mem_head? t s)]
  simp only [Function.comp_def, map_prepend_append] at this
  simpa using this

/-- Behind the factors of a product, the reading may end. -/
theorem exists_continue?_factors (h : HasSign f x l) {ts : List Factor}
    (hts : ∀ t ∈ ts, ∃ st, st ≠ .first ∧ Takes f t st) (hst : ts = [] → st ≠ .first) :
    ∃ st', st' ≠ .first ∧ ∀ s, f.continue? st (factors f.sign ts ++ s) =
      (f.continue? st' s).map (ProductNotation.prepend (factors f.sign ts)) := by
  induction ts generalizing st with
  | nil =>
      refine ⟨st, hst rfl, fun s => ?_⟩
      cases hs : f.continue? st s <;> simp [factors, ProductNotation.prepend, hs]
  | cons t ts ih =>
      obtain ⟨st₁, hst₁, ht⟩ := hts t (by simp)
      obtain ⟨st', hst', hread⟩ := ih (fun u hu => hts u (by simp [hu])) (fun _ => hst₁)
      refine ⟨st', hst', fun s => ?_⟩
      have hcons : factors f.sign (t :: ts) = f.sign ++ ' ' :: t.text ++ factors f.sign ts := rfl
      have hassoc : factors f.sign (t :: ts) ++ s =
          f.sign ++ ' ' :: (t.text ++ (factors f.sign ts ++ s)) := by
        rw [hcons]
        simp
      rw [hassoc, h.continue?_factor ht, hread, map_prepend_append, hcons]

/-- In front of a slash, only the end of the product is left to read. -/
theorem continue?_of_isSlash {g : Text} (h : HasSign f x l) (hg : IsSlash g) (s : Text) :
    f.continue? st (g ++ s) = if st = .first then none
      else ProductNotation.finish.read? (g ++ s) := by
  have hnext : f.nextFactor? (g ++ s) = none := by
    obtain ⟨b, b', rfl, hb, -⟩ := hg
    have hsign : after? f.sign ('/' :: (b' ++ s)) = none := by
      rw [h.sign]
      exact if_neg h.head.2.2
    rw [ProductNotation.nextFactor?, List.append_assoc, skipBlanks_append_of_all_blank _ hb,
      List.cons_append, skipBlanks_cons_of_not_isBlank _ (by decide), hsign]
    rfl
  obtain ⟨c, y, rfl, hc⟩ := hg.exists_cons
  rw [ProductNotation.continue?_eq, hnext]
  simp [h.accepts st c hc]

theorem continue?_slash {g : Text} (h : HasSign f x l) (hst : st ≠ .first) (hg : IsSlash g)
    (hw : IsRun w) (hne : w ≠ []) (hr : ∀ c ∈ r.head?, isTermChar c = false) :
    f.continue? st (g ++ (w ++ r)) = some (⟨[], w⟩, r) := by
  have hdivisor : divisor.read? (g ++ (w ++ r)) = some (w, r) := by
    rw [divisor, Recogniser.read?_bind, spacedSlash_read?_of_isSlash hg (hw.isSolidHead hne r)]
    exact run?_term hw hne hr
  rw [h.continue?_of_isSlash hg, if_neg hst, ProductNotation.finish, Recogniser.read?_map,
    hdivisor]
  rfl

end HasSign

namespace HasSign

variable {f : ProductNotation} {x : Char} {l : Text}

theorem accepts_first (hw : IsPlain w) : ∀ c ∈ w, f.accepts .first c = true :=
  fun c hc => isTermChar_of_isPlainChar (hw c hc)

/-- A product of two factors or more over a term is read as a whole. -/
theorem overTerm_read?_product (h : HasSign f x l) (hts : ts ≠ [])
    (htakes : ∀ t ∈ ts, ∃ st, st ≠ .first ∧ Takes f t st) {g : Text} (hg : IsSlash g)
    (hw : IsRun w) (hne : w ≠ []) (hr : ∀ c ∈ r.head?, isTermChar c = false) :
    f.overTerm.read? (t.text ++ factors f.sign ts ++ (g ++ (w ++ r))) =
      some (⟨t.text ++ factors f.sign ts, w⟩, r) := by
  obtain ⟨c, v, hv, hc, hplain⟩ := t.exists_cons
  obtain ⟨st, hst, hread⟩ : ∃ st, st ≠ .first ∧ ∀ s,
      f.continue? .first (factors f.sign ts ++ s) =
        (f.continue? st s).map (ProductNotation.prepend (factors f.sign ts)) :=
    h.exists_continue?_factors htakes fun hnil => absurd hnil hts
  have hassoc : t.text ++ factors f.sign ts ++ (g ++ (w ++ r)) =
      c :: (v ++ (factors f.sign ts ++ (g ++ (w ++ r)))) := by
    rw [hv]
    simp
  rw [hassoc, f.overTerm_read?_cons, if_pos (isTermChar_of_isPlainChar hc),
    h.continue?_append (h.of_isPlain hplain) (accepts_first hplain), hread,
    h.continue?_slash hst hg hw hne hr, hv]
  simp [ProductNotation.prepend]

theorem overTerm_read?_eq_none (hcontinue : f.continue? .first s = none) (c : Char) :
    f.overTerm.read? (c :: s) = none := by
  by_cases hc : isTermChar c = true
  · rw [f.overTerm_read?_cons, if_pos hc, hcontinue]
    rfl
  · exact Recogniser.read?_bind_eq_none (if_neg hc) _

/-- No product begins in a sign. -/
theorem overTerm_replaceAll_sign (h : HasSign f x l) (render : Quotient → Text)
    (hs : IsSolidHead s) (hx : x ∉ s.head?) : f.overTerm.replaceAll render (f.sign ++ ' ' :: s) =
      f.sign ++ ' ' :: f.overTerm.replaceAll render s := by
  have hblank : f.overTerm.read? (' ' :: s) = none := rfl
  rw [Recogniser.replaceAll_append_of_none fun w hne hw => ?_,
    Recogniser.replaceAll_of_none _ _ hblank]
  obtain ⟨c, w, rfl⟩ := List.exists_cons_of_ne_nil hne
  have hletters : w <:+ l := by
    rw [h.sign] at hw
    rcases List.suffix_cons_iff.1 hw with heq | hw
    · exact (List.cons.inj heq).2 ▸ List.suffix_refl _
    · exact (List.suffix_cons c w).trans hw
  exact overTerm_read?_eq_none
    (h.continue?_blank (fun c hc => h.letters c (hletters.subset hc)) hs hx) c

/-- A reading that begins in the first factor goes through all others and fails at the break. -/
theorem continue?_factors_break {v : Text} (h : HasSign f x l) (hw : IsPlain w)
    (htakes : ∀ t ∈ ts, ∃ st, st ≠ .first ∧ Takes f t st) (hv : IsBreak x v) :
    f.continue? .first (w ++ (factors f.sign ts ++ v)) = none := by
  by_cases hts : ts = []
  · rw [hts]
    exact h.continue?_break hw hv
  · obtain ⟨st, -, hread⟩ : ∃ st, st ≠ .first ∧ ∀ s,
        f.continue? .first (factors f.sign ts ++ s) =
          (f.continue? st s).map (ProductNotation.prepend (factors f.sign ts)) :=
      h.exists_continue?_factors htakes fun hnil => absurd hnil hts
    have hbreak : f.continue? st v = none := h.continue?_break (w := []) (by simp [IsPlain]) hv
    rw [h.continue?_append (h.of_isPlain hw) (accepts_first hw), hread, hbreak]
    rfl

/-- Without a slash behind it a product is passed. -/
theorem overTerm_replaceAll_break {v : Text} (h : HasSign f x l) (render : Quotient → Text)
    (t : Factor) (htakes : ∀ t ∈ ts, ∃ st, st ≠ .first ∧ Takes f t st) (hv : IsBreak x v) :
    f.overTerm.replaceAll render (t.text ++ (factors f.sign ts ++ v)) =
      t.text ++ (factors f.sign ts ++ f.overTerm.replaceAll render v) := by
  have hnone : ∀ (t : Factor) (ts : List Factor),
      (∀ t ∈ ts, ∃ st, st ≠ .first ∧ Takes f t st) → ∀ w, w ≠ [] → w <:+ t.text →
        f.overTerm.read? (w ++ (factors f.sign ts ++ v)) = none := by
    intro t ts htakes w hne hw
    obtain ⟨c, w, rfl⟩ := List.exists_cons_of_ne_nil hne
    have hplain : IsPlain w := fun y hy => t.isPlain y (hw.subset (List.mem_cons_of_mem c hy))
    exact overTerm_read?_eq_none (h.continue?_factors_break hplain htakes hv) c
  induction ts generalizing t with
  | nil => exact Recogniser.replaceAll_append_of_none (hnone t [] htakes)
  | cons u ts ih =>
      have hcons : ∀ v, factors f.sign (u :: ts) ++ v =
          f.sign ++ ' ' :: (u.text ++ (factors f.sign ts ++ v)) := by simp [factors]
      rw [Recogniser.replaceAll_append_of_none (hnone t (u :: ts) htakes), hcons, hcons,
        h.overTerm_replaceAll_sign render (u.isSolidHead _) (h.not_mem_head? u _),
        ih u fun t ht => htakes t (by simp [ht])]

/-- A single factor is no product. -/
theorem overTerm_replaceAll_factor (h : HasSign f x l) (render : Quotient → Text) (t : Factor)
    (s : Text) : f.overTerm.replaceAll render (t.text ++ '/' :: s) =
      t.text ++ '/' :: f.overTerm.replaceAll render s := by
  have hnone : ∀ w, w ≠ [] → w <:+ t.text → f.overTerm.read? (w ++ '/' :: s) = none := by
    intro w hne hw
    obtain ⟨c, w, rfl⟩ := List.exists_cons_of_ne_nil hne
    have hplain : ∀ x ∈ c :: w, isPlainChar x = true := fun x hx => t.isPlain x (hw.subset hx)
    have hrest : IsPlain w := fun x hx => hplain x (by simp [hx])
    have hfirst : f.continue? .first ('/' :: s) = none :=
      (h.continue?_of_isSlash isSlash_singleton s).trans (if_pos rfl)
    rw [List.cons_append, f.overTerm_read?_cons,
      if_pos (isTermChar_of_isPlainChar (hplain c (by simp))),
      h.continue?_append (h.of_isPlain hrest) (accepts_first hrest), hfirst]
    rfl
  have hslash : f.overTerm.read? ('/' :: s) = none := rfl
  rw [Recogniser.replaceAll_append_of_none hnone, f.overTerm.replaceAll_of_none _ hslash]

end HasSign

/-- A factor of factor characters is read like the first one. -/
theorem HasSign.takes {f : ProductNotation} {x : Char} {l : Text} (h : HasSign f x l)
    (ht : ∀ c ∈ t.text, f.isFactorChar c = true) : Takes f t .later := by
  intro s
  obtain ⟨c, w, hw, hc, hplain⟩ := t.exists_cons
  have hstart : f.factorStart.read? (c :: (w ++ s)) = some (([c], .later), w ++ s) := by
    simp [ProductNotation.factorStart, Recogniser.char, ht c (by simp [hw])]
  have haccepts : ∀ x ∈ w, f.accepts .later x = true := fun x hx => ht x (by simp [hw, hx])
  rw [hw, List.cons_append, hstart, Option.bind_some]
  dsimp only
  rw [h.continue?_append (h.of_isPlain hplain) haccepts, map_prepend_append]
  rfl

/-- A factor in a line begins with any character of a term. -/
theorem factorStart_read?_eq (s : Text) : lineProduct.factorStart.read? s =
    ((Recogniser.char isTermChar).read? s).map fun x => (([x.1], FactorState.later), x.2) := by
  have hchar : (Recogniser.char lineProduct.isFactorChar).read? s =
      (Recogniser.char isTermChar).read? s := rfl
  rw [ProductNotation.factorStart, Recogniser.read?_orElse, Recogniser.read?_map, hchar]
  cases (Recogniser.char isTermChar).read? s <;> rfl

/-- In a line a further factor is taken with a multiplication sign and the blanks around it. -/
theorem nextFactor?_spec {t : Text} {st : FactorState}
    (h : lineProduct.nextFactor? s = some (t, st, r)) :
    ∃ b b' c, t = b ++ Markup.timesSign ++ b' ++ [c] ∧ (∀ x ∈ b, isBlank x = true) ∧
      (∀ x ∈ b', isBlank x = true) ∧ isTermChar c = true := by
  have hblank : ∀ s : Text, ∀ x ∈ s.takeWhile isBlank, isBlank x = true := fun _ _ hx =>
    List.all_eq_true.1 List.all_takeWhile _ hx
  obtain ⟨r₁, -, h⟩ := Option.bind_eq_some_iff.1 h
  obtain ⟨x, hx, he⟩ := Option.map_eq_some_iff.1 h
  cases he
  rw [factorStart_read?_eq] at hx
  obtain ⟨⟨c, r₂⟩, hc, rfl⟩ := Option.map_eq_some_iff.1 hx
  obtain ⟨_, -, rfl, hterm⟩ := Recogniser.meets_char _ _ _ _ hc
  exact ⟨_, _, c, rfl, hblank _, hblank _, hterm⟩

theorem takes_lineProduct (t : Factor) : Takes lineProduct t .later :=
  hasSign_lineProduct.takes fun c hc => isTermChar_of_isPlainChar (t.isPlain c hc)

/-! ## The product pass -/

/-- An asterisk in front of a factor becomes a multiplication sign. -/
theorem writeProducts_star (h : IsSolidHead s) :
    Operator.writeProducts ('*' :: s) = Markup.times ++ Operator.writeProducts s := by
  have hread := Operator.infixSign_read?_of_blanks (x := '*') (a := []) (b := []) (by decide)
    (by simp) (by simp) s
  rw [List.nil_append, List.nil_append, h.skipBlanks] at hread
  exact (Operator.infixSign '*').replaceAll_of_read _ hread

/-- Products of two or more factors over a term become fractions. -/
def divideProducts : Text → Text := lineProduct.overTerm.replaceAll Quotient.write

theorem divideProducts_eq_self (h : '/' ∉ s) : divideProducts s = s :=
  Recogniser.replaceAll_eq_self_of_not_mem (meets_lineProduct.mono fun _ _ _ hw => hw.mem_slash) h

theorem divideProducts_slash (s : Text) : divideProducts ('/' :: s) = '/' :: divideProducts s :=
  lineProduct.overTerm.replaceAll_of_none _ rfl

theorem divideProducts_factor (t : Factor) (s : Text) :
    divideProducts (t.text ++ '/' :: s) = t.text ++ '/' :: divideProducts s :=
  hasSign_lineProduct.overTerm_replaceAll_factor _ t s

theorem divideProducts_product (hp : p.others ≠ []) (hw : IsRun w) (hne : w ≠ [])
    (hr : ∀ c ∈ r.head?, isTermChar c = false) :
    divideProducts (p.write ++ '/' :: (w ++ r)) = Markup.frac p.write w ++ divideProducts r := by
  have hread := hasSign_lineProduct.overTerm_read?_product (t := p.first) hp
    (fun t _ => ⟨.later, by decide, takes_lineProduct t⟩) isSlash_singleton hw hne hr
  rw [Product.write, further_eq_factors]
  exact lineProduct.overTerm.replaceAll_of_read _ hread

/-! ## The term pass -/

/-- Terms over a term become fractions, where the term that divides ends. -/
def divideTerms : Text → Text := (division term spacedSlash endedTerm).replaceAll Quotient.write

theorem divideTerms_eq_self (h : '/' ∉ s) : divideTerms s = s :=
  Recogniser.replaceAll_eq_self_of_not_mem
    ((meets_division meets_term meets_spacedSlash meets_endedTerm).mono
      fun _ _ _ hw => hw.mem_slash) h

theorem divideTerms_slash (s : Text) : divideTerms ('/' :: s) = '/' :: divideTerms s :=
  (division term spacedSlash endedTerm).replaceAll_of_none _ rfl

/-- Terms over what `d` takes become fractions. -/
def divideBy (d : Recogniser Text) : Text → Text :=
  (division term spacedSlash d).replaceAll Quotient.write

/-- What holds no slash is passed up to a blank. -/
theorem divideBy_blank {d : Recogniser Text} (hw : '/' ∉ w) (hs : IsSolidHead s) :
    divideBy d (w ++ ' ' :: s) = w ++ ' ' :: divideBy d s := by
  have hblank : ∀ c ∈ (' ' :: s).head?, isTermChar c = false := by
    intro c hc
    obtain rfl : ' ' = c := Option.some.inj hc
    rfl
  have hpass : (division term spacedSlash d).read? (' ' :: s) = none :=
    division_read?_eq_none (run?_eq_none_iff.2 hblank)
  have hskip : IsSolidHead (skipBlanks (' ' :: s)) := by
    rwa [skipBlanks_cons_of_isBlank s (by decide), hs.skipBlanks]
  have hnone : ∀ v, v ≠ [] → v <:+ w →
      (division term spacedSlash d).read? (v ++ ' ' :: s) = none := by
    intro v _ hv
    have hlocal : term.LocalAt (' ' :: s) v := Recogniser.localAt_run hblank v
    rw [division, Recogniser.read?_bind, hlocal]
    cases hterm : term.read? v with
    | none => rfl
    | some x =>
        obtain ⟨n, r⟩ := x
        have hr : r <:+ v := run?_eq_append hterm ▸ List.suffix_append n r
        rw [Option.map_some, Option.bind_some, Recogniser.read?_bind,
          spacedSlash_read?_append (fun hmem => hw (hv.subset (hr.subset hmem))) hskip]
        rfl
  rw [divideBy, Recogniser.replaceAll_append_of_none hnone, Recogniser.replaceAll_of_none _ _ hpass]

/-- In front of a slash, a run is read as a whole. -/
theorem term_read?_of_isSlash {g : Text} (hw : IsRun w) (hne : w ≠ []) (hg : IsSlash g)
    (s : Text) : term.read? (w ++ (g ++ s)) = some (w, g ++ s) := by
  obtain ⟨c, y, rfl, hc⟩ := hg.exists_cons
  exact run?_term hw hne fun x hx => by
    obtain rfl : c = x := Option.some.inj hx
    exact hc

/-- A run over a divisor becomes a fraction. -/
theorem divideBy_slash {d : Recogniser Text} {a g : Text} (hw : IsRun w) (hne : w ≠ [])
    (hg : IsSlash g) (hs : IsSolidHead s) (hd : d.read? s = some (a, r)) :
    divideBy d (w ++ (g ++ s)) = Markup.frac w a ++ divideBy d r := by
  have hread : (division term spacedSlash d).read? (w ++ (g ++ s)) = some (⟨w, a⟩, r) := by
    rw [division, Recogniser.read?_bind, term_read?_of_isSlash hw hne hg, Option.bind_some,
      Recogniser.read?_bind, spacedSlash_read?_of_isSlash hg hs, Option.bind_some,
      Recogniser.read?_map, hd]
    rfl
  exact (division term spacedSlash d).replaceAll_of_read _ hread

theorem IsRun.not_mem_slash (hw : IsRun w) : '/' ∉ w := fun h => absurd (hw _ h) (by decide)

/-- A run is passed when a blank stands behind it. -/
theorem divideTerms_blank (hw : IsRun w) (hs : IsSolidHead s) :
    divideTerms (w ++ ' ' :: s) = w ++ ' ' :: divideTerms s :=
  divideBy_blank hw.not_mem_slash hs

theorem divideTerms_divided {d : Text} (hw : IsRun w) (hne : w ≠ []) (hs : IsSolidHead s)
    (hd : endedTerm? s = some (d, r)) :
    divideTerms (w ++ '/' :: s) = Markup.frac w d ++ divideTerms r :=
  divideBy_slash hw hne isSlash_singleton hs hd

/-- All factors of a product but the last are passed. -/
theorem divideTerms_further (ts : List Factor) (t : Factor) (hw : IsRun w) (s : Text) :
    divideTerms (w ++ (further ts ++ (Markup.times ++ (t.text ++ s)))) =
      w ++ (further ts ++ (Markup.times ++ divideTerms (t.text ++ s))) := by
  have hsign : ∀ {w : Text}, IsRun w → IsRun (w ++ Markup.timesSign) := fun hw =>
    hw.append (by decide)
  induction ts generalizing w with
  | nil =>
      have := divideTerms_blank (hsign hw) (t.isSolidHead s)
      rwa [List.append_assoc, List.append_assoc] at this
  | cons u ts ih =>
      have := divideTerms_blank (hsign hw)
        (u.isSolidHead (further ts ++ (Markup.times ++ (t.text ++ s))))
      rw [ih u.isRun, List.append_assoc, List.append_assoc] at this
      rw [further_cons, List.append_assoc, List.append_assoc, List.append_assoc, List.append_assoc]
      exact this

/-! ## Where a term ends -/

theorem endedTerm?_append (hw : IsRun w) (hne : w ≠ []) (hr : endedTerm? r = none)
    (hends : endsTerm r = true) : endedTerm? (w ++ r) = some (w, r) := by
  induction w with
  | nil => exact absurd rfl hne
  | cons c w ih =>
      rw [List.cons_append, endedTerm?, if_pos (hw c (by simp))]
      by_cases hnil : w = []
      · rw [hnil, List.nil_append, hr, hends]
        rfl
      · rw [ih (fun x hx => hw x (by simp [hx])) hnil]

theorem endsTerm_cons_eq_false (hb : isBlank c = false) (hc : c ∉ ['/', '+', '-', '\\'])
    (s : Text) : endsTerm (c :: s) = false := by
  simp only [List.mem_cons, List.not_mem_nil, or_false, not_or] at hc
  have hsign : startsWith Markup.timesSign (c :: s) = false := by
    have : after? Markup.timesSign (c :: s) = none := if_neg (Ne.symm hc.2.2.2)
    rw [startsWith, this]
    rfl
  rw [endsTerm, skipBlanks_cons_of_not_isBlank s hb]
  simp [hc, hsign]

theorem endsTerm_eq_false (hc : isPlainChar c = true) (s : Text) : endsTerm (c :: s) = false := by
  refine endsTerm_cons_eq_false (isBlank_of_isPlainChar hc) (fun hmem => ?_) s
  have hsign : ∀ x ∈ ['/', '+', '-', '\\'], isPlainChar x = false := by decide
  rw [hsign c hmem] at hc
  cases hc

/-- No term ends inside a multiplication sign. -/
theorem endedTerm?_times (hc : isPlainChar c = true) (s : Text) :
    endedTerm? (Markup.times ++ c :: s) = none := by
  have hletters : ∀ w : Text, IsPlain w →
      endedTerm? (w ++ ' ' :: c :: s) = none ∧ endsTerm (w ++ ' ' :: c :: s) = false := by
    intro w hw
    induction w with
    | nil =>
        refine ⟨rfl, ?_⟩
        have := endsTerm_eq_false hc s
        rwa [endsTerm, ← skipBlanks_cons_of_isBlank (c := ' ') _ (by decide)] at this
    | cons x w ih =>
        obtain ⟨hended, hends⟩ := ih fun y hy => hw y (by simp [hy])
        refine ⟨?_, endsTerm_eq_false (hw x (by simp)) _⟩
        rw [List.cons_append, endedTerm?, hended, hends]
        simp
  obtain ⟨hended, hends⟩ := hletters "times".toList (by decide)
  have hsplit : Markup.times ++ c :: s = '\\' :: ("times".toList ++ ' ' :: c :: s) := rfl
  rw [hsplit, endedTerm?, hended, hends]
  simp

/-- Of a product behind a slash, the first factor alone divides. -/
theorem endedTerm?_further (ts : List Factor) (hw : IsRun w) (hne : w ≠ []) (hts : ts ≠ [])
    (s : Text) :
    endedTerm? (w ++ (further ts ++ s)) = some (w, further ts ++ s) := by
  obtain ⟨t, ts, rfl⟩ := List.exists_cons_of_ne_nil hts
  obtain ⟨c, x, ht, hc, -⟩ := t.exists_cons
  have hfurther : further (t :: ts) ++ s = Markup.times ++ c :: (x ++ (further ts ++ s)) := by
    rw [further_cons, ht]
    simp
  rw [hfurther]
  exact endedTerm?_append hw hne (endedTerm?_times hc _) rfl

theorem endedTerm?_slash (hw : IsRun w) (hne : w ≠ []) (s : Text) :
    endedTerm? (w ++ '/' :: s) = some (w, '/' :: s) :=
  endedTerm?_append hw hne rfl rfl

theorem endedTerm?_end (hw : IsRun w) (hne : w ≠ []) : endedTerm? w = some (w, []) := by
  have := endedTerm?_append hw hne (r := []) rfl rfl
  rwa [List.append_nil] at this

end CalcTypeset.Chain
