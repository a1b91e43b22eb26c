import CalcTypeset.Proofs.Chain.Divide
import CalcTypeset.Proofs.Complete.Strand

/-!
# What the two passes leave of a line

A prepared line is a term with segments behind it: further factors, divisors, what touches the term
in front, and what is set off from it by a gap. `Place.next` follows the product pass and the term
pass along the segments together. What matters of a place is what the term pass will find there:
nothing in front, a numerator that waits for its denominator, or a fraction of the product pass.

One step of the places goes wrong. When a numerator waits and a product follows that is divided in
its turn, the product pass has made a fraction of that product already, and the term pass takes the
opening of it with the first factor as the denominator. `outcome_divide` says that the line is torn
by that step and whole without it.
-/

namespace CalcTypeset.Complete

open Text Fraction Chain

/-- A term: letters, digits, points, underscores and brackets. -/
structure Term where
  text : Text
  ne_nil : text ≠ []
  isExponent : ∀ c ∈ text, Operator.isExponentChar c = true

/-- A strand without multiplication signs. -/
structure Word where
  text : Text
  ne_nil : text ≠ []
  strand : Strand text
  noSign : '\\' ∉ text

/-- A slash with the blanks around it. -/
abbrev Slash := { g : Text // IsSlash g }

/-- What may follow in a prepared line: a factor, a divisor, something that touches the term in
front, or something behind a gap. -/
inductive Segment where
  | times (t : Term)
  | slash (g : Slash) (t : Term)
  | touch (w : Word)
  | gap (w : Word)

def Segment.write : Segment → Text
  | times t => Markup.times ++ t.text
  | slash g t => g.1 ++ t.text
  | touch w => w.text
  | gap w => ' ' :: w.text

/-- How two terms of a line are joined. -/
inductive Link where
  | times | slash | touch | gap
deriving DecidableEq, Repr

def Segment.link : Segment → Link
  | times _ => .times
  | slash _ _ => .slash
  | touch _ => .touch
  | gap _ => .gap

/-- Where the passes are behind a term. -/
inductive Place where
  /-- Behind a single term, with nothing in front that waits for it. -/
  | term
  /-- Behind a product, with nothing in front that waits for it. -/
  | product
  /-- Behind the divisor of a product. -/
  | divisor
  /-- Behind a single term that a numerator waits for. -/
  | denominator
  /-- Behind a product that a numerator waits for. -/
  | denominatorProduct
  /-- Behind a fraction that was cut open. -/
  | torn
deriving DecidableEq, Repr

/-- The place behind one more term. -/
def Place.next : Place → Link → Place
  | torn, _ => torn
  | p, .touch => p
  | _, .gap => term
  | term, .times => product
  | product, .times => product
  | divisor, .times => term
  | denominator, .times => denominatorProduct
  | denominatorProduct, .times => denominatorProduct
  | term, .slash => denominator
  | product, .slash => divisor
  | divisor, .slash => denominator
  | denominator, .slash => term
  | denominatorProduct, .slash => torn

theorem Place.next_touch (p : Place) : p.next .touch = p := by cases p <;> rfl

/-- The place behind the last segment. -/
def Place.behind (p : Place) (ss : List Segment) : Place :=
  ss.foldl (fun p x => p.next x.link) p

/-- The text is torn if the place is, and whole otherwise. -/
def Outcome (p : Place) (s : Text) : Prop := (p = .torn → IsTorn s) ∧ (p ≠ .torn → Whole s)

variable {a d g g' r s s' v w x : Text} {c : Char} {p : Place} {ss : List Segment}

theorem Outcome.prepend (h : Outcome p s) (ha : ∀ t, Whole t → Whole (a ++ t)) :
    Outcome p (a ++ s) :=
  ⟨fun hp => (h.1 hp).prepend a, fun hp => ha s (h.2 hp)⟩

theorem behind_torn (ss : List Segment) : Place.behind .torn ss = .torn := by
  induction ss with
  | nil => rfl
  | cons x ss ih => exact ih

/-! ## Beginnings -/

/-- A strand that begins with a term. -/
structure Beginning (w : Text) : Prop where
  strand : Strand w
  ne_nil : w ≠ []
  head : '\\' ∉ w.head?

theorem Beginning.append (hw : Beginning w) (hv : Strand v) : Beginning (w ++ v) where
  strand := hw.strand.append hv
  ne_nil := by simp [hw.ne_nil]
  head := by
    obtain ⟨c, u, rfl⟩ := List.exists_cons_of_ne_nil hw.ne_nil
    exact hw.head

theorem Beginning.isSolidHead (hw : Beginning w) (s : Text) :
    IsSolidHead (w ++ s) ∧ '\\' ∉ (w ++ s).head? := by
  have hterm : ∀ {c : Char} {t : Text}, isTermChar c = true → IsSolidHead (c :: t) :=
    fun {c t} hc => ⟨c, t, rfl, isBlank_of_isTermChar hc, fun he => by rw [he] at hc; cases hc⟩
  have hne := hw.ne_nil
  have hhead := hw.head
  cases hw.strand with
  | nil => exact absurd rfl hne
  | char hc => exact ⟨hterm hc.1, hhead⟩
  | exponent => exact ⟨hterm (by decide), by simp⟩
  | sign => exact absurd rfl hhead

theorem Term.strand (t : Term) : Strand t.text := strand_of_isExponentChar t.isExponent

theorem Term.noSign (t : Term) : '\\' ∉ t.text := fun h =>
  absurd (t.isExponent _ h) (by decide +kernel)

/-- A term is a word. -/
def Term.toWord (t : Term) : Word := ⟨t.text, t.ne_nil, t.strand, t.noSign⟩

theorem Word.beginning (w : Word) : Beginning w.text where
  strand := w.strand
  ne_nil := w.ne_nil
  head h := w.noSign (List.mem_of_mem_head? h)

theorem Word.isRun (w : Word) : IsRun w.text := w.strand.isRun w.noSign

theorem Term.beginning (t : Term) : Beginning t.text := t.toWord.beginning

/-- A factor begins a product. -/
theorem strand_times (t : Term) : Strand (Markup.times ++ t.text) := by
  obtain ⟨c, v, h⟩ := List.exists_cons_of_ne_nil t.ne_nil
  rw [h]
  exact .sign (t.isExponent c (by simp [h]))
    (strand_of_isExponentChar fun x hx => t.isExponent x (by simp [h, hx]))

theorem whole_of_isSlash (hg : IsSlash g) : Whole g := by
  obtain ⟨b, b', rfl, hb, hb'⟩ := hg
  refine whole_of_free fun c hc => ?_
  have hblank : isBlank c = true ∨ c = '/' := by
    rcases List.mem_append.1 hc with hc | hc
    · exact .inl (hb c hc)
    · exact (List.mem_cons.1 hc).symm.imp_left (hb' c)
  rcases hblank with hc | rfl
  · refine ⟨?_, ?_, ?_⟩ <;> rintro rfl <;> exact absurd hc (by decide)
  · decide

/-! ## Both passes -/

theorem divide_eq_self (h : '/' ∉ s) : divide s = s := by
  rw [divide, divideProducts_eq_self h, divideTerms_eq_self h]

theorem endsNoProduct_gap (hs : IsSolidHead s ∧ '\\' ∉ s.head?) (w : Text) :
    EndsNoProduct w (' ' :: s) := fun _ _ =>
  hasSign_lineProduct.continue?_blank (w := []) (by simp [IsPlain]) hs.1 hs.2

theorem endsNoProduct_slash (hw : '\\' ∉ w) (hg : IsSlash g) (s : Text) :
    EndsNoProduct w (g ++ s) := by
  rintro st (rfl | ⟨-, h⟩)
  · exact (hasSign_lineProduct.continue?_of_isSlash hg s).trans (if_pos rfl)
  · exact absurd h hw

/-- In front of a gap, the product pass leaves a strand. -/
theorem divideProducts_gap (hw : Strand w) (hs : IsSolidHead s ∧ '\\' ∉ s.head?) :
    divideProducts (w ++ ' ' :: s) = w ++ ' ' :: divideProducts s := by
  rw [hw.divideProducts_append (endsNoProduct_gap hs w), divideProducts_blank]

/-- In front of a slash, the product pass leaves a single term. -/
theorem divideProducts_word (hw : Strand w) (hno : '\\' ∉ w) (hg : IsSlash g) (s : Text) :
    divideProducts (w ++ (g ++ s)) = w ++ (g ++ divideProducts s) := by
  rw [hw.divideProducts_append (endsNoProduct_slash hno hg s), divideProducts_of_isSlash hg]

theorem divide_gap (hw : Strand w) (hs : IsSolidHead s ∧ '\\' ∉ s.head?) :
    divide (w ++ ' ' :: s) = w ++ ' ' :: divide s := by
  rw [divide, divideProducts_gap hw hs]
  exact divideBy_blank hw.not_mem_slash (isSolidHead_divideProducts hs.1)

/-! ## A numerator that waits -/

/-- A run in a line, with what stands in front of it, that may stay as it is or become the
numerator of a fraction. -/
structure IsNumerator (a x : Text) : Prop where
  isRun : IsRun x
  ne_nil : x ≠ []
  kept : ∀ s, Whole s → Whole (a ++ (x ++ s))
  divided : ∀ d s, Whole d → d ≠ [] → Whole s → Whole (a ++ (Markup.frac x d ++ s))

theorem Word.isNumerator (w : Word) : IsNumerator [] w.text where
  isRun := w.isRun
  ne_nil := w.ne_nil
  kept _ hs := w.strand.whole.append hs
  divided _ _ hd hne hs := .fraction w.strand.whole hd hs ⟨w.ne_nil, hne⟩

/-- Of a product over a divisor, the last factor and all that follows it are one run. -/
theorem exists_isNumerator (hw : Strand w) (hmem : '\\' ∈ w) (d : Word) : ∃ u x,
    Markup.frac w d.text = Markup.fracOpen ++ (u ++ ' ' :: x) ∧ '/' ∉ u ∧
      IsNumerator (Markup.fracOpen ++ (u ++ [' '])) x := by
  obtain ⟨u, v, rfl, hu, hv, hno, hne⟩ := hw.exists_last hmem
  have hslash : '/' ∉ u := fun h => hw.not_mem_slash (List.mem_append_left _ h)
  refine ⟨u, v ++ '}' :: '{' :: (d.text ++ ['}']), ?_, hslash, ?_, by simp, ?_, ?_⟩
  · rw [frac_eq]
    simp
  · exact (hv.isRun hno).append
      (isRun_cons (by decide) (isRun_cons (by decide) (d.isRun.append (by decide))))
  · intro s hs
    have hwhole := hu.append (.char (c := ' ') (by decide) hv.whole)
    have := Whole.fraction hwhole d.strand.whole hs ⟨by simp, d.ne_nil⟩
    rw [frac_append] at this
    simpa using this
  · intro d' s hd' hne' hs
    have hfraction := Whole.fraction hv.whole d.strand.whole .nil ⟨hne, d.ne_nil⟩
    have hwhole := hu.append (.char (c := ' ') (by decide) hfraction)
    have := Whole.fraction hwhole hd' hs ⟨by simp, hne'⟩
    rw [frac_append, frac_append] at this
    rw [frac_append]
    simpa using this

theorem endedTerm?_of_isSlash (hg : IsSlash g) (s : Text) : endedTerm? (g ++ s) = none := by
  obtain ⟨c, y, rfl, hc⟩ := hg.exists_cons
  rw [List.cons_append, endedTerm?, if_neg (by simp [hc])]

theorem endsTerm_of_isSlash (hg : IsSlash g) (s : Text) : endsTerm (g ++ s) = true := by
  obtain ⟨b, b', rfl, hb, -⟩ := hg
  rw [endsTerm, List.append_assoc, skipBlanks_append_of_all_blank _ hb, List.cons_append,
    skipBlanks_cons_of_not_isBlank _ (by decide)]
  rfl

/-- The denominator is a part of the strand behind the slash, or there is none. -/
theorem IsNumerator.outcome_cut (hx : IsNumerator a x) (hg : IsSlash g) (hw : Beginning w)
    (hs : endedTerm? s = none) (hpass : ∀ r, '/' ∉ r → divideTerms (r ++ s) = r ++ s')
    (h : Outcome p s') : Outcome p (a ++ divideTerms (x ++ (g ++ (w ++ s)))) := by
  have hsolid := (hw.isSolidHead s).1
  have hslash := hw.strand.not_mem_slash
  rcases hw.strand.endedTerm?_cut hs with hnone | ⟨d, r, rfl, hne, hd, hr, hsome⟩
  · rw [divideTerms_undivided hx.isRun hg hsolid hnone, hpass w hslash]
    have hkept := h.prepend (a := a ++ (x ++ (g ++ w))) fun t ht => by
      have := hx.kept _ ((whole_of_isSlash hg).append (hw.strand.whole.append ht))
      simpa using this
    simpa using hkept
  · have hdivided : divideTerms (x ++ (g ++ (d ++ r ++ s))) = Markup.frac x d ++ (r ++ s') := by
      have := divideBy_slash (d := endedTerm) hx.isRun hx.ne_nil hg hsolid hsome
      exact this.trans (congrArg (Markup.frac x d ++ ·)
        (hpass r fun h => hslash (List.mem_append_right d h)))
    rw [hdivided]
    have hover := h.prepend (a := a ++ (Markup.frac x d ++ r)) fun t ht => by
      have := hx.divided d _ hd.whole hne (hr.whole.append ht)
      simpa using this
    simpa using hover

/-- A single term in front of a slash is the denominator as a whole. -/
theorem IsNumerator.outcome_slash (hx : IsNumerator a x) (hg : IsSlash g) (hw : Beginning w)
    (hno : '\\' ∉ w) (hg' : IsSlash g') (h : Outcome p (divide s)) :
    Outcome p (a ++ divideTerms (x ++ (g ++ divideProducts (w ++ (g' ++ s))))) := by
  have hended := endedTerm?_append (hw.strand.isRun hno) hw.ne_nil
    (endedTerm?_of_isSlash hg' (divideProducts s)) (endsTerm_of_isSlash hg' _)
  have hdivided := divideBy_slash (d := endedTerm) hx.isRun hx.ne_nil hg
    (hw.isSolidHead (g' ++ divideProducts s)).1 hended
  have hpass : divideTerms (x ++ (g ++ divideProducts (w ++ (g' ++ s)))) =
      Markup.frac x w ++ (g' ++ divide s) := by
    rw [divideProducts_word hw.strand hno hg']
    exact hdivided.trans (congrArg (Markup.frac x w ++ ·) (divideTerms_of_isSlash hg' _))
  rw [hpass]
  have hover := h.prepend (a := a ++ (Markup.frac x w ++ g')) fun t ht => by
    have := hx.divided w _ hw.strand.whole hw.ne_nil ((whole_of_isSlash hg').append ht)
    simpa using this
  simpa using hover

/-- A product that is divided is a fraction already, and the numerator takes the opening of it. -/
theorem IsNumerator.isTorn (hx : IsNumerator a x) (hg : IsSlash g) (hw : Beginning w)
    (hmem : '\\' ∈ w) (hg' : IsSlash g') (t : Term) (s : Text) :
    IsTorn (a ++ divideTerms (x ++ (g ++ divideProducts (w ++ (g' ++ (t.text ++ s)))))) := by
  obtain ⟨d, r, hd, hdrun, hdne, hr⟩ : ∃ d r, t.text ++ s = d ++ r ∧ IsRun d ∧ d ≠ [] ∧
      ∀ c ∈ r.head?, isTermChar c = false := by
    obtain ⟨c, v, hv⟩ := List.exists_cons_of_ne_nil t.ne_nil
    rw [hv]
    exact exists_run (t.toWord.isRun c (by simp [Term.toWord, hv])) (v ++ s)
  obtain ⟨v, c, u, hsplit, hv, hno, hc⟩ := hw.strand.exists_first hmem
  have hproduct := hw.strand.divideProducts_over hmem hw.head hg' hdrun hdne hr
  have hrun : IsRun (Markup.fracOpen ++ v) := isRun_fracOpen.append (hv.isRun hno)
  have hne : Markup.fracOpen ++ v ≠ [] := List.cons_ne_nil _ _
  have hfraction : divideProducts (w ++ (g' ++ (t.text ++ s))) = (Markup.fracOpen ++ v) ++
      (Markup.times ++ c :: (u ++ '}' :: '{' :: (d ++ '}' :: divideProducts r))) := by
    rw [hd, hproduct, frac_append, hsplit]
    simp
  have hplain := isPlainChar_of_isExponentChar hc
  have hended := endedTerm?_append hrun hne
    (endedTerm?_times hplain (u ++ '}' :: '{' :: (d ++ '}' :: divideProducts r))) rfl
  have hdivided := divideBy_slash (d := endedTerm) hx.isRun hx.ne_nil hg
    (hrun.isSolidHead hne _) hended
  have htimes := divideTerms_blank (w := Markup.timesSign) (by decide)
    (isSolidHead_of_isExponentChar hc (u ++ '}' :: '{' :: (d ++ '}' :: divideProducts r))).1
  obtain ⟨z, hz⟩ : ∃ z, divideTerms (Markup.times ++ c :: (u ++ '}' :: '{' ::
      (d ++ '}' :: divideProducts r))) = '\\' :: z := by
    refine ⟨_, Eq.trans ?_ htimes⟩
    rw [Markup.times, List.append_assoc]
    rfl
  have hpass : divideTerms (x ++ (g ++ divideProducts (w ++ (g' ++ (t.text ++ s))))) =
      Markup.frac x (Markup.fracOpen ++ v) ++ '\\' :: z := by
    rw [hfraction]
    exact hdivided.trans (congrArg (_ ++ ·) hz)
  refine ⟨a ++ (Markup.fracOpen ++ (x ++ ['}', '{'])), v, z, ?_, hv.whole.isBalanced⟩
  rw [hpass, frac_append]
  simp

/-! ## Along the segments -/

/-- Segments one after the other. -/
def writeSegments (ss : List Segment) : Text := ss.flatMap Segment.write

/-- One of two places, for a single term and for a product. -/
def placeOf (w : Text) (p q : Place) : Place := if '\\' ∈ w then q else p

theorem placeOf_of_not_mem (h : '\\' ∉ w) (p q : Place) : placeOf w p q = p := if_neg h

theorem placeOf_of_mem (h : '\\' ∈ w) (p q : Place) : placeOf w p q = q := if_pos h

/-- What holds of both places holds of the one. -/
theorem placeOf_cases {P : Place → Prop} {p q : Place} (hp : P p) (hq : P q) (w : Text) :
    P (placeOf w p q) := by
  unfold placeOf
  split
  · exact hq
  · exact hp

theorem placeOf_append_word (w : Text) (v : Word) (p q : Place) :
    placeOf (w ++ v.text) p q = placeOf w p q := by
  simp [placeOf, v.noSign]

theorem placeOf_append_times (w : Text) (t : Term) (p q : Place) :
    placeOf (w ++ (Markup.times ++ t.text)) p q = q :=
  placeOf_of_mem (List.mem_append_right _ (List.mem_append_left _ (by decide))) p q

/-- What the passes leave of the segments behind a beginning, behind a beginning that a numerator
waits for, and behind the divisor of a product. -/
structure Follows (ss : List Segment) : Prop where
  fresh : ∀ w, Beginning w →
    Outcome (Place.behind (placeOf w .term .product) ss) (divide (w ++ writeSegments ss))
  waiting : ∀ a x g w, IsNumerator a x → IsSlash g → Beginning w →
    Outcome (Place.behind (placeOf w .denominator .denominatorProduct) ss)
      (a ++ divideTerms (x ++ (g ++ divideProducts (w ++ writeSegments ss))))
  divided : ∀ w g (d : Word), Beginning w → '\\' ∈ w → IsSlash g →
    Outcome (Place.behind .divisor ss) (divide (w ++ (g ++ (d.text ++ writeSegments ss))))

/-- Behind the fraction of a product, the passes begin anew at a gap. -/
theorem divide_over_gap (hw : Beginning w) (hmem : '\\' ∈ w) (hg : IsSlash g) (hd : IsRun d)
    (hne : d ≠ []) (hs : IsSolidHead s) :
    divide (w ++ (g ++ (d ++ ' ' :: s))) = Markup.frac w d ++ ' ' :: divide s := by
  have hblank : ∀ c ∈ (' ' :: s).head?, isTermChar c = false := by
    intro c hc
    obtain rfl : ' ' = c := Option.some.inj hc
    rfl
  rw [divide, hw.strand.divideProducts_over hmem hw.head hg hd hne hblank, divideProducts_blank]
  exact divideBy_blank (not_mem_slash_frac hw.strand.not_mem_slash hd.not_mem_slash)
    (isSolidHead_divideProducts hs)

theorem follows_nil : Follows [] where
  fresh w hw := by
    have hne : placeOf w .term .product ≠ .torn :=
      placeOf_cases (P := (· ≠ .torn)) (by decide) (by decide) w
    show Outcome (placeOf w .term .product) (divide (w ++ []))
    rw [List.append_nil, divide_eq_self hw.strand.not_mem_slash]
    exact ⟨fun h => absurd h hne, fun _ => hw.strand.whole⟩
  waiting a x g w hx hg hw := by
    have hne : placeOf w .denominator .denominatorProduct ≠ .torn :=
      placeOf_cases (P := (· ≠ .torn)) (by decide) (by decide) w
    have hnil : Outcome (placeOf w .denominator .denominatorProduct) [] :=
      ⟨fun h => absurd h hne, fun _ => .nil⟩
    have hcut := hx.outcome_cut hg hw (s := []) rfl
      (fun r hr => by rw [List.append_nil, divideTerms_eq_self hr]) hnil
    rw [List.append_nil] at hcut
    show Outcome (placeOf w .denominator .denominatorProduct)
      (a ++ divideTerms (x ++ (g ++ divideProducts (w ++ []))))
    rwa [List.append_nil, divideProducts_eq_self hw.strand.not_mem_slash]
  divided w g d hw hmem hg := by
    have hproduct : divideProducts (w ++ (g ++ (d.text ++ []))) = Markup.frac w d.text :=
      (hw.strand.divideProducts_over hmem hw.head hg d.isRun d.ne_nil (by simp)).trans
        (by rw [divideProducts_eq_self (by simp), List.append_nil])
    have hslash := not_mem_slash_frac hw.strand.not_mem_slash d.isRun.not_mem_slash
    have hwhole := Whole.fraction hw.strand.whole d.strand.whole .nil ⟨hw.ne_nil, d.ne_nil⟩
    rw [List.append_nil] at hwhole
    show Outcome .divisor (divide (w ++ (g ++ (d.text ++ []))))
    rw [divide, hproduct, divideTerms_eq_self hslash]
    exact ⟨fun h => absurd h (by decide), fun _ => hwhole⟩

theorem Follows.times (h : Follows ss) (t : Term) : Follows (.times t :: ss) where
  fresh w hw := by
    have hplace : (placeOf w .term .product).next .times = .product :=
      placeOf_cases (P := (·.next .times = .product)) rfl rfl w
    have hfresh := h.fresh _ (hw.append (strand_times t))
    rw [placeOf_append_times, List.append_assoc] at hfresh
    show Outcome (Place.behind ((placeOf w .term .product).next .times) ss) _
    rw [hplace]
    exact hfresh
  waiting a x g w hx hg hw := by
    have hplace : (placeOf w .denominator .denominatorProduct).next .times =
        .denominatorProduct :=
      placeOf_cases (P := (·.next .times = .denominatorProduct)) rfl rfl w
    have hwaiting := h.waiting a x g _ hx hg (hw.append (strand_times t))
    rw [placeOf_append_times, List.append_assoc] at hwaiting
    show Outcome (Place.behind ((placeOf w .denominator .denominatorProduct).next .times) ss) _
    rw [hplace]
    exact hwaiting
  divided w g d hw hmem hg := by
    have hrun : IsRun (d.text ++ Markup.timesSign) := d.isRun.append (by decide)
    have hgap := divide_over_gap hw hmem hg hrun (by simp [d.ne_nil])
      (t.beginning.isSolidHead (writeSegments ss)).1
    have hsplit : d.text ++ writeSegments (.times t :: ss) =
        d.text ++ Markup.timesSign ++ ' ' :: (t.text ++ writeSegments ss) := by
      simp [writeSegments, Segment.write, Markup.times]
    have hfresh := h.fresh _ t.beginning
    rw [placeOf_of_not_mem t.noSign] at hfresh
    have hprepend := hfresh.prepend
      (a := Markup.frac w (d.text ++ Markup.timesSign) ++ [' ']) fun s hs => by
        have := Whole.fraction hw.strand.whole (d.strand.whole.append (.sign (.inl rfl) .nil))
          (.char (c := ' ') (by decide) hs) ⟨hw.ne_nil, by simp [d.ne_nil]⟩
        simpa using this
    rw [hsplit, hgap]
    show Outcome (Place.behind .term ss) _
    simpa using hprepend

theorem Follows.slash (h : Follows ss) (g' : Slash) (t : Term) : Follows (.slash g' t :: ss) where
  fresh w hw := by
    by_cases hmem : '\\' ∈ w
    · show Outcome (Place.behind ((placeOf w .term .product).next .slash) ss) _
      rw [placeOf_of_mem hmem]
      show Outcome (Place.behind .divisor ss) _
      have hdivided := h.divided w g'.1 t.toWord hw hmem g'.2
      simpa [writeSegments, Segment.write, Term.toWord] using hdivided
    · have hnumerator := Word.isNumerator ⟨w, hw.ne_nil, hw.strand, hmem⟩
      have hwaiting := h.waiting [] w g'.1 t.text hnumerator g'.2 t.beginning
      rw [placeOf_of_not_mem t.noSign, ← divideProducts_word hw.strand hmem g'.2] at hwaiting
      show Outcome (Place.behind ((placeOf w .term .product).next .slash) ss) _
      rw [placeOf_of_not_mem hmem]
      show Outcome (Place.behind .denominator ss) _
      simpa [writeSegments, Segment.write, divide] using hwaiting
  waiting a x g w hx hg hw := by
    have hwrite : w ++ writeSegments (.slash g' t :: ss) =
        w ++ (g'.1 ++ (t.text ++ writeSegments ss)) := by
      simp [writeSegments, Segment.write]
    rw [hwrite]
    show Outcome (Place.behind ((placeOf w .denominator .denominatorProduct).next .slash) ss) _
    by_cases hmem : '\\' ∈ w
    · have htorn := hx.isTorn hg hw hmem g'.2 t (writeSegments ss)
      have hplace : Place.behind (Place.denominatorProduct.next .slash) ss = .torn := behind_torn ss
      rw [placeOf_of_mem hmem, hplace]
      exact ⟨fun _ => htorn, fun hne => absurd rfl hne⟩
    · have hfresh := h.fresh _ t.beginning
      rw [placeOf_of_not_mem t.noSign] at hfresh
      rw [placeOf_of_not_mem hmem]
      exact hx.outcome_slash hg hw hmem g'.2 hfresh
  divided w g d hw hmem hg := by
    obtain ⟨u, x, hfrac, hu, hx⟩ := exists_isNumerator hw.strand hmem d
    have hhead : ∀ c ∈ (g'.1 ++ (t.text ++ writeSegments ss)).head?, isTermChar c = false := by
      obtain ⟨c, y, hc, hterm⟩ := g'.2.exists_cons
      intro z hz
      rw [hc] at hz
      obtain rfl : c = z := Option.some.inj hz
      exact hterm
    have hopen : '/' ∉ Markup.fracOpen ++ u := by
      rw [List.mem_append, not_or]
      exact ⟨by decide, hu⟩
    have hsolid := hx.isRun.isSolidHead hx.ne_nil
      (g'.1 ++ divideProducts (t.text ++ writeSegments ss))
    have hpass := divideBy_blank (d := endedTerm) hopen hsolid
    have hwaiting := h.waiting _ x g'.1 t.text hx g'.2 t.beginning
    rw [placeOf_of_not_mem t.noSign] at hwaiting
    have hdivide : divide (w ++ (g ++ (d.text ++ writeSegments (.slash g' t :: ss)))) =
        Markup.fracOpen ++ (u ++ [' ']) ++
          divideTerms (x ++ (g'.1 ++ divideProducts (t.text ++ writeSegments ss))) := by
      have hwrite : d.text ++ writeSegments (.slash g' t :: ss) =
          d.text ++ (g'.1 ++ (t.text ++ writeSegments ss)) := by
        simp [writeSegments, Segment.write]
      rw [hwrite, divide, hw.strand.divideProducts_over hmem hw.head hg d.isRun d.ne_nil hhead,
        divideProducts_of_isSlash g'.2, hfrac]
      simp only [List.append_assoc, List.cons_append, List.nil_append] at hpass ⊢
      exact hpass
    rw [hdivide]
    exact hwaiting

theorem Follows.touch (h : Follows ss) (v : Word) : Follows (.touch v :: ss) where
  fresh w hw := by
    have hfresh := h.fresh _ (hw.append v.strand)
    rw [placeOf_append_word, List.append_assoc] at hfresh
    show Outcome (Place.behind ((placeOf w .term .product).next .touch) ss) _
    rw [Place.next_touch]
    exact hfresh
  waiting a x g w hx hg hw := by
    have hwaiting := h.waiting a x g _ hx hg (hw.append v.strand)
    rw [placeOf_append_word, List.append_assoc] at hwaiting
    show Outcome (Place.behind ((placeOf w .denominator .denominatorProduct).next .touch) ss) _
    rw [Place.next_touch]
    exact hwaiting
  divided w g d hw hmem hg := by
    have hno : '\\' ∉ d.text ++ v.text := by
      rw [List.mem_append, not_or]
      exact ⟨d.noSign, v.noSign⟩
    have hdivided := h.divided w g
      ⟨d.text ++ v.text, by simp [d.ne_nil], d.strand.append v.strand, hno⟩ hw hmem hg
    rw [List.append_assoc] at hdivided
    exact hdivided

theorem Follows.gap (h : Follows ss) (v : Word) : Follows (.gap v :: ss) where
  fresh w hw := by
    have hplace : (placeOf w .term .product).next .gap = .term :=
      placeOf_cases (P := (·.next .gap = .term)) rfl rfl w
    have hfresh := h.fresh _ v.beginning
    rw [placeOf_of_not_mem v.noSign] at hfresh
    have hprepend := hfresh.prepend (a := w ++ [' ']) fun s hs => by
      have := hw.strand.whole.append (.char (c := ' ') (by decide) hs)
      simpa using this
    show Outcome (Place.behind ((placeOf w .term .product).next .gap) ss)
      (divide (w ++ ' ' :: (v.text ++ writeSegments ss)))
    rw [hplace, divide_gap hw.strand (v.beginning.isSolidHead _)]
    simpa using hprepend
  waiting a x g w hx hg hw := by
    have hplace : (placeOf w .denominator .denominatorProduct).next .gap = .term :=
      placeOf_cases (P := (·.next .gap = .term)) rfl rfl w
    have hsolid := v.beginning.isSolidHead (writeSegments ss)
    have hfresh := h.fresh _ v.beginning
    rw [placeOf_of_not_mem v.noSign] at hfresh
    have hspace := hfresh.prepend (a := [' ']) fun s hs => .char (by decide) hs
    show Outcome (Place.behind ((placeOf w .denominator .denominatorProduct).next .gap) ss)
      (a ++ divideTerms (x ++ (g ++ divideProducts (w ++ ' ' :: (v.text ++ writeSegments ss)))))
    rw [hplace, divideProducts_gap hw.strand hsolid]
    exact hx.outcome_cut hg hw rfl
      (fun r hr => divideBy_blank hr (isSolidHead_divideProducts hsolid.1)) hspace
  divided w g d hw hmem hg := by
    have hgap := divide_over_gap hw hmem hg d.isRun d.ne_nil
      (v.beginning.isSolidHead (writeSegments ss)).1
    have hfresh := h.fresh _ v.beginning
    rw [placeOf_of_not_mem v.noSign] at hfresh
    have hprepend := hfresh.prepend (a := Markup.frac w d.text ++ [' ']) fun s hs => by
      have := Whole.fraction hw.strand.whole d.strand.whole (.char (c := ' ') (by decide) hs)
        ⟨hw.ne_nil, d.ne_nil⟩
      simpa using this
    show Outcome (Place.behind .term ss)
      (divide (w ++ (g ++ (d.text ++ ' ' :: (v.text ++ writeSegments ss)))))
    rw [hgap]
    simpa using hprepend

theorem follows (ss : List Segment) : Follows ss := by
  induction ss with
  | nil => exact follows_nil
  | cons x ss ih =>
      cases x with
      | times t => exact ih.times t
      | slash g t => exact ih.slash g t
      | touch v => exact ih.touch v
      | gap v => exact ih.gap v

/-- Behind a term, a line is torn or whole as the place behind its last segment says. -/
theorem outcome_divide (t : Term) (ss : List Segment) :
    Outcome (Place.behind .term ss) (divide (t.text ++ writeSegments ss)) := by
  have := (follows ss).fresh t.text t.beginning
  rwa [placeOf_of_not_mem t.noSign] at this

end CalcTypeset.Complete
