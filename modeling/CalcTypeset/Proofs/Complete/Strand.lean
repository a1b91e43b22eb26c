import CalcTypeset.Proofs.Complete.Whole
import CalcTypeset.Proofs.Spacing.Respaced

/-!
# Strands

A strand is what stands between the slashes and gaps of a prepared line: a term or a product, with
the signs that touch it and with braced exponents. Its backslashes are those of its multiplication
signs, so a strand without one is a single term for the two passes, and a strand with one a
product.

The product pass reads on through a strand, and behind it all that matters is whether the strand
was a product. The term pass takes as much of a strand as stands where a term may end; what it
takes and what it leaves are whole.
-/

namespace CalcTypeset.Complete

open Text Fraction Chain

/-- Characters of terms, braced exponents, and multiplication signs with a term behind each. -/
inductive Strand : Text → Prop where
  | nil : Strand []
  | char {c : Char} {w : Text} (hc : isTermChar c = true ∧ c ≠ '\\' ∧ c ≠ '{' ∧ c ≠ '}')
      (hw : Strand w) : Strand (c :: w)
  | exponent {e w : Text} (he : ∀ c ∈ e, Operator.isExponentChar c = true) (hw : Strand w) :
      Strand ('^' :: '{' :: (e ++ '}' :: w))
  | sign {c : Char} {w : Text} (hc : Operator.isExponentChar c = true) (hw : Strand w) :
      Strand (Markup.times ++ c :: w)

variable {c : Char} {d e g r s v w x : Text} {st : FactorState}

theorem isFree_of_isExponentChar (hc : Operator.isExponentChar c = true) :
    isTermChar c = true ∧ c ≠ '\\' ∧ c ≠ '{' ∧ c ≠ '}' := by
  have hplain := isPlainChar_of_isExponentChar hc
  exact ⟨isTermChar_of_isPlainChar hplain, ne_of_isPlainChar hplain (by decide),
    ne_of_isPlainChar hplain (by decide), ne_of_isPlainChar hplain (by decide)⟩

theorem strand_of_isExponentChar (hw : ∀ c ∈ w, Operator.isExponentChar c = true) : Strand w := by
  induction w with
  | nil => exact .nil
  | cons c w ih =>
      exact .char (isFree_of_isExponentChar (hw c (by simp))) (ih fun x hx => hw x (by simp [hx]))

theorem Strand.append (hv : Strand v) (hw : Strand w) : Strand (v ++ w) := by
  induction hv with
  | nil => exact hw
  | char hc _ ih => exact .char hc ih
  | exponent he _ ih =>
      have := Strand.exponent he ih
      simpa using this
  | sign hc _ ih =>
      rw [List.append_assoc]
      exact .sign hc ih

theorem whole_times (hs : Whole s) : Whole (Markup.times ++ s) := by
  rw [Markup.times, List.append_assoc]
  exact .sign (.inl rfl) (.char (by decide) hs)

theorem whole_of_isExponentChar (hw : ∀ c ∈ w, Operator.isExponentChar c = true) : Whole w :=
  whole_of_free fun c hc => (isFree_of_isExponentChar (hw c hc)).2

theorem Strand.whole (hw : Strand w) : Whole w := by
  induction hw with
  | nil => exact .nil
  | char hc _ ih => exact .char hc.2 ih
  | exponent he _ ih => exact .exponent (whole_of_isExponentChar he) ih
  | sign hc _ ih => exact whole_times (.char (isFree_of_isExponentChar hc).2 ih)

/-! ## Runs -/

/-- The characters of a braced exponent go on with a term. -/
theorem isRun_exponent (he : ∀ c ∈ e, Operator.isExponentChar c = true) :
    ∀ c ∈ '^' :: '{' :: (e ++ ['}']), isTermChar c = true ∧ c ≠ '\\' := by
  intro c hc
  simp only [List.mem_cons, List.mem_append, List.not_mem_nil, or_false] at hc
  rcases hc with rfl | rfl | hc | rfl
  · decide
  · decide
  · have hfree := isFree_of_isExponentChar (he c hc)
    exact ⟨hfree.1, hfree.2.1⟩
  · decide

theorem exponent_append (e w : Text) :
    '^' :: '{' :: (e ++ '}' :: w) = '^' :: '{' :: (e ++ ['}']) ++ w := by simp

theorem Strand.not_mem_slash (hw : Strand w) : '/' ∉ w := by
  have hterm : ∀ {c}, isTermChar c = true → c ≠ '/' := fun hc he => by rw [he] at hc; cases hc
  induction hw with
  | nil => simp
  | char hc _ ih =>
      rw [List.mem_cons, not_or]
      exact ⟨(hterm hc.1).symm, ih⟩
  | exponent he _ ih =>
      rw [exponent_append, List.mem_append, not_or]
      exact ⟨fun h => hterm (isRun_exponent he _ h).1 rfl, ih⟩
  | sign hc _ ih =>
      rw [List.mem_append, List.mem_cons, not_or, not_or]
      exact ⟨by decide, (hterm (isFree_of_isExponentChar hc).1).symm, ih⟩

theorem Strand.isRun (hw : Strand w) (h : '\\' ∉ w) : IsRun w := by
  induction hw with
  | nil => simp [IsRun]
  | char hc _ ih => exact isRun_cons hc.1 (ih fun hmem => h (List.mem_cons_of_mem _ hmem))
  | exponent he _ ih =>
      rw [exponent_append] at h ⊢
      exact IsRun.append (fun c hc => (isRun_exponent he c hc).1)
        (ih fun hmem => h (List.mem_append_right _ hmem))
  | sign => exact absurd (List.mem_append_left _ (by decide)) h

/-! ## The product pass -/

/-- The state of a product behind a strand. -/
def stateBehind (w : Text) (st : FactorState) : FactorState := if '\\' ∈ w then .later else st

theorem stateBehind_append_of_not_mem (hv : '\\' ∉ v) (w : Text) (st : FactorState) :
    stateBehind (v ++ w) st = stateBehind w st := by
  simp [stateBehind, hv]

theorem accepts_of_isTermChar (hst : st ≠ .complete) (hc : isTermChar c = true) :
    lineProduct.accepts st c = true := by
  cases st with
  | first => exact hc
  | later => exact hc
  | complete => exact absurd rfl hst

theorem continue?_run (hst : st ≠ .complete) (hv : ∀ c ∈ v, isTermChar c = true ∧ c ≠ '\\')
    (s : Text) : lineProduct.continue? st (v ++ s) =
      (lineProduct.continue? st s).map (ProductNotation.prepend v) :=
  hasSign_lineProduct.continue?_append hv (fun c hc => accepts_of_isTermChar hst (hv c hc).1) s

theorem isSolidHead_of_isExponentChar (hc : Operator.isExponentChar c = true) (s : Text) :
    IsSolidHead (c :: s) ∧ '\\' ∉ (c :: s).head? := by
  have hplain := isPlainChar_of_isExponentChar hc
  refine ⟨⟨c, s, rfl, isBlank_of_isPlainChar hplain, ne_of_isPlainChar hplain (by decide)⟩, ?_⟩
  simpa using (isFree_of_isExponentChar hc).2.1

/-- A product is read on through a strand. -/
theorem Strand.continue?_append (hw : Strand w) (hst : st ≠ .complete) (s : Text) :
    lineProduct.continue? st (w ++ s) =
      (lineProduct.continue? (stateBehind w st) s).map (ProductNotation.prepend w) := by
  induction hw generalizing st with
  | nil => cases hs : lineProduct.continue? st s <;> simp [stateBehind, ProductNotation.prepend, hs]
  | @char c w hc _ ih =>
      have hbehind := stateBehind_append_of_not_mem (v := [c]) (by simpa using hc.2.1.symm) w st
      have hrun := continue?_run hst (v := [c]) (by simpa using ⟨hc.1, hc.2.1⟩) (w ++ s)
      rw [List.singleton_append] at hbehind hrun
      rw [List.cons_append, hrun, ih hst, map_prepend_append, hbehind]
      rfl
  | @exponent e w he _ ih =>
      have hrun := isRun_exponent he
      rw [exponent_append, stateBehind_append_of_not_mem fun h => (hrun _ h).2 rfl,
        List.append_assoc, continue?_run hst hrun, ih hst, map_prepend_append]
  | @sign c w hc _ ih =>
      obtain ⟨hsolid, hhead⟩ := isSolidHead_of_isExponentChar hc (w ++ s)
      have hterm : (Recogniser.char isTermChar).read? (c :: (w ++ s)) = some (c, w ++ s) :=
        if_pos (isFree_of_isExponentChar hc).1
      have hsign : lineProduct.continue? st _ = _ :=
        hasSign_lineProduct.continue?_sign hsolid hhead
      have hlater : stateBehind w .later = .later := by simp [stateBehind]
      have hbehind : stateBehind (Markup.times ++ c :: w) st = .later :=
        if_pos (List.mem_append_left _ (by decide))
      have hread : lineProduct.continue? .later (w ++ s) =
          (lineProduct.continue? .later s).map (ProductNotation.prepend w) := by
        have := ih (FactorState.noConfusion : FactorState.later ≠ .complete)
        rwa [hlater] at this
      rw [factorStart_read?_eq, hterm, Option.map_some, Option.bind_some] at hsign
      dsimp only at hsign
      rw [hread, map_prepend_append] at hsign
      rw [hbehind]
      have hsplit : Markup.times ++ c :: w ++ s = lineProduct.sign ++ ' ' :: c :: (w ++ s) := by
        simp [Markup.times, lineProduct]
      rw [hsplit, hsign]
      simp [Markup.times, lineProduct]

/-- No product ends in front of `s`, neither in its first factor nor, if there is a sign in the
text, in a later one. -/
def EndsNoProduct (w s : Text) : Prop :=
  ∀ st, st = .first ∨ (st = .later ∧ '\\' ∈ w) → lineProduct.continue? st s = none

theorem EndsNoProduct.of_append (h : EndsNoProduct (v ++ w) s) : EndsNoProduct w s := fun st hst =>
  h st (hst.imp_right (And.imp_right (List.mem_append_right v)))

theorem Strand.continue?_eq_none (hw : Strand w) (hs : EndsNoProduct w s) :
    lineProduct.continue? .first (w ++ s) = none := by
  rw [hw.continue?_append (by decide), hs _ ?_]
  · rfl
  · by_cases h : '\\' ∈ w
    · exact .inr ⟨if_pos h, h⟩
    · exact .inl (if_neg h)

theorem divideProducts_run (hv : ∀ c ∈ v, isTermChar c = true ∧ c ≠ '\\')
    (hs : lineProduct.continue? .first s = none) :
    divideProducts (v ++ s) = v ++ divideProducts s := by
  refine Recogniser.replaceAll_append_of_none fun t hne ht => ?_
  obtain ⟨c, t, rfl⟩ := List.exists_cons_of_ne_nil hne
  have htail : ∀ x ∈ t, isTermChar x = true ∧ x ≠ '\\' := fun x hx =>
    hv x (ht.subset (by simp [hx]))
  refine HasSign.overTerm_read?_eq_none (s := t ++ s) ?_ c
  rw [continue?_run (by decide) htail, hs]
  rfl

theorem divideProducts_times (hs : IsSolidHead s) (hhead : '\\' ∉ s.head?) :
    divideProducts (Markup.times ++ s) = Markup.times ++ divideProducts s := by
  rw [Markup.times, List.append_assoc, List.append_assoc]
  exact hasSign_lineProduct.overTerm_replaceAll_sign Quotient.write hs hhead

/-- A strand is passed when no product ends behind it. -/
theorem Strand.divideProducts_append (hw : Strand w) (hs : EndsNoProduct w s) :
    divideProducts (w ++ s) = w ++ divideProducts s := by
  induction hw with
  | nil => rfl
  | @char c w hc hw ih =>
      have htail := EndsNoProduct.of_append (v := [c]) hs
      have := divideProducts_run (v := [c]) (by simpa using ⟨hc.1, hc.2.1⟩)
        (hw.continue?_eq_none htail)
      rw [ih htail] at this
      exact this
  | @exponent e w he hw ih =>
      rw [exponent_append] at hs ⊢
      have htail := hs.of_append
      rw [List.append_assoc, divideProducts_run (isRun_exponent he) (hw.continue?_eq_none htail),
        ih htail, List.append_assoc]
  | @sign c w hc hw ih =>
      have htail := EndsNoProduct.of_append (v := [c]) hs.of_append
      obtain ⟨hsolid, hhead⟩ := isSolidHead_of_isExponentChar hc (w ++ s)
      have hfree := isFree_of_isExponentChar hc
      have hrun := divideProducts_run (v := [c]) (by simpa using ⟨hfree.1, hfree.2.1⟩)
        (hw.continue?_eq_none htail)
      rw [List.singleton_append, ih htail] at hrun
      rw [List.append_assoc, List.cons_append, divideProducts_times hsolid hhead, hrun]
      simp

theorem Strand.overTerm_read? (hw : Strand w) (hne : w ≠ []) (hhead : '\\' ∉ w.head?) (s : Text) :
    lineProduct.overTerm.read? (w ++ s) = (lineProduct.continue? (stateBehind w .first) s).map
      (ProductNotation.prepend w) := by
  cases hw with
  | nil => exact absurd rfl hne
  | @char c w hc hw =>
      have hbehind := stateBehind_append_of_not_mem (v := [c]) (by simpa using hc.2.1.symm) w .first
      rw [List.singleton_append] at hbehind
      rw [List.cons_append, ProductNotation.overTerm_read?_cons, if_pos hc.1,
        hw.continue?_append (by decide),
        map_prepend_append, hbehind]
      rfl
  | @exponent e w he hw =>
      have hrun := isRun_exponent he
      have hbehind := stateBehind_append_of_not_mem (fun h => (hrun _ h).2 rfl) w .first
      rw [exponent_append, hbehind, List.append_assoc, List.cons_append,
        ProductNotation.overTerm_read?_cons, if_pos (by decide),
        continue?_run (by decide) fun c hc => hrun c (List.mem_cons_of_mem _ hc),
        hw.continue?_append (by decide), map_prepend_append, map_prepend_append]
      rfl
  | sign => exact absurd rfl hhead

/-- A product over a run becomes a fraction. -/
theorem Strand.divideProducts_over (hw : Strand w) (hmem : '\\' ∈ w) (hhead : '\\' ∉ w.head?)
    (hg : IsSlash g) (hd : IsRun d) (hdne : d ≠ []) (hr : ∀ c ∈ r.head?, isTermChar c = false) :
    divideProducts (w ++ (g ++ (d ++ r))) = Markup.frac w d ++ divideProducts r := by
  have hread := hw.overTerm_read? (List.ne_nil_of_mem hmem) hhead (g ++ (d ++ r))
  have hbehind : stateBehind w .first = .later := if_pos hmem
  rw [hbehind, hasSign_lineProduct.continue?_slash (by decide) hg hd hdne hr, Option.map_some,
    ProductNotation.prepend, List.append_nil] at hread
  exact lineProduct.overTerm.replaceAll_of_read Quotient.write hread

/-! ## The term pass -/

theorem divideTerms_of_isSlash (hg : IsSlash g) (s : Text) :
    divideTerms (g ++ s) = g ++ divideTerms s :=
  ignoresSpacing_divideTerms.replaceAll_slash _ hg s

theorem divideProducts_of_isSlash (hg : IsSlash g) (s : Text) :
    divideProducts (g ++ s) = g ++ divideProducts s :=
  ignoresSpacing_divideProducts.replaceAll_slash _ hg s

/-- A run is passed when no term ends behind its slash. -/
theorem divideTerms_undivided (hx : IsRun x) (hg : IsSlash g) (hs : IsSolidHead s)
    (hd : endedTerm? s = none) : divideTerms (x ++ (g ++ s)) = x ++ (g ++ divideTerms s) := by
  have hnone : ∀ t, t ≠ [] → t <:+ x →
      (division term spacedSlash endedTerm).read? (t ++ (g ++ s)) = none := by
    intro t hne ht
    have hended : endedTerm.read? s = none := hd
    rw [division, Recogniser.read?_bind, term_read?_of_isSlash (fun c hc => hx c (ht.subset hc)) hne
      hg, Option.bind_some, Recogniser.read?_bind, spacedSlash_read?_of_isSlash hg hs,
      Option.bind_some, Recogniser.read?_map, hended]
    rfl
  rw [← divideTerms_of_isSlash hg]
  exact Recogniser.replaceAll_append_of_none hnone

/-! ## Where a strand ends for the term pass -/

theorem endedTerm?_append_some (hv : IsRun v) (hs : endedTerm? s = some (d, r)) :
    endedTerm? (v ++ s) = some (v ++ d, r) := by
  induction v with
  | nil => exact hs
  | cons c v ih =>
      rw [List.cons_append, endedTerm?, if_pos (hv c (by simp)), ih fun x hx => hv x (by simp [hx])]
      rfl

/-- No term ends in front of characters at which none may end. -/
theorem endedTerm?_append_none (hv : ∀ c ∈ v, ∀ t, endsTerm (c :: t) = false)
    (hends : endsTerm s = false) (hs : endedTerm? s = none) : endedTerm? (v ++ s) = none := by
  have hinside : ∀ v, (∀ c ∈ v, ∀ t, endsTerm (c :: t) = false) → endsTerm (v ++ s) = false := by
    rintro (_ | ⟨c, v⟩) hv
    · exact hends
    · exact hv c (by simp) _
  induction v with
  | nil => exact hs
  | cons c v ih =>
      have htail : ∀ x ∈ v, ∀ t, endsTerm (x :: t) = false := fun x hx => hv x (by simp [hx])
      rw [List.cons_append, endedTerm?, ih htail, hinside v htail]
      simp

theorem endsTerm_exponent (he : ∀ c ∈ e, Operator.isExponentChar c = true) :
    ∀ c ∈ '^' :: '{' :: e, ∀ t, endsTerm (c :: t) = false := by
  intro c hc t
  rcases List.mem_cons.1 hc with rfl | hc
  · exact endsTerm_cons_eq_false (by decide) (by decide) t
  · rcases List.mem_cons.1 hc with rfl | hc
    · exact endsTerm_cons_eq_false (by decide) (by decide) t
    · exact endsTerm_eq_false (isPlainChar_of_isExponentChar (he c hc)) t

/-- What the term pass takes of a strand is a strand, and so is what it leaves. -/
theorem Strand.endedTerm?_cut (hw : Strand w) (hs : endedTerm? s = none) :
    endedTerm? (w ++ s) = none ∨ ∃ d r, w = d ++ r ∧ d ≠ [] ∧ Strand d ∧ Strand r ∧
      endedTerm? (w ++ s) = some (d, r ++ s) := by
  induction hw with
  | nil => exact .inl hs
  | @char c w hc hw ih =>
      rcases ih with hnone | ⟨d, r, rfl, -, hd, hr, hsome⟩
      · rw [List.cons_append, endedTerm?, if_pos hc.1, hnone]
        cases endsTerm (w ++ s) with
        | false => exact .inl rfl
        | true => exact .inr ⟨[c], w, rfl, by simp, .char hc .nil, hw, rfl⟩
      · have := endedTerm?_append_some (v := [c]) (isRun_cons hc.1 (by simp [IsRun])) hsome
        exact .inr ⟨c :: d, r, rfl, by simp, .char hc hd, hr, this⟩
  | @exponent e w he hw ih =>
      have hrun := isRun_exponent he
      rw [exponent_append]
      rcases ih with hnone | ⟨d, r, rfl, -, hd, hr, hsome⟩
      · have hclose : endedTerm? ('}' :: (w ++ s)) =
            if endsTerm (w ++ s) then some (['}'], w ++ s) else none := by
          rw [endedTerm?, if_pos (by decide), hnone]
        have hsplit : '^' :: '{' :: (e ++ ['}']) ++ w ++ s =
            '^' :: '{' :: e ++ '}' :: (w ++ s) := by
          simp
        rw [hsplit]
        cases hends : endsTerm (w ++ s) with
        | false =>
            rw [hends] at hclose
            exact .inl (endedTerm?_append_none (endsTerm_exponent he)
              (endsTerm_cons_eq_false (by decide) (by decide) _) hclose)
        | true =>
            rw [hends] at hclose
            have hfront : IsRun ('^' :: '{' :: e) := fun c hc => (hrun c (by
              rw [List.mem_cons, List.mem_cons] at hc ⊢
              exact hc.imp_right (Or.imp_right (List.mem_append_left _)))).1
            have hsome := endedTerm?_append_some hfront hclose
            have hexponent := Strand.exponent he .nil
            refine .inr ⟨_, w, rfl, by simp, ?_, hw, hsome⟩
            simpa using hexponent
      · have := endedTerm?_append_some (fun c hc => (hrun c hc).1) hsome
        rw [List.append_assoc]
        refine .inr ⟨_, r, (List.append_assoc ..).symm, by simp, ?_, hr, this⟩
        have hexponent := Strand.exponent he hd
        rwa [exponent_append] at hexponent
  | @sign c w hc hw ih =>
      rw [List.append_assoc]
      exact .inl (endedTerm?_times (isPlainChar_of_isExponentChar hc) (w ++ s))

/-! ## Products -/

/-- The first term of a product, and what stands behind it. -/
theorem Strand.exists_first (hw : Strand w) (hmem : '\\' ∈ w) : ∃ v c t,
    w = v ++ (Markup.times ++ c :: t) ∧ Strand v ∧ '\\' ∉ v ∧ Operator.isExponentChar c = true := by
  induction hw with
  | nil => cases hmem
  | @char c w hc _ ih =>
      obtain ⟨v, y, t, rfl, hv, hno, hy⟩ := ih ((List.mem_cons.1 hmem).resolve_left hc.2.1.symm)
      refine ⟨c :: v, y, t, rfl, .char hc hv, ?_, hy⟩
      rw [List.mem_cons, not_or]
      exact ⟨hc.2.1.symm, hno⟩
  | @exponent e w he _ ih =>
      have hno := fun h => (isRun_exponent he _ h).2 rfl
      rw [exponent_append] at hmem ⊢
      obtain ⟨v, y, t, rfl, hv, hnov, hy⟩ := ih ((List.mem_append.1 hmem).resolve_left hno)
      refine ⟨'^' :: '{' :: (e ++ ['}']) ++ v, y, t, (List.append_assoc ..).symm, ?_, ?_, hy⟩
      · have := Strand.exponent he hv
        rwa [exponent_append] at this
      · rw [List.mem_append, not_or]
        exact ⟨hno, hnov⟩
  | @sign c w hc _ _ => exact ⟨[], c, w, rfl, .nil, by simp, hc⟩

/-- The last term of a product, and what stands in front of it. -/
theorem Strand.exists_last (hw : Strand w) (hmem : '\\' ∈ w) : ∃ u v,
    w = u ++ ' ' :: v ∧ Whole u ∧ Strand v ∧ '\\' ∉ v ∧ v ≠ [] := by
  induction hw with
  | nil => cases hmem
  | @char c w hc _ ih =>
      obtain ⟨u, v, rfl, hu, hv⟩ := ih ((List.mem_cons.1 hmem).resolve_left hc.2.1.symm)
      exact ⟨c :: u, v, rfl, .char hc.2 hu, hv⟩
  | @exponent e w he _ ih =>
      have hno := fun h => (isRun_exponent he _ h).2 rfl
      rw [exponent_append] at hmem ⊢
      obtain ⟨u, v, rfl, hu, hv⟩ := ih ((List.mem_append.1 hmem).resolve_left hno)
      refine ⟨'^' :: '{' :: (e ++ ['}']) ++ u, v, (List.append_assoc ..).symm, ?_, hv⟩
      have := Whole.exponent (whole_of_isExponentChar he) hu
      rwa [exponent_append] at this
  | @sign c w hc hw ih =>
      have hfree := isFree_of_isExponentChar hc
      by_cases hno : '\\' ∈ w
      · obtain ⟨u, v, rfl, hu, hv⟩ := ih hno
        exact ⟨Markup.times ++ c :: u, v, by simp, whole_times (.char hfree.2 hu), hv⟩
      · have hsign := Whole.sign (w := Markup.timesSign) (.inl rfl) .nil
        rw [List.append_nil] at hsign
        refine ⟨Markup.timesSign, c :: w, by simp [Markup.times], hsign, .char hfree hw, ?_,
          by simp⟩
        rw [List.mem_cons, not_or]
        exact ⟨hfree.2.1.symm, hno⟩

end CalcTypeset.Complete
