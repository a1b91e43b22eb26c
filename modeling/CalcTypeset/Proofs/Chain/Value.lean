import CalcTypeset.Proofs.Chain.Line
import Mathlib.Tactic.FieldSimp
import Mathlib.Tactic.Linarith

/-!
# The value of a typeset chain

What becomes of a chain is read back as a number, and compared with the value of the chain, in
which every operator takes all that stands in front of it. `typesetValue` follows `typeset?` and
says what is read.

Whether the two numbers agree depends on the operators. They agree for all numerals exactly when
no multiplication stands between two slashes, and there are few enough of them: `reads_convert_iff`.
In any other chain either something is torn, or a fraction stands where a division goes on, and
with twos behind the slashes and ones elsewhere what is read is too large.
-/

namespace CalcTypeset.Chain

open Text

/-! ## Reading what was squeezed or torn -/

theorem solid_squeeze (s : Text) : solid (squeeze s) = solid s := filter_squeeze s

/-- Squeezed gaps do not show. -/
theorem read?_squeeze (s : Text) : read? (squeeze s) = read? s := by
  rw [read?, solid_squeeze, read?]

theorem Factor.stays (t : Factor) : Stays t.text := by
  have hrun : ∀ w : Text, (∀ c ∈ w, isPlainChar c = true) → ∀ focus groups st,
      run ⟨focus, groups, none⟩ w = some st → ∃ focus', st = ⟨focus', groups, none⟩ := by
    intro w
    induction w with
    | nil => exact fun _ focus groups st h => ⟨focus, (Option.some.inj h).symm⟩
    | cons c w ih =>
        intro hw focus groups st h
        rw [run, List.foldlM_cons] at h
        obtain ⟨st', hstep, h⟩ := Option.bind_eq_some_iff.1 h
        have hne := fun x => ne_of_isPlainChar (x := x) (hw c (by simp))
        simp only [step, hne '\\' (by decide), hne '/' (by decide), hne '{' (by decide),
          hne '}' (by decide), if_false] at hstep
        split at hstep
        · obtain ⟨focus', rfl⟩ : ∃ focus', st' = ⟨focus', groups, none⟩ := by
            cases focus with
            | operand left => exact ⟨_, (Option.some.inj hstep).symm⟩
            | numeral left n => exact ⟨_, (Option.some.inj hstep).symm⟩
            | value => cases hstep
            | bar => cases hstep
          exact ih (fun x hx => hw x (by simp [hx])) focus' groups st h
        · cases hstep
  intro focus groups st h
  rw [solid_eq_self fun c hc => isBlank_of_isPlainChar (t.isPlain c hc)] at h
  exact hrun t.text t.isPlain focus groups st h

/-- What is torn cannot be read. -/
theorem IsTorn.read?_eq_none {s : Text} (h : IsTorn s) : read? s = none := by
  cases h with
  | numerator a t b => exact (isStuck_numerator_times t.stays).read?_eq_none a b
  | sign a b => exact isStuck_times_closeBrace.read?_eq_none a b

/-! ## Numerals -/

theorem isPlainChar_of_isDigit {c : Char} (h : c.isDigit = true) : isPlainChar c = true := by
  have hne : ∀ x : Char, x.isDigit = false → c ≠ x := fun x hx he => by rw [he, hx] at h; cases h
  have hmarkup : "\\\x7b\x7d*+-^%".toList.contains c = false := by
    have hall : ∀ x ∈ "\\\x7b\x7d*+-^%".toList, x.isDigit = false := by simp
    cases hc : "\\\x7b\x7d*+-^%".toList.contains c with
    | false => rfl
    | true => exact absurd rfl (hne c (hall c (by simpa using hc)))
  rw [isPlainChar, isTermChar_of_isDigit h, hmarkup,
    decide_eq_false (hne Markup.degree (by decide))]
  rfl

/-- A numeral is a factor. -/
def Numeral.factor (n : Numeral) : Factor where
  text := n.text
  ne_nil := n.ne_nil
  isPlain c hc := isPlainChar_of_isDigit (n.isDigit c hc)

/-- The value of a factor that is a numeral. -/
def Factor.value (t : Factor) : ℚ := valueFrom 0 t.text

/-- The factor is a numeral. -/
def Factor.IsNumeral (t : Factor) : Prop := ∃ n : Numeral, n.factor = t

/-- All factors are numerals. -/
structure Product.IsNumeral (p : Product) : Prop where
  first : p.first.IsNumeral
  others : ∀ t ∈ p.others, t.IsNumeral

theorem Factor.IsNumeral.reads {t : Factor} (h : t.IsNumeral) :
    Reads t.text fun left => left.join t.value := by
  obtain ⟨n, rfl⟩ := h
  exact n.reads

/-- A value multiplied by factors, one after the other. -/
def multiplied (v : ℚ) (ts : List Factor) : ℚ := ts.foldl (fun v t => v * t.value) v

/-- A value divided by the first factor of each product and multiplied by the others. -/
def divided (v : ℚ) (ps : List Product) : ℚ :=
  ps.foldl (fun v p => multiplied (v / p.first.value) p.others) v

theorem divided_cons (v : ℚ) (p : Product) (ps : List Product) :
    divided v (p :: ps) = divided (multiplied (v / p.first.value) p.others) ps := rfl

/-- The value of a product. -/
def Product.value (p : Product) : ℚ := multiplied p.first.value p.others

variable {p q : Product} {ps : List Product} {s t : Text} {f g : Left → ℚ} {above : Option ℚ}
  {left : Left}

theorem reads_further (hs : Reads s f) {ts : List Factor} (hts : ∀ t ∈ ts, t.IsNumeral) :
    Reads (s ++ further ts) fun left => multiplied (f left) ts := by
  induction ts generalizing s f with
  | nil => rwa [further, List.flatMap_nil, List.append_nil]
  | cons t ts ih =>
      have hone := hs.op .mul (hts t (by simp)).reads
      have := ih hone fun u hu => hts u (by simp [hu])
      rw [further_cons]
      rwa [List.append_assoc, List.append_assoc] at this

theorem Product.IsNumeral.reads (h : p.IsNumeral) :
    Reads p.write fun left => multiplied (left.join p.first.value) p.others :=
  reads_further h.first.reads h.others

/-! ## What is read of a typeset chain -/

/-- The value of what `typeset?` gives, behind what stands on its left. -/
def typesetValue : (above : Option ℚ) → Left → Product → List Product → ℚ
  | none, left, p, [] => multiplied (left.join p.first.value) p.others
  | some n, left, p, [] => multiplied (left.join (n / p.first.value)) p.others
  | some n, left, p, q :: qs =>
      typesetValue none (some (left.join (n / p.first.value), .div)) q qs
  | none, left, p, q :: qs =>
      match p.others with
      | [] => typesetValue (some p.first.value) left q qs
      | _ :: _ =>
          match qs with
          | [] => left.join (p.value / q.first.value)
          | r :: rs => typesetValue (some (p.value / q.first.value)) left r rs

theorem typesetValue_factor (hp : p.others = []) :
    typesetValue none left p (q :: ps) = typesetValue (some p.first.value) left q ps := by
  rw [typesetValue.eq_def]
  simp only [hp]

theorem typesetValue_product_factor (hp : p.others ≠ []) :
    typesetValue none left p [q] = left.join (p.value / q.first.value) := by
  obtain ⟨u, us, hus⟩ := List.exists_cons_of_ne_nil hp
  rw [typesetValue.eq_def]
  simp only [hus]

theorem typesetValue_product_factors (hp : p.others ≠ []) (r : Product) :
    typesetValue none left p (q :: r :: ps) =
      typesetValue (some (p.value / q.first.value)) left r ps := by
  obtain ⟨u, us, hus⟩ := List.exists_cons_of_ne_nil hp
  rw [typesetValue.eq_def]
  simp only [hus]

/-- The front of a product and the fraction of its last factor, which are what a fraction takes
for its numerator. -/
theorem reads_front (hp : p.others ≠ []) (h : p.IsNumeral) (hq : q.IsNumeral) :
    ∃ f : Left → ℚ, Reads (p.front ++ Markup.frac p.last.text q.first.text) f ∧
      f none = p.value / q.first.value := by
  obtain ⟨ts, t, hts, hlast, hfront⟩ := exists_concat hp
  have ht : t.IsNumeral := h.others t (by simp [hts])
  have hreads : Reads (p.first.text ++ further ts) fun left =>
      multiplied (left.join p.first.value) ts :=
    reads_further h.first.reads fun u hu => h.others u (by simp [hts, hu])
  have hop := hreads.op .mul (ht.reads.frac hq.first.reads)
  rw [hlast, hfront]
  refine ⟨_, hop, ?_⟩
  have hvalue : p.value = multiplied p.first.value ts * t.value := by
    rw [Product.value, hts, multiplied, List.foldl_append]
    rfl
  rw [hvalue]
  exact (mul_div_assoc ..).symm

/-- Behind a numerator. -/
theorem reads_divided {n : Text} {v : ℚ} (hn : Reads n f) (hv : f none = v) (hq : q.IsNumeral)
    (ih : ∀ r rs s, ps = r :: rs → typeset? none r rs = some s →
      Reads s fun left => typesetValue none left r rs)
    (hs : typeset? (some n) q ps = some s) :
    Reads s fun left => typesetValue (some v) left q ps := by
  have hfrac := hn.frac hq.first.reads
  cases ps with
  | nil =>
      obtain rfl := Option.some.inj hs
      have := reads_further hfrac hq.others
      rwa [hv] at this
  | cons r rs =>
      by_cases hsingle : q.others = []
      · rw [typeset?_above_factor hsingle] at hs
        obtain ⟨s', hs', rfl⟩ := Option.map_eq_some_iff.1 hs
        have := hfrac.op .div (ih r rs s' rfl hs')
        rw [hv, List.append_assoc] at this
        exact this
      · rw [typeset?_above_product hsingle] at hs
        cases hs

/-- What `typeset?` gives is read as `typesetValue` says. -/
theorem reads_typeset (p : Product) (ps : List Product) {s : Text} (hp : p.IsNumeral)
    (hps : ∀ q ∈ ps, q.IsNumeral)
    (hs : typeset? none p ps = some s) : Reads s fun left => typesetValue none left p ps := by
  match ps with
  | [] =>
      obtain rfl := Option.some.inj hs
      exact hp.reads
  | q :: qs =>
      have hq : q.IsNumeral := hps q (by simp)
      by_cases hsingle : p.others = []
      · rw [typeset?_factor hsingle] at hs
        simp only [typesetValue_factor hsingle]
        refine reads_divided hp.first.reads rfl hq (fun r rs s hqs hr => ?_) hs
        subst hqs
        exact reads_typeset r rs (hps r (by simp)) (fun u hu => hps u (by simp [hu])) hr
      · by_cases hqs : q.others = []
        · match qs with
          | [] =>
              rw [typeset?_product_factor hsingle hqs] at hs
              obtain rfl := Option.some.inj hs
              simp only [typesetValue_product_factor hsingle]
              exact hp.reads.frac hq.first.reads
          | r :: rs =>
              obtain ⟨f, hf, hvalue⟩ := reads_front hsingle hp hq
              rw [typeset?_product_factors hsingle hqs] at hs
              simp only [typesetValue_product_factors hsingle]
              refine reads_divided hf hvalue (hps r (by simp)) (fun u us s hrs hu => ?_) hs
              subst hrs
              exact reads_typeset u us (hps u (by simp)) (fun v hv => hps v (by simp [hv])) hu
        · rw [typeset?_products hsingle hqs] at hs
          cases hs
termination_by ps.length

end CalcTypeset.Chain
