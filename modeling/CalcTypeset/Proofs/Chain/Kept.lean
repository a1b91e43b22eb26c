import CalcTypeset.Proofs.Chain.Value

/-!
# Which chains keep their value

A chain of numerals is typed without blanks, and its value is found from the left. This file tells
from the operators alone whether the typeset line has the same value: it has for all numerals when
the chain is at most two slashes in a row, or three behind a product, with multiplications in front
and behind, but not on both sides of a single slash (`reads_convert_iff`).

Otherwise a chain is torn, or a slash of it is written where a fraction stands on its right. Such a
slash divides by the whole fraction, when it should divide by the numerator alone, so what is read
is too large as soon as the denominator is more than one. The chain with twos behind its slashes
and ones elsewhere shows that, since in it each slash halves the value.
-/

namespace CalcTypeset.Chain

open Text

/-- A chain of numerals as it is typed. -/
structure Typed where
  first : Numeral
  rest : List (Op × Numeral)

namespace Typed

variable (l : Typed)

/-- The operators of the chain. -/
def ops : List Op := l.rest.map fun x => x.1

/-- The chain as a text. -/
def write : Text := l.first.text ++ l.rest.flatMap fun x => x.1.sign :: x.2.text

/-- The value of the chain, found from the left. -/
def value : ℚ := l.rest.foldl (fun v x => x.1.apply v x.2.value) l.first.value

/-- The operators and the numerals behind them, as factors. -/
def factors : List (Op × Factor) := l.rest.map fun x => (x.1, x.2.factor)

/-- The first product of the chain, up to its first slash. -/
def head : Product := (products l.first.factor l.factors).1

/-- The products behind the slashes of the chain. -/
def tail : List Product := (products l.first.factor l.factors).2

end Typed

variable {l : Typed} {p q : Product} {ps : List Product}

/-! ## The products of a chain -/

theorem first_products (t : Factor) (ts : List (Op × Factor)) : (products t ts).1.first = t := by
  cases ts with
  | nil => rfl
  | cons x ts =>
      obtain ⟨o, u⟩ := x
      cases o <;> rfl

theorem isNumeral_products {t : Factor} {ts : List (Op × Factor)} (ht : t.IsNumeral)
    (hts : ∀ x ∈ ts, x.2.IsNumeral) :
    (products t ts).1.IsNumeral ∧ ∀ q ∈ (products t ts).2, q.IsNumeral := by
  induction ts generalizing t with
  | nil => exact ⟨⟨ht, nofun⟩, nofun⟩
  | cons x ts ih =>
      obtain ⟨o, u⟩ := x
      obtain ⟨hp, hps⟩ := ih (hts (o, u) (by simp)) fun y hy => hts y (by simp [hy])
      cases o with
      | mul => exact ⟨⟨ht, List.forall_mem_cons.2 ⟨hp.first, hp.others⟩⟩, hps⟩
      | div => exact ⟨⟨ht, nofun⟩, List.forall_mem_cons.2 ⟨hp, hps⟩⟩

/-- Gathering the factors into products leaves the value as it is. -/
theorem foldl_apply (v : ℚ) (t : Factor) (ts : List (Op × Factor)) :
    ts.foldl (fun v x => x.1.apply v x.2.value) v =
      divided (multiplied v (products t ts).1.others) (products t ts).2 := by
  induction ts generalizing v t with
  | nil => rfl
  | cons x ts ih =>
      obtain ⟨o, u⟩ := x
      cases o with
      | mul =>
          have hothers : (products t ((.mul, u) :: ts)).1.others =
              u :: (products u ts).1.others := by
            rw [products, first_products]
          rw [hothers]
          exact ih (v * u.value) u
      | div =>
          have hrest : (products t ((.div, u) :: ts)).2 =
              (products u ts).1 :: (products u ts).2 := rfl
          rw [hrest, divided_cons, first_products]
          exact ih (v / u.value) u

theorem Typed.value_eq (l : Typed) : l.value = divided l.head.value l.tail := by
  have hvalue : ∀ (ts : List (Op × Numeral)) (v : ℚ),
      ts.foldl (fun v x => x.1.apply v x.2.value) v =
        (ts.map fun x => (x.1, x.2.factor)).foldl (fun v x => x.1.apply v x.2.value) v := by
    intro ts v
    rw [List.foldl_map]
    rfl
  have hfirst : l.head.first = l.first.factor := first_products _ _
  rw [Typed.value, hvalue, foldl_apply _ l.first.factor, Product.value, hfirst]
  rfl

/-- The line is read as `typesetValue` says when no fraction or product is torn, and not at all
otherwise. -/
theorem read?_convert (style : CallStyle) (l : Typed) :
    read? (Conversion.convert style l.write) =
      (typeset? none l.head l.tail).map fun _ => typesetValue none none l.head l.tail := by
  have hwrite : l.write = l.first.factor.text ++ typedTail l.factors := by
    rw [Typed.write, typedTail, Typed.factors, List.flatMap_map]
    rfl
  obtain ⟨s, hconvert, hs⟩ := exists_convert_typed style l.first.factor l.factors
  obtain ⟨hp, hps⟩ : l.head.IsNumeral ∧ ∀ q ∈ l.tail, q.IsNumeral := by
    refine isNumeral_products ⟨l.first, rfl⟩ fun x hx => ?_
    obtain ⟨y, -, rfl⟩ := List.mem_map.1 hx
    exact ⟨y.2, rfl⟩
  rw [hwrite, hconvert, read?_squeeze]
  change Becomes s (typeset? none l.head l.tail) at hs
  cases htypeset : typeset? none l.head l.tail with
  | none =>
      rw [htypeset] at hs
      exact hs.read?_eq_none
  | some s' =>
      rw [htypeset] at hs
      obtain rfl : s = s' := hs
      exact (reads_typeset l.head l.tail hp hps htypeset).read?_eq

/-! ## Where the signs stand -/

/-- The number of multiplication signs in front of the first slash, and behind each slash. -/
def signs : List Op → ℕ × List ℕ
  | [] => (0, [])
  | .mul :: ops => ((signs ops).1 + 1, (signs ops).2)
  | .div :: ops => (0, (signs ops).1 :: (signs ops).2)

/-- No product stands between two slashes, and few slashes follow each other. -/
def Fits : ℕ → List ℕ → Prop
  | _, [] => True
  | k, [m] => k = 0 ∨ m = 0
  | _, [m, _] => m = 0
  | k, [m, m', _] => 0 < k ∧ m = 0 ∧ m' = 0
  | _, _ => False

/-- Multiplications, then slashes in a row, then multiplications. There are at most three slashes,
a single one has no multiplication on one side, and three come behind a product. -/
def IsKept (ops : List Op) : Prop :=
  ∃ k j m, ops = List.replicate k .mul ++ List.replicate j .div ++ List.replicate m .mul ∧
    j ≤ 3 ∧ (j = 1 → k = 0 ∨ m = 0) ∧ (j = 3 → 0 < k)

theorem signs_replicate (k : ℕ) (ops : List Op) :
    signs (List.replicate k .mul ++ ops) = ((signs ops).1 + k, (signs ops).2) := by
  induction k with
  | zero => rfl
  | succ k ih =>
      rw [List.replicate_succ, List.cons_append, signs, ih]
      rfl

theorem ops_eq (ops : List Op) : ops = List.replicate (signs ops).1 .mul ++
    (signs ops).2.flatMap fun m => .div :: List.replicate m .mul := by
  induction ops with
  | nil => rfl
  | cons o ops ih =>
      cases o with
      | mul => rw [signs, List.replicate_succ, List.cons_append, ← ih]
      | div => rw [signs, List.flatMap_cons, List.replicate_zero, List.nil_append,
          List.cons_append, ← ih]

theorem isKept_iff (ops : List Op) : IsKept ops ↔ Fits (signs ops).1 (signs ops).2 := by
  constructor
  · rintro ⟨k, j, m, rfl, hj, hone, hthree⟩
    have hm : signs (List.replicate m .mul) = (m, []) := by
      have := signs_replicate m []
      rwa [List.append_nil, signs, Nat.zero_add] at this
    rw [List.append_assoc, signs_replicate]
    match j, hj with
    | 0, _ => rw [List.replicate_zero, List.nil_append, hm]; trivial
    | 1, _ =>
        rw [List.replicate_one, List.singleton_append, signs, hm, Nat.zero_add]
        exact hone rfl
    | 2, _ => simp [List.replicate, signs, hm, Fits]
    | 3, _ => simpa [List.replicate, signs, hm, Fits] using hthree rfl
  · intro h
    have hops := ops_eq ops
    match hks : (signs ops).2 with
    | [] => exact ⟨_, 0, 0, by simpa [hks] using hops, by simp⟩
    | [m] =>
        rw [hks] at h
        exact ⟨_, 1, m, by simpa [hks] using hops, by simp, fun _ => h, by simp⟩
    | [m, m'] =>
        rw [hks] at h
        obtain rfl : m = 0 := h
        exact ⟨_, 2, m', by simpa [hks] using hops, by simp⟩
    | [m, m', m''] =>
        rw [hks] at h
        obtain ⟨hk, rfl, rfl⟩ : _ ∧ m = 0 ∧ m' = 0 := h
        exact ⟨_, 3, m'', by simpa [hks] using hops, by simp, by simp, fun _ => hk⟩
    | _ :: _ :: _ :: _ :: _ =>
        rw [hks] at h
        exact h.elim

theorem signs_products (t : Factor) (ts : List (Op × Factor)) :
    signs (ts.map fun x => x.1) =
      ((products t ts).1.others.length, (products t ts).2.map fun q => q.others.length) := by
  induction ts generalizing t with
  | nil => rfl
  | cons x ts ih =>
      obtain ⟨o, u⟩ := x
      cases o with
      | mul => rw [List.map_cons, signs, ih u]; rfl
      | div => rw [List.map_cons, signs, ih u]; rfl

theorem Typed.signs_ops (l : Typed) :
    signs l.ops = (l.head.others.length, l.tail.map fun q => q.others.length) := by
  have hops : l.ops = l.factors.map fun x => x.1 := by
    rw [Typed.ops, Typed.factors, List.map_map]
    rfl
  rw [hops, signs_products l.first.factor]
  rfl

/-! ## Chains that keep their value -/

/-- Every fitting chain is typeset, and what is read is its value. -/
theorem Fits.typesetValue_eq (h : Fits p.others.length (ps.map fun q => q.others.length)) :
    (typeset? none p ps).isSome ∧ typesetValue none none p ps = divided p.value ps := by
  match ps with
  | [] => exact ⟨rfl, rfl⟩
  | [q] =>
      by_cases hp : p.others = []
      · rw [typeset?_factor hp, typesetValue_factor hp, Product.value, hp]
        exact ⟨rfl, rfl⟩
      · have hq : q.others = [] := List.length_eq_zero_iff.1
          (h.resolve_left fun hk => hp (List.length_eq_zero_iff.1 hk))
        rw [typeset?_product_factor hp hq, typesetValue_product_factor hp]
        refine ⟨rfl, ?_⟩
        rw [divided_cons, hq]
        rfl
  | [q, r] =>
      have hq : q.others = [] := List.length_eq_zero_iff.1 h
      by_cases hp : p.others = []
      · rw [typeset?_factor hp, typesetValue_factor hp, typeset?_above_factor hq, Product.value, hp,
          divided_cons, hq]
        exact ⟨rfl, rfl⟩
      · rw [typeset?_product_factors hp hq, typesetValue_product_factors hp,
          divided_cons, hq]
        exact ⟨rfl, rfl⟩
  | [q, r, u] =>
      obtain ⟨hk, hq, hr⟩ : _ ∧ q.others.length = 0 ∧ r.others.length = 0 := h
      have hp : p.others ≠ [] := List.length_pos_iff.1 hk
      have hq := List.length_eq_zero_iff.1 hq
      have hr := List.length_eq_zero_iff.1 hr
      rw [typeset?_product_factors hp hq, typesetValue_product_factors hp,
        typeset?_above_factor hr, divided_cons, divided_cons, hq, hr]
      exact ⟨rfl, rfl⟩
  | _ :: _ :: _ :: _ :: _ => exact h.elim

/-! ## Chains that do not -/

/-- A product that halves what stands in front of its slash. -/
def Halves (q : Product) : Prop := q.first.value = 2 ∧ ∀ t ∈ q.others, t.value = 1

theorem multiplied_ones {ts : List Factor} (h : ∀ t ∈ ts, t.value = 1) (v : ℚ) :
    multiplied v ts = v := by
  induction ts generalizing v with
  | nil => rfl
  | cons t ts ih =>
      have hone := h t (by simp)
      rw [multiplied, List.foldl_cons, hone, mul_one]
      exact ih (fun u hu => h u (by simp [hu])) v

theorem divided_halves (h : ∀ q ∈ ps, Halves q) (v : ℚ) : divided v ps = v / 2 ^ ps.length := by
  induction ps generalizing v with
  | nil => simp [divided]
  | cons q ps ih =>
      obtain ⟨hfirst, hothers⟩ := h q (by simp)
      rw [divided_cons, hfirst, multiplied_ones hothers, ih fun r hr => h r (by simp [hr]),
        List.length_cons, pow_succ, div_div, mul_comm]

/-- Behind a numerator, what is read is at least what it should be, and more when a further slash
follows the next one. -/
theorem le_divided_value (left : Left) (n : ℚ) (q : Product) (ps : List Product) (hq : Halves q)
    (hpos : 0 < left.join (n / 2))
    (ih : ∀ r rs v, ps = r :: rs → 0 < v →
      v / 2 ^ ps.length ≤ typesetValue none (some (v, .div)) r rs ∧
      (rs ≠ [] → v / 2 ^ ps.length < typesetValue none (some (v, .div)) r rs)) :
    left.join (n / 2) / 2 ^ ps.length ≤ typesetValue (some n) left q ps ∧
      (2 ≤ ps.length → left.join (n / 2) / 2 ^ ps.length < typesetValue (some n) left q ps) := by
  obtain ⟨hfirst, hothers⟩ := hq
  cases ps with
  | nil =>
      rw [typesetValue, hfirst, multiplied_ones hothers]
      simp
  | cons r rs =>
      rw [typesetValue, hfirst]
      obtain ⟨hle, hlt⟩ := ih r rs (left.join (n / 2)) rfl hpos
      refine ⟨hle, fun hlength => hlt fun hnil => ?_⟩
      rw [hnil] at hlength
      simp at hlength

theorem div_pow_lt {v : ℚ} (hv : 0 < v) {m n : ℕ} (h : m < n) : v / 2 ^ n < v / 2 ^ m :=
  div_lt_div_of_pos_left hv (pow_pos two_pos m) (pow_lt_pow_right₀ one_lt_two h)

theorem Halves.value (hq : Halves q) : q.value = 2 := by
  rw [Product.value, multiplied_ones hq.2, hq.1]

/-- Behind a slash, what is read is at least what it should be, and more when a further slash
follows: the fraction that begins there stands to the right of the slash. -/
theorem le_typesetValue (q : Product) (ps : List Product) {v : ℚ} (hq : Halves q)
    (hps : ∀ r ∈ ps, Halves r) (hv : 0 < v) :
    v / 2 ^ (ps.length + 1) ≤ typesetValue none (some (v, .div)) q ps ∧
      (ps ≠ [] → v / 2 ^ (ps.length + 1) < typesetValue none (some (v, .div)) q ps) := by
  cases ps with
  | nil =>
      have hjoin : Left.join (some (v, .div)) q.first.value = v / 2 := by rw [hq.1]; rfl
      rw [typesetValue, multiplied_ones hq.2, hjoin]
      simp
  | cons r rs =>
      have hr : Halves r := hps r (by simp)
      have hone : Left.join (some (v, .div)) (2 / 2) = v := by
        rw [div_self two_ne_zero]
        exact div_one v
      suffices v / 2 ^ (rs.length + 2) < typesetValue none (some (v, .div)) q (r :: rs) from
        ⟨this.le, fun _ => this⟩
      by_cases hsingle : q.others = []
      · have hle := (le_divided_value _ 2 r rs hr (by rwa [hone]) fun u us w hrs hw => by
          subst hrs
          exact le_typesetValue u us (hps u (by simp)) (fun x hx => hps x (by simp [hx])) hw).1
        rw [hone] at hle
        rw [typesetValue_factor hsingle, hq.1]
        exact (div_pow_lt hv (by omega)).trans_le hle
      · cases rs with
        | nil =>
            rw [typesetValue_product_factor hsingle, hq.value, hr.1, hone]
            have := div_pow_lt hv (m := 0) (n := 2) (by decide)
            rwa [pow_zero, div_one] at this
        | cons u us =>
            have htwo : Left.join (some (v, .div)) (2 / 2 / 2) = 2 * v := by
              rw [div_self two_ne_zero]
              show v / (1 / 2) = 2 * v
              rw [div_div_eq_mul_div, div_one, mul_comm]
            have hle := (le_divided_value (some (v, .div)) (2 / 2) u us
              (hps u (by simp)) (by rw [htwo]; linarith) fun x xs w hus hw => by
                subst hus
                exact le_typesetValue x xs (hps x (by simp)) (fun y hy => hps y (by simp [hy]))
                  hw).1
            rw [htwo] at hle
            rw [typesetValue_product_factors hsingle, hq.value, hr.1]
            refine ((div_pow_lt hv (m := us.length) ?_).trans_le ?_).trans_le hle
            · rw [List.length_cons]
              omega
            · exact div_le_div_of_nonneg_right (by linarith) (pow_pos two_pos _).le
termination_by ps.length

/-- A chain that does not fit is torn, or read as too large a number, when every slash should
halve its value. -/
theorem typesetValue_of_not_fits (hp : p.value = 1) (hps : ∀ q ∈ ps, Halves q)
    (h : ¬ Fits p.others.length (ps.map fun q => q.others.length)) :
    typeset? none p ps = none ∨ divided p.value ps < typesetValue none none p ps := by
  have hih : ∀ rs, (∀ q ∈ rs, Halves q) → ∀ r us (v : ℚ), rs = r :: us → 0 < v →
      v / 2 ^ rs.length ≤ typesetValue none (some (v, .div)) r us ∧
      (us ≠ [] → v / 2 ^ rs.length < typesetValue none (some (v, .div)) r us) := by
    rintro _ hrs r us v rfl hv
    exact le_typesetValue r us (hrs r (by simp)) (fun x hx => hrs x (by simp [hx])) hv
  have hhalf : ∀ (v : ℚ) (k : ℕ), v / 2 / 2 ^ k = v / 2 ^ (k + 1) := fun v k => by
    rw [div_div, pow_succ']
  rw [divided_halves hps, hp]
  by_cases hsingle : p.others = []
  · have hfirst : p.first.value = 1 := by rwa [Product.value, hsingle] at hp
    rcases ps with _ | ⟨q, _ | ⟨r, _ | ⟨u, us⟩⟩⟩
    · exact absurd trivial h
    · exact absurd (.inl (List.length_eq_zero_iff.2 hsingle)) h
    · have hq : q.others ≠ [] := fun hq => h (List.length_eq_zero_iff.2 hq)
      rw [typeset?_factor hsingle, typeset?_above_product hq]
      exact .inl rfl
    · have hlt := (le_divided_value none 1 q (r :: u :: us) (hps q (by simp))
          (by norm_num [Left.join]) (hih _ fun x hx => hps x (by simp [hx]))).2 (by simp)
      rw [typesetValue_factor hsingle, hfirst]
      exact .inr ((hhalf 1 _).symm.trans_lt hlt)
  · rcases ps with _ | ⟨q, _ | ⟨r, rs⟩⟩
    · exact absurd trivial h
    · have hq : q.others ≠ [] := fun hq => h (.inr (List.length_eq_zero_iff.2 hq))
      exact .inl (typeset?_products hsingle hq)
    · by_cases hq : q.others = []
      · rw [typeset?_product_factors hsingle hq, typesetValue_product_factors hsingle, hp,
          (hps q (by simp)).1]
        rcases rs with _ | ⟨u, _ | ⟨x, xs⟩⟩
        · exact absurd (List.length_eq_zero_iff.2 hq) h
        · have hr : r.others ≠ [] := fun hr => h ⟨List.length_pos_iff.2 hsingle,
            List.length_eq_zero_iff.2 hq, List.length_eq_zero_iff.2 hr⟩
          exact .inl (typeset?_above_product hr)
        · have hlt := (le_divided_value none (1 / 2) r (u :: x :: xs)
            (hps r (by simp)) (by norm_num [Left.join])
            (hih _ fun y hy => hps y (by simp [hy]))).2 (by simp)
          refine .inr (Eq.trans_lt ?_ hlt)
          exact ((hhalf (1 / 2) _).trans (hhalf 1 _)).symm
      · exact .inl (typeset?_products hsingle hq)

/-! ## The exact condition -/

/-- The numeral of one digit. -/
def digit (c : Char) (hc : c.isDigit = true) (hpos : 0 < digitValue c) : Numeral where
  text := [c]
  ne_nil := singleton_ne_nil c
  isDigit := List.forall_mem_singleton.2 hc
  pos := Nat.lt_of_lt_of_eq hpos (Nat.zero_add (digitValue c)).symm

def one : Numeral := digit '1' rfl (by decide)

def two : Numeral := digit '2' rfl (by decide)

/-- What stands behind an operator in a chain whose slashes halve its value. -/
def halver : Op → Numeral
  | .mul => one
  | .div => two

/-- The chain with the given operators whose slashes halve its value. -/
def halving (ops : List Op) : Typed where
  first := one
  rest := ops.map fun o => (o, halver o)

theorem value_one : one.factor.value = 1 := Nat.cast_one

theorem value_two : two.factor.value = 2 := rfl

theorem ops_halving (ops : List Op) : (halving ops).ops = ops := by
  rw [Typed.ops, halving, List.map_map]
  exact List.map_id ops

theorem halves_products (ops : List Op) (t : Factor) :
    (∀ u ∈ (products t (ops.map fun o => (o, (halver o).factor))).1.others, u.value = 1) ∧
      ∀ q ∈ (products t (ops.map fun o => (o, (halver o).factor))).2, Halves q := by
  induction ops generalizing t with
  | nil => exact ⟨List.forall_mem_nil _, List.forall_mem_nil _⟩
  | cons o ops ih =>
      obtain ⟨hothers, hps⟩ := ih (halver o).factor
      rw [List.map_cons]
      cases o with
      | mul =>
          rw [products, first_products]
          exact ⟨List.forall_mem_cons.2 ⟨value_one, hothers⟩, hps⟩
      | div =>
          rw [products]
          refine ⟨List.forall_mem_nil _, List.forall_mem_cons.2 ⟨⟨?_, hothers⟩, hps⟩⟩
          rw [first_products]
          exact value_two

theorem halves_halving (ops : List Op) :
    (halving ops).head.value = 1 ∧ ∀ q ∈ (halving ops).tail, Halves q := by
  have hfactors : (halving ops).factors = ops.map fun o => (o, (halver o).factor) := by
    rw [Typed.factors, halving, List.map_map]
    rfl
  obtain ⟨hothers, hps⟩ := halves_products ops one.factor
  rw [← hfactors] at hothers hps
  refine ⟨?_, hps⟩
  have hothers : ∀ u ∈ (halving ops).head.others, u.value = 1 := hothers
  have hfirst : (halving ops).head.first = one.factor := first_products _ _
  rw [Product.value, multiplied_ones hothers, hfirst]
  exact value_one

/-- The chains with given operators keep their value, whatever their numerals are, exactly when the
operators are of the form that `IsKept` tells. -/
theorem reads_convert_iff (style : CallStyle) (ops : List Op) :
    (∀ l : Typed, l.ops = ops → read? (Conversion.convert style l.write) = some l.value) ↔
      IsKept ops := by
  rw [isKept_iff]
  constructor
  · intro h
    by_contra hfits
    have hread := h (halving ops) (ops_halving ops)
    obtain ⟨hhead, htail⟩ := halves_halving ops
    have hsigns := (halving ops).signs_ops
    rw [ops_halving] at hsigns
    rw [hsigns] at hfits
    rw [read?_convert, Typed.value_eq] at hread
    rcases typesetValue_of_not_fits hhead htail hfits with hnone | hlt
    · rw [hnone] at hread
      cases hread
    · obtain ⟨s, -, hvalue⟩ := Option.map_eq_some_iff.1 hread
      exact absurd hvalue hlt.ne'
  · rintro hfits l rfl
    rw [l.signs_ops] at hfits
    obtain ⟨htypeset, hvalue⟩ := Fits.typesetValue_eq hfits
    obtain ⟨s, hs⟩ := Option.isSome_iff_exists.1 htypeset
    rw [read?_convert, Typed.value_eq, hs, ← hvalue]
    rfl

/-- A product behind a quotient of a product tears the fraction, and a third slash behind single
factors divides by a fraction: neither chain is read as its value. -/
theorem not_reads_convert :
    (∃ l : Typed, l.write = "2*3/4*5".toList ∧ l.value = 15 / 2 ∧
      ∀ style, read? (Conversion.convert style l.write) = none) ∧
    ∃ l : Typed, l.write = "2/3/5/7".toList ∧ l.value = 2 / 105 ∧
      ∀ style, read? (Conversion.convert style l.write) = some (14 / 15) := by
  let d (c : Char) (hc : c.isDigit = true ∧ 0 < digitValue c) := digit c hc.1 hc.2
  refine ⟨⟨⟨d '2' (by decide), [(.mul, d '3' (by decide)), (.div, d '4' (by decide)),
      (.mul, d '5' (by decide))]⟩, rfl, by decide +kernel,
      fun style => by cases style <;> decide +kernel⟩,
    ⟨⟨d '2' (by decide), [(.div, d '3' (by decide)), (.div, d '5' (by decide)),
      (.div, d '7' (by decide))]⟩, rfl, by decide +kernel,
      fun style => by cases style <;> decide +kernel⟩⟩

end CalcTypeset.Chain
