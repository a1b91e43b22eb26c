import CalcTypeset.Proofs.Chain.Factor
import CalcTypeset.Proofs.Sum.Locality

/-!
# Sums of products and quotients

The same sum is written in several ways on its way through the passes: its products with an
asterisk or a multiplication sign between the factors, and its quotients with a slash or as
fractions. A pass that rewrites each summand whatever stands behind it, and leaves the signs
between them as they are, turns one way of writing the sum into another; the passes over single
characters do so for the sums of every shape.
-/

namespace CalcTypeset.Argument

open Text Chain Fraction CalcTypeset.Sum

/-- A plain term without brackets, or a reference. -/
structure Term extends Factor where
  shape : ('[' ∉ text ∧ ']' ∉ text) ∨
    ∃ name, text = Reference.write name ∧ name ≠ [] ∧ ']' ∉ name

/-- A product of terms, the last of which is set apart, and the terms that it is divided by one after
the other. -/
structure Summand where
  front : List Term
  last : Term
  divisors : List Term

/-- A sign of addition or subtraction. -/
abbrev Sign := { c : Char // IsSign c }

/-- Summands with signs between them, each summand written by `w`. -/
def sum (w : Summand → Text) : Summand → List (Sign × Summand) → Text
  | e, [] => w e
  | e, (g, e') :: es => joined g.1 (w e) (sum w e' es)

/-! ## Ways of writing a summand -/

/-- Factors with `σ` behind each. -/
def led (σ : Text) (ts : List Term) : Text := ts.flatMap fun t => t.text ++ σ

/-- Divisors with a slash in front of each. -/
def slashes (ds : List Term) : Text := ds.flatMap fun d => '/' :: d.text

/-- A run over the first divisor, the second divisor over the third, and so on. Every other slash
stays. -/
def paired : Text → List Term → Text
  | w, [] => w
  | w, [d] => Markup.frac w d.text
  | w, d :: d' :: ds => Markup.frac w d.text ++ '/' :: paired d'.text ds

/-- The product with `σ` between its factors. -/
def Summand.product (σ : Text) (e : Summand) : Text := led σ e.front ++ e.last.text

/-- The product with its divisors behind slashes. -/
def Summand.slashed (σ : Text) (e : Summand) : Text := e.product σ ++ slashes e.divisors

/-- What the fraction of a product opens with; nothing when there is one factor or no divisor. -/
def Summand.bar (e : Summand) : Text :=
  match e.front, e.divisors with
  | _ :: _, _ :: _ => Markup.fracOpen
  | _, _ => []

/-- What stands in front of the last factor when the product is divided as a whole. -/
def Summand.lead (σ : Text) (e : Summand) : Text := e.bar ++ led σ e.front

/-- The last factor, with the divisor below its product when there is one already. -/
def Summand.run (e : Summand) : Text :=
  match e.front, e.divisors with
  | _ :: _, d :: _ => e.last.text ++ '}' :: '{' :: (d.text ++ ['}'])
  | _, _ => e.last.text

/-- The divisors that are not below a product. -/
def Summand.pending (e : Summand) : List Term :=
  match e.front, e.divisors with
  | _ :: _, _ :: ds => ds
  | _, ds => ds

/-- The product over its first divisor when there are two factors or more. -/
def Summand.halfway (σ : Text) (e : Summand) : Text := e.lead σ ++ (e.run ++ slashes e.pending)

/-- The product over its divisors, as far as they are divided. -/
def Summand.divided (σ : Text) (e : Summand) : Text := e.lead σ ++ paired e.run e.pending

/-- The summand as it is typed. -/
def Summand.typed : Summand → Text := Summand.slashed ['*']

/-- The text begins with a plain character or with a command. -/
def Begins (s : Text) : Prop := ∃ c r, s = c :: r ∧ (isPlainChar c = true ∨ c = '\\')

variable {s u v σ σ' : Text} {c : Char} {w w' : Summand → Text} {F : Text → Text}

theorem Begins.isSolidHead (h : Begins s) : IsSolidHead s := by
  obtain ⟨c, r, rfl, hc | rfl⟩ := h
  · exact ⟨c, r, rfl, isBlank_of_isPlainChar hc, ne_of_isPlainChar hc (by decide)⟩
  · exact ⟨'\\', r, rfl, by decide, by decide⟩

theorem Begins.append (h : Begins s) (r : Text) : Begins (s ++ r) := by
  obtain ⟨c, x, rfl, hc⟩ := h
  exact ⟨c, x ++ r, rfl, hc⟩

theorem Term.exists_plain (t : Term) (r : Text) :
    ∃ c x, t.text ++ r = c :: x ∧ isPlainChar c = true := by
  obtain ⟨c, x, h, hc, -⟩ := t.exists_cons
  exact ⟨c, x ++ r, by rw [h]; rfl, hc⟩

theorem Begins.led_append (h : Begins s) (σ : Text) (ts : List Term) : Begins (led σ ts ++ s) := by
  cases ts with
  | nil => exact h
  | cons t ts =>
      obtain ⟨c, x, hx, hc⟩ := t.exists_plain (σ ++ (led σ ts ++ s))
      refine ⟨c, x, ?_, .inl hc⟩
      rw [← hx]
      simp [led]

theorem begins_term (t : Term) (r : Text) : Begins (t.text ++ r) := by
  obtain ⟨c, x, h, hc⟩ := t.exists_plain r
  exact ⟨c, x, h, .inl hc⟩

theorem begins_slashed (σ : Text) (e : Summand) : Begins (e.slashed σ) := by
  rw [Summand.slashed, Summand.product, List.append_assoc]
  exact (begins_term e.last _).led_append σ e.front

theorem Summand.begins_run (e : Summand) : Begins e.run := by
  have hlast : Begins e.last.text := by simpa using begins_term e.last []
  rw [run]
  split
  · exact begins_term e.last _
  · exact hlast

theorem begins_paired {w : Text} (hw : Begins w) (ds : List Term) : Begins (paired w ds) := by
  match ds with
  | [] => exact hw
  | [d] => exact ⟨'\\', _, rfl, .inr rfl⟩
  | d :: d' :: ds => exact ⟨'\\', _, rfl, .inr rfl⟩

theorem Begins.lead_append (h : Begins s) (σ : Text) (e : Summand) : Begins (e.lead σ ++ s) := by
  rw [Summand.lead, Summand.bar]
  split
  · exact ⟨'\\', _, rfl, .inr rfl⟩
  · exact h.led_append σ e.front

theorem begins_halfway (σ : Text) (e : Summand) : Begins (e.halfway σ) :=
  (e.begins_run.append _).lead_append σ e

theorem begins_divided (σ : Text) (e : Summand) : Begins (e.divided σ) :=
  (begins_paired e.begins_run e.pending).lead_append σ e

theorem slashes_cons_append (d : Term) (ds : List Term) (r : Text) :
    slashes (d :: ds) ++ r = '/' :: (d.text ++ (slashes ds ++ r)) := by
  simp [slashes]

/-! ## The characters of a summand -/

theorem mem_led {ts : List Term} (h : c ∈ led σ ts) : isPlainChar c = true ∨ c ∈ σ := by
  obtain ⟨t, -, hc⟩ := List.mem_flatMap.1 h
  exact (List.mem_append.1 hc).imp_left (t.isPlain c)

theorem mem_slashes {ds : List Term} (h : c ∈ slashes ds) : isPlainChar c = true ∨ c = '/' := by
  obtain ⟨d, -, hc⟩ := List.mem_flatMap.1 h
  exact (List.mem_cons.1 hc).symm.imp_left (d.isPlain c)

theorem mem_slashed {e : Summand} (h : c ∈ e.slashed σ) :
    isPlainChar c = true ∨ c = '/' ∨ c ∈ σ := by
  rcases List.mem_append.1 h with h | h
  · rcases List.mem_append.1 h with h | h
    · exact (mem_led h).imp_right .inr
    · exact .inl (e.last.isPlain c h)
  · exact (mem_slashes h).imp_right .inl

theorem mem_paired {w : Text} {ds : List Term} (h : c ∈ paired w ds) :
    c ∈ w ∨ isPlainChar c = true ∨ c ∈ '/' :: fractionChars := by
  have hfrac : ∀ {w : Text} {d : Term}, c ∈ Markup.frac w d.text →
      c ∈ w ∨ isPlainChar c = true ∨ c ∈ '/' :: fractionChars := by
    intro w d h
    rcases mem_frac h with h | h | h
    · exact .inl h
    · exact .inr (.inl (d.isPlain c h))
    · exact .inr (.inr (List.mem_cons_of_mem _ h))
  induction w, ds using paired.induct with
  | case1 w => exact .inl h
  | case2 w d => exact hfrac h
  | case3 w d d' ds ih =>
      rcases List.mem_append.1 h with h | h
      · exact hfrac h
      · rcases List.mem_cons.1 h with rfl | h
        · exact .inr (.inr (by simp))
        · exact (ih h).elim (fun h => .inr (.inl (d'.isPlain c h))) .inr

theorem Summand.mem_run {e : Summand} (h : c ∈ e.run) :
    isPlainChar c = true ∨ c ∈ fractionChars := by
  rw [run] at h
  split at h
  · next _ _ d _ _ _ =>
      rcases List.mem_append.1 h with h | h
      · exact .inl (e.last.isPlain c h)
      · simp only [List.mem_cons, List.mem_append, List.not_mem_nil, or_false] at h
        rcases h with rfl | rfl | h | rfl
        · exact .inr (by decide)
        · exact .inr (by decide)
        · exact .inl (d.isPlain c h)
        · exact .inr (by decide)
  · exact .inl (e.last.isPlain c h)

theorem mem_paired_run {e : Summand} (h : c ∈ paired e.run e.pending) :
    isPlainChar c = true ∨ c ∈ '/' :: fractionChars :=
  (mem_paired h).elim (fun h => (Summand.mem_run h).imp_right (List.mem_cons_of_mem _)) id

theorem mem_bar {e : Summand} (h : c ∈ e.bar) : c ∈ fractionChars := by
  have hopen : ∀ c ∈ Markup.fracOpen, c ∈ fractionChars := by decide
  rw [Summand.bar] at h
  split at h
  · exact hopen c h
  · cases h

theorem mem_lead {e : Summand} (h : c ∈ e.lead σ) :
    isPlainChar c = true ∨ c ∈ fractionChars ∨ c ∈ σ :=
  (List.mem_append.1 h).elim (fun h => .inr (.inl (mem_bar h))) fun h => (mem_led h).imp_right .inr

/-! ## Passes over a sum -/

/-- What stands behind a summand of a sum that `u` follows: `u`, or a sign and a further summand. -/
inductive IsTail (w : Summand → Text) (u : Text) : Text → Prop where
  | last : IsTail w u u
  | sign (g : Sign) (e : Summand) (r : Text) : IsTail w u (tail g.1 (w e ++ r))

/-- In front of `u` the pass rewrites each summand on its own, and leaves the signs alone. -/
structure Distributes (F : Text → Text) (w w' : Summand → Text) (u : Text) : Prop where
  sign : ∀ (g : Sign) e r, F (tail g.1 (w e ++ r)) = tail g.1 (F (w e ++ r))
  summand : ∀ e {v}, IsTail w u v → F (w e ++ v) = w' e ++ F v

theorem exists_sum_eq (w : Summand → Text) (e : Summand) (es : List (Sign × Summand)) :
    ∃ r, sum w e es = w e ++ r := by
  cases es with
  | nil => exact ⟨[], (List.append_nil _).symm⟩
  | cons x es => exact ⟨_, rfl⟩

theorem Distributes.sum_append (h : Distributes F w w' u) (e : Summand)
    (es : List (Sign × Summand)) : F (sum w e es ++ u) = sum w' e es ++ F u := by
  induction es generalizing e with
  | nil => exact h.summand e .last
  | cons x es ih =>
      obtain ⟨g, e'⟩ := x
      obtain ⟨r, hr⟩ := exists_sum_eq w e' es
      have hcons : ∀ w u, sum w e ((g, e') :: es) ++ u = w e ++ tail g.1 (sum w e' es ++ u) := by
        intro w u
        simp [sum, joined]
      have htail : tail g.1 (sum w e' es ++ u) = tail g.1 (w e' ++ (r ++ u)) := by
        rw [hr, List.append_assoc]
      rw [hcons, hcons, htail, h.summand e (.sign g e' _), h.sign, ← List.append_assoc, ← hr, ih]

theorem Distributes.sum_eq (h : Distributes F w w' []) (hnil : F [] = []) (e : Summand)
    (es : List (Sign × Summand)) : F (sum w e es) = sum w' e es := by
  have := h.sum_append e es
  rwa [List.append_nil, hnil, List.append_nil] at this

/-- The pass keeps plain characters and those of `K`, and turns one sign between factors into
another. -/
structure Turns (F : Text → Text) (K σ σ' : Text) : Prop where
  keep : ∀ {c}, isPlainChar c = true ∨ c ∈ K → ∀ s, F (c :: s) = c :: F s
  factor : ∀ {s}, IsSolidHead s → F (σ ++ s) = σ' ++ F s
  sign : ∀ (g : Sign) {s}, Begins s → F (tail g.1 s) = tail g.1 (F s)

namespace Turns

variable {K : Text}

theorem append (h : Turns F K σ σ') {x : Text} (hx : ∀ c ∈ x, isPlainChar c = true ∨ c ∈ K)
    (s : Text) : F (x ++ s) = x ++ F s := by
  induction x with
  | nil => rfl
  | cons c x ih =>
      rw [List.cons_append, h.keep (hx c (by simp)), ih fun y hy => hx y (by simp [hy])]
      rfl

theorem term (h : Turns F K σ σ') (t : Term) (s : Text) : F (t.text ++ s) = t.text ++ F s :=
  h.append (fun c hc => .inl (t.isPlain c hc)) s

theorem led (h : Turns F K σ σ') (ts : List Term) (hs : IsSolidHead s) :
    F (led σ ts ++ s) = Argument.led σ' ts ++ F s := by
  induction ts with
  | nil => rfl
  | cons t ts ih =>
      have hsolid : IsSolidHead (Argument.led σ ts ++ s) := by
        cases ts with
        | nil => exact hs
        | cons u us =>
            have := u.isSolidHead (σ ++ (Argument.led σ us ++ s))
            simpa [Argument.led] using this
      have hcons : ∀ σ (r : Text), Argument.led σ (t :: ts) ++ r =
          t.text ++ (σ ++ (Argument.led σ ts ++ r)) := by simp [Argument.led]
      rw [hcons, hcons, h.term, h.factor hsolid, ih]

theorem slashed (h : Turns F K σ σ') (hK : '/' ∈ K) (e : Summand) (s : Text) :
    F (e.slashed σ ++ s) = e.slashed σ' ++ F s := by
  have hslashes : ∀ c ∈ slashes e.divisors, isPlainChar c = true ∨ c ∈ K := by
    intro c hc
    obtain ⟨d, -, hc⟩ := List.mem_flatMap.1 hc
    rcases List.mem_cons.1 hc with rfl | hc
    · exact .inr hK
    · exact .inl (d.isPlain c hc)
  simp only [Summand.slashed, Summand.product, List.append_assoc]
  rw [h.led _ (e.last.isSolidHead _), h.term, h.append hslashes]

theorem divided (h : Turns F K σ σ')
    (hK : ∀ c ∈ '/' :: fractionChars, isPlainChar c = true ∨ c ∈ K) (e : Summand) (s : Text) :
    F (e.divided σ ++ s) = e.divided σ' ++ F s := by
  have hpaired : ∀ c ∈ paired e.run e.pending, isPlainChar c = true ∨ c ∈ K := fun c hc =>
    (mem_paired_run hc).elim .inl (hK c)
  have hsolid : IsSolidHead (paired e.run e.pending ++ s) :=
    ((begins_paired e.begins_run e.pending).append s).isSolidHead
  have hbar : ∀ c ∈ e.bar, isPlainChar c = true ∨ c ∈ K := fun c hc =>
    hK c (List.mem_cons_of_mem _ (mem_bar hc))
  simp only [Summand.divided, Summand.lead, List.append_assoc]
  rw [h.append hbar, h.led _ hsolid, h.append hpaired]

theorem distributes (h : Turns F K σ σ') (hw : ∀ e s, F (w e ++ s) = w' e ++ F s)
    (hbegins : ∀ e, Begins (w e)) (u : Text) : Distributes F w w' u where
  sign g e r := h.sign g ((hbegins e).append r)
  summand e v _ := hw e v

/-- Of a call the pass rewrites the sum in it. -/
theorem call (h : Turns F K σ σ') (hround : '(' ∈ K ∧ ')' ∈ K) (hnil : F [] = [])
    (hw : ∀ e s, F (w e ++ s) = w' e ++ F s) (hbegins : ∀ e, Begins (w e)) {name : Text}
    (hname : IsPlain name) (e : Summand) (es : List (Sign × Summand)) :
    F (Call.write ⟨name, sum w e es⟩) = Call.write ⟨name, sum w' e es⟩ := by
  have hcall : ∀ w, Call.write ⟨name, sum w e es⟩ = name ++ '(' :: (sum w e es ++ [')']) :=
    fun _ => rfl
  rw [hcall, hcall, h.append fun c hc => .inl (hname c hc), h.keep (.inr hround.1),
    (h.distributes hw hbegins [')']).sum_append, h.keep (.inr hround.2), hnil]

end Turns

/-! ## The characters of a sum -/

/-- A plain character, a blank or sign between summands, or a character of the markup. -/
def isSumChar (c : Char) : Bool := isPlainChar c || " +-*/\\\x7b\x7d".toList.contains c

/-- All characters are those of a sum. -/
def HasSumChars (s : Text) : Prop := ∀ c ∈ s, isSumChar c = true

theorem HasSumChars.append (hs : HasSumChars s) (hv : HasSumChars v) : HasSumChars (s ++ v) :=
  fun c hc => (List.mem_append.1 hc).elim (hs c) (hv c)

theorem HasSumChars.not_mem (hs : HasSumChars s) (hc : isSumChar c = false) : c ∉ s := by
  intro hmem
  rw [hs c hmem] at hc
  cases hc

theorem isSumChar_of_isPlainChar (h : isPlainChar c = true) : isSumChar c = true := by
  rw [isSumChar, h]
  rfl

theorem hasSumChars_slashed (hσ : HasSumChars σ) (e : Summand) : HasSumChars (e.slashed σ) := by
  intro c hc
  rcases mem_slashed hc with hc | rfl | hc
  · exact isSumChar_of_isPlainChar hc
  · decide
  · exact hσ c hc

theorem hasSumChars_divided (hσ : HasSumChars σ) (e : Summand) : HasSumChars (e.divided σ) := by
  have hfraction : ∀ c ∈ '/' :: fractionChars, isSumChar c = true := by decide
  intro c hc
  rcases List.mem_append.1 hc with hc | hc
  · rcases mem_lead hc with hc | hc | hc
    · exact isSumChar_of_isPlainChar hc
    · exact hfraction c (List.mem_cons_of_mem _ hc)
    · exact hσ c hc
  · exact (mem_paired_run hc).elim isSumChar_of_isPlainChar (hfraction c)

theorem hasSumChars_sum (hw : ∀ e, HasSumChars (w e)) (e : Summand) (es : List (Sign × Summand)) :
    HasSumChars (sum w e es) := by
  induction es generalizing e with
  | nil => exact hw e
  | cons x es ih =>
      obtain ⟨g, e'⟩ := x
      have hsign : HasSumChars [' ', g.1, ' '] := by
        obtain ⟨g, rfl | rfl⟩ := g <;> unfold HasSumChars <;> decide
      exact (hw e).append (hsign.append (ih e'))

end CalcTypeset.Argument
