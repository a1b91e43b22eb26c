import CalcTypeset.Proofs.Balance

/-!
# Gauges

A gauge reads a line from left to right in states of its own, and gets stuck where the line breaks
its rule. Its states are ordered by what they allow. A rewriting eases a gauge when, from whatever
state the text could be read, its rewriting can be read too and ends at least as low; the relation
respects concatenation, so a pass eases a gauge as soon as every piece does that it takes.

The gauge that matters most is the stack of open brackets. Its states allow nothing of each other,
so what eases it ends with the same brackets open, and a line is well nested when the stack is
empty at its end.
-/

namespace CalcTypeset

open Text

/-- Reads a line character by character. What is read from a state is read from any state below
it, and ends below. -/
structure Gauge (σ : Type) where
  step : σ → Char → Option σ
  le : σ → σ → Prop
  refl : ∀ q, le q q
  trans : ∀ {q₁ q₂ q₃}, le q₁ q₂ → le q₂ q₃ → le q₁ q₃
  mono : ∀ {q q' r c}, le q' q → step q c = some r → ∃ r', step q' c = some r' ∧ le r' r

namespace Gauge

variable {σ : Type} (G : Gauge σ)

/-- The state behind a text; none when the gauge gets stuck in it. -/
def follow : σ → Text → Option σ
  | q, [] => some q
  | q, c :: s => (G.step q c).bind fun q => follow q s

variable {G} {q q' r : σ} {s s' s'' t t' : Text}

@[simp] theorem follow_nil : G.follow q [] = some q := rfl

theorem follow_cons (c : Char) (s : Text) :
    G.follow q (c :: s) = (G.step q c).bind fun q => G.follow q s := rfl

theorem follow_append (s t : Text) :
    G.follow q (s ++ t) = (G.follow q s).bind fun q => G.follow q t := by
  induction s generalizing q with
  | nil => rfl
  | cons c s ih =>
      rw [List.cons_append, follow_cons, follow_cons]
      cases G.step q c with
      | none => rfl
      | some q => exact ih

theorem follow_append_eq_some_iff :
    G.follow q (s ++ t) = some r ↔ ∃ m, G.follow q s = some m ∧ G.follow m t = some r := by
  rw [follow_append, Option.bind_eq_some_iff]

theorem follow_append_of_some (h : G.follow q s = some r) (t : Text) :
    G.follow q (s ++ t) = G.follow r t := by
  rw [follow_append, h, Option.bind_some]

theorem follow_mono (hle : G.le q' q) (h : G.follow q s = some r) :
    ∃ r', G.follow q' s = some r' ∧ G.le r' r := by
  induction s generalizing q q' with
  | nil =>
      obtain rfl : q = r := Option.some.inj h
      exact ⟨q', rfl, hle⟩
  | cons c s ih =>
      obtain ⟨m, hm, hr⟩ := Option.bind_eq_some_iff.1 h
      obtain ⟨m', hm', hle'⟩ := G.mono hle hm
      obtain ⟨r', hr', hle''⟩ := ih hle' hr
      exact ⟨r', by rw [follow_cons, hm', Option.bind_some, hr'], hle''⟩

/-- Characters that leave the state as it is may be read at any time. -/
theorem follow_of_idle (h : ∀ c ∈ s, G.step q c = some q) : G.follow q s = some q := by
  induction s with
  | nil => rfl
  | cons c s ih =>
      rw [follow_cons, h c (by simp), Option.bind_some]
      exact ih fun x hx => h x (by simp [hx])

theorem follow_wrapped (a b : Char) (q : σ) (s : Text) :
    G.follow q (a :: s ++ [b]) =
      ((G.step q a).bind fun m => G.follow m s).bind fun m => G.step m b := by
  rw [follow_append, follow_cons]
  cases (G.step q a).bind fun m => G.follow m s with
  | none => rfl
  | some m =>
      show (G.step m b).bind some = G.step m b
      cases G.step m b <;> rfl

theorem follow_wrapped_eq_some_iff {a b : Char} : G.follow q (a :: s ++ [b]) = some r ↔
    ∃ m m', G.step q a = some m ∧ G.follow m s = some m' ∧ G.step m' b = some r := by
  simp only [follow_wrapped, Option.bind_eq_some_iff]
  exact ⟨fun ⟨m', ⟨m, hm, hs⟩, hr⟩ => ⟨m, m', hm, hs, hr⟩,
    fun ⟨m, m', hm, hs, hr⟩ => ⟨m', ⟨m, hm, hs⟩, hr⟩⟩

/-- Only the characters count at which a state may change. -/
theorem follow_filter {test : Char → Bool} (h : ∀ q c, test c = false → G.step q c = some q)
    (q : σ) (s : Text) : G.follow q (s.filter test) = G.follow q s := by
  induction s generalizing q with
  | nil => rfl
  | cons c s ih =>
      cases hc : test c with
      | true =>
          rw [List.filter_cons_of_pos hc, follow_cons, follow_cons]
          cases G.step q c with
          | none => rfl
          | some q => exact ih q
      | false =>
          rw [List.filter_cons_of_neg (by simp [hc]), ih, follow_cons, h q c hc, Option.bind_some]

/-! ## Rewritings that ease a gauge -/

variable (G) in
/-- Where the text can be read, its rewriting can be read too and ends at least as low. -/
def Eases (s s' : Text) : Prop :=
  ∀ q r, G.follow q s = some r → ∃ r', G.follow q s' = some r' ∧ G.le r' r

theorem Eases.refl (s : Text) : G.Eases s s := fun _ r h => ⟨r, h, G.refl r⟩

theorem Eases.trans (h : G.Eases s s') (h' : G.Eases s' s'') : G.Eases s s'' := by
  intro q r hs
  obtain ⟨r', hr', hle⟩ := h q r hs
  obtain ⟨r'', hr'', hle'⟩ := h' q r' hr'
  exact ⟨r'', hr'', G.trans hle' hle⟩

theorem Eases.append (h : G.Eases s s') (h' : G.Eases t t') : G.Eases (s ++ t) (s' ++ t') := by
  intro q r hst
  obtain ⟨m, hm, hr⟩ := follow_append_eq_some_iff.1 hst
  obtain ⟨m', hm', hle⟩ := h q m hm
  obtain ⟨r', hr', hle'⟩ := h' m r hr
  obtain ⟨r'', hr'', hle''⟩ := follow_mono hle hr'
  exact ⟨r'', follow_append_eq_some_iff.2 ⟨m', hm', hr''⟩, G.trans hle'' hle'⟩

theorem congruence_eases (G : Gauge σ) : Text.Congruence G.Eases where
  refl := Eases.refl
  append := Eases.append

theorem eases_of_filter_eq {test : Char → Bool}
    (hidle : ∀ q c, test c = false → G.step q c = some q) (h : s'.filter test = s.filter test) :
    G.Eases s s' := fun q r hs =>
  ⟨r, by rwa [← follow_filter hidle, h, follow_filter hidle], G.refl r⟩

theorem eases_of_all [DecidableRel G.le]
    (h : ∀ q, ((G.follow q s).all fun r => (G.follow q s').any (G.le · r)) = true) :
    G.Eases s s' := by
  intro q r hs
  have hq := h q
  rw [hs, Option.all_some] at hq
  cases hs' : G.follow q s' with
  | none => rw [hs'] at hq; cases hq
  | some r' =>
      rw [hs', Option.any_some] at hq
      exact ⟨r', rfl, of_decide_eq_true hq⟩

/-- A scan leaves a text that can be read, when every step of it leads from a state that allows what
is left of the text to another one. -/
theorem follow_replaceAll {α : Type} {p : Recogniser α} {render : α → Text}
    (Allows : σ → Text → Prop)
    (hread : ∀ q s a r, p.read? s = some (a, r) → Allows q s →
      ∃ m, G.follow q (render a) = some m ∧ Allows m r)
    (hpass : ∀ q c s, p.read? (c :: s) = none → Allows q (c :: s) →
      ∃ m, G.step q c = some m ∧ Allows m s)
    (h : Allows q s) : ∃ r, G.follow q (p.replaceAll render s) = some r := by
  induction s using Recogniser.scan_induction p generalizing q with
  | nil => exact ⟨q, by rw [Recogniser.replaceAll_nil, follow_nil]⟩
  | read s a r hs ih =>
      obtain ⟨m, hm, hr⟩ := hread q s a r hs h
      obtain ⟨r', hr'⟩ := ih hr
      exact ⟨r', by rw [p.replaceAll_of_read render hs, follow_append_of_some hm, hr']⟩
  | pass c s hs ih =>
      obtain ⟨m, hm, hr⟩ := hpass q c s hs h
      obtain ⟨r', hr'⟩ := ih hr
      exact ⟨r', by rw [p.replaceAll_of_none render hs, follow_cons, hm, Option.bind_some, hr']⟩

variable (G) in
/-- The text can be read, in the state that suits it. -/
def Reads (s : Text) : Prop := ∃ q r, G.follow q s = some r

theorem Reads.of_isInfix (h : G.Reads s) (ht : t <:+: s) : G.Reads t := by
  obtain ⟨a, b, rfl⟩ := ht
  obtain ⟨q, r, h⟩ := h
  obtain ⟨m, hm, -⟩ := follow_append_eq_some_iff.1 h
  obtain ⟨m', -, hm'⟩ := follow_append_eq_some_iff.1 hm
  exact ⟨m', m, hm'⟩

theorem Reads.of_eases (h : G.Reads s) (hs : G.Eases s s') : G.Reads s' := by
  obtain ⟨q, r, h⟩ := h
  obtain ⟨r', hr', -⟩ := hs q r h
  exact ⟨q, r', hr'⟩

/-- Two gauges at once. -/
def prod {τ : Type} (G : Gauge σ) (H : Gauge τ) : Gauge (σ × τ) where
  step q c := (G.step q.1 c).bind fun r => (H.step q.2 c).map fun r' => (r, r')
  le q q' := G.le q.1 q'.1 ∧ H.le q.2 q'.2
  refl q := ⟨G.refl q.1, H.refl q.2⟩
  trans h h' := ⟨G.trans h.1 h'.1, H.trans h.2 h'.2⟩
  mono {q q' r c} hle hstep := by
    obtain ⟨r₁, h₁, hstep⟩ := Option.bind_eq_some_iff.1 hstep
    obtain ⟨r₂, h₂, rfl⟩ := Option.map_eq_some_iff.1 hstep
    obtain ⟨r₁', h₁', hle₁⟩ := G.mono hle.1 h₁
    obtain ⟨r₂', h₂', hle₂⟩ := H.mono hle.2 h₂
    exact ⟨(r₁', r₂'), by rw [h₁', h₂']; rfl, hle₁, hle₂⟩

theorem follow_prod_eq_some_iff {τ : Type} {H : Gauge τ} {q : σ × τ} {r : σ × τ} :
    (G.prod H).follow q s = some r ↔ G.follow q.1 s = some r.1 ∧ H.follow q.2 s = some r.2 := by
  induction s generalizing q with
  | nil => simp [Prod.ext_iff]
  | cons c s ih =>
      rw [follow_cons, follow_cons, follow_cons]
      show (((G.step q.1 c).bind fun r => (H.step q.2 c).map fun r' => (r, r')).bind _) = _ ↔ _
      cases G.step q.1 c with
      | none => simp
      | some a =>
          cases H.step q.2 c with
          | none => simp
          | some b => exact ih

theorem Eases.prod {τ : Type} {H : Gauge τ} (h : G.Eases s s') (h' : H.Eases s s') :
    (G.prod H).Eases s s' := by
  intro q r hs
  rw [follow_prod_eq_some_iff] at hs
  obtain ⟨r₁, h₁, hle₁⟩ := h q.1 r.1 hs.1
  obtain ⟨r₂, h₂, hle₂⟩ := h' q.2 r.2 hs.2
  exact ⟨(r₁, r₂), follow_prod_eq_some_iff.2 ⟨h₁, h₂⟩, hle₁, hle₂⟩

end Gauge

end CalcTypeset
