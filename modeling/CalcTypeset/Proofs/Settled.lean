import CalcTypeset.Proofs.CallRule
import CalcTypeset.Proofs.Gauge
import CalcTypeset.Proofs.Idle

/-!
# Gauges that come to rest

What a pass moves about is an operand or an argument, and what it writes on both sides of it is
markup. A gauge that comes to rest in its lowest state at each piece of that markup does not mind
where the operand stands: what can be read at all can be read from there. So every pass eases it,
whatever the line holds.

Nor does such a gauge mind how wide a gap is.
-/

namespace CalcTypeset

open Text

namespace Gauge

variable {σ : Type} {G : Gauge σ} {rest q r : σ} {s t n d : Text}

/-- A gauge in which one state allows whatever any other does, and no two others are compared. -/
def flat (step : σ → Char → Option σ) (rest : σ)
    (h : ∀ {q r c}, step q c = some r → step rest c = some r ∨ step rest c = some rest) :
    Gauge σ where
  step := step
  le q q' := q = q' ∨ q = rest
  refl _ := .inl rfl
  trans := by
    rintro q₁ q₂ q₃ (rfl | rfl) h
    · exact h
    · exact .inr rfl
  mono {q q' r c} hle hstep := by
    rcases hle with rfl | rfl
    · exact ⟨r, hstep, .inl rfl⟩
    · rcases h hstep with hr | hrest
      · exact ⟨r, hr, .inl rfl⟩
      · exact ⟨_, hrest, .inr rfl⟩

/-- At a blank the gauge comes to rest, below all its states. -/
structure Rests (G : Gauge σ) (rest : σ) : Prop where
  least : ∀ q, G.le rest q
  blank : ∀ q {c}, isBlank c = true → G.step q c = some rest

/-- The gauge also comes to rest at a brace, at the opening of a fraction and at a product. -/
structure Settles (G : Gauge σ) (rest : σ) : Prop extends Rests G rest where
  opening : ∀ q, G.step q '\x7b' = some rest
  closing : ∀ q, G.step q '\x7d' = some rest
  fracOpen : ∀ q, G.follow q Markup.fracOpen = some rest
  star : ∀ q, G.follow q ['*'] = some rest
  times : ∀ q, G.follow q Markup.times = some rest

/-- The gauge also comes to rest at what is written on both sides of the argument of a call, in
front of it wherever the call can be read. -/
structure SettlesAtCalls (G : Gauge σ) (rest : σ) : Prop extends Settles G rest where
  front : ∀ {f : KnownFunction} {p q r}, p ∈ f.frames →
    G.follow q (f.name ++ ['(']) = some r → G.follow q p.1 = some rest
  back : ∀ {f : KnownFunction} {p}, p ∈ f.frames → ∀ q, G.follow q p.2 = some rest

/-! ## Where a gauge rests -/

/-- What can be read at all can be read from where the gauge rests. -/
theorem Rests.reads_iff (h : G.Rests rest) : G.Reads s ↔ ∃ r, G.follow rest s = some r := by
  refine ⟨fun ⟨q, r, hr⟩ => ?_, fun ⟨r, hr⟩ => ⟨rest, r, hr⟩⟩
  obtain ⟨r', hr', -⟩ := follow_mono (h.least q) hr
  exact ⟨r', hr'⟩

/-- What leaves the gauge at rest, wherever the text could be read, eases it. -/
theorem Rests.eases_of_follow (h : G.Rests rest)
    (ht : ∀ q r, G.follow q s = some r → G.follow q t = some rest) : G.Eases s t :=
  fun q r hs => ⟨rest, ht q r hs, h.least r⟩

theorem Rests.follow_squeezeAfter (h : G.Rests rest) (gap : Bool)
    (hs : G.follow (if gap then rest else q) s = some r) :
    ∃ r', G.follow q (squeezeAfter gap s) = some r' := by
  induction s generalizing gap q with
  | nil => exact ⟨q, rfl⟩
  | cons c s ih =>
      obtain ⟨m, hm, hr⟩ := Option.bind_eq_some_iff.1 hs
      obtain ⟨r', hr'⟩ := ih false hr
      rw [squeezeAfter]
      cases hc : isBlank c with
      | true =>
          obtain rfl := Option.some.inj ((h.blank _ hc).symm.trans hm)
          exact ih true hr
      | false =>
          cases gap with
          | true =>
              refine ⟨r', ?_⟩
              show G.follow q (' ' :: c :: squeezeAfter false s) = _
              rw [follow_cons, h.blank q (by decide), Option.bind_some, follow_cons]
              exact (congrArg (Option.bind · _) hm).trans hr'
          | false => exact ⟨r', (congrArg (Option.bind · _) hm).trans hr'⟩

/-- A text can still be read when its gaps are squeezed. -/
theorem Rests.reads_squeeze (h : G.Rests rest) (hs : G.Reads s) : G.Reads (squeeze s) := by
  obtain ⟨b, hb, -⟩ := skipBlanks_eq_append s
  obtain ⟨r, hr⟩ := h.reads_iff.1 (hs.of_isInfix ⟨b, [], by rw [List.append_nil]; exact hb.symm⟩)
  exact h.reads_iff.2 (h.follow_squeezeAfter false hr)

/-! ## Operands -/

theorem Settles.follow_braced (h : G.Settles rest) (ht : G.Reads t) (q : σ) :
    G.follow q (Markup.braced t) = some rest := by
  obtain ⟨r, hr⟩ := h.reads_iff.1 ht
  exact follow_wrapped_eq_some_iff.2 ⟨rest, r, h.opening q, hr, h.closing r⟩

theorem Settles.follow_frac (h : G.Settles rest) (hn : G.Reads n) (hd : G.Reads d) (q : σ) :
    G.follow q (Markup.frac n d) = some rest := by
  obtain ⟨m, hm⟩ := h.reads_iff.1 hn
  have hsplit : Markup.frac n d = Markup.fracOpen ++ (n ++ '}' :: Markup.braced d) := by
    rw [Fraction.frac_eq]
    rfl
  rw [hsplit, follow_append_of_some (h.fracOpen q), follow_append_of_some hm, follow_cons,
    h.closing, Option.bind_some, h.follow_braced hd]

theorem Settles.reads_of_taken (h : G.Settles rest) (ht : Fraction.Taken s t) (hs : G.Reads s) :
    G.Reads t := by
  cases ht with
  | whole => exact hs
  | bare => exact hs.of_isInfix ⟨['('], [')'], rfl⟩
  | @braced t =>
      obtain ⟨q, r, hr⟩ := hs
      obtain ⟨m, m', hm, ht, hr⟩ := follow_wrapped_eq_some_iff.1 hr
      obtain ⟨r', hr', -⟩ := G.mono (h.least m') hr
      exact ⟨q, r', follow_wrapped_eq_some_iff.2 ⟨m, rest, hm, h.follow_braced ⟨m, m', ht⟩ m, hr'⟩⟩

theorem Settles.eases_site (h : G.Settles rest) {r : Text} {q : Fraction.Quotient}
    (hsite : Fraction.IsSite s q r) : G.Eases s q.write := by
  obtain ⟨n, g, d, rfl, -, hn, -, hd, -⟩ := hsite
  refine h.eases_of_follow fun q₀ r₀ hs => ?_
  have hreads : G.Reads (n ++ g ++ d) := ⟨q₀, r₀, hs⟩
  exact h.follow_frac (h.reads_of_taken hn (hreads.of_isInfix ⟨[], g ++ d, by simp⟩))
    (h.reads_of_taken hd (hreads.of_isInfix ⟨n ++ g, [], by simp⟩)) q₀

/-! ## Passes -/

theorem Settles.admits (h : G.Settles rest) : Fraction.Admits G.Eases :=
  .of_products G.congruence_eases Eases.trans h.eases_site
    (h.eases_of_follow fun q _ _ => h.star q)
    (h.eases_of_follow fun q _ _ => h.times q)

theorem Settles.eases_starProducts (h : G.Settles rest) (s : Text) :
    G.Eases s (Fraction.starProducts s) :=
  Recogniser.replaceAll_rel G.congruence_eases (Recogniser.meets_literal _ _)
    (fun _ _ _ _ => h.eases_of_follow fun q _ _ => h.star q) s

theorem Settles.eases_unstarProducts (h : G.Settles rest) (s : Text) :
    G.Eases s (Fraction.unstarProducts s) :=
  Recogniser.replaceAll_rel G.congruence_eases (Recogniser.meets_single '*')
    (fun _ _ _ _ => h.eases_of_follow fun q _ _ => h.times q) s

theorem Settles.eases_rewrite (h : G.Settles rest) (style : CallStyle) (s : Text) :
    G.Eases s (Fraction.rewrite style s) := h.admits.rewrite style s

theorem Settles.eases_writeProducts (h : G.Settles rest) (s : Text) :
    G.Eases s (Operator.writeProducts s) :=
  Recogniser.replaceAll_rel G.congruence_eases (Operator.meets_infixSign '*')
    (fun _ _ _ _ => h.eases_of_follow fun q _ _ => h.times q) s

theorem Settles.eases_bracePowers (h : G.Settles rest) (s : Text) :
    G.Eases s (Operator.bracePowers s) := by
  refine Recogniser.replaceAll_rel G.congruence_eases Operator.meets_power ?_ s
  rintro w e r ⟨rfl, -⟩
  refine h.eases_of_follow fun q r hw => ?_
  obtain ⟨m, hm, he⟩ := Option.bind_eq_some_iff.1 hw
  rw [follow_cons, hm, Option.bind_some]
  exact h.follow_braced ⟨m, r, he⟩ m

theorem Settles.eases_prepare (h : G.Settles rest) (s : Text) :
    G.Eases s (Operator.prepare s) :=
  (h.eases_bracePowers s).trans (h.eases_writeProducts _)

theorem SettlesAtCalls.eases_typesetCalls (h : G.SettlesAtCalls rest) (f : KnownFunction)
    (s : Text) : G.Eases s (f.typesetCalls s) := by
  rw [f.typesetCalls_eq]
  refine WordRule.replaceAll_rel G.congruence_eases (Call.meets_closedCall f.name) ?_ s
  rintro w v t r - - ⟨rfl, rfl, -⟩
  obtain ⟨p, hp, heq⟩ := f.exists_frame t
  rw [heq]
  refine h.eases_of_follow fun q r hw => ?_
  replace hw : G.follow q (f.name ++ ['('] ++ (t ++ [')'])) = some r := by
    simpa [Markup.parenthesised] using hw
  obtain ⟨m, hm, hv⟩ := follow_append_eq_some_iff.1 hw
  have ht : G.Reads t := Reads.of_isInfix ⟨m, r, hv⟩ ⟨[], [')'], rfl⟩
  obtain ⟨m', hm'⟩ := h.reads_iff.1 ht
  have hfront : G.follow q (p.1 ++ t) = some m' := by
    rw [follow_append_of_some (h.front hp hm), hm']
  rw [follow_append_of_some hfront, h.back hp]

theorem SettlesAtCalls.eases_typesetEach (h : G.SettlesAtCalls rest) (s : Text) :
    G.Eases s (KnownFunction.typesetEach s) :=
  List.foldlRecOn KnownFunction.typesetOrder _ (.refl s) fun t ht f _ =>
    ht.trans (h.eases_typesetCalls f t)

end Gauge

end CalcTypeset
