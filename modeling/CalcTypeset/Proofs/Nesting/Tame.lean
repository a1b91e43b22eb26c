import CalcTypeset.Proofs.Nesting.Stack

/-!
# Tame lines

The patterns for groups and calls end at the first closing parenthesis, whatever opens inside. They
read what they should where no group is divided that stands in another one, and none divides that
holds another one. Four gauges say so, and what else keeps the patterns right: no parentheses stand
in a reference, which is taken as it is, nor in braces behind a caret.

None of the gauges minds what the passes write from there to the typesetting of calls, so a line
that is tame once its constants are symbols stays so.
-/

namespace CalcTypeset

open Text

/-- The text behind the caret of a power: a run of exponent characters, a sign in front or not. -/
def Operator.IsExponent (e : Text) : Prop :=
  ∃ v, v ≠ [] ∧ (∀ c ∈ v, isExponentChar c = true) ∧ (e = v ∨ e = '-' :: v)

theorem Operator.IsExponent.not_mem {e : Text} (h : IsExponent e) :
    ∀ c ∈ e, c ∉ ['^', '(', ')', '/', '{', '}'] := by
  have hspecial : ∀ c ∈ ['^', '(', ')', '/', '{', '}'], isExponentChar c = false := by decide
  have hchar : ∀ {c}, isExponentChar c = true → c ∉ ['^', '(', ')', '/', '{', '}'] := by
    intro c hc hmem
    rw [hspecial c hmem] at hc
    cases hc
  obtain ⟨v, -, hv, rfl | rfl⟩ := h
  · exact fun c hc => hchar (hv c hc)
  · exact List.forall_mem_cons.2 ⟨by decide, fun c hc => hchar (hv c hc)⟩

namespace Gauge

variable {σ : Type}

/-- Parentheses may go from between braces when the gauge reads their content without them. -/
theorem eases_unwrap {G : Gauge σ} {t : Text}
    (h : ∀ {q q₁ q₂ q₃ q₄ r}, G.step q '{' = some q₁ → G.step q₁ '(' = some q₂ →
      G.follow q₂ t = some q₃ → G.step q₃ ')' = some q₄ → G.step q₄ '}' = some r →
      ∃ m r', G.follow q₁ t = some m ∧ G.step m '}' = some r' ∧ G.le r' r) :
    G.Eases (Markup.braced (Markup.parenthesised t)) (Markup.braced t) := by
  intro q r hread
  obtain ⟨q₁, q₄, hbrace, hgroup, hend⟩ := follow_wrapped_eq_some_iff.1 hread
  obtain ⟨q₂, q₃, hopen, ht, hclose⟩ := follow_wrapped_eq_some_iff.1 hgroup
  obtain ⟨m, r', hm, hr', hle⟩ := h hbrace hopen ht hclose hend
  exact ⟨r', follow_wrapped_eq_some_iff.2 ⟨q₁, m, hbrace, hm, hr'⟩, hle⟩

/-- What the passes write between the constants and the calls does not disturb the gauge. -/
structure Tolerates (G : Gauge σ) : Prop where
  blank : ∀ q {c}, isBlank c = true → G.step q c = some q
  frac : G.Eases [] Markup.fracOpen
  close : G.Eases [] ['}']
  slash : G.Eases ['/'] ['}', '{']
  unwrap : ∀ {t}, Bracket.Kind.round.IsNeutral t →
    G.Eases (Markup.braced (Markup.parenthesised t)) (Markup.braced t)
  wrap : G.Eases ['('] ['(', '{']
  product : G.Eases ['*'] Markup.times
  star : G.Eases Markup.timesSign ['*']
  power : ∀ {e}, Operator.IsExponent e → G.Eases ('^' :: e) ('^' :: Markup.braced e)

theorem Tolerates.prod {τ : Type} {G : Gauge σ} {H : Gauge τ} (h : G.Tolerates)
    (h' : H.Tolerates) : (G.prod H).Tolerates where
  blank q c hc := by
    show ((G.step q.1 c).bind fun r => (H.step q.2 c).map fun r' => (r, r')) = some q
    rw [h.blank _ hc, h'.blank _ hc]
    rfl
  frac := h.frac.prod h'.frac
  close := h.close.prod h'.close
  slash := h.slash.prod h'.slash
  unwrap ht := (h.unwrap ht).prod (h'.unwrap ht)
  wrap := h.wrap.prod h'.wrap
  product := h.product.prod h'.product
  star := h.star.prod h'.star
  power he := (h.power he).prod (h'.power he)

end Gauge

namespace Nesting

open CalcTypeset.Bracket Operator

theorem isNeutral_braced {t : Text} (h : Kind.round.IsNeutral t) :
    Kind.round.IsNeutral (Markup.braced t) :=
  (show Kind.round.IsNeutral ['{'] by decide).append (h.append (t := ['}']) (by decide))

theorem isNeutral_of_isExponent {e : Text} (h : IsExponent e) : Kind.round.IsNeutral e := by
  intro c hc
  have hne := h.not_mem c hc
  simp only [List.mem_cons, List.not_mem_nil, or_false, not_or] at hne
  exact ⟨hne.2.1, hne.2.2.1⟩

/-! ## References -/

/-- No parenthesis stands in a reference. The state tells whether the line is in one. -/
def references : Gauge Bool where
  step inside c :=
    if c = '[' then some true
    else if c = ']' then some false
    else if inside && (c = '(' || c = ')') then none
    else some inside
  le := Eq
  refl _ := rfl
  trans := Eq.trans
  mono h hstep := h ▸ ⟨_, hstep, rfl⟩

theorem references_idle {c : Char} (hc : "[]()".toList.contains c = false) (inside : Bool) :
    references.step inside c = some inside := by
  have hne : c ≠ '[' ∧ c ≠ ']' ∧ c ≠ '(' ∧ c ≠ ')' := by
    refine ⟨?_, ?_, ?_, ?_⟩ <;> rintro rfl <;> exact absurd hc (by decide)
  show (if c = '[' then _ else _) = _
  simp [hne]

theorem references_eases {s s' : Text} (h : s'.filter ("[]()".toList.contains ·) =
    s.filter ("[]()".toList.contains ·)) : references.Eases s s' :=
  Gauge.eases_of_filter_eq (fun q _ hc => references_idle hc q) h

theorem references_tolerates : references.Tolerates where
  blank q c hc := by
    refine references_idle (Bool.eq_false_iff.2 fun hmem => ?_) q
    have hsolid : ∀ x ∈ "[]()".toList, isBlank x = false := by decide
    rw [hsolid c (List.contains_iff_mem.1 hmem)] at hc
    cases hc
  frac := references_eases (by decide)
  close := references_eases (by decide)
  slash := references_eases (by decide)
  unwrap _ := Gauge.eases_unwrap fun {_ q₁ q₂ q₃ _ _} _ hopen ht hclose hend => by
    cases q₁ with
    | true => cases hopen
    | false =>
        obtain rfl : false = q₂ := Option.some.inj hopen
        cases q₃ with
        | true => cases hclose
        | false =>
            obtain rfl := Option.some.inj hclose
            exact ⟨false, _, ht, hend, rfl⟩
  wrap := references_eases (by decide)
  product := references_eases (by decide)
  star := references_eases (by decide)
  power _ := references_eases (by simp [Markup.braced])

/-! ## Exponents -/

/-- Where the line stands in a power. -/
inductive Power where
  | plain
  /-- Behind a caret. -/
  | caret
  /-- Between the braces of an exponent. -/
  | inside
deriving DecidableEq

def Power.rank : Power → Nat
  | plain => 0
  | caret => 1
  | inside => 2

/-- The state behind a character; none at a parenthesis between the braces of an exponent. -/
def Power.step (q : Power) (c : Char) : Option Power :=
  if q = inside then
    if c = '}' then some plain
    else if c = '(' || c = ')' then none
    else some inside
  else if isBlank c then some q
  else if c = '^' then some caret
  else if q = caret && c = '{' then some inside
  else some plain

/-- No parenthesis stands between the braces of an exponent. -/
def powers : Gauge Power where
  step := Power.step
  le q q' := q.rank ≤ q'.rank
  refl _ := Nat.le_refl _
  trans := Nat.le_trans
  mono {q q' r c} hle hstep := by
    have hbrace : isBlank '}' = false := by decide
    cases q <;> cases q' <;> grind [Power.step, Power.rank]

instance : DecidableRel powers.le := fun q q' => inferInstanceAs (Decidable (q.rank ≤ q'.rank))

/-- An exponent is read between its braces, wherever these may open. -/
theorem powers_follow_braced {e : Text} (he : IsExponent e) {q : Power}
    (hq : powers.step q '{' = some .inside) :
    powers.follow q (Markup.braced e) = some .plain := by
  refine Gauge.follow_wrapped_eq_some_iff.2 ⟨.inside, .inside, hq, ?_, rfl⟩
  refine Gauge.follow_of_idle fun c hc => ?_
  have hne := he.not_mem c hc
  simp only [List.mem_cons, List.not_mem_nil, or_false, not_or] at hne
  show Power.step .inside c = some .inside
  simp [Power.step, hne]

theorem powers_tolerates : powers.Tolerates where
  blank q c hc := by
    have hne : c ≠ '}' ∧ c ≠ '(' ∧ c ≠ ')' := by
      refine ⟨?_, ?_, ?_⟩ <;> rintro rfl <;> exact absurd hc (by decide)
    show Power.step q c = some q
    cases q <;> simp [Power.step, hc, hne]
  frac := Gauge.eases_of_all fun q => by cases q <;> decide
  close := Gauge.eases_of_all fun q => by cases q <;> decide
  slash := Gauge.eases_of_all fun q => by cases q <;> decide
  unwrap _ := Gauge.eases_unwrap fun {q q₁ q₂ q₃ _ _} hbrace hopen ht hclose _ => by
    cases q₁ with
    | plain =>
        obtain rfl : Power.plain = q₂ := Option.some.inj hopen
        refine ⟨q₃, .plain, ht, ?_, Nat.zero_le _⟩
        cases q₃ with
        | plain => rfl
        | caret => rfl
        | inside => cases hclose
    | caret => cases q <;> cases hbrace
    | inside => cases hopen
  wrap := Gauge.eases_of_all fun q => by cases q <;> decide
  product := Gauge.eases_of_all fun q => by cases q <;> decide
  star := Gauge.eases_of_all fun q => by cases q <;> decide
  power he := by
    intro q r _
    refine ⟨.plain, ?_, Nat.zero_le _⟩
    cases q with
    | plain => exact powers_follow_braced he (q := .caret) rfl
    | caret => exact powers_follow_braced he (q := .caret) rfl
    | inside => exact powers_follow_braced he (q := .inside) rfl

/-! ## Divisors -/

/-- How a slash is followed. -/
inductive Behind where
  | nothing
  /-- A slash and a name at most. -/
  | slash
  /-- In the group behind a slash. -/
  | group
deriving DecidableEq

def Behind.rank : Behind → Nat
  | nothing => 0
  | slash => 1
  | group => 2

/-- The state behind a character; none where a group opens in the group behind a slash. -/
def Behind.step (q : Behind) (c : Char) : Option Behind :=
  if q = group then
    if c = '(' then none
    else if c = ')' then some slash
    else some group
  else if c = '/' then some slash
  else if q = slash && c = '(' then some group
  else if q = slash && (isBlank c || isWordChar c) then some slash
  else some nothing

/-- No group opens in a group that stands behind a slash. -/
def divisors : Gauge Behind where
  step := Behind.step
  le q q' := q.rank ≤ q'.rank
  refl _ := Nat.le_refl _
  trans := Nat.le_trans
  mono {q q' r c} hle hstep := by
    cases q <;> cases q' <;> grind [Behind.step, Behind.rank]

instance : DecidableRel divisors.le := fun q q' => inferInstanceAs (Decidable (q.rank ≤ q'.rank))

/-- Only a parenthesis leads into the group behind a slash. -/
theorem divisors_ne_group {q r : Behind} {t : Text} (hq : q ≠ .group) (ht : '(' ∉ t)
    (h : divisors.follow q t = some r) : r ≠ .group := by
  induction t generalizing q with
  | nil => exact Option.some.inj h ▸ hq
  | cons c t ih =>
      obtain ⟨m, hm, hr⟩ := Option.bind_eq_some_iff.1 h
      rw [List.mem_cons, not_or] at ht
      refine ih ?_ ht.2 hr
      replace hm : Behind.step q c = some m := hm
      have hc : c ≠ '(' := fun hc => ht.1 hc.symm
      grind [Behind.step]

theorem divisors_unwrap {t : Text} (ht : Kind.round.IsNeutral t) :
    divisors.Eases (Markup.braced (Markup.parenthesised t)) (Markup.braced t) := by
  have hround : '(' ∉ t := fun hmem => (ht _ hmem).1 rfl
  have hslash : divisors.step .slash '\x7b' = some .nothing ∧
      divisors.step .slash '\x7d' = some .nothing := by decide +kernel
  refine Gauge.eases_unwrap fun {q q₁ q₂ q₃ _ _} hbrace hopen hfollow _ _ => ?_
  cases q₁ with
  | nothing =>
      obtain rfl : Behind.nothing = q₂ := Option.some.inj hopen
      have hq₃ := divisors_ne_group (by decide) hround hfollow
      refine ⟨q₃, .nothing, hfollow, ?_, Nat.zero_le _⟩
      cases q₃ with
      | nothing => rfl
      | slash => exact hslash.2
      | group => exact absurd rfl hq₃
  | slash =>
      -- No brace leads to a slash.
      cases q with
      | slash => exact absurd (hslash.1.symm.trans hbrace) (by decide)
      | nothing | group => cases hbrace
  | group => cases hopen

/-- An exponent with its braces is not noticed, unless a slash has just been read. -/
theorem divisors_step_braced {e : Text} (he : IsExponent e) {q : Behind} (hq : q ≠ .slash) :
    ∀ c ∈ Markup.braced e, divisors.step q c = some q := by
  intro c hc
  have hne : c ∉ ['(', ')', '/'] := by
    rcases List.mem_append.1 hc with hc | hc
    · rcases List.mem_cons.1 hc with rfl | hc
      · decide
      · have hne := he.not_mem c hc
        simp only [List.mem_cons, List.not_mem_nil, or_false, not_or] at hne ⊢
        exact ⟨hne.2.1, hne.2.2.1, hne.2.2.2.1⟩
    · rw [List.mem_singleton.1 hc]
      decide
  simp only [List.mem_cons, List.not_mem_nil, or_false, not_or] at hne
  show Behind.step q c = some q
  cases q with
  | nothing => simp [Behind.step, hne]
  | slash => exact absurd rfl hq
  | group => simp [Behind.step, hne]

theorem divisors_power {e : Text} (he : IsExponent e) :
    divisors.Eases ('^' :: e) ('^' :: Markup.braced e) := by
  have hbraced : ∀ {m : Behind}, m ≠ .slash → divisors.follow m (Markup.braced e) = some m :=
    fun hm => Gauge.follow_of_idle (divisors_step_braced he hm)
  intro q r h
  cases q with
  | nothing => exact ⟨.nothing, hbraced (m := .nothing) (by decide), Nat.zero_le _⟩
  | slash =>
      have hcaret : divisors.step .slash '^' = some .nothing := by decide +kernel
      refine ⟨.nothing, ?_, Nat.zero_le _⟩
      rw [Gauge.follow_cons, hcaret, Option.bind_some, hbraced (by decide)]
  | group =>
      have hsame : divisors.follow .group e = some .group := Gauge.follow_of_idle fun c hc =>
        divisors_step_braced he (by decide) c (by simp [Markup.braced, hc])
      obtain rfl : Behind.group = r := Option.some.inj (hsame.symm.trans h)
      exact ⟨.group, hbraced (m := .group) (by decide), Nat.le_refl _⟩

theorem divisors_tolerates : divisors.Tolerates where
  blank q c hc := by
    have hne : c ≠ '/' ∧ c ≠ '(' ∧ c ≠ ')' := by
      refine ⟨?_, ?_, ?_⟩ <;> rintro rfl <;> exact absurd hc (by decide)
    show Behind.step q c = some q
    cases q <;> simp [Behind.step, hc, hne]
  frac := Gauge.eases_of_all fun q => by cases q <;> decide +kernel
  close := Gauge.eases_of_all fun q => by cases q <;> decide +kernel
  slash := Gauge.eases_of_all fun q => by cases q <;> decide +kernel
  unwrap := divisors_unwrap
  wrap := Gauge.eases_of_all fun q => by cases q <;> decide +kernel
  product := Gauge.eases_of_all fun q => by cases q <;> decide +kernel
  star := Gauge.eases_of_all fun q => by cases q <;> decide +kernel
  power := divisors_power

/-! ## Dividends -/

/-- What has followed a group that stands in another one. -/
inductive Wake where
  | anything
  /-- Nothing but its exponent. -/
  | closed
  /-- A caret. -/
  | raised
  /-- The opening brace of an exponent. -/
  | braced
deriving DecidableEq

def Wake.rank : Wake → Nat
  | anything => 0
  | closed => 1
  | raised => 2
  | braced => 3

/-- The state behind a character that is no parenthesis; none at a slash that follows directly. -/
def Wake.step (k : Wake) (c : Char) : Option Wake :=
  if k = anything then some anything
  else if c = '/' then none
  else if k = braced then if c = '}' then some closed else some braced
  else if isBlank c then some k
  else if c = '^' then some raised
  else if k = raised && c = '{' then some braced
  else if isExponentChar c || (k = raised && c = '-') then some closed
  else some anything

theorem Wake.step_mono {k k' r : Wake} {c : Char} (hle : k'.rank ≤ k.rank)
    (hstep : k.step c = some r) : ∃ r', k'.step c = some r' ∧ r'.rank ≤ r.rank := by
  have hbrace : isBlank '}' = false := by decide
  cases k <;> cases k' <;> grind [Wake.step, Wake.rank]

/-- The gauge of what has followed a group in another one. -/
def wakes : Gauge Wake where
  step := Wake.step
  le k k' := k.rank ≤ k'.rank
  refl _ := Nat.le_refl _
  trans := Nat.le_trans
  mono := Wake.step_mono

instance : DecidableRel wakes.le := fun k k' => inferInstanceAs (Decidable (k.rank ≤ k'.rank))

theorem wakes_follow_anything (s : Text) : wakes.follow .anything s = some .anything :=
  Gauge.follow_of_idle fun _ _ => rfl

/-- Exponent characters do not bring a slash closer. -/
theorem wakes_ne_anything {v : Text} (hv : ∀ c ∈ v, isExponentChar c = true) {k r : Wake}
    (hk : k ≠ .anything) (h : wakes.follow k v = some r) : r ≠ .anything := by
  induction v generalizing k with
  | nil => exact Option.some.inj h ▸ hk
  | cons c v ih =>
      obtain ⟨m, hm, hr⟩ := Option.bind_eq_some_iff.1 h
      refine ih (fun x hx => hv x (by simp [hx])) ?_ hr
      replace hm : Wake.step k c = some m := hm
      have hc := hv c (by simp)
      grind [Wake.step]

theorem wakes_power {e : Text} (he : IsExponent e) :
    wakes.Eases ('^' :: e) ('^' :: Markup.braced e) := by
  have hinside : wakes.follow .braced e = some .braced := Gauge.follow_of_idle fun c hc => by
    have hne := he.not_mem c hc
    simp only [List.mem_cons, List.not_mem_nil, or_false, not_or] at hne
    show Wake.step .braced c = some .braced
    simp [Wake.step, hne]
  have hbraced : ∀ {m}, wakes.step m '{' = some .braced →
      wakes.follow m (Markup.braced e) = some .closed := fun hm =>
    Gauge.follow_wrapped_eq_some_iff.2 ⟨.braced, .braced, hm, hinside, rfl⟩
  have hexponent : ∀ {k r}, k = .raised ∨ k = .braced → wakes.follow k e = some r →
      Wake.closed.rank ≤ r.rank := by
    intro k r hk h
    have hne : r ≠ .anything := by
      obtain ⟨v, -, hv, rfl | rfl⟩ := he
      · exact wakes_ne_anything hv (by rcases hk with rfl | rfl <;> decide) h
      · rcases hk with rfl | rfl
        · exact wakes_ne_anything hv (k := .closed) (by decide) h
        · exact wakes_ne_anything hv (k := .braced) (by decide) h
    cases r with
    | anything => exact absurd rfl hne
    | closed => decide
    | raised => decide
    | braced => decide
  intro k r h
  cases k with
  | anything => exact ⟨.anything, wakes_follow_anything _, Nat.zero_le _⟩
  | closed => exact ⟨.closed, hbraced (m := .raised) rfl, hexponent (.inl rfl) h⟩
  | raised => exact ⟨.closed, hbraced (m := .raised) rfl, hexponent (.inl rfl) h⟩
  | braced => exact ⟨.closed, hbraced (m := .braced) rfl, hexponent (.inr rfl) h⟩

/-- Where the line stands among its groups. -/
inductive Level where
  | outer
  /-- In one group and `d` more, with what has followed the last group that was closed in there. -/
  | inner (d : Nat) (k : Wake)
deriving DecidableEq

/-- The state behind the parenthesis that closes a group. -/
def Level.left : (d : Nat) → Level
  | 0 => outer
  | d + 1 => inner d .closed

/-- The state behind a character; none at a slash that follows a group in another one, and at a
parenthesis in the exponent of such a group. -/
def Level.step (q : Level) (c : Char) : Option Level :=
  match q with
  | outer =>
      if c = '(' then some (inner 0 .anything)
      else if c = ')' then none
      else some outer
  | inner d k =>
      if c = '(' then if k = .braced then none else some (inner (d + 1) .anything)
      else if c = ')' then if k = .braced then none else some (left d)
      else (k.step c).map (inner d)

/-- The same depth, and no less that a slash may follow. -/
def Level.le : Level → Level → Prop
  | outer, outer => True
  | inner d k, inner d' k' => d = d' ∧ k.rank ≤ k'.rank
  | _, _ => False

theorem Level.le_refl (q : Level) : q.le q := by
  cases q with
  | outer => trivial
  | inner d k => exact ⟨rfl, Nat.le_refl _⟩

theorem Level.step_mono {q q' r : Level} {c : Char} (hle : q'.le q) (hstep : q.step c = some r) :
    ∃ r', q'.step c = some r' ∧ r'.le r := by
  match q', q, hle with
  | outer, outer, _ => exact ⟨r, hstep, r.le_refl⟩
  | inner _ k', inner d k, ⟨rfl, hk⟩ =>
      have hbraced : k' = .braced → k = .braced := by
        rintro rfl
        cases k <;> first | rfl | exact absurd hk (by decide)
      simp only [step] at hstep ⊢
      by_cases hopen : c = '('
      · rw [if_pos hopen] at hstep ⊢
        split at hstep
        · cases hstep
        · next hne => exact ⟨r, by rw [if_neg (mt hbraced hne), hstep], r.le_refl⟩
      · by_cases hclose : c = ')'
        · rw [if_neg hopen, if_pos hclose] at hstep ⊢
          split at hstep
          · cases hstep
          · next hne => exact ⟨r, by rw [if_neg (mt hbraced hne), hstep], r.le_refl⟩
        · rw [if_neg hopen, if_neg hclose] at hstep ⊢
          obtain ⟨m, hm, rfl⟩ := Option.map_eq_some_iff.1 hstep
          obtain ⟨m', hm', hle⟩ := Wake.step_mono hk hm
          exact ⟨inner _ m', by rw [hm']; rfl, rfl, hle⟩

/-- No slash follows a group that stands in another one. -/
def dividends : Gauge Level where
  step := Level.step
  le := Level.le
  refl := Level.le_refl
  trans {q₁ q₂ q₃} h h' := by
    match q₁, q₂, q₃, h, h' with
    | .outer, .outer, .outer, _, _ => trivial
    | .inner _ _, .inner _ _, .inner _ _, ⟨rfl, h⟩, ⟨rfl, h'⟩ => exact ⟨rfl, Nat.le_trans h h'⟩
  mono := Level.step_mono

/-- Between parentheses only the wake of a group changes. -/
theorem dividends_follow_inner {s : Text} (hs : Kind.round.IsNeutral s) (d : Nat) (k : Wake) :
    dividends.follow (.inner d k) s = (wakes.follow k s).map (.inner d) := by
  induction s generalizing k with
  | nil => rfl
  | cons c s ih =>
      have hc := hs c (by simp)
      simp only [Kind.opening, Kind.closing] at hc
      have hstep : dividends.step (.inner d k) c = (wakes.step k c).map (.inner d) := by
        show Level.step (.inner d k) c = (Wake.step k c).map (.inner d)
        simp [Level.step, hc]
      rw [Gauge.follow_cons, Gauge.follow_cons, hstep]
      cases wakes.step k c with
      | none => rfl
      | some m => exact ih (fun x hx => hs x (by simp [hx])) m

theorem dividends_follow_outer {s : Text} (hs : Kind.round.IsNeutral s) :
    dividends.follow .outer s = some .outer := by
  refine Gauge.follow_of_idle fun c hc => ?_
  have hne := hs c hc
  simp only [Kind.opening, Kind.closing] at hne
  show Level.step .outer c = some .outer
  simp [Level.step, hne]

theorem dividends_eases {s s' : Text} (hs : Kind.round.IsNeutral s) (hs' : Kind.round.IsNeutral s')
    (h : wakes.Eases s s') : dividends.Eases s s' := by
  intro q r hr
  cases q with
  | outer =>
      rw [dividends_follow_outer hs] at hr
      obtain rfl := Option.some.inj hr
      exact ⟨.outer, dividends_follow_outer hs', trivial⟩
  | inner d k =>
      rw [dividends_follow_inner hs] at hr
      obtain ⟨m, hm, rfl⟩ := Option.map_eq_some_iff.1 hr
      obtain ⟨m', hm', hle⟩ := h k m hm
      exact ⟨.inner d m', by rw [dividends_follow_inner hs', hm']; rfl, rfl, hle⟩

theorem dividends_unwrap {t : Text} (ht : Kind.round.IsNeutral t) :
    dividends.Eases (Markup.braced (Markup.parenthesised t)) (Markup.braced t) := by
  refine Gauge.eases_unwrap fun {q q₁ q₂ q₃ q₄ r} hbrace hopen hfollow hclose hend => ?_
  have hinside : ∀ d, dividends.follow (.inner d .anything) t = some (.inner d .anything) :=
    fun d => by rw [dividends_follow_inner ht, wakes_follow_anything]; rfl
  cases q₁ with
  | outer =>
      obtain rfl : Level.inner 0 .anything = q₂ := Option.some.inj hopen
      obtain rfl := Option.some.inj ((hinside 0).symm.trans hfollow)
      obtain rfl : Level.outer = q₄ := Option.some.inj hclose
      exact ⟨.outer, r, dividends_follow_outer ht, hend, dividends.refl r⟩
  | inner d k =>
      cases k with
      | braced => cases hopen
      | anything =>
          obtain rfl : Level.inner (d + 1) .anything = q₂ := Option.some.inj hopen
          obtain rfl := Option.some.inj ((hinside (d + 1)).symm.trans hfollow)
          obtain rfl : Level.inner d .closed = q₄ := Option.some.inj hclose
          obtain rfl : Level.inner d .anything = r := Option.some.inj hend
          exact ⟨_, _, hinside d, rfl, dividends.refl _⟩
      | closed | raised =>
          -- No brace leads behind a group or a caret.
          cases q with
          | outer => cases hbrace
          | inner d' k' => cases k' <;> cases hbrace

theorem dividends_wrap : dividends.Eases ['('] ['(', '{'] := by
  intro q r h
  cases q with
  | outer =>
      obtain rfl : Level.inner 0 .anything = r := Option.some.inj h
      exact ⟨_, rfl, dividends.refl _⟩
  | inner d k =>
      cases k with
      | braced => cases h
      | anything | closed | raised =>
          obtain rfl : Level.inner (d + 1) .anything = r := Option.some.inj h
          exact ⟨_, rfl, dividends.refl _⟩

theorem dividends_power {e : Text} (he : IsExponent e) :
    dividends.Eases ('^' :: e) ('^' :: Markup.braced e) := by
  have hcaret : Kind.round.IsNeutral ['^'] := by decide
  have hneutral := isNeutral_of_isExponent he
  exact dividends_eases (hcaret.append hneutral) (hcaret.append (isNeutral_braced hneutral))
    (wakes_power he)

theorem dividends_tolerates : dividends.Tolerates where
  blank q c hc := by
    have hne : c ≠ '/' ∧ c ≠ '(' ∧ c ≠ ')' ∧ c ≠ '}' := by
      refine ⟨?_, ?_, ?_, ?_⟩ <;> rintro rfl <;> exact absurd hc (by decide)
    show Level.step q c = some q
    cases q with
    | outer => simp [Level.step, hne]
    | inner d k => cases k <;> simp [Level.step, Wake.step, hc, hne]
  frac := dividends_eases (by decide) (by decide)
    (Gauge.eases_of_all fun k => by cases k <;> decide)
  close := dividends_eases (by decide) (by decide)
    (Gauge.eases_of_all fun k => by cases k <;> decide)
  slash := dividends_eases (by decide) (by decide)
    (Gauge.eases_of_all fun k => by cases k <;> decide)
  unwrap := dividends_unwrap
  wrap := dividends_wrap
  product := dividends_eases (by decide) (by decide)
    (Gauge.eases_of_all fun k => by cases k <;> decide)
  star := dividends_eases (by decide) (by decide)
    (Gauge.eases_of_all fun k => by cases k <;> decide)
  power := dividends_power

end Nesting

end CalcTypeset
