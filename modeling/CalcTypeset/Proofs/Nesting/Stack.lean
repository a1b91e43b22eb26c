import CalcTypeset.Proofs.Gauge

/-!
# Well-nested lines

Read with a stack, a line is well nested when each closing bracket is of the kind that was opened
last. Two remarks carry all that follows, both about a text whose parentheses are balanced.

Read anywhere, such a text never closes a parenthesis that was open before it, so braces can be put
around it whatever braces of the line it opens and closes itself (`eases_braced`). And read between
two parentheses, it is well nested itself, so these parentheses can be replaced by braces
(`eases_content`).
-/

namespace CalcTypeset.Bracket

open Text

/-- The open brackets behind a character, the innermost first; none when it closes a bracket that
is not the innermost open one. -/
def nestStep (st : List Kind) (c : Char) : Option (List Kind) :=
  if c = '(' then some (.round :: st)
  else if c = '{' then some (.curly :: st)
  else if c = ')' then if st.head? = some .round then some st.tail else none
  else if c = '}' then if st.head? = some .curly then some st.tail else none
  else some st

/-- The gauge of the open brackets. -/
def nest : Gauge (List Kind) where
  step := nestStep
  le st st' := st = st'
  refl _ := rfl
  trans := Eq.trans
  mono h hstep := h ▸ ⟨_, hstep, rfl⟩

/-- Every bracket is closed, round and curly ones each within the other. -/
def IsNested (s : Text) : Prop := nest.follow [] s = some []

instance (s : Text) : Decidable (IsNested s) := inferInstanceAs (Decidable (_ = _))

variable {k : Kind} {st st' P Q : List Kind} {s s' t : Text} {d : Nat}

/-! ## Steps -/

theorem Kind.bracket_cases (c : Char) : (∃ k : Kind, c = k.opening) ∨
    (∃ k : Kind, c = k.closing) ∨ ∀ k : Kind, c ≠ k.opening ∧ c ≠ k.closing := by
  by_cases h : ∃ k : Kind, c = k.opening
  · exact .inl h
  · by_cases h' : ∃ k : Kind, c = k.closing
    · exact .inr (.inl h')
    · exact .inr (.inr fun k => ⟨fun hk => h ⟨k, hk⟩, fun hk => h' ⟨k, hk⟩⟩)

theorem nest_opening (k : Kind) (st : List Kind) : nest.step st k.opening = some (k :: st) := by
  cases k <;> rfl

theorem nest_closing (k : Kind) (st : List Kind) :
    nest.step (k :: st) k.closing = some st := by
  cases k <;> rfl

theorem nest_closing_eq_some_iff :
    nest.step st k.closing = some st' ↔ st = k :: st' := by
  refine ⟨fun h => ?_, fun h => h ▸ nest_closing k st'⟩
  have hstep : nest.step st k.closing =
      if st.head? = some k then some st.tail else none := by cases k <;> rfl
  rw [hstep] at h
  split at h
  · next hk =>
      cases st with
      | nil => cases hk
      | cons x st => rw [Option.some.inj hk, ← Option.some.inj h]; rfl
  · cases h

theorem nest_neutral {c : Char} (h : ∀ k : Kind, c ≠ k.opening ∧ c ≠ k.closing)
    (st : List Kind) : nest.step st c = some st := by
  have hr := h .round
  have hc := h .curly
  simp only [Kind.opening, Kind.closing] at hr hc
  simp [nest, nestStep, hr, hc]

theorem nest_eases_iff : nest.Eases s s' ↔
    ∀ st st', nest.follow st s = some st' → nest.follow st s' = some st' := by
  refine ⟨fun h st st' hs => ?_, fun h st st' hs => ⟨st', h st st' hs, rfl⟩⟩
  obtain ⟨r, hr, rfl⟩ := h st st' hs
  exact hr

theorem IsNested.of_eases (hs : IsNested s) (h : nest.Eases s s') : IsNested s' :=
  nest_eases_iff.1 h [] [] hs

theorem follow_opening (k : Kind) (st : List Kind) (s : Text) :
    nest.follow st (k.opening :: s) = nest.follow (k :: st) s := by
  rw [Gauge.follow_cons, nest_opening, Option.bind_some]

theorem follow_closing (k : Kind) (st : List Kind) (s : Text) :
    nest.follow (k :: st) (k.closing :: s) = nest.follow st s := by
  rw [Gauge.follow_cons, nest_closing, Option.bind_some]

theorem follow_neutral {c : Char} (h : ∀ k : Kind, c ≠ k.opening ∧ c ≠ k.closing)
    (st : List Kind) (s : Text) : nest.follow st (c :: s) = nest.follow st s := by
  rw [Gauge.follow_cons, nest_neutral h, Option.bind_some]

/-! ## Texts with balanced parentheses -/

theorem depthAfter_count_opening (k : Kind) (P : List Kind) (s : Text) :
    Kind.round.depthAfter (P.count .round) (k.opening :: s) =
      Kind.round.depthAfter ((k :: P).count .round) s := by
  cases k with
  | round => rw [Kind.depthAfter_opening, List.count_cons_self]
  | curly => rw [Kind.depthAfter_neutral_cons (by decide), List.count_cons_of_ne (by decide)]

theorem depthAfter_count_closing (k : Kind) (P : List Kind) (s : Text) :
    Kind.round.depthAfter ((k :: P).count .round) (k.closing :: s) =
      Kind.round.depthAfter (P.count .round) s := by
  cases k with
  | round => rw [List.count_cons_self, Kind.depthAfter_closing]
  | curly => rw [Kind.depthAfter_neutral_cons (by decide), List.count_cons_of_ne (by decide)]

/-- A brace may be open below what a text works on, as long as the text closes no parenthesis from
below it: braces are alike, so it does not matter which of them the text closes. -/
theorem follow_insert (h : nest.follow (P ++ Q) s = some st')
    (hd : Kind.round.depthAfter (P.count .round) s = some d) :
    ∃ P' Q', st' = P' ++ Q' ∧ P'.count .round = d ∧
      nest.follow (P ++ .curly :: Q) s = some (P' ++ .curly :: Q') := by
  induction s generalizing P Q with
  | nil => exact ⟨P, Q, (Option.some.inj h).symm, Option.some.inj hd, rfl⟩
  | cons c s ih =>
      rcases Kind.bracket_cases c with ⟨k, rfl⟩ | ⟨k, rfl⟩ | hc
      · rw [follow_opening] at h ⊢
        exact ih (P := k :: P) h (by rwa [depthAfter_count_opening] at hd)
      · obtain ⟨m, hm, hs⟩ := Option.bind_eq_some_iff.1 h
        rw [nest_closing_eq_some_iff] at hm
        cases P with
        | nil =>
            cases k with
            | round => cases hd
            | curly =>
                rw [List.nil_append] at hm
                rw [Kind.depthAfter_neutral_cons (by decide)] at hd
                rw [hm]
                exact ih (P := []) hs hd
        | cons x P =>
            obtain ⟨rfl, rfl⟩ := List.cons.inj hm
            rw [List.cons_append, follow_closing]
            exact ih hs (by rwa [depthAfter_count_closing] at hd)
      · rw [follow_neutral hc] at h ⊢
        rw [Kind.depthAfter_neutral_cons (hc .round)] at hd
        exact ih h hd

/-- Inside parentheses a text that closes none of those before it needs nothing of what is open
outside. -/
theorem follow_frame (h : nest.follow (P ++ .round :: st) s = some st')
    (hd : Kind.round.depthAfter (P.count .round) s = some d) :
    ∃ P', st' = P' ++ .round :: st ∧ P'.count .round = d ∧
      ∀ Q, nest.follow (P ++ Q) s = some (P' ++ Q) := by
  induction s generalizing P with
  | nil => exact ⟨P, (Option.some.inj h).symm, Option.some.inj hd, fun _ => rfl⟩
  | cons c s ih =>
      rcases Kind.bracket_cases c with ⟨k, rfl⟩ | ⟨k, rfl⟩ | hc
      · rw [follow_opening] at h
        simp only [follow_opening]
        exact ih (P := k :: P) h (by rwa [depthAfter_count_opening] at hd)
      · obtain ⟨m, hm, hs⟩ := Option.bind_eq_some_iff.1 h
        rw [nest_closing_eq_some_iff] at hm
        cases P with
        | nil =>
            obtain ⟨rfl, rfl⟩ := List.cons.inj hm
            cases hd
        | cons x P =>
            obtain ⟨rfl, rfl⟩ := List.cons.inj hm
            simp only [List.cons_append, follow_closing]
            exact ih hs (by rwa [depthAfter_count_closing] at hd)
      · rw [follow_neutral hc] at h
        rw [Kind.depthAfter_neutral_cons (hc .round)] at hd
        simp only [follow_neutral hc]
        exact ih h hd

theorem cons_append_of_count_eq_zero (h : P.count .round = 0) (Q : List Kind) :
    P ++ .curly :: Q = .curly :: (P ++ Q) := by
  induction P with
  | nil => rfl
  | cons k P ih =>
      cases k with
      | round => rw [List.count_cons_self] at h; cases h
      | curly =>
          rw [List.count_cons_of_ne (by decide)] at h
          rw [List.cons_append, ih h, List.cons_append]

/-- Braces may be put around any text whose parentheses are balanced. -/
theorem eases_braced (ht : IsBalanced '(' ')' t) : nest.Eases t (Markup.braced t) := by
  rw [nest_eases_iff]
  intro st st' h
  obtain ⟨P, Q, rfl, hP, hcurly⟩ := follow_insert (P := []) h ht
  rw [List.nil_append, cons_append_of_count_eq_zero hP] at hcurly
  rw [Markup.braced, List.cons_append, show '{' = Kind.curly.opening from rfl, follow_opening,
    Gauge.follow_append_of_some hcurly]
  exact follow_closing .curly _ []

/-- What stands between the parentheses of a group may be read in any state, and leaves it. -/
theorem follow_content (ht : IsBalanced '(' ')' t)
    (h : nest.follow st (Markup.parenthesised t) = some st') :
    st' = st ∧ ∀ Q, nest.follow Q t = some Q := by
  rw [Markup.parenthesised, List.cons_append, show '(' = Kind.round.opening from rfl,
    follow_opening] at h
  obtain ⟨m, hm, hclose⟩ := Gauge.follow_append_eq_some_iff.1 h
  obtain ⟨P, rfl, hP, hframe⟩ := follow_frame (P := []) hm ht
  have htop : P ++ .round :: st = .round :: st' := by
    obtain ⟨x, hx, hst⟩ := Option.bind_eq_some_iff.1 hclose
    obtain rfl : x = st' := Option.some.inj hst
    exact nest_closing_eq_some_iff.1 hx
  cases P with
  | nil => exact ⟨(List.cons.inj htop).2.symm, hframe⟩
  | cons k P =>
      rw [(List.cons.inj htop).1, List.count_cons_self] at hP
      cases hP

/-- The parentheses of a group may become braces. -/
theorem eases_content (ht : IsBalanced '(' ')' t) :
    nest.Eases (Markup.parenthesised t) (Markup.braced t) := by
  rw [nest_eases_iff]
  intro st st' h
  obtain ⟨rfl, hcontent⟩ := follow_content ht h
  rw [Markup.braced, List.cons_append, show '{' = Kind.curly.opening from rfl, follow_opening,
    Gauge.follow_append_of_some (hcontent _)]
  exact follow_closing .curly _ []

theorem eases_parenthesised {σ : Type} {G : Gauge σ} (h : G.Eases t s) :
    G.Eases (Markup.parenthesised t) (Markup.parenthesised s) :=
  ((Gauge.Eases.refl ['(']).append h).append (Gauge.Eases.refl [')'])

/-- Without braces, lines are well nested when they are balanced. -/
theorem isNested_of_isBalanced (hs : IsBalanced '(' ')' s) (h : Kind.curly.IsNeutral s) :
    IsNested s := by
  have hall : ∀ {s : Text} {d e : Nat}, Kind.curly.IsNeutral s →
      Kind.round.depthAfter d s = some e →
      nest.follow (List.replicate d .round) s = some (List.replicate e .round) := by
    intro s
    induction s with
    | nil => intro d e _ h; rw [Option.some.inj h]; rfl
    | cons c s ih =>
        intro d e hc h
        have htail : Kind.curly.IsNeutral s := fun x hx => hc x (by simp [hx])
        rcases Kind.bracket_cases c with ⟨k, rfl⟩ | ⟨k, rfl⟩ | hk
        · cases k with
          | curly => exact absurd rfl (hc _ (by simp)).1
          | round =>
              rw [follow_opening, ← List.replicate_succ]
              exact ih htail (by rwa [Kind.depthAfter_opening] at h)
        · cases k with
          | curly => exact absurd rfl (hc _ (by simp)).2
          | round =>
              cases d with
              | zero => cases h
              | succ d =>
                  rw [List.replicate_succ, follow_closing]
                  exact ih htail (by rwa [Kind.depthAfter_closing] at h)
        · rw [follow_neutral hk]
          exact ih htail (by rwa [Kind.depthAfter_neutral_cons (hk .round)] at h)
  exact hall h hs

end CalcTypeset.Bracket
