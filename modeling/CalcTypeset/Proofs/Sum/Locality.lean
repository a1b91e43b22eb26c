import CalcTypeset.Proofs.Balance

/-!
# No division site reaches across a sum

Two lines are joined by a sign of addition or subtraction with a space on each side. A site that
starts in the left one ends there, and none starts between the two. The left line must not end
with an operator that waits for its right operand, and its brackets must be closed: a group is
looked for behind any number of blanks, and only its own closing bracket keeps it from going on.

`IsSealed` is what a reading needs of the text in front of the sign. It holds of every tail of a
line with closed brackets, which is why locality can be shown one recogniser at a time.
-/

namespace CalcTypeset

open Text

namespace Bracket

/-- The closing parenthesis is found in a text that leads down to depth zero. -/
theorem closing?_isSome {d n : Nat} {s : Text} (hdn : d < n)
    (h : depthAfter '(' ')' n s = some 0) : (closing? d s).isSome := by
  induction s generalizing d n with
  | nil =>
      simp only [depthAfter, Option.some.injEq] at h
      omega
  | cons c s ih =>
      obtain ⟨n, rfl⟩ : ∃ m, n = m + 1 := ⟨n - 1, by omega⟩
      by_cases ho : c = '('
      · subst ho
        simp only [depthAfter, if_true] at h
        simp [closing?, ih (show d + 1 < n + 1 + 1 by omega) h]
      · by_cases hc : c = ')'
        · subst hc
          simp only [depthAfter, ho, if_false, if_true] at h
          cases d with
          | zero => simp [closing?]
          | succ d => simp [closing?, ih (show d < n by omega) h]
        · simp only [depthAfter, ho, hc, if_false] at h
          simp [closing?, ho, hc, ih hdn h]

/-- Nothing closes a parenthesis exactly when the text behind it has a depth at its end. -/
theorem closing?_eq_none_iff {n : Nat} {s : Text} :
    closing? n s = none ↔ ∃ e, Kind.round.depthAfter n s = some e := by
  induction s generalizing n with
  | nil => simp [closing?, Kind.depthAfter, depthAfter]
  | cons c s ih =>
      by_cases hopen : c = '('
      · subst hopen
        have hdepth : Kind.round.depthAfter n ('(' :: s) = Kind.round.depthAfter (n + 1) s :=
          Kind.depthAfter_opening (k := .round) s
        simp only [closing?, if_true, Option.map_eq_none_iff, ih, hdepth]
      · by_cases hclose : c = ')'
        · subst hclose
          cases n with
          | zero => simp [closing?, Kind.depthAfter, depthAfter, Kind.opening, Kind.closing]
          | succ n =>
              have hdepth : Kind.round.depthAfter (n + 1) (')' :: s) = Kind.round.depthAfter n s :=
                Kind.depthAfter_closing (k := .round) s
              simp only [closing?, hopen, if_false, if_true, Option.map_eq_none_iff, ih, hdepth]
        · have hdepth : Kind.round.depthAfter n (c :: s) = Kind.round.depthAfter n s :=
            Kind.depthAfter_neutral_cons ⟨hopen, hclose⟩ s
          simp only [closing?, hopen, hclose, if_false, Option.map_eq_none_iff, ih, hdepth]

/-- A tail of a balanced text leads from some depth down to zero. -/
theorem Kind.exists_depthAfter_of_suffix {k : Kind} {s t : Text}
    (h : IsBalanced k.opening k.closing s) (ht : t <:+ s) :
    ∃ d, k.depthAfter d t = some 0 := by
  obtain ⟨x, rfl⟩ := ht
  have := Kind.depthAfter_append (k := k) (d := 0) x t
  rw [show k.depthAfter 0 (x ++ t) = some 0 from h] at this
  obtain ⟨d, -, hd⟩ := Option.bind_eq_some_iff.1 this.symm
  exact ⟨d, hd⟩

theorem closing?_isSome_of_suffix {s t : Text} (h : IsBalanced '(' ')' s)
    (ht : '(' :: t <:+ s) : (closing? 0 t).isSome := by
  obtain ⟨d, hd⟩ := Kind.exists_depthAfter_of_suffix (k := .round) h ht
  rw [show '(' = Kind.round.opening from rfl, Kind.depthAfter_opening] at hd
  exact closing?_isSome (Nat.succ_pos d) hd

/-- An opened bracket of a balanced text is followed by a closing one. -/
theorem Kind.closing_mem_of_suffix {k : Kind} {s t : Text}
    (h : IsBalanced k.opening k.closing s) (ht : k.opening :: t <:+ s) : k.closing ∈ t := by
  obtain ⟨d, hd⟩ := Kind.exists_depthAfter_of_suffix h ht
  rw [Kind.depthAfter_opening] at hd
  by_cases hmem : k.closing ∈ t
  · exact hmem
  · obtain ⟨n, hn⟩ := Kind.exists_depthAfter_of_not_mem hmem
    rw [hn, Option.some.injEq] at hd
    omega

theorem localAt_group {t u : Text} (ht : t ≠ [] ∨ u.head? ≠ some '(')
    (h : ∀ t', t = '(' :: t' → (closing? 0 t').isSome) : group.LocalAt u t := by
  match t with
  | [] =>
      rw [Recogniser.localAt_nil_iff]
      match u with
      | [] => rfl
      | c :: u =>
          have hc : c ≠ '(' := fun hc => ht.elim (· rfl) (· (by rw [hc]; rfl))
          simp [group, group?, hc]
  | c :: t =>
      by_cases hc : c = '('
      · subst hc
        obtain ⟨⟨a, r⟩, har⟩ := Option.isSome_iff_exists.1 (h t rfl)
        obtain ⟨rfl, hb⟩ := closing?_eq_some_iff.1 har
        have : closing? 0 (a ++ ')' :: r ++ u) = some (a, r ++ u) :=
          closing?_eq_some_iff.2 ⟨by simp, hb⟩
        show closing? 0 (a ++ ')' :: r ++ u) = (closing? 0 (a ++ ')' :: r)).map _
        rw [this, har]
        rfl
      · simp [Recogniser.LocalAt, group, group?, hc]

end Bracket

namespace Sum

/-- A sign of addition or subtraction. -/
def IsSign (c : Char) : Prop := c = '+' ∨ c = '-'

/-- Two lines with a sign between them, a space on each side of it. -/
def joined (sign : Char) (s v : Text) : Text := s ++ ' ' :: sign :: ' ' :: v

/-- A tail of a line that a sign may follow: it does not end in a blank or in an operator that
waits for an operand, and what is opened in it is closed in it. -/
structure IsSealed (t : Text) : Prop where
  last : ∀ c ∈ t.getLast?, isBlank c = false ∧ c ≠ '/' ∧ c ≠ '*'
  times : ¬ Markup.timesSign <:+ t
  round : ∀ r, '(' :: r <:+ t → (Bracket.closing? 0 r).isSome
  curly : ∀ r, '{' :: r <:+ t → '}' ∈ r

/-- A line that a sign may precede: it starts with no blank, with no operator that waits for an
operand on its left, and with no multiplication sign. -/
structure IsAddend (v : Text) : Prop where
  ne_nil : v ≠ []
  head : ∀ c ∈ v.head?, isBlank c = false ∧ c ≠ '/' ∧ c ≠ '*'
  times : ¬ ['\\', 't'] <+: v

theorem IsSealed.of_suffix {t r : Text} (h : IsSealed t) (hr : r <:+ t) : IsSealed r where
  last c hc := by
    refine h.last c ?_
    obtain ⟨x, rfl⟩ := hr
    rw [List.getLast?_append, Option.mem_def.1 hc]
    rfl
  times ht := h.times (ht.trans hr)
  round r' hr' := h.round r' (hr'.trans hr)
  curly r' hr' := h.curly r' (hr'.trans hr)

theorem IsSealed.mem_closing {t : Text} (h : IsSealed ('(' :: t)) : ')' ∈ t := by
  obtain ⟨⟨a, r⟩, har⟩ := Option.isSome_iff_exists.1 (h.round t (List.suffix_refl _))
  rw [(Bracket.closing?_eq_some_iff.1 har).1]
  simp

theorem IsSealed.skipBlanks_ne_nil {t : Text} (h : IsSealed t) (ht : t ≠ []) :
    skipBlanks t ≠ [] := by
  intro hnil
  obtain ⟨b, hb, hblank⟩ := skipBlanks_eq_append t
  rw [hnil, List.append_nil] at hb
  have hlast := List.getLast?_eq_some_getLast ht
  have := (h.last _ hlast).1
  rw [hblank _ (hb ▸ List.getLast_mem ht)] at this
  cases this

/-- What is left of a sealed text behind an operator that waits for an operand is something. -/
theorem IsSealed.ne_nil_of_waits {x : Char} {t : Text} (h : IsSealed (x :: t))
    (hx : x = '/' ∨ x = '*') : t ≠ [] := by
  rintro rfl
  exact hx.elim (h.last x rfl).2.1 (h.last x rfl).2.2

section

variable {sign : Char} {v : Text}

/-- What follows the left line of a sum. -/
abbrev tail (sign : Char) (v : Text) : Text := ' ' :: sign :: ' ' :: v

theorem eq_of_mem_head?_tail {c : Char} (hc : c ∈ (tail sign v).head?) : c = ' ' := by
  simpa using hc.symm

theorem skipBlanks_tail (hsign : IsSign sign) :
    skipBlanks (tail sign v) = sign :: ' ' :: v := by
  have : isBlank sign = false := by rcases hsign with rfl | rfl <;> decide
  rw [skipBlanks_cons_of_isBlank _ (by decide), skipBlanks_cons_of_not_isBlank _ this]

theorem IsAddend.skipBlanks (hv : IsAddend v) : Text.skipBlanks (' ' :: v) = v := by
  rw [skipBlanks_cons_of_isBlank _ (by decide)]
  exact skipBlanks_eq_self fun c hc => (hv.head c hc).1

theorem after?_append_tail {lit : Text} (hlit : ' ' ∉ lit) (t : Text) :
    after? lit (t ++ tail sign v) = (after? lit t).map (· ++ tail sign v) :=
  Recogniser.after?_append_of_not_mem
    (fun c hc => by rwa [eq_of_mem_head?_tail hc]) t

theorem endsTerm_tail (hsign : IsSign sign) : Fraction.endsTerm (tail sign v) = true := by
  rw [Fraction.endsTerm, skipBlanks_tail hsign]
  rcases hsign with rfl | rfl <;> simp

theorem endsTerm_append_tail (hsign : IsSign sign) {t : Text} (ht : IsSealed t) :
    Fraction.endsTerm (t ++ tail sign v) = Fraction.endsTerm t := by
  match t with
  | [] => exact endsTerm_tail hsign
  | c :: t =>
      have hne := ht.skipBlanks_ne_nil (List.cons_ne_nil c t)
      rw [Fraction.endsTerm, Fraction.endsTerm, skipBlanks_append _ (.inl hne)]
      match h : skipBlanks (c :: t) with
      | [] => exact absurd h hne
      | x :: r =>
          simp only [List.cons_append, startsWith]
          rw [← List.cons_append, after?_append_tail (by decide), Option.isSome_map]

/-! ## Locality of the recognisers -/

/-- The recogniser reads locally in every sealed text in front of the sign. -/
def Stays {α : Type} (p : Recogniser α) (sign : Char) (v : Text) : Prop :=
  ∀ t, IsSealed t → p.LocalAt (tail sign v) t

variable {α β : Type} {p : Recogniser α}

theorem Stays.map (h : Stays p sign v) (g : α → β) : Stays (p.map g) sign v :=
  fun t ht => (h t ht).map g

theorem Stays.filter (h : Stays p sign v) (test : α → Bool) : Stays (p.filter test) sign v :=
  fun t ht => (h t ht).filter test

theorem Stays.orElse {q : Recogniser α} (h : Stays p sign v) (hq : Stays q sign v) :
    Stays (p.orElse q) sign v :=
  fun t ht => (h t ht).orElse (hq t ht)

/-- What is left behind a reading is a tail of the text, so the next reading is local too. -/
theorem Stays.bind {q : α → Recogniser β} {P : Text → α → Text → Prop} (h : Stays p sign v)
    (hp : p.Meets P) (hq : ∀ a, Stays (q a) sign v) : Stays (p.bind q) sign v := by
  intro t ht
  refine (h t ht).bind fun a r hr => ?_
  obtain ⟨w, rfl, -⟩ := hp t a r hr
  exact hq a r (ht.of_suffix (List.suffix_append w r))

theorem Stays.followedBy {P : Text → α → Text → Prop} (hsign : IsSign sign)
    (h : Stays p sign v) (hp : p.Meets P) :
    Stays (p.followedBy Fraction.endsTerm) sign v := by
  intro t ht
  refine (h t ht).followedBy fun a r hr => ?_
  obtain ⟨w, rfl, -⟩ := hp t a r hr
  exact endsTerm_append_tail hsign (ht.of_suffix (List.suffix_append w r))

theorem stays_run {test : Char → Bool} (h : test ' ' = false) :
    Stays (Recogniser.run test) sign v := fun t _ =>
  Recogniser.localAt_run (fun c hc => by rwa [eq_of_mem_head?_tail hc]) t

theorem stays_char {test : Char → Bool} (h : test ' ' = false) :
    Stays (Recogniser.char test) sign v := fun t _ =>
  Recogniser.localAt_char (fun c hc => by rwa [eq_of_mem_head?_tail hc]) t

theorem stays_term : Stays Fraction.term sign v := stays_run (by decide)

theorem stays_single {c : Char} (hc : c ≠ ' ') : Stays (Recogniser.single c) sign v :=
  fun t _ => Recogniser.localAt_single (by simpa using hc.symm) t

/-- An operator that waits for an operand is looked for on this side of the sign. -/
theorem stays_spaced_single {x : Char} (hsign : IsSign sign) (hx : x = '/' ∨ x = '*') :
    Stays (Recogniser.single x).spaced sign v := by
  intro t ht
  match t with
  | [] =>
      rw [Recogniser.localAt_nil_iff, Recogniser.read?_spaced, skipBlanks_tail hsign]
      rcases hx with rfl | rfl <;> rcases hsign with rfl | rfl <;> rfl
  | c :: t =>
      have hne := ht.skipBlanks_ne_nil (List.cons_ne_nil c t)
      obtain ⟨b, hb, -⟩ := skipBlanks_eq_append (c :: t)
      have hs : IsSealed (skipBlanks (c :: t)) := ht.of_suffix ⟨b, hb.symm⟩
      have hspace : x ≠ ' ' := by rcases hx with rfl | rfl <;> decide
      refine Recogniser.LocalAt.spaced hne (stays_single hspace _ hs) fun _ r hr => ?_
      rw [Recogniser.read?_single_eq_some_iff.1 hr] at hs
      exact .inl ((hs.of_suffix (List.suffix_cons x r)).skipBlanks_ne_nil (hs.ne_nil_of_waits hx))

theorem stays_spacedSlash (hsign : IsSign sign) : Stays Fraction.spacedSlash sign v :=
  stays_spaced_single hsign (.inl rfl)

theorem stays_flatGroup : Stays Call.flatGroup sign v := by
  intro t ht
  refine (stays_single (by decide) t ht).bind fun _ r hr => ?_
  rw [Recogniser.read?_single_eq_some_iff.1 hr] at ht
  exact Recogniser.localAt_upTo ht.mem_closing

theorem stays_group : Stays Bracket.group sign v := fun t ht =>
  Bracket.localAt_group (.inr (by simp)) fun t' h => ht.round t' (h ▸ List.suffix_refl _)

theorem stays_flatCall : Stays Call.flatCall sign v :=
  (stays_run (isWordChar_eq_false (by decide))).bind (Recogniser.meets_run _)
    fun _ => stays_flatGroup.map _

theorem stays_exponent : Stays Fraction.exponent sign v := by
  intro t ht
  refine (Recogniser.localAt_literal (fun c hc => ?_) t).bind fun _ r hr => ?_
  · rw [eq_of_mem_head?_tail hc]; decide
  · have hread := Recogniser.read?_literal_eq_some_iff.1 hr
    have hmem : '}' ∈ r := ht.curly r (by rw [hread]; exact List.suffix_cons '^' _)
    exact ((Recogniser.localAt_upTo hmem).filter _).map _

theorem stays_withExponent {p : Recogniser Text} {P : Text → Text → Text → Prop}
    (h : Stays p sign v) (hp : p.Meets P) : Stays (Fraction.withExponent p) sign v :=
  (h.bind hp fun _ => stays_exponent.map _).orElse h

theorem stays_endedTerm (hsign : IsSign sign) : Stays Fraction.endedTerm sign v := by
  intro t ht
  show Fraction.endedTerm? (t ++ tail sign v) = (Fraction.endedTerm? t).map _
  induction t with
  | nil =>
      rw [List.nil_append, Fraction.endedTerm?.eq_def]
      rfl
  | cons c t ih =>
      have hs := ht.of_suffix (List.suffix_cons c t)
      rw [List.cons_append, Fraction.endedTerm?, Fraction.endedTerm?, ih hs,
        endsTerm_append_tail hsign hs]
      split
      · cases Fraction.endedTerm? t with
        | none => simp only [Option.map_none]; split <;> rfl
        | some x => rfl
      · rfl

theorem stays_division {n d : Recogniser Text} {slash : Recogniser Unit}
    {P : Text → Text → Text → Prop} {R : Text → Unit → Text → Prop}
    (hn : Stays n sign v) (hslash : Stays slash sign v) (hd : Stays d sign v)
    (hnm : n.Meets P) (hsm : slash.Meets R) : Stays (Fraction.division n slash d) sign v :=
  hn.bind hnm fun _ => hslash.bind hsm fun _ => hd.map _

/-! ## Products -/

open Fraction (ProductNotation lineProduct)

theorem takeWhile_append_tail {t : Text} (ht : skipBlanks t ≠ []) :
    (t ++ tail sign v).takeWhile isBlank = t.takeWhile isBlank := by
  obtain ⟨x, r, hx⟩ := List.exists_cons_of_ne_nil ht
  have hb : isBlank x = false := isBlank_of_mem_head?_skipBlanks (s := t) (by rw [hx]; rfl)
  have ht' : t = t.takeWhile isBlank ++ x :: r := by
    rw [← hx]; exact (List.takeWhile_append_dropWhile).symm
  have hstop : ∀ y, (x :: y).takeWhile isBlank = [] := fun y => by
    rw [List.takeWhile_cons_of_neg (by simp [hb])]
  have hblank : ∀ c ∈ t.takeWhile isBlank, isBlank c = true :=
    fun c hc => List.all_eq_true.1 List.all_takeWhile c hc
  conv => lhs; rw [ht', List.append_assoc, List.cons_append]
  rw [List.takeWhile_append_of_pos hblank, hstop, List.append_nil]

theorem stays_finish (hsign : IsSign sign) : Stays ProductNotation.finish sign v :=
  ((stays_spacedSlash hsign).bind Fraction.meets_spacedSlash fun _ => stays_term).map _

/-- In front of the sign products are read locally from the texts of a class of sealed texts. The
sign of the products waits for an operand, begins no sum, and holds no blank. -/
structure Stops (f : ProductNotation) (C : Text → Prop) (sign : Char) (v : Text) : Prop where
  isSealed : ∀ {t}, C t → IsSealed t
  suffix : ∀ {t r}, C t → r <:+ t → C r
  waits : ∀ {r}, IsSealed (f.sign ++ r) → r ≠ []
  after : after? f.sign (sign :: ' ' :: v) = none
  blank : ' ' ∉ f.sign ∧ f.isFactorChar ' ' = false
  meets : f.whole.Meets fun w t _ => w = t
  whole : ∀ {t}, C t → f.whole.LocalAt (tail sign v) t

namespace Stops

variable {f : ProductNotation} {C : Text → Prop}

theorem localAt_factorStart (h : Stops f C sign v) {t : Text} (ht : C t) :
    f.factorStart.LocalAt (tail sign v) t :=
  ((stays_char h.blank.2 t (h.isSealed ht)).map _).orElse ((h.whole ht).map _)

/-- The next factor of a product is looked for on this side of the sign. -/
theorem nextFactor?_append (h : Stops f C sign v) (hsign : IsSign sign) {t : Text} (ht : C t) :
    f.nextFactor? (t ++ tail sign v) =
      (f.nextFactor? t).map fun x => (x.1, x.2.1, x.2.2 ++ tail sign v) := by
  match t with
  | [] =>
      have hafter : after? f.sign (skipBlanks (tail sign v)) = none := by
        rw [skipBlanks_tail hsign]; exact h.after
      have hnil : f.nextFactor? [] = none := by
        cases hx : f.nextFactor? [] with
        | none => rfl
        | some x => exact absurd (f.nextFactor?_length hx) (by simp)
      rw [List.nil_append, hnil, ProductNotation.nextFactor?, hafter]
      rfl
  | c :: t =>
      have hne := (h.isSealed ht).skipBlanks_ne_nil (List.cons_ne_nil c t)
      obtain ⟨b, hb, -⟩ := skipBlanks_eq_append (c :: t)
      have hs : C (skipBlanks (c :: t)) := h.suffix ht ⟨b, hb.symm⟩
      rw [ProductNotation.nextFactor?, ProductNotation.nextFactor?,
        skipBlanks_append _ (.inl hne), after?_append_tail h.blank.1, takeWhile_append_tail hne]
      match hx : after? f.sign (skipBlanks (c :: t)) with
      | none => rfl
      | some r =>
          rw [after?_eq_some_iff.1 hx] at hs
          have hr : C r := h.suffix hs (List.suffix_append _ r)
          have hrne := (h.isSealed hr).skipBlanks_ne_nil (h.waits (h.isSealed hs))
          obtain ⟨b', hb', -⟩ := skipBlanks_eq_append r
          have hs' : C (skipBlanks r) := h.suffix hr ⟨b', hb'.symm⟩
          simp only [Option.map_some, Option.bind_some]
          rw [skipBlanks_append _ (.inl hrne), takeWhile_append_tail hrne,
            h.localAt_factorStart hs', Option.map_map, Option.map_map]
          rfl

theorem accepts_blank (h : Stops f C sign v) (st : Fraction.FactorState) :
    f.accepts st ' ' = false := by
  cases st with
  | first => rfl
  | later => exact h.blank.2
  | complete => rfl

theorem continue?_append (h : Stops f C sign v) (hsign : IsSign sign) (st : Fraction.FactorState)
    {t : Text} (ht : C t) : f.continue? st (t ++ tail sign v) =
      (f.continue? st t).map fun x => (x.1, x.2 ++ tail sign v) := by
  have hfinish : (if st = Fraction.FactorState.first then none
      else ProductNotation.finish.read? (t ++ tail sign v)) =
      (if st = Fraction.FactorState.first then none
        else ProductNotation.finish.read? t).map
          fun x => (x.1, x.2 ++ tail sign v) := by
    split
    · rfl
    · exact stays_finish hsign t (h.isSealed ht)
  have hfactor : ((f.nextFactor? (t ++ tail sign v)).bind fun x =>
      (f.continue? x.2.1 x.2.2).map (ProductNotation.prepend x.1)) =
      ((f.nextFactor? t).bind fun x =>
        (f.continue? x.2.1 x.2.2).map (ProductNotation.prepend x.1)).map
          fun x => (x.1, x.2 ++ tail sign v) := by
    rw [h.nextFactor?_append hsign ht]
    match hx : f.nextFactor? t with
    | none => rfl
    | some (w, st', r) =>
        have hlength := f.nextFactor?_length hx
        have hr : C r := h.suffix ht
          (ProductNotation.nextFactor?_eq_append h.meets hx ▸ List.suffix_append w r)
        simp only [Option.map_some, Option.bind_some]
        rw [h.continue?_append hsign st' hr, Option.map_map, Option.map_map]
        rfl
  rw [ProductNotation.continue?_eq, ProductNotation.continue?_eq, hfactor, hfinish, Option.map_or,
    Option.map_or]
  congr 1
  match t, ht with
  | [], _ => simp [h.accepts_blank st]
  | c :: t, ht =>
      simp only [List.cons_append]
      split
      · rw [h.continue?_append hsign st (h.suffix ht (List.suffix_cons c t)), Option.map_map,
          Option.map_map]
        rfl
      · rfl
termination_by t.length
decreasing_by
  · exact hlength
  · simp

theorem localAt_overTerm (h : Stops f C sign v) (hsign : IsSign sign) {t : Text} (ht : C t) :
    f.overTerm.LocalAt (tail sign v) t := by
  refine (stays_char (by decide) t (h.isSealed ht)).bind fun c r hr => ?_
  obtain ⟨w, rfl, -⟩ := Recogniser.meets_char _ _ _ _ hr
  have hlocal : (f.remainder .first).LocalAt (tail sign v) r :=
    h.continue?_append hsign .first (h.suffix ht (List.suffix_append w r))
  exact hlocal.map _

end Stops

theorem stops_lineProduct (hsign : IsSign sign) : Stops lineProduct IsSealed sign v where
  isSealed ht := ht
  suffix ht hr := ht.of_suffix hr
  waits ht hnil := ht.times (by rw [hnil, List.append_nil]; exact List.suffix_refl _)
  after := by rcases hsign with rfl | rfl <;> rfl
  blank := by decide
  meets := Recogniser.meets_never
  whole _ := rfl

/-! ## The sites of a line -/

theorem stays_lineProduct (hsign : IsSign sign) : Stays lineProduct.overTerm sign v :=
  fun _ ht => (stops_lineProduct hsign).localAt_overTerm hsign ht

/-- Two groups of one kind around a slash. -/
theorem stays_groups {p : Recogniser Text} (hp : Stays p sign v)
    (hmeets : p.Meets Fraction.IsOperand) :
    Stays (Fraction.division p Fraction.tightSlash p) sign v :=
  stays_division hp (stays_single (by decide)) hp hmeets Fraction.meets_tightSlash

theorem stays_markupGroups (style : CallStyle) :
    Stays (Fraction.markupGroups style) sign v := by
  cases style with
  | asTyped =>
      exact stays_groups ((stays_flatGroup.filter _).map _) Fraction.meets_markupGroup
  | typeset => exact stays_groups (stays_flatGroup.filter _) Fraction.meets_markupContent

theorem stays_groupSites (hsign : IsSign sign) (style : CallStyle) :
    ∀ p ∈ Fraction.groupSites style, Stays p sign v := by
  have hbraced : Stays (Fraction.groupContent.map fun t =>
      Markup.parenthesised (Markup.braced t)) sign v := (stays_flatGroup.filter _).map _
  have hcall : Stays Fraction.filledCall sign v := (stays_flatCall.filter _).map _
  have hgroup : Stays Fraction.group sign v := (stays_flatGroup.filter _).map _
  exact Fraction.forall_groupSites.2 ⟨stays_markupGroups style,
    stays_groups hbraced Fraction.meets_bracedGroup,
    stays_division (stays_withExponent hcall Fraction.meets_filledCall) (stays_spacedSlash hsign)
      stays_term Fraction.meets_powerCall Fraction.meets_spacedSlash,
    stays_division (stays_withExponent hgroup Fraction.meets_group) (stays_spacedSlash hsign)
      stays_term Fraction.meets_powerGroup Fraction.meets_spacedSlash⟩

theorem stays_basicSites (hsign : IsSign sign) :
    ∀ p ∈ Fraction.basicSites, Stays p sign v := by
  have hslash : Stays Fraction.spacedSlash sign v := stays_spacedSlash hsign
  have hgroup : Stays Fraction.group sign v := (stays_flatGroup.filter _).map _
  have hcall : Stays Fraction.call sign v := stays_flatCall.map _
  exact Fraction.forall_basicSites.2
    ⟨stays_division (stays_withExponent hgroup Fraction.meets_group) hslash
      (stays_flatGroup.filter _) Fraction.meets_powerGroup Fraction.meets_spacedSlash,
    stays_lineProduct hsign,
    stays_division stays_term hslash (hcall.followedBy hsign Fraction.meets_call)
      Fraction.meets_term Fraction.meets_spacedSlash,
    stays_division stays_term hslash (stays_endedTerm hsign) Fraction.meets_term
      Fraction.meets_spacedSlash⟩

end

end Sum

end CalcTypeset
