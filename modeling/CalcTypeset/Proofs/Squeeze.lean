import CalcTypeset.Proofs.Scan

/-!
# Squeezed gaps

The squeezing scan carries one bit, whether it has just passed a blank, so squeezing a text that
was put together means squeezing the first part and going on with that bit. The ends of a squeezed
text are the ends of the trimmed one, and two squeezed texts with a sign between them are what
comes of squeezing them together.
-/

namespace CalcTypeset.Text

/-- Something of the text can be seen. -/
def IsVisible (s : Text) : Prop := ∃ c ∈ s, isBlank c = false

theorem isVisible_iff {s : Text} : IsVisible s ↔ isAllBlank s = false := by
  simp [IsVisible, isAllBlank, List.all_eq_false]

theorem IsVisible.append_left {s : Text} (h : IsVisible s) (t : Text) : IsVisible (s ++ t) := by
  obtain ⟨c, hc, hb⟩ := h
  exact ⟨c, List.mem_append_left t hc, hb⟩

theorem IsVisible.append_right {t : Text} (s : Text) (h : IsVisible t) : IsVisible (s ++ t) := by
  obtain ⟨c, hc, hb⟩ := h
  exact ⟨c, List.mem_append_right s hc, hb⟩

theorem isVisible_append_iff {s t : Text} :
    IsVisible (s ++ t) ↔ IsVisible s ∨ IsVisible t := by
  refine ⟨fun ⟨c, hc, hb⟩ => ?_, fun h => h.elim (·.append_left t) (·.append_right s)⟩
  exact (List.mem_append.1 hc).imp (fun h => ⟨c, h, hb⟩) fun h => ⟨c, h, hb⟩

/-- A rewriting that hides nothing. -/
theorem congruence_isVisible :
    Congruence fun s s' => IsVisible s → IsVisible s' where
  refl _ h := h
  append hs ht h := isVisible_append_iff.2 ((isVisible_append_iff.1 h).imp hs ht)

theorem skipBlanks_ne_nil_iff {s : Text} : skipBlanks s ≠ [] ↔ IsVisible s := by
  obtain ⟨b, hb, hblank⟩ := skipBlanks_eq_append s
  constructor
  · intro h
    obtain ⟨c, r, hr⟩ := List.exists_cons_of_ne_nil h
    exact ⟨c, by rw [hb, hr]; simp, isBlank_of_mem_head?_skipBlanks (s := s) (by rw [hr]; rfl)⟩
  · rintro ⟨c, hc, hcb⟩ hnil
    rw [hb, hnil, List.append_nil] at hc
    rw [hblank c hc] at hcb
    cases hcb

theorem IsVisible.skipBlanks_append {s : Text} (h : IsVisible s) (t : Text) :
    skipBlanks (s ++ t) = skipBlanks s ++ t :=
  Text.skipBlanks_append t (.inl (skipBlanks_ne_nil_iff.2 h))

theorem skipBlanks_eq_nil {s : Text} (h : ¬ IsVisible s) : skipBlanks s = [] :=
  Decidable.not_not.1 fun hne => h (skipBlanks_ne_nil_iff.1 hne)

/-! ## Squeezing -/

/-- Whether a blank has just been passed at the end of a text. -/
def gapAfter : (gap : Bool) → Text → Bool
  | gap, [] => gap
  | _, c :: s => gapAfter (isBlank c) s

theorem squeezeAfter_append (gap : Bool) (s t : Text) :
    squeezeAfter gap (s ++ t) = squeezeAfter gap s ++ squeezeAfter (gapAfter gap s) t := by
  induction s generalizing gap with
  | nil => rfl
  | cons c s ih =>
      rw [List.cons_append, squeezeAfter, squeezeAfter, gapAfter]
      cases hc : isBlank c with
      | true => simp only [if_true]; exact ih true
      | false => cases gap <;> simp [ih]

theorem squeezeAfter_of_all_blank {b : Text} (gap : Bool) (hb : ∀ c ∈ b, isBlank c = true) :
    squeezeAfter gap b = [] := by
  induction b generalizing gap with
  | nil => rfl
  | cons c b ih =>
      rw [squeezeAfter, if_pos (hb c (by simp))]
      exact ih true fun x hx => hb x (by simp [hx])

/-- Squeezing touches blanks only. -/
theorem filter_squeezeAfter (gap : Bool) (s : Text) :
    (squeezeAfter gap s).filter (fun c => !isBlank c) = s.filter fun c => !isBlank c := by
  induction s generalizing gap with
  | nil => rfl
  | cons c s ih =>
      rw [squeezeAfter]
      cases hc : isBlank c with
      | true => rw [if_pos rfl, ih]; simp [hc]
      | false =>
          have hcons : (c :: squeezeAfter false s).filter (fun c => !isBlank c) =
              (c :: s).filter fun c => !isBlank c := by
            rw [List.filter_cons_of_pos (by simp [hc]), List.filter_cons_of_pos (by simp [hc]), ih]
          cases gap with
          | true => exact hcons
          | false => exact hcons

theorem filter_squeeze (s : Text) :
    (squeeze s).filter (fun c => !isBlank c) = s.filter fun c => !isBlank c := by
  obtain ⟨b, hb, hblank⟩ := skipBlanks_eq_append s
  have hnil : b.filter (fun c => !isBlank c) = [] :=
    List.filter_eq_nil_iff.2 fun c hc => by simp [hblank c hc]
  rw [squeeze, filter_squeezeAfter]
  conv => rhs; rw [hb, List.filter_append, hnil]
  rfl

theorem squeezeAfter_append_of_no_blank {s : Text} (hs : ∀ c ∈ s, isBlank c = false) (t : Text) :
    squeezeAfter false (s ++ t) = s ++ squeezeAfter false t := by
  induction s with
  | nil => rfl
  | cons c s ih =>
      have := ih fun x hx => hs x (by simp [hx])
      simp [squeezeAfter, hs c (by simp), this]

/-- The space that is written for a gap. -/
def gapSpace (gap : Bool) : Text := if gap then [' '] else []

theorem squeezeAfter_cons {c : Char} (hc : isBlank c = false) (gap : Bool) (s : Text) :
    squeezeAfter gap (c :: s) = gapSpace gap ++ c :: squeezeAfter false s := by
  cases gap <;> simp [squeezeAfter, gapSpace, hc]

/-- The text as it is squeezed in front of something that can be seen. -/
def squeezeInside (gap : Bool) (s : Text) : Text :=
  squeezeAfter gap s ++ gapSpace (gapAfter gap s)

theorem squeezeAfter_append_cons {c : Char} (hc : isBlank c = false) (gap : Bool) (s t : Text) :
    squeezeAfter gap (s ++ c :: t) = squeezeInside gap s ++ c :: squeezeAfter false t := by
  rw [squeezeAfter_append, squeezeAfter_cons hc, squeezeInside, List.append_assoc]

theorem squeezeInside_ne_nil {gap : Bool} {s : Text} (hs : s ≠ []) : squeezeInside gap s ≠ [] := by
  induction s generalizing gap with
  | nil => exact absurd rfl hs
  | cons c s ih =>
      cases hc : isBlank c with
      | false =>
          rw [squeezeInside, squeezeAfter_cons hc]
          simp
      | true =>
          have hcons : squeezeInside gap (c :: s) = squeezeInside true s := by
            rw [squeezeInside, squeezeInside, squeezeAfter, if_pos hc, gapAfter, hc]
          rw [hcons]
          cases s with
          | nil => simp [squeezeInside, squeezeAfter, gapAfter, gapSpace]
          | cons x s => exact ih (List.cons_ne_nil x s)

/-- A text without blanks is squeezed already. -/
theorem squeeze_eq_self {s : Text} (hs : ∀ c ∈ s, isBlank c = false) : squeeze s = s := by
  have := squeezeAfter_append_of_no_blank hs []
  rw [List.append_nil] at this
  rw [squeeze, skipBlanks_eq_self fun c hc => hs c (List.mem_of_mem_head? hc), this]
  exact List.append_nil s

theorem squeeze_cons_of_isBlank {c : Char} (s : Text) (hc : isBlank c = true) :
    squeeze (c :: s) = squeeze s := by
  rw [squeeze, squeeze, skipBlanks_cons_of_isBlank s hc]

theorem squeeze_concat_of_isBlank {c : Char} (s : Text) (hc : isBlank c = true) :
    squeeze (s ++ [c]) = squeeze s := by
  by_cases hs : IsVisible s
  · have hblank : ∀ x ∈ [c], isBlank x = true := by simpa using hc
    rw [squeeze, squeeze, hs.skipBlanks_append, squeezeAfter_append,
      squeezeAfter_of_all_blank _ hblank, List.append_nil]
  · have hconcat : ¬ IsVisible (s ++ [c]) := by
      rw [isVisible_append_iff, not_or]
      exact ⟨hs, by simp [IsVisible, hc]⟩
    rw [squeeze, squeeze, skipBlanks_eq_nil hs, skipBlanks_eq_nil hconcat]

/-- Behind a gap, the text is squeezed and set off by one space. -/
theorem IsVisible.squeezeAfter_true {s : Text} (h : IsVisible s) :
    squeezeAfter true s = ' ' :: squeeze s := by
  induction s with
  | nil => obtain ⟨c, hc, -⟩ := h; cases hc
  | cons c s ih =>
      cases hc : isBlank c with
      | true =>
          have hs : IsVisible s := by
            obtain ⟨x, hx, hb⟩ := h
            rcases List.mem_cons.1 hx with rfl | hx
            · rw [hc] at hb; cases hb
            · exact ⟨x, hx, hb⟩
          rw [squeezeAfter, if_pos hc, squeeze_cons_of_isBlank s hc, ih hs]
      | false =>
          simp [squeezeAfter, squeeze, hc, skipBlanks_cons_of_not_isBlank s hc]

/-- Squeezing two texts with a sign between them, with gaps on both sides of it. -/
theorem squeeze_append_sign {s t : Text} {sign : Char} (hs : IsVisible s) (ht : IsVisible t)
    (hsign : isBlank sign = false) :
    squeeze (s ++ ' ' :: sign :: ' ' :: t) = squeeze s ++ ' ' :: sign :: ' ' :: squeeze t := by
  have htail : ∀ gap, squeezeAfter gap (' ' :: sign :: ' ' :: t) =
      ' ' :: sign :: ' ' :: squeeze t := by
    intro gap
    have hspace : isBlank ' ' = true := by decide
    simp [squeezeAfter, hspace, hsign, ht.squeezeAfter_true]
  rw [squeeze, hs.skipBlanks_append, squeezeAfter_append, htail]
  rfl

theorem mem_squeezeAfter {gap : Bool} {s : Text} {c : Char} (h : c ∈ squeezeAfter gap s) :
    c = ' ' ∨ c ∈ s := by
  induction s generalizing gap with
  | nil => cases h
  | cons x s ih =>
      rw [squeezeAfter] at h
      split at h
      · exact (ih h).imp_right (List.mem_cons_of_mem x)
      · split at h
        · rcases List.mem_cons.1 h with rfl | h
          · exact .inl rfl
          · rcases List.mem_cons.1 h with rfl | h
            · exact .inr (by simp)
            · exact (ih h).imp_right (List.mem_cons_of_mem x)
        · rcases List.mem_cons.1 h with rfl | h
          · exact .inr (by simp)
          · exact (ih h).imp_right (List.mem_cons_of_mem x)

theorem mem_squeeze {s : Text} {c : Char} (h : c ∈ squeeze s) : c = ' ' ∨ c ∈ s := by
  obtain ⟨b, hb, -⟩ := skipBlanks_eq_append s
  refine (mem_squeezeAfter h).imp_right fun hc => ?_
  rw [hb]
  exact List.mem_append_right b hc

/-! ## The ends of a text -/

theorem trimEnd_append_blanks (s : Text) :
    ∃ b, s = trimEnd s ++ b ∧ ∀ c ∈ b, isBlank c = true := by
  obtain ⟨b, hb, hblank⟩ := skipBlanks_eq_append s.reverse
  refine ⟨b.reverse, ?_, fun c hc => hblank c (List.mem_reverse.1 hc)⟩
  rw [trimEnd, ← List.reverse_append, ← hb, List.reverse_reverse]

theorem isBlank_of_mem_getLast?_trim {s : Text} {c : Char} (h : c ∈ (trim s).getLast?) :
    isBlank c = false := by
  rw [trim, trimEnd, List.getLast?_reverse] at h
  exact isBlank_of_mem_head?_skipBlanks h

theorem isBlank_of_mem_head?_trim {s : Text} {c : Char} (h : c ∈ (trim s).head?) :
    isBlank c = false := by
  obtain ⟨b, hb, -⟩ := trimEnd_append_blanks (skipBlanks s)
  refine isBlank_of_mem_head?_skipBlanks (s := s) ?_
  rw [hb, List.head?_append, show trimEnd (skipBlanks s) = trim s from rfl, Option.mem_def.1 h]
  rfl

/-- What is squeezed is the trimmed text. -/
theorem squeeze_eq_squeezeAfter_trim (s : Text) : squeeze s = squeezeAfter false (trim s) := by
  obtain ⟨b, hb, hblank⟩ := trimEnd_append_blanks (skipBlanks s)
  rw [squeeze, hb, squeezeAfter_append, squeezeAfter_of_all_blank _ hblank, List.append_nil]
  rfl

theorem getLast?_squeeze (s : Text) : (squeeze s).getLast? = (trim s).getLast? := by
  rw [squeeze_eq_squeezeAfter_trim]
  match h : (trim s).getLast? with
  | none => rw [List.getLast?_eq_none_iff.1 h]; rfl
  | some c =>
      obtain ⟨m, hm⟩ := List.getLast?_eq_some_iff.1 h
      have hc := isBlank_of_mem_getLast?_trim h
      rw [hm, squeezeAfter_append, squeezeAfter, hc, List.getLast?_append]
      cases gapAfter false m <;> rfl

theorem head?_squeeze (s : Text) : (squeeze s).head? = (trim s).head? := by
  rw [squeeze_eq_squeezeAfter_trim]
  match h : trim s with
  | [] => rfl
  | c :: m =>
      have hc : isBlank c = false := isBlank_of_mem_head?_trim (s := s) (by rw [h]; rfl)
      rw [squeezeAfter, hc]
      rfl

theorem IsVisible.squeeze_ne_nil {s : Text} (h : IsVisible s) : squeeze s ≠ [] := by
  obtain ⟨c, r, hr⟩ := List.exists_cons_of_ne_nil (skipBlanks_ne_nil_iff.2 h)
  have hc : isBlank c = false := isBlank_of_mem_head?_skipBlanks (s := s) (by rw [hr]; rfl)
  rw [squeeze, hr, squeezeAfter, hc]
  exact List.cons_ne_nil _ _

/-! ## Squeezed texts -/

theorem squeezeAfter_true_eq {c : Char} (hc : isBlank c = false) (s : Text) :
    squeezeAfter true (c :: s) = ' ' :: squeezeAfter false (c :: s) := by
  simp [squeezeAfter, hc]

/-- Blanks behind a gap belong to it. -/
theorem squeezeAfter_true_append_cons {b : Text} {c : Char} (hb : ∀ x ∈ b, isBlank x = true)
    (hc : isBlank c = false) (s : Text) :
    squeezeAfter true (b ++ c :: s) = ' ' :: squeezeAfter false (c :: s) := by
  induction b with
  | nil => exact squeezeAfter_true_eq hc s
  | cons x b ih =>
      rw [List.cons_append, squeezeAfter, if_pos (hb x (by simp))]
      exact ih fun y hy => hb y (by simp [hy])

theorem head?_squeezeAfter_true (s : Text) : ∀ c ∈ (squeezeAfter true s).head?, c = ' ' := by
  induction s with
  | nil => simp [squeezeAfter]
  | cons x s ih =>
      rw [squeezeAfter]
      split
      · exact ih
      · exact fun c hc => (Option.some.inj hc).symm

/-- What is no space in front of a squeezed text is there in the text. -/
theorem squeezeAfter_eq_cons {s t : Text} {c : Char} (h : squeezeAfter false s = c :: t)
    (hc : c ≠ ' ') : ∃ s', s = c :: s' ∧ squeezeAfter false s' = t := by
  cases s with
  | nil => cases h
  | cons x s =>
      cases hx : isBlank x with
      | true =>
          rw [squeezeAfter, if_pos hx] at h
          exact absurd (head?_squeezeAfter_true s c (by rw [h]; rfl)) hc
      | false =>
          rw [squeezeAfter, if_neg (by rw [hx]; decide)] at h
          obtain ⟨rfl, rfl⟩ := List.cons.inj h
          exact ⟨s, rfl, rfl⟩

theorem squeezeAfter_squeezeAfter (gap : Bool) (s : Text) :
    squeezeAfter false (squeezeAfter gap s) = squeezeAfter gap s := by
  induction s generalizing gap with
  | nil => rfl
  | cons c s ih =>
      cases hc : isBlank c with
      | true => rw [squeezeAfter, if_pos hc, ih]
      | false =>
          have hspace : isBlank ' ' = true := by decide
          cases gap <;> simp [squeezeAfter, hc, hspace, ih]

/-- A squeezed text begins with no blank. -/
theorem isBlank_of_mem_head?_squeeze {s : Text} {c : Char} (h : c ∈ (squeeze s).head?) :
    isBlank c = false := isBlank_of_mem_head?_trim (s := s) (head?_squeeze s ▸ h)

/-- A squeezed text has no gaps to squeeze. -/
theorem squeeze_squeeze (s : Text) : squeeze (squeeze s) = squeeze s := by
  conv => lhs; rw [squeeze, skipBlanks_eq_self fun c hc => isBlank_of_mem_head?_squeeze hc]
  exact squeezeAfter_squeezeAfter false _

/-- In a squeezed text every blank is a space, and what follows it is none. Nor is what stands in
front of it, when there is something. -/
theorem space_of_squeezeAfter {gap : Bool} {s a b : Text} {c : Char}
    (h : squeezeAfter gap s = a ++ c :: b) (hc : isBlank c = true) :
    c = ' ' ∧ (∃ y ∈ b.head?, isBlank y = false) ∧ ∀ x ∈ a.getLast?, isBlank x = false := by
  induction s generalizing gap a with
  | nil => cases a <;> cases h
  | cons d s ih =>
      rw [squeezeAfter] at h
      cases hd : isBlank d with
      | true =>
          rw [if_pos hd] at h
          exact ih h
      | false =>
          have hne : d ≠ c := fun he => by rw [he, hc] at hd; cases hd
          -- The blank stands behind the character that was kept.
          have hbehind : ∀ {a}, d :: squeezeAfter false s = a ++ c :: b →
              c = ' ' ∧ (∃ y ∈ b.head?, isBlank y = false) ∧
                ∀ x ∈ a.getLast?, isBlank x = false := by
            intro a h
            cases a with
            | nil => exact absurd (List.cons.inj h).1 hne
            | cons x a =>
                obtain ⟨rfl, htail⟩ := List.cons.inj h
                obtain ⟨hspace, hnext, hlast⟩ := ih htail
                refine ⟨hspace, hnext, fun y hy => ?_⟩
                cases a with
                | nil => rwa [← Option.some.inj hy]
                | cons z a => exact hlast y hy
          rw [hd] at h
          cases gap with
          | false => exact hbehind h
          | true =>
              cases a with
              | nil =>
                  obtain ⟨rfl, rfl⟩ := List.cons.inj h
                  exact ⟨rfl, ⟨d, rfl, hd⟩, by simp⟩
              | cons x a =>
                  obtain ⟨-, htail⟩ := List.cons.inj h
                  obtain ⟨hspace, hnext, hlast⟩ := hbehind htail
                  refine ⟨hspace, hnext, fun y hy => ?_⟩
                  cases a with
                  | nil => exact absurd (List.cons.inj htail).1 hne
                  | cons z a => exact hlast y hy

end CalcTypeset.Text
