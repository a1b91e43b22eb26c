import CalcTypeset.Proofs.Complete.Divide
import CalcTypeset.Proofs.Spacing.Spelling

/-!
# Complete fractions

A line of terms with infix operators and blanks between them, without parentheses. Its operators
are prepared one by one, so that what the two passes see is a term with segments behind it: a
product, a slash, a sign that touches the term behind it or stands apart, a braced exponent, or a
gap. How the terms are joined decides where the passes are behind each of them, and from that
whether all fractions of the converted line are complete.

They are complete unless the passes are torn somewhere: where a term over a term is followed by
factors and by one more division, with no gap in between. Then a fraction that the first pass has
made is cut open by the second.
-/

namespace CalcTypeset.Complete

open Text Fraction Chain
open Spelling (Gap squeezedGap isBlank_squeezedGap squeezeAfter_blanks squeezeAfter_sign)

/-- An infix operator that neither multiplies nor divides. -/
inductive Sign where
  | plus | minus | remainder | power
deriving DecidableEq, Repr

/-- The operator as it is typed. -/
def Sign.char : Sign → Char
  | plus => '+'
  | minus => '-'
  | remainder => '%'
  | power => '^'

/-- What stands between two terms: an operator with the blanks around it, or blanks alone. -/
inductive Joint where
  | times (left right : Gap)
  | slash (left right : Gap)
  | sign (g : Sign) (left right : Gap)
  | gap (b : Gap) (hb : b.1 ≠ [])

/-- The operator and its blanks as they are typed. -/
def Joint.write : Joint → Text
  | times b b' => b.1 ++ '*' :: b'.1
  | slash b b' => b.1 ++ '/' :: b'.1
  | sign g b b' => b.1 ++ g.char :: b'.1
  | gap b _ => b.1

/-- Terms with operators or blanks between them, as they are typed. -/
def line (t : Term) (js : List (Joint × Term)) : Text :=
  t.text ++ js.flatMap fun x => x.1.write ++ x.2.text

/-- How the term behind is joined for the two passes: without blanks, a sign makes one term of the
two that it stands between. -/
def Joint.link : Joint → Link
  | times _ _ => .times
  | slash _ _ => .slash
  | sign _ b b' => if b.1.isEmpty && b'.1.isEmpty then .touch else .gap
  | gap _ _ => .gap

/-- Where the two passes are behind the last term of a line. -/
def placeBehind (js : List (Joint × Term)) : Place :=
  js.foldl (fun p x => p.next x.1.link) .term

variable {b s w : Text} {c : Char} {t : Term} {js : List (Joint × Term)}

theorem line_cons (t u : Term) (j : Joint) (js : List (Joint × Term)) :
    line t ((j, u) :: js) = t.text ++ (j.write ++ line u js) := by
  rw [line, line, List.flatMap_cons, List.append_assoc]

theorem Term.exists_cons (t : Term) : ∃ c w, t.text = c :: w ∧ isPlainChar c = true := by
  obtain ⟨c, w, h⟩ := List.exists_cons_of_ne_nil t.ne_nil
  exact ⟨c, w, h, isPlainChar_of_isExponentChar (t.isExponent c (by simp [h]))⟩

theorem Term.isPlain (t : Term) : IsPlain t.text := fun c hc =>
  isPlainChar_of_isExponentChar (t.isExponent c hc)

/-! ## Gaps -/

theorem squeezedGap_ne_nil (hb : b ≠ []) : squeezedGap b = [' '] := by
  rw [squeezedGap, if_neg (by simpa using hb)]

/-- The operator with one space in each gap that is not empty. -/
def Joint.squeezed : Joint → Text
  | times b b' => squeezedGap b.1 ++ '*' :: squeezedGap b'.1
  | slash b b' => squeezedGap b.1 ++ '/' :: squeezedGap b'.1
  | sign g b b' => squeezedGap b.1 ++ g.char :: squeezedGap b'.1
  | gap _ _ => [' ']

/-- The line with one space in each gap that is not empty. -/
def squeezedLine (t : Term) (js : List (Joint × Term)) : Text :=
  t.text ++ js.flatMap fun x => x.1.squeezed ++ x.2.text

theorem squeezedLine_cons (t u : Term) (j : Joint) (js : List (Joint × Term)) :
    squeezedLine t ((j, u) :: js) = t.text ++ (j.squeezed ++ squeezedLine u js) := by
  rw [squeezedLine, squeezedLine, List.flatMap_cons, List.append_assoc]

theorem Sign.isBlank_char (g : Sign) : isBlank g.char = false := by cases g <;> decide

theorem squeezeAfter_joint (j : Joint) (hc : isBlank c = false) (s : Text) :
    squeezeAfter false (j.write ++ c :: s) = j.squeezed ++ squeezeAfter false (c :: s) := by
  have hsign : ∀ {x : Char} (b b' : Gap), isBlank x = false →
      squeezeAfter false (b.1 ++ x :: b'.1 ++ c :: s) =
        squeezedGap b.1 ++ x :: squeezedGap b'.1 ++ squeezeAfter false (c :: s) := by
    intro x b b' hx
    have := squeezeAfter_sign b.2 hx b'.2 hc s
    simpa using this
  cases j with
  | times b b' => exact hsign b b' (by decide)
  | slash b b' => exact hsign b b' (by decide)
  | sign g b b' => exact hsign b b' g.isBlank_char
  | gap b hb =>
      have := squeezeAfter_blanks b.2 hc s
      rwa [squeezedGap_ne_nil hb] at this

theorem squeeze_line (t : Term) (js : List (Joint × Term)) :
    squeeze (line t js) = squeezedLine t js := by
  rw [squeeze, IsSolidHead.skipBlanks (s := line t js) (t.beginning.isSolidHead _).1]
  have hplain : ∀ t : Term, ∀ c ∈ t.text, isBlank c = false := fun t c hc =>
    isBlank_of_isPlainChar (t.isPlain c hc)
  induction js generalizing t with
  | nil => exact squeezeAfter_append_of_no_blank (hplain t) []
  | cons x js ih =>
      obtain ⟨j, u⟩ := x
      obtain ⟨c, w, hw, hc⟩ := u.exists_cons
      have hline : ∃ s, line u js = c :: s := ⟨_, by rw [line, hw]; rfl⟩
      obtain ⟨s, hs⟩ := hline
      rw [line_cons, squeezedLine_cons, squeezeAfter_append_of_no_blank (hplain t), hs,
        squeezeAfter_joint j (isBlank_of_isPlainChar hc), ← hs, ih]

/-! ## Operators -/

/-- Powers and products are looked for at carets, asterisks and blanks. -/
theorem prepare_append (hw : ∀ c ∈ w, isBlank c = false ∧ c ≠ '*' ∧ c ≠ '^') (s : Text) :
    Operator.prepare (w ++ s) = w ++ Operator.prepare s := by
  rw [Operator.prepare, Operator.bracePowers_append fun h => (hw _ h).2.2 rfl]
  exact Operator.infixSign_replaceAll_of_solid (fun c hc => ⟨(hw c hc).1, (hw c hc).2.1⟩) _

theorem Term.isClear (t : Term) : ∀ c ∈ t.text, isBlank c = false ∧ c ≠ '*' ∧ c ≠ '^' :=
  fun c hc => ⟨isBlank_of_isPlainChar (t.isPlain c hc),
    ne_of_isPlainChar (t.isPlain c hc) (by decide), ne_of_isPlainChar (t.isPlain c hc) (by decide)⟩

/-- The first character of a line stays in front when its powers are written. -/
theorem exists_bracePowers_cons (c : Char) (s : Text) :
    ∃ r, Operator.bracePowers (c :: s) = c :: r := by
  cases hread : Operator.power.read? (c :: s) with
  | none => exact ⟨_, Recogniser.replaceAll_of_none _ _ hread⟩
  | some y =>
      obtain ⟨w, hw, rfl, -⟩ := Operator.meets_power _ _ _ hread
      obtain rfl : c = '^' := (List.cons.inj hw).1
      exact ⟨_, Recogniser.replaceAll_of_read _ _ hread⟩

/-- A space stays in front of what is no asterisk. -/
theorem prepare_gap (b : Text) (hc : isBlank c = false ∧ c ≠ '*') (s : Text) :
    Operator.prepare (squeezedGap b ++ c :: s) = squeezedGap b ++ Operator.prepare (c :: s) := by
  cases b with
  | nil => rfl
  | cons x b =>
      show Operator.prepare ([' '] ++ c :: s) = _
      obtain ⟨r, hr⟩ := exists_bracePowers_cons c s
      rw [Operator.prepare, Operator.prepare, Operator.bracePowers_append (by decide), hr]
      exact Recogniser.replaceAll_of_none _ _ ((Operator.infixSign_read?_cons_of_isBlank
        (by decide) _).trans (Operator.infixSign_read?_eq_none hc.1 hc.2 _))

theorem prepare_gap_term (b : Text) (t : Term) (s : Text) :
    Operator.prepare (squeezedGap b ++ (t.text ++ s)) =
      squeezedGap b ++ (t.text ++ Operator.prepare s) := by
  obtain ⟨c, w, hw, hc⟩ := t.exists_cons
  have := prepare_gap b (c := c) ⟨isBlank_of_isPlainChar hc, ne_of_isPlainChar hc (by decide)⟩
    (w ++ s)
  rwa [← List.cons_append, ← hw, prepare_append t.isClear] at this

/-- A sign that is neither an asterisk nor a caret stays as it is. -/
theorem prepare_sign (hc : isBlank c = false ∧ c ≠ '*' ∧ c ≠ '^') (b b' : Text) (t : Term)
    (s : Text) : Operator.prepare (squeezedGap b ++ c :: (squeezedGap b' ++ (t.text ++ s))) =
      squeezedGap b ++ c :: (squeezedGap b' ++ (t.text ++ Operator.prepare s)) := by
  have hsign := prepare_append (w := [c]) (by simpa using hc) (squeezedGap b' ++ (t.text ++ s))
  rw [List.singleton_append, List.singleton_append, prepare_gap_term] at hsign
  rw [prepare_gap b ⟨hc.1, hc.2.1⟩, hsign]

/-- An asterisk becomes a multiplication sign. -/
theorem prepare_times (b b' : Text) (t : Term) (s : Text) :
    Operator.prepare (squeezedGap b ++ '*' :: (squeezedGap b' ++ (t.text ++ s))) =
      Markup.times ++ (t.text ++ Operator.prepare s) := by
  have hgap : ∀ b, '^' ∉ squeezedGap b := fun b h =>
    absurd (isBlank_squeezedGap b _ h) (by decide)
  have hterm : '^' ∉ t.text := fun h => (t.isClear _ h).2.2 rfl
  have hpower : Operator.bracePowers (squeezedGap b ++ '*' :: (squeezedGap b' ++ (t.text ++ s))) =
      squeezedGap b ++ '*' :: (squeezedGap b' ++ (t.text ++ Operator.bracePowers s)) := by
    have := Operator.bracePowers_append (w := squeezedGap b ++ '*' :: (squeezedGap b' ++ t.text))
      (by simp [hgap, hterm]) s
    simpa using this
  have hsolid := (t.beginning.isSolidHead (Operator.bracePowers s)).1
  have hread := Operator.infixSign_read?_of_blanks (x := '*') (by decide) (isBlank_squeezedGap b)
    (isBlank_squeezedGap b') (t.text ++ Operator.bracePowers s)
  rw [hsolid.skipBlanks] at hread
  rw [Operator.prepare, hpower]
  refine (Recogniser.replaceAll_of_read _ _ hread).trans (congrArg (Markup.times ++ ·) ?_)
  exact Operator.infixSign_replaceAll_of_solid
    (fun c hc => ⟨(t.isClear c hc).1, (t.isClear c hc).2.1⟩) _

/-- A caret takes the term that it touches between braces. -/
theorem prepare_power (t : Term) (hs : ∀ c ∈ s.head?, Operator.isExponentChar c = false) :
    Operator.prepare ('^' :: (t.text ++ s)) =
      '^' :: Markup.braced t.text ++ Operator.prepare s := by
  have hread : Operator.power.read? ('^' :: (t.text ++ s)) = some (t.text, s) := by
    have hcaret : (Recogniser.single '^').read? ('^' :: (t.text ++ s)) = some ((), t.text ++ s) :=
      rfl
    have hrun : run? Operator.isExponentChar (t.text ++ s) = some (t.text, s) :=
      run?_append t.ne_nil t.isExponent hs
    have hminus : (Recogniser.single '-').read? (t.text ++ s) = none := by
      obtain ⟨c, w, hw, hc⟩ := t.exists_cons
      rw [hw]
      exact Recogniser.read?_single_eq_none (ne_of_isPlainChar hc (by decide)) _
    rw [Operator.power, Recogniser.read?_bind, hcaret, Option.bind_some, Operator.exponent,
      Recogniser.read?_orElse, Recogniser.read?_bind, hminus, Recogniser.read?_run, hrun]
    rfl
  have hsolid : ∀ c ∈ '^' :: Markup.braced t.text, isBlank c = false ∧ c ≠ '*' := by
    intro c hc
    simp only [Markup.braced, List.cons_append, List.mem_cons, List.mem_append, List.not_mem_nil,
      or_false] at hc
    rcases hc with rfl | rfl | hc | rfl
    · decide
    · decide
    · exact ⟨(t.isClear c hc).1, (t.isClear c hc).2.1⟩
    · decide
  rw [Operator.prepare, Operator.bracePowers, Recogniser.replaceAll_of_read _ _ hread]
  exact Operator.infixSign_replaceAll_of_solid hsolid _

/-- A caret with a blank behind it takes nothing. -/
theorem prepare_caret_space (s : Text) :
    Operator.prepare ('^' :: ' ' :: s) = '^' :: Operator.prepare (' ' :: s) := by
  have hread : Operator.power.read? ('^' :: ' ' :: s) = none := rfl
  rw [Operator.prepare, Operator.bracePowers, Recogniser.replaceAll_of_none _ _ hread]
  exact Operator.infixSign_replaceAll_of_solid (w := ['^']) (by decide) _

/-! ## Segments -/

/-- A sign on its own. -/
def Sign.word (g : Sign) : Word where
  text := [g.char]
  ne_nil := by simp
  strand := .char (by cases g <;> decide) .nil
  noSign := by cases g <;> decide

/-- What a sign makes of the term that it touches. -/
def Sign.taken (g : Sign) (t : Term) : Text :=
  match g with
  | power => Markup.braced t.text
  | _ => t.text

/-- A sign with the term behind it. -/
def Sign.wordBefore (g : Sign) (t : Term) : Word where
  text := g.char :: g.taken t
  ne_nil := by simp
  strand := by
    cases g with
    | power => exact .exponent t.isExponent .nil
    | _ => exact .char (by decide) t.strand
  noSign := by
    cases g with
    | _ => simp [Sign.char, Sign.taken, Markup.braced, t.noSign]

/-- A word that touches the term in front, or is set off from it. -/
def attach (b : Gap) (w : Word) : Segment := if b.1.isEmpty then .touch w else .gap w

theorem write_attach (b : Gap) (w : Word) : (attach b w).write = squeezedGap b.1 ++ w.text := by
  rw [attach, squeezedGap]
  split <;> rfl

/-- The slash with the blanks around it when gaps have been squeezed. -/
def squeezedSlash (b b' : Gap) : Slash :=
  ⟨squeezedGap b.1 ++ '/' :: squeezedGap b'.1, _, _, rfl, isBlank_squeezedGap _,
    isBlank_squeezedGap _⟩

/-- What a joint and the term behind it are for the two passes. -/
def Joint.segments (j : Joint) (t : Term) : List Segment :=
  match j with
  | times _ _ => [.times t]
  | slash b b' => [.slash (squeezedSlash b b') t]
  | sign g b b' =>
      if b'.1.isEmpty then [attach b (g.wordBefore t)] else [attach b g.word, .gap t.toWord]
  | gap _ _ => [.gap t.toWord]

theorem Joint.isExponentChar_head_squeezed (j : Joint) (s : Text) :
    ∀ c ∈ (j.squeezed ++ s).head?, Operator.isExponentChar c = false := by
  have hsign : ∀ {x : Char} (b : Gap) (r : Text), Operator.isExponentChar x = false →
      ∀ c ∈ (squeezedGap b.1 ++ x :: r ++ s).head?, Operator.isExponentChar c = false := by
    rintro x ⟨_ | ⟨y, b⟩, hb⟩ r hx c hc
    · obtain rfl : x = c := Option.some.inj hc
      exact hx
    · obtain rfl : ' ' = c := Option.some.inj hc
      decide
  cases j with
  | times b b' => exact hsign b _ (by decide)
  | slash b b' => exact hsign b _ (by decide)
  | sign g b b' => exact hsign b _ (by cases g <;> decide)
  | gap b hb =>
      intro c hc
      obtain rfl : ' ' = c := Option.some.inj hc
      decide

theorem writeSegments_sign (g : Sign) (b b' : Gap) (t : Term) :
    writeSegments ((Joint.sign g b b').segments t) = squeezedGap b.1 ++ g.char ::
      (squeezedGap b'.1 ++ if b'.1.isEmpty then g.taken t else t.text) := by
  have hgap : (Segment.gap t.toWord).write = ' ' :: t.text := rfl
  rw [Joint.segments]
  cases hb : b'.1.isEmpty <;>
    simp [writeSegments, write_attach, hgap, squeezedGap, hb, Sign.word, Sign.wordBefore]

/-- Of the signs only a caret does something to the term behind it, when it touches the term. -/
theorem prepare_infix (g : Sign) (b b' : Gap) (t : Term)
    (hs : ∀ c ∈ s.head?, Operator.isExponentChar c = false) :
    Operator.prepare (squeezedGap b.1 ++ g.char :: (squeezedGap b'.1 ++ (t.text ++ s))) =
      squeezedGap b.1 ++ g.char :: (squeezedGap b'.1 ++
        ((if b'.1.isEmpty then g.taken t else t.text) ++ Operator.prepare s)) := by
  by_cases hg : g = .power
  · subst hg
    rw [prepare_gap b.1 (c := Sign.power.char) (by decide)]
    congr 1
    cases hb : b'.1.isEmpty with
    | true =>
        have hnil : squeezedGap b'.1 = [] := by rw [squeezedGap, if_pos hb]
        rw [hnil]
        exact prepare_power t hs
    | false =>
        have hspace : squeezedGap b'.1 = [' '] := by rw [squeezedGap, hb]; rfl
        rw [hspace]
        exact (prepare_caret_space _).trans (congrArg ('^' :: ·) (prepare_gap_term [' '] t s))
  · have htaken : g.taken t = t.text := by
      cases g with
      | power => exact absurd rfl hg
      | _ => rfl
    have hchar : isBlank g.char = false ∧ g.char ≠ '*' ∧ g.char ≠ '^' := by
      cases g with
      | power => exact absurd rfl hg
      | _ => decide
    rw [prepare_sign hchar, htaken, ite_self]

/-- A joint and the term behind it are prepared on their own. -/
theorem prepare_joint (j : Joint) (t : Term)
    (hs : ∀ c ∈ s.head?, Operator.isExponentChar c = false) :
    Operator.prepare (j.squeezed ++ (t.text ++ s)) =
      writeSegments (j.segments t) ++ Operator.prepare s := by
  cases j with
  | times b b' =>
      have := prepare_times b.1 b'.1 t s
      simpa [Joint.squeezed, Joint.segments, writeSegments, Segment.write] using this
  | slash b b' =>
      have := prepare_sign (c := '/') (by decide) b.1 b'.1 t s
      simpa [Joint.squeezed, Joint.segments, writeSegments, Segment.write, squeezedSlash] using this
  | sign g b b' =>
      have := prepare_infix g b b' t hs
      have hsqueezed : (Joint.sign g b b').squeezed ++ (t.text ++ s) =
          squeezedGap b.1 ++ g.char :: (squeezedGap b'.1 ++ (t.text ++ s)) := by
        simp [Joint.squeezed]
      rw [hsqueezed, this, writeSegments_sign]
      simp
  | gap b hb =>
      have := prepare_gap_term [' '] t s
      simpa [Joint.squeezed, Joint.segments, writeSegments, Segment.write, squeezedGap,
        Term.toWord] using this

theorem prepare_squeezedLine (t : Term) (js : List (Joint × Term)) :
    Operator.prepare (squeezedLine t js) =
      t.text ++ writeSegments (js.flatMap fun x => x.1.segments x.2) := by
  rw [squeezedLine, prepare_append t.isClear]
  congr 1
  induction js with
  | nil => simp [Operator.prepare, Operator.bracePowers, Operator.writeProducts, writeSegments]
  | cons x js ih =>
      have hhead : ∀ c ∈ (js.flatMap fun x => x.1.squeezed ++ x.2.text).head?,
          Operator.isExponentChar c = false := by
        cases js with
        | nil => simp
        | cons y js =>
            rw [List.flatMap_cons, List.append_assoc]
            exact y.1.isExponentChar_head_squeezed _
      rw [List.flatMap_cons, List.flatMap_cons, List.append_assoc, prepare_joint x.1 x.2 hhead, ih,
        writeSegments, writeSegments, writeSegments, List.flatMap_append]

/-! ## Places -/

theorem Place.next_gap_gap (p : Place) : (p.next .gap).next .gap = p.next .gap := by
  cases p <;> rfl

theorem behind_append (p : Place) (ss ss' : List Segment) :
    Place.behind p (ss ++ ss') = Place.behind (Place.behind p ss) ss' := List.foldl_append

/-- The segments of a joint lead from place to place as the joint does. -/
theorem behind_segments (p : Place) (j : Joint) (t : Term) :
    Place.behind p (j.segments t) = p.next j.link := by
  cases j with
  | times b b' => rfl
  | slash b b' => rfl
  | sign g b b' =>
      rw [Joint.segments, Joint.link, attach, attach]
      cases b.1.isEmpty with
      | true =>
          cases b'.1.isEmpty with
          | true => rfl
          | false => exact congrArg (Place.next · .gap) p.next_touch
      | false =>
          cases b'.1.isEmpty with
          | true => rfl
          | false => exact p.next_gap_gap
  | gap b hb => rfl

theorem behind_line (p : Place) (js : List (Joint × Term)) :
    Place.behind p (js.flatMap fun x => x.1.segments x.2) =
      js.foldl (fun p x => p.next x.1.link) p := by
  induction js generalizing p with
  | nil => rfl
  | cons x js ih => rw [List.flatMap_cons, behind_append, behind_segments, ih, List.foldl_cons]

/-! ## The conversion -/

theorem mem_line (h : c ∈ line t js) :
    isPlainChar c = true ∨ isBlank c = true ∨ c ∈ ['+', '-', '*', '/', '%', '^'] := by
  have hsign : ∀ {x : Char} (b b' : Gap), x ∈ ['+', '-', '*', '/', '%', '^'] →
      c ∈ b.1 ++ x :: b'.1 → isBlank c = true ∨ c ∈ ['+', '-', '*', '/', '%', '^'] := by
    intro x b b' hx h
    rcases List.mem_append.1 h with h | h
    · exact .inl (b.2 c h)
    · rcases List.mem_cons.1 h with rfl | h
      · exact .inr hx
      · exact .inl (b'.2 c h)
  rcases List.mem_append.1 h with h | h
  · exact .inl (t.isPlain c h)
  · obtain ⟨⟨j, u⟩, -, h⟩ := List.mem_flatMap.1 h
    rcases List.mem_append.1 h with h | h
    · right
      cases j with
      | times b b' => exact hsign b b' (by decide) h
      | slash b b' => exact hsign b b' (by decide) h
      | sign g b b' => exact hsign b b' (by cases g <;> decide) h
      | gap b hb => exact .inl (b.2 c h)
    · exact .inl (u.isPlain c h)

theorem not_mem_line (hplain : isPlainChar c = false) (hblank : isBlank c = false)
    (hsign : c ∉ ['+', '-', '*', '/', '%', '^']) : c ∉ line t js := fun h => by
  rcases mem_line h with h | h | h
  · rw [hplain] at h; cases h
  · rw [hblank] at h; cases h
  · exact hsign h

theorem convert_line (style : CallStyle) (t : Term) (js : List (Joint × Term)) :
    Conversion.convert style (line t js) = squeeze (Operator.writeRemainders
      (divide (t.text ++ writeSegments (js.flatMap fun x => x.1.segments x.2)))) := by
  have hvisible : isAllBlank (line t js) = false := by
    obtain ⟨c, w, hw, hc⟩ := t.exists_cons
    rw [line, hw, List.cons_append, isAllBlank, List.all_cons, isBlank_of_isPlainChar hc]
    rfl
  rw [Conversion.convert_of_flat style hvisible
    (not_mem_line (by decide) (by decide) (by decide))
    (not_mem_line (by decide) (by decide) (by decide)), squeeze_line, prepare_squeezedLine]
  rfl

theorem Outcome.finish {p : Place} (h : Outcome p s) :
    Outcome p (squeeze (Operator.writeRemainders s)) :=
  ⟨fun hp => (h.1 hp).writeRemainders.squeeze, fun hp => (h.2 hp).writeRemainders.squeeze⟩

/-- A converted line is torn or whole as the place behind its last term says. -/
theorem outcome_convert (style : CallStyle) (t : Term) (js : List (Joint × Term)) :
    Outcome (placeBehind js) (Conversion.convert style (line t js)) := by
  have := (outcome_divide t (js.flatMap fun x => x.1.segments x.2)).finish
  rwa [behind_line, ← convert_line style] at this

/-- All fractions of a converted line are complete exactly when the two passes are torn nowhere in
it. -/
theorem isComplete_convert_iff (style : CallStyle) (t : Term) (js : List (Joint × Term)) :
    IsComplete (Conversion.convert style (line t js)) ↔ placeBehind js ≠ .torn := by
  obtain ⟨htorn, hwhole⟩ := outcome_convert style t js
  constructor
  · intro hcomplete hplace
    exact (htorn hplace).not_isComplete hcomplete
  · intro hplace
    exact (hwhole hplace).isComplete

/-- A letter as a term. -/
def letter (c : Char) (hc : Operator.isExponentChar c = true) : Term where
  text := [c]
  ne_nil := singleton_ne_nil c
  isExponent _ hx := List.mem_singleton.1 hx ▸ hc

/-- A product over a term is cut open when it is a divisor itself. -/
theorem not_isComplete_convert : ∃ t js, line t js = "a/b*c/d".toList ∧
    ∀ style, ¬ IsComplete (Conversion.convert style (line t js)) := by
  have hnone : ∀ c ∈ ([] : Text), isBlank c = true := by simp
  refine ⟨letter 'a' (by decide), [(.slash ⟨[], hnone⟩ ⟨[], hnone⟩, letter 'b' (by decide)),
    (.times ⟨[], hnone⟩ ⟨[], hnone⟩, letter 'c' (by decide)),
    (.slash ⟨[], hnone⟩ ⟨[], hnone⟩, letter 'd' (by decide))], rfl, fun style => ?_⟩
  have hconvert : Conversion.convert style "a/b*c/d".toList =
      "\\frac\x7ba\x7d\x7b".toList ++ (Markup.fracOpen ++ ("b".toList ++ '}' :: '\\' ::
        "times c\x7d\x7bd\x7d".toList)) := by
    cases style <;> decide +kernel
  exact IsTorn.not_isComplete ⟨_, _, _, hconvert, by decide⟩

end CalcTypeset.Complete
