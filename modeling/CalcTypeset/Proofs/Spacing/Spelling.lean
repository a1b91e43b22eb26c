import CalcTypeset.Proofs.Chain.Value
import CalcTypeset.Proofs.Spacing.Respaced

/-!
# Spellings of a line

The same terms and operators can be spelled with blanks in different places. Around an asterisk
and around a slash blanks mean nothing: the first becomes a multiplication sign that takes them, and
the second is read with them. A sign of addition or subtraction is another matter. Without a blank
it is one more character of the term that it stands next to, so two spellings are converted alike
when they have blanks on the same sides of these signs, however many they are.
-/

namespace CalcTypeset.Spelling

open Text Fraction Chain

/-- An infix operator of a line. -/
inductive Sign where
  | plus | minus | times | slash
deriving DecidableEq, Repr

/-- The operator as it is typed. -/
def Sign.char : Sign → Char
  | plus => '+'
  | minus => '-'
  | times => '*'
  | slash => '/'

/-- Blanks, or none. -/
abbrev Gap := { b : Text // ∀ c ∈ b, isBlank c = true }

/-- An operator with the blanks around it. -/
structure Joint where
  sign : Sign
  left : Gap
  right : Gap

/-- The operator and its blanks as they are typed. -/
def Joint.write (j : Joint) : Text := j.left.1 ++ j.sign.char :: j.right.1

/-- What a spelling tells: the operator, and of a sign of addition or subtraction on which sides
there are blanks. -/
def Joint.told (j : Joint) : Sign × Bool × Bool :=
  match j.sign with
  | .plus | .minus => (j.sign, j.left.1.isEmpty, j.right.1.isEmpty)
  | .times | .slash => (j.sign, true, true)

/-- Terms with operators between them, as they are typed. -/
def spell (t : Factor) (js : List (Joint × Factor)) : Text :=
  t.text ++ js.flatMap fun x => x.1.write ++ x.2.text

/-- The operators and terms of a spelling with what it tells of each operator. -/
def told (js : List (Joint × Factor)) : List ((Sign × Bool × Bool) × Factor) :=
  js.map fun x => (x.1.told, x.2)

/-! ## The gaps of a squeezed spelling -/

/-- One space for any blanks. -/
def squeezedGap (b : Text) : Text := if b.isEmpty then [] else [' ']

/-- The operator when gaps have been squeezed and products written. -/
def Joint.prepared (j : Joint) : Text :=
  match j.sign with
  | .times => Markup.times
  | _ => squeezedGap j.left.1 ++ j.sign.char :: squeezedGap j.right.1

/-- The spelling when gaps have been squeezed and products written. -/
def prepared (t : Factor) (js : List (Joint × Factor)) : Text :=
  t.text ++ js.flatMap fun x => x.1.prepared ++ x.2.text

variable {b : Text} {c : Char} {t : Factor} {j j' : Joint} {js js' : List (Joint × Factor)}

theorem spell_cons (t u : Factor) (j : Joint) (js : List (Joint × Factor)) :
    spell t ((j, u) :: js) = t.text ++ (j.write ++ spell u js) := by
  rw [spell, spell, List.flatMap_cons, List.append_assoc]

theorem prepared_cons (t u : Factor) (j : Joint) (js : List (Joint × Factor)) :
    prepared t ((j, u) :: js) = t.text ++ (j.prepared ++ prepared u js) := by
  rw [prepared, prepared, List.flatMap_cons, List.append_assoc]

theorem isSolidHead_spell (t : Factor) (js : List (Joint × Factor)) : IsSolidHead (spell t js) :=
  t.isSolidHead _

theorem Sign.isBlank_char (g : Sign) : isBlank g.char = false := by cases g <;> decide

theorem isBlank_squeezedGap (b : Text) : ∀ c ∈ squeezedGap b, isBlank c = true := by
  intro c hc
  rw [squeezedGap] at hc
  split at hc
  · cases hc
  · rw [List.mem_singleton.1 hc]
    decide

/-- The joint with one space in each gap that is not empty. -/
def Joint.squeezed (j : Joint) : Joint :=
  ⟨j.sign, ⟨squeezedGap j.left.1, isBlank_squeezedGap _⟩,
    ⟨squeezedGap j.right.1, isBlank_squeezedGap _⟩⟩

/-- Blanks in front of something else become one space. -/
theorem squeezeAfter_blanks (hb : ∀ c ∈ b, isBlank c = true) (hc : isBlank c = false) (s : Text) :
    squeezeAfter false (b ++ c :: s) = squeezedGap b ++ squeezeAfter false (c :: s) := by
  cases b with
  | nil => rfl
  | cons x b =>
      rw [List.cons_append, squeezeAfter, if_pos (hb x (by simp)),
        squeezeAfter_true_append_cons (fun y hy => hb y (by simp [hy])) hc]
      rfl

/-- So do the blanks around a sign. -/
theorem squeezeAfter_sign {b' : Text} {x : Char} (hb : ∀ c ∈ b, isBlank c = true)
    (hx : isBlank x = false) (hb' : ∀ c ∈ b', isBlank c = true) (hc : isBlank c = false)
    (s : Text) : squeezeAfter false (b ++ x :: (b' ++ c :: s)) =
      squeezedGap b ++ x :: (squeezedGap b' ++ squeezeAfter false (c :: s)) := by
  have hsign : squeezeAfter false (x :: (b' ++ c :: s)) =
      x :: squeezeAfter false (b' ++ c :: s) := squeezeAfter_cons hx false _
  rw [squeezeAfter_blanks hb hx, hsign, squeezeAfter_blanks hb' hc]

theorem squeezeAfter_spell (t : Factor) (js : List (Joint × Factor)) :
    squeezeAfter false (spell t js) = spell t (js.map fun x => (x.1.squeezed, x.2)) := by
  have hplain : ∀ t : Factor, ∀ c ∈ t.text, isBlank c = false := fun t c hc =>
    isBlank_of_isPlainChar (t.isPlain c hc)
  induction js generalizing t with
  | nil =>
      have := squeezeAfter_append_of_no_blank (hplain t) []
      exact this
  | cons x js ih =>
      obtain ⟨j, u⟩ := x
      obtain ⟨c, r, hr, hc, -⟩ := isSolidHead_spell u js
      rw [List.map_cons, spell_cons, spell_cons, squeezeAfter_append_of_no_blank (hplain t), hr,
        Joint.write, List.append_assoc, List.cons_append,
        squeezeAfter_sign j.left.2 j.sign.isBlank_char j.right.2 hc, ← hr, ih]
      simp [Joint.write, Joint.squeezed]

theorem squeeze_spell (t : Factor) (js : List (Joint × Factor)) :
    squeeze (spell t js) = spell t (js.map fun x => (x.1.squeezed, x.2)) := by
  rw [squeeze, (isSolidHead_spell t js).skipBlanks, squeezeAfter_spell]

/-! ## Products -/

/-- A term begins with a character at which no product sign is read. -/
theorem exists_spell_cons (t : Factor) (js : List (Joint × Factor)) :
    ∃ c s, spell t js = c :: s ∧ isBlank c = false ∧ c ≠ '*' := by
  obtain ⟨c, w, hw, hc, -⟩ := t.exists_cons
  exact ⟨c, _, by rw [spell, hw]; rfl, isBlank_of_isPlainChar hc,
    ne_of_isPlainChar hc (by decide)⟩

theorem writeProducts_joint (j : Joint) : Operator.writeProducts j.squeezed.write = j.prepared := by
  obtain ⟨g, ⟨b, hb⟩, ⟨b', hb'⟩⟩ := j
  have hself : ∀ x, x ≠ '*' → Operator.writeProducts (squeezedGap b ++ x :: squeezedGap b') =
      squeezedGap b ++ x :: squeezedGap b' := by
    intro x hx
    refine Operator.infixSign_replaceAll_eq_self fun hmem => ?_
    have hblank : ∀ b, '*' ∉ squeezedGap b := fun b hmem =>
      absurd (isBlank_squeezedGap b _ hmem) (by decide)
    rcases List.mem_append.1 hmem with h | h
    · exact hblank b h
    · rcases List.mem_cons.1 h with h | h
      · exact hx h.symm
      · exact hblank b' h
  cases g with
  | plus => exact hself '+' (by decide)
  | minus => exact hself '-' (by decide)
  | slash => exact hself '/' (by decide)
  | times =>
      have hread := Operator.infixSign_read?_of_blanks (x := '*') (by decide)
        (isBlank_squeezedGap b) (isBlank_squeezedGap b') []
      rw [List.append_nil] at hread
      have := (Operator.infixSign '*').replaceAll_of_read (fun _ => Markup.times) hread
      rw [show skipBlanks [] = [] from rfl, Recogniser.replaceAll_nil, List.append_nil] at this
      exact this

theorem writeProducts_spell (t : Factor) (js : List (Joint × Factor)) :
    Operator.writeProducts (spell t (js.map fun x => (x.1.squeezed, x.2))) = prepared t js := by
  have hplain : ∀ (t : Factor) (s : Text),
      Operator.writeProducts (t.text ++ s) = t.text ++ Operator.writeProducts s := fun t s =>
    writeProducts_append (fun c hc => .inl (t.isPlain c hc)) s
  induction js generalizing t with
  | nil =>
      have := hplain t []
      rw [Operator.writeProducts, Recogniser.replaceAll_nil] at this
      exact this
  | cons x js ih =>
      obtain ⟨j, u⟩ := x
      obtain ⟨c, r, hr, hc, hstar⟩ := exists_spell_cons u (js.map fun x => (x.1.squeezed, x.2))
      have hcut : Operator.writeProducts (j.squeezed.write ++ (c :: r)) =
          Operator.writeProducts j.squeezed.write ++ Operator.writeProducts (c :: r) := by
        rw [Operator.writeProducts, Operator.infixSign_replaceAll_append hc hstar,
          Recogniser.replaceAll_of_none _ _ (Operator.infixSign_read?_eq_none hc hstar r)]
      rw [List.map_cons, spell_cons, prepared_cons, hplain, hr, hcut, ← hr, writeProducts_joint,
        ih]

/-! ## The conversion -/

/-- Joints that tell the same differ, when they are prepared, in the blanks around slashes only. -/
theorem respaced_joint (h : j.told = j'.told) : Respaced j.prepared j'.prepared := by
  obtain ⟨g, b, b₁⟩ := j
  obtain ⟨g', b', b₁'⟩ := j'
  obtain rfl : g = g' := by
    have hsign : ∀ j : Joint, j.told.1 = j.sign := by rintro ⟨_ | _ | _ | _, _, _⟩ <;> rfl
    have := congrArg Prod.fst h
    rwa [hsign, hsign] at this
  have hsame : b.1.isEmpty = b'.1.isEmpty ∧ b₁.1.isEmpty = b₁'.1.isEmpty →
      squeezedGap b.1 ++ g.char :: squeezedGap b₁.1 =
        squeezedGap b'.1 ++ g.char :: squeezedGap b₁'.1 := by
    rintro ⟨hleft, hright⟩
    rw [squeezedGap, squeezedGap, hleft, hright]
    rfl
  cases g with
  | plus =>
      have htold := Prod.mk.inj (Prod.mk.inj h).2
      show Respaced (squeezedGap b.1 ++ _ :: squeezedGap b₁.1) (squeezedGap b'.1 ++ _)
      rw [hsame htold]
      exact .refl _
  | minus =>
      have htold := Prod.mk.inj (Prod.mk.inj h).2
      show Respaced (squeezedGap b.1 ++ _ :: squeezedGap b₁.1) (squeezedGap b'.1 ++ _)
      rw [hsame htold]
      exact .refl _
  | times => exact .refl _
  | slash =>
      have hslash : ∀ b b' : Text, IsSlash (squeezedGap b ++ '/' :: squeezedGap b') := fun b b' =>
        ⟨_, _, rfl, isBlank_squeezedGap b, isBlank_squeezedGap b'⟩
      have := Respaced.slash (hslash b.1 b₁.1) (hslash b'.1 b₁'.1) .nil
      rwa [List.append_nil, List.append_nil] at this

theorem respaced_prepared (h : told js = told js') :
    Respaced (prepared t js) (prepared t js') := by
  induction js generalizing t js' with
  | nil =>
      obtain rfl : js' = [] := List.map_eq_nil_iff.1 h.symm
      exact .refl _
  | cons x js ih =>
      obtain ⟨y, js'', rfl, hxy, htail⟩ := List.map_eq_cons_iff.1 h.symm
      obtain ⟨htold, hu⟩ := Prod.mk.inj hxy
      obtain ⟨j, u⟩ := x
      obtain ⟨j', u'⟩ := y
      obtain rfl : u' = u := hu
      rw [prepared_cons, prepared_cons]
      exact (Respaced.refl t.text).append ((respaced_joint htold.symm).append (ih htail.symm))

/-- The characters of a spelling. -/
theorem mem_spell (h : c ∈ spell t js) :
    isPlainChar c = true ∨ isBlank c = true ∨ c ∈ ['+', '-', '*', '/'] := by
  rcases List.mem_append.1 h with h | h
  · exact .inl (t.isPlain c h)
  · obtain ⟨⟨j, u⟩, -, h⟩ := List.mem_flatMap.1 h
    rcases List.mem_append.1 h with h | h
    · rcases List.mem_append.1 h with h | h
      · exact .inr (.inl (j.left.2 c h))
      · rcases List.mem_cons.1 h with rfl | h
        · exact .inr (.inr (by cases j.sign <;> decide))
        · exact .inr (.inl (j.right.2 c h))
    · exact .inl (u.isPlain c h)

theorem not_mem_spell (hplain : isPlainChar c = false) (hblank : isBlank c = false)
    (hsign : c ∉ ['+', '-', '*', '/']) : c ∉ spell t js := fun h => by
  rcases mem_spell h with h | h | h
  · rw [hplain] at h; cases h
  · rw [hblank] at h; cases h
  · exact hsign h

/-- A spelling is converted by the two passes that divide lines without parentheses. -/
theorem convert_spell (style : CallStyle) (t : Factor) (js : List (Joint × Factor)) :
    Conversion.convert style (spell t js) =
      squeeze (divideTerms (divideProducts (prepared t js))) := by
  have hvisible : isAllBlank (spell t js) = false := by
    obtain ⟨c, s, hs, hc, -⟩ := exists_spell_cons t js
    rw [hs, isAllBlank, List.all_cons, hc]
    rfl
  rw [Conversion.convert_of_not_mem style hvisible
    (not_mem_spell (by decide) (by decide) (by decide))
    (not_mem_spell (by decide) (by decide) (by decide))
    (not_mem_spell (by decide) (by decide) (by decide))
    (not_mem_spell (by decide) (by decide) (by decide)), squeeze_spell, writeProducts_spell]
  rfl

/-- Two spellings of the same line are converted to lines that differ in their blanks only, when
blanks stand on the same sides of the signs of addition and subtraction. -/
theorem solid_convert_spell (style : CallStyle) (t : Factor) (h : told js = told js') :
    solid (Conversion.convert style (spell t js)) =
      solid (Conversion.convert style (spell t js')) := by
  have hpasses := ((respaced_prepared (t := t) h).replaceAll ignoresSpacing_divideProducts
    Quotient.write).replaceAll ignoresSpacing_divideTerms Quotient.write
  rw [convert_spell, convert_spell, solid_squeeze, solid_squeeze]
  exact hpasses.filter.symm

/-- A digit as a term. -/
def digit (c : Char) (hc : isPlainChar c = true) : Factor := ⟨[c], by simp, by simpa [IsPlain]⟩

/-- An operator without blanks. -/
def tight (g : Sign) : Joint := ⟨g, ⟨[], by simp⟩, ⟨[], by simp⟩⟩

/-- An operator with blanks on both sides. -/
def wide (g : Sign) : Joint := ⟨g, ⟨[' '], by decide⟩, ⟨[' ', ' '], by decide⟩⟩

theorem solid_convert_spell_wide_slash :
    ∃ t js js', spell t js = "1/2 +  3".toList ∧ spell t js' = "1 /  2 +  3".toList ∧
      told js = told js' ∧ ∀ style, solid (Conversion.convert style (spell t js)) =
        solid (Conversion.convert style (spell t js')) := by
  refine ⟨digit '1' (by decide), [(tight .slash, digit '2' (by decide)),
      (wide .plus, digit '3' (by decide))], [(wide .slash, digit '2' (by decide)),
      (wide .plus, digit '3' (by decide))], rfl, rfl, rfl, fun style => ?_⟩
  exact solid_convert_spell style _ rfl

/-- Without blanks around it, a sign of addition is taken into the denominator. -/
theorem solid_convert_spell_ne :
    ∃ t js js', spell t js = "1/2+3".toList ∧ spell t js' = "1/2 +  3".toList ∧
      js.map (fun x => (x.1.sign, x.2)) = js'.map (fun x => (x.1.sign, x.2)) ∧
      ∀ style,
        solid (Conversion.convert style (spell t js)) = "\\frac\x7b1\x7d\x7b2+3\x7d".toList ∧
        solid (Conversion.convert style (spell t js')) = "\\frac\x7b1\x7d\x7b2\x7d+3".toList := by
  refine ⟨digit '1' (by decide), [(tight .slash, digit '2' (by decide)),
      (tight .plus, digit '3' (by decide))], [(tight .slash, digit '2' (by decide)),
      (wide .plus, digit '3' (by decide))], rfl, rfl, rfl, fun style => ?_⟩
  cases style <;> exact ⟨by decide +kernel, by decide +kernel⟩

end CalcTypeset.Spelling
