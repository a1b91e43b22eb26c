import CalcTypeset.Proofs.Enclosed.Kept
import CalcTypeset.Proofs.Reference.Kept

/-!
# What is raised

A power is noticed by the characters behind its caret. A numeral or a reference is a run of these
characters and gets braces as a whole, with the minus sign in front of it. A group is no such run:
nothing is read at its caret, and it stays in its parentheses without braces.

In both cases the two sides of the caret are typeset on their own. For a numeral or a reference
this is so because nothing else is done to the line. For a group it is so because no pass reads
across a caret, and without a slash the line has no division: what stands up to the parenthesis
stays as it is, and what is made of the rest does not depend on it (`convert_front`).
-/

namespace CalcTypeset

open Text Operator Fraction Chain Enclosed

/-- A numeral, a reference to a variable, or a group without a slash. -/
inductive Operand where
  | numeral (w : Text) (ne_nil : w ≠ []) (isNumeral : ∀ c ∈ w, isDigit c = true ∨ c = '.')
  | reference (name : Text) (isValid : Variable.isValidName name = true)
  | group (content : Text) (noSlash : '/' ∉ content)

namespace Operand

/-- The operand as it is typed. -/
def write : Operand → Text
  | numeral w _ _ => w
  | reference name _ => Reference.write name
  | group content _ => Markup.parenthesised content

/-- Whether braces are set around the operand when it is raised. -/
def isBare : Operand → Bool
  | numeral .. | reference .. => true
  | group .. => false

end Operand

/-- An operand, with a minus sign or without one. -/
structure Exponent where
  isNegative : Bool
  operand : Operand

namespace Exponent

/-- The minus sign, when there is one. -/
def sign (x : Exponent) : Text := if x.isNegative then ['-'] else []

/-- The exponent as it is typed. -/
def write (x : Exponent) : Text := x.sign ++ x.operand.write

/-- What stands behind the caret when a power is typeset: the typeset exponent, between braces
unless it is a group. -/
def raised (x : Exponent) : Text :=
  let typeset := Conversion.convert .asTyped x.write
  if x.operand.isBare then Markup.braced typeset else typeset

variable {s t u v w : Text} {x : Char}

/-! ## Without divisions -/

/-- A line without a slash is squeezed, its constants are replaced, and its operators are
written. -/
theorem convert_of_not_mem_slash (hvisible : isAllBlank s = false) (hslash : '/' ∉ s) :
    Conversion.convert .asTyped s = finish (prepare (KnownConstant.replaceEach (squeeze s))) := by
  have hprepared : '/' ∉ prepare (KnownConstant.replaceEach (squeeze s)) := by
    rw [mem_prepare_iff (by simp), mem_slash_replaceEach_iff]
    exact fun hmem => (mem_squeeze hmem).elim (by decide) hslash
  rw [Conversion.convert, if_neg (by rw [hvisible]; decide)]
  show finish (rewrite .asTyped (prepare (KnownConstant.replaceEach (squeeze s)))) = _
  rw [rewrite_eq_self .asTyped hprepared]

/-- The characters that the passes beside the powers look for, blanks apart. -/
def sought : List Char := ['*', '%', '(', ')', '/', Markup.degree]

/-- No pass finds anything in the text, unless it is a power. -/
def IsCalm (w : Text) : Prop := ∀ c ∈ w, isBlank c = false ∧ c ∉ sought

instance (w : Text) : Decidable (IsCalm w) := List.decidableBAll _ w

theorem IsCalm.append (hv : IsCalm v) (hw : IsCalm w) : IsCalm (v ++ w) :=
  fun c hc => (List.mem_append.1 hc).elim (hv c) (hw c)

theorem IsCalm.not_mem (hw : IsCalm w) (hx : x ∈ sought) : x ∉ w := fun hmem => (hw x hmem).2 hx

theorem IsCalm.solid (hw : IsCalm w) : ∀ c ∈ w, isBlank c = false := fun c hc => (hw c hc).1

theorem isCalm_of_isPlain (hw : IsPlain w) : IsCalm w := by
  have hsought : ∀ x ∈ sought, isPlainChar x = false := by decide
  exact fun c hc => ⟨isBlank_of_isPlainChar (hw c hc), fun hmem =>
    ne_of_isPlainChar (hw c hc) (hsought c hmem) rfl⟩

theorem isCalm_sign (e : Exponent) : IsCalm e.sign := by
  unfold sign
  split <;> decide

theorem IsCalm.tidy_eq_self (hw : IsCalm w) : tidy w = w :=
  Enclosed.tidy_eq_self (hw.not_mem (by decide)) (hw.not_mem (by decide))

/-- In a calm text that becomes calm by its powers, nothing else is written. -/
theorem convert_of_isCalm (hne : w ≠ []) (hw : IsCalm w) (hpowers : IsCalm (bracePowers w)) :
    Conversion.convert .asTyped w = bracePowers w := by
  obtain ⟨c, hc⟩ := List.exists_mem_of_ne_nil w hne
  have hvisible : isAllBlank w = false := isVisible_iff.1 ⟨c, hc, hw.solid c hc⟩
  have hproducts : writeProducts (bracePowers w) = bracePowers w :=
    infixSign_replaceAll_eq_self (hpowers.not_mem (by decide))
  rw [convert_of_not_mem_slash hvisible (hw.not_mem (by decide)), squeeze_eq_self hw.solid,
    KnownConstant.replaceEach_eq_self (hw.not_mem (by decide)), prepare, hproducts]
  show squeeze (tidy _) = _
  rw [hpowers.tidy_eq_self, squeeze_eq_self hpowers.solid]

/-! ## In front of a parenthesis -/

/-- A constant stands in no way across a character that is neither part of a word nor a
parenthesis. -/
theorem cutsAt_replaceEach (hx : isWordChar x = false) (hround : x ∉ ['(', ')']) :
    CutsAt KnownConstant.replaceEach x := by
  have hone : ∀ k : KnownConstant, CutsAt k.replace x := by
    intro k s t
    have hlocal : ∀ w r, (k.call w).LocalAt (x :: t) r := fun w r => by
      unfold KnownConstant.call
      split
      · exact Recogniser.localAt_literal (by simpa using hround) r
      · rfl
    have hcut : k.replace (s ++ x :: t) = k.replace s ++ k.replace (x :: t) :=
      WordRule.replaceAll_append (by simpa using hx) (fun w r _ => hlocal w r)
        fun w => (k.meets_call w).mono fun _ _ _ _ => trivial
    rw [hcut, Called.replace_cons hx]
  exact (hone .pi).comp (hone .e)

/-- A text in front of a parenthesis that ends with no name, and in which no power stands, not
even together with what follows. -/
structure IsFront (w : Text) : Prop where
  calm : IsCalm w
  last : ∀ c ∈ w.getLast?, isWordChar c = false
  powers : ∀ s, bracePowers (w ++ '(' :: s) = w ++ '(' :: bracePowers s

theorem IsFront.replaceEach (hw : IsFront w) (s : Text) :
    KnownConstant.replaceEach (w ++ '(' :: s) = w ++ '(' :: KnownConstant.replaceEach s := by
  have hopen : ∀ (k : KnownConstant) s, k.replace ('(' :: s) = '(' :: k.replace s := fun k =>
    Called.replace_cons isWordChar_opening
  have hround : KnownConstant.replaceEach ('(' :: s) = '(' :: KnownConstant.replaceEach s := by
    show KnownConstant.replace .e (KnownConstant.replace .pi ('(' :: s)) = _
    rw [hopen, hopen]
    rfl
  rcases List.eq_nil_or_concat w with rfl | ⟨v, c, rfl⟩
  · exact hround
  · have hcalm := hw.calm
    rw [List.concat_eq_append] at hcalm ⊢
    have hv : IsCalm v := fun x hx => hcalm x (by simp [hx])
    have hc : isWordChar c = false := hw.last c (by simp)
    have hne : c ∉ ['(', ')'] := fun hmem =>
      (hcalm c (by simp)).2 ((show ['(', ')'] ⊆ sought by decide) hmem)
    have hcut := cutsAt_replaceEach hc hne v ('(' :: s)
    rw [KnownConstant.replaceEach_eq_self (hv.not_mem (by decide)), hround] at hcut
    simpa using hcut

theorem IsFront.prepare (hw : IsFront w) (s : Text) :
    prepare (w ++ '(' :: s) = w ++ '(' :: prepare s := by
  have hproducts : writeProducts w = w :=
    infixSign_replaceAll_eq_self (hw.calm.not_mem (by decide))
  rw [Operator.prepare, hw.powers,
    cutsAt_writeProducts (x := '(') (by decide) (by decide) w (bracePowers s), hproducts]
  rfl

theorem IsFront.squeeze (hw : IsFront w) (s : Text) :
    squeeze (w ++ '(' :: s) = w ++ '(' :: squeezeAfter false s := by
  have hsolid : ∀ c ∈ w ++ ['('], isBlank c = false := fun c hc =>
    (List.mem_append.1 hc).elim (hw.calm.solid c) fun h => by rw [List.mem_singleton.1 h]; decide
  have hhead : ∀ c ∈ (w ++ ['('] ++ s).head?, isBlank c = false := fun c hc => by
    rw [List.head?_append_of_ne_nil _ (by simp)] at hc
    exact hsolid c (List.mem_of_mem_head? hc)
  have hsplit : w ++ '(' :: s = w ++ ['('] ++ s := by simp
  rw [hsplit, Text.squeeze, skipBlanks_eq_self hhead, squeezeAfter_append_of_no_blank hsolid]
  simp

/-- What is made of the text behind an opening parenthesis when no division stands in it. -/
def behind (u : Text) : Text :=
  squeezeAfter false (tidy (Operator.prepare (KnownConstant.replaceEach (squeezeAfter false u))))

/-- A front stays as it is, and what stands behind its parenthesis is typeset without regard to
it. -/
theorem convert_front (hw : IsFront w) (hu : '/' ∉ u) :
    Conversion.convert .asTyped (w ++ '(' :: u) = w ++ '(' :: behind u := by
  have hvisible : isAllBlank (w ++ '(' :: u) = false :=
    isVisible_iff.1 ⟨'(', by simp, by decide⟩
  have hslash : '/' ∉ w ++ '(' :: u := by
    simp [hw.calm.not_mem (x := '/') (by decide), hu]
  rw [convert_of_not_mem_slash hvisible hslash, hw.squeeze, hw.replaceEach, hw.prepare]
  show Text.squeeze (tidy _) = _
  rw [cutsAt_tidy (x := '(') (by simp), hw.calm.tidy_eq_self, hw.squeeze]
  rfl

/-! ## The caret -/

theorem power_read?_caret (s : Text) : power.read? ('^' :: s) = Operator.exponent.read? s := by
  have hcaret : (Recogniser.single '^').read? ('^' :: s) = some ((), s) :=
    Recogniser.read?_literal_eq_some_iff.2 rfl
  rw [power, Recogniser.read?_bind, hcaret]
  rfl

/-- Behind a minus sign the exponent is read that follows it. -/
theorem exponent_read?_sign (e : Exponent) {c : Char} (hc : c ≠ '-') (s : Text) :
    Operator.exponent.read? (e.sign ++ c :: s) =
      (run? isExponentChar (c :: s)).map fun y => (e.sign ++ y.1, y.2) := by
  have hrun : run? isExponentChar ('-' :: c :: s) = none :=
    run?_eq_none_iff.2 fun x hx => by
      obtain rfl : '-' = x := Option.some.inj hx
      decide +kernel
  have hminus : (Recogniser.single '-').read? ('-' :: c :: s) = some ((), c :: s) :=
    Recogniser.read?_literal_eq_some_iff.2 rfl
  have hother : (Recogniser.single '-').read? (c :: s) = none :=
    Recogniser.read?_single_eq_none hc s
  unfold sign Operator.exponent
  cases e.isNegative with
  | true =>
      simp only [if_true, Recogniser.read?_orElse, Recogniser.read?_bind, Recogniser.read?_map,
        Recogniser.read?_run, List.cons_append, List.nil_append, hminus, hrun, Option.bind_some]
      cases run? isExponentChar (c :: s) <;> rfl
  | false =>
      simp only [Bool.false_eq_true, if_false, Recogniser.read?_orElse, Recogniser.read?_bind,
        Recogniser.read?_run, List.nil_append, hother, Option.bind_none]
      cases run? isExponentChar (c :: s) <;> rfl

/-- A bare operand is braced as a whole, with its sign. -/
theorem bracePowers_bare (e : Exponent) (hne : w ≠ [])
    (hw : ∀ c ∈ w, isExponentChar c = true) :
    bracePowers ('^' :: (e.sign ++ w)) = '^' :: Markup.braced (e.sign ++ w) := by
  obtain ⟨c, v, rfl⟩ := List.exists_cons_of_ne_nil hne
  have hc : c ≠ '-' := by
    rintro rfl
    exact absurd (hw '-' (by simp)) (by decide +kernel)
  have hrun : run? isExponentChar (c :: v) = some (c :: v, []) := by
    have := run?_append (r := []) hne hw (by simp)
    rwa [List.append_nil] at this
  have hread : power.read? ('^' :: (e.sign ++ c :: v)) = some (e.sign ++ c :: v, []) := by
    rw [power_read?_caret, exponent_read?_sign e hc, hrun]
    rfl
  rw [bracePowers, Recogniser.replaceAll_of_read _ _ hread, Recogniser.replaceAll_nil,
    List.append_nil]

/-- At a caret in front of a group no power is written. -/
theorem bracePowers_group (e : Exponent) (s : Text) :
    bracePowers ('^' :: (e.sign ++ '(' :: s)) = '^' :: (e.sign ++ '(' :: bracePowers s) := by
  have hrun : run? isExponentChar ('(' :: s) = none :=
    run?_eq_none_iff.2 fun x hx => by
      obtain rfl : '(' = x := Option.some.inj hx
      decide +kernel
  have hnone : power.read? ('^' :: (e.sign ++ '(' :: s)) = none := by
    rw [power_read?_caret, exponent_read?_sign e (by decide), hrun]
    rfl
  have hsign : '^' ∉ e.sign ++ ['('] := by
    unfold sign
    split <;> decide
  have hgroup := bracePowers_append hsign s
  rw [List.append_assoc, List.append_assoc] at hgroup
  rw [bracePowers, Recogniser.replaceAll_of_none _ _ hnone]
  exact congrArg _ hgroup

theorem isFront_sign (e : Exponent) : IsFront e.sign := by
  have hsign : '^' ∉ e.sign ++ ['('] ∧ ∀ c ∈ e.sign.getLast?, isWordChar c = false := by
    unfold sign
    split <;> decide +kernel
  refine ⟨isCalm_sign e, hsign.2, fun s => ?_⟩
  have := bracePowers_append hsign.1 s
  simpa using this

theorem isFront_caret (b : Factor) (e : Exponent) : IsFront (b.text ++ '^' :: e.sign) where
  calm := (isCalm_of_isPlain b.isPlain).append
    ((show IsCalm ['^'] by decide).append (isCalm_sign e))
  last c hc := by
    have hcaret : ∀ c ∈ ('^' :: e.sign).getLast?, isWordChar c = false := by
      unfold sign
      split <;> decide +kernel
    rw [List.getLast?_append_of_ne_nil _ (by simp)] at hc
    exact hcaret c hc
  powers s := by
    have hplain : '^' ∉ b.text := fun hmem => absurd (b.isPlain _ hmem) (by decide)
    have := bracePowers_append hplain ('^' :: (e.sign ++ '(' :: s))
    rw [bracePowers_group] at this
    simpa using this

/-! ## Powers -/

/-- An operand of exponent characters keeps its form, and gets braces when it is raised. -/
theorem convert_bare (b : Factor) (e : Exponent) (hne : w ≠ [])
    (hw : ∀ c ∈ w, isExponentChar c = true) :
    Conversion.convert .asTyped (b.text ++ '^' :: (e.sign ++ w)) =
      b.text ++ '^' :: Markup.braced (Conversion.convert .asTyped (e.sign ++ w)) := by
  have hplain : IsPlain w := fun c hc => isPlainChar_of_isExponentChar (hw c hc)
  have hcaret : ∀ v : Text, IsPlain v → '^' ∉ v := fun v hv hmem =>
    absurd (hv _ hmem) (by decide)
  have hcalm : IsCalm (e.sign ++ w) := (isCalm_sign e).append (isCalm_of_isPlain hplain)
  have hbase : IsCalm b.text := isCalm_of_isPlain b.isPlain
  have hpowers : bracePowers (e.sign ++ w) = e.sign ++ w := by
    refine bracePowers_eq_self fun hmem => ?_
    rcases List.mem_append.1 hmem with hmem | hmem
    · unfold sign at hmem
      split at hmem <;> exact absurd hmem (by decide)
    · exact hcaret w hplain hmem
  have hline : bracePowers (b.text ++ '^' :: (e.sign ++ w)) =
      b.text ++ '^' :: Markup.braced (e.sign ++ w) := by
    rw [bracePowers_append (hcaret _ b.isPlain), bracePowers_bare e hne hw]
  have hopen : IsCalm ['^', '{'] := by decide
  have hraised : IsCalm (b.text ++ '^' :: Markup.braced (e.sign ++ w)) := by
    have := hbase.append (hopen.append (hcalm.append (show IsCalm ['}'] by decide)))
    simpa [Markup.braced] using this
  have htyped : IsCalm (b.text ++ '^' :: (e.sign ++ w)) :=
    hbase.append ((show IsCalm ['^'] by decide).append hcalm)
  rw [convert_of_isCalm (by simp) htyped (by rwa [hline]), hline,
    convert_of_isCalm (by simp [hne]) hcalm (by rwa [hpowers]), hpowers]

/-- A power of a plain term is typeset by typesetting its exponent: a numeral or a reference gets
braces together with its sign, and a group is raised as it stands. -/
theorem convert_power (b : Factor) (x : Exponent) :
    Conversion.convert .asTyped (b.text ++ '^' :: x.write) = b.text ++ '^' :: x.raised := by
  obtain ⟨negative, operand⟩ := x
  cases operand with
  | numeral w hne hw =>
      refine convert_bare b _ hne fun c hc => ?_
      rcases hw c hc with h | rfl
      · simp [isExponentChar, h]
      · decide
  | reference name hname =>
      refine convert_bare b _ (by simp [Operand.write, Reference.write]) fun c hc => ?_
      rcases List.mem_append.1 hc with hc | hc
      · rcases List.mem_cons.1 hc with rfl | hc
        · decide +kernel
        · exact isExponentChar_of_isNameChar
            (Reference.isNameChar_of_isValidName hname c hc)
      · obtain rfl := List.mem_singleton.1 hc
        decide +kernel
  | group content hslash =>
      let x : Exponent := ⟨negative, .group content hslash⟩
      have hcontent : '/' ∉ content ++ [')'] := by simp [hslash]
      have hwrite : x.write = x.sign ++ '(' :: (content ++ [')']) := by
        simp [x, write, Operand.write, Markup.parenthesised]
      show Conversion.convert .asTyped (b.text ++ '^' :: x.write) =
        b.text ++ '^' :: Conversion.convert .asTyped x.write
      rw [hwrite, convert_front (isFront_sign x) hcontent, ← List.cons_append, ← List.append_assoc,
        convert_front (isFront_caret b x) hcontent]
      simp

/-- A group is raised as it stands: no braces are set around it. -/
theorem convert_power_group_ne :
    Conversion.convert .asTyped "2^(a+b)".toList = "2^(a+b)".toList ∧
      Conversion.convert .asTyped "2^(a+b)".toList ≠
        "2^".toList ++ Markup.braced (Conversion.convert .asTyped "(a+b)".toList) :=
  ⟨by decide +kernel, by decide +kernel⟩

end Exponent

end CalcTypeset
