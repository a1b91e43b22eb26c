import CalcTypeset.Proofs.Called.Nested
import CalcTypeset.Proofs.Exchange.Constants
import CalcTypeset.Proofs.Exchange.Divide
import CalcTypeset.Proofs.Exchange.Order
import CalcTypeset.Proofs.Sum.Additivity

/-!
# The conversion of an exchanged line

No pass of the conversion tells the sine from the cosine but the scans for their calls. The scan for
the sine comes first, so in the exchanged line it is what were cosines that are typeset first. The
exchanged line is therefore converted to the exchange of what the line is converted to when the
cosines are typeset in front of the sines, provided that no call of sine and cosine is lost before
the scans.
-/

namespace CalcTypeset

open Text Called Call KnownFunction

variable {α : Type} {σ : Text → Text} {p : Recogniser α} {render : α → Text} {s t u w r : Text}
  {c sign : Char}

/-! ## Finishing -/

namespace Call

theorem rename_word (hu : ∀ c ∈ u, isWordChar c = true) : rename σ u = u := by
  cases u with
  | nil => exact rename_nil
  | cons c u =>
      have hrun : run? isWordChar ((c :: u) ++ []) = some (c :: u, []) :=
        run?_append (List.cons_ne_nil c u) hu (by simp)
      rw [List.append_nil] at hrun
      rw [rename_of_run hrun, rename_nil]
      exact List.append_nil _

/-- A recogniser that reads the same of a line and of the renamed line. -/
def OverlooksNames (p : Recogniser α) (σ : Text → Text) : Prop :=
  ∀ s, p.read? (rename σ s) = (p.read? s).map fun x => (x.1, rename σ x.2)

/-- A scan that looks at no name and writes nothing that is or opens a call. -/
structure SparesNames (p : Recogniser α) (render : α → Text) (σ : Text → Text) : Prop where
  overlooks : OverlooksNames p σ
  passes : ∀ {c}, isWordChar c = true ∨ c = '(' → ∀ s, p.read? (c :: s) = none
  starts : ∀ a, ∃ c v, render a = c :: v ∧ isWordChar c = false ∧ c ≠ '('
  rename : ∀ a t, rename σ (render a ++ t) = render a ++ rename σ t

namespace SparesNames

/-- A site begins in no word and opens no call. -/
theorem head?_of_read (h : SparesNames p render σ) {a : α} (hs : p.read? s = some (a, r)) :
    ∀ c ∈ s.head?, isWordChar c = false ∧ c ≠ '(' := by
  intro c hc
  obtain ⟨s, rfl⟩ := List.head?_eq_some_iff.1 hc
  have hpassed : ¬ (isWordChar c = true ∨ c = '(') := fun hhead => by
    rw [h.passes hhead s] at hs
    cases hs
  rw [not_or, Bool.not_eq_true] at hpassed
  exact hpassed

theorem replaceAll_word (h : SparesNames p render σ) (hu : ∀ c ∈ u, isWordChar c = true)
    (t : Text) : p.replaceAll render (u ++ t) = u ++ p.replaceAll render t := by
  refine Recogniser.replaceAll_append_of_none fun y hy hsuffix => ?_
  obtain ⟨d, y, rfl⟩ := List.exists_cons_of_ne_nil hy
  exact h.passes (.inl (hu d (hsuffix.subset (.head _)))) _

/-- Behind a word that is not followed by a word character, renaming goes on behind the word. -/
theorem replaceAll_rename_word (h : SparesNames p render σ) (hσ : RenamesWords σ)
    (hu : ∀ c ∈ u, isWordChar c = true) (hc : isWordChar c = false)
    (hrest : p.replaceAll render (Call.rename σ (c :: s)) = Call.rename σ (c :: t)) :
    p.replaceAll render (Call.rename σ (u ++ c :: s)) = Call.rename σ (u ++ c :: t) := by
  by_cases hnil : u = []
  · rw [hnil]
    exact hrest
  · have hrun : ∀ t, run? isWordChar (u ++ c :: t) = some (u, c :: t) := fun t =>
      run?_append hnil hu (by simpa using hc)
    rw [rename_of_run (hrun s), rename_of_run (hrun t), h.replaceAll_word, hrest]
    · rfl
    · split
      · exact hσ.word hu
      · exact hu

/-- Such a scan may come before the renaming or behind it. -/
theorem replaceAll_rename (h : SparesNames p render σ) (hσ : RenamesWords σ) (s : Text) :
    p.replaceAll render (Call.rename σ s) = Call.rename σ (p.replaceAll render s) := by
  -- The scan may stand inside a word, so a part of it is carried along.
  suffices hword : ∀ u : Text, (∀ c ∈ u, isWordChar c = true) →
      p.replaceAll render (Call.rename σ (u ++ s)) =
        Call.rename σ (u ++ p.replaceAll render s) from hword [] (by simp)
  induction s using Recogniser.scan_induction p with
  | nil =>
      intro u hu
      rw [Recogniser.replaceAll_nil, List.append_nil, rename_word hu]
      have := h.replaceAll_word hu []
      rwa [Recogniser.replaceAll_nil, List.append_nil] at this
  | read s a r hs ih =>
      intro u hu
      have hnamed : p.read? (Call.rename σ s) = some (a, Call.rename σ r) := by
        rw [h.overlooks s, hs]
        rfl
      have hwritten : ∀ c ∈ (render a ++ p.replaceAll render r).head?,
          isWordChar c = false ∧ c ≠ '(' := by
        obtain ⟨c, v, hv, hc⟩ := h.starts a
        simpa [hv] using hc
      rw [rename_append (h.head?_of_read hs), rename_word hu, h.replaceAll_word hu,
        p.replaceAll_of_read render hnamed, p.replaceAll_of_read render hs,
        rename_append hwritten, rename_word hu, h.rename]
      exact congrArg (fun t => u ++ (render a ++ t)) (ih [] (by simp))
  | pass c s hs ih =>
      intro u hu
      rw [p.replaceAll_of_none render hs]
      cases hc : isWordChar c with
      | true =>
          have hlonger := ih (u ++ [c]) fun x hx =>
            (List.mem_append.1 hx).elim (hu x) fun hx => by rwa [List.mem_singleton.1 hx]
          rwa [List.append_assoc, List.append_assoc] at hlonger
      | false =>
          refine h.replaceAll_rename_word hσ hu hc ?_
          have hnone : p.read? (Call.rename σ (c :: s)) = none := by
            rw [h.overlooks, hs]
            rfl
          rw [rename_cons hc] at hnone ⊢
          rw [p.replaceAll_of_none render hnone, rename_cons hc]
          exact congrArg _ (ih [] (by simp))

end SparesNames

theorem overlooksNames_single (hσ : RenamesWords σ) (hsign : isWordChar sign = false) :
    OverlooksNames (Recogniser.single sign) σ := by
  intro s
  cases s with
  | nil => rw [rename_nil]; rfl
  | cons c s =>
      cases hc : isWordChar c with
      | false =>
          rw [rename_cons hc]
          by_cases hne : c = sign
          · have hread : ∀ t, (Recogniser.single sign).read? (sign :: t) = some ((), t) := fun _ =>
              Recogniser.read?_single_eq_some_iff.2 rfl
            rw [hne, hread, hread]
            rfl
          · rw [Recogniser.read?_single_eq_none hne, Recogniser.read?_single_eq_none hne]
            rfl
      | true =>
          have hne : ∀ {d : Char}, isWordChar d = true → d ≠ sign := by
            rintro d hd rfl
            rw [hsign] at hd
            cases hd
          have hrun : run? isWordChar (c :: s) =
              some (c :: s.takeWhile isWordChar, s.dropWhile isWordChar) := by
            rw [run?, if_pos hc]
          have hnamed := run?_rename hσ hrun
          obtain ⟨d, v, hv⟩ := List.exists_cons_of_ne_nil (run?_ne_nil hnamed)
          have hd : isWordChar d = true := run?_all hnamed d (by rw [hv]; exact .head _)
          rw [run?_eq_append hnamed, hv, List.cons_append, Recogniser.read?_single_eq_none (hne hd),
            Recogniser.read?_single_eq_none (hne hc)]
          rfl

theorem OverlooksNames.spaced (hσ : RenamesWords σ) (hp : OverlooksNames p σ) :
    OverlooksNames p.spaced σ := by
  intro s
  rw [Recogniser.read?_spaced, Recogniser.read?_spaced, skipBlanks_rename hσ, hp]
  cases p.read? (skipBlanks s) with
  | none => rfl
  | some x => exact congrArg (fun t => some (x.1, t)) (skipBlanks_rename hσ x.2)

theorem OverlooksNames.filter (hp : OverlooksNames p σ) (test : α → Bool) :
    OverlooksNames (p.filter test) σ := by
  intro s
  rw [Recogniser.read?_filter, Recogniser.read?_filter, hp]
  cases p.read? s with
  | none => rfl
  | some x => cases h : test x.1 <;> simp [Option.filter, h]

theorem overlooksNames_run (hσ : RenamesWords σ) {test : Char → Bool}
    (htest : ∀ c, test c = true → isWordChar c = false) :
    OverlooksNames (Recogniser.run test) σ := by
  have hfree : ∀ {c}, isWordChar c = true → test c = false := fun hc =>
    Bool.eq_false_iff.2 fun h => nomatch (htest _ h).symm.trans hc
  have hcut : ∀ s : Text, (rename σ s).takeWhile test = s.takeWhile test ∧
      (rename σ s).dropWhile test = rename σ (s.dropWhile test) := by
    intro s
    induction s using run_induction with
    | nil => rw [rename_nil]; exact ⟨rfl, rename_nil.symm⟩
    | run s w r hw ih =>
        have hstop : ∀ {v x y : Text}, run? isWordChar v = some (x, y) →
            v.takeWhile test = [] ∧ v.dropWhile test = v := by
          intro v x y hv
          obtain ⟨d, x, rfl⟩ := List.exists_cons_of_ne_nil (run?_ne_nil hv)
          have hd := hfree (run?_all hv d (.head _))
          rw [run?_eq_append hv]
          simp [hd]
        obtain ⟨htake, hdrop⟩ := hstop hw
        obtain ⟨htake', hdrop'⟩ := hstop (run?_rename hσ hw)
        rw [htake, hdrop, htake', hdrop']
        exact ⟨rfl, rfl⟩
    | other c s hc ih =>
        rw [rename_cons hc]
        cases hc' : test c with
        | true => simp [hc', ih.1, ih.2]
        | false => simp [hc', rename_cons hc]
  intro s
  rw [Recogniser.read?_run, Recogniser.read?_run, run?_eq, run?_eq, (hcut s).1, (hcut s).2]
  split <;> rfl

theorem isAllBlank_rename (hσ : RenamesWords σ) (s : Text) :
    isAllBlank (rename σ s) = isAllBlank s := by
  have hvisible : ∀ t : Text, isAllBlank t = false ↔ skipBlanks t ≠ [] := fun _ =>
    isVisible_iff.symm.trans skipBlanks_ne_nil_iff.symm
  have hsame : isAllBlank (rename σ s) = false ↔ isAllBlank s = false := by
    rw [hvisible, hvisible, skipBlanks_rename hσ]
    exact not_congr ⟨eq_nil_of_rename hσ, fun h => by rw [h, rename_nil]⟩
  cases h : isAllBlank s with
  | false => exact hsame.2 h
  | true =>
      cases hnamed : isAllBlank (rename σ s) with
      | true => rfl
      | false =>
          rw [hsame.1 hnamed] at h
          cases h

theorem rename_modulo (t : Text) : rename σ (Markup.modulo ++ t) = Markup.modulo ++ rename σ t := by
  have hword : ∀ c ∈ "bmod".toList, isWordChar c = true := by decide
  have hrun : run? isWordChar ("bmod ".toList ++ t) = some ("bmod".toList, ' ' :: t) :=
    run?_append (r := ' ' :: t) (List.cons_ne_nil _ _) hword (by simp)
  have hname : rename σ ("bmod ".toList ++ t) = "bmod ".toList ++ rename σ t := by
    rw [rename_of_run hrun, rename_cons isWordChar_blank]
    rfl
  show rename σ (' ' :: '\\' :: ("bmod ".toList ++ t)) = _
  rw [rename_cons isWordChar_blank, rename_cons isWordChar_backslash, hname]
  rfl

theorem ne_of_word_or_opening {d : Char} (hd : isWordChar d = false ∧ d ≠ '(')
    (hc : isWordChar c = true ∨ c = '(') : c ≠ d := by
  rintro rfl
  rcases hc with hc | hc
  · rw [hd.1] at hc
    cases hc
  · exact hd.2 hc

theorem writeRemainders_rename (hσ : RenamesWords σ) (s : Text) :
    Operator.writeRemainders (rename σ s) = rename σ (Operator.writeRemainders s) := by
  have hpercent : isWordChar '%' = false := isWordChar_eq_false (by decide)
  refine SparesNames.replaceAll_rename ⟨(overlooksNames_single hσ hpercent).spaced hσ,
    fun {c} hc s => ?_, fun _ => ⟨' ', _, rfl, isWordChar_eq_false (by decide), by decide⟩,
    fun _ => rename_modulo⟩ hσ s
  have hnotBlank : isBlank c = false := Bool.eq_false_iff.2 fun hb => by
    rcases hc with hc | rfl
    · rw [Fraction.isWordChar_of_isBlank hb] at hc
      cases hc
    · exact absurd hb (by decide)
  rw [Recogniser.read?_spaced, skipBlanks_cons_of_not_isBlank s hnotBlank,
    Recogniser.read?_single_eq_none (ne_of_word_or_opening ⟨hpercent, by decide⟩ hc)]
  rfl

theorem mergeDegrees_rename (hσ : RenamesWords σ) (s : Text) :
    Operator.mergeDegrees (rename σ s) = rename σ (Operator.mergeDegrees s) := by
  refine SparesNames.replaceAll_rename ⟨(overlooksNames_run hσ fun c hc => ?_).filter _,
    fun {c} hc s => ?_, fun _ => ⟨_, _, rfl, Markup.isWordChar_degree, by decide⟩,
    fun _ => rename_cons Markup.isWordChar_degree⟩ hσ s
  · rw [of_decide_eq_true hc, Markup.isWordChar_degree]
  · have hne := ne_of_word_or_opening ⟨Markup.isWordChar_degree, by decide⟩ hc
    have hrun : run? (fun d => d = Markup.degree) (c :: s) = none :=
      run?_eq_none_iff.2 (by simpa using hne)
    exact Recogniser.read?_filter_eq_none hrun _

/-- A renamed line is finished as the line is. -/
theorem finish_rename (hσ : RenamesWords σ) (s : Text) :
    Operator.finish (rename σ s) = rename σ (Operator.finish s) := by
  rw [Operator.finish, writeRemainders_rename hσ, mergeDegrees_rename hσ, squeeze_rename hσ]
  rfl

end Call

/-! ## The scans in another order -/

theorem KnownFunction.foldl_typesetCalls_exchange (fs : List KnownFunction) (s : Text) :
    (fs.map twin).foldl (fun s f => f.typesetCalls s) (exchange s) =
      exchange (fs.foldl (fun s f => f.typesetCalls s) s) := by
  induction fs generalizing s with
  | nil => rfl
  | cons f fs ih =>
      rw [List.map_cons, List.foldl_cons, List.foldl_cons, typesetCalls_exchange, ih]

/-- What the line is divided into when no call of sine and cosine is lost on the way. -/
theorem Called.divided_exchange (hs : '\\' ∉ s)
    (hkept : (calls (divided s)).countP hasTwin = (calls s).countP hasTwin) :
    divided (exchange s) = exchange (divided s) := by
  have hnoBackslash : '\\' ∉ squeeze s := fun hmem => (mem_squeeze hmem).elim (by decide) hs
  have hconstants : Sum.BackslashIsPi (KnownConstant.replaceEach (squeeze s)) :=
    Sum.backslashIsPi_replaceEach hnoBackslash
  have hsqueezed : (calls (squeeze s)).countP hasTwin ≤ (calls s).countP hasTwin := by
    have hcalls : calls s = calls (skipBlanks s) := (calledAfter_skipBlanks isOpening s).symm
    rw [hcalls]
    exact (keeps_squeeze s).calls.countP_le
  obtain ⟨hle, hreplaced⟩ := replaceEach_exchange (squeeze s)
  have hdivided : (calls (divided s)).countP hasTwin ≤
      (calls (KnownConstant.replaceEach (squeeze s))).countP hasTwin :=
    (Fraction.calls_divided .typeset (Operands.isSetOff_of_backslashIsPi hconstants)).countP_le
  calc divided (exchange s)
      = Fraction.divided .typeset (KnownConstant.replaceEach (exchange (squeeze s))) := by
        rw [divided, exchange, squeeze_rename renamesWords_twinName]
        rfl
    _ = Fraction.divided .typeset (exchange (KnownConstant.replaceEach (squeeze s))) := by
        rw [hreplaced (by omega)]
    _ = exchange (divided s) := Fraction.divided_exchange .typeset hconstants (by
        show (calls (divided s)).countP hasTwin = _
        omega)

namespace Conversion

/-- The line converted with its functions typeset in the given order. -/
def convertInOrder (fs : List KnownFunction) (s : Text) : Text :=
  if isAllBlank s then []
  else Operator.finish (fs.foldl (fun s f => f.typesetCalls s) (divided s))

theorem convert_eq_convertInOrder (s : Text) :
    convert .typeset s = convertInOrder typesetOrder s := rfl

/-- The exchanged line is converted to the exchange of what the line is converted to when the twins
are typeset in each other's place. -/
theorem convertInOrder_exchange (fs : List KnownFunction) (hs : '\\' ∉ s)
    (hkept : (calls (divided s)).countP hasTwin = (calls s).countP hasTwin) :
    convertInOrder (fs.map twin) (exchange s) = exchange (convertInOrder fs s) := by
  have hallBlank : isAllBlank (exchange s) = isAllBlank s := isAllBlank_rename renamesWords_twinName s
  rw [convertInOrder, convertInOrder, hallBlank]
  split
  · exact rename_nil.symm
  · rw [divided_exchange hs hkept, foldl_typesetCalls_exchange]
    exact finish_rename renamesWords_twinName _

/-- The exchanged line is converted to the exchange of what the line is converted to with the cosines
typeset in front of the sines. Where the order of their scans does not matter, this is the exchange of
what the line is converted to. -/
theorem convert_exchange (hs : '\\' ∉ s)
    (hkept : (calls (divided s)).countP hasTwin = (calls s).countP hasTwin) :
    convert .typeset (exchange s) = exchange (convertInOrder (typesetOrder.map twin) s) ∧
      (MarksAlike (divided s) → convert .typeset (exchange s) = exchange (convert .typeset s)) := by
  have horder : (typesetOrder.map twin).map twin = typesetOrder := rfl
  have hexchanged : convert .typeset (exchange s) =
      exchange (convertInOrder (typesetOrder.map twin) s) := by
    rw [convert_eq_convertInOrder, ← convertInOrder_exchange _ hs hkept, horder]
  refine ⟨hexchanged, fun hmarks => ?_⟩
  have hcomm := (typesetCalls_comm_iff (divided s)).2 hmarks
  have hscans : ∀ fs : List KnownFunction,
      convertInOrder (cos :: sin :: fs) s = convertInOrder (sin :: cos :: fs) s := fun fs => by
    rw [convertInOrder, convertInOrder, List.foldl_cons, List.foldl_cons, List.foldl_cons,
      List.foldl_cons, hcomm]
  rw [hexchanged, convert_eq_convertInOrder]
  exact congrArg exchange (hscans _)

/-- The cosine has a degree mark in its argument, so the sine inside it is typeset alike in both
orders. -/
theorem convert_exchange_marked :
    '\\' ∉ "cos(60° + sin(30))/2 - tan(sin(45)^2)".toList ∧
      (calls (divided "cos(60° + sin(30))/2 - tan(sin(45)^2)".toList)).countP hasTwin =
        (calls "cos(60° + sin(30))/2 - tan(sin(45)^2)".toList).countP hasTwin ∧
      MarksAlike (divided "cos(60° + sin(30))/2 - tan(sin(45)^2)".toList) ∧
      convert .typeset (exchange "cos(60° + sin(30))/2 - tan(sin(45)^2)".toList) =
        exchange (convert .typeset "cos(60° + sin(30))/2 - tan(sin(45)^2)".toList) := by
  have hs : '\\' ∉ "cos(60° + sin(30))/2 - tan(sin(45)^2)".toList := by decide
  have hkept : (calls (divided "cos(60° + sin(30))/2 - tan(sin(45)^2)".toList)).countP hasTwin =
      (calls "cos(60° + sin(30))/2 - tan(sin(45)^2)".toList).countP hasTwin := by decide +kernel
  have hmarks : MarksAlike (divided "cos(60° + sin(30))/2 - tan(sin(45)^2)".toList) := by
    decide +kernel
  exact ⟨hs, hkept, hmarks, (convert_exchange hs hkept).2 hmarks⟩

/-- A cosine inside a sine is typeset too late to bring the degree mark of the sine. -/
theorem convert_exchange_ne :
    ¬ ∀ s : Text, Bracket.IsBalanced '(' ')' s → '\\' ∉ s →
      convert .typeset (exchange s) = exchange (convert .typeset s) :=
  fun h => absurd (h "sin(cos(1))".toList (by decide) (by decide)) (by decide +kernel)

end Conversion

end CalcTypeset
