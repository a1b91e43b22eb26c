import CalcTypeset.Proofs.Balance

/-!
# Passes that find nothing

A pass takes pieces that have a certain character in them: an opening parenthesis for a call or a
group, a slash for a division, a sign for an operator. A line without that character goes through
the pass as it is. The other way round, a pass brings nothing into a line but the characters of the
markup that it writes.
-/

namespace CalcTypeset

open Text

variable {s : Text} {x : Char}

/-- What is written brings a character only where it was before. -/
theorem Text.congruence_not_mem (x : Char) : Congruence fun s s' => x ∉ s → x ∉ s' where
  refl _ h := h
  append hs ht h hmem := by
    rw [List.mem_append, not_or] at h
    exact (List.mem_append.1 hmem).elim (hs h.1) (ht h.2)

/-- Nothing is replaced when every piece that could be has a character which the text has not. -/
theorem Text.Rewrites.eq_self {S : Text → Text → Prop} {s' : Text} (h : Rewrites S s s')
    (hS : ∀ w w', S w w' → x ∈ w) (hx : x ∉ s) : s' = s := by
  induction h with
  | nil => rfl
  | site h hr ih => exact absurd (List.mem_append_left _ (hS _ _ h)) hx
  | keep c hr ih => rw [ih fun hmem => hx (List.mem_cons_of_mem c hmem)]

theorem Recogniser.replaceAll_eq_self_of_not_mem {α : Type} {p : Recogniser α}
    {render : α → Text} (hp : p.Meets fun w _ _ => x ∈ w) (hx : x ∉ s) :
    p.replaceAll render s = s :=
  (Recogniser.rewrites_replaceAll (S := fun w _ => x ∈ w) hp (fun _ _ _ h => h) s).eq_self
    (fun _ _ h => h) hx

theorem WordRule.replaceAll_eq_self_of_not_mem {α : Type} {f : WordRule α} {render : α → Text}
    (hf : ∀ w, (f w).Meets fun v _ _ => x ∈ v) (hx : x ∉ s) : f.replaceAll render s = s :=
  (WordRule.rewrites_replaceAll (S := fun w _ => x ∈ w) hf
    (fun _ _ _ _ _ _ h => List.mem_append_right _ h) s).eq_self (fun _ _ h => h) hx

/-! What occurs is seen run by run. -/

section

variable {α : Type} {f : WordRule α} {c : Char} {w r r' : Text} {a : α}

theorem WordRule.occurs_nil (f : WordRule α) : f.occurs [] = false := by
  rw [occurs, f.pieces_nil]
  rfl

theorem WordRule.occurs_cons (hc : isWordChar c = false) (s : Text) :
    f.occurs (c :: s) = f.occurs s := by
  rw [occurs, occurs, f.pieces_cons_of_not_isWordChar s hc, Piece.sites_plain]

theorem WordRule.occurs_separators (hw : ∀ c ∈ w, isWordChar c = false) (s : Text) :
    f.occurs (w ++ s) = f.occurs s := by
  induction w with
  | nil => rfl
  | cons c w ih =>
      rw [List.cons_append, occurs_cons (hw c (by simp)), ih fun x hx => hw x (by simp [hx])]

theorem WordRule.occurs_of_read (hw : run? isWordChar s = some (w, r))
    (h : (f w).read? r = some (a, r')) : f.occurs s = true := by
  rw [occurs, f.pieces_of_read hw h]
  rfl

theorem WordRule.occurs_of_none (hw : run? isWordChar s = some (w, r))
    (h : (f w).read? r = none) : f.occurs s = f.occurs r := by
  rw [occurs, occurs, f.pieces_of_none hw h, Piece.sites_plain]

/-- Where nothing occurs a run is not read, and nothing occurs behind it. -/
theorem WordRule.not_occurs_of_run (hw : run? isWordChar s = some (w, r)) (h : f.occurs s = false) :
    (f w).read? r = none ∧ f.occurs r = false := by
  cases hr : (f w).read? r with
  | some x =>
      rw [occurs_of_read hw hr] at h
      cases h
  | none => exact ⟨rfl, occurs_of_none hw hr ▸ h⟩

theorem WordRule.replaceAll_eq_self_of_occurs {render : α → Text} (h : f.occurs s = false) :
    f.replaceAll render s = s := by
  induction s using scan_induction f with
  | nil => exact replaceAll_nil
  | read s w r a r' hw hr ih =>
      rw [occurs_of_read hw hr] at h
      cases h
  | pass s w r hw hr ih =>
      rw [occurs_of_none hw hr] at h
      rw [replaceAll_of_none hw hr, ih h, ← run?_eq_append hw]
  | other c s hc ih =>
      rw [occurs_cons hc] at h
      rw [replaceAll_cons_of_not_isWordChar s hc, ih h]

end

/-- Of a line that is a single call the rule reads that call at most. -/
theorem WordRule.replaceAll_call {α : Type} {f : WordRule α} {render : α → Text} {c : Call}
    (hf : ∀ w, (f w).Meets fun v _ _ => '(' ∈ v) (hne : c.name ≠ [])
    (hname : ∀ x ∈ c.name, isWordChar x = true) (hcontent : '(' ∉ c.content)
    (hread : (f c.name).read? (Markup.parenthesised c.content) = none) :
    f.replaceAll render c.write = c.write := by
  have hrun : run? isWordChar c.write = some (c.name, Markup.parenthesised c.content) :=
    run?_append hne hname fun x hx => by
      obtain rfl : '(' = x := Option.some.inj hx
      exact isWordChar_opening
  rw [WordRule.replaceAll_of_none hrun hread, Call.write]
  congr 1
  show f.replaceAll render ('(' :: (c.content ++ [')'])) = '(' :: (c.content ++ [')'])
  rw [WordRule.replaceAll_cons_of_not_isWordChar _ isWordChar_opening,
    WordRule.replaceAll_eq_self_of_not_mem hf (by simp [hcontent])]

/-! ## Calls and groups -/

theorem KnownConstant.replaceEach_of_replace (h : ∀ k : KnownConstant, k.replace s = s) :
    replaceEach s = s := by
  rw [replaceEach, all, List.foldl_cons, h, List.foldl_cons, h]
  rfl

theorem KnownConstant.replaceEach_eq_self (h : '(' ∉ s) : replaceEach s = s :=
  replaceEach_of_replace fun k => WordRule.replaceAll_eq_self_of_not_mem
    (fun w => (k.meets_call w).mono fun v _ _ hv => by rw [hv.2]; simp) h

theorem KnownFunction.typesetEach_of_typesetCalls (h : ∀ f : KnownFunction, f.typesetCalls s = s) :
    typesetEach s = s :=
  List.foldlRecOn (motive := (· = s)) typesetOrder _ rfl fun t ht f _ => by rw [ht, h]

theorem KnownFunction.typesetEach_eq_self (h : '(' ∉ s) : typesetEach s = s :=
  typesetEach_of_typesetCalls fun _ =>
    (Call.rewrites_replaceAfter (S := fun w _ => '(' ∈ w) (fun _ _ => by simp) none s).eq_self
      (fun _ _ h => h) h

namespace Fraction

theorem mem_write (c : Call) : '(' ∈ c.write := by simp [Call.write, Markup.parenthesised]

theorem rewriteArguments_eq_self (style : CallStyle) (h : '(' ∉ s) :
    rewriteArguments style s = s := by
  refine WordRule.replaceAll_eq_self_of_not_mem (fun w => ?_) h
  refine ((Bracket.meets_group.filter _).map _).mono ?_
  rintro v _ r ⟨t, ⟨⟨rfl, -⟩, -⟩, -⟩
  simp [Markup.parenthesised]

theorem rewriteCallDividends_eq_self (h : '(' ∉ s) : rewriteCallDividends s = s := by
  refine WordRule.replaceAll_eq_self_of_not_mem (fun w => ?_) h
  refine ((Bracket.meets_group.bind fun t => (meets_spacedSlash.bind fun _ =>
      Recogniser.meets_run isTermChar).map fun d => CallSite.mk ⟨w, t⟩ (some d)).orElse
    (Bracket.meets_group.map fun t => CallSite.mk ⟨w, t⟩ none)).mono ?_
  rintro v _ r (⟨_, t, _, rfl, ⟨rfl, -⟩, -⟩ | ⟨t, ⟨rfl, -⟩, -⟩) <;> simp [Markup.parenthesised]

theorem flatCall_read?_eq_none (h : '(' ∉ s) : Call.flatCall.read? s = none := by
  cases hs : Call.flatCall.read? s with
  | none => rfl
  | some a =>
      obtain ⟨w, hw, rfl, -⟩ := Call.meets_flatCall s a.1 a.2 hs
      exact absurd (hw ▸ List.mem_append_left _ (mem_write a.1)) h

theorem rewriteSites_eq_self {kinds : List (Recogniser Quotient)}
    (h : ∀ p ∈ kinds, ∀ t, t <:+ s → p.read? t = none) : rewriteSites kinds s = s := by
  induction kinds with
  | nil => rfl
  | cons p kinds ih =>
      have hp : p.replaceAll Quotient.write s = s :=
        Recogniser.replaceAll_eq_self (h p (by simp))
      show rewriteSites kinds (p.replaceAll Quotient.write s) = s
      rw [hp]
      exact ih fun p hp => h p (by simp [hp])

theorem groupSites_read?_of_not_mem (style : CallStyle) (h : '(' ∉ s) :
    ∀ p ∈ groupSites style, p.read? s = none := by
  intro p hp
  cases s with
  | nil => exact p.read?_nil
  | cons c s =>
      exact groupSites_read?_eq_none style (fun hc => h (by simp [hc])) (flatCall_read?_eq_none h)
        p hp

theorem rewriteSites_groupSites_eq_self (style : CallStyle) (h : '(' ∉ s) :
    rewriteSites (groupSites style) s = s :=
  rewriteSites_eq_self fun p hp _ ht =>
    groupSites_read?_of_not_mem style (fun hmem => h (ht.subset hmem)) p hp

/-! ## Lines without slashes -/

/-- A line is left as it is when none of its infixes is a site. -/
theorem rewriteSites_eq_self_of_meets {kinds : List (Recogniser Quotient)}
    {P : Text → Quotient → Text → Prop} (hkinds : ∀ p ∈ kinds, p.Meets P)
    (h : ∀ w q r, w ++ r <:+ s → ¬ P w q r) : rewriteSites kinds s = s := by
  refine rewriteSites_eq_self fun p hp t ht => Option.eq_none_iff_forall_ne_some.2 fun x hread => ?_
  obtain ⟨w, rfl, hw⟩ := hkinds p hp t x.1 x.2 hread
  exact h w x.1 x.2 ht hw

theorem rewriteSites_of_not_mem_slash {kinds : List (Recogniser Quotient)}
    (hkinds : ∀ p ∈ kinds, p.Meets IsSite) (h : '/' ∉ s) : rewriteSites kinds s = s :=
  rewriteSites_eq_self_of_meets hkinds fun _ _ _ ht hw =>
    h (ht.subset (List.mem_append_left _ hw.mem_slash))

theorem rewriteCallDividends_of_not_mem_slash (h : '/' ∉ s) : rewriteCallDividends s = s := by
  have hcongruence : Text.Congruence fun s s' => '/' ∉ s → s' = s := by
    refine ⟨fun _ _ => rfl, fun hs ht h => ?_⟩
    rw [List.mem_append, not_or] at h
    rw [hs h.1, ht h.2]
  refine WordRule.replaceAll_rel hcongruence meets_callSite ?_ s h
  rintro w v ⟨c, d?⟩ r - - ⟨-, -, ⟨rfl, hc⟩ | ⟨d, -, hd⟩⟩ hslash
  · exact hc.symm
  · exact absurd hd.mem_slash hslash

theorem rewriteArguments_of_not_mem_slash (style : CallStyle) (h : '/' ∉ s) :
    rewriteArguments style s = s := by
  refine WordRule.replaceAll_eq_self_of_not_mem (fun w => ?_) h
  refine ((Bracket.meets_group.filter _).map _).mono ?_
  rintro v _ r ⟨t, ⟨⟨rfl, -⟩, hslash⟩, -⟩
  simp [Markup.parenthesised, List.contains_iff_mem.1 hslash]

/-- When the arguments hold all slashes of a line, nothing else is divided. -/
theorem rewrite_of_not_mem_slash (style : CallStyle) (h : '/' ∉ rewriteArguments style s) :
    rewrite style s = rewriteArguments style s := by
  rw [rewrite, rewriteCallDividends_of_not_mem_slash h,
    rewriteSites_of_not_mem_slash (meets_groupSites style) h, rewriteBasic,
    rewriteSites_of_not_mem_slash meets_basicSites h]

/-- Nothing is divided in a line without slashes. -/
theorem rewrite_eq_self (style : CallStyle) (h : '/' ∉ s) : rewrite style s = s := by
  have harguments := rewriteArguments_of_not_mem_slash style h
  rw [rewrite_of_not_mem_slash style (by rwa [harguments]), harguments]

/-! ## What a fraction brings -/

/-- The characters of a fraction without its operands. -/
def fractionChars : Text := Markup.frac [] []

/-- A fraction by its brackets. -/
theorem frac_eq (n d : Text) :
    Markup.frac n d = Markup.fracOpen ++ (n ++ ('}' :: '{' :: (d ++ ['}']))) :=
  (List.append_assoc ("\\frac\x7b".toList ++ n) ['}'] _).trans
    (List.append_assoc "\\frac\x7b".toList n _)

theorem not_mem_slash_frac {n d : Text} (hn : '/' ∉ n) (hd : '/' ∉ d) :
    '/' ∉ Markup.frac n d := by
  have hopen : '/' ∉ Markup.fracOpen := by decide
  rw [frac_eq]
  simp [hopen, hn, hd]

theorem mem_braced {t : Text} {c : Char} (h : c ∈ Markup.braced t) :
    c ∈ fractionChars ∨ c ∈ t := by
  rcases List.mem_append.1 h with h | h
  · rcases List.mem_cons.1 h with rfl | h
    · exact .inl (by decide)
    · exact .inr h
  · rw [List.mem_singleton.1 h]
    exact .inl (by decide)

theorem Taken.mem {w t : Text} {c : Char} (h : Taken w t) (hc : c ∈ t) :
    c ∈ w ∨ c ∈ fractionChars := by
  cases h with
  | whole => exact .inl hc
  | bare => exact .inl (List.mem_append_left _ (List.mem_cons_of_mem _ hc))
  | braced =>
      rcases List.mem_append.1 hc with hc | hc
      · rcases List.mem_cons.1 hc with rfl | hc
        · exact .inl (by simp [Markup.parenthesised])
        · exact (mem_braced hc).symm.imp_left fun h =>
            List.mem_append_left _ (List.mem_cons_of_mem _ h)
      · exact .inl (List.mem_append_right _ hc)

theorem mem_frac {n d : Text} {c : Char} (h : c ∈ Markup.frac n d) :
    c ∈ n ∨ c ∈ d ∨ c ∈ fractionChars := by
  rcases List.mem_append.1 h with h | h
  · rcases List.mem_append.1 h with h | h
    · exact .inr (.inr (List.mem_append_left _ (List.mem_append_left _ h)))
    · exact (mem_braced h).elim (fun h => .inr (.inr h)) .inl
  · exact .inr ((mem_braced h).symm)

theorem IsSite.mem {w r : Text} {q : Quotient} {c : Char} (h : IsSite w q r) (hc : c ∈ q.write) :
    c ∈ w ∨ c ∈ fractionChars := by
  obtain ⟨n, g, d, rfl, -, hn, -, hd, -⟩ := h
  rcases mem_frac hc with hc | hc | hc
  · exact (hn.mem hc).imp_left fun h => by simp [h]
  · exact (hd.mem hc).imp_left fun h => by simp [h]
  · exact .inr hc

theorem mem_of_mem_replaceAll {p : Recogniser Quotient} {c : Char} (hp : p.Meets IsSite)
    (h : c ∈ p.replaceAll Quotient.write s) : c ∈ s ∨ c ∈ fractionChars := by
  refine Decidable.or_iff_not_imp_right.2 fun hc => Decidable.byContradiction fun hs => ?_
  exact Recogniser.replaceAll_rel (congruence_not_mem c) hp
    (fun _ _ _ hw hnot hmem => (hw.mem hmem).elim hnot hc) s hs h

theorem meets_division_of_divisor {n d : Recogniser Text} {slash : Recogniser Unit}
    {P : Text → Text → Text → Prop} {R : Text → Unit → Text → Prop} (hn : n.Meets P)
    (hslash : slash.Meets R) (hd : d.Meets fun w _ _ => x ∈ w) :
    (division n slash d).Meets fun w _ _ => x ∈ w := by
  refine (hn.bind fun n => hslash.bind fun _ => hd.map fun d => Quotient.mk n d).mono ?_
  rintro w q r ⟨v, n, _, rfl, -, g, _, _, rfl, -, d, hd, rfl⟩
  exact List.mem_append_right _ (List.mem_append_right _ hd)

theorem meets_call_mem : call.Meets fun w _ _ => '(' ∈ w := by
  refine (Call.meets_flatCall.map _).mono ?_
  rintro w _ r ⟨c, ⟨rfl, -⟩, -⟩
  exact mem_write c

theorem meets_callDivision :
    (division term spacedSlash endedCall).Meets fun w _ _ => '(' ∈ w :=
  meets_division_of_divisor meets_term meets_spacedSlash
    ((meets_call_mem.followedBy endsTerm).mono fun _ _ _ h => h.1)

/-- In an argument without parentheses only products and plain terms are divided. -/
theorem rewriteSites_argumentSites_of_not_mem (h : '(' ∉ s) :
    rewriteSites (argumentSites .asTyped) s =
      (division term spacedSlash term).replaceAll Quotient.write
        (argumentProduct.overTerm.replaceAll Quotient.write s) := by
  have hproducts : '(' ∉ argumentProduct.overTerm.replaceAll Quotient.write s := fun hmem =>
    (mem_of_mem_replaceAll meets_argumentProduct hmem).elim h (by decide)
  have hgroup : group.Meets fun w _ _ => '(' ∈ w := by
    refine ((Call.meets_flatGroup.filter _).map _).mono ?_
    rintro w _ r ⟨t, ⟨⟨rfl, -⟩, -⟩, -⟩
    simp [Markup.parenthesised]
  rw [rewriteSites, argumentSites, List.foldl_cons, List.foldl_cons,
    Recogniser.replaceAll_eq_self_of_not_mem
      (meets_division_of_divisor meets_term meets_spacedSlash meets_call_mem) hproducts,
    List.foldl_cons, Recogniser.replaceAll_eq_self_of_not_mem
      (meets_division_of_divisor meets_group meets_tightSlash hgroup) hproducts]
  rfl

/-- In a line without parentheses only products and plain terms are divided. -/
theorem rewrite_of_not_mem (style : CallStyle) (h : '(' ∉ s) :
    rewrite style s = (division term spacedSlash endedTerm).replaceAll Quotient.write
      (lineProduct.overTerm.replaceAll Quotient.write s) := by
  have hgroups : (division (withExponent group) spacedSlash groupContent).replaceAll
      Quotient.write s = s := by
    refine Recogniser.replaceAll_eq_self fun t ht => ?_
    cases t with
    | nil => exact Recogniser.read?_nil _
    | cons c t =>
        exact division_read?_eq_none (powerGroup_read?_eq_none fun hc =>
          h (ht.subset (by simp [hc])))
  have hproducts : '(' ∉ lineProduct.overTerm.replaceAll Quotient.write s := fun hmem =>
    (mem_of_mem_replaceAll meets_lineProduct hmem).elim h (by decide)
  rw [rewrite, rewriteArguments_eq_self style h, rewriteCallDividends_eq_self h,
    rewriteSites_groupSites_eq_self style h, rewriteBasic, rewriteSites, basicSites,
    List.foldl_cons, hgroups, List.foldl_cons, List.foldl_cons,
    Recogniser.replaceAll_eq_self_of_not_mem meets_callDivision hproducts]
  rfl

end Fraction

/-! ## Operators -/

namespace Operator

theorem bracePowers_eq_self (h : '^' ∉ s) : bracePowers s = s :=
  Recogniser.replaceAll_eq_self_of_not_mem
    (meets_power.mono fun w e _ hw => by rw [hw.1]; simp) h

/-- Powers are looked for at carets only. -/
theorem bracePowers_append {w : Text} (hw : '^' ∉ w) (s : Text) :
    bracePowers (w ++ s) = w ++ bracePowers s := by
  refine Recogniser.replaceAll_append_of_none fun v hne hv => ?_
  obtain ⟨c, v, rfl⟩ := List.exists_cons_of_ne_nil hne
  have hc : c ≠ '^' := fun h => hw (hv.subset (by simp [h]))
  exact Recogniser.read?_bind_eq_none (Recogniser.read?_single_eq_none hc _) _

theorem infixSign_read?_eq_none {x c : Char} (hb : isBlank c = false) (h : c ≠ x) (r : Text) :
    (infixSign x).read? (c :: r) = none := by
  rw [infixSign, Recogniser.read?_spaced, skipBlanks_cons_of_not_isBlank r hb,
    Recogniser.read?_single_eq_none h]
  rfl

/-- The passes over the infix signs leave what has neither blanks nor the sign. -/
theorem infixSign_replaceAll_of_solid {x : Char} {render : Unit → Text} {w : Text}
    (hw : ∀ c ∈ w, isBlank c = false ∧ c ≠ x) (s : Text) :
    (infixSign x).replaceAll render (w ++ s) = w ++ (infixSign x).replaceAll render s := by
  refine Recogniser.replaceAll_append_of_none fun v hne hv => ?_
  obtain ⟨c, v, rfl⟩ := List.exists_cons_of_ne_nil hne
  have hc := hw c (hv.subset (by simp))
  exact infixSign_read?_eq_none hc.1 hc.2 _

/-- An infix sign is read with the blanks around it. -/
theorem infixSign_read?_of_blanks {x : Char} {a b : Text} (hx : isBlank x = false)
    (ha : ∀ c ∈ a, isBlank c = true) (hb : ∀ c ∈ b, isBlank c = true) (s : Text) :
    (infixSign x).read? (a ++ x :: (b ++ s)) = some ((), skipBlanks s) := by
  have hsign : (Recogniser.single x).read? (x :: (b ++ s)) = some ((), b ++ s) :=
    Recogniser.read?_literal_eq_some_iff.2 rfl
  rw [infixSign, Recogniser.read?_spaced, skipBlanks_append_of_all_blank _ ha,
    skipBlanks_cons_of_not_isBlank _ hx, hsign, Option.map_some,
    skipBlanks_append_of_all_blank _ hb]

theorem infixSign_read?_cons_of_isBlank {x c : Char} (hc : isBlank c = true) (s : Text) :
    (infixSign x).read? (c :: s) = (infixSign x).read? s := by
  rw [infixSign, Recogniser.read?_spaced, Recogniser.read?_spaced, skipBlanks_cons_of_isBlank s hc]

/-- The passes over the infix signs can be cut in front of any character that is no blank and not
the sign itself. -/
theorem infixSign_replaceAll_append {x c : Char} {render : Unit → Text} (hb : isBlank c = false)
    (hc : c ≠ x) (s t : Text) :
    (infixSign x).replaceAll render (s ++ c :: t) =
      (infixSign x).replaceAll render s ++
        c :: (infixSign x).replaceAll render t := by
  have hskip : ∀ r, skipBlanks (r ++ c :: t) = skipBlanks r ++ c :: t := fun r =>
    skipBlanks_append (c :: t) (.inr (by simpa using hb))
  have hlocal : ∀ r, (infixSign x).LocalAt (c :: t) r := by
    intro r
    rw [Recogniser.LocalAt, infixSign, Recogniser.read?_spaced, hskip,
      Recogniser.localAt_single (by simpa using hc)]
    cases h : (Recogniser.single x).read? (skipBlanks r) with
    | none => rw [Recogniser.read?_spaced, h]; rfl
    | some y => rw [Recogniser.read?_spaced, h]; simp [hskip]
  rw [Recogniser.replaceAll_append (fun r _ _ => hlocal r)
    ((meets_infixSign x).mono fun _ _ _ _ => trivial),
    Recogniser.replaceAll_of_none _ _ (infixSign_read?_eq_none hb hc t)]

theorem infixSign_replaceAll_eq_self {x : Char} {render : Unit → Text} (h : x ∉ s) :
    (infixSign x).replaceAll render s = s := by
  refine Recogniser.replaceAll_eq_self_of_not_mem ((meets_infixSign x).mono ?_) h
  rintro w _ r ⟨b, b', rfl, -⟩
  simp

theorem writeRemainders_eq_self (h : '%' ∉ s) : writeRemainders s = s :=
  infixSign_replaceAll_eq_self h

theorem mergeDegrees_eq_self (h : Markup.degree ∉ s) : mergeDegrees s = s := by
  refine Recogniser.replaceAll_eq_self_of_not_mem
    (((Recogniser.meets_run fun c => c = Markup.degree).filter _).mono ?_) h
  rintro w e r ⟨⟨rfl, hne, hw, -⟩, -⟩
  obtain ⟨c, w, rfl⟩ := List.exists_cons_of_ne_nil hne
  rw [of_decide_eq_true (hw c (by simp))]
  simp

theorem mem_infixSign_replaceAll {x c : Char} {t : Text}
    (h : c ∈ (infixSign x).replaceAll (fun _ => t) s) : c ∈ s ∨ c ∈ t := by
  refine Decidable.or_iff_not_imp_right.2 fun hc => Decidable.byContradiction fun hs => ?_
  exact Recogniser.replaceAll_rel (congruence_not_mem c) (meets_infixSign x)
    (fun _ _ _ _ _ => hc) s hs h

theorem infixSign_replaceAll_ne_nil {x : Char} {t : Text} (ht : t ≠ []) (hs : s ≠ []) :
    (infixSign x).replaceAll (fun _ => t) s ≠ [] :=
  (Recogniser.rewrites_replaceAll (S := fun _ w' => w' ≠ []) (meets_infixSign x)
    (fun _ _ _ _ => ht) s).ne_nil (fun _ _ h => h) hs

theorem mem_writeProducts {c : Char} (h : c ∈ writeProducts s) : c ∈ s ∨ c ∈ Markup.times :=
  mem_infixSign_replaceAll h

theorem mem_writeRemainders {c : Char} (h : c ∈ writeRemainders s) :
    c ∈ s ∨ c ∈ Markup.modulo := mem_infixSign_replaceAll h

end Operator

/-- What is done to the operators first brings multiplication signs and braces. -/
theorem Operator.mem_prepare {c : Char} (h : c ∈ prepare s) :
    c ∈ s ∨ c ∈ Markup.times ∨ c ∈ Markup.braced [] := by
  refine (mem_writeProducts h).elim (fun hc => ?_) fun hc => .inr (.inl hc)
  refine Decidable.or_iff_not_imp_right.2 fun hnot => Decidable.byContradiction fun hs => ?_
  refine Recogniser.replaceAll_rel (congruence_not_mem c) meets_power ?_ s hs hc
  rintro _ e r ⟨rfl, -⟩ hmem hwritten
  rcases List.mem_cons.1 hwritten with rfl | hwritten
  · exact hmem (by simp)
  · rcases List.mem_append.1 hwritten with hwritten | hclose
    · rcases List.mem_cons.1 hwritten with rfl | hexponent
      · exact hnot (.inr (by decide))
      · exact hmem (List.mem_cons_of_mem _ hexponent)
    · exact hnot (.inr (List.mem_append_right _ hclose))

/-- Of a line without parentheses and degrees the operators are prepared, the products and terms
are divided, and the remainders are written. -/
theorem Conversion.convert_of_flat (style : CallStyle) (hvisible : isAllBlank s = false)
    (hround : '(' ∉ s) (hdegree : Markup.degree ∉ s) :
    convert style s = squeeze (Operator.writeRemainders
      ((Fraction.division Fraction.term Fraction.spacedSlash Fraction.endedTerm).replaceAll
        Fraction.Quotient.write (Fraction.lineProduct.overTerm.replaceAll Fraction.Quotient.write
          (Operator.prepare (squeeze s))))) := by
  have hsqueezed : ∀ {c}, c ≠ ' ' → c ∉ s → c ∉ squeeze s := fun hspace hc hmem =>
    (mem_squeeze hmem).elim hspace hc
  have hprepared : ∀ {c}, c ∉ Markup.times → c ∉ Markup.braced [] → c ∉ s →
      c ∉ Operator.prepare (squeeze s) := fun htimes hbraces hc hmem =>
    (Operator.mem_prepare hmem).elim (hsqueezed (fun h => htimes (by rw [h]; decide)) hc)
      fun h => h.elim htimes hbraces
  have hdivided : ∀ {c}, c ∉ Markup.times → c ∉ Fraction.fractionChars → c ∉ s →
      c ∉ (Fraction.division Fraction.term Fraction.spacedSlash Fraction.endedTerm).replaceAll
        Fraction.Quotient.write (Fraction.lineProduct.overTerm.replaceAll Fraction.Quotient.write
          (Operator.prepare (squeeze s))) := by
    intro c htimes hfraction hc hmem
    have hbraces : c ∉ Markup.braced [] := fun h =>
      hfraction (List.mem_append_right "\\frac\x7b\x7d".toList h)
    rcases Fraction.mem_of_mem_replaceAll (Fraction.meets_division Fraction.meets_term
      Fraction.meets_spacedSlash Fraction.meets_endedTerm) hmem with hmem | hmem
    · exact (Fraction.mem_of_mem_replaceAll Fraction.meets_lineProduct hmem).elim
        (hprepared htimes hbraces hc) hfraction
    · exact hfraction hmem
  have hconstants := KnownConstant.replaceEach_eq_self (hsqueezed (by decide) hround)
  have hrewrite := Fraction.rewrite_of_not_mem style (hprepared (by decide) (by decide) hround)
  have hcalls := KnownFunction.typesetEach_eq_self (hdivided (by decide) (by decide) hround)
  have hdegrees : Operator.mergeDegrees (Operator.writeRemainders _) = Operator.writeRemainders _ :=
    Operator.mergeDegrees_eq_self fun hmem => (Operator.mem_writeRemainders hmem).elim
      (hdivided (by decide) (by decide) hdegree) (by decide)
  rw [convert, if_neg (by rw [hvisible]; decide)]
  cases style with
  | asTyped =>
      simp only [Stage.ofStyle, List.foldl_cons, List.foldl_nil, Stage.apply, hconstants,
        hrewrite, Operator.finish, hdegrees]
  | typeset =>
      simp only [Stage.ofStyle, List.foldl_cons, List.foldl_nil, Stage.apply, hconstants,
        hrewrite, hcalls, Operator.finish, hdegrees]

/-- Of a line without parentheses, powers, remainders and degrees only the products are written and
the products and terms are divided. -/
theorem Conversion.convert_of_not_mem (style : CallStyle) (hvisible : isAllBlank s = false)
    (hround : '(' ∉ s) (hcaret : '^' ∉ s) (hpercent : '%' ∉ s) (hdegree : Markup.degree ∉ s) :
    convert style s =
      squeeze ((Fraction.division Fraction.term Fraction.spacedSlash Fraction.endedTerm).replaceAll
        Fraction.Quotient.write (Fraction.lineProduct.overTerm.replaceAll Fraction.Quotient.write
          (Operator.writeProducts (squeeze s)))) := by
  have hpowers : Operator.prepare (squeeze s) = Operator.writeProducts (squeeze s) := by
    rw [Operator.prepare, Operator.bracePowers_eq_self fun hmem =>
      (mem_squeeze hmem).elim (by decide) hcaret]
  rw [convert_of_flat style hvisible hround hdegree, hpowers,
    Operator.writeRemainders_eq_self fun hmem => ?_]
  rcases Fraction.mem_of_mem_replaceAll (Fraction.meets_division Fraction.meets_term
    Fraction.meets_spacedSlash Fraction.meets_endedTerm) hmem with hmem | hmem
  · rcases Fraction.mem_of_mem_replaceAll Fraction.meets_lineProduct hmem with hmem | hmem
    · rcases Operator.mem_writeProducts hmem with hmem | hmem
      · exact (mem_squeeze hmem).elim (by decide) hpercent
      · exact absurd hmem (by decide)
    · exact absurd hmem (by decide)
  · exact absurd hmem (by decide)

end CalcTypeset
