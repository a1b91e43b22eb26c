import CalcTypeset.Proofs.Exchange.Rename
import CalcTypeset.Proofs.Substitution

/-!
# Typesetting the calls of an exchanged line

What a scan for calls looks at is the name that it replaces, the parentheses, and in the argument a
degree mark or the commands that let the parentheses grow. A renaming moves none of them. So the scan
for the twin of a function makes of the exchanged line the exchange of what the scan for the function
makes of the line.

All functions are typeset one after the other, so the order of the scans is exchanged as well.
-/

namespace CalcTypeset

open Text Called KnownFunction

namespace Call

variable {σ : Text → Text} {l s t w r a : Text} {c d : Char}

/-! ## Characters and commands -/

theorem mem_rename (hσ : RenamesWords σ) (hc : isWordChar c = false) (s : Text) :
    c ∈ rename σ s ↔ c ∈ s := by
  have hword : ∀ {v : Text}, (∀ x ∈ v, isWordChar x = true) → ∀ t, c ∈ v ++ t ↔ c ∈ t := by
    intro v hv t
    rw [List.mem_append, or_iff_right]
    intro hmem
    rw [hv c hmem] at hc
    cases hc
  induction s using run_induction with
  | nil => rw [rename_nil]
  | run s w r hw ih =>
      have hrun := run?_rename hσ hw
      have hnamed := hword (run?_all hrun) (rename σ r)
      rw [← run?_eq_append hrun] at hnamed
      have hline := hword (run?_all hw) r
      rw [← run?_eq_append hw] at hline
      exact hnamed.trans (ih.trans hline.symm)
  | other x s hx ih =>
      rw [rename_cons hx, List.mem_cons, List.mem_cons]
      exact or_congr Iff.rfl ih

theorem contains_rename (hσ : RenamesWords σ) (hc : isWordChar c = false) (s : Text) :
    (rename σ s).contains c = s.contains c := by
  rw [Bool.eq_iff_iff, List.contains_iff_mem, List.contains_iff_mem, mem_rename hσ hc]

theorem startsWith_cons (d c : Char) (l s : Text) :
    startsWith (d :: l) (c :: s) = (decide (d = c) && startsWith l s) := by
  by_cases h : d = c <;> simp [startsWith, after?, h]

/-- Whether a text begins with a literal that goes on at most one character behind its first word can
be told from the first word of the text and the character behind that. -/
theorem startsWith_word_append (hl : ∀ c ∈ l.dropLast, isWordChar c = true)
    (hs : ∀ c ∈ s.head?, isWordChar c = false) (h : t.head? = s.head?) (w : Text) :
    startsWith l (w ++ t) = startsWith l (w ++ s) := by
  induction w generalizing l with
  | nil =>
      cases l with
      | nil => rfl
      | cons d l =>
          cases s with
          | nil =>
              cases t with
              | nil => rfl
              | cons c t => cases h
          | cons c s =>
              obtain ⟨t, rfl⟩ := List.head?_eq_some_iff.1 h
              rw [List.nil_append, List.nil_append, startsWith_cons, startsWith_cons]
              cases l with
              | nil => rfl
              | cons e l =>
                  have hne : d ≠ c := by
                    rintro rfl
                    have hword := hl d (by simp)
                    rw [hs d rfl] at hword
                    cases hword
                  rw [decide_eq_false hne, Bool.false_and, Bool.false_and]
  | cons c w ih =>
      cases l with
      | nil => rfl
      | cons d l =>
          have hrest : ∀ x ∈ l.dropLast, isWordChar x = true := fun x hx => hl x (by
            cases l with
            | nil => cases hx
            | cons e l => exact .tail _ hx)
          rw [List.cons_append, List.cons_append, startsWith_cons, startsWith_cons, ih hrest]

theorem occurs_append_of_not_mem (h : d ∉ w) (t : Text) :
    occurs (d :: l) (w ++ t) = occurs (d :: l) t := by
  induction w with
  | nil => rfl
  | cons c w ih =>
      rw [List.mem_cons, not_or] at h
      rw [List.cons_append, occurs, startsWith_cons, decide_eq_false h.1, Bool.false_and,
        Bool.false_or, ih h.2]

/-- A command whose name begins neither like the sine nor like the cosine is in the exchanged line
when it is in the line. -/
theorem occurs_exchange (hl : ∀ c ∈ l.dropLast, isWordChar c = true)
    (hsin : ∀ s, startsWith l (sin.name ++ s) = false)
    (hcos : ∀ s, startsWith l (cos.name ++ s) = false) (s : Text) :
    occurs ('\\' :: l) (exchange s) = occurs ('\\' :: l) s := by
  have hfree : ∀ {v : Text}, (∀ x ∈ v, isWordChar x = true) → '\\' ∉ v := by
    intro v hv hmem
    exact absurd (hv _ hmem) (by simp)
  have hstarts : ∀ s, startsWith l (exchange s) = startsWith l s := by
    intro s
    cases hs : run? isWordChar s with
    | none =>
        have hhead := run?_eq_none_iff.1 hs
        exact startsWith_word_append hl hhead (head?_rename hhead) []
    | some x =>
        have hhead : (rename twinName x.2).head? = x.2.head? := head?_rename (run?_head hs)
        have hsame := startsWith_word_append hl (run?_head hs) hhead x.1
        rw [exchange, rename_of_run hs, run?_eq_append hs]
        split
        · unfold twinName
          split
          · next h => rw [h, hsin, hcos]
          · split
            · next h => rw [h, hsin, hcos]
            · exact hsame
        · exact hsame
  induction s using run_induction with
  | nil => rw [exchange, rename_nil]
  | run s w r hw ih =>
      have hrun := run?_rename renamesWords_twinName hw
      rw [exchange, run?_eq_append hrun, occurs_append_of_not_mem (hfree (run?_all hrun)),
        run?_eq_append hw, occurs_append_of_not_mem (hfree (run?_all hw))]
      exact ih
  | other c s hc ih =>
      rw [exchange, rename_cons hc, occurs, occurs, startsWith_cons, startsWith_cons]
      exact congr (congrArg (fun x y => decide ('\\' = c) && x || y) (hstarts s)) ih

/-- Behind a word run, a call is read or the scan goes on with what follows the run. -/
theorem flatCall_occurs_of_run (hw : run? isWordChar s = some (w, r)) :
    flatCall.occurs s = ((flatGroup.read? r).isSome || flatCall.occurs r) := by
  have hread : ∀ {v : Text}, v ≠ [] → (∀ c ∈ v, isWordChar c = true) →
      flatCall.read? (v ++ r) = (flatGroup.read? r).map fun x => (⟨v, x.1⟩, x.2) := by
    intro v hne hv
    have hrun : run? isWordChar (v ++ r) = some (v, r) := run?_append hne hv (run?_head hw)
    rw [flatCall, Recogniser.read?_bind, Recogniser.read?_run, hrun]
    rfl
  rw [run?_eq_append hw]
  cases hr : flatGroup.read? r with
  | some x =>
      have hline := hread (run?_ne_nil hw) (run?_all hw)
      rw [hr] at hline
      rw [Recogniser.occurs, Recogniser.sites_of_read hline]
      rfl
  | none =>
      have hpass : ∀ v : Text, (∀ c ∈ v, isWordChar c = true) →
          flatCall.sites (v ++ r) = flatCall.sites r := by
        intro v hv
        induction v with
        | nil => rfl
        | cons c v ih =>
            have hnone := hread (List.cons_ne_nil c v) hv
            rw [hr] at hnone
            exact (Recogniser.sites_of_none hnone).trans (ih fun x hx => hv x (.tail _ hx))
      rw [Recogniser.occurs, hpass w (run?_all hw)]
      rfl

theorem flatCall_occurs_cons (hc : isWordChar c = false) (s : Text) :
    flatCall.occurs (c :: s) = flatCall.occurs s := by
  have hrun : run? isWordChar (c :: s) = none := run?_eq_none_iff.2 (by simpa using hc)
  have hnone : flatCall.read? (c :: s) = none := by
    rw [flatCall, Recogniser.read?_bind, Recogniser.read?_run, hrun]
    rfl
  rw [Recogniser.occurs, Recogniser.sites_of_none hnone]
  rfl

theorem flatGroup_isSome_rename (hσ : RenamesWords σ) (hs : ∀ c ∈ s.head?, isWordChar c = false) :
    (flatGroup.read? (rename σ s)).isSome = (flatGroup.read? s).isSome := by
  have hopen : ∀ t : Text, (flatGroup.read? ('(' :: t)).isSome = t.contains ')' := by
    intro t
    show (splitAt? ')' t).isSome = _
    induction t with
    | nil => rfl
    | cons c t ih =>
        by_cases hc : c = ')'
        · simp [splitAt?, hc]
        · simp [splitAt?, hc, Ne.symm hc, ih]
  cases s with
  | nil => rw [rename_nil]
  | cons c s =>
      rw [rename_cons (hs c rfl)]
      by_cases hc : c = '('
      · rw [hc, hopen, hopen, contains_rename hσ isWordChar_closing]
      · rw [flatGroup_read?_eq_none hc, flatGroup_read?_eq_none hc]

/-- A call is read in the renamed line when one is read in the line. -/
theorem flatCall_occurs_rename (hσ : RenamesWords σ) (s : Text) :
    flatCall.occurs (rename σ s) = flatCall.occurs s := by
  induction s using run_induction with
  | nil => rw [rename_nil]
  | run s w r hw ih =>
      rw [flatCall_occurs_of_run (run?_rename hσ hw), flatCall_occurs_of_run hw,
        flatGroup_isSome_rename hσ (run?_head hw), ih]
  | other c s hc ih =>
      rw [rename_cons hc, flatCall_occurs_cons hc, flatCall_occurs_cons hc, ih]

/-! ## Parentheses -/

theorem depthAfter_rename (hσ : RenamesWords σ) (d : Nat) (s : Text) :
    Bracket.Kind.round.depthAfter d (rename σ s) = Bracket.Kind.round.depthAfter d s := by
  have hword : ∀ {v : Text}, (∀ x ∈ v, isWordChar x = true) → ∀ (d : Nat) (t : Text),
      Bracket.Kind.round.depthAfter d (v ++ t) = Bracket.Kind.round.depthAfter d t := fun hv d t =>
    Bracket.Kind.depthAfter_append_of_some
      (Bracket.Kind.depthAfter_of_isNeutral (Bracket.isNeutral_of_isWordChar hv) d) t
  induction s using run_induction generalizing d with
  | nil => rw [rename_nil]
  | run s w r hw ih =>
      have hrun := run?_rename hσ hw
      rw [run?_eq_append hrun, hword (run?_all hrun), ih, run?_eq_append hw, hword (run?_all hw)]
  | other c s hc ih =>
      have hcons : ∀ t, Bracket.Kind.round.depthAfter d (c :: t) =
          (Bracket.Kind.round.depthAfter d [c]).bind fun e => Bracket.Kind.round.depthAfter e t :=
        fun t => Bracket.Kind.depthAfter_append [c] t
      rw [rename_cons hc, hcons (rename σ s), hcons s]
      exact congrArg _ (funext fun e => ih e)

/-- A group of the line is a group of the renamed line. -/
theorem group_read?_rename (hσ : RenamesWords σ) (h : Bracket.group.read? s = some (a, r)) :
    Bracket.group.read? (rename σ s) = some (rename σ a, rename σ r) := by
  obtain ⟨rfl, ha⟩ := Bracket.group?_eq_some_iff.1 h
  refine Bracket.group?_eq_some_iff.2 ⟨?_, (depthAfter_rename hσ 0 a).trans ha⟩
  rw [List.cons_append, rename_cons isWordChar_opening, rename_append (by simp),
    rename_cons isWordChar_closing]
  rfl

theorem group_read?_exchange_eq_none (h : Bracket.group.read? s = none) :
    Bracket.group.read? (exchange s) = none := by
  cases hs : Bracket.group.read? (exchange s) with
  | none => rfl
  | some x =>
      have hback := group_read?_rename renamesWords_twinName (a := x.1) (r := x.2) hs
      rw [show rename twinName (exchange s) = s from exchange_exchange s, h] at hback
      cases hback

end Call

/-! ## Typesetting -/

namespace KnownFunction

open Call

variable {f : KnownFunction} {s t u w r : Text} {c : Char}

theorem isSized_exchange (f : KnownFunction) (t : Text) :
    f.twin.isSized (exchange t) = f.isSized t := by
  have hfrac : occurs Markup.fracOpen (exchange t) = occurs Markup.fracOpen t :=
    occurs_exchange (l := "frac\x7b".toList) (by decide) (fun _ => rfl) (fun _ => rfl) t
  have hsqrt : occurs Markup.sqrtOpen (exchange t) = occurs Markup.sqrtOpen t :=
    occurs_exchange (l := "sqrt\x7b".toList) (by decide) (fun _ => rfl) (fun _ => rfl) t
  have htimes : occurs Markup.timesSign (exchange t) = occurs Markup.timesSign t :=
    occurs_exchange (l := "times".toList) (by decide) (fun _ => rfl) (fun _ => rfl) t
  have hcall : flatCall.occurs (exchange t) = flatCall.occurs t :=
    flatCall_occurs_rename renamesWords_twinName t
  cases f <;> simp only [isSized, twin, hfrac, hsqrt, htimes, hcall]

/-- A function has the frames of its twin, with the name of the twin exchanged. -/
theorem frame_twin (f : KnownFunction) (grows marked : Bool) :
    f.twin.frame grows marked =
      (exchange (f.frame grows marked).1, exchange (f.frame grows marked).2) := by
  cases f <;> cases grows <;> cases marked <;> decide +kernel

/-- A call of the twin is typeset as the exchange of what the call is typeset as. -/
theorem typeset_exchange (f : KnownFunction) (t : Text) :
    f.twin.typeset (exchange t) = exchange (f.typeset t) := by
  have hfront : ∀ grows marked, ∀ c ∈ (f.frame grows marked).1.getLast?, isWordChar c = false := by
    cases f <;> decide +kernel
  have hback : ∀ grows marked, ∀ c ∈ (f.frame grows marked).2.head?,
      isWordChar c = false ∧ c ≠ '(' := by
    cases f <;> decide +kernel
  rw [typeset_eq_frame, typeset_eq_frame, isSized_exchange, exchange,
    contains_rename renamesWords_twinName Markup.isWordChar_degree, List.append_assoc, List.append_assoc,
    rename_append_of_getLast (hfront _ _), rename_append (hback _ _), frame_twin]
  rfl

/-! The scan for one function, run by run. -/

theorem typesetCalls_nil (f : KnownFunction) : f.typesetCalls [] = [] := by
  rw [typesetCalls_eq, WordRule.replaceAll_nil]

theorem typesetCalls_cons (f : KnownFunction) (hc : isWordChar c = false) (s : Text) :
    f.typesetCalls (c :: s) = c :: f.typesetCalls s := by
  rw [typesetCalls_eq, typesetCalls_eq, WordRule.replaceAll_cons_of_not_isWordChar s hc]

theorem typesetCalls_of_read (hw : run? isWordChar s = some (f.name, r))
    (hr : Bracket.group.read? r = some (t, u)) :
    f.typesetCalls s = f.typeset t ++ f.typesetCalls u := by
  have hread : (closedCall f.name f.name).read? r = some (t, u) := by rwa [closedCall, if_pos rfl]
  rw [typesetCalls_eq, typesetCalls_eq, WordRule.replaceAll_of_read hw hread]

theorem typesetCalls_of_none (hw : run? isWordChar s = some (w, r))
    (hr : (closedCall f.name w).read? r = none) : f.typesetCalls s = w ++ f.typesetCalls r := by
  rw [typesetCalls_eq, typesetCalls_eq, WordRule.replaceAll_of_none hw hr]

theorem head?_typesetCalls (f : KnownFunction) (hs : ∀ c ∈ s.head?, isWordChar c = false) :
    (f.typesetCalls s).head? = s.head? := by
  cases s with
  | nil => rw [typesetCalls_nil]
  | cons c s =>
      rw [typesetCalls_cons f (hs c rfl)]
      rfl

/-- A run that is passed is a run of what the scan leaves. -/
theorem run?_typesetCalls (hw : run? isWordChar s = some (w, r))
    (hr : (closedCall f.name w).read? r = none) :
    run? isWordChar (f.typesetCalls s) = some (w, f.typesetCalls r) := by
  rw [typesetCalls_of_none hw hr]
  refine run?_append (run?_ne_nil hw) (run?_all hw) ?_
  rw [head?_typesetCalls f (run?_head hw)]
  exact run?_head hw

/-- A run with no closed call of the function has none of its twin in the exchanged line. -/
theorem closedCall_read?_exchange_eq_none (h : (closedCall f.name w).read? r = none) :
    (closedCall f.twin.name (if isOpening r then twinName w else w)).read? (exchange r) = none := by
  have hgroup : w = f.name → Bracket.group.read? (exchange r) = none := fun hw => by
    rw [closedCall, if_pos hw] at h
    exact group_read?_exchange_eq_none h
  cases hr : isOpening r with
  | true =>
      rw [if_pos rfl, closedCall]
      split
      · next hname =>
          refine hgroup ?_
          rw [← twinName_twinName w, hname, name_twin, twinName_twinName]
      · rfl
  | false =>
      rw [if_neg Bool.false_ne_true, closedCall]
      split
      · refine group_read?_exchange_eq_none ?_
        cases r with
        | nil => rfl
        | cons c r =>
            have hne : c ≠ '(' := by
              rintro rfl
              cases hr
            show Bracket.group? (c :: r) = none
            simp [Bracket.group?, hne]
      · rfl

/-- The scan for the twin makes of the exchanged line the exchange of what the scan for the function
makes of the line. -/
theorem typesetCalls_exchange (f : KnownFunction) (s : Text) :
    f.twin.typesetCalls (exchange s) = exchange (f.typesetCalls s) := by
  induction s using WordRule.scan_induction (closedCall f.name) with
  | nil => rw [exchange, rename_nil, typesetCalls_nil, typesetCalls_nil, rename_nil]
  | read s w r t r' hw hr ih =>
      obtain ⟨v, hv, rfl, hgroup, ht⟩ := meets_closedCall f.name w r t r' hr
      rw [closedCall, if_pos rfl] at hr
      have hopening : isOpening r = true := by
        rw [hv, hgroup]
        rfl
      have hrun := run?_rename renamesWords_twinName hw
      rw [hopening, if_pos rfl, ← name_twin] at hrun
      rw [typesetCalls_of_read hw hr, exchange, rename_append_of_getLast (f.isWordChar_of_mem_getLast?_typeset t)]
      exact (typesetCalls_of_read hrun (group_read?_rename renamesWords_twinName hr)).trans
        (congr (congrArg _ (f.typeset_exchange t)) ih)
  | pass s w r hw hr ih =>
      have hrun := run?_rename renamesWords_twinName hw
      have hread := closedCall_read?_exchange_eq_none hr
      have hopening : isOpening (f.typesetCalls r) = isOpening r := by
        rw [isOpening, isOpening, head?_typesetCalls f (run?_head hw)]
      rw [exchange, rename_of_run (run?_typesetCalls hw hr), hopening]
      exact (typesetCalls_of_none hrun hread).trans (congrArg _ ih)
  | other c s hc ih =>
      rw [exchange, rename_cons hc, typesetCalls_cons _ hc, typesetCalls_cons _ hc, rename_cons hc]
      exact congrArg _ ih

end KnownFunction

end CalcTypeset
