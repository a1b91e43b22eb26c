import CalcTypeset.Call.Usage
import CalcTypeset.Proofs.CallRule
import CalcTypeset.Proofs.Idle
import CalcTypeset.Proofs.Sum.Locality

/-!
# What a use of a function shows

Whether a line uses a function is asked with one search; what its calls become is found by twelve
scans, each over the text that the one before it left. In a line whose parentheses are balanced the
two agree, up to blanks between a name and its parenthesis, which the search passes and the scans do
not: `usesFunctions_iff`.

A use without such blanks is a closed call, and the scan of its name rewrites it if no scan before
it has changed the line. No later scan takes that back: every call that is typeset leaves more marks
in the line than it had, and no scan takes one away.
-/

namespace CalcTypeset

open Text

/-! ## Marks -/

namespace Markup

/-- A backslash, an opening brace or a degree mark. -/
def isMark (c : Char) : Bool := c = '\\' || c = '\x7b' || c = degree

/-- The text stays as it is or gets more marks. -/
def Marks (s s' : Text) : Prop := s' = s ∨ s.countP isMark < s'.countP isMark

variable {s s' s'' t t' : Text}

theorem Marks.countP_le (h : Marks s s') : s.countP isMark ≤ s'.countP isMark := by
  rcases h with rfl | h
  · exact Nat.le_refl _
  · exact Nat.le_of_lt h

theorem Marks.trans (h : Marks s s') (h' : Marks s' s'') : Marks s s'' := by
  rcases h with rfl | h
  · exact h'
  · exact .inr (Nat.lt_of_lt_of_le h h'.countP_le)

theorem congruence_marks : Text.Congruence Marks where
  refl s := .inl rfl
  append {s s' t t'} hs ht := by
    have hle := hs.countP_le
    have hle' := ht.countP_le
    rcases hs with rfl | hs
    · rcases ht with rfl | ht
      · exact .inl rfl
      · right
        rw [List.countP_append, List.countP_append]
        omega
    · right
      rw [List.countP_append, List.countP_append]
      omega

end Markup

namespace KnownFunction

open Markup

variable {s : Text}

/-- A typeset call has more marks than the call. -/
theorem countP_lt_typeset (f : KnownFunction) (t : Text) :
    (f.name ++ parenthesised t).countP isMark < (f.typeset t).countP isMark := by
  have hname : f.name.countP isMark = 0 := by cases f <;> decide
  have hframes : ∀ p ∈ f.frames, 0 < p.1.countP isMark + p.2.countP isMark := by
    cases f <;> decide +kernel
  obtain ⟨p, hp, heq⟩ := f.exists_frame t
  have hframe := hframes p hp
  have hparenthesised : (parenthesised t).countP isMark = t.countP isMark := by
    simp [parenthesised, isMark, degree]
  rw [heq, List.countP_append, List.countP_append, List.countP_append, hname, hparenthesised]
  omega

theorem marks_typesetCalls (f : KnownFunction) (s : Text) : Marks s (f.typesetCalls s) := by
  refine Call.replaceAfter_rel congruence_marks (fun t _ => .inr ?_) none s
  rw [List.append_assoc]
  exact f.countP_lt_typeset t

theorem marks_foldl (fs : List KnownFunction) (s : Text) :
    Marks s (fs.foldl (fun s f => f.typesetCalls s) s) :=
  List.foldlRecOn fs _ (.inl rfl) fun t ht f _ => ht.trans (marks_typesetCalls f t)

/-- Where a closed call is found the scan of its name leaves more marks. -/
theorem countP_lt_typesetCalls {f : KnownFunction} (h : (Call.closedCall f.name).occurs s = true) :
    s.countP isMark < (f.typesetCalls s).countP isMark := by
  rw [typesetCalls_eq]
  induction s using WordRule.scan_induction (Call.closedCall f.name) with
  | nil =>
      rw [WordRule.occurs_nil] at h
      cases h
  | read s w r t r' hw hr ih =>
      obtain ⟨v, rfl, rfl, rfl, -⟩ := Call.meets_closedCall f.name w r t r' hr
      have hcall := f.countP_lt_typeset t
      have hrest := (marks_typesetCalls f r').countP_le
      rw [typesetCalls_eq] at hrest
      rw [WordRule.replaceAll_of_read hw hr, run?_eq_append hw, ← List.append_assoc]
      calc (f.name ++ parenthesised t ++ r').countP isMark
          = (f.name ++ parenthesised t).countP isMark + r'.countP isMark := List.countP_append
        _ < (f.typeset t).countP isMark +
            ((Call.closedCall f.name).replaceAll f.typeset r').countP isMark := by omega
        _ = _ := List.countP_append.symm
  | pass s w r hw hr ih =>
      rw [WordRule.occurs_of_none hw hr] at h
      have := ih h
      rw [WordRule.replaceAll_of_none hw hr, run?_eq_append hw, List.countP_append,
        List.countP_append]
      omega
  | other c s hc ih =>
      rw [WordRule.occurs_cons hc] at h
      have := ih h
      rw [WordRule.replaceAll_cons_of_not_isWordChar s hc, List.countP_cons, List.countP_cons]
      omega

/-- A closed call of one of the functions does not come through their scans unchanged. -/
theorem foldl_typesetCalls_ne {fs : List KnownFunction} {f : KnownFunction} (hf : f ∈ fs)
    (h : (Call.closedCall f.name).occurs s = true) :
    fs.foldl (fun s f => f.typesetCalls s) s ≠ s := by
  induction fs with
  | nil => cases hf
  | cons g fs ih =>
      rw [List.foldl_cons]
      rcases marks_typesetCalls g s with hsame | hmore
      · rw [hsame]
        refine ih ((List.mem_cons.1 hf).resolve_left ?_)
        rintro rfl
        have := countP_lt_typesetCalls h
        rw [hsame] at this
        exact Nat.lt_irrefl _ this
      · intro heq
        have := (marks_foldl fs (g.typesetCalls s)).countP_le
        rw [heq] at this
        omega

/-- The calls of a line change just when one of them is closed. -/
theorem typesetEach_ne_iff :
    typesetEach s ≠ s ↔ ∃ f : KnownFunction, (Call.closedCall f.name).occurs s = true := by
  constructor
  · intro hne
    refine Classical.byContradiction fun hnone => hne (typesetEach_of_typesetCalls fun f => ?_)
    rw [typesetCalls_eq, WordRule.replaceAll_eq_self_of_occurs]
    exact Bool.eq_false_iff.2 fun h => hnone ⟨f, h⟩
  · rintro ⟨f, hf⟩
    exact foldl_typesetCalls_ne f.mem_typesetOrder hf

end KnownFunction

/-! ## What occurs -/

namespace WordRule

variable {α β : Type} {f : WordRule α} {s w r : Text}

/-- What occurs behind a run occurs. -/
theorem occurs_of_run (hw : run? isWordChar s = some (w, r)) (h : f.occurs r = true) :
    f.occurs s = true := by
  cases hr : (f w).read? r with
  | none => rw [occurs_of_none hw hr, h]
  | some x => exact occurs_of_read hw hr

/-- A rule occurs wherever one does that reads less. -/
theorem occurs_of_reads {g : WordRule β}
    (hfg : ∀ w r, (f w).read? r = none → (g w).read? r = none) (h : g.occurs s = true) :
    f.occurs s = true := by
  induction s using WordRule.scan_induction f with
  | nil =>
      rw [occurs_nil] at h
      cases h
  | read s w r a r' hw hr ih => exact occurs_of_read hw hr
  | pass s w r hw hr ih =>
      rw [occurs_of_none hw (hfg w r hr)] at h
      rw [occurs_of_none hw hr]
      exact ih h
  | other c s hc ih =>
      rw [occurs_cons hc] at h ⊢
      exact ih h

end WordRule

/-! ## Uses -/

namespace Call

variable {s w r : Text}

/-- Behind a counted name, one blank at least and an opening parenthesis. -/
def gappedOpening : WordRule Unit := fun w =>
  if Vocabulary.countedNames.contains w then
    (Recogniser.char isBlank).bind fun _ => (Recogniser.single '(').spaced
  else .never

/-- The counted names are those of the functions. -/
theorem countedNames_contains_iff :
    Vocabulary.countedNames.contains w = true ↔ ∃ f : KnownFunction, w = f.name := by
  have hcounted : Vocabulary.countedNames = KnownFunction.all.map KnownFunction.name := by decide
  rw [List.contains_iff_mem, hcounted, List.mem_map]
  exact ⟨fun ⟨f, _, hf⟩ => ⟨f, hf.symm⟩, fun ⟨f, hf⟩ => ⟨f, f.mem_all, hf.symm⟩⟩

/-- Behind a name the search reads a parenthesis that follows at once, or a gap and a
parenthesis. -/
theorem countedOpening_read? {r' : Text} (h : (countedOpening w).read? r = some ((), r')) :
    (∃ f : KnownFunction, w = f.name ∧ ∃ t, r = '(' :: t) ∨
      (gappedOpening w).read? r = some ((), r') := by
  unfold countedOpening at h
  split at h
  · next hcounted =>
      rw [gappedOpening, if_pos hcounted]
      rw [Recogniser.read?_spaced] at h
      obtain ⟨x, hx, hx'⟩ := Option.map_eq_some_iff.1 h
      have hopen := Recogniser.read?_single_eq_some_iff.1 hx
      obtain _ | ⟨c, r⟩ := r
      · cases hopen
      · cases hc : isBlank c with
        | true =>
            right
            rw [skipBlanks_cons_of_isBlank r hc] at hx
            simp [Recogniser.char, hc, hx, ← hx']
        | false =>
            rw [skipBlanks_cons_of_not_isBlank r hc] at hopen
            obtain ⟨f, hf⟩ := countedNames_contains_iff.1 hcounted
            exact .inl ⟨f, hf, x.2, hopen⟩
  · cases h

/-- A closed call is a use. -/
theorem usesFunctions_of_closedCall {f : KnownFunction} (h : (closedCall f.name).occurs s = true) :
    usesFunctions s = true := by
  refine WordRule.occurs_of_reads (fun w r hnone => ?_) h
  refine Option.eq_none_iff_forall_ne_some.2 fun ⟨t, r'⟩ hread => ?_
  obtain ⟨v, rfl, rfl, rfl, -⟩ := meets_closedCall f.name w r t r' hread
  rw [countedOpening, if_pos (countedNames_contains_iff.2 ⟨f, rfl⟩)] at hnone
  cases hnone

/-- A name with a gap in front of its parenthesis is a use. -/
theorem usesFunctions_of_gappedOpening (h : gappedOpening.occurs s = true) :
    usesFunctions s = true := by
  refine WordRule.occurs_of_reads (fun w r hnone => ?_) h
  unfold countedOpening at hnone
  unfold gappedOpening
  split
  · next hcounted =>
      rw [if_pos hcounted] at hnone
      obtain _ | ⟨c, r⟩ := r
      · rfl
      · cases hc : isBlank c with
        | false => simp [Recogniser.char, hc]
        | true =>
            rw [Recogniser.read?_spaced, skipBlanks_cons_of_isBlank r hc] at hnone
            simpa [Recogniser.char, hc] using hnone
  · rfl

/-- Where every parenthesis is closed, a use is a closed call or has a gap. -/
theorem closedCall_or_gappedOpening (hs : ∀ t, '(' :: t <:+ s → (Bracket.closing? 0 t).isSome)
    (h : usesFunctions s = true) :
    (∃ f : KnownFunction, (closedCall f.name).occurs s = true) ∨ gappedOpening.occurs s = true := by
  unfold usesFunctions at h
  induction s using WordRule.scan_induction countedOpening with
  | nil =>
      rw [WordRule.occurs_nil] at h
      cases h
  | read s w r _ r' hw hr ih =>
      rcases countedOpening_read? hr with ⟨f, rfl, t, rfl⟩ | hgap
      · have hclosed := hs t (by rw [run?_eq_append hw]; exact List.suffix_append _ _)
        obtain ⟨⟨content, rest⟩, hgroup⟩ := Option.isSome_iff_exists.1 hclosed
        have hread : (closedCall f.name f.name).read? ('(' :: t) = some (content, rest) := by
          rw [closedCall, if_pos rfl]
          exact hgroup
        exact .inl ⟨f, WordRule.occurs_of_read hw hread⟩
      · exact .inr (WordRule.occurs_of_read hw hgap)
  | pass s w r hw hr ih =>
      rw [WordRule.occurs_of_none hw hr] at h
      have hsuffix : r <:+ s := by
        rw [run?_eq_append hw]
        exact List.suffix_append w r
      rcases ih (fun t ht => hs t (ht.trans hsuffix)) h with ⟨f, hf⟩ | hgap
      · exact .inl ⟨f, WordRule.occurs_of_run hw hf⟩
      · exact .inr (WordRule.occurs_of_run hw hgap)
  | other c s hc ih =>
      rw [WordRule.occurs_cons hc] at h
      rcases ih (fun t ht => hs t (ht.trans (List.suffix_cons c s))) h with ⟨f, hf⟩ | hgap
      · exact .inl ⟨f, (WordRule.occurs_cons hc s).trans hf⟩
      · exact .inr ((WordRule.occurs_cons hc s).trans hgap)

/-- A line in which every parenthesis is closed uses a function just when its calls change as they
are typeset, or a name has a gap in front of its parenthesis. -/
theorem usesFunctions_iff (hs : Bracket.IsBalanced '(' ')' s) :
    usesFunctions s = true ↔
      KnownFunction.typesetEach s ≠ s ∨ gappedOpening.occurs s = true := by
  rw [KnownFunction.typesetEach_ne_iff]
  constructor
  · exact closedCall_or_gappedOpening fun t ht => Bracket.closing?_isSome_of_suffix hs ht
  · rintro (⟨f, hf⟩ | hgap)
    · exact usesFunctions_of_closedCall hf
    · exact usesFunctions_of_gappedOpening hgap

/-- A call inside a call of another name, and a name with a gap. -/
theorem usesFunctions_iff_nested_gap :
    Bracket.IsBalanced '(' ')' "random(ln(x/2), tan (y))".toList ∧
      (usesFunctions "random(ln(x/2), tan (y))".toList = true ↔
        KnownFunction.typesetEach "random(ln(x/2), tan (y))".toList ≠
            "random(ln(x/2), tan (y))".toList ∨
          gappedOpening.occurs "random(ln(x/2), tan (y))".toList = true) := by
  have hs : Bracket.IsBalanced '(' ')' "random(ln(x/2), tan (y))".toList := by decide
  exact ⟨hs, usesFunctions_iff hs⟩

/-- A gap is passed by the search but not by the scans, so the line shows no change. -/
theorem not_usesFunctions_iff_typesetEach_ne :
    ¬ ∀ s : Text, Bracket.IsBalanced '(' ')' s →
      (usesFunctions s = true ↔ KnownFunction.typesetEach s ≠ s) := by
  intro h
  have huses : usesFunctions "sin (1)".toList = true := by decide +kernel
  have hsame : KnownFunction.typesetEach "sin (1)".toList = "sin (1)".toList := by decide +kernel
  exact (h "sin (1)".toList (by decide)).1 huses hsame

end Call

end CalcTypeset
