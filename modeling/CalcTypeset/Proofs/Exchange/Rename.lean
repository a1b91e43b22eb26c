import CalcTypeset.Proofs.CallRule
import CalcTypeset.Proofs.Called.Scan

/-!
# Renaming the calls of a line

A name is called where it is a whole word run with an opening parenthesis directly behind it. When
every name that is called is written anew, the runs of the line stay where they are, and so do the
parentheses behind them. So one renaming after another is a renaming, and what a renamed line calls
are the new names of what the line calls.

The renaming that the library has two functions for that are typeset alike is the exchange of sine
and cosine.
-/

namespace CalcTypeset

open Text Called

/-- The sine in the place of the cosine, and the cosine in the place of the sine. -/
def KnownFunction.twin : KnownFunction → KnownFunction
  | sin => cos
  | cos => sin
  | f => f

/-- The name of the other one of sine and cosine; any other name as it is. -/
def KnownFunction.twinName (w : Text) : Text :=
  if w = sin.name then cos.name else if w = cos.name then sin.name else w

namespace Call

/-- A word run with an opening parenthesis directly behind it. -/
def calledName : WordRule Text := fun w => (Recogniser.single '(').map fun _ => w

/-- The line with every name that is called written anew, and all else as it is. -/
def rename (σ : Text → Text) : Text → Text := calledName.replaceAll fun w => σ w ++ ['(']

/-- The line with the calls of sine and cosine exchanged. -/
def exchange : Text → Text := rename KnownFunction.twinName

/-- New names are words like the old ones. -/
structure RenamesWords (σ : Text → Text) : Prop where
  ne_nil : ∀ {w}, w ≠ [] → σ w ≠ []
  word : ∀ {w}, (∀ c ∈ w, isWordChar c = true) → ∀ c ∈ σ w, isWordChar c = true

variable {σ τ : Text → Text} {s t w r : Text} {c : Char}

/-! ## Run by run -/

/-- Induction along the word runs of a text. -/
@[elab_as_elim]
theorem run_induction {motive : Text → Prop} (nil : motive [])
    (run : ∀ s w r, run? isWordChar s = some (w, r) → motive r → motive s)
    (other : ∀ c s, isWordChar c = false → motive s → motive (c :: s)) (s : Text) : motive s := by
  induction s using WordRule.scan_induction fun _ => (Recogniser.never : Recogniser Unit) with
  | nil => exact nil
  | read s w r a r' hw hr ih => cases hr
  | pass s w r hw hr ih => exact run s w r hw ih
  | other c s hc ih => exact other c s hc ih

@[simp] theorem rename_nil : rename σ [] = [] := WordRule.replaceAll_nil

theorem rename_cons (hc : isWordChar c = false) (s : Text) :
    rename σ (c :: s) = c :: rename σ s := WordRule.replaceAll_cons_of_not_isWordChar s hc

/-- A run has its new name when it is called. -/
theorem rename_of_run (hw : run? isWordChar s = some (w, r)) :
    rename σ s = (if isOpening r then σ w else w) ++ rename σ r := by
  cases hr : isOpening r with
  | true =>
      obtain ⟨r, rfl⟩ := List.head?_eq_some_iff.1 (of_decide_eq_true hr)
      have hread : (calledName w).read? ('(' :: r) = some (w, r) := rfl
      rw [rename, WordRule.replaceAll_of_read hw hread, if_pos rfl, List.append_assoc,
        WordRule.replaceAll_cons_of_not_isWordChar r isWordChar_opening]
      rfl
  | false =>
      have hread : (calledName w).read? r = none := by
        refine Recogniser.read?_map_eq_none ?_ _
        cases r with
        | nil => rfl
        | cons c r =>
            refine Recogniser.read?_single_eq_none ?_ r
            rintro rfl
            cases hr
      rw [rename, WordRule.replaceAll_of_none hw hread, if_neg Bool.false_ne_true]

theorem head?_rename (hs : ∀ c ∈ s.head?, isWordChar c = false) :
    (rename σ s).head? = s.head? := by
  cases s with
  | nil => rw [rename_nil]
  | cons c s => rw [rename_cons (hs c rfl)]; rfl

theorem isOpening_rename (hs : ∀ c ∈ s.head?, isWordChar c = false) :
    isOpening (rename σ s) = isOpening s := by
  rw [isOpening, isOpening, head?_rename hs]

/-- The renamed line has a run where the line has one. -/
theorem run?_rename (hσ : RenamesWords σ) (hw : run? isWordChar s = some (w, r)) :
    run? isWordChar (rename σ s) = some (if isOpening r then σ w else w, rename σ r) := by
  rw [rename_of_run hw]
  refine run?_append ?_ ?_ ?_
  · split
    · exact hσ.ne_nil (run?_ne_nil hw)
    · exact run?_ne_nil hw
  · split
    · exact hσ.word (run?_all hw)
    · exact run?_all hw
  · rw [head?_rename (run?_head hw)]
    exact run?_head hw

/-- The line has a run where the renamed line has one. -/
theorem run?_of_rename (hσ : RenamesWords σ) {w' r' : Text}
    (h : run? isWordChar (rename σ s) = some (w', r')) :
    ∃ w r, run? isWordChar s = some (w, r) ∧ (if isOpening r then σ w else w) = w' ∧
      rename σ r = r' := by
  cases hs : run? isWordChar s with
  | none =>
      have hhead := run?_eq_none_iff.1 hs
      have hnone : run? isWordChar (rename σ s) = none :=
        run?_eq_none_iff.2 (by rwa [head?_rename hhead])
      rw [hnone] at h
      cases h
  | some x =>
      rw [run?_rename hσ hs] at h
      obtain ⟨hw, hr⟩ := Prod.mk.inj (Option.some.inj h)
      exact ⟨x.1, x.2, rfl, hw, hr⟩

theorem eq_nil_of_rename (hσ : RenamesWords σ) (h : rename σ s = []) : s = [] := by
  cases s with
  | nil => rfl
  | cons c s =>
      cases hc : isWordChar c with
      | false =>
          rw [rename_cons hc] at h
          cases h
      | true =>
          have hrun := run?_rename hσ (s := c :: s) (by rw [run?, if_pos hc])
          rw [h] at hrun
          cases hrun

theorem eq_cons_of_rename (hσ : RenamesWords σ) (hc : isWordChar c = false)
    (h : rename σ s = c :: t) : ∃ r, s = c :: r ∧ rename σ r = t := by
  cases s with
  | nil =>
      rw [rename_nil] at h
      cases h
  | cons d s =>
      cases hd : isWordChar d with
      | false =>
          rw [rename_cons hd] at h
          obtain ⟨rfl, htail⟩ := List.cons.inj h
          exact ⟨s, rfl, htail⟩
      | true =>
          have hrun := run?_rename hσ (s := d :: s) (by rw [run?, if_pos hd])
          rw [h, run?, if_neg (by simp [hc])] at hrun
          cases hrun

/-! ## Renamings -/

theorem rename_rename (hσ : RenamesWords σ) (s : Text) :
    rename τ (rename σ s) = rename (fun w => τ (σ w)) s := by
  induction s using run_induction with
  | nil => rw [rename_nil, rename_nil, rename_nil]
  | run s w r hw ih =>
      rw [rename_of_run (run?_rename hσ hw), isOpening_rename (run?_head hw), ih, rename_of_run hw]
      split <;> rfl
  | other c s hc ih => rw [rename_cons hc, rename_cons hc, rename_cons hc, ih]

/-- What is called in the renamed line are the new names of what is called in the line. -/
theorem calls_rename (hσ : RenamesWords σ) {g : KnownFunction → KnownFunction}
    (h : ∀ w, KnownFunction.ofName? (σ w) = (KnownFunction.ofName? w).map g) (s : Text) :
    calls (rename σ s) = (calls s).map g := by
  induction s using run_induction with
  | nil => rw [rename_nil]; rfl
  | run s w r hw ih =>
      rw [calls_of_run (run?_rename hσ hw), isOpening_rename (run?_head hw), ih, calls_of_run hw,
        List.map_append]
      cases isOpening r with
      | true =>
          rw [if_pos rfl, if_pos rfl, if_pos rfl, h]
          cases KnownFunction.ofName? w <;> rfl
      | false => rfl
  | other c s hc ih =>
      rw [rename_cons hc, calls, calls, calledAfter_separator hc, calledAfter_separator hc]
      exact ih

/-! ## Parts of a line -/

/-- A renamed line may be cut in front of a character that neither goes on with a word nor opens
a parenthesis. -/
theorem rename_append (ht : ∀ c ∈ t.head?, isWordChar c = false ∧ c ≠ '(') (s : Text) :
    rename σ (s ++ t) = rename σ s ++ rename σ t := by
  induction s using run_induction with
  | nil => rw [rename_nil]; rfl
  | run s w r hw ih =>
      have hrun : run? isWordChar (s ++ t) = some (w, r ++ t) :=
        (Recogniser.localAt_run (fun c hc => (ht c hc).1) s).of_some hw
      have hopening : isOpening (r ++ t) = isOpening r := by
        cases r with
        | cons c r => rfl
        | nil =>
            rw [List.nil_append]
            exact Bool.eq_false_iff.2 fun ho => (ht _ (of_decide_eq_true ho)).2 rfl
      rw [rename_of_run hrun, hopening, ih, rename_of_run hw, List.append_assoc]
  | other c s hc ih => rw [List.cons_append, rename_cons hc, rename_cons hc, ih, List.cons_append]

/-- A renamed line may be cut behind a character that is part of no word. -/
theorem rename_concat_append (hc : isWordChar c = false) (s t : Text) :
    rename σ (s ++ c :: t) = rename σ (s ++ [c]) ++ rename σ t := by
  induction s using run_induction with
  | nil => rw [List.nil_append, List.nil_append, rename_cons hc, rename_cons hc, rename_nil]; rfl
  | run s w r hw ih =>
      have hrun : ∀ u, run? isWordChar (s ++ c :: u) = some (w, r ++ c :: u) := fun u =>
        (Recogniser.localAt_run (by simpa using hc) s).of_some hw
      have hopening : isOpening (r ++ c :: t) = isOpening (r ++ [c]) := by
        cases r <;> rfl
      rw [rename_of_run (hrun t), hopening, ih, rename_of_run (hrun []), List.append_assoc]
  | other d s hd ih =>
      rw [List.cons_append, rename_cons hd, ih, List.cons_append, rename_cons hd, List.cons_append]

theorem rename_append_of_getLast (hs : ∀ c ∈ s.getLast?, isWordChar c = false) (t : Text) :
    rename σ (s ++ t) = rename σ s ++ rename σ t := by
  rcases List.eq_nil_or_concat s with rfl | ⟨x, c, rfl⟩
  · rw [rename_nil]
    rfl
  · rw [List.concat_eq_append] at hs ⊢
    rw [List.append_assoc]
    exact rename_concat_append (hs c (by simp)) x t

end Call

/-! ## Sine and cosine -/

namespace KnownFunction

/-- Sine and cosine are the functions with a twin. -/
def hasTwin (f : KnownFunction) : Bool := f.twin ≠ f

theorem hasTwin_iff (f : KnownFunction) : f.hasTwin = true ↔ f = sin ∨ f = cos := by
  cases f <;> decide

theorem name_twin (f : KnownFunction) : f.twin.name = twinName f.name := by
  cases f <;> decide

theorem ofName?_name (f : KnownFunction) : ofName? f.name = some f := by
  cases f <;> decide

/-- A function without a twin is the function of its name only. -/
theorem ofName?_twinName (w : Text) : ofName? (twinName w) = (ofName? w).map twin := by
  unfold twinName
  split
  · next h => rw [h]; decide
  · next hsin =>
      split
      · next h => rw [h]; decide
      · next hcos =>
          cases h : ofName? w with
          | none => rfl
          | some f =>
              have hname := name_of_ofName? h
              cases f with
              | sin => exact absurd hname.symm hsin
              | cos => exact absurd hname.symm hcos
              | _ => rfl

theorem twinName_twinName (w : Text) : twinName (twinName w) = w := by
  have hne : cos.name ≠ sin.name := by decide
  by_cases hsin : w = sin.name
  · simp [twinName, hsin, hne]
  · by_cases hcos : w = cos.name
    · simp [twinName, hcos, hne]
    · simp [twinName, hsin, hcos]

theorem twinName_head (w : Text) (hw : w.head? = some 'p') : (twinName w).head? = some 'p' := by
  unfold twinName
  split
  · next h => rw [h] at hw; cases hw
  · split
    · next h => rw [h] at hw; cases hw
    · exact hw

/-- A renaming that gives known functions their names renames words. -/
theorem renamesWords_of_names {σ : Text → Text}
    (h : ∀ w, σ w = w ∨ ∃ f : KnownFunction, σ w = f.name) : Call.RenamesWords σ where
  ne_nil {w} hw := by
    rcases h w with h | ⟨f, h⟩ <;> rw [h]
    · exact hw
    · exact f.name_ne_nil
  word {w} hw := by
    rcases h w with h | ⟨f, h⟩ <;> rw [h]
    · exact hw
    · exact f.isWordChar_of_mem_name

theorem renamesWords_twinName : Call.RenamesWords twinName :=
  renamesWords_of_names fun w => by
    unfold twinName
    split
    · exact .inr ⟨cos, rfl⟩
    · split
      · exact .inr ⟨sin, rfl⟩
      · exact .inl rfl

end KnownFunction

namespace Call

theorem calls_exchange (s : Text) :
    calls (exchange s) = (calls s).map KnownFunction.twin :=
  calls_rename KnownFunction.renamesWords_twinName KnownFunction.ofName?_twinName s

/-- A line that is exchanged twice is the line. -/
theorem exchange_exchange (s : Text) : exchange (exchange s) = s := by
  induction s using run_induction with
  | nil => rw [exchange, rename_nil, rename_nil]
  | run s w r hw ih =>
      have hrun := run?_rename KnownFunction.renamesWords_twinName hw
      have hself : exchange (exchange s) = w ++ exchange (exchange r) := by
        rw [exchange, rename_of_run hrun, isOpening_rename (run?_head hw)]
        cases isOpening r with
        | true => exact congrArg (· ++ _) (KnownFunction.twinName_twinName w)
        | false => rfl
      rw [hself, ih, ← run?_eq_append hw]
  | other c s hc ih =>
      rw [exchange, rename_cons hc, rename_cons hc]
      exact congrArg _ ih

end Call

end CalcTypeset
