import CalcTypeset.Proofs.Idle
import CalcTypeset.Proofs.Trace

/-!
# The functions that a line calls

A function is called where its name is a whole word run with an opening parenthesis directly behind
it. A fraction may come between the two: of a call that is divided by a call the name of the second
one alone goes into the denominator, and its parenthesis stays outside. What comes between is markup
of the fraction and nothing else, so the call is still there for a reader who passes over that.

Both ways to read calls are one scan, which differs in what it takes for an opening. The scan of a
text that was put together is the scan of its parts, up to calls whose opening is in the other part.
-/

namespace CalcTypeset.Called

open Text Fraction

/-- The known functions whose names are followed by an opening, from left to right. The word run `w`
has been read already. -/
def calledAfter (opens : Text → Bool) : (w s : Text) → List KnownFunction
  | _, [] => []
  | w, c :: s =>
      if isWordChar c then calledAfter opens (w ++ [c]) s
      else (if opens (c :: s) then (KnownFunction.ofName? w).toList else []) ++
        calledAfter opens [] s

/-- The text begins with an opening parenthesis. -/
def isOpening (s : Text) : Bool := s.head? = some '('

/-- The text begins with an opening parenthesis when the markup of fractions is passed over. -/
def isLooseOpening (s : Text) : Bool :=
  (s.dropWhile fun c => fractionChars.contains c).head? = some '('

/-- The functions that are called in a text. -/
def calls (s : Text) : List KnownFunction := calledAfter isOpening [] s

/-- The functions that are called in a text when the markup of fractions is passed over. -/
def looseCalls (s : Text) : List KnownFunction := calledAfter isLooseOpening [] s

variable {opens : Text → Bool} {w v s t u : Text} {c : Char}

/-! ## Characters and names -/

theorem isTermChar_of_isWordChar (h : isWordChar c = true) : isTermChar c = true := by
  have hblank : isBlank c = false := Bool.eq_false_iff.2 fun hb => by
    rw [isWordChar_of_isBlank hb] at h
    cases h
  have hne : c ≠ '/' ∧ c ≠ '(' ∧ c ≠ ')' := by
    refine ⟨?_, ?_, ?_⟩ <;>
      (rintro rfl; rw [isWordChar_of_lt (by decide)] at h; exact absurd h (by decide))
  simp [isTermChar, hblank, hne]

theorem name_of_ofName? {f : KnownFunction} (h : KnownFunction.ofName? w = some f) :
    f.name = w := by
  have := List.find?_some h
  simpa using this

theorem isLower_name (f : KnownFunction) : ∀ c ∈ f.name, c.isLower = true := by
  cases f <;> decide

/-- A run with another character than a lower case letter is no name. -/
theorem ofName?_eq_none (hc : c ∈ w) (hlower : c.isLower = false) :
    KnownFunction.ofName? w = none := by
  cases h : KnownFunction.ofName? w with
  | none => rfl
  | some f =>
      rw [← name_of_ofName? h] at hc
      rw [isLower_name f c hc] at hlower
      cases hlower

/-! ## Single characters -/

@[simp] theorem calledAfter_nil (opens : Text → Bool) (w : Text) : calledAfter opens w [] = [] := by
  rw [calledAfter]

theorem calledAfter_word (hc : isWordChar c = true) (w s : Text) :
    calledAfter opens w (c :: s) = calledAfter opens (w ++ [c]) s := by
  rw [calledAfter, if_pos hc]

theorem calledAfter_other (hc : isWordChar c = false) (w s : Text) :
    calledAfter opens w (c :: s) =
      (if opens (c :: s) then (KnownFunction.ofName? w).toList else []) ++
        calledAfter opens [] s := by
  rw [calledAfter, hc]
  rfl

/-- At a character that is part of no word, nothing that is no name is called. -/
theorem calledAfter_separator (hc : isWordChar c = false) (s : Text) :
    calledAfter opens [] (c :: s) = calledAfter opens [] s := by
  have hnone : KnownFunction.ofName? [] = none := rfl
  rw [calledAfter_other hc, hnone]
  split <;> rfl

theorem calledAfter_separators (hs : ∀ c ∈ s, isWordChar c = false) (t : Text) :
    calledAfter opens [] (s ++ t) = calledAfter opens [] t := by
  induction s with
  | nil => rfl
  | cons c s ih =>
      rw [List.cons_append, calledAfter_separator (hs c (by simp)),
        ih fun x hx => hs x (by simp [hx])]

/-- A run goes on. -/
theorem calledAfter_run (hv : ∀ c ∈ v, isWordChar c = true) (w s : Text) :
    calledAfter opens w (v ++ s) = calledAfter opens (w ++ v) s := by
  induction v generalizing w with
  | nil => rw [List.nil_append, List.append_nil]
  | cons c v ih =>
      rw [List.cons_append, calledAfter_word (hv c (by simp)), ih fun x hx => hv x (by simp [hx])]
      simp

/-- A run that is no name calls nothing where it ends. -/
theorem calledAfter_of_ofName?_eq_none (hw : KnownFunction.ofName? w = none)
    (hs : ∀ c ∈ s.head?, isWordChar c = false) :
    calledAfter opens w s = calledAfter opens [] s := by
  cases s with
  | nil => rw [calledAfter_nil, calledAfter_nil]
  | cons c s =>
      rw [calledAfter_other (hs c rfl), calledAfter_separator (hs c rfl), hw]
      split <;> rfl

/-- What is called is seen run by run. -/
theorem calledAfter_of_run (hnil : opens [] = false) (hw : run? isWordChar s = some (w, t)) :
    calledAfter opens [] s =
      (if opens t then (KnownFunction.ofName? w).toList else []) ++ calledAfter opens [] t := by
  rw [run?_eq_append hw, calledAfter_run (run?_all hw), List.nil_append]
  cases t with
  | nil => rw [hnil, calledAfter_nil, calledAfter_nil]; rfl
  | cons c t =>
      have hc : isWordChar c = false := run?_head hw c rfl
      rw [calledAfter_other hc, calledAfter_separator hc]

theorem calls_of_run (hw : run? isWordChar s = some (w, t)) :
    calls s = (if isOpening t then (KnownFunction.ofName? w).toList else []) ++ calls t :=
  calledAfter_of_run rfl hw

/-- What has been read of a run does not matter when the run is no name. -/
theorem calledAfter_congr {a b : Char} (ha : a ∈ w ∧ a.isLower = false)
    (hb : b ∈ v ∧ b.isLower = false) (s : Text) :
    calledAfter opens w s = calledAfter opens v s := by
  induction s generalizing w v with
  | nil => rw [calledAfter_nil, calledAfter_nil]
  | cons c s ih =>
      cases hc : isWordChar c with
      | true =>
          rw [calledAfter_word hc, calledAfter_word hc]
          exact ih ⟨List.mem_append_left _ ha.1, ha.2⟩ ⟨List.mem_append_left _ hb.1, hb.2⟩
      | false =>
          rw [calledAfter_other hc, calledAfter_other hc, ofName?_eq_none ha.1 ha.2,
            ofName?_eq_none hb.1 hb.2]

/-- A run is no name when a word character that is no lower case letter is behind it. -/
theorem calledAfter_word_eq (hc : isWordChar c = true) (hlower : c.isLower = false) (w s : Text) :
    calledAfter opens w (c :: s) = calledAfter opens [] (c :: s) := by
  rw [calledAfter_word hc, calledAfter_word hc]
  exact calledAfter_congr ⟨by simp, hlower⟩ ⟨by simp, hlower⟩ s

/-! ## Openings -/

/-- A way to look for an opening. It is found in what a text begins with, and not behind a character
that is neither a parenthesis nor the markup of a fraction. -/
structure Looks (opens : Text → Bool) : Prop where
  mem : ∀ {x}, opens x = true → '(' ∈ x
  append : ∀ {x}, opens x = true → ∀ y, opens (x ++ y) = true
  stops : ∀ {c}, c ∉ '(' :: fractionChars → ∀ x u, opens (x ++ c :: u) = opens x
  round : ∀ s, opens ('(' :: s) = true

theorem Looks.eq_false (h : Looks opens) (hs : '(' ∉ s) : opens s = false :=
  Bool.eq_false_iff.2 fun ho => hs (h.mem ho)

theorem looks_isOpening : Looks isOpening where
  mem {x} h := List.mem_of_mem_head? (of_decide_eq_true h)
  append {x} h y := by
    cases x with
    | nil => cases h
    | cons c x => exact h
  stops {c} hc x u := by
    cases x with
    | nil =>
        have hne : c ≠ '(' := fun h => hc (by simp [h])
        simp [isOpening, hne]
    | cons d x => rfl
  round s := rfl

theorem looks_isLooseOpening : Looks isLooseOpening where
  mem {x} h := (List.dropWhile_suffix _).subset (List.mem_of_mem_head? (of_decide_eq_true h))
  append {x} h y := by
    induction x with
    | nil => cases h
    | cons c x ih =>
        by_cases hc : fractionChars.contains c = true
        · rw [isLooseOpening, List.dropWhile_cons_of_pos hc] at h
          rw [isLooseOpening, List.cons_append, List.dropWhile_cons_of_pos hc]
          exact ih h
        · rw [isLooseOpening, List.dropWhile_cons_of_neg hc] at h
          rw [isLooseOpening, List.cons_append, List.dropWhile_cons_of_neg hc]
          exact h
  stops {c} hc x u := by
    induction x with
    | nil =>
        have hne : c ≠ '(' := fun h => hc (by simp [h])
        have hmem : ¬ fractionChars.contains c = true := fun h =>
          hc (List.mem_cons_of_mem _ (List.contains_iff_mem.1 h))
        rw [List.nil_append, isLooseOpening, List.dropWhile_cons_of_neg hmem]
        simp [isLooseOpening, hne]
    | cons d x ih =>
        by_cases hd : fractionChars.contains d = true
        · rw [isLooseOpening, List.cons_append, List.dropWhile_cons_of_pos hd, isLooseOpening,
            List.dropWhile_cons_of_pos hd]
          exact ih
        · rw [isLooseOpening, List.cons_append, List.dropWhile_cons_of_neg hd, isLooseOpening,
            List.dropWhile_cons_of_neg hd]
          rfl
  round s := rfl

/-! ## Texts that are put together -/

/-- No name goes on from the first text to the second. -/
def Parts (t u : Text) : Prop :=
  (∀ c ∈ t.getLast?, isWordChar c = false) ∨ ∀ c ∈ u.head?, c.isLower = false

theorem parts_cons (hc : c.isLower = false) (t u : Text) : Parts t (c :: u) :=
  .inr fun x hx => by obtain rfl := Option.some.inj hx; exact hc

theorem Parts.of_suffix (h : Parts t u) (hs : s <:+ t) : Parts s u := by
  rcases h with h | h
  · refine .inl fun c hc => h c ?_
    obtain ⟨x, rfl⟩ := hs
    rw [List.getLast?_append, Option.mem_def.1 hc]
    rfl
  · exact .inr h

/-- A run that has been read is empty in front of a text where no name goes on, or that text begins
with no lower case letter. -/
theorem Parts.run_cases (h : Parts w u) (hw : ∀ c ∈ w, isWordChar c = true) :
    w = [] ∨ ∀ c ∈ u.head?, c.isLower = false := by
  refine h.imp_left fun h => ?_
  cases hlast : w.getLast? with
  | none => exact List.getLast?_eq_none_iff.1 hlast
  | some c =>
      have := hw c (List.mem_of_getLast? hlast)
      rw [h c hlast] at this
      cases this

theorem ite_sublist {a b : Bool} (h : a = true → b = true) (l : List KnownFunction) :
    (if a then l else []).Sublist (if b then l else []) := by
  cases a with
  | true =>
      obtain rfl := h rfl
      exact List.Sublist.refl _
  | false => exact List.nil_sublist _

/-- What is called in the two parts of a text is called in the whole. -/
theorem append_sublist (ho : Looks opens) (hw : ∀ c ∈ w, isWordChar c = true)
    (h : Parts (w ++ t) u) :
    (calledAfter opens w t ++ calledAfter opens [] u).Sublist (calledAfter opens w (t ++ u)) := by
  induction t generalizing w with
  | nil =>
      rw [List.append_nil] at h
      rw [calledAfter_nil, List.nil_append, List.nil_append]
      rcases h.run_cases hw with rfl | h
      · exact List.Sublist.refl _
      · cases u with
        | nil => exact List.Sublist.refl _
        | cons c u =>
            cases hc : isWordChar c with
            | true => exact (calledAfter_word_eq hc (h c rfl) w u) ▸ List.Sublist.refl _
            | false =>
                rw [calledAfter_other hc w, calledAfter_separator hc]
                exact List.sublist_append_right _ _
  | cons c t ih =>
      cases hc : isWordChar c with
      | true =>
          rw [List.cons_append, calledAfter_word hc, calledAfter_word hc]
          exact ih (List.forall_mem_append.2 ⟨hw, by simpa using hc⟩) (by simpa using h)
      | false =>
          have hrest := ih (w := []) (by simp)
            (h.of_suffix ((List.suffix_cons c t).trans (List.suffix_append w _)))
          rw [List.cons_append, calledAfter_other hc, calledAfter_other hc, List.append_assoc]
          exact (ite_sublist (fun hopen => ho.append hopen u) _).append hrest

/-- Behind a character that stops the search the text is scanned on its own. -/
theorem calledAfter_append (hnil : opens [] = false) (hc : isWordChar c = false)
    (hstops : ∀ x, opens (x ++ c :: u) = opens x) (w t : Text) :
    calledAfter opens w (t ++ c :: u) = calledAfter opens w t ++ calledAfter opens [] u := by
  induction t generalizing w with
  | nil =>
      have hclosed : opens (c :: u) = false := (hstops []).trans hnil
      rw [List.nil_append, calledAfter_other hc, hclosed, calledAfter_nil]
      rfl
  | cons d t ih =>
      cases hd : isWordChar d with
      | true => rw [List.cons_append, calledAfter_word hd, calledAfter_word hd, ih]
      | false =>
          have hsame : opens (d :: (t ++ c :: u)) = opens (d :: t) := hstops (d :: t)
          rw [List.cons_append, calledAfter_other hd, calledAfter_other hd, ih, hsame,
            List.append_assoc]

/-- What is called in front of `u` is called in front of `v`, when `v` begins with no word
character, opens where `u` does and calls what `u` calls. -/
theorem append_mono (hw : ∀ c ∈ w, isWordChar c = true) (h : Parts (w ++ t) u)
    (hv : ∃ c r, v = c :: r ∧ isWordChar c = false)
    (hopens : ∀ x, opens (x ++ u) = true → opens (x ++ v) = true)
    (hcalls : (calledAfter opens [] u).Sublist (calledAfter opens [] v)) :
    (calledAfter opens w (t ++ u)).Sublist (calledAfter opens w (t ++ v)) := by
  induction t generalizing w with
  | nil =>
      rw [List.append_nil] at h
      rw [List.nil_append, List.nil_append]
      rcases h.run_cases hw with rfl | h
      · exact hcalls
      · obtain ⟨d, r, rfl, hd⟩ := hv
        rw [calledAfter_other hd w, ← calledAfter_separator hd]
        cases u with
        | nil =>
            rw [calledAfter_nil]
            exact List.nil_sublist _
        | cons c u =>
            cases hc : isWordChar c with
            | true =>
                rw [calledAfter_word_eq hc (h c rfl) w]
                exact hcalls.trans (List.sublist_append_right _ _)
            | false =>
                rw [calledAfter_other hc w, ← calledAfter_separator hc]
                exact (ite_sublist (hopens []) _).append hcalls
  | cons c t ih =>
      cases hc : isWordChar c with
      | true =>
          rw [List.cons_append, List.cons_append, calledAfter_word hc, calledAfter_word hc]
          exact ih (List.forall_mem_append.2 ⟨hw, by simpa using hc⟩) (by simpa using h)
      | false =>
          have hrest := ih (w := []) (by simp)
            (h.of_suffix ((List.suffix_cons c t).trans (List.suffix_append w _)))
          rw [List.cons_append, List.cons_append, calledAfter_other hc, calledAfter_other hc]
          exact (ite_sublist (hopens (c :: t)) _).append hrest

/-! ## Rewritings -/

theorem isLooseOpening_cons (c : Char) (s : Text) : isLooseOpening (c :: s) =
    if c ∈ fractionChars then isLooseOpening s else decide (c = '(') := by
  by_cases hc : c ∈ fractionChars
  · rw [if_pos hc, isLooseOpening, List.dropWhile_cons_of_pos (List.contains_iff_mem.2 hc)]
    rfl
  · rw [if_neg hc, isLooseOpening,
      List.dropWhile_cons_of_neg fun h => hc (List.contains_iff_mem.1 h)]
    simp

/-- Behind the word run `w`, the text may be written anew: no call appears. -/
structure Fewer (w s s' : Text) : Prop where
  opening : isOpening s' = true → isOpening s = true
  calls : (calledAfter isOpening w s').Sublist (calledAfter isOpening w s)

/-- Behind the word run `w`, the text may be written anew: no call appears, and none is lost for a
reader who passes over the markup of fractions. -/
structure Keeps (w s s' : Text) : Prop extends Fewer w s s' where
  looseOpening : isLooseOpening s = true → isLooseOpening s' = true
  looseCalls : (calledAfter isLooseOpening w s).Sublist (calledAfter isLooseOpening w s')

theorem Fewer.refl (w s : Text) : Fewer w s s := ⟨id, List.Sublist.refl _⟩

theorem Fewer.trans (h : Fewer w s t) (h' : Fewer w t u) : Fewer w s u :=
  ⟨fun ho => h.opening (h'.opening ho), h'.calls.trans h.calls⟩

theorem Keeps.refl (w s : Text) : Keeps w s s := ⟨.refl w s, id, List.Sublist.refl _⟩

theorem Keeps.trans (h : Keeps w s t) (h' : Keeps w t u) : Keeps w s u :=
  ⟨h.toFewer.trans h'.toFewer, fun ho => h'.looseOpening (h.looseOpening ho),
    h.looseCalls.trans h'.looseCalls⟩

/-- What stands behind the text opens no more than what is there now. -/
theorem isLooseOpening_append_mono (h : isLooseOpening u = true → isLooseOpening v = true)
    (t : Text) : isLooseOpening (t ++ u) = true → isLooseOpening (t ++ v) = true := by
  induction t with
  | nil => exact h
  | cons c t ih =>
      rw [List.cons_append, List.cons_append, isLooseOpening_cons, isLooseOpening_cons]
      split
      · exact ih
      · exact id

/-- What has been read of a run does not matter where the run ends in both texts. -/
theorem Fewer.of_separator {a b : Char} {s s' : Text} (ha : isWordChar a = false)
    (hb : isWordChar b = false) (h : Fewer [] (a :: s) (b :: s')) (w : Text) :
    Fewer w (a :: s) (b :: s') := by
  have hcalls := h.calls
  rw [calledAfter_separator ha, calledAfter_separator hb] at hcalls
  refine ⟨h.opening, ?_⟩
  rw [calledAfter_other ha, calledAfter_other hb]
  exact (ite_sublist h.opening _).append hcalls

theorem Keeps.of_separator {a b : Char} {s s' : Text} (ha : isWordChar a = false)
    (hb : isWordChar b = false) (h : Keeps [] (a :: s) (b :: s')) (w : Text) :
    Keeps w (a :: s) (b :: s') := by
  have hloose := h.looseCalls
  rw [calledAfter_separator ha, calledAfter_separator hb] at hloose
  refine ⟨h.toFewer.of_separator ha hb w, h.looseOpening, ?_⟩
  rw [calledAfter_other ha, calledAfter_other hb]
  exact (ite_sublist h.looseOpening _).append hloose

theorem Fewer.cons {s s' : Text} (h : Fewer (if isWordChar c then w ++ [c] else []) s s') :
    Fewer w (c :: s) (c :: s') := by
  refine ⟨id, ?_⟩
  cases hc : isWordChar c with
  | true =>
      rw [calledAfter_word hc, calledAfter_word hc]
      simpa [hc] using h.calls
  | false =>
      rw [calledAfter_other hc, calledAfter_other hc]
      exact (List.Sublist.refl _).append (by simpa [hc] using h.calls)

theorem Keeps.cons {s s' : Text} (h : Keeps (if isWordChar c then w ++ [c] else []) s s') :
    Keeps w (c :: s) (c :: s') := by
  have hloose : isLooseOpening (c :: s) = true → isLooseOpening (c :: s') = true := by
    rw [isLooseOpening_cons, isLooseOpening_cons]
    split
    · exact h.looseOpening
    · exact id
  refine ⟨h.toFewer.cons, hloose, ?_⟩
  cases hc : isWordChar c with
  | true =>
      rw [calledAfter_word hc, calledAfter_word hc]
      simpa [hc] using h.looseCalls
  | false =>
      rw [calledAfter_other hc, calledAfter_other hc]
      exact (ite_sublist hloose _).append (by simpa [hc] using h.looseCalls)

/-- A relation between what stands behind a word run and what is written for it goes on to the left
of single characters. -/
structure GoesOn (K : Text → Text → Text → Prop) : Prop where
  refl : ∀ w s, K w s s
  cons : ∀ {c w s s'}, K (if isWordChar c then w ++ [c] else []) s s' → K w (c :: s) (c :: s')

/-- The piece may be written anew in front of `r`, whatever `r` becomes. Behind the character
`before` stands no word run, or one that ends with it. -/
def KeptAt (K : Text → Text → Text → Prop) (before : Option Char) (w w' r : Text) : Prop :=
  ∀ run r', (∀ c ∈ run, isWordChar c = true) → (∀ c ∈ run.getLast?, c ∈ before) →
    K [] r r' → K run (w ++ r) (w' ++ r')

theorem GoesOn.of_traces {K : Text → Text → Text → Prop} (hK : GoesOn K) {before : Option Char}
    {s s' : Text} (h : Traces (KeptAt K) before s s') :
    ∀ run, (∀ c ∈ run, isWordChar c = true) → (∀ c ∈ run.getLast?, c ∈ before) →
      K run s s' := by
  induction h with
  | nil before => exact fun run _ _ => hK.refl run []
  | site h hr ih => exact fun run hrun hlast => h run _ hrun hlast (ih [] (by simp) (by simp))
  | keep c hr ih =>
      intro run hrun _
      refine hK.cons ?_
      cases hc : isWordChar c with
      | true =>
          exact ih (run ++ [c]) (List.forall_mem_append.2 ⟨hrun, by simpa using hc⟩) (by simp)
      | false => exact ih [] (by simp) (by simp)

theorem goesOn_fewer : GoesOn Fewer := ⟨Fewer.refl, Fewer.cons⟩

theorem goesOn_keeps : GoesOn Keeps := ⟨Keeps.refl, Keeps.cons⟩

end CalcTypeset.Called
