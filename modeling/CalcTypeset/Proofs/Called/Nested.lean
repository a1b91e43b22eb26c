import CalcTypeset.Proofs.Called.Kept
import CalcTypeset.Proofs.CallRule
import CalcTypeset.Proofs.Sum.Locality

/-!
# Calls inside calls of the same function

The scan that typesets the calls of a function goes on behind what it has written. What it has
written holds the argument of the call as it was typed, so a call of the same function in there is
never looked at. The scans for the other functions neither make nor hide a call of the function,
and they bring none into a call of it or out of one.

So the calls of a function that are left in the LaTeX line are those that stood inside another call
of it when the scans began. The line is read from left to right with a place as the state: which
word run ends there, and how deep it is in a call of the function.
-/

namespace CalcTypeset.Called

open Text CalcTypeset.Bracket

/-- The functions whose name is not written again when a call is typeset. -/
def replaced : List KnownFunction := [.asin, .acos, .atan, .log, .ln, .sqrt, .exp]

/-- A place in a line: the word run that ends there, and the number of parentheses that are open
since the outermost call of a function was opened, which is zero outside of its calls. -/
structure Place where
  run : Text
  depth : Nat

namespace Place

/-- The word run that ends behind the next character. -/
def nextRun (w : Text) (c : Char) : Text := if isWordChar c then w ++ [c] else []

/-- The place behind the next character. -/
def next (f : KnownFunction) (p : Place) (c : Char) : Place where
  run := nextRun p.run c
  depth :=
    if c = '(' then if p.run = f.name ∨ 0 < p.depth then p.depth + 1 else 0
    else if c = ')' then p.depth - 1
    else p.depth

/-- The place behind a text. -/
def after (f : KnownFunction) (p : Place) (s : Text) : Place := s.foldl (next f) p

/-- For each call of the function that is opened behind the place, from left to right, whether it
stands inside another one. -/
def inside (f : KnownFunction) : Place → Text → List Bool
  | _, [] => []
  | p, c :: s =>
      (if c = '(' ∧ p.run = f.name then [decide (0 < p.depth)] else []) ++ inside f (p.next f c) s

variable {f g : KnownFunction} {p : Place} {c : Char} {d e m n : Nat}
variable {a b s t u v w x y : Text}

/-! ## Single characters -/

theorem nextRun_word (hc : isWordChar c = true) (w : Text) : nextRun w c = w ++ [c] := if_pos hc

theorem nextRun_other (hc : isWordChar c = false) (w : Text) : nextRun w c = [] :=
  if_neg (by simp [hc])

theorem next_opening (p : Place) : p.next f '(' =
    ⟨[], if p.run = f.name ∨ 0 < p.depth then p.depth + 1 else 0⟩ := by
  rw [next, nextRun_other isWordChar_opening, if_pos rfl]

theorem next_closing (p : Place) : p.next f ')' = ⟨[], p.depth - 1⟩ := by
  rw [next, nextRun_other isWordChar_closing, if_neg (by decide), if_pos rfl]

theorem next_neutral (h : c ≠ '(' ∧ c ≠ ')') (p : Place) :
    p.next f c = ⟨nextRun p.run c, p.depth⟩ := by
  rw [next, if_neg h.1, if_neg h.2]

theorem ne_round_of_isWordChar (hc : isWordChar c = true) : c ≠ '(' ∧ c ≠ ')' := by
  constructor <;> rintro rfl
  · simp at hc
  · simp at hc

theorem inside_cons (h : c = '(' → p.run ≠ f.name) (s : Text) :
    inside f p (c :: s) = inside f (p.next f c) s := by
  rw [inside, if_neg fun hc => h hc.1 hc.2, List.nil_append]

theorem inside_opening (h : p.run = f.name) (s : Text) : inside f p ('(' :: s) =
    decide (0 < p.depth) :: inside f ⟨[], p.depth + 1⟩ s := by
  rw [inside, if_pos ⟨rfl, h⟩, next_opening, if_pos (.inl h), List.singleton_append]

/-! ## Texts -/

theorem after_append (p : Place) (s t : Text) : after f p (s ++ t) = after f (after f p s) t :=
  List.foldl_append

theorem after_concat (p : Place) (s : Text) (c : Char) :
    after f p (s ++ [c]) = (after f p s).next f c := after_append p s [c]

theorem inside_append (p : Place) (s t : Text) :
    inside f p (s ++ t) = inside f p s ++ inside f (after f p s) t := by
  induction s generalizing p with
  | nil => rfl
  | cons c s ih =>
      rw [List.cons_append, inside, inside, ih, List.append_assoc]
      rfl

/-- Where no parenthesis stands, nothing is called and the depth stays. -/
theorem inside_of_isNeutral (h : Kind.round.IsNeutral v) (p : Place) :
    inside f p v = [] ∧ after f p v = ⟨v.foldl nextRun p.run, p.depth⟩ := by
  induction v generalizing p with
  | nil => exact ⟨rfl, rfl⟩
  | cons c v ih =>
      have hc : c ≠ '(' ∧ c ≠ ')' := h c (by simp)
      have hrest := ih (fun x hx => h x (by simp [hx])) (p.next f c)
      rw [inside_cons fun ho => absurd ho hc.1]
      refine ⟨hrest.1, hrest.2.trans ?_⟩
      rw [next_neutral hc, List.foldl_cons]

theorem isNeutral_run (hv : ∀ c ∈ v, isWordChar c = true) : Kind.round.IsNeutral v :=
  fun c hc => ne_round_of_isWordChar (hv c hc)

theorem foldl_nextRun (hv : ∀ c ∈ v, isWordChar c = true) (w : Text) :
    v.foldl nextRun w = w ++ v := by
  induction v generalizing w with
  | nil => exact (List.append_nil w).symm
  | cons c v ih =>
      rw [List.foldl_cons, nextRun_word (hv c (by simp)), ih fun x hx => hv x (by simp [hx])]
      simp

/-- A word run is passed over. -/
theorem inside_run (hv : ∀ c ∈ v, isWordChar c = true) (d : Nat) (s : Text) :
    inside f ⟨[], d⟩ (v ++ s) = inside f ⟨v, d⟩ s := by
  have hneutral := inside_of_isNeutral (f := f) (isNeutral_run hv) ⟨[], d⟩
  rw [inside_append, hneutral.1, hneutral.2, foldl_nextRun hv]
  rfl

/-- Each flag belongs to a call. -/
theorem length_inside (f : KnownFunction) (p : Place) (s : Text) :
    (inside f p s).length = (calledAfter isOpening p.run s).count f := by
  have hname : ∀ w, (KnownFunction.ofName? w).toList.count f = if w = f.name then 1 else 0 := by
    intro w
    have hself : KnownFunction.ofName? f.name = some f := by cases f <;> decide
    split
    · next hw => rw [hw, hself]; simp
    · next hw =>
        refine List.count_eq_zero.2 fun hmem => hw ?_
        exact (name_of_ofName? (Option.mem_toList.1 hmem)).symm
  induction s generalizing p with
  | nil => rw [calledAfter_nil]; rfl
  | cons c s ih =>
      cases hc : isWordChar c with
      | true =>
          have hround := ne_round_of_isWordChar hc
          rw [calledAfter_word hc, inside_cons fun ho => absurd ho hround.1, ih,
            next_neutral hround, nextRun_word hc]
      | false =>
          rw [calledAfter_other hc, List.count_append, inside, List.length_append, ih,
            show (p.next f c).run = [] from nextRun_other hc p.run]
          congr 1
          by_cases hround : c = '('
          · have hopen : isOpening (c :: s) = true := by simp [isOpening, hround]
            rw [hopen, if_pos rfl, hname]
            by_cases hrun : p.run = f.name <;> simp [hround, hrun]
          · simp [isOpening, hround]

/-! ## Balanced texts -/

/-- Inside a call of the function, all that is called stands inside it. -/
theorem inside_of_pos (h : Kind.round.depthAfter n t = some m) (hd : 0 < d) (w : Text) :
    (after f ⟨w, d + n⟩ t).depth = d + m ∧ ∀ b ∈ inside f ⟨w, d + n⟩ t, b = true := by
  induction t generalizing n w with
  | nil =>
      obtain rfl : n = m := Option.some.inj h
      exact ⟨rfl, by simp [inside]⟩
  | cons c t ih =>
      by_cases ho : c = '('
      · rw [ho, show '(' = Kind.round.opening from rfl, Kind.depthAfter_opening] at h
        have hnext : Place.next f ⟨w, d + n⟩ c = ⟨[], d + (n + 1)⟩ := by
          rw [ho, next_opening, if_pos (.inr (by simp; omega))]
          rfl
        have hrest := ih h []
        rw [← hnext] at hrest
        refine ⟨hrest.1, fun b hb => ?_⟩
        rcases List.mem_append.1 hb with hb | hb
        · split at hb
          · obtain rfl := List.mem_singleton.1 hb
            exact decide_eq_true (by simp; omega)
          · cases hb
        · exact hrest.2 b hb
      · rw [inside_cons fun hc => absurd hc ho]
        by_cases hc : c = ')'
        · cases n with
          | zero => simp [Kind.depthAfter, depthAfter, hc, Kind.opening, Kind.closing] at h
          | succ n =>
              rw [hc, show ')' = Kind.round.closing from rfl, Kind.depthAfter_closing] at h
              have hnext : Place.next f ⟨w, d + (n + 1)⟩ c = ⟨[], d + n⟩ := by
                rw [hc, next_closing]
                rfl
              have hrest := ih h []
              rwa [← hnext] at hrest
        · rw [Kind.depthAfter_neutral_cons ⟨ho, hc⟩] at h
          have hrest := ih h (nextRun w c)
          rwa [← next_neutral (f := f) ⟨ho, hc⟩ ⟨w, d + n⟩] at hrest

/-- A call of the function that is opened in a text is closed where the text comes down again. -/
theorem depth_after_le (h : Kind.round.depthAfter n t = some m) (hp : p.depth ≤ n) :
    (after f p t).depth ≤ m := by
  induction t generalizing n p with
  | nil =>
      obtain rfl : n = m := Option.some.inj h
      exact hp
  | cons c t ih =>
      by_cases ho : c = '('
      · rw [ho, show '(' = Kind.round.opening from rfl, Kind.depthAfter_opening] at h
        refine ih h ?_
        rw [ho, next_opening]
        show ite _ _ _ ≤ n + 1
        split <;> omega
      · by_cases hc : c = ')'
        · cases n with
          | zero => simp [Kind.depthAfter, depthAfter, hc, Kind.opening, Kind.closing] at h
          | succ n =>
              rw [hc, show ')' = Kind.round.closing from rfl, Kind.depthAfter_closing] at h
              refine ih h ?_
              rw [hc, next_closing]
              simp only
              omega
        · rw [Kind.depthAfter_neutral_cons ⟨ho, hc⟩] at h
          exact ih h (by rw [next_neutral ⟨ho, hc⟩]; exact hp)

theorem depth_after_of_isBalanced (ht : IsBalanced '(' ')' t) (p : Place) :
    (after f p t).depth = p.depth := by
  obtain ⟨w, d⟩ := p
  cases d with
  | zero => exact Nat.le_zero.1 (depth_after_le (n := 0) ht (Nat.le_refl 0))
  | succ d => exact (inside_of_pos (n := 0) ht (Nat.succ_pos d) w).1

/-- It does not matter how deep in a call a text stands. -/
theorem inside_congr (ht : IsBalanced '(' ')' t) (h : e = 0 ↔ d = 0) (w : Text) :
    inside f ⟨w, e⟩ t = inside f ⟨w, d⟩ t := by
  have hall : ∀ {d}, 0 < d → inside f ⟨w, d⟩ t =
      List.replicate ((calledAfter isOpening w t).count f) true := fun hd =>
    List.eq_replicate_iff.2 ⟨length_inside f _ t, (inside_of_pos (n := 0) ht hd w).2⟩
  rcases Nat.eq_zero_or_pos d with hd | hd
  · rw [hd, h.2 hd]
  · rw [hall hd, hall (Nat.pos_of_ne_zero fun he => Nat.ne_of_gt hd (h.1 he))]

/-! ## What stands around an argument -/

/-- A text that ends with no word character and holds no parenthesis. -/
def IsGap (w : Text) : Prop :=
  Kind.round.IsNeutral w ∧ w.getLast?.any (fun c => !isWordChar c) = true

instance (w : Text) : Decidable (IsGap w) := inferInstanceAs (Decidable (_ ∧ _))

theorem after_gap (h : IsGap w) (p : Place) : after f p w = ⟨[], p.depth⟩ := by
  rw [(inside_of_isNeutral h.1 p).2]
  have hlast := h.2
  cases hw : w.getLast? with
  | none => rw [hw] at hlast; cases hlast
  | some c =>
      rw [hw, Option.any_some, Bool.not_eq_true'] at hlast
      obtain ⟨v, rfl⟩ := List.getLast?_eq_some_iff.1 hw
      rw [List.foldl_append, List.foldl_cons, List.foldl_nil, nextRun_other hlast]

theorem inside_gap (h : IsGap w) (p : Place) (r : Text) :
    inside f p (w ++ r) = inside f ⟨[], p.depth⟩ r := by
  rw [inside_append, after_gap h, (inside_of_isNeutral h.1 p).1, List.nil_append]

/-- Nothing is called at the two ends, between them the line is in a call of the function when it
is around them, and behind them it is as deep as in front. -/
def Encloses (f : KnownFunction) (a b : Text) : Prop :=
  ∀ d, ∃ e, (e = 0 ↔ d = 0) ∧ inside f ⟨[], d⟩ a = [] ∧ after f ⟨[], d⟩ a = ⟨[], e⟩ ∧
    ∀ w, inside f ⟨w, e⟩ b = [] ∧ after f ⟨w, e⟩ b = ⟨[], d⟩

/-- A balanced argument is read between the ends as it is read alone. -/
theorem Encloses.inside_append (h : Encloses f a b) (ht : IsBalanced '(' ')' t) (d : Nat)
    (r : Text) : inside f ⟨[], d⟩ (a ++ t ++ b ++ r) =
      inside f ⟨[], d⟩ t ++ inside f ⟨[], d⟩ r := by
  obtain ⟨e, he, ha, ha', hb⟩ := h d
  have hplace : ⟨(after f ⟨[], e⟩ t).run, e⟩ = after f ⟨[], e⟩ t :=
    congrArg (Place.mk _) (depth_after_of_isBalanced ht ⟨[], e⟩).symm
  have hb := hb (after f ⟨[], e⟩ t).run
  rw [hplace] at hb
  rw [List.append_assoc, List.append_assoc, Place.inside_append, Place.inside_append,
    Place.inside_append, ha, ha', hb.1, hb.2, inside_congr ht he, List.nil_append,
    List.nil_append]

theorem encloses_gaps (ha : IsGap a) (hb : IsGap b) : Encloses f a b := fun d =>
  ⟨d, .rfl, (inside_of_isNeutral ha.1 _).1, after_gap ha _,
    fun _ => ⟨(inside_of_isNeutral hb.1 _).1, after_gap hb _⟩⟩

/-- Parentheses behind a word run that is not the name of the function. -/
theorem encloses_round (hv : Kind.round.IsNeutral v) (hne : v.foldl nextRun [] ≠ f.name)
    (hy : Kind.round.IsNeutral y) (hb : b = [] ∨ IsGap b) :
    Encloses f (v ++ ['(']) (y ++ ')' :: b) := by
  intro d
  have hfront := inside_of_isNeutral (f := f) hv ⟨[], d⟩
  refine ⟨if 0 < d then d + 1 else 0, by split <;> omega, ?_, ?_, fun w => ?_⟩
  · rw [inside_append, hfront.1, hfront.2, inside_cons fun _ => hne]
    rfl
  · rw [after_concat, hfront.2, next_opening]
    simp only [hne, false_or]
  · have hback := inside_of_isNeutral (f := f) hy ⟨w, if 0 < d then d + 1 else 0⟩
    have hclose : Place.next f ⟨y.foldl nextRun w, if 0 < d then d + 1 else 0⟩ ')' = ⟨[], d⟩ := by
      rw [next_closing, mk.injEq]
      refine ⟨rfl, ?_⟩
      show ite _ _ _ - 1 = d
      split <;> omega
    rw [inside_append, after_append, hback.1, hback.2, inside_cons (by simp), List.nil_append]
    show inside f (Place.next f _ ')') b = [] ∧ after f (Place.next f _ ')') b = _
    rw [hclose]
    rcases hb with rfl | hb
    · exact ⟨rfl, rfl⟩
    · exact ⟨(inside_of_isNeutral hb.1 _).1, after_gap hb _⟩

/-! ## Typesetting the calls -/

/-- A call is typeset between braces, or between parentheses that stand behind no name but that of
the function itself. -/
theorem frames_cases {q : Text × Text} (hq : q ∈ g.frames) : (IsGap q.1 ∧ IsGap q.2) ∨
    ∃ v y b, q = (v ++ ['('], y ++ ')' :: b) ∧ Kind.round.IsNeutral v ∧
      Kind.round.IsNeutral y ∧ (b = [] ∨ IsGap b) ∧
        (v.foldl nextRun [] = g.name ∧ g ∉ replaced ∨
          v.foldl nextRun [] ∈ [[], "left".toList]) := by
  have hsized : ∀ l : Text, l ++ "\\left(".toList = l ++ "\\left".toList ++ ['('] := fun l => by
    rw [List.append_assoc]
    rfl
  cases g <;> simp only [KnownFunction.frames, List.mem_cons, List.not_mem_nil, or_false] at hq
  case sqrt | exp => exact .inl (by subst hq; decide +kernel)
  case dtor => exact .inr ⟨_, [Markup.degree], [], hq, by decide, by decide, .inl rfl,
      .inl (by decide +kernel)⟩
  case rtod => exact .inr ⟨_, [], [Markup.degree], hq, by decide, by decide,
      .inr (by decide +kernel), .inl (by decide +kernel)⟩
  case sin | cos | tan =>
      rcases hq with rfl | rfl
      · exact .inr ⟨_, [], [], rfl, by decide, by decide, .inl rfl, .inl (by decide +kernel)⟩
      · exact .inr ⟨_, [Markup.degree], [], rfl, by decide, by decide, .inl rfl,
          .inl (by decide +kernel)⟩
  case log | ln =>
      rcases hq with rfl | rfl
      · exact .inr ⟨_, [], [], rfl, by decide, by decide, .inl rfl, .inr (by decide +kernel)⟩
      · exact .inr ⟨_, "\\right".toList, [], Prod.ext (hsized _) rfl, by decide, by decide,
          .inl rfl, .inr (by decide +kernel)⟩
  case asin | acos | atan =>
      rcases hq with rfl | rfl
      · exact .inr ⟨_, [], [Markup.degree], rfl, by decide, by decide, .inr (by decide +kernel),
          .inr (by decide +kernel)⟩
      · exact .inr ⟨_, "\\right".toList, [Markup.degree], Prod.ext (hsized _) rfl, by decide,
          by decide, .inr (by decide +kernel), .inr (by decide +kernel)⟩

/-- What is written around the argument of a call hides no other call of the function, and is none
itself unless it brings the name of the function back. -/
theorem encloses_frames (h : g ≠ f ∨ f ∈ replaced) {q : Text × Text} (hq : q ∈ g.frames) :
    Encloses f q.1 q.2 := by
  rcases frames_cases hq with ⟨hfront, hback⟩ | ⟨v, y, b, rfl, hv, hy, hb, hrun⟩
  · exact encloses_gaps hfront hback
  · refine encloses_round hv (fun heq => ?_) hy hb
    rw [heq] at hrun
    rcases hrun with ⟨hname, hg⟩ | hmem
    · obtain rfl : f = g := KnownFunction.name_injective hname
      exact h.elim (fun hne => hne rfl) hg
    · exact absurd hmem (by cases f <;> decide)

/-- A call of another function encloses its argument. -/
theorem encloses_call (h : g ≠ f) : Encloses f (g.name ++ ['(']) [')'] := by
  have hrun := foldl_nextRun g.isWordChar_of_mem_name []
  refine encloses_round (y := []) (b := []) (isNeutral_run g.isWordChar_of_mem_name) ?_
    (by decide) (.inl rfl)
  rw [hrun]
  exact fun heq => h (KnownFunction.name_injective heq)

/-- The word run that has been read does not go on in the text. -/
def RunEnds (w s : Text) : Prop := w = [] ∨ ∀ c ∈ s.head?, isWordChar c = false

theorem RunEnds.eq_nil {r : Text} (h : RunEnds w s) (hv : run? isWordChar s = some (v, r)) :
    w = [] := by
  refine h.resolve_right fun hhead => ?_
  obtain ⟨c, v, rfl⟩ := List.exists_cons_of_ne_nil (run?_ne_nil hv)
  have hc := hhead c (by rw [run?_eq_append hv]; rfl)
  rw [run?_all hv c (by simp)] at hc
  cases hc

/-- Typesetting the calls of another function leaves the calls of the function as deep in each
other as they were. -/
theorem inside_typesetCalls (h : g ≠ f) (hw : RunEnds w s) (d : Nat) :
    inside f ⟨w, d⟩ (g.typesetCalls s) = inside f ⟨w, d⟩ s := by
  rw [KnownFunction.typesetCalls_eq]
  induction s using WordRule.scan_induction (Call.closedCall g.name) generalizing w d with
  | nil => rw [WordRule.replaceAll_nil]
  | read s v r t r' hv hr ih =>
      obtain rfl := hw.eq_nil hv
      rw [WordRule.replaceAll_of_read hv hr, run?_eq_append hv]
      obtain ⟨_, rfl, rfl, rfl, ht⟩ := Call.meets_closedCall g.name v r t r' hr
      obtain ⟨q, hq, hframe⟩ := g.exists_frame t
      have hcall : g.name ++ (Markup.parenthesised t ++ r') =
          g.name ++ ['('] ++ t ++ [')'] ++ r' := by simp [Markup.parenthesised]
      rw [hframe, hcall, (encloses_frames (.inl h) hq).inside_append ht,
        (encloses_call h).inside_append ht, ih (.inl rfl)]
  | pass s v r hv hr ih =>
      obtain rfl := hw.eq_nil hv
      rw [WordRule.replaceAll_of_none hv hr, run?_eq_append hv, inside_run (run?_all hv),
        inside_run (run?_all hv), ih (.inr (run?_head hv))]
  | other c s hc ih =>
      have hnext : Place.next f ⟨w, d⟩ c = ⟨[], (Place.next f ⟨w, d⟩ c).depth⟩ := by
        rw [next, nextRun_other hc]
      rw [WordRule.replaceAll_cons_of_not_isWordChar s hc, inside, inside, hnext, ih (.inl rfl)]

/-- Inside a call of the function all is nested, and the call itself stands outside. -/
theorem inside_call (ht : IsBalanced '(' ')' t) (r : Text) :
    inside f ⟨[], 0⟩ (f.name ++ (Markup.parenthesised t ++ r)) =
      false :: (inside f ⟨[], 1⟩ t ++ inside f ⟨[], 0⟩ r) := by
  have hdepth := depth_after_of_isBalanced (f := f) ht ⟨[], 1⟩
  have hclose : Place.next f (after f ⟨[], 1⟩ t) ')' = ⟨[], 0⟩ := by simp [next_closing, hdepth]
  have hcall : Markup.parenthesised t ++ r = '(' :: (t ++ ')' :: r) := by
    simp [Markup.parenthesised]
  rw [inside_run f.isWordChar_of_mem_name, hcall, inside_opening rfl, inside_append,
    inside_cons (by simp), hclose]
  rfl

/-- Typesetting its own calls leaves those of a function that stand inside another one, when each
call is closed. -/
theorem length_inside_typesetCalls (hf : f ∈ replaced) (hw : RunEnds w s)
    (hname : w = f.name → s.head? ≠ some '(')
    (hs : ∀ x, '(' :: x <:+ s → (closing? 0 x).isSome) :
    (inside f ⟨w, 0⟩ (f.typesetCalls s)).length = (inside f ⟨w, 0⟩ s).count true := by
  rw [KnownFunction.typesetCalls_eq]
  induction s using WordRule.scan_induction (Call.closedCall f.name) generalizing w with
  | nil => rw [WordRule.replaceAll_nil]; rfl
  | read s v r t r' hv hr ih =>
      obtain rfl := hw.eq_nil hv
      rw [WordRule.replaceAll_of_read hv hr]
      rw [run?_eq_append hv] at hs ⊢
      obtain ⟨_, rfl, rfl, rfl, ht⟩ := Call.meets_closedCall f.name v r t r' hr
      obtain ⟨q, hq, hframe⟩ := f.exists_frame t
      have hall : (inside f ⟨[], 1⟩ t).count true = (inside f ⟨[], 0⟩ t).length := by
        have hinside := (inside_of_pos (f := f) (n := 0) ht Nat.one_pos []).2
        rw [List.count_eq_length.2 fun b hb => (hinside b hb).symm]
        exact (length_inside f _ t).trans (length_inside f ⟨[], 0⟩ t).symm
      rw [hframe, (encloses_frames (.inr hf) hq).inside_append ht, inside_call ht,
        List.length_append, List.count_cons_of_ne (by decide), List.count_append, hall]
      refine congrArg _ (ih (.inl rfl) (fun hnil => absurd hnil.symm f.name_ne_nil) fun x hx => ?_)
      exact hs x (hx.trans ((List.suffix_append _ _).trans (List.suffix_append _ _)))
  | pass s v r hv hr ih =>
      obtain rfl := hw.eq_nil hv
      rw [run?_eq_append hv] at hs
      rw [WordRule.replaceAll_of_none hv hr, run?_eq_append hv, inside_run (run?_all hv),
        inside_run (run?_all hv)]
      refine ih (.inr (run?_head hv)) (fun hvname hround => ?_) fun x hx =>
        hs x (hx.trans (List.suffix_append v r))
      -- The call would have been read, since its parenthesis is closed.
      obtain ⟨x, rfl⟩ := List.head?_eq_some_iff.1 hround
      have hclosed := hs x (List.suffix_append v _)
      have hnone : closing? 0 x = none := by rwa [Call.closedCall, if_pos hvname] at hr
      rw [hnone] at hclosed
      cases hclosed
  | other c s hc ih =>
      have hopen : c = '(' → w ≠ f.name := fun ho heq => hname heq (by rw [ho]; rfl)
      have hnext : Place.next f ⟨w, 0⟩ c = ⟨[], 0⟩ := by
        rw [next, nextRun_other hc, mk.injEq]
        refine ⟨rfl, ?_⟩
        by_cases ho : c = '('
        · simp [ho, hopen ho]
        · simp [ho]
      rw [WordRule.replaceAll_cons_of_not_isWordChar s hc, inside_cons hopen, inside_cons hopen,
        hnext]
      exact ih (.inl rfl) (fun hnil => absurd hnil.symm f.name_ne_nil) fun x hx =>
        hs x (hx.trans (List.suffix_cons c s))

theorem inside_foldl {gs : List KnownFunction} (hgs : f ∉ gs) (s : Text) :
    inside f ⟨[], 0⟩ (gs.foldl (fun s g => g.typesetCalls s) s) = inside f ⟨[], 0⟩ s :=
  List.foldlRecOn (motive := fun t => inside f ⟨[], 0⟩ t = inside f ⟨[], 0⟩ s) gs _ rfl
    fun _ ht _ hg => (inside_typesetCalls (ne_of_mem_of_not_mem hg hgs) (.inl rfl) 0).trans ht

/-- What is left of a function when all calls are typeset stood inside a call of it. -/
theorem length_inside_typesetEach (hf : f ∈ replaced) (hs : IsBalanced '(' ')' s) :
    (inside f ⟨[], 0⟩ (KnownFunction.typesetEach s)).length =
      (inside f ⟨[], 0⟩ s).count true := by
  obtain ⟨gs, gs', horder, hgs, hgs'⟩ : ∃ gs gs', KnownFunction.typesetOrder = gs ++ f :: gs' ∧
      f ∉ gs ∧ f ∉ gs' := by
    obtain ⟨gs, gs', horder⟩ := List.append_of_mem f.mem_typesetOrder
    have hnodup : KnownFunction.typesetOrder.Nodup := by decide
    rw [horder, List.nodup_append, List.nodup_cons] at hnodup
    exact ⟨gs, gs', horder, fun hmem => hnodup.2.2 f hmem f (by simp) rfl, hnodup.2.1.1⟩
  have hbalanced : IsBalanced '(' ')' (gs.foldl (fun s g => g.typesetCalls s) s) :=
    (KnownFunction.keeps_foldl (k := .round) gs s).isBalanced hs
  rw [KnownFunction.typesetEach, horder, List.foldl_append, List.foldl_cons, inside_foldl hgs',
    length_inside_typesetCalls hf (.inl rfl) (fun hnil => absurd hnil.symm f.name_ne_nil)
      fun x hx => closing?_isSome_of_suffix hbalanced hx, inside_foldl hgs]

/-! ## Operators and gaps -/

/-- A pass that writes gaps for gaps leaves all calls as deep as they were. -/
theorem inside_replaceAll {α : Type} {r : Recogniser α} {render : α → Text}
    {P : Text → α → Text → Prop} (hr : r.Meets P)
    (hP : ∀ w z t, P w z t → IsGap w ∧ IsGap (render z)) (p : Place) (s : Text) :
    inside f p (r.replaceAll render s) = inside f p s := by
  induction s using Recogniser.scan_induction r generalizing p with
  | nil => rw [Recogniser.replaceAll_nil]
  | read s z t hread ih =>
      obtain ⟨w, rfl, hw⟩ := hr s z t hread
      have hgaps := hP w z t hw
      rw [r.replaceAll_of_read render hread, inside_gap hgaps.1, inside_gap hgaps.2, ih]
  | pass c s hread ih => rw [r.replaceAll_of_none render hread, inside, inside, ih]

theorem isGap_of_forall (hne : w ≠ [])
    (hw : ∀ c ∈ w, (c ≠ '(' ∧ c ≠ ')') ∧ isWordChar c = false) : IsGap w := by
  refine ⟨fun c hc => (hw c hc).1, ?_⟩
  rw [List.getLast?_eq_some_getLast hne, Option.any_some, (hw _ (List.getLast_mem hne)).2]
  rfl

theorem gap_of_isBlank (hc : isBlank c = true) : (c ≠ '(' ∧ c ≠ ')') ∧ isWordChar c = false :=
  ⟨isNeutral_of_isBlank (k := .round) (b := [c]) (by simpa using hc) c (by simp),
    Fraction.isWordChar_of_isBlank hc⟩

theorem inside_infixSign {sign : Char} (hsign : (sign ≠ '(' ∧ sign ≠ ')') ∧ isWordChar sign = false)
    (ht : IsGap t) (p : Place) (s : Text) :
    inside f p ((Operator.infixSign sign).replaceAll (fun _ => t) s) = inside f p s := by
  refine inside_replaceAll (Operator.meets_infixSign sign) ?_ p s
  rintro w _ _ ⟨b, b', rfl, hb, hb'⟩
  refine ⟨isGap_of_forall (by simp) fun c hc => ?_, ht⟩
  rcases List.mem_append.1 hc with hc | hc
  · exact gap_of_isBlank (hb c hc)
  · rcases List.mem_cons.1 hc with rfl | hc
    · exact hsign
    · exact gap_of_isBlank (hb' c hc)

theorem inside_mergeDegrees (p : Place) (s : Text) :
    inside f p (Operator.mergeDegrees s) = inside f p s := by
  refine inside_replaceAll ((Recogniser.meets_run fun c => c = Markup.degree).filter _) ?_ p s
  rintro w _ _ ⟨⟨rfl, hne, hw, -⟩, -⟩
  have hmark : (Markup.degree ≠ '(' ∧ Markup.degree ≠ ')') ∧
      isWordChar Markup.degree = false := ⟨by decide, Markup.isWordChar_degree⟩
  refine ⟨isGap_of_forall hne fun c hc => ?_, isGap_of_forall (by simp) (by simpa using hmark)⟩
  rw [of_decide_eq_true (hw c hc)]
  exact hmark

theorem inside_blank (hc : isBlank c = true) (p : Place) (s : Text) :
    inside f p (c :: s) = inside f ⟨[], p.depth⟩ s :=
  inside_gap (isGap_of_forall (w := [c]) (by simp) (by simpa using gap_of_isBlank hc)) p s

theorem inside_squeezeAfter (p : Place) (s : Text) :
    inside f p (squeezeAfter false s) = inside f p s ∧
      inside f p (squeezeAfter true s) = inside f ⟨[], p.depth⟩ s := by
  induction s generalizing p with
  | nil => exact ⟨rfl, rfl⟩
  | cons c s ih =>
      cases hc : isBlank c with
      | true =>
          have hgap : ∀ gap, squeezeAfter gap (c :: s) = squeezeAfter true s := fun gap => by
            rw [squeezeAfter, if_pos hc]
          rw [hgap, hgap, inside_blank hc, inside_blank hc, (ih p).2]
          exact ⟨rfl, rfl⟩
      | false =>
          have hsolid : squeezeAfter false (c :: s) = c :: squeezeAfter false s := by
            simp [squeezeAfter, hc]
          have hcons : ∀ p, inside f p (c :: squeezeAfter false s) = inside f p (c :: s) :=
            fun p => by rw [inside, inside, (ih _).1]
          rw [squeezeAfter_true_eq hc, hsolid]
          exact ⟨hcons p, (inside_blank (by decide) p _).trans (hcons _)⟩

theorem inside_squeeze (d : Nat) (s : Text) :
    inside f ⟨[], d⟩ (squeeze s) = inside f ⟨[], d⟩ s := by
  have hskip : inside f ⟨[], d⟩ (skipBlanks s) = inside f ⟨[], d⟩ s := by
    induction s with
    | nil => rfl
    | cons c s ih =>
        cases hc : isBlank c with
        | true => rw [skipBlanks_cons_of_isBlank s hc, ih, inside_blank hc]
        | false => rw [skipBlanks_cons_of_not_isBlank s hc]
  exact (inside_squeezeAfter ⟨[], d⟩ (skipBlanks s)).1.trans hskip

theorem inside_finish (d : Nat) (s : Text) :
    inside f ⟨[], d⟩ (Operator.finish s) = inside f ⟨[], d⟩ s := by
  rw [Operator.finish, inside_squeeze, inside_mergeDegrees, Operator.writeRemainders,
    inside_infixSign (by decide +kernel) (by decide +kernel)]

end Place

/-! ## The conversion -/

/-- How many calls of a function stand inside another call of it. -/
def nested (f : KnownFunction) (s : Text) : Nat := (Place.inside f ⟨[], 0⟩ s).count true

/-- The line as it is when the scans for the calls begin: the gaps are squeezed, constants and
operators are replaced, and the divisions are written as fractions. -/
def divided (s : Text) : Text :=
  Fraction.rewrite .typeset (Operator.prepare (KnownConstant.replaceEach (squeeze s)))

theorem count_calls (f : KnownFunction) (s : Text) :
    (calls s).count f = (Place.inside f ⟨[], 0⟩ s).length :=
  (Place.length_inside f ⟨[], 0⟩ s).symm

variable {f : KnownFunction} {s : Text}

/-- Without divisions, exponents and constants, the scans for the calls find the calls that were
typed. -/
theorem nested_divided (hslash : '/' ∉ s) (hpower : '^' ∉ s)
    (hconstants : ∀ k : KnownConstant, k.call.occurs s = false) :
    nested f (divided s) = nested f s := by
  have hprepared : '/' ∉ Operator.writeProducts (squeeze s) := fun hmem => by
    rcases Operator.mem_writeProducts hmem with hmem | hmem
    · exact (mem_squeeze hmem).elim (by decide) hslash
    · exact absurd hmem (by decide)
  have hsqueezed : '^' ∉ squeeze s := fun hmem => (mem_squeeze hmem).elim (by decide) hpower
  rw [divided, replaceEach_squeeze hconstants, Operator.prepare,
    Operator.bracePowers_eq_self hsqueezed, Fraction.rewrite_eq_self .typeset hprepared, nested,
    Operator.writeProducts, Place.inside_infixSign (by decide +kernel) (by decide +kernel),
    Place.inside_squeeze, nested]

/-- Of the calls of a function, those are left in the LaTeX line that stood inside another call of
it when the divisions were written. -/
theorem count_calls_convert (hf : f ∈ replaced) (hs : IsBalanced '(' ')' s) :
    (calls (Conversion.convert .typeset s)).count f = nested f (divided s) := by
  have hdivided : IsBalanced '(' ')' (divided s) :=
    (Stage.keeps_foldl (k := .round) .typeset [.squeezing, .constants, .preparation, .fractions]
      s).isBalanced hs
  have hstages : (calls (Operator.finish (KnownFunction.typesetEach (divided s)))).count f =
      nested f (divided s) := by
    rw [count_calls, Place.inside_finish, Place.length_inside_typesetEach hf hdivided, nested]
  rw [← hstages, Conversion.convert]
  split
  · next hblank =>
      have hsqueezed : squeeze s = [] := by
        rw [squeeze, skipBlanks_eq_nil (by rw [isVisible_iff, hblank]; decide)]
        rfl
      have hnil : Operator.prepare [] = [] := by
        simp [Operator.prepare, Operator.bracePowers, Operator.writeProducts]
      rw [divided, hsqueezed, KnownConstant.replaceEach_eq_self (by simp), hnil,
        Fraction.rewrite_eq_self .typeset (by simp), KnownFunction.typesetEach_eq_self (by simp)]
      simp [Operator.finish, Operator.mergeDegrees, Operator.writeRemainders, squeeze, skipBlanks,
        squeezeAfter]
  · rfl

/-- Two roots stand inside a root, one of them in another call, and the logarithm stands in none of
its own. -/
theorem count_calls_convert_roots :
    IsBalanced '(' ')' "sqrt(sqrt(4) + ln(sqrt(9)/2)) + ln(3)".toList ∧
      (calls (Conversion.convert .typeset
        "sqrt(sqrt(4) + ln(sqrt(9)/2)) + ln(3)".toList)).count .sqrt = 2 ∧
      (calls (Conversion.convert .typeset
        "sqrt(sqrt(4) + ln(sqrt(9)/2)) + ln(3)".toList)).count .ln = 0 := by
  have hs : IsBalanced '(' ')' "sqrt(sqrt(4) + ln(sqrt(9)/2)) + ln(3)".toList := by decide
  refine ⟨hs, (count_calls_convert (by decide) hs).trans ?_,
    (count_calls_convert (by decide) hs).trans ?_⟩ <;> decide +kernel

/-- A root inside a root is not typeset. -/
theorem exists_mem_calls_convert :
    ¬ ∀ (s : Text) (f : KnownFunction), IsBalanced '(' ')' s → '\\' ∉ s →
      f ∈ [.asin, .acos, .atan, .ln, .sqrt, .exp] → f ∉ calls (Conversion.convert .typeset s) :=
  fun h => h "sqrt(sqrt(4))".toList .sqrt (by decide) (by decide) (by decide) (by decide +kernel)

end CalcTypeset.Called
