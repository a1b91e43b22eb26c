import CalcTypeset.Proofs.Balance
import CalcTypeset.Proofs.Reference.Kept

/-!
# Where the sites of a scan begin

A pass that may put a brace anywhere could tear what it has to keep: a command, or a name from its
parenthesis. It does not, because a scan begins a site as far left as it can. Had the character in
front of a term belonged to the term, the site would have begun with it; and a call begins with its
whole name.

`Traces` is a rewriting that remembers, for each site, the character that was passed in front of it.
The scans of all passes are such rewritings, and `BeginsAt` says what the passes over the divisions
tell of that character.
-/

namespace CalcTypeset

open Text

/-- A text and a rewriting of it. A piece is replaced as `S` allows, which is told the character
passed in front of the piece and the text behind it; there is no such character at the beginning
and directly behind a piece. -/
inductive Text.Traces (S : Option Char → Text → Text → Text → Prop) :
    Option Char → Text → Text → Prop where
  | nil (before : Option Char) : Traces S before [] []
  | site {before : Option Char} {w w' r r' : Text} (h : S before w w' r)
      (hr : Traces S none r r') : Traces S before (w ++ r) (w' ++ r')
  | keep {before : Option Char} (c : Char) {r r' : Text} (hr : Traces S (some c) r r') :
      Traces S before (c :: r) (c :: r')

namespace Text.Traces

variable {S S' : Option Char → Text → Text → Text → Prop} {before : Option Char}

theorem mono (hS : ∀ b w w' r, S b w w' r → S' b w w' r) {s s' : Text}
    (h : Traces S before s s') : Traces S' before s s' := by
  induction h with
  | nil before => exact .nil before
  | site h hr ih => exact .site (hS _ _ _ _ h) ih
  | keep c hr ih => exact .keep c ih

theorem keepAll (w : Text) {r r' : Text} (h : Traces S (w.getLast?.or before) r r') :
    Traces S before (w ++ r) (w ++ r') := by
  induction w generalizing before with
  | nil => exact h
  | cons c w ih =>
      refine .keep c (ih ?_)
      rw [List.getLast?_cons] at h
      cases hw : w.getLast? <;> simpa [hw] using h

end Text.Traces

/-! ## The scans -/

namespace Recogniser

variable {α : Type} {p : Recogniser α} {render : α → Text}

/-- A recogniser keeps two contracts at once. -/
theorem Meets.and {P Q : Text → α → Text → Prop} (hP : p.Meets P) (hQ : p.Meets Q) :
    p.Meets fun w a r => P w a r ∧ Q w a r := by
  intro s a r hs
  obtain ⟨w, rfl, hw⟩ := hP s a r hs
  obtain ⟨w', hw', hq⟩ := hQ _ a r hs
  obtain rfl := List.append_cancel_right hw'
  exact ⟨w, rfl, hw, hq⟩

/-- What a scan tells of a site: the character in front of it, which the scan has passed, is as
`A` says, and the piece is one that the recogniser takes from the text `s₀`. -/
def SiteOf (s₀ : Text) (P : Text → α → Text → Prop) (render : α → Text) (A : Char → Text → Prop)
    (before : Option Char) (w w' r : Text) : Prop :=
  (∀ c ∈ before, A c (w ++ r)) ∧ before.toList ++ (w ++ r) <:+ s₀ ∧ ∃ a, P w a r ∧ w' = render a

/-- A scan rewrites at sites that begin as far left as they can. -/
theorem traces_replaceAll {P : Text → α → Text → Prop} {A : Char → Text → Prop} (hp : p.Meets P)
    (hA : ∀ c s x, p.read? (c :: s) = none → p.read? s = some x → A c s) (s : Text) :
    Text.Traces (SiteOf s P render A) none s (p.replaceAll render s) := by
  have hscan : ∀ s before, (∀ c ∈ before, p.read? (c :: s) = none) → ∀ s₀,
      before.toList ++ s <:+ s₀ →
        Text.Traces (SiteOf s₀ P render A) before s (p.replaceAll render s) := by
    intro s
    induction s using scan_induction p with
    | nil => intro before _ s₀ _; rw [replaceAll_nil]; exact .nil before
    | read s a r hs ih =>
        intro before hb s₀ hsuffix
        obtain ⟨w, rfl, hw⟩ := hp s a r hs
        rw [p.replaceAll_of_read render hs]
        refine .site ⟨fun c hc => hA c _ _ (hb c hc) hs, hsuffix, a, hw, rfl⟩ ?_
        refine ih none (by simp) s₀ ?_
        exact (List.suffix_append w r).trans ((List.suffix_append _ _).trans hsuffix)
    | pass c s hs ih =>
        intro before _ s₀ hsuffix
        rw [p.replaceAll_of_none render hs]
        exact .keep c (ih (some c) (by simpa using hs) s₀
          ((List.suffix_append before.toList _).trans hsuffix))
  exact hscan s none (by simp) s (List.suffix_refl s)

end Recogniser

namespace WordRule

variable {α : Type} {f : WordRule α} {render : α → Text}

/-- What a scan tells of a site behind a word run: no word character stands in front of it. -/
def SiteOf (s₀ : Text) (P : Text → Text → α → Text → Prop) (render : α → Text)
    (before : Option Char) (w w' r : Text) : Prop :=
  (∀ c ∈ before, isWordChar c = false) ∧ before.toList ++ (w ++ r) <:+ s₀ ∧
    ∃ n v a, w = n ++ v ∧ n ≠ [] ∧ (∀ c ∈ n, isWordChar c = true) ∧ P n v a r ∧ w' = render a

/-- A scan behind word runs takes whole runs only. -/
theorem traces_replaceAll {P : Text → Text → α → Text → Prop} (hf : ∀ w, (f w).Meets (P w))
    (s : Text) : Text.Traces (SiteOf s P render) none s (f.replaceAll render s) := by
  have hscan : ∀ s before, (∀ c ∈ before, ∀ d ∈ s.head?, isWordChar d = true →
      isWordChar c = false) → ∀ s₀, before.toList ++ s <:+ s₀ →
        Text.Traces (SiteOf s₀ P render) before s (f.replaceAll render s) := by
    intro s
    induction s using scan_induction f with
    | nil => intro before _ s₀ _; rw [replaceAll_nil]; exact .nil before
    | read s n r a r' hn hr ih =>
        intro before hb s₀ hsuffix
        obtain ⟨v, rfl, hv⟩ := hf n r a r' hr
        have hs : s = (n ++ v) ++ r' := by rw [run?_eq_append hn, List.append_assoc]
        obtain ⟨x, n', hx⟩ := List.exists_cons_of_ne_nil (run?_ne_nil hn)
        have hword := run?_all hn
        rw [replaceAll_of_read hn hr, hs]
        refine .site ⟨fun c hc => ?_, hs ▸ hsuffix, n, v, a, rfl, run?_ne_nil hn, hword, hv, rfl⟩ ?_
        · exact hb c hc x (by rw [hs, hx]; rfl) (hword x (by simp [hx]))
        · refine ih none (by simp) s₀ ?_
          rw [hs] at hsuffix
          exact (List.suffix_append _ r').trans ((List.suffix_append _ _).trans hsuffix)
    | pass s n r hn hr ih =>
        intro before _ s₀ hsuffix
        have hs := run?_eq_append hn
        rw [replaceAll_of_none hn hr, hs]
        rw [hs] at hsuffix
        refine .keepAll n (ih _ (fun c _ d hd hword => ?_) s₀ ?_)
        · rw [run?_head hn d hd] at hword
          cases hword
        · rw [List.getLast?_eq_some_getLast (run?_ne_nil hn), Option.some_or]
          refine List.IsSuffix.trans ⟨n.dropLast, ?_⟩ ((List.suffix_append _ _).trans hsuffix)
          rw [Option.toList_some, ← List.append_assoc, List.dropLast_concat_getLast]
    | other c s hc ih =>
        intro before _ s₀ hsuffix
        rw [replaceAll_cons_of_not_isWordChar s hc]
        exact .keep c (ih (some c) (by simpa using fun _ _ _ => hc) s₀
          ((List.suffix_append before.toList _).trans hsuffix))
  exact hscan s none (by simp) s (List.suffix_refl s)

end WordRule

/-! ## The sites of divisions -/

namespace Fraction

/-- What the passes over the divisions tell of the character in front of a site: it is no part of
a term, or the site is a group, or the site is a call and the character is no part of its name. -/
def BeginsAt (c : Char) (s : Text) : Prop :=
  isTermChar c = false ∨ s.head? = some '(' ∨
    isWordChar c = false ∧ ∃ n r, s = n ++ '(' :: r ∧ n ≠ [] ∧ ∀ x ∈ n, isWordChar x = true

/-- In front of what the recogniser reads stands what `BeginsAt` says. -/
def Begins (p : Recogniser Quotient) : Prop :=
  ∀ c s x, p.read? (c :: s) = none → p.read? s = some x → BeginsAt c s

theorem begins_of_extends {p : Recogniser Quotient} (hp : Reference.Extends p) : Begins p := by
  intro c s x hnone hs
  cases hc : isTermChar c with
  | false => exact .inl hc
  | true => rw [hp c s hc hnone] at hs; cases hs

theorem begins_of_head {p : Recogniser Quotient}
    (hp : ∀ c s, c ≠ '(' → p.read? (c :: s) = none) : Begins p := by
  intro c s x _ hs
  cases s with
  | nil => rw [p.read?_nil] at hs; cases hs
  | cons d s =>
      by_cases hd : d = '('
      · exact .inr (.inl (by rw [hd]; rfl))
      · rw [hp d s hd] at hs; cases hs

theorem flatGroup_filter_read?_eq_none (test : Text → Bool) {c : Char} (hc : c ≠ '(') (s : Text) :
    (Call.flatGroup.filter test).read? (c :: s) = none :=
  Recogniser.read?_filter_eq_none (Call.flatGroup_read?_eq_none hc s) test

theorem begins_argumentSites (style : CallStyle) : ∀ p ∈ argumentSites style, Begins p := by
  refine forall_argumentSites.2 ⟨begins_of_extends (extends_overTerm _),
    begins_of_extends extends_division_term,
    begins_of_head fun c s hc => division_read?_eq_none ?_,
    begins_of_extends extends_division_term⟩
  have hgroup : groupContent.read? (c :: s) = none := flatGroup_filter_read?_eq_none _ hc s
  cases style with
  | asTyped => exact Recogniser.read?_map_eq_none hgroup _
  | typeset => exact hgroup

theorem begins_basicSites : ∀ p ∈ basicSites, Begins p := by
  exact forall_basicSites.2
    ⟨begins_of_head fun c s hc => division_read?_eq_none (powerGroup_read?_eq_none hc),
    begins_of_extends (extends_overTerm _), begins_of_extends extends_division_term,
    begins_of_extends extends_division_term⟩

/-- Read with one more character in front, the result has it in front and the rest is the same. -/
def GrowsAt (p : Recogniser Text) (c : Char) (s : Text) : Prop :=
  p.read? (c :: s) = (p.read? s).map fun x => (c :: x.1, x.2)

theorem flatCall_read?_cons {c : Char} (hc : isWordChar c = true) {d : Char} (s : Text)
    (hd : isWordChar d = true) : Call.flatCall.read? (c :: d :: s) =
      (Call.flatCall.read? (d :: s)).map fun x => (⟨c :: x.1.name, x.1.content⟩, x.2) := by
  have hrun : run? isWordChar (c :: d :: s) =
      (run? isWordChar (d :: s)).map fun x => (c :: x.1, x.2) := by simp [run?, hc, hd]
  rw [Call.flatCall, Recogniser.read?_bind, Recogniser.read?_bind, Recogniser.read?_run,
    Recogniser.read?_run, hrun]
  cases run? isWordChar (d :: s) with
  | none => rfl
  | some x =>
      rw [Option.map_some, Option.bind_some, Option.bind_some, Recogniser.read?_map,
        Recogniser.read?_map]
      cases Call.flatGroup.read? x.2 <;> rfl

theorem growsAt_filledCall {c : Char} (hc : isWordChar c = true) {d : Char} (s : Text)
    (hd : isWordChar d = true) : GrowsAt filledCall c (d :: s) := by
  rw [GrowsAt, filledCall, Recogniser.read?_map, Recogniser.read?_map, Recogniser.read?_filter,
    Recogniser.read?_filter, flatCall_read?_cons hc s hd]
  cases Call.flatCall.read? (d :: s) with
  | none => rfl
  | some x => cases h : x.1.content.isEmpty <;> simp [Option.filter, Call.write, h]

theorem GrowsAt.withExponent {p : Recogniser Text} {c : Char} {s : Text} (h : GrowsAt p c s) :
    GrowsAt (withExponent p) c s := by
  rw [GrowsAt] at h ⊢
  simp only [Fraction.withExponent, Recogniser.read?_orElse, Recogniser.read?_bind,
    Recogniser.read?_map, h]
  cases p.read? s with
  | none => rfl
  | some x => cases he : exponent.read? x.2 <;> simp [he]

theorem begins_callDivision :
    Begins (division (withExponent filledCall) spacedSlash term) := by
  intro c s x hnone hs
  have hcall : ∃ y, Call.flatCall.read? s = some y := by
    cases h : Call.flatCall.read? s with
    | some y => exact ⟨y, rfl⟩
    | none =>
        have hfilled : filledCall.read? s = none :=
          Recogniser.read?_map_eq_none (Recogniser.read?_filter_eq_none h _) _
        rw [division_read?_eq_none (withExponent_read?_eq_none hfilled)] at hs
        cases hs
  obtain ⟨y, hy⟩ := hcall
  obtain ⟨w, rfl, rfl, hne, hname, -⟩ := Call.meets_flatCall _ _ _ hy
  refine .inr (.inr ⟨?_, y.1.name, y.1.content ++ [')'] ++ y.2, ?_, hne, hname⟩)
  · cases hc : isWordChar c with
    | false => rfl
    | true =>
        obtain ⟨d, n, hn⟩ := List.exists_cons_of_ne_nil hne
        have hd : isWordChar d = true := hname d (by simp [hn])
        have hgrows : GrowsAt (withExponent filledCall) c (y.1.write ++ y.2) := by
          rw [Call.write, hn]
          exact (growsAt_filledCall hc _ hd).withExponent
        rw [division, Recogniser.read?_bind, hgrows] at hnone
        rw [division, Recogniser.read?_bind] at hs
        obtain ⟨z, hz, hs⟩ := Option.bind_eq_some_iff.1 hs
        rw [hz, Option.map_some, Option.bind_some, Recogniser.read?_bind,
          Option.bind_eq_none_iff] at hnone
        obtain ⟨u, hu, hs⟩ := Option.bind_eq_some_iff.1 hs
        have := hnone u hu
        rw [Recogniser.read?_map, Option.map_eq_none_iff] at this
        rw [Recogniser.read?_map, this] at hs
        cases hs
  · simp [Call.write, Markup.parenthesised]

/-- Behind the name of a call stands its opening parenthesis. -/
theorem meets_callSite_head (w : Text) :
    (callSite w).Meets fun v _ _ => v.head? = some '(' := by
  refine ((Bracket.meets_group.bind fun t => (meets_spacedSlash.bind fun _ =>
      Recogniser.meets_run isTermChar).map fun d => CallSite.mk ⟨w, t⟩ (some d)).orElse
    (Bracket.meets_group.map fun t => CallSite.mk ⟨w, t⟩ none)).mono ?_
  rintro v _ r (⟨_, t, _, rfl, ⟨rfl, -⟩, -⟩ | ⟨t, ⟨rfl, -⟩, -⟩) <;> rfl

theorem begins_groupSites (style : CallStyle) : ∀ p ∈ groupSites style, Begins p := by
  refine forall_groupSites.2 ⟨begins_of_head fun c s hc => division_read?_eq_none ?_,
    begins_of_head fun c s hc => division_read?_eq_none (Recogniser.read?_map_eq_none
      (flatGroup_filter_read?_eq_none _ hc s) _),
    begins_callDivision,
    begins_of_head fun c s hc => division_read?_eq_none (powerGroup_read?_eq_none hc)⟩
  have hmarkup : markupContent.read? (c :: s) = none := flatGroup_filter_read?_eq_none _ hc s
  cases style with
  | asTyped => exact Recogniser.read?_map_eq_none hmarkup _
  | typeset => exact hmarkup

end Fraction

end CalcTypeset
