import CalcTypeset.Call.Replacement
import CalcTypeset.Proofs.Reading
import CalcTypeset.Text.WordRun

/-!
# Scans over a text

Every pass is one of three scans: a recogniser tried at each place, a rule tried behind each word
run, or the search for the calls of one name. Each has an induction that follows its steps, and
from it the two facts that all later arguments use.

A relation between texts that respects concatenation holds between a text and its rewriting as
soon as it holds between each piece that is taken and what is written for it (`replaceAll_rel`).
And a scan that reads locally can be cut: rewriting two texts one after the other is rewriting
their concatenation (`replaceAll_append`).
-/

namespace CalcTypeset

/-- A relation between texts that holds of equal texts and respects concatenation. -/
structure Text.Congruence (R : Text → Text → Prop) : Prop where
  refl : ∀ s, R s s
  append : ∀ {s s' t t'}, R s s' → R t t' → R (s ++ t) (s' ++ t')

/-- A text and a rewriting of it: pieces are replaced as `S` allows, and all else is kept. This
is the smallest relation that respects concatenation and contains `S`. -/
inductive Text.Rewrites (S : Text → Text → Prop) : Text → Text → Prop where
  | nil : Rewrites S [] []
  | site {w w' r r' : Text} (h : S w w') (hr : Rewrites S r r') :
      Rewrites S (w ++ r) (w' ++ r')
  | keep (c : Char) {r r' : Text} (hr : Rewrites S r r') : Rewrites S (c :: r) (c :: r')

namespace Text.Rewrites

variable {S : Text → Text → Prop}

theorem refl (s : Text) : Rewrites S s s := by
  induction s with
  | nil => exact .nil
  | cons c s ih => exact .keep c ih

theorem append {s s' t t' : Text} (hs : Rewrites S s s') (ht : Rewrites S t t') :
    Rewrites S (s ++ t) (s' ++ t') := by
  induction hs with
  | nil => exact ht
  | site h hr ih => rw [List.append_assoc, List.append_assoc]; exact .site h ih
  | keep c hr ih => exact .keep c ih

theorem rel {R : Text → Text → Prop} (hR : Text.Congruence R) {s s' : Text}
    (h : Rewrites S s s') (hS : ∀ w w', S w w' → R w w') : R s s' := by
  induction h with
  | nil => exact hR.refl []
  | site hw hr ih => exact hR.append (hS _ _ hw) ih
  | keep c hr ih => exact hR.append (hR.refl [c]) ih

/-- Nothing was replaced when every replacement would show. -/
theorem eq_of_not_mem {s s' : Text} (h : Rewrites S s s')
    (hS : ∀ w w', S w w' → ∃ z ∈ w', z ∉ s') : s' = s := by
  induction h with
  | nil => rfl
  | site h hr ih =>
      obtain ⟨z, hz, hns⟩ := hS _ _ h
      exact absurd (List.mem_append_left _ hz) hns
  | keep c hr ih =>
      rw [ih fun w w' hw => ?_]
      obtain ⟨z, hz, hns⟩ := hS w w' hw
      exact ⟨z, hz, fun hmem => hns (List.mem_cons_of_mem c hmem)⟩

/-- An ending that shows no character at which a replacement ends was there before. -/
theorem suffix {s s' x : Text} (h : Rewrites S s s')
    (hS : ∀ w w', S w w' → ∃ z ∈ w'.getLast?, z ∉ x) (hx : x <:+ s') : x <:+ s := by
  induction h with
  | nil => exact hx
  | site h hr ih =>
      rename_i w w' r r'
      rcases List.suffix_or_suffix_of_suffix hx (List.suffix_append w' r') with hxr | hrx
      · exact (ih hxr).trans (List.suffix_append w r)
      · obtain ⟨u, rfl⟩ := hrx
        have hu : u <:+ w' := (List.suffix_append_self_iff).1 hx
        cases u with
        | nil => exact (ih (List.suffix_refl _)).trans (List.suffix_append w r)
        | cons y u =>
            obtain ⟨z, hz, hns⟩ := hS _ _ h
            obtain ⟨v, rfl⟩ := hu
            have hzu : z ∈ (y :: u).getLast? := by simpa [List.getLast?_append] using hz
            exact absurd (List.mem_append_left _ (List.mem_of_mem_getLast? hzu)) hns
  | keep c hr ih =>
      rename_i r r'
      rcases List.suffix_cons_iff.1 hx with rfl | hxr
      · have : r' = r := hr.eq_of_not_mem fun w w' hw => by
          obtain ⟨z, hz, hns⟩ := hS w w' hw
          exact ⟨z, List.mem_of_mem_getLast? hz, fun hmem => hns (List.mem_cons_of_mem c hmem)⟩
        exact this ▸ List.suffix_refl _
      · exact (ih hxr).trans (List.suffix_cons c r)

theorem ne_nil {s s' : Text} (h : Rewrites S s s') (hS : ∀ w w', S w w' → w' ≠ [])
    (hs : s ≠ []) : s' ≠ [] := by
  induction h with
  | nil => exact hs
  | site h hr ih => exact fun hnil => hS _ _ h (List.append_eq_nil_iff.1 hnil).1
  | keep c hr ih => exact List.cons_ne_nil _ _

/-- A rewriting starts as the text does, or as a replacement. -/
theorem head? {s s' : Text} (h : Rewrites S s s') (hS : ∀ w w', S w w' → w' ≠ []) :
    s'.head? = s.head? ∨ ∃ w w' r, S w w' ∧ s = w ++ r ∧ s'.head? = w'.head? := by
  cases h with
  | nil => exact .inl rfl
  | site h hr =>
      rename_i w w' r r'
      refine .inr ⟨w, w', r, h, rfl, ?_⟩
      obtain ⟨x, y, hxy⟩ := List.exists_cons_of_ne_nil (hS w w' h)
      rw [hxy]
      rfl
  | keep c hr => exact .inl rfl

end Text.Rewrites

namespace Recogniser

variable {α : Type} {p : Recogniser α} {render : α → Text}

/-- Induction along the scan of a recogniser. -/
@[elab_as_elim]
theorem scan_induction {motive : Text → Prop} (p : Recogniser α) (nil : motive [])
    (read : ∀ s a r, p.read? s = some (a, r) → motive r → motive s)
    (pass : ∀ c s, p.read? (c :: s) = none → motive s → motive (c :: s)) (s : Text) :
    motive s := by
  match s with
  | [] => exact nil
  | c :: s =>
      match h : p.read? (c :: s) with
      | some (a, r) =>
          have hr := p.shrinks h
          exact read _ a r h (scan_induction p nil read pass r)
      | none => exact pass c s h (scan_induction p nil read pass s)
termination_by s.length
decreasing_by
  · exact hr
  · simp

theorem rewrites_replaceAll {P : Text → α → Text → Prop} {S : Text → Text → Prop}
    (hp : p.Meets P) (h : ∀ w a r, P w a r → S w (render a)) (s : Text) :
    Text.Rewrites S s (p.replaceAll render s) := by
  induction s using scan_induction p with
  | nil => rw [replaceAll_nil]; exact .nil
  | read s a r hs ih =>
      obtain ⟨w, rfl, hw⟩ := hp s a r hs
      rw [p.replaceAll_of_read render hs]
      exact .site (h w a r hw) ih
  | pass c s hs ih =>
      rw [p.replaceAll_of_none render hs]
      exact .keep c ih

theorem replaceAll_rel {P : Text → α → Text → Prop} {R : Text → Text → Prop}
    (hR : Text.Congruence R) (hp : p.Meets P) (h : ∀ w a r, P w a r → R w (render a)) (s : Text) :
    R s (p.replaceAll render s) :=
  (rewrites_replaceAll hp h s).rel hR fun _ _ hw => hw

/-- A text in which nothing is read stays as it is, whatever follows it. -/
theorem replaceAll_append_of_none {s u : Text}
    (h : ∀ t, t ≠ [] → t <:+ s → p.read? (t ++ u) = none) :
    p.replaceAll render (s ++ u) = s ++ p.replaceAll render u := by
  induction s with
  | nil => rfl
  | cons c s ih =>
      have hc : p.read? (c :: (s ++ u)) = none := h (c :: s) (by simp) (List.suffix_refl _)
      rw [List.cons_append, p.replaceAll_of_none render hc,
        ih fun t ht hs => h t ht (hs.trans (List.suffix_cons c s)), List.cons_append]

theorem replaceAll_eq_self {s : Text} (h : ∀ t, t <:+ s → p.read? t = none) :
    p.replaceAll render s = s := by
  have hs : p.replaceAll render (s ++ []) = s ++ p.replaceAll render [] :=
    replaceAll_append_of_none fun t _ ht => by rw [List.append_nil]; exact h t ht
  rwa [List.append_nil, replaceAll_nil, List.append_nil] at hs

/-- A scan that reads locally in `s` can be cut behind `s`. -/
theorem replaceAll_append {s u : Text} (h : ∀ t, t ≠ [] → t <:+ s → p.LocalAt u t)
    (hp : p.Meets fun _ _ _ => True) :
    p.replaceAll render (s ++ u) = p.replaceAll render s ++ p.replaceAll render u := by
  induction s using scan_induction p with
  | nil => rw [replaceAll_nil]; rfl
  | read s a r hs ih =>
      have hne : s ≠ [] := fun hnil => by rw [hnil, p.read?_nil] at hs; cases hs
      obtain ⟨w, rfl, -⟩ := hp s a r hs
      rw [p.replaceAll_of_read render ((h _ hne (List.suffix_refl _)).of_some hs),
        p.replaceAll_of_read render hs, List.append_assoc,
        ih fun t ht hr => h t ht (hr.trans (List.suffix_append w r))]
  | pass c s hs ih =>
      have hc := (h (c :: s) (by simp) (List.suffix_refl _)).of_none hs
      rw [List.cons_append] at hc ⊢
      rw [p.replaceAll_of_none render hc, p.replaceAll_of_none render hs,
        ih fun t ht hr => h t ht (hr.trans (List.suffix_cons c s)), List.cons_append]

end Recogniser

namespace WordRule

open Text

variable {α : Type} {f : WordRule α} {render : α → Text}

@[simp] theorem replaceAll_nil : f.replaceAll render [] = [] := by
  simp [replaceAll]

theorem replaceAll_cons_of_not_isWordChar {c : Char} (s : Text) (hc : isWordChar c = false) :
    f.replaceAll render (c :: s) = c :: f.replaceAll render s := by
  simp [replaceAll, f.pieces_cons_of_not_isWordChar s hc]

theorem replaceAll_of_read {s w r r' : Text} {a : α} (hw : run? isWordChar s = some (w, r))
    (h : (f w).read? r = some (a, r')) :
    f.replaceAll render s = render a ++ f.replaceAll render r' := by
  simp [replaceAll, f.pieces_of_read hw h]

theorem replaceAll_of_none {s w r : Text} (hw : run? isWordChar s = some (w, r))
    (h : (f w).read? r = none) : f.replaceAll render s = w ++ f.replaceAll render r := by
  simp [replaceAll, f.pieces_of_none hw h]

/-- Induction along the scan of a word rule. -/
@[elab_as_elim]
theorem scan_induction {motive : Text → Prop} (f : WordRule α) (nil : motive [])
    (read : ∀ s w r a r', run? isWordChar s = some (w, r) → (f w).read? r = some (a, r') →
      motive r' → motive s)
    (pass : ∀ s w r, run? isWordChar s = some (w, r) → (f w).read? r = none → motive r →
      motive s)
    (other : ∀ c s, isWordChar c = false → motive s → motive (c :: s)) (s : Text) : motive s := by
  cases s with
  | nil => exact nil
  | cons c s =>
      cases hc : isWordChar c with
      | false => exact other c s hc (scan_induction f nil read pass other s)
      | true =>
          obtain ⟨⟨w, r⟩, hw⟩ : ∃ x, run? isWordChar (c :: s) = some x :=
            Option.ne_none_iff_exists'.1 (by simp [run?, hc])
          have hr := run?_length hw
          cases h : (f w).read? r with
          | none => exact pass _ w r hw h (scan_induction f nil read pass other r)
          | some x =>
              have hr' := Nat.lt_trans ((f w).shrinks h) hr
              exact read _ w r x.1 x.2 hw h (scan_induction f nil read pass other x.2)
termination_by s.length
decreasing_by
  · simp
  · exact hr
  · exact hr'

theorem rewrites_replaceAll {P : Text → Text → α → Text → Prop} {S : Text → Text → Prop}
    (hf : ∀ w, (f w).Meets (P w))
    (h : ∀ w v a r, w ≠ [] → (∀ c ∈ w, isWordChar c = true) → P w v a r →
      S (w ++ v) (render a)) (s : Text) :
    Text.Rewrites S s (f.replaceAll render s) := by
  induction s using scan_induction f with
  | nil => rw [replaceAll_nil]; exact .nil
  | read s w r a r' hw hr ih =>
      obtain ⟨v, rfl, hv⟩ := hf w r a r' hr
      rw [replaceAll_of_read hw hr, run?_eq_append hw, ← List.append_assoc]
      exact .site (h w v a r' (run?_ne_nil hw) (run?_all hw) hv) ih
  | pass s w r hw hr ih =>
      rw [replaceAll_of_none hw hr, run?_eq_append hw]
      exact (Text.Rewrites.refl w).append ih
  | other c s hc ih =>
      rw [replaceAll_cons_of_not_isWordChar s hc]
      exact .keep c ih

theorem replaceAll_rel {P : Text → Text → α → Text → Prop} {R : Text → Text → Prop}
    (hR : Text.Congruence R) (hf : ∀ w, (f w).Meets (P w))
    (h : ∀ w v a r, w ≠ [] → (∀ c ∈ w, isWordChar c = true) → P w v a r → R (w ++ v) (render a))
    (s : Text) : R s (f.replaceAll render s) :=
  (rewrites_replaceAll hf h s).rel hR fun _ _ hw => hw

/-- Two ways to write the sites anew agree when they do on each site of the text. -/
theorem replaceAll_congr {P : Text → Text → α → Text → Prop} {render' : α → Text}
    (hf : ∀ w, (f w).Meets (P w)) {s : Text}
    (h : ∀ w v a r, w ++ v <:+: s → P w v a r → render a = render' a) :
    f.replaceAll render s = f.replaceAll render' s := by
  induction s using scan_induction f with
  | nil => rw [replaceAll_nil, replaceAll_nil]
  | read s w r a r' hw hr ih =>
      obtain ⟨v, rfl, hv⟩ := hf w r a r' hr
      have hsplit : s = w ++ v ++ r' := by rw [run?_eq_append hw, List.append_assoc]
      rw [replaceAll_of_read hw hr, replaceAll_of_read hw hr,
        h w v a r' ⟨[], r', hsplit.symm⟩ hv,
        ih fun w' v' a r hwv => h w' v' a r (hwv.trans ⟨w ++ v, [], by simp [hsplit]⟩)]
  | pass s w r hw hr ih =>
      rw [replaceAll_of_none hw hr, replaceAll_of_none hw hr,
        ih fun w' v a r' hwv => h w' v a r' (hwv.trans ⟨w, [], by simp [run?_eq_append hw]⟩)]
  | other c s hc ih =>
      rw [replaceAll_cons_of_not_isWordChar s hc, replaceAll_cons_of_not_isWordChar s hc,
        ih fun w v a r hwv => h w v a r (hwv.trans (List.suffix_cons c s).isInfix)]

/-- A scan that reads locally behind the word runs of `s` can be cut behind `s`, when no word run
crosses the cut. -/
theorem replaceAll_append {s u : Text} (hu : ∀ c ∈ u.head?, isWordChar c = false)
    (h : ∀ w t, t <:+ s → (f w).LocalAt u t) (hf : ∀ w, (f w).Meets fun _ _ _ => True) :
    f.replaceAll render (s ++ u) = f.replaceAll render s ++ f.replaceAll render u := by
  induction s using scan_induction f with
  | nil => rw [replaceAll_nil]; rfl
  | read s w r a r' hw hr ih =>
      have hwu : run? isWordChar (s ++ u) = some (w, r ++ u) :=
        (Recogniser.localAt_run hu s).of_some hw
      obtain ⟨v, rfl, -⟩ := hf w r a r' hr
      have hs : s = w ++ (v ++ r') := run?_eq_append hw
      have hr' : r' <:+ s := by
        rw [hs]; exact (List.suffix_append v r').trans (List.suffix_append w _)
      have hlocal := h w (v ++ r') (by rw [hs]; exact List.suffix_append w _)
      rw [replaceAll_of_read hwu (hlocal.of_some hr), replaceAll_of_read hw hr,
        ih fun w t ht => h w t (ht.trans hr'), List.append_assoc]
  | pass s w r hw hr ih =>
      have hwu : run? isWordChar (s ++ u) = some (w, r ++ u) :=
        (Recogniser.localAt_run hu s).of_some hw
      have hs : r <:+ s := by
        rw [run?_eq_append hw]; exact List.suffix_append w r
      rw [replaceAll_of_none hwu ((h w r hs).of_none hr), replaceAll_of_none hw hr,
        ih fun w t ht => h w t (ht.trans hs), List.append_assoc]
  | other c s hc ih =>
      rw [List.cons_append, replaceAll_cons_of_not_isWordChar _ hc,
        replaceAll_cons_of_not_isWordChar _ hc,
        ih fun w t ht => h w t (ht.trans (List.suffix_cons c s)), List.cons_append]

end WordRule

namespace Call

open Text

variable {name : Text} {make : Text → Text} {before : Option Char}

theorem opening?_eq_some_iff {s inside : Text} :
    opening? name before s = some inside ↔
      isBoundary before s = true ∧ s = name ++ '(' :: inside := by
  unfold opening?
  split
  · next h => simp [h, after?_eq_some_iff]
  · next h => simp [h]

@[simp] theorem replaceAfter_nil : replaceAfter name make before [] = [] := by
  rw [replaceAfter]

theorem replaceAfter_of_none {c : Char} {s : Text} (h : opening? name before (c :: s) = none) :
    replaceAfter name make before (c :: s) = c :: replaceAfter name make (some c) s := by
  rw [replaceAfter]
  split
  · rfl
  · next h' => rw [h] at h'; cases h'

theorem replaceAfter_of_unclosed {s inside : Text} (h : opening? name before s = some inside)
    (hc : Bracket.closing? 0 inside = none) :
    replaceAfter name make before s =
      name ++ '(' :: replaceAfter name make (some '(') inside := by
  match s with
  | [] => have := opening?_length h; simp at this
  | c :: s =>
      rw [replaceAfter]
      split
      · next h' => rw [h] at h'; cases h'
      · next i h' =>
          rw [h] at h'
          cases h'
          split
          · rfl
          · next hc' => rw [hc] at hc'; cases hc'

theorem replaceAfter_of_closed {s inside content rest : Text}
    (h : opening? name before s = some inside)
    (hc : Bracket.closing? 0 inside = some (content, rest)) :
    replaceAfter name make before s =
      make content ++ replaceAfter name make ((make content).getLast?.or before) rest := by
  match s with
  | [] => have := opening?_length h; simp at this
  | c :: s =>
      rw [replaceAfter]
      split
      · next h' => rw [h] at h'; cases h'
      · next i h' =>
          rw [h] at h'
          cases h'
          split
          · next hc' => rw [hc] at hc'; cases hc'
          · next hc' => rw [hc] at hc'; cases hc'; rfl

/-- Induction along the search for the calls of a name. -/
@[elab_as_elim]
theorem scan_induction {motive : Option Char → Text → Prop} (name : Text) (make : Text → Text)
    (nil : ∀ before, motive before [])
    (pass : ∀ before c s, opening? name before (c :: s) = none → motive (some c) s →
      motive before (c :: s))
    (unclosed : ∀ before s inside, opening? name before s = some inside →
      Bracket.closing? 0 inside = none → motive (some '(') inside → motive before s)
    (closed : ∀ before s inside content rest, opening? name before s = some inside →
      Bracket.closing? 0 inside = some (content, rest) →
      motive ((make content).getLast?.or before) rest → motive before s)
    (before : Option Char) (s : Text) : motive before s := by
  match s with
  | [] => exact nil before
  | c :: s =>
      match ho : opening? name before (c :: s) with
      | none =>
          exact pass before c s ho (scan_induction name make nil pass unclosed closed (some c) s)
      | some inside =>
          have hi := opening?_length ho
          match hc : Bracket.closing? 0 inside with
          | none =>
              exact unclosed before _ inside ho hc
                (scan_induction name make nil pass unclosed closed _ inside)
          | some (content, rest) =>
              have hr := Nat.lt_trans (Bracket.closing?_length hc) hi
              exact closed before _ inside content rest ho hc
                (scan_induction name make nil pass unclosed closed _ rest)
termination_by s.length
decreasing_by
  · simp
  · exact hi
  · exact hr

theorem rewrites_replaceAfter {S : Text → Text → Prop}
    (h : ∀ content, Bracket.IsBalanced '(' ')' content →
      S (name ++ '(' :: content ++ [')']) (make content)) (before : Option Char) (s : Text) :
    Text.Rewrites S s (replaceAfter name make before s) := by
  induction before, s using scan_induction name make with
  | nil before => rw [replaceAfter_nil]; exact .nil
  | pass before c s ho ih =>
      rw [replaceAfter_of_none ho]
      exact .keep c ih
  | unclosed before s inside ho hc ih =>
      have := (Text.Rewrites.refl (S := S) (name ++ ['('])).append ih
      rw [replaceAfter_of_unclosed ho hc, (opening?_eq_some_iff.1 ho).2]
      simpa using this
  | closed before s inside content rest ho hc ih =>
      obtain ⟨hi, hb⟩ := Bracket.closing?_eq_some_iff.1 hc
      have := Text.Rewrites.site (h content hb) ih
      rw [replaceAfter_of_closed ho hc, (opening?_eq_some_iff.1 ho).2, hi]
      simpa using this

theorem replaceAfter_rel {R : Text → Text → Prop} (hR : Text.Congruence R)
    (h : ∀ content, Bracket.IsBalanced '(' ')' content →
      R (name ++ '(' :: content ++ [')']) (make content)) (before : Option Char) (s : Text) :
    R s (replaceAfter name make before s) :=
  (rewrites_replaceAfter h before s).rel hR fun _ _ hw => hw

/-- A stretch in which no call starts stays as it is. -/
theorem replaceAfter_append_of_none (make : Text → Text) (before : Option Char) {s u : Text}
    (h : ∀ t, t ≠ [] → t <:+ s → ∀ b, opening? name b (t ++ u) = none) :
    ∃ before', replaceAfter name make before (s ++ u) =
      s ++ replaceAfter name make before' u := by
  induction s generalizing before with
  | nil => exact ⟨before, rfl⟩
  | cons c s ih =>
      obtain ⟨before', heq⟩ := ih (some c) fun t ht hs =>
        h t ht (hs.trans (List.suffix_cons c s))
      have hc := h (c :: s) (by simp) (List.suffix_refl _) before
      exact ⟨before', by
        rw [List.cons_append] at hc ⊢
        rw [replaceAfter_of_none hc, heq, List.cons_append]⟩

/-- Of the character in front of the text, only its class counts. -/
theorem replaceAfter_congr {before' : Option Char} (s : Text)
    (h : before.any isWordChar = before'.any isWordChar) :
    replaceAfter name make before s = replaceAfter name make before' s := by
  have hopening : ∀ {b b' : Option Char} (t : Text), b.any isWordChar = b'.any isWordChar →
      opening? name b t = opening? name b' t := fun t hb => by
    rw [opening?, opening?, isBoundary, isBoundary, hb]
  induction before, s using scan_induction name make generalizing before' with
  | nil before => rw [replaceAfter_nil, replaceAfter_nil]
  | pass before c s ho ih =>
      rw [replaceAfter_of_none ho, replaceAfter_of_none ((hopening _ h).symm.trans ho)]
  | unclosed before s inside ho hc ih =>
      rw [replaceAfter_of_unclosed ho hc,
        replaceAfter_of_unclosed ((hopening _ h).symm.trans ho) hc]
  | closed before s inside content rest ho hc ih =>
      rw [replaceAfter_of_closed ho hc, replaceAfter_of_closed ((hopening _ h).symm.trans ho) hc]
      congr 1
      refine ih ?_
      cases (make content).getLast? with
      | none => exact h
      | some c => rfl

theorem opening?_append {s u : Text} (hu : ∀ c ∈ u.head?, c ∉ name ++ ['(']) (hs : s ≠ []) :
    opening? name before (s ++ u) = (opening? name before s).map (· ++ u) := by
  obtain ⟨c, s, rfl⟩ := List.exists_cons_of_ne_nil hs
  have hboundary : isBoundary before (c :: s ++ u) = isBoundary before (c :: s) := rfl
  rw [opening?, opening?, hboundary, Recogniser.after?_append_of_not_mem hu]
  split <;> rfl

/-- The search for calls can be cut behind a text in which every parenthesis is closed, in front
of a character that no call starts with. What was written last is remembered across the cut. -/
theorem replaceAfter_append (make : Text → Text) (before : Option Char) {s u : Text}
    (hu : ∀ c ∈ u.head?, c ∉ name ++ ['('])
    (hs : ∀ inside, '(' :: inside <:+ s → (Bracket.closing? 0 inside).isSome) :
    ∃ before', replaceAfter name make before (s ++ u) =
      replaceAfter name make before s ++ replaceAfter name make before' u := by
  induction before, s using scan_induction name make with
  | nil before => exact ⟨before, by rw [replaceAfter_nil]; rfl⟩
  | pass before c s ho ih =>
      obtain ⟨before', h⟩ := ih fun inside hi => hs inside (hi.trans (List.suffix_cons c s))
      have hou : opening? name before (c :: (s ++ u)) = none := by
        rw [← List.cons_append, opening?_append hu (by simp), ho]
        rfl
      exact ⟨before', by
        rw [List.cons_append, replaceAfter_of_none hou, replaceAfter_of_none ho, h,
          List.cons_append]⟩
  | unclosed before s inside ho hc ih =>
      have := hs inside (by
        rw [(opening?_eq_some_iff.1 ho).2]
        exact List.suffix_append name _)
      rw [hc] at this
      cases this
  | closed before s inside content rest ho hc ih =>
      obtain ⟨rfl, hb⟩ := Bracket.closing?_eq_some_iff.1 hc
      have hsplit := (opening?_eq_some_iff.1 ho).2
      have hrest : rest <:+ s := by
        rw [hsplit]
        exact ⟨name ++ '(' :: content ++ [')'], by simp⟩
      obtain ⟨before', h⟩ := ih fun inside hi => hs inside (hi.trans hrest)
      have hne : s ≠ [] := by rw [hsplit]; simp
      have hou : opening? name before (s ++ u) = some (content ++ ')' :: (rest ++ u)) := by
        rw [opening?_append hu hne, ho]
        simp
      exact ⟨before', by
        rw [replaceAfter_of_closed hou (Bracket.closing?_eq_some_iff.2 ⟨rfl, hb⟩),
          replaceAfter_of_closed ho hc, h, List.append_assoc]⟩

end Call

end CalcTypeset
