import CalcTypeset.Proofs.Reference.Cut
import CalcTypeset.Proofs.Site

/-!
# Scans that keep the references

A pass keeps the references of a line when it keeps its square brackets, when no piece that it
takes leaves a bracket open that is closed behind it, and when each piece has the names that are
written for it. That is not enough by itself: a scan that passes an opening bracket may still
begin a piece inside the reference. So for each kind of scan there is one more condition, which
says that nothing is read there.
-/

namespace CalcTypeset

open Text

namespace Reference

variable {s t n : Text}

/-- The pass keeps the square brackets of every line, and the names of a line when they are
valid. -/
structure KeepsReferences (f : Text → Text) : Prop where
  brackets : ∀ s, brackets (f s) = brackets s
  names : ∀ s, HasValidNames s → names (f s) = names s

theorem KeepsReferences.comp {f g : Text → Text} (hf : KeepsReferences f)
    (hg : KeepsReferences g) : KeepsReferences fun s => g (f s) where
  brackets s := (hg.brackets (f s)).trans (hf.brackets s)
  names s hs := by
    have hvalid : HasValidNames (f s) := fun n hn => hs n (by rwa [hf.names s hs] at hn)
    rw [hg.names (f s) hvalid, hf.names s hs]

theorem keepsReferences_id : KeepsReferences fun s => s := ⟨fun _ => rfl, fun _ _ => rfl⟩

/-- The piece may be written anew in front of a text. -/
structure Spares (w w' r : Text) : Prop where
  brackets : brackets w' = brackets w
  cut : HasValidNames (w ++ r) → IsOpen w → ']' ∉ r
  names : HasValidNames w → names w' = names w

theorem congruence_brackets : Congruence fun s s' => brackets s' = brackets s where
  refl _ := rfl
  append hs ht := by rw [brackets_append, brackets_append, hs, ht]

theorem isOpen_congr {s s' : Text} (h : brackets s' = brackets s) : IsOpen s' ↔ IsOpen s := by
  rw [IsOpen, IsOpen, h]

theorem not_mem_congr {s s' : Text} (h : brackets s' = brackets s) (hs : ']' ∉ s) : ']' ∉ s' := by
  rwa [← mem_brackets_iff (by decide), h, mem_brackets_iff (by decide)]

theorem HasValidNames.of_append (h : HasValidNames (s ++ t)) (hcut : IsOpen s → ']' ∉ t) :
    HasValidNames s ∧ HasValidNames t := by
  refine ⟨fun n hn => h n ?_, fun n hn => h n ?_⟩
  · rw [names_append hcut]; exact List.mem_append_left _ hn
  · rw [names_append hcut]; exact List.mem_append_right _ hn

/-- The step of a scan that takes a piece. -/
theorem names_piece {w w' r r' : Text} (h : Spares w w' r) (hr : brackets r' = brackets r)
    (hvalid : HasValidNames (w ++ r)) (ih : HasValidNames r → names r' = names r) :
    names (w' ++ r') = names (w ++ r) := by
  have hcut := h.cut hvalid
  obtain ⟨hw, hr'⟩ := hvalid.of_append hcut
  rw [names_append hcut, names_append fun hopen => not_mem_congr hr
    (hcut ((isOpen_congr h.brackets).1 hopen)), h.names hw, ih hr']

/-- The names that stand behind a closing bracket. -/
theorem names_inside (hn : ∀ c ∈ n, Variable.isNameChar c = true) (t : Text) :
    names (n ++ ']' :: t) = names t := by
  have hmem : '[' ∉ n ++ [']'] := by
    rw [List.mem_append, not_or]
    exact ⟨fun h => absurd (hn _ h) (by decide), by decide⟩
  have := names_append_of_not_mem hmem t
  rwa [List.append_assoc] at this

/-- The step of a scan that passes a character: when it opens a reference, the scan must come to
its end with nothing changed. -/
theorem names_pass {c : Char} {s s' : Text} (hs : brackets s' = brackets s)
    (hvalid : HasValidNames (c :: s)) (ih : HasValidNames s → names s' = names s)
    (hskip : ∀ n t, c = '[' → s = n ++ ']' :: t → (∀ x ∈ n, Variable.isNameChar x = true) →
      ∃ t', s' = n ++ ']' :: t') : names (c :: s') = names (c :: s) := by
  by_cases hc : c = '['
  · subst hc
    by_cases hmem : ']' ∈ s
    · obtain ⟨n, t, rfl, hn⟩ := List.eq_append_cons_of_mem hmem
      have hname : ∀ x ∈ n, Variable.isNameChar x = true := by
        by_cases hnil : n = []
        · simp [hnil]
        · refine isNameChar_of_isValidName (hvalid n ?_)
          rw [names_closed hn, if_neg hnil]
          simp
      obtain ⟨t', rfl⟩ := hskip n t rfl rfl hname
      have ht : names t' = names t := by
        rw [← names_inside hname, ← names_inside hname t]
        refine ih fun m hm => hvalid m ?_
        rw [names_inside hname] at hm
        rw [names_closed hn]
        exact List.mem_append_right _ hm
      rw [names_closed hn, names_closed hn, ht]
    · have hmem' := not_mem_congr hs hmem
      rw [names_of_not_mem (by simpa using hmem'), names_of_not_mem (by simpa using hmem)]
  · rw [names_cons_of_ne hc, names_cons_of_ne hc]
    exact ih fun n hn => hvalid n (by rwa [names_cons_of_ne hc])

/-! ## Scans by a recogniser -/

variable {α : Type}

/-- Where nothing is read at an opening bracket, nothing is read inside the reference. -/
def SkipsNames (p : Recogniser α) : Prop :=
  ∀ n t, (∀ c ∈ n, Variable.isNameChar c = true) → p.read? ('[' :: (n ++ ']' :: t)) = none →
    ∀ y, y ≠ [] → y <:+ n ++ [']'] → p.read? (y ++ t) = none

theorem keepsReferences_replaceAll {p : Recogniser α} {P : Text → α → Text → Prop}
    {render : α → Text} (hp : p.Meets P) (h : ∀ w a r, P w a r → Spares w (render a) r)
    (hskips : SkipsNames p) : KeepsReferences (p.replaceAll render) := by
  have hbrackets := Recogniser.replaceAll_rel congruence_brackets hp
    fun w a r hw => (h w a r hw).brackets
  refine ⟨hbrackets, fun s hs => ?_⟩
  induction s using Recogniser.scan_induction p with
  | nil => rw [Recogniser.replaceAll_nil]
  | read s a r hread ih =>
      obtain ⟨w, rfl, hw⟩ := hp s a r hread
      rw [p.replaceAll_of_read render hread]
      exact names_piece (h w a r hw) (hbrackets r) hs ih
  | pass c s hnone ih =>
      rw [p.replaceAll_of_none render hnone]
      refine names_pass (hbrackets s) hs ih ?_
      rintro n t rfl rfl hn
      refine ⟨p.replaceAll render t, ?_⟩
      have hname : p.replaceAll render (n ++ [']'] ++ t) = n ++ [']'] ++ p.replaceAll render t :=
        Recogniser.replaceAll_append_of_none fun y hy hsuffix => hskips n t hn hnone y hy hsuffix
      rwa [List.append_assoc, List.append_assoc] at hname

/-- The endings of a reference without its opening bracket. -/
theorem suffix_name {y : Text} (hy : y ≠ []) (h : y <:+ n ++ [']']) :
    ∃ m, m <:+ n ∧ y = m ++ [']'] := by
  rcases List.suffix_concat_iff.1 h with rfl | ⟨m, rfl, hm⟩
  · exact absurd rfl hy
  · exact ⟨m, hm, rfl⟩

theorem skipsNames_of_head {p : Recogniser α}
    (hp : ∀ c x, IsInside c → p.read? (c :: x) = none) :
    SkipsNames p := by
  intro n t hn _ y hy h
  obtain ⟨m, hm, rfl⟩ := suffix_name hy h
  cases m with
  | nil => exact hp ']' t (.inr rfl)
  | cons c m => exact hp c _ (.inl (hn c (hm.subset (by simp))))

/-- A recogniser that starts in a term reads from the start of the term when it reads at all. -/
def Extends (p : Recogniser α) : Prop :=
  ∀ c s, Fraction.isTermChar c = true → p.read? (c :: s) = none → p.read? s = none

theorem skipsNames_of_extends {p : Recogniser α} (hp : Extends p) : SkipsNames p := by
  intro n t hn hnone y hy h
  obtain ⟨m, ⟨x, rfl⟩, rfl⟩ := suffix_name hy h
  have hterm : ∀ c ∈ '[' :: x, Fraction.isTermChar c = true := by
    intro c hc
    rcases List.mem_cons.1 hc with rfl | hc
    · decide
    · exact Fraction.isTermChar_of_isNameChar (hn c (List.mem_append_left m hc))
  have hpass : ∀ z r, (∀ c ∈ z, Fraction.isTermChar c = true) → p.read? (z ++ r) = none →
      p.read? r = none := by
    intro z
    induction z with
    | nil => exact fun r _ h => h
    | cons c z ih =>
        intro r hz h
        exact ih r (fun x hx => hz x (by simp [hx])) (hp c _ (hz c (by simp)) h)
  refine hpass ('[' :: x) _ hterm ?_
  simpa using hnone

/-! ## Scans by a word rule -/

theorem isWordChar_of_isNameChar {c : Char} (h : Variable.isNameChar c = true) :
    isWordChar c = true := by
  rw [isWordChar, Bool.or_eq_true]
  exact .inl h

theorem square_not_mem_of_word {w : Text} (hw : ∀ c ∈ w, isWordChar c = true) : '[' ∉ w :=
  fun h => by
    have := hw '[' h
    rw [isWordChar_of_lt (by decide)] at this
    exact absurd this (by decide)

theorem keepsReferences_wordRule {f : WordRule α} {P : Text → Text → α → Text → Prop}
    {render : α → Text} (hf : ∀ w, (f w).Meets (P w))
    (h : ∀ w v a r, w ≠ [] → (∀ c ∈ w, isWordChar c = true) → P w v a r →
      Spares (w ++ v) (render a) r)
    (hclose : ∀ w t, (f w).read? (']' :: t) = none) : KeepsReferences (f.replaceAll render) := by
  have hbrackets := WordRule.replaceAll_rel congruence_brackets hf
    fun w v a r hne hw hv => (h w v a r hne hw hv).brackets
  have hbracket : isWordChar ']' = false := isWordChar_eq_false (by decide)
  refine ⟨hbrackets, fun s hs => ?_⟩
  induction s using WordRule.scan_induction f with
  | nil => rw [WordRule.replaceAll_nil]
  | read s w r a r' hw hread ih =>
      obtain ⟨v, rfl, hv⟩ := hf w r a r' hread
      have hsplit : s = (w ++ v) ++ r' := by rw [run?_eq_append hw, List.append_assoc]
      rw [WordRule.replaceAll_of_read hw hread, hsplit]
      exact names_piece (h w v a r' (run?_ne_nil hw) (run?_all hw) hv) (hbrackets r')
        (hsplit ▸ hs) ih
  | pass s w r hw hread ih =>
      have hmem := square_not_mem_of_word (run?_all hw)
      rw [WordRule.replaceAll_of_none hw hread, names_append_of_not_mem hmem]
      rw [run?_eq_append hw] at hs ⊢
      rw [names_append_of_not_mem hmem]
      exact ih fun n hn => hs n (by rwa [names_append_of_not_mem hmem])
  | other c s hc ih =>
      rw [WordRule.replaceAll_cons_of_not_isWordChar s hc]
      refine names_pass (hbrackets s) hs ih ?_
      rintro n t - rfl hn
      refine ⟨f.replaceAll render t, ?_⟩
      rw [← WordRule.replaceAll_cons_of_not_isWordChar t hbracket]
      by_cases hnil : n = []
      · rw [hnil]; rfl
      · exact WordRule.replaceAll_of_none (run?_append hnil
          (fun c hc => isWordChar_of_isNameChar (hn c hc)) (by simpa using hbracket)) (hclose n t)

/-! ## The search for calls -/

theorem keepsReferences_replace {name : Text} {make : Text → Text}
    (hname : ∀ c ∈ name, Variable.isNameChar c = true)
    (h : ∀ content r, Spares (name ++ '(' :: content ++ [')']) (make content) r) :
    KeepsReferences (Call.replace name make) := by
  have hbrackets := fun before => Call.replaceAfter_rel congruence_brackets
    (fun content _ => (h content []).brackets) before
  have hsquare : '[' ∉ name ++ ['('] := by
    rw [List.mem_append, not_or]
    exact ⟨fun hmem => absurd (hname _ hmem) (by decide), by decide⟩
  -- Inside a reference no parenthesis stands, so no call starts there.
  have hinside : ∀ n t before, (∀ c ∈ n, Variable.isNameChar c = true) →
      ∃ t', Call.replaceAfter name make before (n ++ ']' :: t) = n ++ ']' :: t' := by
    intro n t before hn
    obtain ⟨before', h⟩ := Call.replaceAfter_append_of_none make before
      (s := n ++ [']']) (u := t) fun y hy hsuffix b => by
        obtain ⟨m, hm, rfl⟩ := suffix_name hy hsuffix
        rw [Option.eq_none_iff_forall_ne_some]
        intro inside hi
        have hsplit := congrArg (List.dropWhile Variable.isNameChar)
          (Call.opening?_eq_some_iff.1 hi).2
        rw [List.append_assoc, List.dropWhile_append_of_pos fun c hc => hn c (hm.subset hc),
          List.dropWhile_append_of_pos hname] at hsplit
        cases hsplit
    exact ⟨_, by simpa using h⟩
  have hafter : ∀ before s, HasValidNames s →
      names (Call.replaceAfter name make before s) = names s := by
    intro before s hs
    induction before, s using Call.scan_induction name make with
    | nil before => rw [Call.replaceAfter_nil]
    | pass before c s ho ih =>
        rw [Call.replaceAfter_of_none ho]
        refine names_pass (hbrackets _ s) hs ih ?_
        rintro n t - rfl hn
        exact hinside n t _ hn
    | unclosed before s inside ho hc ih =>
        have hsplit : s = (name ++ ['(']) ++ inside := by
          rw [(Call.opening?_eq_some_iff.1 ho).2]; simp
        have hvalid : HasValidNames inside := fun n hn =>
          hs n (by rwa [hsplit, names_append_of_not_mem hsquare])
        have := names_append_of_not_mem hsquare (Call.replaceAfter name make (some '(') inside)
        rw [Call.replaceAfter_of_unclosed ho hc, hsplit, names_append_of_not_mem hsquare,
          ← ih hvalid, ← this, List.append_assoc]
        rfl
    | closed before s inside content rest ho hc ih =>
        have hsplit : s = (name ++ '(' :: content ++ [')']) ++ rest := by
          rw [(Call.opening?_eq_some_iff.1 ho).2, (Bracket.closing?_eq_some_iff.1 hc).1]; simp
        rw [Call.replaceAfter_of_closed ho hc, hsplit]
        exact names_piece (h content rest) (hbrackets _ rest) (hsplit ▸ hs) ih
  exact ⟨hbrackets none, hafter none⟩

end Reference

end CalcTypeset
