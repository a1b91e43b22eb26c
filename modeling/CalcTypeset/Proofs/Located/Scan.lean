import CalcTypeset.Proofs.Located.Place

/-!
# Scans of an unmodified text

What a pass replaces is said here without the pass: by a scan of the text as it was given, which
looks at each place at what stands in front of it and behind it. Where something can be taken the
scan goes on behind it, and elsewhere it passes one character. What is taken may be a site, which is
then replaced, or a stretch that the scan steps over.

There is one scan at most when each place allows one taking at most (`Scan.eq`). A word rule gives
the scan when it reads just what can be taken (`Follows.isReplaced`): in a word run nothing is taken
behind its first character, so the run that the rule passes whole is passed character by character.
-/

namespace CalcTypeset.Located

open Text

variable {α β : Type} {takes : Text → Text → Piece α → Text → Prop} {typed written : α → Text}

/-- The pieces of a scan of the text behind `passed`. That `takes passed w p behind` holds says that
at the place between `passed` and `w ++ behind` the stretch `w` is taken as the piece `p`. -/
inductive Scan (takes : Text → Text → Piece α → Text → Prop) :
    (passed ahead : Text) → List (Piece α) → Prop where
  | nil (passed : Text) : Scan takes passed [] []
  | take {passed w behind : Text} {p : Piece α} {ps : List (Piece α)}
      (taken : takes passed w p behind) (rest : Scan takes (passed ++ w) behind ps) :
      Scan takes passed (w ++ behind) (p :: ps)
  | skip {passed ahead : Text} {c : Char} {ps : List (Piece α)}
      (free : ∀ w p behind, c :: ahead = w ++ behind → ¬ takes passed w p behind)
      (rest : Scan takes (passed ++ [c]) ahead ps) :
      Scan takes passed (c :: ahead) (.plain [c] :: ps)

/-- The text is cut by one scan only, whose pieces make it up, and the result is the text with each
site written anew. -/
def IsReplaced (takes : Text → Text → Piece α → Text → Prop) (typed written : α → Text)
    (s out : Text) : Prop :=
  ∃ ps, (∀ ps', Scan takes [] s ps' ↔ ps' = ps) ∧
    Piece.writeAll typed ps = s ∧ out = Piece.writeAll written ps

/-- A place allows one taking at most, of a stretch that is not empty and is what the piece was
typed as. -/
structure Determined (takes : Text → Text → Piece α → Text → Prop) (typed : α → Text) : Prop where
  write : ∀ {passed w p behind}, takes passed w p behind → p.write typed = w
  ne_nil : ∀ {passed w p behind}, takes passed w p behind → w ≠ []
  eq : ∀ {passed w p behind w' p' behind'}, takes passed w p behind →
    takes passed w' p' behind' → w ++ behind = w' ++ behind' → p = p' ∧ behind = behind'

variable {passed passed' s s' w r : Text} {ps ps' : List (Piece α)}

theorem Scan.eq_of_eq (h : Scan takes passed s ps) (h' : Scan takes passed s' ps')
    (hd : Determined takes typed) (heq : s = s') : ps = ps' := by
  induction h generalizing s' ps' with
  | nil passed =>
      cases h' with
      | nil => rfl
      | take taken _ =>
          exact absurd (List.append_eq_nil_iff.1 heq.symm).1 (hd.ne_nil taken)
      | skip => cases heq
  | take taken rest ih =>
      cases h' with
      | nil => exact absurd (List.append_eq_nil_iff.1 heq).1 (hd.ne_nil taken)
      | take taken' rest' =>
          obtain ⟨rfl, rfl⟩ := hd.eq taken taken' heq
          obtain rfl := List.append_cancel_right heq
          rw [ih rest' rfl]
      | skip free _ => exact absurd taken (free _ _ _ heq.symm)
  | skip free rest ih =>
      cases h' with
      | nil => cases heq
      | take taken' _ => exact absurd taken' (free _ _ _ heq)
      | skip free' rest' =>
          obtain ⟨rfl, rfl⟩ := List.cons.inj heq
          rw [ih rest' rfl]

/-- Two scans of the same text have the same pieces. -/
theorem Scan.eq (hd : Determined takes typed) (h : Scan takes passed s ps)
    (h' : Scan takes passed s ps') : ps = ps' := h.eq_of_eq h' hd rfl

/-- The pieces of a scan make up the text. -/
theorem Scan.writeAll_typed (hd : Determined takes typed) (h : Scan takes passed s ps) :
    Piece.writeAll typed ps = s := by
  induction h with
  | nil => rfl
  | take taken rest ih =>
      rw [Piece.writeAll, List.flatMap_cons, hd.write taken]
      exact congrArg _ ih
  | skip free rest ih =>
      rw [Piece.writeAll_plain, ih]
      rfl

/-! ## The scan of a word rule -/

/-- The rule reads what can be taken and writes it anew, and nothing else can be taken. -/
structure Follows (takes : Text → Text → Piece α → Text → Prop) (written : α → Text)
    (f : WordRule β) (render : β → Text) : Prop where
  takes_of_read : ∀ {passed s w r b r'}, IsBreak passed → run? isWordChar s = some (w, r) →
    (f w).read? r = some (b, r') →
    ∃ v p, s = v ++ r' ∧ takes passed v p r' ∧ p.write written = render b
  isBreak : ∀ {passed w p behind}, takes passed w p behind → IsBreak passed
  exists_read : ∀ {passed w p behind}, takes passed w p behind → ∃ n r,
    run? isWordChar (w ++ behind) = some (n, r) ∧ (f n).read? r ≠ none
  apart : ∀ {passed w p behind}, takes passed w p behind →
    IsBreak w ∨ ∀ c ∈ behind.head?, isWordChar c = false

variable {f : WordRule β} {render : β → Text}

/-- Inside a word run nothing is taken. -/
theorem Follows.skip_word (h : Follows takes written f render) {c : Char} (hc : isWordChar c = true)
    (hw : ∀ x ∈ w, isWordChar x = true) (hscan : Scan takes (passed ++ c :: w) r ps) :
    Scan takes (passed ++ [c]) (w ++ r) (w.map (fun x => .plain [x]) ++ ps) := by
  induction w generalizing passed c with
  | nil => exact hscan
  | cons x w ih =>
      refine .skip (fun v p behind _ taken => ?_) ?_
      · have := h.isBreak taken c (by simp)
        rw [hc] at this
        cases this
      · refine ih (hw x (by simp)) (fun y hy => hw y (by simp [hy])) ?_
        rwa [List.append_assoc]

theorem writeAll_chars (written : α → Text) (w : Text) (ps : List (Piece α)) :
    Piece.writeAll written (w.map (fun x => .plain [x]) ++ ps) =
      w ++ Piece.writeAll written ps := by
  induction w with
  | nil => rfl
  | cons x w ih =>
      rw [List.map_cons, List.cons_append, Piece.writeAll_plain, ih]
      rfl

theorem Follows.exists_scan (h : Follows takes written f render) (passed s : Text)
    (hpassed : IsBreak passed ∨ ∀ x ∈ s.head?, isWordChar x = false) :
    ∃ ps, Scan takes passed s ps ∧ Piece.writeAll written ps = f.replaceAll render s := by
  induction s using WordRule.scan_induction f generalizing passed with
  | nil => exact ⟨[], .nil passed, by rw [WordRule.replaceAll_nil]; rfl⟩
  | read s w r b r' hw hr ih =>
      have hbreak : IsBreak passed := hpassed.resolve_right fun hs => by
        obtain ⟨x, v, rfl⟩ := List.exists_cons_of_ne_nil (run?_ne_nil hw)
        have hx := run?_all hw x (by simp)
        rw [hs x (by rw [run?_eq_append hw]; rfl)] at hx
        cases hx
      obtain ⟨v, p, rfl, taken, hp⟩ := h.takes_of_read hbreak hw hr
      obtain ⟨ps, hscan, hwrite⟩ := ih (passed ++ v) ((h.apart taken).imp_left hbreak.append)
      refine ⟨p :: ps, .take taken hscan, ?_⟩
      rw [WordRule.replaceAll_of_read hw hr, ← hwrite, ← hp]
      rfl
  | pass s w r hw hr ih =>
      obtain ⟨x, v, rfl⟩ := List.exists_cons_of_ne_nil (run?_ne_nil hw)
      have hword := run?_all hw
      obtain ⟨ps, hscan, hwrite⟩ := ih (passed ++ x :: v) (.inr (run?_head hw))
      have hskip := h.skip_word (hword x (by simp)) (fun y hy => hword y (by simp [hy])) hscan
      have hfree : ∀ u p behind, x :: (v ++ r) = u ++ behind → ¬ takes passed u p behind := by
        intro u p behind heq taken
        obtain ⟨n, r', hn, hread⟩ := h.exists_read taken
        have hs : s = u ++ behind := (run?_eq_append hw).trans heq
        rw [← hs, hw] at hn
        cases hn
        exact hread hr
      refine ⟨_, by rw [run?_eq_append hw]; exact .skip hfree hskip, ?_⟩
      · rw [Piece.writeAll_plain, writeAll_chars, hwrite, WordRule.replaceAll_of_none hw hr]
        rfl
  | other c s hc ih =>
      obtain ⟨ps, hscan, hwrite⟩ := ih (passed ++ [c]) (.inl fun x hx => by
        rw [List.getLast?_concat] at hx
        rwa [← Option.some.inj hx])
      have hfree : ∀ u p behind, c :: s = u ++ behind → ¬ takes passed u p behind := by
        intro u p behind heq taken
        obtain ⟨n, r', hn, -⟩ := h.exists_read taken
        rw [← heq, run?_eq_none_iff.2 (by simpa using hc)] at hn
        cases hn
      refine ⟨_, .skip hfree hscan, ?_⟩
      · rw [Piece.writeAll_plain, hwrite, WordRule.replaceAll_cons_of_not_isWordChar s hc]
        rfl

/-- What a word rule writes is the replacement of what it takes. -/
theorem Follows.isReplaced (h : Follows takes written f render) (hd : Determined takes typed)
    (s : Text) : IsReplaced takes typed written s (f.replaceAll render s) := by
  obtain ⟨ps, hscan, hwrite⟩ := h.exists_scan [] s (.inl isBreak_nil)
  refine ⟨ps, fun ps' => ⟨fun hscan' => hscan'.eq hd hscan, ?_⟩, hscan.writeAll_typed hd,
    hwrite.symm⟩
  rintro rfl
  exact hscan

end CalcTypeset.Located
