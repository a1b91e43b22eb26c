import CalcTypeset.Fraction.Argument
import CalcTypeset.Proofs.Located.Loop
import CalcTypeset.Proofs.Located.Place
import CalcTypeset.Proofs.Site

/-!
# The outermost calls with a slash

Which arguments are rewritten is told here by the given text alone: those of the closed calls that
stand in no other closed call and hold a slash. A call that is not closed plays no part in this, so
it hides nothing.

The scan enters an argument without a slash, which does no harm: no call in it has a slash either.
It does not enter an argument that it rewrites, and so it passes over the calls that begin there,
which end there too. So a call at which the scan arrives is in no call with a slash, and of the
calls behind it none is left out.
-/

namespace CalcTypeset.Located

open Text CalcTypeset.Bracket
open Fraction (slashedCall rewriteArgument rewriteArguments)

/-- The call stands in no other closed call of the text: none begins before it and ends behind
it. -/
def IsOutermost (s before : Text) (c : Call) (behind : Text) : Prop :=
  IsCallAt s before c behind ∧ ∀ before' c' behind', IsCallAt s before' c' behind' →
    before'.length < before.length → ¬ behind'.length < behind.length

/-- Of the pieces of a text, the site `a` stands between `before` and `behind`. -/
def StandsAt {α : Type} (typed : α → Text) (ps : List (Piece α)) (before : Text) (a : α)
    (behind : Text) : Prop :=
  ∃ l r, ps = l ++ .site a :: r ∧ Piece.writeAll typed l = before ∧
    Piece.writeAll typed r = behind

variable {s u v w r before behind b e : Text} {c c' : Call}

section

variable {α : Type} {typed : α → Text} {ps : List (Piece α)} {a a' : α}

theorem not_standsAt_nil : ¬ StandsAt typed [] before a behind := by
  intro h
  obtain ⟨l, r, h, _⟩ := h
  cases l <;> cases h

theorem standsAt_plain_iff {t : Text} : StandsAt typed (.plain t :: ps) before a behind ↔
    ∃ b, before = t ++ b ∧ StandsAt typed ps b a behind := by
  constructor
  · intro h
    obtain ⟨l, r, h, hl, hr⟩ := h
    cases l with
    | nil => cases h
    | cons p l =>
        obtain ⟨rfl, hps⟩ := List.cons.inj h
        exact ⟨_, by rw [← hl, Piece.writeAll_plain], l, r, hps, rfl, hr⟩
  · intro h
    obtain ⟨b, hb, l, r, h, hl, hr⟩ := h
    exact ⟨.plain t :: l, r, by rw [h, List.cons_append], by rw [Piece.writeAll_plain, hl, hb], hr⟩

theorem standsAt_site_iff : StandsAt typed (.site a' :: ps) before a behind ↔
    (before = [] ∧ a = a' ∧ behind = Piece.writeAll typed ps) ∨
      ∃ b, before = typed a' ++ b ∧ StandsAt typed ps b a behind := by
  constructor
  · intro h
    obtain ⟨l, r, h, hl, hr⟩ := h
    cases l with
    | nil =>
        obtain ⟨ha, rfl⟩ := List.cons.inj h
        cases ha
        exact .inl ⟨hl.symm, rfl, hr.symm⟩
    | cons p l =>
        obtain ⟨rfl, hps⟩ := List.cons.inj h
        exact .inr ⟨_, by rw [← hl, Piece.writeAll_site], l, r, hps, rfl, hr⟩
  · intro h
    rcases h with ⟨rfl, rfl, rfl⟩ | ⟨b, hb, l, r, h, hl, hr⟩
    · exact ⟨[], ps, rfl, rfl, rfl⟩
    · exact ⟨.site a' :: l, r, by rw [h, List.cons_append], by rw [Piece.writeAll_site, hl, hb],
        hr⟩

end

/-! ## Calls of a text and of its end -/

/-- A place that is not in front of the cut lies behind it. -/
theorem exists_append (heq : u ++ v = b ++ w) (hle : u.length ≤ b.length) :
    ∃ x, b = u ++ x ∧ v = x ++ w := by
  obtain ⟨x, rfl⟩ := List.prefix_of_prefix_length_le (List.prefix_append u v)
    (heq ▸ List.prefix_append b w) hle
  rw [List.append_assoc] at heq
  exact ⟨x, rfl, List.append_cancel_left heq⟩

theorem IsCallAt.suffix (h : IsCallAt s before c behind) : behind <:+ s :=
  ⟨before ++ c.write, by rw [h.1, List.append_assoc]⟩

theorem IsCallAt.ne_nil (h : IsCallAt s before c behind) : s ≠ [] := by
  rw [h.1, Call.write]
  simp [h.2.name_ne_nil]

/-- The calls behind a cut are those of the text behind it, when no word run crosses the cut. -/
theorem isCallAt_append_iff (hu : IsBreak u ∨ ∀ x ∈ v.head?, isWordChar x = false) :
    IsCallAt (u ++ v) (u ++ before) c behind ↔ IsCallAt v before c behind := by
  constructor
  · intro h
    obtain ⟨heq, h⟩ := h
    rw [List.append_assoc] at heq
    refine ⟨List.append_cancel_left heq, h.name_ne_nil, h.isWord, fun x hx => ?_, h.isBalanced⟩
    exact h.isBreak x (by rw [List.getLast?_append, Option.mem_def.1 hx, Option.some_or]; rfl)
  · intro h
    obtain ⟨heq, h⟩ := h
    refine ⟨by rw [heq, List.append_assoc], h.name_ne_nil, h.isWord, ?_, h.isBalanced⟩
    cases before with
    | nil =>
        rw [List.append_nil]
        refine hu.resolve_right fun hv => ?_
        obtain ⟨x, hx, hword⟩ := h.head? behind
        rw [List.nil_append] at heq
        rw [hv x (by rwa [heq])] at hword
        cases hword
    | cons y before =>
        intro x hx
        rw [List.getLast?_append_of_ne_nil _ (by simp)] at hx
        exact h.isBreak x hx

/-- A call behind a cut is outermost when it is so in the text behind the cut, unless a call that
begins in front of the cut holds it. -/
theorem isOutermost_append_iff (hu : IsBreak u ∨ ∀ x ∈ v.head?, isWordChar x = false)
    (hfirst : IsCallAt v before c behind → ∀ b c' e, IsCallAt (u ++ v) b c' e →
      b.length < u.length → ¬ e.length < behind.length) :
    IsOutermost (u ++ v) (u ++ before) c behind ↔ IsOutermost v before c behind := by
  constructor
  · intro h
    obtain ⟨h, hout⟩ := h
    refine ⟨(isCallAt_append_iff hu).1 h, fun b c' e h' hlt => ?_⟩
    exact hout (u ++ b) c' e ((isCallAt_append_iff hu).2 h') (by simpa using hlt)
  · intro h
    obtain ⟨h, hout⟩ := h
    refine ⟨(isCallAt_append_iff hu).2 h, fun b c' e h' hlt => ?_⟩
    by_cases hb : b.length < u.length
    · exact hfirst h b c' e h' hb
    · obtain ⟨x, rfl, -⟩ := exists_append h'.1 (Nat.le_of_not_lt hb)
      exact hout x c' e ((isCallAt_append_iff hu).1 h') (by simpa using hlt)

/-- A call that begins in the first word run of a text begins with it. -/
theorem IsCallAt.eq_nil_of_lt (h : IsCallAt s b c e) (hw : run? isWordChar s = some (w, r))
    (hlt : b.length < w.length) : b = [] := by
  have hfront : b <+: w := List.prefix_of_prefix_length_le
    (h.1 ▸ List.prefix_append b _) (run?_eq_append hw ▸ List.prefix_append w r) (Nat.le_of_lt hlt)
  rcases List.eq_nil_or_concat b with hb | ⟨v, x, hb⟩
  · exact hb
  · have hx := run?_all hw x (hfront.subset (by simp [hb]))
    rw [h.2.isBreak x (by simp [hb])] at hx
    cases hx

/-- The call at the beginning of a text has the first word run for its name, and a group behind
it. -/
theorem IsCallAt.read? (h : IsCallAt s [] c e) (hw : run? isWordChar s = some (w, r)) :
    c.name = w ∧ group.read? r = some (c.content, e) := by
  have hrun := h.2.run? e
  rw [← List.nil_append (c.write ++ e), ← h.1, hw] at hrun
  obtain ⟨rfl, rfl⟩ := Prod.mk.inj (Option.some.inj hrun)
  exact ⟨rfl, h.2.read?_group e⟩

/-- What is in a call is in the first call of the text, unless it ends behind that one. -/
theorem IsCallAt.mem_write (h : IsCallAt s [] c e) (h' : IsCallAt s b c' behind)
    (hle : e.length ≤ behind.length) {x : Char} (hx : x ∈ c'.write) : x ∈ c.write := by
  obtain ⟨y, rfl⟩ := List.suffix_of_suffix_length_le h.suffix h'.suffix hle
  have heq : c.write ++ e = (b ++ (c'.write ++ y)) ++ e := by
    simpa using h.1.symm.trans h'.1
  rw [List.append_cancel_right heq]
  simp [hx]

/-- Of the calls that begin in the first call of a text, all but that call itself end inside it. -/
theorem IsCallAt.begins_first (h : IsCallAt s [] c v) (h' : IsCallAt s b c' e)
    (hlt : b.length < c.write.length) :
    b = [] ∧ c' = c ∧ e = v ∨ b ≠ [] ∧ v.length < e.length := by
  by_cases hb : b = []
  · subst hb
    obtain ⟨hcall, hbehind⟩ := h'.2.eq_of_append_eq h.2 (h'.1.symm.trans h.1)
    exact .inl ⟨rfl, hcall, hbehind⟩
  · exact .inr ⟨hb, ends_inside h.2 h'.2 (h.1.symm.trans h'.1) hb hlt⟩

/-- A slash of a call stands in its content. -/
theorem IsClosedAfter.mem_slash (h : IsClosedAfter before c) (hc : '/' ∈ c.write) :
    '/' ∈ c.content := by
  have hname : '/' ∉ c.name := fun hmem => by
    have := h.isWord _ hmem
    rw [isWordChar_eq_false (by decide)] at this
    cases this
  simpa [Call.write, Markup.parenthesised, hname] using hc

/-! ## The outermost calls, from the front of the text -/

/-- The first call of a text is outermost, and all others that are so stand behind it. -/
theorem isOutermost_first_iff (hfirst : IsCallAt s [] c' v) : IsOutermost s before c behind ↔
    (before = [] ∧ c = c' ∧ behind = v) ∨
      ∃ b, before = c'.write ++ b ∧ IsOutermost v b c behind := by
  have hs : s = c'.write ++ v := hfirst.1
  have hbehind : ∀ b, IsOutermost s (c'.write ++ b) c behind ↔ IsOutermost v b c behind := by
    intro b
    rw [hs]
    refine isOutermost_append_iff (.inl (isBreak_write c')) fun h b' d e h' hlt hends => ?_
    have hle := h.suffix.length_le
    rw [← hs] at h'
    rcases hfirst.begins_first h' hlt with ⟨-, -, rfl⟩ | ⟨-, hlonger⟩
    · omega
    · omega
  constructor
  · intro hout
    by_cases hlt : before.length < c'.write.length
    · rcases hfirst.begins_first hout.1 hlt with h | ⟨hne, hends⟩
      · exact .inl h
      · exact absurd hends (hout.2 [] c' v hfirst (List.length_pos_iff.2 hne))
    · obtain ⟨b, rfl, -⟩ := exists_append (hs ▸ hout.1.1) (Nat.le_of_not_lt hlt)
      exact .inr ⟨b, rfl, (hbehind b).1 hout⟩
  · intro h
    rcases h with ⟨rfl, rfl, rfl⟩ | ⟨b, rfl, hb⟩
    · exact ⟨hfirst, fun _ _ _ _ hlt => absurd hlt (Nat.not_lt_zero _)⟩
    · exact (hbehind b).2 hb

/-- Behind the first word run, the outermost calls with a slash are those of the rest, unless the
text begins with such a call: a call without a slash holds none that has one. -/
theorem isOutermost_word_iff (hw : run? isWordChar s = some (w, r)) (hc : '/' ∈ c.content)
    (hnone : ∀ c' e, IsCallAt s [] c' e → '/' ∉ c'.content) :
    IsOutermost s before c behind ↔ ∃ b, before = w ++ b ∧ IsOutermost r b c behind := by
  have hs := run?_eq_append hw
  have hbreak : IsBreak w ∨ ∀ x ∈ r.head?, isWordChar x = false := .inr (run?_head hw)
  have hbehind : ∀ b, IsOutermost s (w ++ b) c behind ↔ IsOutermost r b c behind := by
    intro b
    rw [hs]
    refine isOutermost_append_iff hbreak fun h b' c' e h' hlt hends => ?_
    have h := (isCallAt_append_iff hbreak).2 h
    rw [← hs] at h h'
    obtain rfl := h'.eq_nil_of_lt hw hlt
    refine hnone c' e h' (h'.2.mem_slash (h'.mem_write h (Nat.le_of_lt hends) ?_))
    simp [Call.write, Markup.parenthesised, hc]
  constructor
  · intro hout
    by_cases hlt : before.length < w.length
    · obtain rfl := hout.1.eq_nil_of_lt hw hlt
      exact absurd hc (hnone c behind hout.1)
    · obtain ⟨b, rfl, -⟩ := exists_append (hs ▸ hout.1.1) (Nat.le_of_not_lt hlt)
      exact ⟨b, rfl, (hbehind b).1 hout⟩
  · intro h
    obtain ⟨b, rfl, hb⟩ := h
    exact (hbehind b).2 hb

/-- No call begins with another character than a word character. -/
theorem isOutermost_cons_iff {x : Char} (hx : isWordChar x = false) :
    IsOutermost (x :: s) before c behind ↔ ∃ b, before = x :: b ∧ IsOutermost s b c behind := by
  have hne : ∀ b c' e, IsCallAt (x :: s) b c' e → b ≠ [] := by
    intro b c' e h' hb
    rw [hb] at h'
    obtain ⟨y, hy, hword⟩ := h'.2.head? e
    rw [← List.nil_append (c'.write ++ e), ← h'.1] at hy
    rw [← Option.some.inj hy, hx] at hword
    cases hword
  have hbreak : IsBreak [x] := fun y hy => by rwa [← Option.some.inj hy]
  have hbehind : ∀ b, IsOutermost (x :: s) (x :: b) c behind ↔ IsOutermost s b c behind := by
    intro b
    refine isOutermost_append_iff (u := [x]) (.inl hbreak) fun _ b' c' e h' hlt => ?_
    exact absurd (List.length_eq_zero_iff.1 (Nat.lt_one_iff.1 hlt)) (hne b' c' e h')
  constructor
  · intro hout
    obtain ⟨y, b, rfl⟩ := List.exists_cons_of_ne_nil (hne before c behind hout.1)
    obtain ⟨rfl, -⟩ := List.cons.inj hout.1.1
    exact ⟨b, rfl, (hbehind b).1 hout⟩
  · intro h
    obtain ⟨b, rfl, hb⟩ := h
    exact (hbehind b).2 hb

/-! ## The scan -/

theorem slashedCall_read?_eq_some_iff : (slashedCall w).read? r = some (c, e) ↔
    c.name = w ∧ '/' ∈ c.content ∧ group.read? r = some (c.content, e) := by
  obtain ⟨name, content⟩ := c
  simp only [slashedCall, Recogniser.read?_map, Recogniser.read?_filter, Option.map_eq_some_iff,
    Option.filter_eq_some_iff, Prod.exists, Prod.mk.injEq, Call.mk.injEq]
  constructor
  · intro h
    obtain ⟨t, r', ⟨hgroup, hslash⟩, ⟨hname, ht⟩, hr⟩ := h
    rw [← ht, ← hr]
    exact ⟨hname.symm, List.contains_iff_mem.1 hslash, hgroup⟩
  · intro h
    obtain ⟨hname, hslash, hgroup⟩ := h
    exact ⟨content, e, ⟨hgroup, List.contains_iff_mem.2 hslash⟩, ⟨hname.symm, rfl⟩, rfl⟩

/-- The pieces of the scan make up the text. -/
theorem writeAll_pieces (s : Text) : Piece.writeAll Call.write (slashedCall.pieces s) = s := by
  have hcongr : Text.Congruence fun s s' => s' = s :=
    ⟨fun _ => rfl, fun hs ht => by rw [hs, ht]⟩
  exact WordRule.replaceAll_rel hcongr Fraction.meets_slashedCall
    (fun _ _ _ _ _ _ h => h.1.symm) s

/-- The sites of the scan are the outermost calls with a slash, at their places. -/
theorem standsAt_pieces_iff (s before : Text) (c : Call) (behind : Text) :
    StandsAt Call.write (slashedCall.pieces s) before c behind ↔
      IsOutermost s before c behind ∧ '/' ∈ c.content := by
  induction s using WordRule.scan_induction slashedCall generalizing before with
  | nil =>
      rw [WordRule.pieces_nil]
      exact ⟨fun h => absurd h not_standsAt_nil, fun h => absurd rfl h.1.1.ne_nil⟩
  | read s w r a r' hw hr ih =>
      obtain ⟨rfl, hslash, hgroup⟩ := slashedCall_read?_eq_some_iff.1 hr
      have hfirst : IsCallAt s [] a r' := IsClosedAfter.of_read hw hgroup isBreak_nil
      rw [WordRule.pieces_of_read slashedCall hw hr, standsAt_site_iff, writeAll_pieces,
        isOutermost_first_iff hfirst]
      simp only [ih]
      constructor
      · intro h
        rcases h with h | ⟨b, hb, hout, hc⟩
        · exact ⟨.inl h, by rwa [h.2.1]⟩
        · exact ⟨.inr ⟨b, hb, hout⟩, hc⟩
      · intro h
        obtain ⟨h | ⟨b, hb, hout⟩, hc⟩ := h
        · exact .inl h
        · exact .inr ⟨b, hb, hout, hc⟩
  | pass s w r hw hr ih =>
      have hnone : ∀ c' e, IsCallAt s [] c' e → '/' ∉ c'.content := by
        intro c' e h' hslash
        obtain ⟨hname, hgroup⟩ := h'.read? hw
        rw [slashedCall_read?_eq_some_iff.2 ⟨hname, hslash, hgroup⟩] at hr
        cases hr
      rw [WordRule.pieces_of_none slashedCall hw hr, standsAt_plain_iff]
      by_cases hc : '/' ∈ c.content
      · simp only [ih, isOutermost_word_iff hw hc hnone, hc, and_true]
      · simp only [ih, hc, and_false, exists_false]
  | other x s hx ih =>
      rw [WordRule.pieces_cons_of_not_isWordChar slashedCall s hx, standsAt_plain_iff]
      simp only [ih, isOutermost_cons_iff hx, List.singleton_append, ← and_assoc, exists_and_right]

/-! ## The loop -/

/-- The loop over the calls of a text that rewrites their arguments. Of a call that is not closed,
and of one without a slash, only the name and its parenthesis are left behind. -/
def argumentLoop (style : CallStyle) : Loop Text :=
  .ofWords fun name inside =>
    match closing? 0 inside with
    | none => (name ++ ['('], inside)
    | some (t, rest) =>
        if '/' ∈ t then (Call.write ⟨name, rewriteArgument style t⟩, rest)
        else (name ++ ['('], inside)

theorem computes_argumentLoop (style : CallStyle) :
    (argumentLoop style).Computes fun _ => rewriteArguments style := by
  refine Loop.computes_ofWords (fun w r hr => ?_) (fun w r => ?_) fun s w r hw => ?_
  · obtain ⟨x, hx⟩ := Option.ne_none_iff_exists'.1 hr
    obtain ⟨-, -, hgroup⟩ := slashedCall_read?_eq_some_iff.1 hx
    rw [(group?_eq_some_iff.1 hgroup).1]
    rfl
  · split
    · exact List.suffix_refl r
    · next t rest hclosing =>
        split
        · exact suffix_of_closing? hclosing
        · exact List.suffix_refl r
  · have hnone : (∀ t rest, closing? 0 r = some (t, rest) → '/' ∉ t) →
        (slashedCall w).read? ('(' :: r) = none := by
      intro h
      rw [Option.eq_none_iff_forall_ne_some]
      intro x hx
      obtain ⟨-, hslash, hgroup⟩ := slashedCall_read?_eq_some_iff.1 hx
      exact h _ _ hgroup hslash
    split
    · next hclosing =>
        exact Loop.replaceAll_opening hw (hnone fun t rest h => by rw [hclosing] at h; cases h)
    · next t rest hclosing =>
        split
        · next hslash =>
            have hread : (slashedCall w).read? ('(' :: r) = some (⟨w, t⟩, rest) :=
              slashedCall_read?_eq_some_iff.2 ⟨rfl, hslash, hclosing⟩
            exact WordRule.replaceAll_of_read hw hread
        · next hslash =>
            refine Loop.replaceAll_opening hw (hnone fun t' rest' h => ?_)
            rw [hclosing] at h
            cases h
            exact hslash

/-- The arguments with a slash of the outermost closed calls are rewritten, and nothing else is
changed. The loop that does so ends, after at most as many turns as the text has opening
parentheses. -/
theorem rewriteArguments_outermost (style : CallStyle) (s : Text) :
    (∃ ps : List (Piece Call), Piece.writeAll Call.write ps = s ∧
      rewriteArguments style s =
        Piece.writeAll (fun c => Call.write ⟨c.name, rewriteArgument style c.content⟩) ps ∧
      ∀ before c behind, StandsAt Call.write ps before c behind ↔
        IsOutermost s before c behind ∧ '/' ∈ c.content) ∧
      ∃ n ≤ s.count '(', (argumentLoop style).Ends n [] s (rewriteArguments style s) :=
  ⟨⟨slashedCall.pieces s, writeAll_pieces s, rfl, standsAt_pieces_iff s⟩,
    (computes_argumentLoop style).ends [] s⟩

/-- A call that is not closed hides none behind its parenthesis. -/
example : rewriteArguments .asTyped "g(f(a/b)+h(c)".toList =
    "g(f(\\frac\x7ba\x7d\x7bb\x7d)+h(c)".toList := by decide +kernel

end CalcTypeset.Located
