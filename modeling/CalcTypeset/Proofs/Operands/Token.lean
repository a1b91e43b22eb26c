import CalcTypeset.Proofs.Trace

/-!
# The operands of a line

What a line says apart from its layout is its text without the characters that only separate:
blanks, parentheses, braces, slashes and degree marks. The passes write three commands of their own.
A fraction's command says nothing, and the two others stand for the sign that was typed.

Commands are read from left to right, so the operands of two texts one after the other are those of
each, unless a command begins in the first and ends in the second. `IsCut` says that this is not so.
-/

namespace CalcTypeset

open Text

namespace Operands

/-- The commands that the passes write, each with the sign that it stands for. -/
def commands : List (Text × Text) :=
  [("\\frac".toList, []), (Markup.timesSign, ['*']), ("\\bmod".toList, ['%'])]

/-- A character that only separates. -/
def isSeparator (c : Char) : Bool :=
  isBlank c || c = '(' || c = ')' || c = '\x7b' || c = '\x7d' || c = '/' || c = Markup.degree

/-- Reads one of the commands as the sign that it stands for. -/
def command : Recogniser Text :=
  ((Recogniser.literal "\\frac".toList (List.cons_ne_nil _ _)).map fun _ => []).orElse
    (((Recogniser.literal Markup.timesSign Markup.timesSign_ne_nil).map fun _ => ['*']).orElse
      ((Recogniser.literal "\\bmod".toList (List.cons_ne_nil _ _)).map fun _ => ['%']))

/-- Reads a command as its sign and a separator as nothing. -/
def token : Recogniser Text := command.orElse ((Recogniser.char isSeparator).map fun _ => [])

/-- The text, read from left to right, with every command replaced by its sign and without
separators. -/
def operands (s : Text) : Text := token.replaceAll id s

/-! ## Reading -/

/-- No command begins in the first text and ends in the second. -/
def IsCut (s u : Text) : Prop :=
  ∀ k ∈ commands, ∀ y z, y ≠ [] → z ≠ [] → k.1 = y ++ z → y <:+ s → ¬ z <+: u

variable {s t u v : Text} {c : Char}

/-- A command is a backslash and small letters. -/
theorem exists_letters {k : Text × Text} (hk : k ∈ commands) :
    ∃ l, k.1 = '\\' :: l ∧ ∀ c ∈ l, c.isLower = true := by
  simp only [commands, List.mem_cons, List.not_mem_nil, or_false] at hk
  rcases hk with rfl | rfl | rfl
  · exact ⟨"frac".toList, rfl, by decide⟩
  · exact ⟨"times".toList, rfl, by decide⟩
  · exact ⟨"bmod".toList, rfl, by decide⟩

theorem isAlpha_of_isLower {c : Char} (h : c.isLower = true) : c.isAlpha = true :=
  Bool.or_eq_true_iff.2 (.inr h)

theorem isWordChar_of_isLower {c : Char} (h : c.isLower = true) : isWordChar c = true := by
  simp [isWordChar, Char.isAlphanum, isAlpha_of_isLower h]

theorem isCut_of_head (h : ∀ c ∈ u.head?, c.isLower = false) (s : Text) : IsCut s u := by
  rintro k hk y z hy hz hsplit - ⟨r, rfl⟩
  obtain ⟨l, hl, hlower⟩ := exists_letters hk
  obtain ⟨a, y, rfl⟩ := List.exists_cons_of_ne_nil hy
  obtain ⟨b, z, rfl⟩ := List.exists_cons_of_ne_nil hz
  rw [hl, List.cons_append] at hsplit
  have := hlower b (by rw [(List.cons.inj hsplit).2]; simp)
  rw [h b rfl] at this
  cases this

theorem isCut_of_last (h : ∀ c ∈ s.getLast?, c ≠ '\\' ∧ c.isLower = false) (u : Text) :
    IsCut s u := by
  rintro k hk y z hy hz hsplit ⟨p, rfl⟩ -
  obtain ⟨l, hl, hlower⟩ := exists_letters hk
  obtain ⟨c, hc⟩ := Option.ne_none_iff_exists'.1 (mt List.getLast?_eq_none_iff.1 hy)
  have hlast := h c (by rw [List.getLast?_append, hc]; rfl)
  have hmem : c ∈ k.1 := by
    rw [hsplit]; exact List.mem_append_left z (List.mem_of_mem_getLast? hc)
  rw [hl] at hmem
  rcases List.mem_cons.1 hmem with rfl | hmem
  · exact hlast.1 rfl
  · rw [hlower c hmem] at hlast
    cases hlast.2

theorem isCut_of_getLast? (hlast : s.getLast? = some c) (hc : c ≠ '\\' ∧ c.isLower = false)
    (u : Text) : IsCut s u :=
  isCut_of_last (fun x hx => by obtain rfl := Option.some.inj (hlast.symm.trans hx); exact hc) u

theorem isCut_of_forall (h : ∀ c ∈ s, c ≠ '\\' ∧ c.isLower = false) (u : Text) : IsCut s u :=
  isCut_of_last (fun c hc => h c (List.mem_of_mem_getLast? hc)) u

theorem IsCut.of_suffix (h : IsCut s u) (ht : t <:+ s) : IsCut t u :=
  fun k hk y z hy hz hsplit hsuffix => h k hk y z hy hz hsplit (hsuffix.trans ht)

/-- A command is read in front of a cut as it is on its own. -/
theorem localAt_command {lit x : Text} {hne : lit ≠ []} (hk : (lit, x) ∈ commands)
    (hcut : IsCut t u) (ht : t ≠ []) : (Recogniser.literal lit hne).LocalAt u t := by
  cases h : (Recogniser.literal lit hne).read? (t ++ u) with
  | some a =>
      obtain ⟨_, r⟩ := a
      have hsplit := Recogniser.read?_literal_eq_some_iff.1 h
      rcases List.append_eq_append_iff.1 hsplit with ⟨z, rfl, rfl⟩ | ⟨z, rfl, rfl⟩
      · by_cases hz : z = []
        · subst hz
          have hread : (Recogniser.literal (t ++ []) hne).read? t = some ((), []) :=
            Recogniser.read?_literal_eq_some_iff.2 (by simp)
          rw [Recogniser.LocalAt, h, hread]
          rfl
        · exact absurd (List.prefix_append z r) (hcut _ hk t z ht hz rfl (List.suffix_refl t))
      · have hread : (Recogniser.literal lit hne).read? (lit ++ z) = some ((), z) :=
          Recogniser.read?_literal_eq_some_iff.2 rfl
        rw [Recogniser.LocalAt, h, hread]
        rfl
  | none =>
      cases hread : (Recogniser.literal lit hne).read? t with
      | none => rw [Recogniser.LocalAt, h, hread]; rfl
      | some a =>
          obtain ⟨_, r⟩ := a
          have hsome : (Recogniser.literal lit hne).read? (t ++ u) = some ((), r ++ u) :=
            Recogniser.read?_literal_eq_some_iff.2 (by
              rw [Recogniser.read?_literal_eq_some_iff.1 hread, List.append_assoc])
          rw [h] at hsome
          cases hsome

theorem localAt_token (hcut : IsCut t u) (ht : t ≠ []) : token.LocalAt u t := by
  refine Recogniser.LocalAt.orElse ?_ ?_
  · exact ((localAt_command (x := []) (by simp [commands]) hcut ht).map _).orElse
      (((localAt_command (x := ['*']) (by simp [commands]) hcut ht).map _).orElse
        ((localAt_command (x := ['%']) (by simp [commands]) hcut ht).map _))
  · obtain ⟨c, t, rfl⟩ := List.exists_cons_of_ne_nil ht
    refine Recogniser.LocalAt.map ?_ _
    cases hc : isSeparator c <;> simp [Recogniser.LocalAt, Recogniser.char, hc]

theorem meets_token : token.Meets fun _ _ _ => True := by
  refine ((((Recogniser.meets_literal _ _).map _).orElse
    (((Recogniser.meets_literal _ _).map _).orElse
      ((Recogniser.meets_literal _ _).map _))).orElse
    ((Recogniser.meets_char isSeparator).map _)).mono ?_
  exact fun _ _ _ _ => trivial

/-- Operands are read on either side of a cut. -/
theorem operands_append (h : IsCut s u) : operands (s ++ u) = operands s ++ operands u :=
  Recogniser.replaceAll_append (fun _ ht hsuffix => localAt_token (h.of_suffix hsuffix) ht)
    meets_token

@[simp] theorem operands_nil : operands [] = [] := token.replaceAll_nil id

/-- What is no command is read character by character. -/
theorem operands_cons (hc : c ≠ '\\') (s : Text) :
    operands (c :: s) = (if isSeparator c then [] else [c]) ++ operands s := by
  have hlit : ∀ lit hne, lit.head? = some '\\' →
      (Recogniser.literal lit hne).read? (c :: s) = none := fun lit hne hlit =>
    Recogniser.read?_literal_eq_none (by rw [hlit]; simpa using Ne.symm hc) s
  have hcommand : command.read? (c :: s) = none :=
    Recogniser.read?_orElse_eq_none (Recogniser.read?_map_eq_none (hlit _ _ rfl) _)
      (Recogniser.read?_orElse_eq_none (Recogniser.read?_map_eq_none (hlit _ _ rfl) _)
        (Recogniser.read?_map_eq_none (hlit _ _ rfl) _))
  cases hsep : isSeparator c with
  | true =>
      have hread : token.read? (c :: s) = some ([], s) := by
        rw [token, Recogniser.read?_orElse, hcommand]
        simp [Recogniser.char, hsep]
      rw [operands, token.replaceAll_of_read id hread]
      rfl
  | false =>
      have hread : token.read? (c :: s) = none :=
        Recogniser.read?_orElse_eq_none hcommand
          (Recogniser.read?_map_eq_none (by simp [Recogniser.char, hsep]) _)
      rw [operands, token.replaceAll_of_none id hread]
      rfl

/-- A command is read as its sign, whatever follows it. -/
theorem operands_command {k : Text × Text} (hk : k ∈ commands) (s : Text) :
    operands (k.1 ++ s) = k.2 ++ operands s := by
  have hread : token.read? (k.1 ++ s) = some (k.2, s) := by
    simp only [commands, List.mem_cons, List.not_mem_nil, or_false] at hk
    rcases hk with rfl | rfl | rfl <;> rfl
  rw [operands, token.replaceAll_of_read id hread]
  rfl

theorem operands_separators (h : ∀ c ∈ s, isSeparator c = true ∧ c ≠ '\\') (u : Text) :
    operands (s ++ u) = operands u := by
  induction s with
  | nil => rfl
  | cons c s ih =>
      rw [List.cons_append, operands_cons (h c (by simp)).2, if_pos (h c (by simp)).1,
        ih fun x hx => h x (by simp [hx])]
      rfl

theorem isSeparator_of_isBlank (h : isBlank c = true) : isSeparator c = true ∧ c ≠ '\\' := by
  refine ⟨by simp [isSeparator, h], ?_⟩
  rintro rfl
  exact absurd h (by decide)

end Operands

end CalcTypeset
