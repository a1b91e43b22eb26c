import CalcTypeset.Proofs.Operands.SetOff

/-!
# Where commands are not cut

The ends of a site, and those of what is written for it, stand at characters that are in no command:
at a bracket, at a blank, or at a character that ends a term. Only a site that begins with the name
of a call may have a backslash in front of it, and there the commands must be set off.
-/

namespace CalcTypeset

open Text Operands

variable {s s₀ : Text}

namespace Operands

theorem isLower_of_isBlank {c : Char} (h : isBlank c = true) : c.isLower = false := by
  cases hc : c.isLower with
  | false => rfl
  | true =>
      have hname : Variable.isNameChar c = true := by
        simp [Variable.isNameChar, Char.isAlphanum, isAlpha_of_isLower hc]
      rw [Fraction.isBlank_of_isTermChar (Fraction.isTermChar_of_isNameChar hname)] at h
      cases h

theorem isTermChar_of_isLower {c : Char} (h : c.isLower = true) :
    Fraction.isTermChar c = true :=
  Fraction.isTermChar_of_isNameChar
    (by simp [Variable.isNameChar, Char.isAlphanum, isAlpha_of_isLower h])

/-- The last character of what is read of a command. -/
theorem last_of_beginning {k : Text × Text} (hk : k ∈ commands) {y z : Text} (hy : y ≠ [])
    (hsplit : k.1 = y ++ z) {c : Char} (hc : y.getLast? = some c) :
    (c = '\\' ∧ y = ['\\']) ∨ c.isLower = true := by
  obtain ⟨l, hl, hlower⟩ := exists_letters hk
  obtain ⟨a, y, rfl⟩ := List.exists_cons_of_ne_nil hy
  rw [hl, List.cons_append] at hsplit
  obtain ⟨rfl, rfl⟩ := List.cons.inj hsplit
  cases y with
  | nil => exact .inl ⟨by simpa using hc.symm, rfl⟩
  | cons b y =>
      refine .inr (hlower c (List.mem_append_left z ?_))
      rw [List.getLast?_cons_cons] at hc
      exact List.mem_of_mem_getLast? hc

/-- Behind a character that is no part of a term no command goes on. -/
theorem isCut_of_last_not_isTermChar {u v : Text}
    (h : ∀ c ∈ u.getLast?, Fraction.isTermChar c = false) : IsCut u v := by
  refine isCut_of_last (fun c hc => ⟨?_, ?_⟩) v
  · rintro rfl
    exact absurd (h _ hc) (by decide)
  · exact Bool.eq_false_iff.2 fun hlower => by
      have := h c hc
      rw [isTermChar_of_isLower hlower] at this
      cases this

/-- Letters in front of another character belong to what stands before it. -/
theorem prefix_letters {z n r : Text} {x : Char} (hz : ∀ c ∈ z, c.isLower = true)
    (hx : x.isLower = false) (h : z <+: n ++ x :: r) : z <+: n := by
  induction n generalizing z with
  | nil =>
      cases z with
      | nil => exact List.prefix_refl []
      | cons c z =>
          have := hz c (by simp)
          rw [(List.cons_prefix_cons.1 h).1, hx] at this
          cases this
  | cons y n ih =>
      cases z with
      | nil => exact List.nil_prefix
      | cons c z =>
          obtain ⟨hcy, hzn⟩ := List.cons_prefix_cons.1 h
          exact List.cons_prefix_cons.2 ⟨hcy, ih (fun c hc => hz c (by simp [hc])) hzn⟩

/-- Only the letters count with which a text begins. -/
theorem IsCut.of_letters {u n v w r r' : Text} {x : Char} (h : IsCut u (n ++ r)) (hv : v <+: n)
    (hx : x.isLower = false) (hw : w = v ++ x :: r') : IsCut u w := by
  rintro k hk y z hy hz hsplit hsuffix hprefix
  obtain ⟨l, hl, hletters⟩ := exists_letters hk
  obtain ⟨a, y, rfl⟩ := List.exists_cons_of_ne_nil hy
  have hlower : ∀ c ∈ z, c.isLower = true := fun c hc => hletters c (by
    rw [hl, List.cons_append] at hsplit
    rw [(List.cons.inj hsplit).2]
    exact List.mem_append_right y hc)
  have hzv := prefix_letters hlower hx (hw ▸ hprefix)
  exact h k hk (a :: y) z hy hz hsplit hsuffix
    (hzv.trans (hv.trans (List.prefix_append n r)))

/-- A call begins behind a character that is no part of its name. That may be a backslash, but then
its name is no rest of a command, since a command is set off. -/
theorem isCut_call {u n r : Text} (hset : IsSetOff s₀)
    (hu : ∀ c ∈ u.getLast?, isWordChar c = false)
    (hsuffix : u.getLast?.toList ++ (n ++ '(' :: r) <:+ s₀)
    (hn : ∀ c ∈ n, isWordChar c = true) (r' : Text) : IsCut u (n ++ '(' :: r') := by
  rintro k hk y z hy hz hsplit ⟨p, rfl⟩ hprefix
  obtain ⟨c, hc⟩ := Option.ne_none_iff_exists'.1 (mt List.getLast?_eq_none_iff.1 hy)
  have hlast : (p ++ y).getLast? = some c := by rw [List.getLast?_append, hc]; rfl
  rcases last_of_beginning hk hy hsplit hc with ⟨rfl, rfl⟩ | hlower
  · -- The rest of the command is the beginning of the name.
    obtain ⟨l, hl, hletters⟩ := exists_letters hk
    rw [hl] at hsplit
    obtain ⟨-, rfl⟩ := List.cons.inj hsplit
    obtain ⟨m, rfl⟩ := prefix_letters hletters (by decide) hprefix
    rw [hlast, Option.toList_some, List.append_assoc] at hsuffix
    cases m with
    | nil => exact (hset.not_followed hk (by rw [hl]; exact hsuffix)).2 rfl
    | cons x m =>
        have := (hset.not_followed (c := x) hk (by rw [hl]; exact hsuffix)).1
        rw [hn x (by simp)] at this
        cases this
  · have := hu c hlast
    rw [isWordChar_of_isLower hlower] at this
    cases this

theorem isCut_of_beginsAt {before : Option Char} {u t : Text} (hset : IsSetOff s₀)
    (hbegins : ∀ c ∈ before, Fraction.BeginsAt c t) (hsuffix : before.toList ++ t <:+ s₀)
    (hu : u.getLast? = before) : IsCut u t := by
  match before, hu with
  | none, hu => rw [List.getLast?_eq_none_iff.1 hu]; exact isCut_of_last (by simp) t
  | some c, hu =>
      rcases hbegins c rfl with hterm | hhead | ⟨hword, n, r, rfl, -, hn⟩
      · exact isCut_of_last_not_isTermChar fun x hx => by
          rw [hu] at hx; obtain rfl := Option.some.inj hx; exact hterm
      · exact isCut_of_head (fun x hx => by
          rw [hhead] at hx; obtain rfl := Option.some.inj hx; rfl) u
      · exact isCut_call hset (fun x hx => by
          rw [hu] at hx; obtain rfl := Option.some.inj hx; exact hword) (by rwa [hu]) hn r

end Operands

namespace Fraction

variable {w t r : Text}

theorem isLower_of_endsTerm (h : endsTerm r = true) : ∀ c ∈ r.head?, c.isLower = false := by
  intro c hc
  obtain ⟨r, rfl⟩ := List.head?_eq_some_iff.1 hc
  cases hb : isBlank c with
  | true => exact isLower_of_isBlank hb
  | false =>
      rw [endsTerm, skipBlanks_cons_of_not_isBlank r hb] at h
      simp only [Bool.or_eq_true, decide_eq_true_eq, startsWith_iff] at h
      rcases h with ((rfl | rfl) | rfl) | ⟨x, hx⟩
      · rfl
      · rfl
      · rfl
      · obtain rfl : c = '\\' := (List.cons.inj hx).1
        rfl

theorem EndsClear.isCut (h : EndsClear w r) : IsCut w r := by
  rcases h with h | h | h | h
  · exact isCut_of_getLast? h (by decide) r
  · exact isCut_of_getLast? h (by decide) r
  · refine isCut_of_head (fun c hc => Bool.eq_false_iff.2 fun hlower => ?_) w
    have := h c hc
    rw [isTermChar_of_isLower hlower] at this
    cases this
  · exact isCut_of_head (isLower_of_endsTerm h) w

theorem isCut_close {c : Char} (hc : c.isLower = false) (s r : Text) : IsCut s (c :: r) :=
  isCut_of_head (fun x hx => by obtain rfl := Option.some.inj hx; exact hc) s

/-- A slash and the blanks around it are in no command. -/
theorem IsSlash.isSeparator {g : Text} (h : IsSlash g) :
    ∀ c ∈ g, (Operands.isSeparator c = true ∧ c ≠ '\\') ∧ c.isLower = false := by
  obtain ⟨b, b', rfl, hb, hb'⟩ := h
  intro c hc
  rcases List.mem_append.1 hc with hc | hc
  · exact ⟨isSeparator_of_isBlank (hb c hc), isLower_of_isBlank (hb c hc)⟩
  · rcases List.mem_cons.1 hc with rfl | hc
    · decide
    · exact ⟨isSeparator_of_isBlank (hb' c hc), isLower_of_isBlank (hb' c hc)⟩

theorem IsSlash.isCut {g : Text} (h : IsSlash g) (n d : Text) : IsCut n (g ++ d) ∧ IsCut g d := by
  obtain ⟨x, y, rfl⟩ := List.exists_cons_of_ne_nil h.ne_nil
  exact ⟨isCut_close (h.isSeparator x (by simp)).2 n _,
    isCut_of_forall (fun c hc => ⟨(h.isSeparator c hc).1.2, (h.isSeparator c hc).2⟩) d⟩

theorem isCut_write (q : Quotient) (u r : Text) :
    IsCut u (q.write ++ r) ∧ IsCut q.write r := by
  have hlast : q.write.getLast? = some '\x7d' := Sum.getLast?_frac _ _
  exact ⟨isCut_close (c := '\\') rfl u _, isCut_of_getLast? hlast (by decide) r⟩

theorem IsSite.endsClear {q : Quotient} (h : IsSite w q r) : EndsClear w r := by
  obtain ⟨n, g, d, rfl, -, -, -, -, hne, hclear⟩ := h
  have hlast : (n ++ g ++ d).getLast? = d.getLast? := by
    rw [List.getLast?_append, List.getLast?_eq_some_getLast hne, Option.some_or]
  rwa [EndsClear, hlast]

/-- No command is the beginning of another, so behind a command is a cut. -/
theorem isCut_command {k : Text × Text} (hk : k ∈ commands) (r : Text) : IsCut k.1 r := by
  have hprefix : ∀ k ∈ commands, ∀ k' ∈ commands, k.1 <+: k'.1 → k = k' := by decide
  rintro k' hk' y z hy hz hsplit hsuffix -
  obtain ⟨l, hl, hlower⟩ := exists_letters hk
  obtain ⟨l', hl', -⟩ := exists_letters hk'
  rw [hl, List.suffix_cons_iff, ← hl] at hsuffix
  rcases hsuffix with rfl | hsuffix
  · obtain rfl := hprefix k hk k' hk' ⟨z, hsplit.symm⟩
    exact hz (List.append_right_eq_self.1 hsplit.symm)
  · obtain ⟨a, y, rfl⟩ := List.exists_cons_of_ne_nil hy
    rw [hl', List.cons_append] at hsplit
    have := hlower a (hsuffix.subset (by simp))
    rw [← (List.cons.inj hsplit).1] at this
    cases this

theorem isCut_times (u r : Text) :
    IsCut u (Markup.times ++ r) ∧ IsCut Markup.times r :=
  ⟨isCut_close (c := '\\') rfl u _, isCut_of_last (by decide) r⟩

theorem isCut_star (r : Text) : IsCut ['*'] r := isCut_of_last (by decide) r

end Fraction

end CalcTypeset
