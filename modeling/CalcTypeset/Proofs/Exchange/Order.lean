import CalcTypeset.Proofs.Exchange.Typeset
import CalcTypeset.Proofs.Sum.Locality

/-!
# The order of the scans for sine and cosine

The scans for sine and cosine do not disturb each other but in one place. An argument gets a degree
mark when it has none at the time of the scan. When it has none and calls the other function, the
scan for that function brings one: if it comes first, the argument has its mark, and if it comes
second, the argument has got another one.

So the order of the two scans does not matter exactly when no outermost call of the one has an
argument without a degree mark that calls the other.
-/

namespace CalcTypeset

open Text Called Call CalcTypeset.Bracket

namespace KnownFunction

variable {f g : KnownFunction} {s t u w r a b x y : Text} {c : Char}

/-! ## Scans over parentheses -/

theorem isBalanced_typesetCalls (f : KnownFunction) (hs : IsBalanced '(' ')' s) :
    IsBalanced '(' ')' (f.typesetCalls s) :=
  (keeps_typesetCalls (k := .round) f s).isBalanced hs

/-- The scan of a text with closed parentheses goes on behind it with a new one. -/
theorem typesetCalls_append (f : KnownFunction) (hs : IsBalanced '(' ')' s)
    (hu : ∀ c ∈ u.head?, isWordChar c = false ∧ c ≠ '(') :
    f.typesetCalls (s ++ u) = f.typesetCalls s ++ f.typesetCalls u := by
  rw [typesetCalls_eq, typesetCalls_eq, typesetCalls_eq]
  refine WordRule.replaceAll_append (fun c hc => (hu c hc).1) (fun w t ht => ?_)
    fun w => (meets_closedCall f.name w).mono fun _ _ _ _ => trivial
  unfold closedCall
  split
  · exact localAt_group (.inr fun h => (hu _ h).2 rfl) fun t' ht' =>
      closing?_isSome_of_suffix hs (ht' ▸ ht)
  · rfl

/-- The scan goes into the argument of another function. -/
theorem typesetCalls_argument (hw : ∀ c ∈ w, isWordChar c = true) (hne : w ≠ f.name)
    (ha : IsBalanced '(' ')' a) (r : Text) :
    f.typesetCalls (w ++ '(' :: (a ++ ')' :: r)) =
      w ++ '(' :: (f.typesetCalls a ++ ')' :: f.typesetCalls r) := by
  have hinside : f.typesetCalls ('(' :: (a ++ ')' :: r)) =
      '(' :: (f.typesetCalls a ++ ')' :: f.typesetCalls r) := by
    rw [typesetCalls_cons f isWordChar_opening, typesetCalls_append f ha (by simp),
      typesetCalls_cons f isWordChar_closing]
  by_cases hnil : w = []
  · rw [hnil]
    exact hinside
  · have hrun : run? isWordChar (w ++ '(' :: (a ++ ')' :: r)) = some (w, '(' :: (a ++ ')' :: r)) :=
      run?_append hnil hw (by simp)
    have hnone : (closedCall f.name w).read? ('(' :: (a ++ ')' :: r)) = none := by
      rw [closedCall, if_neg hne]
      rfl
    rw [typesetCalls_of_none hrun hnone, hinside]

/-- A call of sine or cosine is typeset with its argument marked. -/
theorem typesetCalls_call (hg : g.hasTwin = true) (ha : IsBalanced '(' ')' a) (r : Text) :
    g.typesetCalls (g.name ++ '(' :: (a ++ ')' :: r)) =
      '\\' :: (g.name ++ '(' :: (markedOnce a ++ ')' :: g.typesetCalls r)) := by
  have hrun : run? isWordChar (g.name ++ '(' :: (a ++ ')' :: r)) =
      some (g.name, '(' :: (a ++ ')' :: r)) :=
    run?_append g.name_ne_nil g.isWordChar_of_mem_name (by simp)
  have hgroup : Bracket.group.read? ('(' :: (a ++ ')' :: r)) = some (a, r) :=
    group?_eq_some_iff.2 ⟨rfl, ha⟩
  have htypeset : ∀ t, g.typeset t = '\\' :: (g.name ++ '(' :: (markedOnce t ++ [')'])) := by
    intro t
    rcases (hasTwin_iff g).1 hg with rfl | rfl <;> rfl
  rw [typesetCalls_of_read hrun hgroup, htypeset]
  simp

/-! ## Degree marks -/

theorem isBalanced_markedOnce (ha : IsBalanced '(' ')' a) : IsBalanced '(' ')' (markedOnce a) := by
  unfold markedOnce
  split
  · exact ha
  · exact (Kind.depthAfter_append_of_some (k := .round) ha _).trans (by decide)

theorem degree_mem_markedOnce (t : Text) : Markup.degree ∈ markedOnce t := by
  unfold markedOnce
  split
  · next h => exact List.contains_iff_mem.1 h
  · exact List.mem_append_right _ (List.mem_singleton.2 rfl)

theorem degree_mem_typeset (hg : g.hasTwin = true) (t : Text) :
    Markup.degree ∈ g.typeset t := by
  have hinside : Markup.degree ∈ g.latex ++ Markup.parenthesised (markedOnce t) :=
    List.mem_append_right _ (.tail _ (List.mem_append_left _ (degree_mem_markedOnce t)))
  rcases (hasTwin_iff g).1 hg with rfl | rfl <;> exact hinside

/-- The scan for a function brings a degree mark when the function is called. -/
theorem degree_mem_typesetCalls_iff (hg : g.hasTwin = true)
    (hs : ∀ t, '(' :: t <:+ s → (closing? 0 t).isSome) :
    Markup.degree ∈ g.typesetCalls s ↔ Markup.degree ∈ s ∨ g ∈ calls s := by
  have hword : ∀ {v : Text}, (∀ x ∈ v, isWordChar x = true) → ∀ t,
      Markup.degree ∈ v ++ t ↔ Markup.degree ∈ t := by
    intro v hv t
    rw [List.mem_append, or_iff_right]
    intro hmem
    exact absurd (hv _ hmem) (by simp)
  induction s using WordRule.scan_induction (closedCall g.name) with
  | nil => rw [typesetCalls_nil]; simp [calls]
  | read s w r t r' hw hr ih =>
      obtain ⟨v, hv, rfl, hgroup, ht⟩ := meets_closedCall g.name w r t r' hr
      rw [closedCall, if_pos rfl] at hr
      have hcalled : g ∈ calls s := by
        rw [calls_of_run hw, hv, hgroup, ofName?_name]
        exact List.mem_append_left _ (by simp [isOpening, Markup.parenthesised])
      rw [typesetCalls_of_read hw hr]
      exact iff_of_true (List.mem_append_left _ (degree_mem_typeset hg t)) (.inr hcalled)
  | pass s w r hw hr ih =>
      have hsplit := run?_eq_append hw
      have hsuffix : r <:+ s := by
        rw [hsplit]
        exact List.suffix_append w r
      have hrest : Markup.degree ∈ g.typesetCalls r ↔ Markup.degree ∈ r ∨ g ∈ calls r :=
        ih fun t ht => hs t (ht.trans hsuffix)
      have hfree : g ∉ if isOpening r then (ofName? w).toList else [] := by
        intro hmem
        split at hmem
        · next hopening =>
            obtain ⟨t, rfl⟩ := List.head?_eq_some_iff.1 (of_decide_eq_true hopening)
            obtain ⟨y, hy⟩ := Option.isSome_iff_exists.1 (hs t hsuffix)
            have hread : Bracket.group.read? ('(' :: t) = some y := hy
            rw [closedCall, if_pos (name_of_ofName? (Option.mem_toList.1 hmem)).symm, hread] at hr
            cases hr
        · cases hmem
      rw [typesetCalls_of_none hw hr, hword (run?_all hw), hrest, calls_of_run hw, List.mem_append,
        or_iff_right hfree, hsplit, hword (run?_all hw)]
  | other c s hc ih =>
      have hrest : Markup.degree ∈ g.typesetCalls s ↔ Markup.degree ∈ s ∨ g ∈ calls s :=
        ih fun t ht => hs t (ht.trans (List.suffix_cons c s))
      have hcalls : calls (c :: s) = calls s := calledAfter_separator hc s
      rw [typesetCalls_cons g hc, List.mem_cons, hrest, List.mem_cons, hcalls, or_assoc]

/-- The mark and the scan of the argument may change places when the argument has a mark already, or
when the scan brings none. -/
theorem typesetCalls_markedOnce_iff (hg : g.hasTwin = true) (ha : IsBalanced '(' ')' a) :
    g.typesetCalls (markedOnce a) = markedOnce (g.typesetCalls a) ↔
      Markup.degree ∈ a ∨ g ∉ calls a := by
  have hmem := degree_mem_typesetCalls_iff hg fun t ht => closing?_isSome_of_suffix ha ht
  have hmark : g.typesetCalls (a ++ [Markup.degree]) = g.typesetCalls a ++ [Markup.degree] := by
    rw [typesetCalls_append g ha (by simpa using (by decide : Markup.degree ≠ '(')),
      typesetCalls_cons g Markup.isWordChar_degree, typesetCalls_nil]
  have hiff : ∀ t : Text, t.contains Markup.degree = true ↔ Markup.degree ∈ t := fun _ =>
    List.contains_iff_mem
  by_cases hin : Markup.degree ∈ a
  · rw [markedOnce, if_pos ((hiff a).2 hin), markedOnce, if_pos ((hiff _).2 (hmem.2 (.inl hin)))]
    exact iff_of_true rfl (.inl hin)
  · rw [markedOnce, if_neg (mt (hiff a).1 hin), hmark, markedOnce]
    by_cases hcalled : g ∈ calls a
    · rw [if_pos ((hiff _).2 (hmem.2 (.inr hcalled)))]
      refine iff_of_false (fun h => ?_) fun h => h.elim hin (absurd hcalled)
      have := congrArg List.length h
      simp at this
    · rw [if_neg (mt (hiff _).1 fun h => (hmem.1 h).elim hin hcalled)]
      exact iff_of_true rfl (.inr hcalled)

/-! ## Outermost calls -/

/-- Behind sine and cosine, a closed group. -/
def twinCall : WordRule (KnownFunction × Text) := fun w =>
  match (ofName? w).filter hasTwin with
  | some g => Bracket.group.map fun a => (g, a)
  | none => .never

/-- The outermost calls of sine and cosine with their arguments. -/
def twinCalls (s : Text) : List (KnownFunction × Text) := Piece.sites (twinCall.pieces s)

/-- The argument of an outermost call of sine and cosine has a degree mark, or it does not call the
other one. -/
def MarksAlike (s : Text) : Prop :=
  ∀ c ∈ twinCalls s, Markup.degree ∈ c.2 ∨ c.1.twin ∉ calls c.2

instance (s : Text) : Decidable (MarksAlike s) := List.decidableBAll _ _

theorem meets_twinCall (w : Text) : (twinCall w).Meets fun v c _ =>
    c.1.hasTwin = true ∧ w = c.1.name ∧ v = Markup.parenthesised c.2 ∧ IsBalanced '(' ')' c.2 := by
  unfold twinCall
  split
  · next g hg =>
      obtain ⟨hname, htwin⟩ := Option.filter_eq_some_iff.1 hg
      refine (meets_group.map fun a => (g, a)).mono ?_
      rintro v _ r ⟨a, ⟨rfl, ha⟩, rfl⟩
      exact ⟨htwin, (name_of_ofName? hname).symm, rfl, ha⟩
  · exact Recogniser.meets_never

theorem closedCall_read?_of_twinCall (hg : g.hasTwin = true) (h : (twinCall w).read? r = none) :
    (closedCall g.name w).read? r = none := by
  unfold closedCall
  split
  · next hw =>
      rw [twinCall, hw, ofName?_name, Option.filter_some, if_pos hg] at h
      exact Option.map_eq_none_iff.1 h
  · rfl

/-- A scan closes no group. -/
theorem closedCall_read?_typesetCalls (f : KnownFunction)
    (hr : ∀ c ∈ r.head?, isWordChar c = false) (h : (closedCall g.name w).read? r = none) :
    (closedCall g.name w).read? (f.typesetCalls r) = none := by
  unfold closedCall at h ⊢
  split
  · next hw =>
      rw [if_pos hw] at h
      cases r with
      | nil => rw [typesetCalls_nil]; rfl
      | cons c r =>
          rw [typesetCalls_cons f (hr c rfl)]
          by_cases hc : c = '('
          · subst hc
            obtain ⟨e, he⟩ := closing?_eq_none_iff.1 h
            exact closing?_eq_none_iff.2 ⟨e, keeps_typesetCalls f r 0 e he⟩
          · show group? (c :: f.typesetCalls r) = none
            simp [group?, hc]
  · rfl

theorem hasTwin_twin (g : KnownFunction) : g.twin.hasTwin = g.hasTwin := by cases g <;> rfl

/-- Around a call, both scans write the same but for the argument. -/
theorem comm_call_iff (hg : g.hasTwin = true) (ha : IsBalanced '(' ')' a) (r : Text) :
    g.twin.typesetCalls (g.typesetCalls (g.name ++ '(' :: (a ++ ')' :: r))) =
        g.typesetCalls (g.twin.typesetCalls (g.name ++ '(' :: (a ++ ')' :: r))) ↔
      (Markup.degree ∈ a ∨ g.twin ∉ calls a) ∧
        g.twin.typesetCalls (g.typesetCalls r) = g.typesetCalls (g.twin.typesetCalls r) := by
  have hne : g.name ≠ g.twin.name := fun h => absurd (name_injective h.symm) (of_decide_eq_true hg)
  have hscanned := isBalanced_typesetCalls g.twin ha
  rw [typesetCalls_call hg ha, typesetCalls_cons _ isWordChar_backslash,
    typesetCalls_argument g.isWordChar_of_mem_name hne (isBalanced_markedOnce ha),
    typesetCalls_argument g.isWordChar_of_mem_name hne ha, typesetCalls_call hg hscanned,
    ← typesetCalls_markedOnce_iff ((hasTwin_twin g).trans hg) ha]
  refine ⟨fun h => ?_, fun ⟨hargument, hrest⟩ => by rw [hargument, hrest]⟩
  -- The parenthesis that closes a balanced argument is found in one way.
  have hread : ∀ {b x : Text}, IsBalanced '(' ')' b → closing? 0 (b ++ ')' :: x) = some (b, x) :=
    fun hb => closing?_eq_some_iff.2 ⟨rfl, hb⟩
  have hsame := (List.cons.inj (List.append_cancel_left (List.cons.inj h).2)).2
  have hpair := hread (x := g.twin.typesetCalls (g.typesetCalls r))
    (isBalanced_typesetCalls g.twin (isBalanced_markedOnce ha))
  rw [hsame, hread (isBalanced_markedOnce hscanned)] at hpair
  obtain ⟨hargument, hrest⟩ := Prod.mk.inj (Option.some.inj hpair)
  exact ⟨hargument.symm, hrest.symm⟩

/-- The order of the scans for sine and cosine does not matter exactly when no outermost call of the
one has an argument without a degree mark that calls the other. -/
theorem typesetCalls_comm_iff (s : Text) :
    cos.typesetCalls (sin.typesetCalls s) = sin.typesetCalls (cos.typesetCalls s) ↔
      MarksAlike s := by
  induction s using WordRule.scan_induction twinCall with
  | nil =>
      have hnone : MarksAlike [] := fun c hc => by
        rw [twinCalls, WordRule.pieces_nil] at hc
        cases hc
      rw [typesetCalls_nil, typesetCalls_nil, typesetCalls_nil]
      exact iff_of_true rfl hnone
  | read s w r c r' hw hr ih =>
      obtain ⟨v, hv, hg, hname, hgroup, ha⟩ := meets_twinCall w r c r' hr
      have hline : s = c.1.name ++ '(' :: (c.2 ++ ')' :: r') := by
        rw [run?_eq_append hw, hv, hgroup, hname]
        simp [Markup.parenthesised]
      have hsites : MarksAlike s ↔ (Markup.degree ∈ c.2 ∨ c.1.twin ∉ calls c.2) ∧ MarksAlike r' := by
        rw [MarksAlike, twinCalls, twinCall.pieces_of_read hw hr, Piece.sites_site,
          List.forall_mem_cons]
        rfl
      have hscans := comm_call_iff hg ha r'
      rw [← hline] at hscans
      rw [hsites, ← ih]
      rcases (hasTwin_iff c.1).1 hg with h | h
      · rw [h] at hscans ⊢
        exact hscans
      · rw [h] at hscans ⊢
        exact eq_comm.trans (hscans.trans (and_congr_right fun _ => eq_comm))
  | pass s w r hw hr ih =>
      have hsites : MarksAlike s ↔ MarksAlike r := by
        rw [MarksAlike, twinCalls, twinCall.pieces_of_none hw hr, Piece.sites_plain]
        rfl
      have hpass : ∀ f g : KnownFunction, f.hasTwin = true → g.hasTwin = true →
          g.typesetCalls (f.typesetCalls s) = w ++ g.typesetCalls (f.typesetCalls r) := by
        intro f g hf hg
        exact typesetCalls_of_none (run?_typesetCalls hw (closedCall_read?_of_twinCall hf hr))
          (closedCall_read?_typesetCalls f (run?_head hw) (closedCall_read?_of_twinCall hg hr))
      rw [hpass sin cos rfl rfl, hpass cos sin rfl rfl, hsites, ← ih]
      exact ⟨List.append_cancel_left, congrArg _⟩
  | other c s hc ih =>
      have hsites : MarksAlike (c :: s) ↔ MarksAlike s := by
        rw [MarksAlike, twinCalls, twinCall.pieces_cons_of_not_isWordChar s hc, Piece.sites_plain]
        rfl
      rw [typesetCalls_cons _ hc, typesetCalls_cons _ hc, typesetCalls_cons _ hc,
        typesetCalls_cons _ hc, hsites, ← ih]
      exact ⟨fun h => (List.cons.inj h).2, congrArg _⟩

end KnownFunction

end CalcTypeset
