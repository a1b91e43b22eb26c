import CalcTypeset.Call.Basic
import CalcTypeset.Proofs.Balance
import Mathlib.Data.List.Basic

/-!
# Closed calls at their places

A place in a text is what stands in front of it, and a call is at a place as a whole: its name is a
word run that nothing in front of it continues, and its parentheses are closed. What is read there
is then determined by the text, both the call and what stands behind it.

Two closed calls of one text are apart or one of them is in the other: a call that begins inside
another one ends inside it (`ends_inside`). For what has opened up to the beginning of the inner
call is still open when the outer one ends, and the inner call closes no more than it has opened.
-/

namespace CalcTypeset.Located

open Text CalcTypeset.Bracket

/-- A word run may begin behind the text: its last character belongs to none. -/
def IsBreak (s : Text) : Prop := ∀ c ∈ s.getLast?, isWordChar c = false

/-- The call can stand behind the text as a whole, and its parentheses are closed. -/
structure IsClosedAfter (before : Text) (c : Call) : Prop where
  name_ne_nil : c.name ≠ []
  isWord : ∀ x ∈ c.name, isWordChar x = true
  isBreak : IsBreak before
  isBalanced : IsBalanced '(' ')' c.content

variable {before before' behind behind' s r u v w t : Text} {c c' : Call}

theorem write_append (c : Call) (u : Text) :
    c.write ++ u = c.name ++ '(' :: (c.content ++ ')' :: u) := by
  simp [Call.write, Markup.parenthesised]

theorem isBreak_nil : IsBreak [] := by simp [IsBreak]

theorem IsBreak.append (hs : IsBreak s) (hr : IsBreak r) : IsBreak (s ++ r) := by
  intro c hc
  rcases List.eq_nil_or_concat r with rfl | ⟨v, d, rfl⟩
  · exact hs c (by simpa using hc)
  · exact hr c (by simpa using hc)

/-- What stands behind a closing parenthesis is an end of the text. -/
theorem suffix_of_closing? (h : closing? 0 s = some (t, r)) : r <:+ s := by
  rw [(closing?_eq_some_iff.1 h).1]
  exact ⟨t ++ [')'], by simp⟩

theorem isBreak_write (c : Call) : IsBreak c.write := by
  intro x hx
  rw [Call.write, Markup.parenthesised, ← List.append_assoc, List.getLast?_concat] at hx
  rw [← Option.some.inj hx]
  exact isWordChar_closing

namespace IsClosedAfter

theorem run? (h : IsClosedAfter before c) (u : Text) :
    run? isWordChar (c.write ++ u) = some (c.name, '(' :: (c.content ++ ')' :: u)) := by
  rw [write_append]
  exact run?_append h.name_ne_nil h.isWord (by simp)

theorem read?_group (h : IsClosedAfter before c) (u : Text) :
    group.read? ('(' :: (c.content ++ ')' :: u)) = some (c.content, u) :=
  group?_eq_some_iff.2 ⟨rfl, h.isBalanced⟩

/-- The call and what stands behind it are determined by the text at the place. -/
theorem eq_of_append_eq (h : IsClosedAfter before c) (h' : IsClosedAfter before' c')
    (heq : c.write ++ u = c'.write ++ v) : c = c' ∧ u = v := by
  have hrun := h.run? u
  rw [heq, h'.run? v] at hrun
  obtain ⟨hname, hrest⟩ := Prod.mk.inj (Option.some.inj hrun)
  have hgroup := h.read?_group u
  rw [← hrest, h'.read?_group v] at hgroup
  obtain ⟨hcontent, hbehind⟩ := Prod.mk.inj (Option.some.inj hgroup)
  cases c
  cases c'
  exact ⟨Call.mk.injEq .. ▸ ⟨hname.symm, hcontent.symm⟩, hbehind.symm⟩

/-- A word run with a closed group behind it is a closed call. -/
theorem of_read (hw : Text.run? isWordChar s = some (w, r)) (hr : group.read? r = some (t, u))
    (hbefore : IsBreak before) :
    s = Call.write ⟨w, t⟩ ++ u ∧ IsClosedAfter before ⟨w, t⟩ := by
  obtain ⟨rfl, ht⟩ := group?_eq_some_iff.1 hr
  refine ⟨?_, run?_ne_nil hw, run?_all hw, hbefore, ht⟩
  rw [run?_eq_append hw, write_append, List.cons_append]

theorem head? (h : IsClosedAfter before c) (u : Text) :
    ∃ x ∈ (c.write ++ u).head?, isWordChar x = true := by
  obtain ⟨x, w, hx⟩ := List.exists_cons_of_ne_nil h.name_ne_nil
  exact ⟨x, by rw [write_append, hx]; rfl, h.isWord x (by simp [hx])⟩

/-- A call closes what it opens. -/
theorem depthAfter_write (h : IsClosedAfter before c) :
    Kind.round.depthAfter 0 c.write = some 0 := by
  have hcontent : Kind.round.depthAfter 0 (Markup.parenthesised c.content) = some 0 :=
    depthAfter_parenthesised h.isBalanced
  rw [Call.write, Kind.depthAfter_append_of_some
    (Kind.depthAfter_of_isNeutral (isNeutral_of_isWordChar h.isWord) 0), hcontent]

end IsClosedAfter

/-- In front of a closing parenthesis that belongs to a text, something has opened. -/
theorem exists_depthAfter_of_closing (h : Kind.round.depthAfter 0 (s ++ ')' :: t) = some 0) :
    ∃ d, Kind.round.depthAfter 0 s = some (d + 1) := by
  rw [Kind.depthAfter_append] at h
  obtain ⟨d, hd, hclose⟩ := Option.bind_eq_some_iff.1 h
  cases d with
  | zero => cases hclose
  | succ d => exact ⟨d, hd⟩

/-- A name that begins behind the first character of a call begins in its content. -/
theorem begins_inside (hc : IsClosedAfter u c) (hbefore : IsBreak before)
    (heq : c.write = before ++ t) (hpos : before ≠ [])
    (hname : ∃ x ∈ t.head?, isWordChar x = true) : ∃ y z, c.content = y ++ z ∧ t = z ++ [')'] := by
  obtain ⟨x, hx, hword⟩ := hname
  obtain ⟨z, rfl⟩ : ∃ z, t = z ++ [')'] := by
    rcases List.eq_nil_or_concat t with rfl | ⟨z, y, rfl⟩
    · cases hx
    · have hlast := congrArg List.getLast? heq
      rw [Call.write, Markup.parenthesised, ← List.append_assoc, List.getLast?_concat,
        List.concat_eq_append, ← List.append_assoc, List.getLast?_concat] at hlast
      exact ⟨z, by rw [Option.some.inj hlast, List.concat_eq_append]⟩
  have hsplit : c.name ++ '(' :: c.content = before ++ z := by
    have : (c.name ++ '(' :: c.content) ++ [')'] = (before ++ z) ++ [')'] := by
      simpa [Call.write, Markup.parenthesised] using heq
    exact List.append_cancel_right this
  rcases List.append_eq_append_iff.1 hsplit with ⟨y, hy, hz⟩ | ⟨y, hy, hz⟩
  · cases y with
    | nil =>
        -- The parenthesis of the outer call begins no name.
        obtain rfl : '(' :: c.content = z := hz
        obtain rfl : '(' = x := Option.some.inj hx
        rw [isWordChar_opening] at hword
        cases hword
    | cons a y =>
        obtain ⟨-, hcontent⟩ := List.cons.inj hz
        exact ⟨y, z, hcontent, rfl⟩
  · -- A name does not begin inside the name of the outer call.
    obtain ⟨b, a, rfl⟩ := List.eq_nil_or_concat before |>.resolve_left hpos
    have ha := hc.isWord a (by rw [hy]; simp)
    rw [hbefore a (by simp)] at ha
    cases ha

/-- A closed call that begins behind the first character of another one ends inside it. -/
theorem ends_inside (hc : IsClosedAfter u c) (hc' : IsClosedAfter before c')
    (heq : c.write ++ v = before ++ (c'.write ++ behind)) (hpos : before ≠ [])
    (hlt : before.length < c.write.length) : v.length < behind.length := by
  refine Nat.lt_of_not_le fun hle => ?_
  obtain ⟨t, ht, hrest⟩ : ∃ t, c.write = before ++ t ∧ c'.write ++ behind = t ++ v := by
    rcases List.append_eq_append_iff.1 heq with ⟨t, ht, -⟩ | ⟨t, ht, hrest⟩
    · have := congrArg List.length ht
      rw [List.length_append] at this
      omega
    · exact ⟨t, ht, hrest⟩
  obtain ⟨m, hm⟩ : ∃ m, c'.write = t ++ m := by
    rcases List.append_eq_append_iff.1 hrest with ⟨m, hm, hv⟩ | ⟨m, hm, -⟩
    · have := congrArg List.length hv
      rw [List.length_append] at this
      obtain rfl : m = [] := List.length_eq_zero_iff.1 (by omega)
      exact ⟨[], by simpa using hm.symm⟩
    · exact ⟨m, hm⟩
  have hne : t ≠ [] := by
    rintro rfl
    rw [List.append_nil] at ht
    rw [ht] at hlt
    exact absurd hlt (Nat.lt_irrefl _)
  obtain ⟨x, hx, hword⟩ := hc'.head? []
  rw [List.append_nil, hm, List.head?_append_of_ne_nil _ hne] at hx
  obtain ⟨y, z, hcontent, rfl⟩ := begins_inside hc hc'.isBreak ht hpos ⟨x, hx, hword⟩
  obtain ⟨d, hd⟩ : ∃ d, Kind.round.depthAfter 0 z = some (d + 1) := by
    refine exists_depthAfter_of_closing (t := m) ?_
    rw [← hc'.depthAfter_write, hm]
    simp
  have hbalanced : Kind.round.depthAfter 0 c.content = some 0 := hc.isBalanced
  rw [hcontent, Kind.depthAfter_append] at hbalanced
  obtain ⟨e, -, he⟩ := Option.bind_eq_some_iff.1 hbalanced
  have hadd := Kind.depthAfter_add e hd
  rw [Nat.zero_add, he] at hadd
  have := Option.some.inj hadd
  omega

/-- The closed call `c` of the text `s`, with what stands in front of it and behind it. -/
def IsCallAt (s before : Text) (c : Call) (behind : Text) : Prop :=
  s = before ++ (c.write ++ behind) ∧ IsClosedAfter before c

end CalcTypeset.Located
