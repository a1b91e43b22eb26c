import CalcTypeset.Bracket
import CalcTypeset.Markup

/-!
# The partner of a parenthesis

The search for a closing parenthesis counts depth, and what it promises is told without counting:
it answers with a place just when the text from the opening parenthesis up to there is that
parenthesis, a balanced content, and a closing one. A balanced content ends before anything closes
that it has not opened, so no other place will do, and no answer means that there is no such place.

`group?_eq_some_iff` is the case of a parenthesis that stands first; here it is moved to any place
of the text, and the places themselves are compared.
-/

namespace CalcTypeset.Bracket

/-- The part of a text from the place `i` up to the place `r`. -/
def part (s : Text) (i r : Nat) : Text := (s.take r).drop i

/-- Between two places of the text stands a group: parentheses around a balanced content. -/
def IsGroupBetween (s : Text) (i : Int) (r : Nat) : Prop :=
  0 ≤ i ∧ r ≤ s.length ∧ ∃ c, IsBalanced '(' ')' c ∧ part s i.toNat r = Markup.parenthesised c

variable {s w : Text} {i : Int} {n r : Nat}

/-- A part that is not empty stands at its place, and ends where it should. -/
theorem part_eq_iff (hw : w ≠ []) (hr : r ≤ s.length) :
    part s n r = w ↔ r = n + w.length ∧ ∃ rest, s.drop n = w ++ rest := by
  rw [part, List.drop_take]
  constructor
  · intro h
    have hlength : w.length = r - n := by
      rw [← h, List.length_take, List.length_drop]
      omega
    have hpos := List.length_pos_iff.2 hw
    exact ⟨by omega, (s.drop n).drop (r - n), by rw [← h, List.take_append_drop]⟩
  · rintro ⟨rfl, rest, hrest⟩
    rw [hrest, Nat.add_sub_cancel_left]
    exact List.take_left

theorem partnerEnd?_of_neg (hi : i < 0) : partnerEnd? s i = none := by
  match i, hi with
  | .negSucc _, _ => rfl

/-- The search from a place that there is. -/
theorem partnerEnd?_natCast_eq_some_iff : partnerEnd? s n = some r ↔
    ∃ c rest, IsBalanced '(' ')' c ∧ s.drop n = Markup.parenthesised c ++ rest ∧
      r = n + (Markup.parenthesised c).length := by
  have hlength : ∀ c : Text, n + (Markup.parenthesised c).length = n + c.length + 2 := fun c => by
    simp only [Markup.parenthesised, List.length_cons, List.length_append, List.length_nil]
    omega
  have hwrite : ∀ c rest : Text, '(' :: c ++ ')' :: rest = Markup.parenthesised c ++ rest :=
    fun c rest => by simp [Markup.parenthesised]
  show (group? (s.drop n)).map _ = some r ↔ _
  simp only [Option.map_eq_some_iff, Prod.exists, group?_eq_some_iff, hwrite, hlength]
  constructor
  · rintro ⟨c, rest, ⟨hs, hc⟩, rfl⟩
    exact ⟨c, rest, hc, hs, rfl⟩
  · rintro ⟨c, rest, hc, hs, rfl⟩
    exact ⟨c, rest, ⟨hs, hc⟩, rfl⟩

theorem partnerEnd?_iff_isGroupBetween : partnerEnd? s i = some r ↔ IsGroupBetween s i r := by
  rcases Int.lt_or_le i 0 with hi | hi
  · rw [partnerEnd?_of_neg hi]
    exact ⟨nofun, fun h => absurd h.1 (by omega)⟩
  · obtain ⟨n, rfl⟩ := Int.eq_ofNat_of_zero_le hi
    rw [partnerEnd?_natCast_eq_some_iff]
    constructor
    · rintro ⟨c, rest, hc, hs, rfl⟩
      have hlength := congrArg List.length hs
      rw [List.length_drop, List.length_append] at hlength
      have hr : n + (Markup.parenthesised c).length ≤ s.length := by
        have : 0 < (Markup.parenthesised c).length := Nat.succ_pos _
        omega
      exact ⟨hi, hr, c, hc, (part_eq_iff (List.cons_ne_nil _ _) hr).2 ⟨rfl, rest, hs⟩⟩
    · rintro ⟨-, hr, c, hc, hpart⟩
      obtain ⟨hend, rest, hs⟩ := (part_eq_iff (List.cons_ne_nil _ _) hr).1 hpart
      exact ⟨c, rest, hc, hs, hend⟩

/-- Where a group begins, the text has an opening parenthesis. -/
theorem IsGroupBetween.opening (h : IsGroupBetween s i r) : s[i.toNat]? = some '(' := by
  obtain ⟨-, hr, c, -, hpart⟩ := h
  obtain ⟨-, rest, hs⟩ := (part_eq_iff (List.cons_ne_nil _ _) hr).1 hpart
  rw [← List.head?_drop, hs]
  rfl

/-- The search finds the end of the group at a place, for there is one end at most, and it finds
nothing just when there is no such place in the text, no opening parenthesis at it, or no end. -/
theorem partnerEnd?_spec (s : Text) (i : Int) :
    (∀ r, partnerEnd? s i = some r ↔ IsGroupBetween s i r) ∧
      (∀ r r', IsGroupBetween s i r → IsGroupBetween s i r' → r = r') ∧
      (partnerEnd? s i = none ↔
        (i < 0 ∨ s.length ≤ i) ∨ s[i.toNat]? ≠ some '(' ∨ ∀ r, ¬ IsGroupBetween s i r) := by
  refine ⟨fun r => partnerEnd?_iff_isGroupBetween, fun r r' h h' => ?_, fun h => ?_, fun h => ?_⟩
  · rw [← partnerEnd?_iff_isGroupBetween] at h h'
    exact Option.some.inj (h.symm.trans h')
  · refine .inr (.inr fun r hr => ?_)
    rw [partnerEnd?_iff_isGroupBetween.2 hr] at h
    cases h
  · refine Option.eq_none_iff_forall_ne_some.2 fun r hr => ?_
    have hgroup := partnerEnd?_iff_isGroupBetween.1 hr
    have hopening := hgroup.opening
    rcases h with (hneg | hlong) | hother | hnone
    · exact absurd hgroup.1 (by omega)
    · rw [List.getElem?_eq_none (by omega)] at hopening
      cases hopening
    · exact hother hopening
    · exact hnone r hgroup

example : partnerEnd? "f(a(b)c) + (d".toList 1 = some 8 := by decide

end CalcTypeset.Bracket
