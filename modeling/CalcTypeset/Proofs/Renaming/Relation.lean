import CalcTypeset.Proofs.Blocks.Operand

/-!
# Texts up to the names in them

Two texts are renamed into each other when they differ only in the names between square brackets:
their blocks are references. The relation is symmetric and speaks of no renaming, so one walk along
it serves both texts. It is looser than a renaming: a reference may keep its name in one place and
change it in another.

Nothing has to be known of such texts besides, so the gauge that reads them reads everything.
-/

namespace CalcTypeset

open Text Reference

/-- A text that may stand between square brackets as a name. -/
def IsName (n : Text) : Prop := n ≠ [] ∧ ∀ c ∈ n, Variable.isNameChar c = true

/-- Two references. -/
def Referred (x x' : Text) : Prop :=
  ∃ n n', IsName n ∧ IsName n' ∧ x = write n ∧ x' = write n'

/-- Two texts that differ only in the names of references. -/
abbrev Renamed : Text → Text → Prop := Differ Referred

variable {s s' t t' n w r : Text} {c : Char}

/-! ## References -/

/-- Behind its opening bracket, a reference holds characters of names and its closing bracket. -/
theorem IsName.isInside (h : IsName n) : ∀ c ∈ n ++ [']'], IsInside c := fun c hc =>
  (List.mem_append.1 hc).imp (h.2 c) List.mem_singleton.1

theorem IsName.not_mem (h : IsName n) : ']' ∉ n := fun hc => absurd (h.2 _ hc) (by decide)

theorem IsName.square_not_mem (h : IsName n) : '[' ∉ n := fun hc => absurd (h.2 _ hc) (by decide)

theorem IsName.isBlock (h : IsName n) : IsBlock (write n) where
  ne_nil := List.cons_ne_nil _ _
  head c hc := by
    obtain rfl : '[' = c := Option.some.inj hc
    decide
  tail := h.isInside

theorem pairsBlocks_referred : PairsBlocks Referred where
  left := by
    rintro _ _ ⟨n, n', hn, -, rfl, -⟩
    exact hn.isBlock
  right := by
    rintro _ _ ⟨n, n', -, hn', -, rfl⟩
    exact hn'.isBlock

namespace Renamed

theorem name {n n' : Text} (hn : IsName n) (hn' : IsName n') (h : Renamed s s') :
    Renamed (write n ++ s) (write n' ++ s') := .block ⟨n, n', hn, hn', rfl, rfl⟩ h

theorem written {n n' : Text} (hn : IsName n) (hn' : IsName n') :
    Renamed (write n) (write n') := .of_block ⟨n, n', hn, hn', rfl, rfl⟩

theorem symm (h : Renamed s s') : Renamed s' s := by
  induction h with
  | nil => exact .nil
  | keep c h ih => exact .keep c ih
  | block hx h ih =>
      obtain ⟨n, n', hn, hn', rfl, rfl⟩ := hx
      exact name hn' hn ih

/-! ## Taking a pair apart -/

theorem eq_nil (h : Renamed [] s') : s' = [] := by
  generalize hs : ([] : Text) = s at h
  cases h with
  | nil => rfl
  | keep c h => cases hs
  | block hx h =>
      obtain ⟨n, n', -, -, rfl, rfl⟩ := hx
      cases hs

/-- Where a name begins in one text, one begins in the other. -/
theorem head? (h : Renamed s s') : s'.head? = s.head? := by
  cases h with
  | nil => rfl
  | keep c h => rfl
  | block hx h =>
      obtain ⟨n, n', -, -, rfl, rfl⟩ := hx
      rfl

theorem cons_of_ne (h : Renamed (c :: s) s') (hc : c ≠ '[') :
    ∃ t, s' = c :: t ∧ Renamed s t := by
  generalize hs : c :: s = v at h
  cases h with
  | nil => cases hs
  | keep d h =>
      obtain ⟨rfl, rfl⟩ := List.cons.inj hs
      exact ⟨_, rfl, h⟩
  | block hx h =>
      obtain ⟨n, n', -, -, rfl, rfl⟩ := hx
      exact absurd (List.cons.inj hs).1 hc

/-- What holds no opening bracket is kept. -/
theorem append_of_not_mem (h : Renamed (w ++ s) s') (hw : '[' ∉ w) :
    ∃ t, s' = w ++ t ∧ Renamed s t := by
  induction w generalizing s' with
  | nil => exact ⟨s', rfl, h⟩
  | cons c w ih =>
      rw [List.mem_cons, not_or] at hw
      obtain ⟨t, rfl, ht⟩ := h.cons_of_ne (Ne.symm hw.1)
      obtain ⟨u, rfl, hu⟩ := ih ht hw.2
      exact ⟨u, rfl, hu⟩

theorem write_split {m u : Text} (hn : ']' ∉ n) (hm : ']' ∉ m)
    (h : n ++ ']' :: s = m ++ ']' :: u) : n = m ∧ s = u := by
  have hread := splitAt?_eq_some_iff.2 ⟨h, hm⟩
  rw [splitAt?_eq_some_iff.2 ⟨rfl, hn⟩] at hread
  exact Prod.mk.inj (Option.some.inj hread)

/-- Both texts can be cut behind their first closing brackets. -/
theorem exists_close (h : Renamed (w ++ ']' :: r) s') (hw : ']' ∉ w) :
    ∃ w' r', s' = w' ++ ']' :: r' ∧ ']' ∉ w' ∧ Renamed (w ++ [']']) (w' ++ [']']) ∧
      Renamed r r' := by
  generalize hs : w ++ ']' :: r = s at h
  induction h generalizing w with
  | nil => simp at hs
  | @keep c s s' h ih =>
      cases w with
      | nil =>
          obtain ⟨rfl, rfl⟩ := List.cons.inj hs
          exact ⟨[], s', rfl, by simp, .refl _, h⟩
      | cons d w =>
          obtain ⟨rfl, htail⟩ := List.cons.inj hs
          rw [List.mem_cons, not_or] at hw
          obtain ⟨w', r', rfl, hw', hclose, hr⟩ := ih hw.2 htail
          exact ⟨d :: w', r', rfl, by simp [hw.1, hw'], .keep d hclose, hr⟩
  | @block _ _ s s' hx h ih =>
      obtain ⟨n, n', hn, hn', rfl, rfl⟩ := hx
      have hsplit : w = '[' :: n ∧ r = s := by
        rw [write_append_eq, ← List.cons_append] at hs
        exact write_split hw (by simpa using hn.not_mem) hs
      obtain ⟨rfl, rfl⟩ := hsplit
      exact ⟨'[' :: n', s', write_append_eq n' s', by simpa using hn'.not_mem, .written hn hn', h⟩

/-- An empty bracket is kept. -/
theorem eq_nil_of_write (h : Renamed (write []) (write n)) : n = [] := by
  generalize hs : write [] = s at h
  generalize hs' : write n = s' at h
  cases h with
  | nil => cases hs
  | @keep c s s' h =>
      obtain ⟨-, rfl⟩ := List.cons.inj hs
      obtain ⟨-, htail⟩ := List.cons.inj hs'
      obtain ⟨t, rfl, ht⟩ := cons_of_ne h (by decide)
      obtain rfl := eq_nil ht
      exact List.append_left_eq_self.1 htail
  | block hx h =>
      obtain ⟨m, m', hm, -, rfl, rfl⟩ := hx
      rw [write_append_eq] at hs
      obtain ⟨-, htail⟩ := List.cons.inj hs
      exact absurd (write_split (n := []) (by simp) hm.not_mem htail).1.symm hm.1

/-- A closed bracket stands in front of a closed bracket, and an empty one in front of an empty
one. -/
theorem exists_bracket (h : Renamed (write n ++ r) s') (hn : ']' ∉ n) :
    ∃ n' r', s' = write n' ++ r' ∧ ']' ∉ n' ∧ (n' = [] ↔ n = []) ∧
      Renamed (write n) (write n') ∧ Renamed r r' := by
  rw [write_append_eq, ← List.cons_append] at h
  obtain ⟨w, r', rfl, hw, hclose, hr⟩ := h.exists_close (by simpa using hn)
  obtain ⟨n', rfl⟩ : ∃ n', w = '[' :: n' := by
    have hhead := hclose.head?
    cases w with
    | nil => cases hhead
    | cons c w => exact ⟨w, congrArg (· :: w) (Option.some.inj hhead)⟩
  rw [List.mem_cons, not_or] at hw
  refine ⟨n', r', (write_append_eq n' r').symm, hw.2, ⟨?_, ?_⟩, hclose, hr⟩
  · rintro rfl
    exact eq_nil_of_write hclose.symm
  · rintro rfl
    exact eq_nil_of_write hclose

/-- Without a closing bracket, a text refers to nothing. -/
theorem eq_of_not_mem (h : Renamed s s') (hs : ']' ∉ s) : s' = s := by
  induction h with
  | nil => rfl
  | keep c h ih =>
      rw [List.mem_cons, not_or] at hs
      rw [ih hs.2]
  | block hx h ih =>
      obtain ⟨n, n', -, -, rfl, rfl⟩ := hx
      exact absurd (by simp [write]) hs

/-- A reference stands in front of a reference. -/
theorem exists_write (h : Renamed (write n ++ s) s') (hn : IsName n) :
    ∃ n' t, s' = write n' ++ t ∧ IsName n' ∧ Renamed s t := by
  generalize hs : write n ++ s = v at h
  cases h with
  | nil => cases hs
  | keep c h =>
      obtain ⟨rfl, rfl⟩ := List.cons.inj hs
      have hmem : '[' ∉ n ++ [']'] := by simpa using hn.square_not_mem
      obtain ⟨t, rfl, ht⟩ := append_of_not_mem h hmem
      exact ⟨n, t, rfl, hn, ht⟩
  | @block _ _ u u' hx h =>
      obtain ⟨m, m', hm, hm', rfl, rfl⟩ := hx
      rw [write_append_eq, write_append_eq] at hs
      obtain ⟨-, rfl⟩ := write_split hn.not_mem hm.not_mem (List.cons.inj hs).2
      exact ⟨m', u', rfl, hm', h⟩

/-! ## What is read of both texts -/

/-- A literal without a bracket is read of both texts or of neither. -/
theorem after? (h : Renamed s s') {lit : Text} (hlit : '[' ∉ lit) :
    Option.Rel Renamed (after? lit s) (after? lit s') := by
  cases hs : Text.after? lit s with
  | some r =>
      rw [after?_eq_some_iff.1 hs] at h
      obtain ⟨t, rfl, ht⟩ := h.append_of_not_mem hlit
      rw [after?_append]
      exact .some ht
  | none =>
      cases hs' : Text.after? lit s' with
      | none => exact .none
      | some r =>
          rw [after?_eq_some_iff.1 hs'] at h
          obtain ⟨t, rfl, -⟩ := h.symm.append_of_not_mem hlit
          rw [after?_append] at hs
          cases hs

/-- What is read of one text is read of the other too, so it is enough to look at what is read. -/
theorem readsAlike_of_read {α : Type} {σ : Type} {G : Gauge σ} {V : α → α → Prop}
    {p : Recogniser α}
    (h : ∀ {s s' a r}, Renamed s s' → p.read? s = some (a, r) →
      ∃ a' r', p.read? s' = some (a', r') ∧ V a a' ∧ Renamed r r')
    (hp : p.Meets fun _ _ _ => True) : ReadsAlike (Compared Referred G) V p := by
  refine .of_differ hp fun {s s'} hs => ?_
  cases hread : p.read? s with
  | some x =>
      obtain ⟨a', r', hread', ha, hr⟩ := h hs hread
      rw [hread']
      exact .some ha hr
  | none =>
      cases hread' : p.read? s' with
      | none => exact .none
      | some x =>
          obtain ⟨a, r, hsome, -⟩ := h (Renamed.symm hs) hread'
          rw [hread] at hsome
          cases hsome

/-- A reference is read whole, be its content a name or not. -/
theorem readsAlike_reference {σ : Type} {G : Gauge σ} :
    ReadsAlike (Compared Referred G) Renamed (reference.map write) := by
  refine readsAlike_of_read (fun {s s' w r} h hread => ?_)
    ((Fraction.meets_reference.map write).mono fun _ _ _ _ => trivial)
  obtain ⟨⟨n, r⟩, hn, he⟩ := Option.map_eq_some_iff.1 hread
  obtain ⟨rfl, rfl⟩ := Prod.mk.inj he
  obtain ⟨_, rfl, rfl, hne, hmem⟩ := Fraction.meets_reference _ _ _ hn
  obtain ⟨n', r', rfl, hn', hnil, hw, hr⟩ := exists_bracket h hmem
  refine ⟨write n', r', ?_, hw, hr⟩
  rw [Recogniser.read?_map, reference_read?_write (fun h => hne (hnil.1 h)) hn']
  rfl

end Renamed

/-- A gauge that reads every text. -/
def unbound : Gauge Unit where
  step _ _ := some ()
  le _ _ := True
  refl _ := trivial
  trans _ _ := trivial
  mono _ _ := ⟨(), rfl, trivial⟩

theorem follow_unbound (q : Unit) (s : Text) : unbound.follow q s = some () := by
  induction s with
  | nil => rfl
  | cons c s ih => exact ih

theorem settles_unbound : unbound.Settles () where
  least _ := trivial
  blank _ _ _ := rfl
  opening _ := rfl
  closing _ := rfl
  fracOpen _ := rfl
  star _ := rfl
  times _ := rfl

theorem Renamed.compared (h : Renamed s s') : Compared Referred unbound s s' :=
  ⟨h, ⟨(), (), follow_unbound () s⟩, ⟨(), (), follow_unbound () s'⟩⟩

/-- No pass over operators and divisions can tell names from each other. -/
theorem opaque_referred : Opaque Referred unbound () where
  blocks := pairsBlocks_referred
  settles := settles_unbound
  word := by
    have hframed : ∀ {n}, IsName n → IsFramed (write n) := by
      intro n _
      refine ⟨fun c hc => ?_, fun c hc => ?_⟩
      · obtain rfl : '[' = c := Option.some.inj hc
        exact isWordChar_eq_false (by decide)
      · rw [write, List.getLast?_concat] at hc
        obtain rfl : ']' = c := Option.some.inj hc
        exact isWordChar_eq_false (by decide)
    rintro _ _ ⟨n, n', hn, hn', rfl, rfl⟩
    exact .inr ⟨hframed hn, hframed hn'⟩
  factor := by
    have hhead : ∀ n, ∀ c ∈ (write n).head?, Fraction.argumentProduct.isFactorChar c = false := by
      intro n c hc
      obtain rfl : '[' = c := Option.some.inj hc
      decide
    rintro _ _ ⟨n, n', -, -, rfl, rfl⟩
    exact .inr ⟨hhead n, hhead n'⟩
  times h := Renamed.after? h.differ (by decide)
  reference := Renamed.readsAlike_reference

end CalcTypeset
