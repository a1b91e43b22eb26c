import CalcTypeset.Proofs.Scan
import CalcTypeset.Variable

/-!
# Cutting a line between its references

The names of a line are read from left to right, and what stands behind an opening bracket decides
how it is read: it opens a reference when a closing bracket follows at all and not at once. So the
names of a line are those of two parts of it unless the first part leaves a bracket open that the
second one closes. Which of the two it is can be told from the square brackets alone.

In a line whose names are all valid, a reference holds only the characters of a name. A cut that
has no such character, and no bracket, on one of its sides cannot fall inside a reference.
-/

namespace CalcTypeset

namespace Recogniser

variable {α : Type} {p : Recogniser α}

theorem sites_of_read {s r : Text} {a : α} (h : p.read? s = some (a, r)) :
    p.sites s = a :: p.sites r := by
  rw [sites, p.pieces_of_read h, Piece.sites_site]
  rfl

theorem sites_of_none {c : Char} {s : Text} (h : p.read? (c :: s) = none) :
    p.sites (c :: s) = p.sites s := by
  rw [sites, p.pieces_of_none h, Piece.sites_plain]
  rfl

@[simp] theorem sites_nil : p.sites [] = [] := by
  rw [sites, p.pieces_nil, Piece.sites_nil]

end Recogniser

namespace Reference

open Text

variable {s t n : Text}

/-! ## The names of a line -/

@[simp] theorem names_nil : names [] = [] := Recogniser.sites_nil

theorem names_cons_of_ne {c : Char} (hc : c ≠ '[') (s : Text) : names (c :: s) = names s := by
  refine Recogniser.sites_of_none ?_
  simp [reference, Recogniser.single, Recogniser.literal, after?, hc.symm]

theorem reference_read?_eq (s : Text) :
    reference.read? ('[' :: s) = (splitAt? ']' s).filter fun x => !x.1.isEmpty := rfl

theorem write_append_eq (n t : Text) : write n ++ t = '[' :: (n ++ ']' :: t) := by
  simp [write]

theorem reference_read?_write (hne : n ≠ []) (hn : ']' ∉ n) (t : Text) :
    reference.read? (write n ++ t) = some (n, t) := by
  rw [write_append_eq, reference_read?_eq, splitAt?_eq_some_iff.2 ⟨rfl, hn⟩]
  simp [hne]

theorem names_reference (hn : n ≠ []) (hmem : ']' ∉ n) (t : Text) :
    names ('[' :: (n ++ ']' :: t)) = n :: names t := by
  rw [← write_append_eq]
  exact Recogniser.sites_of_read (reference_read?_write hn hmem t)

theorem names_empty (t : Text) : names ('[' :: ']' :: t) = names t := by
  have hnone : reference.read? ('[' :: ']' :: t) = none := rfl
  rw [names, Recogniser.sites_of_none hnone]
  exact names_cons_of_ne (by decide) t

/-- A bracket that nothing closes opens no reference, and neither does one behind it. -/
theorem names_of_not_mem (h : ']' ∉ s) : names s = [] := by
  induction s with
  | nil => exact names_nil
  | cons c s ih =>
      rw [List.mem_cons, not_or] at h
      by_cases hc : c = '['
      · subst hc
        have hnone : reference.read? ('[' :: s) = none := by
          rw [reference_read?_eq, Option.eq_none_iff_forall_ne_some]
          rintro ⟨a, r⟩ hr
          refine h.2 ?_
          rw [(splitAt?_eq_some_iff.1 (Option.filter_eq_some_iff.1 hr).1).1]
          simp
        exact (Recogniser.sites_of_none hnone).trans (ih h.2)
      · rw [names_cons_of_ne hc, ih h.2]

theorem names_append_of_not_mem (h : '[' ∉ s) (t : Text) : names (s ++ t) = names t := by
  induction s with
  | nil => rfl
  | cons c s ih =>
      rw [List.mem_cons, not_or] at h
      rw [List.cons_append, names_cons_of_ne (Ne.symm h.1), ih h.2]

/-! ## Square brackets -/

/-- A square bracket. -/
def isSquare (c : Char) : Bool := c = '[' || c = ']'

/-- The square brackets of a text. -/
def brackets (s : Text) : Text := s.filter isSquare

theorem brackets_append (s t : Text) : brackets (s ++ t) = brackets s ++ brackets t :=
  List.filter_append ..

theorem mem_brackets_iff {c : Char} (hc : isSquare c = true) : c ∈ brackets s ↔ c ∈ s := by
  simp [brackets, hc]

theorem brackets_eq_nil_iff : brackets s = [] ↔ ∀ c ∈ s, isSquare c = false := by
  simp [brackets]

/-- The text leaves a bracket open: its last square bracket is an opening one. -/
def IsOpen (s : Text) : Prop := (brackets s).getLast? = some '['

theorem isOpen_cons_of_ne {c : Char} (hc : c ≠ '[') : IsOpen (c :: s) ↔ IsOpen s := by
  unfold IsOpen brackets
  rw [List.filter_cons]
  split
  · next hsquare =>
      obtain rfl : c = ']' := (by simpa [isSquare, hc] using hsquare)
      cases h : s.filter isSquare with
      | nil => simp
      | cons x y => simp
  · rfl

theorem not_isOpen_nil : ¬ IsOpen [] := nofun

/-- Behind a closing bracket it does not matter what stood in front of it. -/
theorem isOpen_append_close (s t : Text) : IsOpen (s ++ ']' :: t) ↔ IsOpen t := by
  rw [← isOpen_cons_of_ne (c := ']') (s := t) (by decide), IsOpen, IsOpen, brackets_append,
    List.getLast?_append]
  cases h : (brackets (']' :: t)).getLast? with
  | none => cases List.getLast?_eq_none_iff.1 h
  | some c => rfl

theorem isOpen_cons_of_not_mem (h : ']' ∉ s) : IsOpen ('[' :: s) := by
  have hall : ∀ c ∈ brackets ('[' :: s), c = '[' := by
    intro c hc
    obtain ⟨hmem, hsquare⟩ := List.mem_filter.1 hc
    rcases List.mem_cons.1 hmem with rfl | hmem
    · rfl
    · by_cases hopen : c = '['
      · exact hopen
      · obtain rfl : c = ']' := by simpa [isSquare, hopen] using hsquare
        exact absurd hmem h
  have hne : brackets ('[' :: s) ≠ [] := List.cons_ne_nil _ _
  rw [IsOpen, List.getLast?_eq_some_getLast hne, hall _ (List.getLast_mem hne)]

/-! ## Cuts -/

/-- Induction along the references of a text: a character that opens none, a bracket that nothing
closes, and a bracket that is closed. -/
@[elab_as_elim]
theorem square_induction {motive : Text → Prop} (nil : motive [])
    (other : ∀ c s, c ≠ '[' → motive s → motive (c :: s))
    (unclosed : ∀ s, ']' ∉ s → motive ('[' :: s))
    (closed : ∀ n t, ']' ∉ n → motive t → motive ('[' :: (n ++ ']' :: t))) (s : Text) :
    motive s := by
  match s with
  | [] => exact nil
  | c :: s =>
      by_cases hc : c = '['
      · subst hc
        by_cases hmem : ']' ∈ s
        · obtain ⟨n, t, hs, hn⟩ := List.eq_append_cons_of_mem hmem
          have hlength : t.length < s.length := by rw [hs]; simp; omega
          rw [hs]
          exact closed n t hn (square_induction nil other unclosed closed t)
        · exact unclosed s hmem
      · exact other c s hc (square_induction nil other unclosed closed s)
termination_by s.length
decreasing_by
  · simp only [List.length_cons]; omega
  · simp

/-- What stands in a closed bracket counts as a name when it is something. -/
theorem names_closed (hn : ']' ∉ n) (t : Text) :
    names ('[' :: (n ++ ']' :: t)) = (if n = [] then [] else [n]) ++ names t := by
  split
  · next h => subst h; exact names_empty t
  · next h => exact names_reference h hn t

/-- The names of a text are those of its parts, unless the first part leaves a bracket open that
the second one closes. -/
theorem names_append (h : IsOpen s → ']' ∉ t) : names (s ++ t) = names s ++ names t := by
  induction s using square_induction with
  | nil => rw [names_nil]; rfl
  | other c s hc ih =>
      rw [List.cons_append, names_cons_of_ne hc, names_cons_of_ne hc]
      exact ih fun hopen => h ((isOpen_cons_of_ne hc).2 hopen)
  | unclosed s hs =>
      have ht := h (isOpen_cons_of_not_mem hs)
      have hboth : ']' ∉ '[' :: s ++ t := by simp [hs, ht]
      rw [names_of_not_mem ht, names_of_not_mem hboth, names_of_not_mem (by simp [hs])]
      rfl
  | closed n r hn ih =>
      have := ih fun hopen => h ((isOpen_append_close ('[' :: n) r).2 hopen)
      rw [List.cons_append, List.append_assoc, List.cons_append, names_closed hn,
        names_closed hn, this, List.append_assoc]

/-- The names of a text are valid. -/
def HasValidNames (s : Text) : Prop := ∀ n ∈ names s, Variable.isValidName n = true

theorem isNameChar_of_isValidName (h : Variable.isValidName n = true) :
    ∀ c ∈ n, Variable.isNameChar c = true := by
  match n with
  | [] => exact nofun
  | c :: n =>
      rw [Variable.isValidName, Bool.and_eq_true, List.all_eq_true] at h
      intro x hx
      rcases List.mem_cons.1 hx with rfl | hx
      · simp [Variable.isNameChar, Char.isAlphanum, h.1]
      · exact h.2 x hx

/-- A character that stands in no reference with a valid name. -/
def IsOutside (c : Char) : Prop := isSquare c = false ∧ Variable.isNameChar c = false

instance (c : Char) : Decidable (IsOutside c) := inferInstanceAs (Decidable (_ ∧ _))

/-- A character that stands in a reference with a valid name, behind its opening bracket. -/
def IsInside (c : Char) : Prop := Variable.isNameChar c = true ∨ c = ']'

theorem IsInside.ne {c x : Char} (hc : IsInside c) (hx : IsOutside x) : c ≠ x := by
  rintro rfl
  rcases hc with hc | rfl
  · rw [hx.2] at hc
    cases hc
  · exact absurd hx.1 (by decide)

/-- In front of a text or behind it there is a character that stands in no reference, or nothing:
the text may be cut there. -/
def IsClear (s t : Text) : Prop :=
  (∀ c ∈ s.getLast?, IsOutside c) ∨ ∀ c ∈ t.head?, IsOutside c

theorem isNameChar_of_closed (hn : ']' ∉ n) (hvalid : HasValidNames ('[' :: (n ++ ']' :: t))) :
    ∀ c ∈ n, Variable.isNameChar c = true := by
  by_cases hnil : n = []
  · simp [hnil]
  · refine isNameChar_of_isValidName (hvalid n ?_)
    rw [names_closed hn, if_neg hnil]
    exact List.mem_append_left _ (List.mem_singleton.2 rfl)

/-- No cut between the brackets of a reference is clear. -/
theorem not_isClear_of_isNameChar {m r : Text} (hs : ∀ c ∈ s, Variable.isNameChar c = true)
    (hm : ∀ c ∈ m, Variable.isNameChar c = true) : ¬ IsClear ('[' :: s) (m ++ ']' :: r) := by
  rintro (h | h)
  · cases hlast : s.getLast? with
    | none =>
        rw [List.getLast?_eq_none_iff.1 hlast] at h
        exact absurd (h '[' rfl).1 (by decide)
    | some c =>
        have hc := h c (by rw [List.getLast?_cons, hlast]; rfl)
        exact Bool.false_ne_true (hc.2.symm.trans (hs c (List.mem_of_mem_getLast? hlast)))
  · cases m with
    | nil => exact absurd (h ']' rfl).1 (by decide)
    | cons c m => exact Bool.false_ne_true ((h c rfl).2.symm.trans (hm c (by simp)))

/-- A clear cut through a text with valid names does not fall inside a reference. -/
theorem not_mem_of_isClear (hvalid : HasValidNames (s ++ t)) (h : IsClear s t) (hs : IsOpen s) :
    ']' ∉ t := by
  induction s using square_induction with
  | nil => exact absurd hs not_isOpen_nil
  | other c s hc ih =>
      have hopen := (isOpen_cons_of_ne hc).1 hs
      refine ih ?_ ?_ hopen
      · intro n hn
        exact hvalid n (by rwa [List.cons_append, names_cons_of_ne hc])
      · cases s with
        | nil => exact absurd hopen not_isOpen_nil
        | cons x s => simpa [IsClear] using h
  | closed n r hn ih =>
      have hopen := (isOpen_append_close ('[' :: n) r).1 hs
      refine ih ?_ ?_ hopen
      · intro m hm
        refine hvalid m ?_
        rw [List.cons_append, List.append_assoc, List.cons_append, names_closed hn]
        exact List.mem_append_right _ hm
      · cases r with
        | nil => exact absurd hopen not_isOpen_nil
        | cons x r =>
            refine h.imp_left fun h c hc => h c ?_
            rw [← List.cons_append, ← List.singleton_append (x := ']'), ← List.append_assoc,
              List.getLast?_append, Option.mem_def.1 hc]
            rfl
  | unclosed s hs' =>
      intro hmem
      obtain ⟨m, r, rfl, hm⟩ := List.eq_append_cons_of_mem hmem
      have hnames := isNameChar_of_closed (n := s ++ m) (t := r) (by simp [hs', hm])
        (by simpa using hvalid)
      exact not_isClear_of_isNameChar (fun c hc => hnames c (List.mem_append_left m hc))
        (fun c hc => hnames c (List.mem_append_right s hc)) h

end Reference

end CalcTypeset
