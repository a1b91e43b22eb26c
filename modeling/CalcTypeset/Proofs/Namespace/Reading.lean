import CalcTypeset.MathML.Element
import CalcTypeset.Proofs.Reading
import CalcTypeset.Proofs.Reference.Cut
import Mathlib.Data.List.Infix

/-!
# Reading namespaces

A namespace attribute is some blanks, its name with an equals sign and a quotation mark, and the
value up to the next quotation mark. The value may hold anything else, so two readings that begin at
different places may share a stretch; but what begins later ends later or at the same place
(`suffix_of_read`), since each of them ends at the second quotation mark that it meets. So a
namespace that is the last one where it is read first is the last one wherever it is read.

A replacement of the first site only changes a text where something is read at all, and the rest of
the text may be cut off in front of a character that no reading passes.
-/

namespace CalcTypeset

open Text

/-! ## Texts with a common separator -/

/-- What does not hold a character is passed before the character is met. -/
theorem Text.exists_append_of_not_mem {x : Char} {w rest t u : Text}
    (h : w ++ rest = t ++ x :: u) (hx : x ∉ w) : ∃ k, t = w ++ k ∧ rest = k ++ x :: u := by
  rcases List.append_eq_append_iff.1 h with ⟨k, rfl, hk⟩ | ⟨k, rfl, hk⟩
  · exact ⟨k, rfl, hk⟩
  · cases k with
    | nil => exact ⟨[], by simp, hk.symm⟩
    | cons y k =>
        obtain rfl := (List.cons.inj hk).1
        simp at hx

/-- What stands behind a character that is met first ends with what stands behind a later one. -/
theorem Text.suffix_of_append_cons {x : Char} {a b a' b' : Text}
    (h : a ++ x :: b = a' ++ x :: b') (hx : x ∉ a) : b' <:+ b := by
  obtain ⟨k, -, hk⟩ := exists_append_of_not_mem h hx
  cases k with
  | nil => rw [(List.cons.inj hk).2]
  | cons y k => exact ⟨k ++ [x], by simp [(List.cons.inj hk).2]⟩

theorem Text.occurs_of_isInfix {v s t : Text} (h : occurs v s = true) (hs : s <:+: t) :
    occurs v t = true := by
  obtain ⟨p, r, rfl⟩ := occurs_iff.1 h
  obtain ⟨a, b, rfl⟩ := hs
  exact occurs_iff.2 ⟨a ++ p, r ++ b, by simp⟩

theorem Text.not_occurs_of_isInfix {v s t : Text} (h : occurs v t = false) (hs : s <:+: t) :
    occurs v s = false :=
  Bool.eq_false_iff.2 fun hoccurs => by
    rw [occurs_of_isInfix hoccurs hs] at h
    cases h

namespace Recogniser

variable {α : Type} {p : Recogniser α} {render : α → Text} {test : Text → Bool} {s t u r : Text}
  {a : α} {c : Char}

/-! ## Replacing the first site -/

theorem replaceFirst_of_read (h : p.read? s = some (a, r)) :
    p.replaceFirst render s = render a ++ r := by
  cases s with
  | nil => rw [p.read?_nil] at h; cases h
  | cons c s => rw [replaceFirst, h]

theorem replaceFirst_of_none (h : p.read? (c :: s) = none) :
    p.replaceFirst render (c :: s) = c :: p.replaceFirst render s := by
  rw [replaceFirst, h]

/-- Nothing is read at a place of `s`, when `u` follows it. -/
def ReadsNone (p : Recogniser α) (s u : Text) : Prop :=
  ∀ t, t ≠ [] → t <:+ s → p.read? (t ++ u) = none

theorem readsNone_nil : p.ReadsNone [] u := fun _ hne ht => absurd (List.suffix_nil.1 ht) hne

theorem ReadsNone.cons (hc : p.read? (c :: (s ++ u)) = none) (h : p.ReadsNone s u) :
    p.ReadsNone (c :: s) u := by
  intro t hne ht
  rcases List.suffix_cons_iff.1 ht with rfl | ht
  · exact hc
  · exact h t hne ht

theorem ReadsNone.append (h : p.ReadsNone s (t ++ u)) (ht : p.ReadsNone t u) :
    p.ReadsNone (s ++ t) u := by
  induction s with
  | nil => exact ht
  | cons c s ih =>
      have hc := h (c :: s) (List.cons_ne_nil c s) (List.suffix_refl _)
      rw [← List.append_assoc] at hc
      exact .cons hc (ih fun x hne hx => h x hne (hx.trans (List.suffix_cons c s)))

theorem ReadsNone.followedBy (h : p.ReadsNone s u) : (p.followedBy test).ReadsNone s u := by
  intro t hne ht
  rw [read?_followedBy, h t hne ht]
  rfl

theorem ReadsNone.replaceFirst_append (h : p.ReadsNone s u) :
    p.replaceFirst render (s ++ u) = s ++ p.replaceFirst render u := by
  induction s with
  | nil => rfl
  | cons c s ih =>
      have hc := h (c :: s) (List.cons_ne_nil c s) (List.suffix_refl _)
      exact (replaceFirst_of_none hc).trans (congrArg (c :: ·)
        (ih fun t hne ht => h t hne (ht.trans (List.suffix_cons c s))))

theorem ReadsNone.replaceFirst_eq_self (h : p.ReadsNone s []) : p.replaceFirst render s = s := by
  have hs : p.replaceFirst render (s ++ []) = s ++ p.replaceFirst render [] :=
    h.replaceFirst_append
  rwa [List.append_nil, replaceFirst, List.append_nil] at hs

theorem ReadsNone.sites_append (h : p.ReadsNone s u) : p.sites (s ++ u) = p.sites u := by
  induction s with
  | nil => rfl
  | cons c s ih =>
      have hc := h (c :: s) (List.cons_ne_nil c s) (List.suffix_refl _)
      exact (sites_of_none hc).trans (ih fun t hne ht => h t hne (ht.trans (List.suffix_cons c s)))

theorem ReadsNone.sites_eq_nil (h : p.ReadsNone s []) : p.sites s = [] := by
  have := h.sites_append
  rwa [List.append_nil, sites_nil] at this

/-- Nothing is read in a text, or there is a first place at which something is. -/
theorem readsNone_or_exists_first (p : Recogniser α) (s : Text) :
    p.ReadsNone s [] ∨
      ∃ u t a r, s = u ++ t ∧ p.ReadsNone u t ∧ p.read? t = some (a, r) := by
  induction s with
  | nil => exact .inl readsNone_nil
  | cons c s ih =>
      cases hc : p.read? (c :: s) with
      | some x => exact .inr ⟨[], c :: s, x.1, x.2, rfl, readsNone_nil, hc⟩
      | none =>
          rcases ih with h | ⟨u, t, a, r, rfl, hu, ht⟩
          · exact .inl (.cons (by rwa [List.append_nil]) h)
          · exact .inr ⟨c :: u, t, a, r, rfl, .cons hc hu, ht⟩

/-- A replacement of the first site can be cut behind a text that is read locally. -/
theorem replaceFirst_append (h : ∀ t, t <:+ s → p.LocalAt u t) :
    p.replaceFirst render (s ++ u) = p.replaceFirst render s ++ u ∨
      p.replaceFirst render (s ++ u) = p.replaceFirst render s ++ p.replaceFirst render u := by
  induction s with
  | nil => exact .inr rfl
  | cons c s ih =>
      have hlocal := h (c :: s) (List.suffix_refl _)
      cases hc : p.read? (c :: s) with
      | some x =>
          refine .inl ?_
          rw [replaceFirst_of_read (hlocal.of_some hc), replaceFirst_of_read hc, List.append_assoc]
      | none =>
          have hpass : p.replaceFirst render (c :: s ++ u) = c :: p.replaceFirst render (s ++ u) :=
            replaceFirst_of_none (hlocal.of_none hc)
          rw [hpass, replaceFirst_of_none hc]
          exact (ih fun t ht => h t (ht.trans (List.suffix_cons c s))).imp
            (congrArg (c :: ·)) (congrArg (c :: ·))

end Recogniser

namespace MathML

variable {s t u v w r a b : Text} {c : Char}

/-! ## Namespace attributes -/

theorem attributeOpen_ne_nil : attributeOpen ≠ [] := by decide

/-- A namespace attribute with the blanks in front of it; what is read is its value. -/
def namespaceValue : Recogniser Text :=
  (Recogniser.run isBlank).bind fun _ =>
    (Recogniser.literal attributeOpen attributeOpen_ne_nil).bind fun _ => .upTo '"'

/-- The namespaces that a tag names, one after the other. -/
def namespaces (s : Text) : List Text := namespaceValue.sites s

/-- A namespace attribute is named, however it is quoted, behind a blank. -/
def NamesNamespace (s : Text) : Prop :=
  ∃ a c b, isBlank c = true ∧ s = a ++ c :: (attributeName ++ b)

/-- Behind a namespace attribute another one is named. -/
def Repeats (s : Text) : Prop :=
  ∃ a c v b, isBlank c = true ∧ '"' ∉ v ∧ s = a ++ c :: (attributeOpen ++ (v ++ '"' :: b)) ∧
    NamesNamespace b

theorem repeatedNamespace_eq : repeatedNamespace = namespaceValue.followedBy hasFurtherNamespace :=
  rfl

theorem repeatedNamespace_read?_eq_some_iff : repeatedNamespace.read? s = some (v, r) ↔
    namespaceValue.read? s = some (v, r) ∧ hasFurtherNamespace r = true := by
  rw [repeatedNamespace_eq, Recogniser.read?_followedBy, Option.filter_eq_some_iff]

theorem readsNone_repeatedNamespace (h : namespaceValue.ReadsNone s u) :
    repeatedNamespace.ReadsNone s u :=
  h.followedBy

theorem attributeOpen_eq : attributeOpen = attributeName ++ ['"'] := by decide

theorem isBlank_of_mem_attributeOpen (h : c ∈ attributeOpen) : isBlank c = false := by
  have : ∀ c ∈ attributeOpen, isBlank c = false := by decide
  exact this c h

theorem NamesNamespace.of_suffix (h : NamesNamespace s) (hs : s <:+ t) : NamesNamespace t := by
  obtain ⟨a, c, b, hc, rfl⟩ := h
  obtain ⟨x, rfl⟩ := hs
  exact ⟨x ++ a, c, b, hc, by simp⟩

theorem namespaceValue_read?_eq_some_iff : namespaceValue.read? s = some (v, r) ↔
    ∃ b, b ≠ [] ∧ (∀ c ∈ b, isBlank c = true) ∧ '"' ∉ v ∧
      s = b ++ (attributeOpen ++ (v ++ '"' :: r)) := by
  constructor
  · intro h
    obtain ⟨⟨b, r₁⟩, hb, h⟩ := Option.bind_eq_some_iff.1 h
    obtain ⟨⟨_, r₂⟩, hr₁, h⟩ := Option.bind_eq_some_iff.1 h
    obtain rfl := Recogniser.read?_literal_eq_some_iff.1 hr₁
    obtain ⟨rfl, hv⟩ := splitAt?_eq_some_iff.1 h
    exact ⟨b, run?_ne_nil hb, run?_all hb, hv, run?_eq_append hb⟩
  · rintro ⟨b, hne, hb, hv, rfl⟩
    have hrun : run? isBlank (b ++ (attributeOpen ++ (v ++ '"' :: r))) =
        some (b, attributeOpen ++ (v ++ '"' :: r)) :=
      run?_append hne hb fun c hc => isBlank_of_mem_attributeOpen (by
        obtain rfl := Option.some.inj hc
        exact .head _)
    rw [namespaceValue, Recogniser.read?_bind, Recogniser.read?_run, hrun, Option.bind_some,
      Recogniser.read?_bind, (Recogniser.read?_literal_eq_some_iff (u := ())).2 rfl,
      Option.bind_some]
    exact splitAt?_eq_some_iff.2 ⟨rfl, hv⟩

/-- Behind blanks and the opening of an attribute, a quotation mark is all that a reading needs. -/
theorem exists_read (hne : b ≠ []) (hb : ∀ c ∈ b, isBlank c = true) (hs : '"' ∈ s) :
    ∃ x, namespaceValue.read? (b ++ (attributeOpen ++ s)) = some x := by
  obtain ⟨v, r, rfl, hv⟩ := List.eq_append_cons_of_mem hs
  exact ⟨(v, r), namespaceValue_read?_eq_some_iff.2 ⟨b, hne, hb, hv, rfl⟩⟩

/-- What is read from a later place ends later or at the same place. -/
theorem suffix_of_read (hs : namespaceValue.read? s = some (v, r)) (ht : t <:+ s)
    (hread : namespaceValue.read? t = some (w, u)) : u <:+ r := by
  have hquote : '"' ∉ attributeName := by decide
  obtain ⟨b, -, hb, hv, rfl⟩ := namespaceValue_read?_eq_some_iff.1 hs
  obtain ⟨b', -, -, -, rfl⟩ := namespaceValue_read?_eq_some_iff.1 hread
  obtain ⟨x, hx⟩ := ht
  rw [attributeOpen_eq] at hx
  have hfirst : (b ++ attributeName) ++ '"' :: (v ++ '"' :: r) =
      (x ++ b' ++ attributeName) ++ '"' :: (w ++ '"' :: u) := by simpa using hx.symm
  obtain ⟨k, hk⟩ := suffix_of_append_cons hfirst fun hmem => by
    rcases List.mem_append.1 hmem with hmem | hmem
    · exact absurd (hb _ hmem) (by decide)
    · exact hquote hmem
  have hsecond : v ++ '"' :: r = (k ++ w) ++ '"' :: u := by simpa using hk.symm
  exact suffix_of_append_cons hsecond hv

/-- Where no blank is, no attribute begins. -/
theorem readsNone_of_forall_not_isBlank (h : ∀ c ∈ s, isBlank c = false) :
    namespaceValue.ReadsNone s u := by
  intro t hne ht
  obtain ⟨c, t, rfl⟩ := List.exists_cons_of_ne_nil hne
  have hrun : run? isBlank (c :: t ++ u) = none := run?_eq_none_iff.2 fun x hx => by
    obtain rfl := Option.some.inj hx
    exact h c (ht.subset (.head _))
  exact Recogniser.read?_bind_eq_none hrun _

theorem occurs_of_read {x : Text × Text} (h : namespaceValue.read? s = some x) :
    occurs attributeOpen s = true := by
  obtain ⟨b, -, -, -, rfl⟩ := namespaceValue_read?_eq_some_iff.1 h
  exact occurs_iff.2 ⟨b, x.1 ++ '"' :: x.2, by simp⟩

theorem readsNone_of_not_occurs (h : occurs attributeOpen s = false) :
    namespaceValue.ReadsNone s [] := by
  intro t _ ht
  refine Option.eq_none_iff_forall_ne_some.2 fun x hx => ?_
  rw [List.append_nil] at hx
  have hoccurs := occurs_of_isInfix (occurs_of_read hx) ht.isInfix
  rw [h] at hoccurs
  cases hoccurs

/-! ## A further namespace in the same tag -/

theorem go_iff : hasFurtherNamespace.go s = true ↔ NamesNamespace s := by
  induction s with
  | nil =>
      refine ⟨nofun, ?_⟩
      rintro ⟨a, c, b, -, h⟩
      simp at h
  | cons c s ih =>
      rw [hasFurtherNamespace.go, Bool.or_eq_true, Bool.and_eq_true, startsWith_iff, ih]
      constructor
      · rintro (⟨hc, b, rfl⟩ | h)
        · exact ⟨[], c, b, hc, rfl⟩
        · exact h.of_suffix (List.suffix_cons c s)
      · rintro ⟨a, d, b, hd, h⟩
        cases a with
        | nil =>
            obtain ⟨rfl, rfl⟩ := List.cons.inj h
            exact .inl ⟨hd, b, rfl⟩
        | cons x a =>
            obtain ⟨-, rfl⟩ := List.cons.inj h
            exact .inr ⟨a, d, b, hd, rfl⟩

instance : DecidablePred NamesNamespace := fun _ => decidable_of_iff _ go_iff

theorem bne_of_not_mem (h : '>' ∉ s) : ∀ c ∈ s, (c != '>') = true := fun c hc => by
  rw [bne_iff_ne]
  rintro rfl
  exact h hc

/-- The end of the tag is as far as a further namespace is looked for. -/
theorem hasFurtherNamespace_append (h : '>' ∉ s) (u : Text) :
    hasFurtherNamespace (s ++ '>' :: u) = true ↔ NamesNamespace s := by
  rw [hasFurtherNamespace, List.takeWhile_append_of_pos (bne_of_not_mem h),
    List.takeWhile_cons_of_neg (by simp), List.append_nil, go_iff]

theorem hasFurtherNamespace_iff (h : '>' ∉ s) :
    hasFurtherNamespace s = true ↔ NamesNamespace s := by
  have htake : (s ++ []).takeWhile (· != '>') = s ++ [].takeWhile (· != '>') :=
    List.takeWhile_append_of_pos (bne_of_not_mem h)
  rw [List.append_nil, List.takeWhile_nil, List.append_nil] at htake
  rw [hasFurtherNamespace, htake, go_iff]

/-- What names a namespace behind its first character may be read there. -/
theorem namesNamespace_of_read {x : Text × Text} (h : namespaceValue.read? s = some x) :
    NamesNamespace s := by
  obtain ⟨b, hne, hb, -, rfl⟩ := namespaceValue_read?_eq_some_iff.1 h
  obtain ⟨b, c, rfl⟩ := (List.eq_nil_or_concat b).resolve_left hne
  exact ⟨b, c, '"' :: (x.1 ++ '"' :: x.2), hb c (by simp), by simp [attributeOpen_eq]⟩

theorem namesNamespace_of_namespaces (h : namespaces s ≠ []) : NamesNamespace s := by
  rcases namespaceValue.readsNone_or_exists_first s with hnone | ⟨u, t, v, r, rfl, -, ht⟩
  · exact absurd hnone.sites_eq_nil h
  · exact (namesNamespace_of_read ht).of_suffix (List.suffix_append u t)

end MathML

end CalcTypeset
