import CalcTypeset.Proofs.Renaming.Kept

/-!
# Renaming before and after the conversion

A renaming writes every reference of a line with another name. In a line with valid names it is the
only text that differs from the line in names alone and has the new names in the order of the old
ones. The conversion keeps both, so it does not matter whether the variables of a line are renamed
before it is converted or afterwards.
-/

namespace CalcTypeset

open Text Reference

namespace Reference

/-- The line with every reference written with its new name, and all else as it is. -/
def rename (ρ : Text → Text) : Text → Text := reference.replaceAll fun n => write (ρ n)

/-- Every valid name that is not empty has a new name of this kind. -/
def RenamesValid (ρ : Text → Text) : Prop :=
  ∀ n, n ≠ [] → Variable.isValidName n = true → ρ n ≠ [] ∧ Variable.isValidName (ρ n) = true

variable {ρ : Text → Text} {s s' t n : Text}

theorem isName_of_isValidName (hne : n ≠ []) (h : Variable.isValidName n = true) : IsName n :=
  ⟨hne, isNameChar_of_isValidName h⟩

/-! ## The renamed line -/

@[simp] theorem rename_nil : rename ρ [] = [] := reference.replaceAll_nil _

theorem rename_cons_of_ne {c : Char} (hc : c ≠ '[') (s : Text) :
    rename ρ (c :: s) = c :: rename ρ s := by
  refine Recogniser.replaceAll_of_none reference _ ?_
  exact Recogniser.read?_bind_eq_none (Recogniser.read?_single_eq_none hc s) _

theorem rename_of_not_mem (h : ']' ∉ s) : rename ρ s = s := by
  refine Recogniser.replaceAll_eq_self fun t ht => ?_
  rw [Option.eq_none_iff_forall_ne_some]
  rintro ⟨n, r⟩ hread
  obtain ⟨w, hw, rfl, -, -⟩ := Fraction.meets_reference _ _ _ hread
  exact h (ht.subset (by rw [hw]; simp [write]))

theorem rename_write (hne : n ≠ []) (hn : ']' ∉ n) (t : Text) :
    rename ρ (write n ++ t) = write (ρ n) ++ rename ρ t :=
  reference.replaceAll_of_read _ (reference_read?_write hne hn t)

theorem rename_empty (t : Text) : rename ρ ('[' :: ']' :: t) = '[' :: ']' :: rename ρ t := by
  have hnone : reference.read? ('[' :: ']' :: t) = none := rfl
  have hcons : rename ρ ('[' :: ']' :: t) = '[' :: rename ρ (']' :: t) :=
    Recogniser.replaceAll_of_none reference _ hnone
  rw [hcons, rename_cons_of_ne (by decide)]

/-- A text with valid names, cut at its square brackets: one that opens no reference because nothing
closes it or because nothing stands in it, and one in front of a name. -/
inductive WellNamed : Text → Prop where
  | nil : WellNamed []
  | other {c : Char} {s : Text} (hc : c ≠ '[') (h : WellNamed s) : WellNamed (c :: s)
  | unclosed {s : Text} (hs : ']' ∉ s) : WellNamed ('[' :: s)
  | empty {t : Text} (h : WellNamed t) : WellNamed ('[' :: ']' :: t)
  | named {n t : Text} (hne : n ≠ []) (hn : Variable.isValidName n = true) (h : WellNamed t) :
      WellNamed (write n ++ t)

theorem HasValidNames.wellNamed (hs : HasValidNames s) : WellNamed s := by
  induction s using square_induction with
  | nil => exact .nil
  | other c s hc ih => exact .other hc (ih fun n hn => hs n (by rwa [names_cons_of_ne hc]))
  | unclosed s h => exact .unclosed h
  | closed n t hn ih =>
      have ht : HasValidNames t := fun m hm => hs m (by
        rw [names_closed hn]
        exact List.mem_append_right _ hm)
      by_cases hnil : n = []
      · subst hnil
        exact .empty (ih ht)
      · have hvalid : Variable.isValidName n = true := hs n (by
          rw [names_closed hn, if_neg hnil]
          simp)
        rw [← write_append_eq]
        exact .named hnil hvalid (ih ht)

theorem renamed_rename (hρ : RenamesValid ρ) (hs : WellNamed s) : Renamed s (rename ρ s) := by
  induction hs with
  | nil => rw [rename_nil]; exact .nil
  | other hc _ ih => rw [rename_cons_of_ne hc]; exact .keep _ ih
  | unclosed h => rw [rename_of_not_mem (by simpa using h)]; exact .refl _
  | empty _ ih => rw [rename_empty]; exact .keep '[' (.keep ']' ih)
  | named hne hn _ ih =>
      have hname := isName_of_isValidName hne hn
      obtain ⟨hne', hn'⟩ := hρ _ hne hn
      rw [rename_write hne hname.not_mem]
      exact .name hname (isName_of_isValidName hne' hn') ih

theorem names_write (hn : IsName n) (t : Text) : names (write n ++ t) = n :: names t := by
  rw [write_append_eq, names_reference hn.1 hn.not_mem]

theorem WellNamed.names (hs : WellNamed s) :
    ∀ n ∈ names s, n ≠ [] ∧ Variable.isValidName n = true := by
  induction hs with
  | nil => simp
  | other hc _ ih => rwa [names_cons_of_ne hc]
  | @unclosed s h => rw [names_of_not_mem (by simpa using h)]; simp
  | empty _ ih => rwa [names_empty]
  | named hne hn _ ih =>
      rw [names_write (isName_of_isValidName hne hn), List.forall_mem_cons]
      exact ⟨⟨hne, hn⟩, ih⟩

theorem names_rename (hρ : RenamesValid ρ) (hs : WellNamed s) :
    names (rename ρ s) = (names s).map ρ := by
  induction hs with
  | nil => rw [rename_nil, names_nil]; rfl
  | other hc _ ih => rw [rename_cons_of_ne hc, names_cons_of_ne hc, names_cons_of_ne hc, ih]
  | @unclosed s h =>
      have hmem : ']' ∉ '[' :: s := by simpa using h
      rw [rename_of_not_mem hmem, names_of_not_mem hmem]
      rfl
  | empty _ ih => rw [rename_empty, names_empty, names_empty, ih]
  | named hne hn _ ih =>
      have hname := isName_of_isValidName hne hn
      obtain ⟨hne', hn'⟩ := hρ _ hne hn
      rw [rename_write hne hname.not_mem, names_write hname,
        names_write (isName_of_isValidName hne' hn'), ih]
      rfl

/-- The new names say what the renamed line is. -/
theorem eq_rename (hs : WellNamed s) (h : Renamed s s') (hnames : names s' = (names s).map ρ) :
    s' = rename ρ s := by
  induction hs generalizing s' with
  | nil => rw [rename_nil, h.eq_nil]
  | other hc _ ih =>
      obtain ⟨t, rfl, ht⟩ := h.cons_of_ne hc
      rw [names_cons_of_ne hc, names_cons_of_ne hc] at hnames
      rw [rename_cons_of_ne hc, ih ht hnames]
  | @unclosed s hs =>
      have hmem : ']' ∉ '[' :: s := by simpa using hs
      rw [rename_of_not_mem hmem, h.eq_of_not_mem hmem]
  | @empty t _ ih =>
      obtain ⟨n', t', rfl, -, hnil, -, ht⟩ := Renamed.exists_bracket (n := []) h (by simp)
      obtain rfl := hnil.2 rfl
      have hempty : write [] ++ t' = '[' :: ']' :: t' := rfl
      rw [hempty, names_empty, names_empty] at hnames
      rw [hempty, rename_empty, ih ht hnames]
  | named hne hn _ ih =>
      have hname := isName_of_isValidName hne hn
      obtain ⟨n', t, rfl, hn', ht⟩ := h.exists_write hname
      rw [names_write hn', names_write hname, List.map_cons] at hnames
      obtain ⟨rfl, htail⟩ := List.cons.inj hnames
      rw [rename_write hne hname.not_mem, ih ht htail]

/-- The new names are valid. -/
theorem hasValidNames_rename (hρ : RenamesValid ρ) (hs : HasValidNames s) :
    HasValidNames (rename ρ s) := by
  intro n hn
  rw [names_rename hρ hs.wellNamed] at hn
  obtain ⟨m, hm, rfl⟩ := List.mem_map.1 hn
  obtain ⟨hne, hvalid⟩ := hs.wellNamed.names m hm
  exact (hρ m hne hvalid).2

end Reference

/-! ## The conversion -/

/-- It does not matter whether the variables of a line are renamed before it is converted or
afterwards. -/
theorem Conversion.convert_rename (style : CallStyle) {s : Text} {ρ : Text → Text}
    (hs : ∀ n ∈ names s, Variable.isValidName n = true)
    (hρ : ∀ n, n ≠ [] → Variable.isValidName n = true →
      ρ n ≠ [] ∧ Variable.isValidName (ρ n) = true) :
    convert style (rename ρ s) = rename ρ (convert style s) := by
  have hs : HasValidNames s := hs
  have hline := renamed_rename hρ hs.wellNamed
  unfold convert
  rw [Differ.isAllBlank pairsBlocks_referred hline]
  split
  · exact rename_nil.symm
  · have hkept := Stage.keepsReferences_foldl style (Stage.ofStyle style)
    have hnames := hkept.names s hs
    have hvalid : HasValidNames ((Stage.ofStyle style).foldl (fun s st => st.apply style s) s) :=
      fun n hn => hs n (by rwa [hnames] at hn)
    refine eq_rename hvalid.wellNamed (Stage.keepsRenamed_foldl style _ _ _ hline) ?_
    rw [hkept.names _ (hasValidNames_rename hρ hs), names_rename hρ hs.wellNamed, hnames]

/-- The new names are the name of a function and the name of a constant with a digit behind it. -/
theorem Conversion.convert_rename_to_function_names :
    (∀ n ∈ names "[a]*[e]/sin([a]/2)^[c]".toList, Variable.isValidName n = true) ∧
      convert .typeset (rename (fun n => if n = "a".toList then "sin".toList else "pi2".toList)
          "[a]*[e]/sin([a]/2)^[c]".toList) =
        rename (fun n => if n = "a".toList then "sin".toList else "pi2".toList)
          (convert .typeset "[a]*[e]/sin([a]/2)^[c]".toList) := by
  have hvalid : ∀ n ∈ names "[a]*[e]/sin([a]/2)^[c]".toList, Variable.isValidName n = true := by
    decide +kernel
  refine ⟨hvalid, convert_rename .typeset hvalid fun n _ _ => ?_⟩
  split <;> decide

end CalcTypeset
