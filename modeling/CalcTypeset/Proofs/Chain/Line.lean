import CalcTypeset.Proofs.Chain.Divide
import CalcTypeset.Proofs.Chain.Reader
import CalcTypeset.Proofs.Squeeze

/-!
# Converting a typed chain

A chain is typed as factors with an asterisk or a slash between them. All stages but two pass it
by: the preparation writes the products, and the divisions between them become what `typeset?`
says. The blanks that are squeezed at the end are those behind the multiplication signs.
-/

namespace CalcTypeset.Chain

open Text Fraction

/-- Factors with an operator in front of each, as they are typed. -/
def typedTail (ts : List (Op × Factor)) : Text := ts.flatMap fun x => x.1.sign :: x.2.text

/-- The factors of a chain gathered into products with slashes between them. -/
def products (t : Factor) : List (Op × Factor) → Product × List Product
  | [] => (⟨t, []⟩, [])
  | (.mul, u) :: ts =>
      (⟨t, (products u ts).1.first :: (products u ts).1.others⟩, (products u ts).2)
  | (.div, u) :: ts => (⟨t, []⟩, (products u ts).1 :: (products u ts).2)

variable {t : Factor} {ts : List (Op × Factor)} {c : Char} {s : Text}

theorem writeProducts_append {w : Text} (hw : ∀ c ∈ w, isPlainChar c = true ∨ c = '/') (s : Text) :
    Operator.writeProducts (w ++ s) = w ++ Operator.writeProducts s := by
  refine Operator.infixSign_replaceAll_of_solid (fun c hc => ?_) s
  rcases hw c hc with hc | rfl
  · exact ⟨isBlank_of_isPlainChar hc, ne_of_isPlainChar hc (by decide)⟩
  · decide

theorem writeProducts_typed (t : Factor) (ts : List (Op × Factor)) :
    Operator.writeProducts (t.text ++ typedTail ts) =
      quotients (products t ts).1 (products t ts).2 := by
  induction ts generalizing t with
  | nil =>
      rw [writeProducts_append fun c hc => .inl (t.isPlain c hc), Operator.writeProducts,
        typedTail, List.flatMap_nil, Recogniser.replaceAll_nil]
      simp [products, quotients, Product.write, further]
  | cons x ts ih =>
      obtain ⟨o, u⟩ := x
      have htyped : typedTail ((o, u) :: ts) = o.sign :: (u.text ++ typedTail ts) := rfl
      rw [writeProducts_append fun c hc => .inl (t.isPlain c hc), htyped]
      cases o with
      | mul =>
          rw [Op.sign, writeProducts_star (u.isSolidHead _), ih u, products, quotients, quotients,
            Product.write, Product.write, further_cons]
          simp
      | div =>
          have hslash := writeProducts_append (w := ['/']) (by simp) (u.text ++ typedTail ts)
          rw [ih u] at hslash
          rw [products, quotients_cons, write_of_single rfl]
          exact congrArg (t.text ++ ·) hslash

/-! ## The characters of a chain -/

theorem mem_typed (h : c ∈ t.text ++ typedTail ts) : isPlainChar c = true ∨ c = '*' ∨ c = '/' := by
  rcases List.mem_append.1 h with h | h
  · exact .inl (t.isPlain c h)
  · obtain ⟨⟨o, u⟩, -, hu⟩ := List.mem_flatMap.1 h
    rcases List.mem_cons.1 hu with rfl | hu
    · cases o
      · exact .inr (.inl rfl)
      · exact .inr (.inr rfl)
    · exact .inl (u.isPlain c hu)

/-! ## The conversion -/

/-- A typed chain is converted to what becomes of its products, or it is torn. -/
theorem exists_convert_typed (style : CallStyle) (t : Factor) (ts : List (Op × Factor)) :
    ∃ s, Conversion.convert style (t.text ++ typedTail ts) = squeeze s ∧
      Becomes s (typeset? none (products t ts).1 (products t ts).2) := by
  refine ⟨_, ?_, becomes_typeset _ _⟩
  have hmem : ∀ c, isPlainChar c = false → c ≠ '*' → c ≠ '/' → c ∉ t.text ++ typedTail ts := by
    intro c hplain hstar hslash h
    rcases mem_typed h with h | h | h
    · rw [hplain] at h; cases h
    · exact hstar h
    · exact hslash h
  have hblank : ∀ c ∈ t.text ++ typedTail ts, isBlank c = false := by
    intro c hc
    rcases mem_typed hc with hc | rfl | rfl
    · exact isBlank_of_isPlainChar hc
    · decide
    · decide
  have hvisible : isAllBlank (t.text ++ typedTail ts) = false := by
    obtain ⟨c, w, ht, hc, -⟩ := t.exists_cons
    rw [ht, List.cons_append, isAllBlank, List.all_cons, isBlank_of_isPlainChar hc]
    rfl
  rw [Conversion.convert_of_not_mem style hvisible (hmem '(' (by decide) (by decide) (by decide))
    (hmem '^' (by decide) (by decide) (by decide)) (hmem '%' (by decide) (by decide) (by decide))
    (hmem Markup.degree (by decide) (by decide) (by decide)), squeeze_eq_self hblank,
    writeProducts_typed]
  rfl

end CalcTypeset.Chain
