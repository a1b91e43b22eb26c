import CalcTypeset.Proofs.Layout

/-!
# The operands are kept

A bracket, a blank and a slash stand between operands, a sign and its command are the same operand:
having the same operands is a relation that overlooks layout. So no pass loses an operand or moves
one, and the operands of the LaTeX line are those of the line as it was typed, with gaps squeezed
and constants replaced.
-/

namespace CalcTypeset

open Text Operands

namespace Fraction

theorem operands_wrapped {a b : Char} (ha : isSeparator a = true ∧ a ≠ '\\')
    (hb : isSeparator b = true ∧ b.isLower = false ∧ b ≠ '\\') (t : Text) :
    operands (a :: t ++ [b]) = operands t := by
  rw [List.cons_append, operands_cons ha.2, if_pos ha.1, List.nil_append,
    operands_append (isCut_close hb.2.1 t []), operands_cons hb.2.2, if_pos hb.1]
  simp

theorem operands_braced (t : Text) : operands (Markup.braced t) = operands t :=
  operands_wrapped (by decide) (by decide) t

theorem operands_parenthesised (t : Text) : operands (Markup.parenthesised t) = operands t :=
  operands_wrapped (by decide) (by decide) t

theorem operands_frac (n d : Text) :
    operands (Markup.frac n d) = operands n ++ operands d := by
  have hcut : IsCut ("\\frac".toList ++ Markup.braced n) (Markup.braced d) :=
    isCut_close (c := '\x7b') rfl _ _
  show operands ("\\frac".toList ++ Markup.braced n ++ Markup.braced d) = _
  rw [operands_append hcut, operands_command (k := ("\\frac".toList, [])) (by simp [commands]),
    operands_braced, operands_braced]
  rfl

theorem operands_divided {n g d : Text} (hg : IsSlash g) :
    operands (n ++ g ++ d) = operands n ++ operands d := by
  rw [List.append_assoc, operands_append (hg.isCut n d).1,
    operands_separators fun c hc => (hg.isSeparator c hc).1]

end Fraction

/-- Having the same operands is a matter of what is written, not of how it is laid out. -/
theorem overlooksLayout_operands : OverlooksLayout fun s s' => operands s' = operands s where
  refl _ := rfl
  symm := Eq.symm
  trans h h' := h'.trans h
  append hcut hcut' h h' := by rw [operands_append hcut, operands_append hcut', h, h']
  blank h := by
    have hsep := isSeparator_of_isBlank h
    exact ((operands_cons hsep.2 []).trans (by rw [if_pos hsep.1]; rfl)).symm
  degrees := by decide +kernel
  braced := Fraction.operands_braced
  parenthesised := Fraction.operands_parenthesised
  times := by decide +kernel
  modulo := by decide +kernel
  frac hg hn hd := by
    rw [Fraction.operands_frac, Fraction.operands_divided hg, hn, hd]

theorem Operator.operands_prepare (s : Text) : operands (prepare s) = operands s :=
  overlooksLayout_operands.prepare s

theorem Fraction.operands_rewrite {s : Text} (style : CallStyle) (hset : IsSetOff s) :
    operands (rewrite style s) = operands s :=
  overlooksLayout_operands.rewrite style hset

theorem Operator.operands_finish (s : Text) : operands (finish s) = operands s :=
  overlooksLayout_operands.finish s

/-! ## The conversion -/

/-- The LaTeX line has the operands of the line as it was typed, in the same order. -/
theorem Conversion.operands_convert {s : Text} (hs : '\\' ∉ s) :
    operands (convert .asTyped s) = operands (KnownConstant.replaceEach (squeeze s)) := by
  have hset : IsSetOff (KnownConstant.replaceEach (squeeze s)) :=
    isSetOff_of_backslashIsPi (Sum.backslashIsPi_replaceEach fun hmem =>
      (mem_squeeze hmem).elim (by decide) hs)
  unfold convert
  split
  · next hblank =>
      have hvisible : ¬ IsVisible s := by rw [isVisible_iff, hblank]; simp
      have hnil : squeeze s = [] := by rw [squeeze, skipBlanks_eq_nil hvisible]; rfl
      rw [hnil, KnownConstant.replaceEach_eq_self (by simp)]
  · have hprepared := hset.of_eases (Operator.eases_prepare _)
    calc operands ((Stage.ofStyle .asTyped).foldl (fun s st => st.apply .asTyped s) s)
        = operands (Operator.finish (Fraction.rewrite .asTyped
            (Operator.prepare (KnownConstant.replaceEach (squeeze s))))) := rfl
      _ = operands (KnownConstant.replaceEach (squeeze s)) := by
          rw [Operator.operands_finish, Fraction.operands_rewrite .asTyped hprepared,
            Operator.operands_prepare]

/-- A product in a call, with a reference and a remainder. -/
theorem Conversion.operands_convert_remainder_of_call :
    '\\' ∉ "2*[x] / sin(a*b/pi()) % 3".toList ∧
      operands (convert .asTyped "2*[x] / sin(a*b/pi()) % 3".toList) =
        "2*[x]sina*b\\pi%3".toList := by
  have hs : '\\' ∉ "2*[x] / sin(a*b/pi()) % 3".toList := by decide
  exact ⟨hs, (operands_convert hs).trans (by decide +kernel)⟩

end CalcTypeset
