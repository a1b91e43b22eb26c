import CalcTypeset.Proofs.Blocks.Kept
import CalcTypeset.Proofs.CallRule
import CalcTypeset.Proofs.Renaming.Relation

/-!
# Names are opaque

References are blocks that no pass over operators and divisions can tell from each other. The passes
over constants and calls look at word runs outside of references, and the gaps and degree marks of a
line stand outside of them too. So every pass leaves two lines that differ only in names as two such
lines, and so does the conversion.
-/

namespace CalcTypeset

open Text Reference Renamed

variable {α : Type} {V : α → α → Prop} {s s' t t' : Text}

/-- The pass leaves two lines that differ only in names as two such lines. -/
def KeepsRenamed (f : Text → Text) : Prop := ∀ s s', Renamed s s' → Renamed (f s) (f s')

theorem KeepsRenamed.comp {f g : Text → Text} (hf : KeepsRenamed f) (hg : KeepsRenamed g) :
    KeepsRenamed fun s => g (f s) := fun s s' h => hg _ _ (hf s s' h)

theorem KeepsCompared.keepsRenamed {f : Text → Text} (hf : KeepsCompared Referred unbound f) :
    KeepsRenamed f := fun s s' h => (hf s s' (Renamed.compared h)).differ

/-! ## Word rules -/

/-- A word run holds no bracket, so both texts have the same one. -/
theorem Renamed.eq_of_word {w w' : Text} (h : Renamed w w') (hw : ∀ c ∈ w, isWordChar c = true) :
    w' = w := by
  rw [← List.append_nil w] at h
  obtain ⟨t, rfl, ht⟩ := append_of_not_mem h (square_not_mem_of_word hw)
  rw [eq_nil ht, List.append_nil]

theorem KeepsRenamed.of_wordRule {f : WordRule α}
    (hf : ∀ w, ReadsAlike (Compared Referred unbound) V (f w))
    (hstops : ∀ w c t, ¬ IsOutside c → (f w).read? (c :: t) = none) {render : α → Text}
    (hrender : ∀ a a', V a a' → Renamed (render a) (render a')) :
    KeepsRenamed (f.replaceAll render) := by
  intro s s' h
  refine opaque_referred.wordRule_replaceAll (fun w w' hw hword s s' h => ?_) hstops hrender
    h.compared
  obtain rfl := Renamed.eq_of_word hw hword
  exact (hf _).paired h

/-! ## Passes -/

theorem Text.keepsRenamed_squeeze : KeepsRenamed squeeze := fun _ _ h =>
  Differ.squeeze pairsBlocks_referred h

namespace Operator

theorem keepsRenamed_prepare : KeepsRenamed prepare :=
  opaque_referred.keepsCompared_prepare.keepsRenamed

theorem keepsRenamed_writeRemainders : KeepsRenamed writeRemainders := fun _ _ h =>
  opaque_referred.infixSign (by decide) Markup.modulo h.compared

theorem keepsRenamed_mergeDegrees : KeepsRenamed mergeDegrees := fun _ _ h =>
  opaque_referred.mergeDegrees h.compared

theorem keepsRenamed_finish : KeepsRenamed finish :=
  (keepsRenamed_writeRemainders.comp keepsRenamed_mergeDegrees).comp keepsRenamed_squeeze

end Operator

theorem Fraction.keepsRenamed_rewrite (style : CallStyle) : KeepsRenamed (rewrite style) :=
  (opaque_referred.keepsCompared_rewrite style).keepsRenamed

namespace KnownConstant

theorem readsAlike_call (k : KnownConstant) (w : Text) :
    ReadsAlike (Compared Referred unbound) Eq (k.call w) := by
  unfold call
  split
  · exact readsAlike_literal pairsBlocks_referred (by decide)
  · exact .never

theorem call_read?_eq_none (k : KnownConstant) (w : Text) {c : Char} (hc : ¬ IsOutside c)
    (t : Text) : (k.call w).read? (c :: t) = none := by
  unfold call
  split
  · refine Recogniser.read?_literal_eq_none (fun hhead => ?_) t
    obtain rfl : '(' = c := Option.some.inj hhead
    exact hc (by decide)
  · rfl

theorem keepsRenamed_replaceEach : KeepsRenamed replaceEach := by
  have hone : ∀ k : KnownConstant, KeepsRenamed k.replace := fun k =>
    .of_wordRule k.readsAlike_call (fun w _ t hc => k.call_read?_eq_none w hc t)
      fun _ _ _ => .refl _
  exact (hone pi).comp (hone e)

end KnownConstant

/-- No call begins inside a reference. -/
theorem Call.skips_flatCall : Skips Referred Call.flatCall := by
  have hpasses : ∀ {n}, IsName n → Passes Call.flatCall (Reference.write n) := by
    intro n hn t hnone y hy hsuffix
    rcases List.suffix_cons_iff.1 hsuffix with rfl | hsuffix
    · exact hnone
    · obtain ⟨m, hm, rfl⟩ := suffix_name hy hsuffix
      rw [List.append_assoc]
      exact Fraction.flatCall_read?_name_eq_none (fun c hc => hn.2 c (hm.subset hc)) t
  rintro _ _ ⟨n, n', hn, hn', rfl, rfl⟩
  exact ⟨hpasses hn, hpasses hn'⟩

namespace KnownFunction

/-- Whether the parentheses grow does not depend on names. -/
theorem isSized_eq (f : KnownFunction) (h : Renamed t t') : f.isSized t' = f.isSized t := by
  have hoccurs : ∀ lit : Text, '[' ∉ lit → (∃ c ∈ lit.head?, IsOutside c) →
      occurs lit t' = occurs lit t := fun lit hlit hhead =>
    h.compared.occurs pairsBlocks_referred hhead fun h => Renamed.after? h.differ hlit
  have hcall : Call.flatCall.occurs t' = Call.flatCall.occurs t :=
    (h.compared.aligned pairsBlocks_referred opaque_referred.flatCall).occurs Call.skips_flatCall
  unfold isSized
  rw [hoccurs Markup.fracOpen (by decide) ⟨'\\', rfl, by decide⟩,
    hoccurs Markup.sqrtOpen (by decide) ⟨'\\', rfl, by decide⟩,
    hoccurs Markup.timesSign (by decide) ⟨'\\', rfl, by decide⟩, hcall]

theorem renamed_typeset (f : KnownFunction) (h : Renamed t t') :
    Renamed (f.typeset t) (f.typeset t') := by
  have hmarked : Renamed (markedOnce t) (markedOnce t') := by
    rw [markedOnce, markedOnce, Differ.contains pairsBlocks_referred h (by decide)]
    split
    · exact h
    · exact h.append (.refl _)
  have hdelimited : Renamed (f.delimited t) (f.delimited t') := by
    rw [delimited, delimited, f.isSized_eq h]
    split
    · exact ((Differ.refl _).append h).append (.refl _)
    · exact h.parenthesised
  have hlatex : Renamed f.latex f.latex := .refl _
  cases f with
  | sin | cos | tan => exact hlatex.append hmarked.parenthesised
  | asin | acos | atan => exact (hlatex.append hdelimited).append (.refl _)
  | log | ln => exact hlatex.append hdelimited
  | sqrt => exact hlatex.append h.braced
  | exp => exact (Differ.refl "e^".toList).append h.braced
  | dtor => exact hlatex.append (h.append (.refl _)).parenthesised
  | rtod => exact (hlatex.append h.parenthesised).append (.refl _)

theorem keepsRenamed_typesetCalls (f : KnownFunction) : KeepsRenamed f.typesetCalls := by
  intro s s' h
  rw [f.typesetCalls_eq, f.typesetCalls_eq]
  refine KeepsRenamed.of_wordRule (fun w => ?_) (fun w c t hc => ?_)
    (fun _ _ ht => f.renamed_typeset ht) s s' h
  · unfold Call.closedCall
    split
    · exact Bracket.readsAlike_group pairsBlocks_referred
    · exact .never
  · unfold Call.closedCall
    split
    · exact group_read?_eq_none hc t
    · rfl

theorem keepsRenamed_typesetEach : KeepsRenamed typesetEach := by
  have hall : ∀ fs : List KnownFunction,
      KeepsRenamed fun s => fs.foldl (fun s f => f.typesetCalls s) s := by
    intro fs
    induction fs with
    | nil => exact fun _ _ h => h
    | cons f fs ih => exact (keepsRenamed_typesetCalls f).comp ih
  exact hall typesetOrder

end KnownFunction

/-! ## The conversion -/

theorem Stage.keepsRenamed_apply (style : CallStyle) (st : Stage) :
    KeepsRenamed (st.apply style) := by
  cases st with
  | squeezing => exact keepsRenamed_squeeze
  | constants => exact KnownConstant.keepsRenamed_replaceEach
  | preparation => exact Operator.keepsRenamed_prepare
  | fractions => exact Fraction.keepsRenamed_rewrite style
  | calls => exact KnownFunction.keepsRenamed_typesetEach
  | finishing => exact Operator.keepsRenamed_finish

theorem Stage.keepsRenamed_foldl (style : CallStyle) (stages : List Stage) :
    KeepsRenamed fun s => stages.foldl (fun s st => st.apply style s) s := by
  induction stages with
  | nil => exact fun _ _ h => h
  | cons st stages ih => exact (st.keepsRenamed_apply style).comp ih

end CalcTypeset
