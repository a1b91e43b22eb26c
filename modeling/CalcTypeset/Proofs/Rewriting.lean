import CalcTypeset.Proofs.Scan
import CalcTypeset.Proofs.Site

/-!
# The division passes as one rewriting

However a division pass cuts its operands out of the line, it replaces division sites by their
fractions and nothing else. So a relation between texts that is kept by concatenation holds between
a line and the line with its divisions rewritten as soon as it holds between every site and its
fraction, and between the argument of a call and what becomes of it.
-/

namespace CalcTypeset.Fraction

open Text

/-- The relation holds wherever a division is rewritten. -/
structure Admits (R : Text → Text → Prop) : Prop where
  congruence : Text.Congruence R
  trans : ∀ {s t u}, R s t → R t u → R s u
  site : ∀ {w r q}, IsSite w q r → R w q.write
  argument : ∀ style s, R s (rewriteArgument style s)

variable {R : Text → Text → Prop} {kinds : List (Recogniser Quotient)}

theorem rel_rewriteSites (hR : Text.Congruence R) (htrans : ∀ {s t u}, R s t → R t u → R s u)
    (hsite : ∀ {w r q}, IsSite w q r → R w q.write) (hkinds : ∀ p ∈ kinds, p.Meets IsSite)
    (s : Text) : R s (rewriteSites kinds s) := by
  induction kinds generalizing s with
  | nil => exact hR.refl s
  | cons p kinds ih =>
      exact htrans (Recogniser.replaceAll_rel hR (hkinds p (by simp)) (fun _ _ _ hw => hsite hw) s)
        (ih (fun p hp => hkinds p (by simp [hp])) _)

/-- Multiplication signs may go to asterisks and back, so arguments may be rewritten. -/
theorem Admits.of_products (hR : Text.Congruence R)
    (htrans : ∀ {s t u}, R s t → R t u → R s u) (hsite : ∀ {w r q}, IsSite w q r → R w q.write)
    (hstar : R Markup.timesSign ['*']) (htimes : R ['*'] Markup.times) : Admits R where
  congruence := hR
  trans := htrans
  site := hsite
  argument style s := by
    have hstarred : R s (starProducts s) := Recogniser.replaceAll_rel hR
      (Recogniser.meets_literal _ _) (fun _ _ _ hw => hw ▸ hstar) s
    have hunstarred : ∀ t, R t (unstarProducts t) := Recogniser.replaceAll_rel hR
      (Recogniser.meets_single '*') fun _ _ _ hw => hw ▸ htimes
    exact htrans (htrans hstarred (rel_rewriteSites hR htrans hsite (meets_argumentSites style) _))
      (hunstarred _)

namespace Admits

theorem replaceAll (h : Admits R) {p : Recogniser Quotient} (hp : p.Meets IsSite) (s : Text) :
    R s (p.replaceAll Quotient.write s) :=
  Recogniser.replaceAll_rel h.congruence hp (fun _ _ _ hw => h.site hw) s

theorem rewriteSites (h : Admits R) (hkinds : ∀ p ∈ kinds, p.Meets IsSite) (s : Text) :
    R s (rewriteSites kinds s) :=
  rel_rewriteSites h.congruence h.trans h.site hkinds s

theorem rewriteArguments (h : Admits R) (style : CallStyle) (s : Text) :
    R s (rewriteArguments style s) := by
  have hR := h.congruence
  refine WordRule.replaceAll_rel hR meets_slashedCall ?_ s
  rintro w v c r - - ⟨hw, -, -⟩
  rw [hw]
  exact hR.append (hR.refl c.name)
    (hR.append (hR.append (hR.refl ['(']) (h.argument style _)) (hR.refl [')']))

theorem rewriteCallDividends (h : Admits R) (s : Text) : R s (rewriteCallDividends s) := by
  refine WordRule.replaceAll_rel h.congruence meets_callSite ?_ s
  rintro w v c r - - ⟨-, -, ⟨hnone, hw⟩ | ⟨d, hd, hsite⟩⟩
  · rw [hw, CallSite.write, hnone]
    exact h.congruence.refl _
  · rw [CallSite.write, hd]
    exact h.site hsite

theorem rewrite (h : Admits R) (style : CallStyle) (s : Text) : R s (rewrite style s) :=
  h.trans (h.trans (h.trans (h.rewriteArguments style s) (h.rewriteCallDividends _))
    (h.rewriteSites (meets_groupSites style) _)) (h.rewriteSites meets_basicSites _)

end Admits

end CalcTypeset.Fraction
