import CalcTypeset.Proofs.Chain.Factor
import CalcTypeset.Proofs.Located.Loop
import CalcTypeset.Proofs.Located.Repeated
import CalcTypeset.Proofs.Located.Scan

/-!
# The calls that become dividends

The calls over a term are found by a scan of the given text. It steps over each closed call as a
whole; when a slash and a term follow, the call and they become a fraction, and the scan goes on
behind the term, which may have been the name of a further call. Of a call that is not closed it
steps over no more than the parenthesis.

What a slash is followed by is read as far as it goes, so the text determines the divisor and the
blanks around the slash, and there is one scan only.
-/

namespace CalcTypeset.Located

open Text CalcTypeset.Bracket
open Fraction (callSite divisor isTermChar rewriteCallDividends CallSite)

/-- A closed call over a divisor, with the slash and the blanks between them. -/
structure Dividend where
  call : Call
  slash : Text
  divisor : Text

namespace Dividend

/-- The call, the slash and the divisor as they are typed. -/
def typed (q : Dividend) : Text := q.call.write ++ (q.slash ++ q.divisor)

/-- The fraction of the call and the divisor. -/
def written (q : Dividend) : Text := Markup.frac q.call.write q.divisor

end Dividend

/-- A closed call stands behind `passed`. It is taken as a dividend when a divisor follows it, and
otherwise as a stretch that stays. -/
inductive TakesDividend : (passed w : Text) → Piece Dividend → (behind : Text) → Prop where
  | divided {passed g d rest : Text} {c : Call} (closed : IsClosedAfter passed c)
      (isDivisor : IsDivisor g d rest) :
      TakesDividend passed (c.write ++ (g ++ d)) (.site ⟨c, g, d⟩) rest
  | whole {passed behind : Text} {c : Call} (closed : IsClosedAfter passed c)
      (undivided : ∀ g d rest, behind = g ++ (d ++ rest) → ¬ IsDivisor g d rest) :
      TakesDividend passed c.write (.plain c.write) behind

variable {passed s w r behind d g rest : Text} {p : Piece Dividend}

theorem IsDivisor.read? (h : IsDivisor g d rest) :
    divisor.read? (g ++ (d ++ rest)) = some (d, rest) := by
  have hslash := Chain.spacedSlash_read?_of_isSlash h.isSlash
    (Chain.IsRun.isSolidHead h.isTerm h.ne_nil rest)
  rw [divisor, Recogniser.read?_bind, hslash, Option.bind_some]
  exact Chain.run?_term h.isTerm h.ne_nil h.isMaximal

/-- A call is taken, whatever follows it. -/
theorem TakesDividend.exists_call (h : TakesDividend passed w p behind) :
    ∃ c u, IsClosedAfter passed c ∧ w = c.write ++ u := by
  cases h with
  | divided closed isDivisor => exact ⟨_, _, closed, rfl⟩
  | whole closed undivided => exact ⟨_, [], closed, (List.append_nil _).symm⟩

theorem determined_takesDividend : Determined TakesDividend Dividend.typed where
  write h := by cases h <;> rfl
  ne_nil h := by
    obtain ⟨c, u, hc, rfl⟩ := h.exists_call
    simp [Call.write, hc.name_ne_nil]
  eq h h' heq := by
    cases h with
    | divided closed isDivisor =>
        rw [List.append_assoc, List.append_assoc] at heq
        cases h' with
        | divided closed' isDivisor' =>
            rw [List.append_assoc, List.append_assoc] at heq
            obtain ⟨rfl, hbehind⟩ := closed.eq_of_append_eq closed' heq
            have hread := isDivisor.read?
            rw [hbehind, isDivisor'.read?] at hread
            obtain ⟨rfl, rfl⟩ := Prod.mk.inj (Option.some.inj hread)
            rw [List.append_cancel_right hbehind]
            exact ⟨rfl, rfl⟩
        | whole closed' undivided =>
            obtain ⟨-, hbehind⟩ := closed.eq_of_append_eq closed' heq
            exact absurd isDivisor (undivided _ _ _ hbehind.symm)
    | whole closed undivided =>
        cases h' with
        | divided closed' isDivisor' =>
            rw [List.append_assoc, List.append_assoc] at heq
            obtain ⟨-, hbehind⟩ := closed.eq_of_append_eq closed' heq
            exact absurd isDivisor' (undivided _ _ _ hbehind)
        | whole closed' undivided' =>
            obtain ⟨rfl, rfl⟩ := closed.eq_of_append_eq closed' heq
            exact ⟨rfl, rfl⟩

theorem follows_takesDividend :
    Follows TakesDividend Dividend.written callSite CallSite.write where
  takes_of_read {passed s w r b r'} hbreak hw hr := by
    rw [callSite_read?_eq] at hr
    obtain ⟨⟨t, u⟩, hgroup, hread⟩ := Option.map_eq_some_iff.1 hr
    obtain ⟨rfl, hc⟩ := IsClosedAfter.of_read hw hgroup hbreak
    cases hd : divisor.read? u with
    | none =>
        simp only [hd] at hread
        cases hread
        refine ⟨_, _, rfl, .whole hc fun g d rest hu h => ?_, rfl⟩
        rw [hu, h.read?] at hd
        cases hd
    | some x =>
        simp only [hd] at hread
        cases hread
        obtain ⟨g, rfl, hdivisor⟩ := isDivisor_of_read? hd
        exact ⟨_, _, by simp, .divided hc hdivisor, rfl⟩
  isBreak h := by
    obtain ⟨c, u, hc, -⟩ := h.exists_call
    exact hc.isBreak
  exists_read {passed w p behind} h := by
    obtain ⟨c, u, hc, rfl⟩ := h.exists_call
    refine ⟨_, _, by rw [List.append_assoc]; exact hc.run? _, ?_⟩
    rw [Ne, callSite_read?_eq_none_iff, hc.read?_group]
    exact Option.some_ne_none _
  apart h := by
    cases h with
    | divided closed isDivisor =>
        refine .inr fun c hc => Bool.eq_false_iff.2 fun hword => ?_
        have hterm := isDivisor.isMaximal c hc
        rw [Called.isTermChar_of_isWordChar hword] at hterm
        cases hterm
    | whole closed undivided => exact .inl (isBreak_write _)

/-! ## The loop -/

/-- The loop over the calls of a text that makes dividends of them. Of a call that is not closed
only the name and its parenthesis are left behind, and a call without a divisor as a whole. -/
def dividendLoop : Loop Text :=
  .ofWords fun name inside =>
    match closing? 0 inside with
    | none => (name ++ ['('], inside)
    | some (t, rest) =>
        match divisor.read? rest with
        | none => (Call.write ⟨name, t⟩, rest)
        | some (d, rest') => (Markup.frac (Call.write ⟨name, t⟩) d, rest')

theorem computes_dividendLoop : dividendLoop.Computes fun _ => rewriteCallDividends := by
  refine Loop.computes_ofWords (fun w r hr => ?_) (fun w r => ?_) fun s w r hw => ?_
  · obtain ⟨x, hx⟩ := Option.ne_none_iff_exists'.1 (mt callSite_read?_eq_none_iff.2 hr)
    rw [(group?_eq_some_iff.1 hx).1]
    rfl
  · split
    · exact List.suffix_refl r
    · next t rest hclosing =>
        have hrest : rest <:+ r := suffix_of_closing? hclosing
        split
        · exact hrest
        · next d rest' hd =>
            obtain ⟨g, rfl, -⟩ := isDivisor_of_read? hd
            exact ((List.suffix_append d rest').trans (List.suffix_append g _)).trans hrest
  · split
    · next hclosing => exact Loop.replaceAll_opening hw (callSite_read?_eq_none_iff.2 hclosing)
    · next t rest hclosing =>
        split
        · next hd => exact rewrite_of_undivided hw hclosing hd
        · next d rest' hd => exact rewrite_of_divided hw hclosing hd

/-- The closed calls over a divisor become fractions, as the scan of the given text finds them, and
a second time nothing is changed. The loop that does so ends, after at most as many turns as the
text has opening parentheses. -/
theorem rewriteCallDividends_isReplaced (s : Text) :
    IsReplaced TakesDividend Dividend.typed Dividend.written s (rewriteCallDividends s) ∧
      rewriteCallDividends (rewriteCallDividends s) = rewriteCallDividends s ∧
      ∃ n ≤ s.count '(', dividendLoop.Ends n [] s (rewriteCallDividends s) :=
  ⟨follows_takesDividend.isReplaced determined_takesDividend s, rewrite_rewrite s,
    computes_dividendLoop.ends [] s⟩

/-- The name of the second call is the divisor of the first, and so no call is left. -/
example : rewriteCallDividends "f(x)/g(y)/z".toList =
    "\\frac\x7bf(x)\x7d\x7bg\x7d(y)/z".toList := by decide +kernel

end CalcTypeset.Located
