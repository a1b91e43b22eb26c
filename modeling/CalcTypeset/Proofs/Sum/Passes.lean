import CalcTypeset.Proofs.Sum.Locality

/-!
# The passes over a sum

A pass is additive when it rewrites the two sides of a sum apart and leaves both fit to be joined
again. Additive passes compose, so the division passes need to be looked at one by one only: each
is a scan that stays in front of the sign and reads nothing at it, keeps the brackets, and ends
what it writes with a bracket, so that no operator is left hanging in front of the sign.
-/

namespace CalcTypeset.Sum

open Text CalcTypeset.Bracket

variable {s v : Text} {sign : Char}

/-- A line that a sign may follow. -/
structure IsAugend (s : Text) : Prop where
  ne_nil : s ≠ []
  last : ∀ c ∈ s.getLast?, isBlank c = false ∧ c ≠ '/' ∧ c ≠ '*'
  times : ¬ Markup.timesSign <:+ s
  round : IsBalanced '(' ')' s
  curly : IsBalanced '{' '}' s

/-- Every tail of the left side of a sum is sealed. -/
theorem IsAugend.isSealed (h : IsAugend s) {t : Text} (ht : t <:+ s) : IsSealed t :=
  IsSealed.of_suffix {
    last := h.last
    times := h.times
    round := fun _ hr => closing?_isSome_of_suffix h.round hr
    curly := fun _ hr => Kind.closing_mem_of_suffix (k := .curly) h.curly hr } ht

/-- Rewriting the two sides of a sum apart is rewriting the sum. -/
structure Additive (f : Text → Text) : Prop where
  joined : ∀ {sign s v}, IsSign sign → IsAugend s → IsAddend v →
    f (joined sign s v) = Sum.joined sign (f s) (f v)
  augend : ∀ {s}, IsAugend s → IsAugend (f s)
  addend : ∀ {v}, IsAddend v → IsAddend (f v)

theorem Additive.comp {f g : Text → Text} (hf : Additive f) (hg : Additive g) :
    Additive fun s => g (f s) where
  joined hsign hs hv := by
    rw [hf.joined hsign hs hv, hg.joined hsign (hf.augend hs) (hf.addend hv)]
  augend hs := hg.augend (hf.augend hs)
  addend hv := hg.addend (hf.addend hv)

theorem additive_id : Additive fun s => s where
  joined _ _ _ := rfl
  augend hs := hs
  addend hv := hv

/-! ## What a pass may write -/

/-- Replacements that end with a closing bracket, and start as what they replace does or with a
command other than a multiplication sign. -/
structure IsClean (S : Text → Text → Prop) : Prop where
  last : ∀ w w', S w w' → ∃ z ∈ w'.getLast?, z = '}' ∨ z = ')'
  head : ∀ w w', S w w' → (∃ c x x', w = c :: x ∧ w' = c :: x' ∧ c ≠ '\\') ∨
    ∃ c x, w' = '\\' :: c :: x ∧ c ≠ 't'

theorem IsClean.ne_nil {S : Text → Text → Prop} (hS : IsClean S) {w w' : Text} (h : S w w') :
    w' ≠ [] := by
  rintro rfl
  obtain ⟨z, hz, -⟩ := hS.last _ _ h
  cases hz

theorem IsAugend.rewrites {S : Text → Text → Prop} {s' : Text} (hs : IsAugend s)
    (hS : IsClean S) (h : Rewrites S s s') (hkeeps : ∀ k, Keeps k s s') : IsAugend s' := by
  have hsuffix : ∀ x : Text, '}' ∉ x → ')' ∉ x → x <:+ s' → x <:+ s := by
    intro x hcurly hround
    refine h.suffix fun w w' hw => ?_
    obtain ⟨z, hz, rfl | rfl⟩ := hS.last w w' hw
    · exact ⟨_, hz, hcurly⟩
    · exact ⟨_, hz, hround⟩
  refine ⟨h.ne_nil (fun _ _ => hS.ne_nil) hs.ne_nil, fun c hc => ?_, fun ht => ?_,
    (hkeeps .round).isBalanced hs.round, (hkeeps .curly).isBalanced hs.curly⟩
  · by_cases hbracket : c = '}' ∨ c = ')'
    · rcases hbracket with rfl | rfl <;> decide
    · rw [not_or] at hbracket
      obtain ⟨x, hx⟩ := hsuffix [c] (by simpa using Ne.symm hbracket.1)
        (by simpa using Ne.symm hbracket.2) (by
          obtain ⟨y, rfl⟩ := List.getLast?_eq_some_iff.1 hc
          exact List.suffix_append y [c])
      exact hs.last c (by rw [← hx, List.getLast?_concat]; rfl)
  · exact hs.times (hsuffix _ (by decide) (by decide) ht)

/-- A multiplication sign at the start of a rewriting is not made of a backslash that was kept. -/
theorem not_times_prefix_of_keep {S : Text → Text → Prop} {c : Char} {r r' : Text}
    (h : Rewrites S r r') (hne : ∀ w w', S w w' → w' ≠ [])
    (hhead : ∀ w w', S w w' → w'.head? = some 't' → w.head? = some 't')
    (hc : ¬ ['\\', 't'] <+: c :: r) : ¬ ['\\', 't'] <+: c :: r' := by
  intro ht
  obtain ⟨rfl, y, rfl⟩ := List.cons_prefix_cons.1 ht
  have hr : r.head? = some 't' := by
    rcases h.head? hne with heq | ⟨w, w', z, hw, rfl, heq⟩
    · exact heq.symm
    · rw [List.head?_append, hhead w w' hw heq.symm]
      rfl
  obtain ⟨z, rfl⟩ := List.head?_eq_some_iff.1 hr
  exact hc ⟨z, rfl⟩

theorem IsAddend.rewrites {S : Text → Text → Prop} {v' : Text} (hv : IsAddend v)
    (hS : IsClean S) (h : Rewrites S v v') : IsAddend v' := by
  cases h with
  | nil => exact hv
  | @site w w' r r' hw hr =>
      rcases hS.head w w' hw with ⟨c, x, x', rfl, rfl, hc⟩ | ⟨c, x, rfl, hc⟩
      · refine ⟨by simp, hv.head, fun ht => hc ?_⟩
        exact (List.cons_prefix_cons.1 ht).1.symm
      · refine ⟨by simp, fun y hy => ?_, fun ht => hc ?_⟩
        · obtain rfl : '\\' = y := by simpa using hy
          decide
        · exact (List.cons_prefix_cons.1 (List.cons_prefix_cons.1 ht).2).1.symm
  | @keep c r r' hr =>
      refine ⟨by simp, hv.head, not_times_prefix_of_keep hr (fun _ _ => hS.ne_nil) ?_ hv.times⟩
      intro w w' hw ht
      rcases hS.head w w' hw with ⟨c, x, x', rfl, rfl, -⟩ | ⟨c, x, rfl, -⟩
      · exact ht
      · cases ht

/-! ## Scans -/

/-- Nothing is read at the sign or at the spaces around it. -/
def Passes {α : Type} (p : Recogniser α) (sign : Char) (v : Text) : Prop :=
  ∀ t, t ≠ [] → t <:+ [' ', sign, ' '] → p.read? (t ++ v) = none

theorem suffix_between {t : Text} (ht : t ≠ []) (h : t <:+ [' ', sign, ' ']) :
    (∃ r, t = ' ' :: r) ∨ t = [sign, ' '] := by
  rcases List.suffix_cons_iff.1 h with rfl | h
  · exact .inl ⟨_, rfl⟩
  · rcases List.suffix_cons_iff.1 h with rfl | h
    · exact .inr rfl
    · rcases List.suffix_cons_iff.1 h with rfl | h
      · exact .inl ⟨_, rfl⟩
      · exact absurd (List.suffix_nil.1 h) ht

theorem passes_of_head {α : Type} {p : Recogniser α} (hsign : IsSign sign)
    (hp : ∀ c x, c = ' ' ∨ c = '+' ∨ c = '-' → p.read? (c :: x) = none) : Passes p sign v := by
  intro t ht h
  rcases suffix_between ht h with ⟨r, rfl⟩ | rfl
  · exact hp _ _ (.inl rfl)
  · exact hp _ _ (.inr hsign)

theorem replaceAll_joined {α : Type} {p : Recogniser α} {P : Text → α → Text → Prop}
    {render : α → Text} (hs : IsAugend s) (hstays : Stays p sign v) (hpasses : Passes p sign v)
    (hp : p.Meets P) :
    p.replaceAll render (joined sign s v) =
      joined sign (p.replaceAll render s) (p.replaceAll render v) := by
  rw [joined, Recogniser.replaceAll_append (fun t _ ht => hstays t (hs.isSealed ht))
    (hp.mono fun _ _ _ _ => trivial)]
  exact congrArg _ (Recogniser.replaceAll_append_of_none (s := [' ', sign, ' ']) hpasses)

theorem wordRule_replaceAll_joined {α : Type} {f : WordRule α} {render : α → Text}
    {P : Text → Text → α → Text → Prop} (hsign : IsSign sign) (hs : IsAugend s)
    (hstays : ∀ w, Stays (f w) sign v) (hf : ∀ w, (f w).Meets (P w)) :
    f.replaceAll render (joined sign s v) =
      joined sign (f.replaceAll render s) (f.replaceAll render v) := by
  have hword : isWordChar sign = false := by
    rcases hsign with rfl | rfl <;> exact isWordChar_eq_false (by decide)
  rw [joined, WordRule.replaceAll_append
    (fun c hc => by rw [eq_of_mem_head?_tail hc, isWordChar_blank])
    (fun w t ht => hstays w t (hs.isSealed ht)) (fun w => (hf w).mono fun _ _ _ _ => trivial),
    WordRule.replaceAll_cons_of_not_isWordChar _ isWordChar_blank,
    WordRule.replaceAll_cons_of_not_isWordChar _ hword,
    WordRule.replaceAll_cons_of_not_isWordChar _ isWordChar_blank]
  rfl

/-! ## Divisions -/

open Fraction

theorem getLast?_frac (n d : Text) : (Markup.frac n d).getLast? = some '}' := by
  have hbraced : (Markup.braced d).getLast? = some '}' := by
    rw [Markup.braced, List.getLast?_concat]
  unfold Markup.frac
  rw [List.getLast?_append, hbraced]
  rfl

theorem frac_eq_cons (n d : Text) : ∃ x, Markup.frac n d = '\\' :: 'f' :: x :=
  ⟨"rac".toList ++ Markup.braced n ++ Markup.braced d, rfl⟩

/-- What a division pass replaces, and by what. -/
def SiteOf (w w' : Text) : Prop := ∃ q r, IsSite w q r ∧ w' = q.write

theorem isClean_siteOf : IsClean SiteOf where
  last := by
    rintro w _ ⟨q, r, -, rfl⟩
    exact ⟨'}', getLast?_frac _ _, .inl rfl⟩
  head := by
    rintro w _ ⟨q, r, -, rfl⟩
    obtain ⟨x, hx⟩ := frac_eq_cons q.dividend q.divisor
    exact .inr ⟨'f', x, hx, by decide⟩

theorem keeps_of_siteOf (k : Kind) {w w' : Text} (h : SiteOf w w') : Keeps k w w' := by
  obtain ⟨q, r, hw, rfl⟩ := h
  exact hw.keeps

/-- A scan is additive when it stays in front of the sign, reads nothing at it, and writes clean
replacements that keep the brackets. -/
theorem additive_replaceAll {α : Type} {p : Recogniser α} {P : Text → α → Text → Prop}
    {render : α → Text} {S : Text → Text → Prop} (hp : p.Meets P)
    (hrender : ∀ w a r, P w a r → S w (render a)) (hS : IsClean S)
    (hkeeps : ∀ k w w', S w w' → Keeps k w w')
    (hstays : ∀ {sign v}, IsSign sign → IsAddend v → Stays p sign v)
    (hpasses : ∀ {sign v}, IsSign sign → IsAddend v → Passes p sign v) :
    Additive (p.replaceAll render) := by
  have hrewrites := Recogniser.rewrites_replaceAll (S := S) hp hrender
  exact {
    joined := fun hsign hs hv => replaceAll_joined hs (hstays hsign hv) (hpasses hsign hv) hp
    augend := fun hs => hs.rewrites hS (hrewrites _)
      fun k => (hrewrites _).rel (congruence_keeps k) (hkeeps k)
    addend := fun hv => hv.rewrites hS (hrewrites _) }

theorem additive_wordRule {α : Type} {f : WordRule α} {P : Text → Text → α → Text → Prop}
    {render : α → Text} {S : Text → Text → Prop} (hf : ∀ w, (f w).Meets (P w))
    (hrender : ∀ w u a r, w ≠ [] → (∀ c ∈ w, isWordChar c = true) → P w u a r →
      S (w ++ u) (render a))
    (hS : IsClean S) (hkeeps : ∀ k w w', S w w' → Keeps k w w')
    (hstays : ∀ {sign v}, IsSign sign → ∀ w, Stays (f w) sign v) :
    Additive (f.replaceAll render) := by
  have hrewrites := WordRule.rewrites_replaceAll (S := S) hf hrender
  exact {
    joined := fun hsign hs hv => wordRule_replaceAll_joined hsign hs (hstays hsign) hf
    augend := fun hs => hs.rewrites hS (hrewrites _)
      fun k => (hrewrites _).rel (congruence_keeps k) (hkeeps k)
    addend := fun hv => hv.rewrites hS (hrewrites _) }

theorem additive_rewriteSites {kinds : List (Recogniser Quotient)}
    (hmeets : ∀ p ∈ kinds, p.Meets IsSite)
    (hstays : ∀ {sign v}, IsSign sign → ∀ p ∈ kinds, Stays p sign v)
    (hpasses : ∀ {sign v}, IsSign sign → IsAddend v → ∀ p ∈ kinds, Passes p sign v) :
    Additive (rewriteSites kinds) := by
  induction kinds with
  | nil => exact additive_id
  | cons p kinds ih =>
      show Additive fun s => rewriteSites kinds (p.replaceAll Quotient.write s)
      exact Additive.comp (additive_replaceAll (hmeets p (by simp))
        (fun w q r h => ⟨q, r, h, rfl⟩) isClean_siteOf (fun k w w' => keeps_of_siteOf k)
        (fun hsign _ => hstays hsign p (by simp)) (fun hsign hv => hpasses hsign hv p (by simp)))
        (ih (fun p hp => hmeets p (by simp [hp])) (fun hsign p hp => hstays hsign p (by simp [hp]))
          fun hsign hv p hp => hpasses hsign hv p (by simp [hp]))

/-- The sign may be read as a term, but no slash follows it. -/
theorem passes_division_term {d : Recogniser Text} (hsign : IsSign sign) (hv : IsAddend v) :
    Passes (division term spacedSlash d) sign v := by
  intro t ht h
  rcases suffix_between ht h with ⟨r, rfl⟩ | rfl
  · rfl
  · have hterm : isTermChar sign = true := by rcases hsign with rfl | rfl <;> decide
    have hrun : run? isTermChar ([sign] ++ ' ' :: v) = some ([sign], ' ' :: v) :=
      run?_append (by simp) (by simpa using hterm) fun c hc => by
        obtain rfl : ' ' = c := by simpa using hc
        decide
    have hslash : spacedSlash.read? (' ' :: v) = none := by
      rw [spacedSlash, Recogniser.read?_spaced, hv.skipBlanks]
      cases v with
      | nil => rfl
      | cons c v =>
          have : '/' ≠ c := fun h => (hv.head c rfl).2.1 h.symm
          simp [tightSlash, Recogniser.single, Recogniser.literal, after?, this]
    rw [division, Recogniser.read?_bind, show [sign, ' '] ++ v = [sign] ++ ' ' :: v from rfl, term,
      Recogniser.read?_run, hrun, Option.bind_some, Recogniser.read?_bind, hslash]
    rfl

theorem passes_groupSites (hsign : IsSign sign) (style : CallStyle) :
    ∀ p ∈ groupSites style, Passes p sign v := by
  intro p hp
  refine passes_of_head hsign fun c r hc => ?_
  have hne : c ≠ '(' := by rcases hc with rfl | rfl | rfl <;> decide
  have hword : isWordChar c = false := by
    rcases hc with rfl | rfl | rfl <;> exact isWordChar_eq_false (by decide)
  have hrun : run? isWordChar (c :: r) = none := run?_eq_none_iff.2 (by simpa using hword)
  exact groupSites_read?_eq_none style hne (Recogniser.read?_bind_eq_none hrun _) p hp

/-- The sign may be read as the first factor of a product, but no multiplication sign follows. -/
theorem passes_lineProduct (hsign : IsSign sign) (hv : IsAddend v) :
    Passes lineProduct.overTerm sign v := by
  intro t ht h
  rcases suffix_between ht h with ⟨r, rfl⟩ | rfl
  · rfl
  · have hterm : isTermChar sign = true := by rcases hsign with rfl | rfl <;> decide
    have hblank : lineProduct.accepts .first ' ' = false := by decide
    have hsignNone : after? lineProduct.sign (skipBlanks (' ' :: v)) = none := by
      rw [hv.skipBlanks, Option.eq_none_iff_forall_ne_some]
      intro r hr
      exact hv.times ⟨"imes".toList ++ r, (after?_eq_some_iff.1 hr).symm⟩
    have hcontinue : lineProduct.continue? .first (' ' :: v) = none := by
      rw [ProductNotation.continue?_eq, ProductNotation.nextFactor?, hsignNone]
      simp [hblank]
    show ((Recogniser.char isTermChar).read? (sign :: ' ' :: v)).bind _ = none
    simp [Recogniser.char, hterm, ProductNotation.remainder, hcontinue]

theorem passes_basicSites (hsign : IsSign sign) (hv : IsAddend v) :
    ∀ p ∈ basicSites, Passes p sign v := by
  refine forall_basicSites.2
    ⟨passes_of_head hsign fun c r hc => division_read?_eq_none (powerGroup_read?_eq_none ?_),
    passes_lineProduct hsign hv, passes_division_term hsign hv, passes_division_term hsign hv⟩
  rcases hc with rfl | rfl | rfl <;> decide

/-- A call whose argument is rewritten. -/
def ArgumentOf (w w' : Text) : Prop :=
  ∃ name t t', name ≠ [] ∧ (∀ c ∈ name, isWordChar c = true) ∧ w = Call.write ⟨name, t⟩ ∧
    w' = Call.write ⟨name, t'⟩ ∧ ∀ k, Keeps k t t'

theorem isClean_argumentOf : IsClean ArgumentOf where
  last := by
    rintro w _ ⟨name, t, t', -, -, -, rfl, -⟩
    exact ⟨')', getLast?_write _, .inr rfl⟩
  head := by
    rintro _ _ ⟨name, t, t', hne, hname, rfl, rfl, -⟩
    obtain ⟨c, x, rfl⟩ := List.exists_cons_of_ne_nil hne
    refine .inl ⟨c, _, _, rfl, rfl, ?_⟩
    rintro rfl
    have := hname '\\' (by simp)
    rw [isWordChar_of_lt (by decide)] at this
    exact absurd this (by decide)

theorem keeps_of_argumentOf (k : Kind) {w w' : Text} (h : ArgumentOf w w') : Keeps k w w' := by
  obtain ⟨name, t, t', -, -, rfl, rfl, hkeeps⟩ := h
  exact (Keeps.refl k name).append (keeps_parenthesised (hkeeps k))

theorem IsClean.or {S S' : Text → Text → Prop} (hS : IsClean S) (hS' : IsClean S') :
    IsClean fun w w' => S w w' ∨ S' w w' where
  last w w' h := h.elim (hS.last w w') (hS'.last w w')
  head w w' h := h.elim (hS.head w w') (hS'.head w w')

theorem additive_rewriteArguments (style : CallStyle) : Additive (rewriteArguments style) := by
  refine additive_wordRule meets_slashedCall (S := ArgumentOf) ?_ isClean_argumentOf
    (fun k _ _ => keeps_of_argumentOf k) fun _ _ => (stays_group.filter _).map _
  rintro w u c r hw hword ⟨hc, rfl, -⟩
  exact ⟨c.name, c.content, _, hw, hword, hc, rfl, fun k => keeps_rewriteArgument style _⟩

theorem additive_rewriteCallDividends : Additive rewriteCallDividends := by
  refine additive_wordRule meets_callSite (S := fun w w' => SiteOf w w' ∨ ArgumentOf w w') ?_
    (isClean_siteOf.or isClean_argumentOf)
    (fun k _ _ h => h.elim (keeps_of_siteOf k) (keeps_of_argumentOf k)) fun hsign _ => ?_
  · rintro w u ⟨⟨name, t⟩, d?⟩ r hw hword ⟨rfl, -, ⟨rfl, hc⟩ | ⟨d, rfl, hd⟩⟩
    · exact .inr ⟨name, t, t, hw, hword, hc, rfl, fun k => Keeps.refl k t⟩
    · exact .inl ⟨_, r, hd, rfl⟩
  · exact (stays_group.bind Bracket.meets_group fun _ =>
      ((stays_spacedSlash hsign).bind meets_spacedSlash fun _ => stays_term).map _).orElse
        (stays_group.map _)

/-- The divisions of a sum are rewritten on each side of the sign. -/
theorem additive_rewrite (style : CallStyle) : Additive (Fraction.rewrite style) :=
  ((additive_rewriteArguments style).comp additive_rewriteCallDividends).comp
    ((additive_rewriteSites (meets_groupSites style) (fun hsign => stays_groupSites hsign style)
      fun hsign _ => passes_groupSites hsign style).comp
    (additive_rewriteSites meets_basicSites stays_basicSites passes_basicSites))

end CalcTypeset.Sum
