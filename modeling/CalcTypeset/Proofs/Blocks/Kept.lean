import CalcTypeset.Proofs.Blocks.Product
import CalcTypeset.Proofs.Trace

/-!
# Passes over lines that differ in blocks

A scan cuts two lines alike that differ in blocks: what it reads in one it reads in the other, and
where it reads nothing at a block it reads nothing inside it. So the passes over operators and
divisions leave two such lines as two such lines, and since they ease the gauge, what was known of
the lines is known of what becomes of them.
-/

namespace CalcTypeset

open Text Reference

variable {σ α : Type} {B : Text → Text → Prop} {G : Gauge σ} {rest : σ} {V : α → α → Prop}
  {p : Recogniser α} {s s' t x y : Text} {c : Char}

/-! ## Inside a block -/

theorem exists_getLast? (hy : y ≠ []) : ∃ d, y.getLast? = some d := by
  cases h : y.getLast? with
  | none => exact absurd (List.getLast?_eq_none_iff.1 h) hy
  | some d => exact ⟨d, rfl⟩

/-- Where nothing is read at the block, nothing is read inside it. -/
def Passes (p : Recogniser α) (x : Text) : Prop :=
  ∀ t, p.read? (x ++ t) = none → ∀ y, y ≠ [] → y <:+ x → p.read? (y ++ t) = none

/-- Where nothing is read at a block, nothing is read inside it. -/
def Skips (B : Text → Text → Prop) (p : Recogniser α) : Prop :=
  ∀ x x', B x x' → Passes p x ∧ Passes p x'

theorem skips_of_head (hB : PairsBlocks B) (hp : ∀ c t, ¬ IsOutside c → p.read? (c :: t) = none) :
    Skips B p := by
  have hpasses : ∀ {x}, IsBlock x → Passes p x := by
    intro x hx t _ y hy hsuffix
    obtain ⟨c, y, rfl⟩ := List.exists_cons_of_ne_nil hy
    exact hp c (y ++ t) (hx.not_isOutside c (hsuffix.subset (by simp)))
  exact fun x x' hx => ⟨hpasses (hB.left hx), hpasses (hB.right hx)⟩

/-- No site of a division begins inside a block. -/
theorem IsBlock.not_beginsAt (hx : IsBlock x)
    (hword : (∀ c ∈ x, isWordChar c = true) ∨ IsFramed x) (hy : y ≠ []) (hsuffix : c :: y <:+ x)
    (t : Text) : ¬ Fraction.BeginsAt c (y ++ t) := by
  have hc : c ∈ x := hsuffix.subset (by simp)
  have hinside : ∀ d ∈ y, IsInside d := by
    obtain ⟨z, rfl⟩ := hsuffix
    intro d hd
    refine hx.tail d ?_
    cases z with
    | nil => exact hd
    | cons e z => simp [hd]
  have hround : '(' ∉ y := fun h => (hinside _ h).ne (by decide) rfl
  rintro (hterm | hhead | ⟨hc', n, r, hsplit, hne, hn⟩)
  · rw [isTermChar_of_not_isOutside (hx.not_isOutside c hc)] at hterm
    cases hterm
  · obtain ⟨d, y, rfl⟩ := List.exists_cons_of_ne_nil hy
    obtain rfl : d = '(' := Option.some.inj hhead
    exact hround (by simp)
  · rcases hword with hword | hframed
    · rw [hword c hc] at hc'
      cases hc'
    -- The name of the call would hold the last character of the block.
    · have hmem : ∀ d ∈ y.getLast?, d ∈ n := by
        intro d hd
        rcases List.append_eq_append_iff.1 hsplit with ⟨z, rfl, -⟩ | ⟨z, rfl, hz⟩
        · exact List.mem_append_left _ (List.mem_of_getLast? hd)
        · cases z with
          | nil => rw [List.append_nil] at hd; exact List.mem_of_getLast? hd
          | cons e z =>
              obtain rfl := (List.cons.inj hz).1
              exact absurd (by simp) hround
      obtain ⟨d, hd⟩ := exists_getLast? hy
      have hlast : x.getLast? = some d := by
        obtain ⟨z, rfl⟩ := hsuffix
        rw [List.getLast?_append, List.getLast?_cons, hd]
        rfl
      have hfalse := hframed.last d hlast
      rw [hn d (hmem d hd)] at hfalse
      cases hfalse

theorem Opaque.skips_of_begins (hO : Opaque B G rest) {p : Recogniser Fraction.Quotient}
    (hp : Fraction.Begins p) : Skips B p := by
  have hpasses : ∀ {x}, IsBlock x → (∀ c ∈ x, isWordChar c = true) ∨ IsFramed x → Passes p x := by
    intro x hx hword t
    have hsuffixes : ∀ v, v <:+ x → p.read? (v ++ t) = none →
        ∀ y, y ≠ [] → y <:+ v → p.read? (y ++ t) = none := by
      intro v
      induction v with
      | nil =>
          intro _ _ y hy hsuffix
          exact absurd (List.suffix_nil.1 hsuffix) hy
      | cons c v ih =>
          intro hv hnone y hy hsuffix
          rcases List.suffix_cons_iff.1 hsuffix with rfl | hsuffix
          · exact hnone
          · have hne : v ≠ [] := by
              rintro rfl
              exact hy (List.suffix_nil.1 hsuffix)
            refine ih ((List.suffix_cons c v).trans hv) ?_ y hy hsuffix
            refine Option.eq_none_iff_forall_ne_some.2 fun z hz => ?_
            exact hx.not_beginsAt hword hne hv t (hp c (v ++ t) z hnone hz)
    exact hsuffixes x (List.suffix_refl x)
  exact fun x x' hx => (hO.word x x' hx).elim
    (fun h => ⟨hpasses (hO.blocks.left hx) (.inl h.1), hpasses (hO.blocks.right hx) (.inl h.2)⟩)
    fun h => ⟨hpasses (hO.blocks.left hx) (.inr h.1), hpasses (hO.blocks.right hx) (.inr h.2)⟩

/-! ## Scans -/

/-- A scan that reads nothing at a block passes it whole. -/
theorem Passes.replaceAll (h : Passes p x) (hnone : p.read? (x ++ t) = none) (render : α → Text) :
    p.replaceAll render (x ++ t) = x ++ p.replaceAll render t :=
  Recogniser.replaceAll_append_of_none fun y hy hsuffix => h t hnone y hy hsuffix

theorem Passes.sites (h : Passes p x) (hnone : p.read? (x ++ t) = none) :
    p.sites (x ++ t) = p.sites t := by
  have hpass : ∀ y, y <:+ x → p.sites (y ++ t) = p.sites t := by
    intro y
    induction y with
    | nil => exact fun _ => rfl
    | cons c y ih =>
        intro hy
        have hc := h t hnone (c :: y) (by simp) hy
        exact (Recogniser.sites_of_none hc).trans (ih ((List.suffix_cons c y).trans hy))
  exact hpass x (List.suffix_refl x)

/-- A scan cuts both texts alike: it is at their ends, at the same character, at blocks that it
passes whole, or at sites. -/
inductive Aligned (B : Text → Text → Prop) (V : α → α → Prop) (p : Recogniser α) :
    Text → Text → Prop where
  | nil : Aligned B V p [] []
  | pass (c : Char) {s s' : Text} (hs : p.read? (c :: s) = none) (hs' : p.read? (c :: s') = none)
      (h : Aligned B V p s s') : Aligned B V p (c :: s) (c :: s')
  | block {x x' s s' : Text} (hx : B x x') (hs : p.read? (x ++ s) = none)
      (hs' : p.read? (x' ++ s') = none) (h : Aligned B V p s s') :
      Aligned B V p (x ++ s) (x' ++ s')
  | site {s s' r r' : Text} {a a' : α} (hs : p.read? s = some (a, r))
      (hs' : p.read? s' = some (a', r')) (ha : V a a') (h : Aligned B V p r r') :
      Aligned B V p s s'

theorem Compared.aligned (hB : PairsBlocks B) (hp : ReadsAlike (Compared B G) V p) {s s' : Text}
    (h : Compared B G s s') : Aligned B V p s s' := by
  have hread := hp.paired h
  cases hx : p.read? s with
  | some y =>
      have hshrinks := p.shrinks hx
      rw [hx] at hread
      obtain ⟨a', r', hx', ha, hr⟩ := hread.exists_some
      exact .site hx hx' ha (aligned hB hp hr)
  | none =>
      rw [hx] at hread
      have hx' := hread.eq_none
      match h.differ with
      | .nil => exact .nil
      | @Differ.keep _ c u u' hd =>
          exact .pass c hx hx' (aligned hB hp
            (h.of_suffix hd (List.suffix_cons c u) (List.suffix_cons c u')))
      | @Differ.block _ x x' u u' hx₀ hd =>
          have hlength := List.length_pos_iff.2 (hB.left hx₀).ne_nil
          exact .block hx₀ hx hx' (aligned hB hp
            (h.of_suffix hd (List.suffix_append x u) (List.suffix_append x' u')))
termination_by s.length
decreasing_by
  · simp
  · rw [List.length_append]; omega
  · exact hshrinks

theorem Aligned.replaceAll (h : Aligned B V p s s') (hskips : Skips B p) {render : α → Text}
    (hrender : ∀ a a', V a a' → Differ B (render a) (render a')) :
    Differ B (p.replaceAll render s) (p.replaceAll render s') := by
  induction h with
  | nil => rw [Recogniser.replaceAll_nil]; exact .nil
  | pass c hs hs' _ ih =>
      rw [p.replaceAll_of_none render hs, p.replaceAll_of_none render hs']
      exact .keep c ih
  | block hx hs hs' _ ih =>
      rw [(hskips _ _ hx).1.replaceAll hs, (hskips _ _ hx).2.replaceAll hs']
      exact .block hx ih
  | site hs hs' ha _ ih =>
      rw [p.replaceAll_of_read render hs, p.replaceAll_of_read render hs']
      exact (hrender _ _ ha).append ih

/-- Something is read in both texts or in neither. -/
theorem Aligned.occurs (h : Aligned B V p s s') (hskips : Skips B p) :
    p.occurs s' = p.occurs s := by
  rw [Recogniser.occurs, Recogniser.occurs]
  induction h with
  | nil => rfl
  | pass c hs hs' _ ih => rw [Recogniser.sites_of_none hs, Recogniser.sites_of_none hs', ih]
  | block hx hs hs' _ ih => rw [(hskips _ _ hx).1.sites hs, (hskips _ _ hx).2.sites hs', ih]
  | site hs hs' ha _ ih => rw [Recogniser.sites_of_read hs, Recogniser.sites_of_read hs']; rfl

theorem Compared.replaceAll (hB : PairsBlocks B) (hp : ReadsAlike (Compared B G) V p)
    (hskips : Skips B p) {render : α → Text}
    (hrender : ∀ a a', V a a' → Differ B (render a) (render a')) (h : Compared B G s s') :
    Differ B (p.replaceAll render s) (p.replaceAll render s') :=
  (h.aligned hB hp).replaceAll hskips hrender

/-! ## Word rules -/

/-- A word rule that reads nothing in front of what may stand inside a block passes the end of a
framed block whole. -/
theorem WordRule.replaceAll_framed {f : WordRule α} {x : Text}
    (hstops : ∀ w c t, ¬ IsOutside c → (f w).read? (c :: t) = none) (render : α → Text)
    (hx : ∀ c ∈ x, ¬ IsOutside c) (hlast : ∀ c ∈ x.getLast?, isWordChar c = false) (t : Text) :
    f.replaceAll render (x ++ t) = x ++ f.replaceAll render t := by
  cases hrun : run? isWordChar x with
  | none =>
      match x with
      | [] => rfl
      | c :: x =>
          have hc : isWordChar c = false := run?_eq_none_iff.1 hrun c rfl
          have hlast' : ∀ d ∈ x.getLast?, isWordChar d = false := by
            intro d hd
            refine hlast d ?_
            rw [List.getLast?_cons, Option.mem_def.1 hd]
            rfl
          rw [List.cons_append, WordRule.replaceAll_cons_of_not_isWordChar _ hc,
            replaceAll_framed hstops render (fun d hd => hx d (by simp [hd])) hlast']
          rfl
  | some y =>
      obtain ⟨w, r⟩ := y
      have hlength := run?_length hrun
      have hsplit := run?_eq_append hrun
      have hlast' : ∀ d ∈ r.getLast?, isWordChar d = false := by
        intro d hd
        refine hlast d ?_
        rw [hsplit, List.getLast?_append, Option.mem_def.1 hd]
        rfl
      have hne : r ≠ [] := by
        rintro rfl
        rw [List.append_nil] at hsplit
        obtain ⟨d, hd⟩ := exists_getLast? (run?_ne_nil hrun)
        have hfalse := hlast d (hsplit ▸ hd)
        rw [run?_all hrun d (List.mem_of_getLast? hd)] at hfalse
        cases hfalse
      obtain ⟨c, r, rfl⟩ := List.exists_cons_of_ne_nil hne
      have hrun' : run? isWordChar (x ++ t) = some (w, c :: r ++ t) := by
        rw [hsplit, List.append_assoc]
        exact run?_append (run?_ne_nil hrun) (run?_all hrun) fun d hd => run?_head hrun d hd
      have hinside : ∀ d ∈ c :: r, ¬ IsOutside d := fun d hd =>
        hx d (by rw [hsplit]; exact List.mem_append_right w hd)
      rw [WordRule.replaceAll_of_none hrun' (hstops w c (r ++ t) (hinside c (by simp))),
        replaceAll_framed hstops render hinside hlast', hsplit, List.append_assoc]
termination_by x.length
decreasing_by
  · simp
  · exact hlength

/-- The rule reads alike behind two runs that differ in blocks. -/
def RuleAlike (B : Text → Text → Prop) (G : Gauge σ) (V : α → α → Prop) (f : WordRule α) : Prop :=
  ∀ w w', Differ B w w' → (∀ c ∈ w, isWordChar c = true) → ∀ s s', Compared B G s s' →
    Paired (Compared B G) V ((f w).read? s) ((f w').read? s')

/-- Blocks that do not begin with a word character are framed. -/
theorem Opaque.isFramed (hO : Opaque B G rest) {x x' : Text} (hx : B x x') {s : Text}
    (hhead : ∀ c ∈ (x ++ s).head?, isWordChar c = false) : IsFramed x ∧ IsFramed x' := by
  refine (hO.word x x' hx).resolve_left fun hword => ?_
  obtain ⟨c, y, rfl⟩ := List.exists_cons_of_ne_nil (hO.blocks.left hx).ne_nil
  exact Bool.false_ne_true ((hhead c rfl).symm.trans (hword.1 c (by simp)))

theorem Opaque.wordRule_replaceAll (hO : Opaque B G rest) {f : WordRule α}
    (hf : RuleAlike B G V f) (hstops : ∀ w c t, ¬ IsOutside c → (f w).read? (c :: t) = none)
    {render : α → Text} (hrender : ∀ a a', V a a' → Differ B (render a) (render a'))
    {s s' : Text} (h : Compared B G s s') :
    Differ B (f.replaceAll render s) (f.replaceAll render s') := by
  cases hrun : run? isWordChar s with
  | none =>
      rw [run?_eq_none_iff] at hrun
      match h.differ with
      | .nil => rw [WordRule.replaceAll_nil]; exact .nil
      | @Differ.keep _ c u u' hd =>
          have hc := hrun c rfl
          rw [WordRule.replaceAll_cons_of_not_isWordChar u hc,
            WordRule.replaceAll_cons_of_not_isWordChar u' hc]
          exact .keep c (wordRule_replaceAll hO hf hstops hrender
            (h.of_suffix hd (List.suffix_cons c u) (List.suffix_cons c u')))
      | @Differ.block _ x x' u u' hx hd =>
          have hlength := List.length_pos_iff.2 (hO.blocks.left hx).ne_nil
          have hframed := hO.isFramed hx hrun
          rw [WordRule.replaceAll_framed hstops render (hO.blocks.left hx).not_isOutside
              hframed.1.last,
            WordRule.replaceAll_framed hstops render (hO.blocks.right hx).not_isOutside
              hframed.2.last]
          exact .block hx (wordRule_replaceAll hO hf hstops hrender
            (h.of_suffix hd (List.suffix_append x u) (List.suffix_append x' u')))
  | some y =>
      obtain ⟨w, r⟩ := y
      have hlength := run?_length hrun
      have hpair := (readsAlike_run hO.blocks hO.takes_isWordChar).paired h
      rw [Recogniser.read?_run, hrun] at hpair
      obtain ⟨w', r', hrun', hw, hr⟩ := hpair.exists_some
      rw [Recogniser.read?_run] at hrun'
      have hread := hf w w' hw (run?_all hrun) r r' hr
      cases hx : (f w).read? r with
      | none =>
          rw [hx] at hread
          rw [WordRule.replaceAll_of_none hrun hx, WordRule.replaceAll_of_none hrun' hread.eq_none]
          exact hw.append (wordRule_replaceAll hO hf hstops hrender hr)
      | some y =>
          have hshrinks := (f w).shrinks hx
          rw [hx] at hread
          obtain ⟨a', u, hx', ha, hu⟩ := hread.exists_some
          rw [WordRule.replaceAll_of_read hrun hx, WordRule.replaceAll_of_read hrun' hx']
          exact (hrender _ _ ha).append (wordRule_replaceAll hO hf hstops hrender hu)
termination_by s.length
decreasing_by
  · simp
  · rw [List.length_append]; omega
  · exact hlength
  · exact Nat.lt_trans hshrinks hlength

/-! ## Passes -/

/-- The pass leaves two lines that differ in blocks as two such lines. -/
def KeepsCompared (B : Text → Text → Prop) (G : Gauge σ) (f : Text → Text) : Prop :=
  ∀ s s', Compared B G s s' → Compared B G (f s) (f s')

theorem KeepsCompared.comp {f g : Text → Text} (hf : KeepsCompared B G f)
    (hg : KeepsCompared B G g) : KeepsCompared B G fun s => g (f s) :=
  fun s s' h => hg _ _ (hf s s' h)

/-- A pass that eases the gauge keeps texts compared when they still differ in blocks. -/
theorem keepsCompared_of_eases {f : Text → Text} (hf : ∀ s, G.Eases s (f s))
    (h : ∀ s s', Compared B G s s' → Differ B (f s) (f s')) : KeepsCompared B G f :=
  fun s s' hs => hs.of_eases (h s s' hs) (hf s) (hf s')

/-- No group begins where something of a block stands. -/
theorem group_read?_eq_none (hc : ¬ IsOutside c) (t : Text) :
    Bracket.group.read? (c :: t) = none := by
  have hne : c ≠ '(' := by
    rintro rfl
    exact hc (by decide)
  show Bracket.group? (c :: t) = none
  simp [Bracket.group?, hne]

/-- Two sites of calls that differ in blocks. -/
structure CallSitesDiffer (B : Text → Text → Prop) (c c' : Fraction.CallSite) : Prop where
  call : CallsDiffer B c.call c'.call
  divisor : Option.Rel (Differ B) c.divisor? c'.divisor?

theorem CallSitesDiffer.write {c c' : Fraction.CallSite} (h : CallSitesDiffer B c c') :
    Differ B c.write c'.write := by
  obtain ⟨call, d?⟩ := c
  obtain ⟨call', d?'⟩ := c'
  obtain ⟨hcall, hd⟩ := h
  cases hd with
  | none => exact hcall.write
  | some hd => exact QuotientsDiffer.write ⟨hcall.write, hd⟩

namespace Opaque

variable (hO : Opaque B G rest)

include hO

/-! ## Operators -/

theorem infixSign {sign : Char} (hsign : IsOutside sign) (t : Text) (h : Compared B G s s') :
    Differ B ((Operator.infixSign sign).replaceAll (fun _ => t) s)
      ((Operator.infixSign sign).replaceAll (fun _ => t) s') := by
  have hskips : Skips B (Operator.infixSign sign) := by
    refine skips_of_head hO.blocks fun c u hc => ?_
    have hblank : isBlank c = false := Bool.eq_false_iff.2 fun h => hc (isOutside_of_isBlank h)
    have hne : c ≠ sign := by
      rintro rfl
      exact hc hsign
    rw [Operator.infixSign, Recogniser.read?_spaced, skipBlanks_cons_of_not_isBlank u hblank,
      Recogniser.read?_single_eq_none hne]
    rfl
  exact h.replaceAll hO.blocks ((readsAlike_single hO.blocks hsign).spaced hO.blocks) hskips
    fun _ _ _ => .refl t

theorem mergeDegrees (h : Compared B G s s') :
    Differ B (Operator.mergeDegrees s) (Operator.mergeDegrees s') := by
  have hdegree : ∀ c, decide (c = Markup.degree) = true → IsOutside c := fun c hc => by
    rw [of_decide_eq_true hc]
    decide
  have hread : ReadsAlike (Compared B G) Eq Operator.degreeRun :=
    (readsAlike_plainRun hO.blocks hdegree).filter fun _ _ hw => by rw [hw]
  refine h.replaceAll hO.blocks hread (skips_of_head hO.blocks fun c t hc => ?_) fun _ _ _ => .refl _
  have hrun : run? (fun c => c = Markup.degree) (c :: t) = none :=
    run?_eq_none_iff.2 fun d hd => by
      obtain rfl : c = d := Option.some.inj hd
      exact Bool.eq_false_iff.2 fun h => hc (hdegree c h)
  exact Recogniser.read?_filter_eq_none hrun _

/-- An exponent goes on at every character that may stand in a block. -/
theorem takes_isExponentChar : TakesBlocks B Operator.isExponentChar := by
  refine hO.blocks.takes_of_not_isOutside fun c hc => ?_
  cases h : Operator.isExponentChar c with
  | true => rfl
  | false => exact absurd (Operator.isOutside_of_not_isExponentChar h) hc

theorem power : ReadsAlike (Compared B G) (Differ B) Operator.power := by
  have hbare : ReadsAlike (Compared B G) (Differ B) (Recogniser.run Operator.isExponentChar) :=
    readsAlike_run hO.blocks hO.takes_isExponentChar
  have hsigned := (readsAlike_single (G := G) hO.blocks (c := '-') (by decide)).bind
    fun _ _ _ _ _ h => (hbare.map fun _ _ hw => Differ.keep '-' hw).paired h
  exact (readsAlike_single hO.blocks (by decide)).bind fun _ _ _ _ _ h =>
    (hsigned.orElse hbare).paired h

theorem keepsCompared_bracePowers : KeepsCompared B G Operator.bracePowers := by
  refine keepsCompared_of_eases hO.settles.eases_bracePowers fun s s' h => ?_
  refine h.replaceAll hO.blocks hO.power (skips_of_head hO.blocks fun c t hc => ?_)
    fun _ _ he => .keep '^' he.braced
  have hne : c ≠ '^' := by
    rintro rfl
    exact hc (by decide)
  exact Recogniser.read?_bind_eq_none (Recogniser.read?_single_eq_none hne t) _

theorem keepsCompared_writeProducts : KeepsCompared B G Operator.writeProducts :=
  keepsCompared_of_eases hO.settles.eases_writeProducts fun _ _ h =>
    hO.infixSign (by decide) Markup.times h

theorem keepsCompared_prepare : KeepsCompared B G Operator.prepare :=
  hO.keepsCompared_bracePowers.comp hO.keepsCompared_writeProducts

/-! ## Divisions -/

theorem keepsCompared_rewriteSites {kinds : List (Recogniser Fraction.Quotient)}
    (hkinds : ∀ p ∈ kinds, ReadsAlike (Compared B G) (QuotientsDiffer B) p)
    (hmeets : ∀ p ∈ kinds, p.Meets Fraction.IsSite) (hbegins : ∀ p ∈ kinds, Fraction.Begins p) :
    KeepsCompared B G (Fraction.rewriteSites kinds) := by
  induction kinds with
  | nil => exact fun _ _ h => h
  | cons p kinds ih =>
      have hp : KeepsCompared B G (p.replaceAll Fraction.Quotient.write) :=
        keepsCompared_of_eases (hO.settles.admits.replaceAll (hmeets p (by simp))) fun _ _ h =>
          h.replaceAll hO.blocks (hkinds p (by simp)) (hO.skips_of_begins (hbegins p (by simp)))
            fun _ _ hq => hq.write
      exact hp.comp (ih (fun p hp => hkinds p (by simp [hp])) (fun p hp => hmeets p (by simp [hp]))
        fun p hp => hbegins p (by simp [hp]))

theorem keepsCompared_starProducts : KeepsCompared B G Fraction.starProducts := by
  refine keepsCompared_of_eases hO.settles.eases_starProducts fun s s' h => ?_
  refine h.replaceAll hO.blocks (readsAlike_of_after? hO.times)
    (skips_of_head hO.blocks fun c t hc => Recogniser.read?_literal_eq_none ?_ t) fun _ _ _ => .refl _
  intro hhead
  obtain rfl : '\\' = c := Option.some.inj hhead
  exact hc (by decide)

theorem keepsCompared_unstarProducts : KeepsCompared B G Fraction.unstarProducts := by
  refine keepsCompared_of_eases hO.settles.eases_unstarProducts fun s s' h => ?_
  refine h.replaceAll hO.blocks (readsAlike_single hO.blocks (by decide))
    (skips_of_head hO.blocks fun c t hc => Recogniser.read?_single_eq_none ?_ t) fun _ _ _ => .refl _
  rintro rfl
  exact hc (by decide)

theorem keepsCompared_rewriteArgument (style : CallStyle) :
    KeepsCompared B G (Fraction.rewriteArgument style) :=
  (hO.keepsCompared_starProducts.comp (hO.keepsCompared_rewriteSites (hO.argumentSites style)
    (Fraction.meets_argumentSites style) (Fraction.begins_argumentSites style))).comp
      hO.keepsCompared_unstarProducts

/-- The contents of two groups can be read by the gauge like the texts in which they stand. -/
theorem readsAlike_group : ReadsAlike (Compared B G) (Compared B G) Bracket.group := by
  refine ⟨fun {s s'} h => ?_⟩
  have hread := (Bracket.readsAlike_group hO.blocks).paired h
  cases hx : Bracket.group.read? s with
  | none =>
      rw [hx] at hread
      rw [hread.eq_none]
      exact .none
  | some y =>
      rw [hx] at hread
      obtain ⟨a', r', hx', ha, hr⟩ := hread.exists_some
      have hinside : ∀ {s a r}, Bracket.group.read? s = some (a, r) → a <:+: s := by
        intro s a r hs
        exact ⟨['('], ')' :: r, (Bracket.group?_eq_some_iff.1 hs).1.symm⟩
      rw [hx']
      exact .some (h.of_infix ha (hinside hx) (hinside hx')) hr

theorem keepsCompared_rewriteArguments (style : CallStyle) :
    KeepsCompared B G (Fraction.rewriteArguments style) := by
  refine keepsCompared_of_eases (hO.settles.admits.rewriteArguments style) fun s s' h => ?_
  refine hO.wordRule_replaceAll (V := fun c c' => Differ B c.name c'.name ∧
    Compared B G c.content c'.content) (fun w w' hw _ s s' h => ?_) (fun w c t hc => ?_)
    (fun _ _ hc => ?_) h
  · have hslash : ∀ t t', Compared B G t t' → t'.contains '/' = t.contains '/' := fun t t' h =>
      h.differ.contains hO.blocks (by decide)
    exact ((hO.readsAlike_group.filter hslash).paired h).map fun _ _ ht => ⟨hw, ht⟩
  · exact Recogniser.read?_map_eq_none
      (Recogniser.read?_filter_eq_none (group_read?_eq_none hc t) _) _
  · exact hc.1.append (hO.keepsCompared_rewriteArgument style _ _ hc.2).differ.parenthesised

theorem keepsCompared_rewriteCallDividends : KeepsCompared B G Fraction.rewriteCallDividends := by
  refine keepsCompared_of_eases hO.settles.admits.rewriteCallDividends fun s s' h => ?_
  refine hO.wordRule_replaceAll (V := CallSitesDiffer B) (fun w w' hw _ s s' h => ?_)
    (fun w c t hc => ?_) (fun _ _ hc => hc.write) h
  · have hgroup := (Bracket.readsAlike_group hO.blocks).paired h
    simp only [Fraction.callSite, Recogniser.read?_orElse, Option.orElse_eq_orElse,
      Option.orElse_eq_or]
    refine (hgroup.bind fun t t' r r' ht hr => ?_).or ?_
    · have hdivisor := (readsAlike_divisor hO.blocks).paired hr
      simp only [Recogniser.read?_map]
      generalize Fraction.divisor.read? r = z at hdivisor ⊢
      generalize Fraction.divisor.read? r' = z' at hdivisor ⊢
      cases hdivisor with
      | none => exact .none
      | some hd hr => exact .some ⟨⟨hw, ht⟩, .some hd⟩ hr
    · simp only [Recogniser.read?_map]
      generalize Bracket.group.read? s = z at hgroup ⊢
      generalize Bracket.group.read? s' = z' at hgroup ⊢
      cases hgroup with
      | none => exact .none
      | some ht hr => exact .some ⟨⟨hw, ht⟩, .none⟩ hr
  · have hnone := group_read?_eq_none hc t
    exact Recogniser.read?_orElse_eq_none (Recogniser.read?_bind_eq_none hnone _)
      (Recogniser.read?_map_eq_none hnone _)

/-- The divisions of two lines that differ in blocks are rewritten alike. -/
theorem keepsCompared_rewrite (style : CallStyle) : KeepsCompared B G (Fraction.rewrite style) :=
  ((hO.keepsCompared_rewriteArguments style).comp hO.keepsCompared_rewriteCallDividends).comp
    ((hO.keepsCompared_rewriteSites (hO.groupSites style) (Fraction.meets_groupSites style)
      (Fraction.begins_groupSites style)).comp
    (hO.keepsCompared_rewriteSites hO.basicSites Fraction.meets_basicSites
      Fraction.begins_basicSites))

end Opaque

end CalcTypeset
