import CalcTypeset.Proofs.Idle
import CalcTypeset.Proofs.Squeeze
import CalcTypeset.Proofs.Sum.Passes

/-!
# The operators and calls of a sum

Braced powers are one more clean replacement. Products are not, since the multiplication sign is
written with a space behind it; but a line that does not end with an asterisk is rewritten in
front of its last character. The constants come before there is any other markup, so a backslash
behind them stands for pi. Calls need no more than closed parentheses: a call that starts in the
left line is closed there.
-/

namespace CalcTypeset.Sum

open Text CalcTypeset.Bracket

variable {s v : Text} {sign : Char}

/-! ## Powers -/

/-- A power whose exponent gets braces. -/
def PowerOf (w w' : Text) : Prop := ∃ e, w = '^' :: e ∧ w' = '^' :: Markup.braced e

theorem isClean_powerOf : IsClean PowerOf where
  last := by
    rintro _ _ ⟨e, rfl, rfl⟩
    refine ⟨'}', ?_, .inl rfl⟩
    rw [Markup.braced, ← List.cons_append, List.getLast?_concat]
    rfl
  head := by
    rintro _ _ ⟨e, rfl, rfl⟩
    exact .inl ⟨'^', _, _, rfl, rfl, by decide⟩

theorem stays_power : Stays Operator.power sign v := by
  have hrun : Stays (Recogniser.run Operator.isExponentChar) sign v :=
    stays_run (by rw [Operator.isExponentChar, isDigit_of_lt (by decide)]; decide)
  exact (stays_single (by decide)).bind (Recogniser.meets_single '^') fun _ =>
    ((stays_single (by decide)).bind (Recogniser.meets_single '-') fun _ => hrun.map _).orElse
      hrun

theorem additive_bracePowers : Additive Operator.bracePowers := by
  refine additive_replaceAll Operator.meets_power (S := PowerOf) ?_ isClean_powerOf ?_
    (fun _ _ => stays_power) fun hsign _ => passes_of_head hsign fun c x hc => ?_
  · rintro w e r ⟨rfl, -⟩
    exact ⟨e, rfl, rfl⟩
  · rintro k _ _ ⟨e, rfl, rfl⟩
    exact (Keeps.refl k ['^']).append (keeps_braced k e)
  · have hne : c ≠ '^' := by rcases hc with rfl | rfl | rfl <;> decide
    exact Recogniser.read?_bind_eq_none (Recogniser.read?_single_eq_none hne x) _

/-! ## Products -/

theorem passes_infixSign (hsign : IsSign sign) (hv : IsAddend v) :
    Passes (Operator.infixSign '*') sign v := by
  have hblank : isBlank sign = false := by rcases hsign with rfl | rfl <;> decide
  have hne : sign ≠ '*' := by rcases hsign with rfl | rfl <;> decide
  intro t ht h
  rcases List.suffix_cons_iff.1 h with rfl | h
  · have hskip : skipBlanks ([' ', sign, ' '] ++ v) = sign :: ' ' :: v := skipBlanks_tail hsign
    rw [Operator.infixSign, Recogniser.read?_spaced, hskip, Recogniser.read?_single_eq_none hne]
    rfl
  · rcases List.suffix_cons_iff.1 h with rfl | h
    · exact Operator.infixSign_read?_eq_none hblank hne _
    · obtain rfl : t = [' '] := by
        rcases List.suffix_cons_iff.1 h with rfl | h
        · rfl
        · exact absurd (List.suffix_nil.1 h) ht
      obtain ⟨c, x, rfl⟩ := List.exists_cons_of_ne_nil hv.ne_nil
      rw [Operator.infixSign, Recogniser.read?_spaced, List.singleton_append, hv.skipBlanks,
        Recogniser.read?_single_eq_none (hv.head c rfl).2.2]
      rfl

/-- What the pass over the products replaces, and by what. -/
def ProductOf (w w' : Text) : Prop :=
  ∃ b b', w = b ++ '*' :: b' ∧ (∀ c ∈ b, isBlank c = true) ∧ w' = Markup.times

theorem rewrites_writeProducts (s : Text) : Rewrites ProductOf s (Operator.writeProducts s) := by
  refine Recogniser.rewrites_replaceAll (Operator.meets_infixSign '*') ?_ s
  rintro w _ r ⟨b, b', rfl, hb, -⟩
  exact ⟨b, b', rfl, hb, rfl⟩

theorem IsAugend.writeProducts (hs : IsAugend s) : IsAugend (Operator.writeProducts s) := by
  obtain ⟨m, c, rfl⟩ : ∃ m c, s = m ++ [c] :=
    ⟨s.dropLast, s.getLast hs.ne_nil, (List.dropLast_concat_getLast hs.ne_nil).symm⟩
  have hlast := hs.last c (by rw [List.getLast?_concat]; rfl)
  have heq : Operator.writeProducts (m ++ [c]) = Operator.writeProducts m ++ [c] := by
    rw [Operator.writeProducts, Operator.infixSign_replaceAll_append hlast.1 hlast.2.2,
      Recogniser.replaceAll_nil]
  refine ⟨by rw [heq]; simp, fun x hx => ?_, fun ht => hs.times ?_,
    (Operator.keeps_writeProducts (k := .round) _).isBalanced hs.round,
    (Operator.keeps_writeProducts (k := .curly) _).isBalanced hs.curly⟩
  · rw [heq, List.getLast?_concat] at hx
    obtain rfl : c = x := Option.some.inj hx
    exact hlast
  · refine (rewrites_writeProducts _).suffix ?_ ht
    rintro w _ ⟨b, b', -, -, rfl⟩
    exact ⟨' ', rfl, by decide⟩

theorem IsAddend.rewrites_products {v' : Text} (hv : IsAddend v) (h : Rewrites ProductOf v v') :
    IsAddend v' := by
  cases h with
  | nil => exact hv
  | @site w w' r r' hw hr =>
      obtain ⟨b, b', rfl, hb, -⟩ := hw
      cases b with
      | nil => exact absurd rfl (hv.head '*' rfl).2.2
      | cons c b =>
          have := (hv.head c rfl).1
          rw [hb c (by simp)] at this
          cases this
  | @keep c r r' hr =>
      refine ⟨by simp, hv.head, not_times_prefix_of_keep hr ?_ ?_ hv.times⟩
      · rintro w _ ⟨b, b', -, -, rfl⟩
        exact List.cons_ne_nil _ _
      · rintro w _ ⟨b, b', -, -, rfl⟩ ht
        cases ht

theorem additive_writeProducts : Additive Operator.writeProducts where
  joined hsign hs hv := replaceAll_joined hs (stays_spaced_single hsign (.inr rfl))
    (passes_infixSign hsign hv) (Operator.meets_infixSign '*')
  augend hs := hs.writeProducts
  addend hv := hv.rewrites_products (rewrites_writeProducts _)

theorem additive_prepare : Additive Operator.prepare :=
  additive_bracePowers.comp additive_writeProducts

/-! ## Constants -/

/-- Every backslash of the text begins the symbol of pi. -/
def BackslashIsPi (s : Text) : Prop := ∀ r, '\\' :: r <:+ s → r.head? = some 'p'

/-- The calls of a constant become its symbol. -/
def ConstantOf (k : KnownConstant) (w w' : Text) : Prop :=
  w = k.name ++ ['(', ')'] ∧ w' = k.latex

theorem rewrites_constant (k : KnownConstant) (s : Text) :
    Rewrites (ConstantOf k) s (k.replace s) := by
  refine WordRule.rewrites_replaceAll k.meets_call ?_ s
  rintro w v _ r - - ⟨rfl, rfl⟩
  exact ⟨rfl, rfl⟩

theorem ConstantOf.ne_nil {k : KnownConstant} {w w' : Text} (h : ConstantOf k w w') :
    w' ≠ [] := by
  rw [h.2]
  cases k <;> exact List.cons_ne_nil _ _

/-- A backslash in front of a call of pi would be left alone, so there must be none. -/
theorem BackslashIsPi.rewrites {k : KnownConstant} {s' : Text} (hs : BackslashIsPi s)
    (hk : k = .pi → '\\' ∉ s) (h : Rewrites (ConstantOf k) s s') : BackslashIsPi s' := by
  induction h with
  | nil => exact hs
  | @site w w' r r' hw hr ih =>
      intro x hx
      have hr' : '\\' :: x <:+ r' → x.head? = some 'p' :=
        ih (fun y hy => hs y (hy.trans (List.suffix_append w r)))
          (fun hpi hmem => hk hpi (List.mem_append_right w hmem)) x
      rw [hw.2] at hx
      cases k with
      | pi =>
          rcases List.suffix_cons_iff.1 hx with he | hx
          · rw [(List.cons.inj he).2]; rfl
          · rcases List.suffix_cons_iff.1 hx with he | hx
            · cases he
            · rcases List.suffix_cons_iff.1 hx with he | hx
              · cases he
              · exact hr' hx
      | e =>
          rcases List.suffix_cons_iff.1 hx with he | hx
          · cases he
          · exact hr' hx
  | @keep c r r' hr ih =>
      intro x hx
      rcases List.suffix_cons_iff.1 hx with he | hx
      · obtain ⟨rfl, rfl⟩ := List.cons.inj he
        have hp := hs r (List.suffix_refl _)
        rcases hr.head? fun _ _ => ConstantOf.ne_nil with heq | ⟨w, w', z, ⟨rfl, -⟩, rfl, -⟩
        · rw [heq, hp]
        · cases k with
          | pi => exact absurd (by simp) (hk rfl)
          | e => cases hp
      · exact ih (fun y hy => hs y (hy.trans (List.suffix_cons c r)))
          (fun hpi hmem => hk hpi (List.mem_cons_of_mem c hmem)) x hx

theorem BackslashIsPi.not_suffix (h : BackslashIsPi s) : ¬ Markup.timesSign <:+ s := fun ht => by
  cases h "times".toList ht

theorem BackslashIsPi.not_prefix (h : BackslashIsPi s) : ¬ ['\\', 't'] <+: s := by
  rintro ⟨x, rfl⟩
  cases h ('t' :: x) (List.suffix_refl _)

/-- The text may end with a constant, and no operator stands behind it. -/
theorem IsAugend.constant {k : KnownConstant} (hs : IsAugend s)
    (hpi : BackslashIsPi (k.replace s)) : IsAugend (k.replace s) := by
  have hrewrites := rewrites_constant k s
  have hkeeps : ∀ kind, Keeps kind s (k.replace s) := fun kind => KnownConstant.keeps_replace k s
  refine ⟨hrewrites.ne_nil (fun _ _ => ConstantOf.ne_nil) hs.ne_nil, fun c hc => ?_,
    hpi.not_suffix, (hkeeps .round).isBalanced hs.round, (hkeeps .curly).isBalanced hs.curly⟩
  by_cases hletter : c = 'i' ∨ c = 'e'
  · rcases hletter with rfl | rfl <;> decide
  · rw [not_or] at hletter
    obtain ⟨x, hx⟩ : [c] <:+ s := by
      refine hrewrites.suffix ?_ ?_
      · rintro w _ ⟨-, rfl⟩
        cases k with
        | pi => exact ⟨'i', rfl, by simpa using Ne.symm hletter.1⟩
        | e => exact ⟨'e', rfl, by simpa using Ne.symm hletter.2⟩
      · obtain ⟨y, hy⟩ := List.getLast?_eq_some_iff.1 hc
        exact ⟨y, hy.symm⟩
    exact hs.last c (by rw [← hx, List.getLast?_concat]; rfl)

theorem IsAddend.constant {k : KnownConstant} (hv : IsAddend v)
    (hpi : BackslashIsPi (k.replace v)) : IsAddend (k.replace v) := by
  have hrewrites := rewrites_constant k v
  refine ⟨hrewrites.ne_nil (fun _ _ => ConstantOf.ne_nil) hv.ne_nil, fun c hc => ?_,
    hpi.not_prefix⟩
  rcases hrewrites.head? fun _ _ => ConstantOf.ne_nil with heq | ⟨w, w', r, ⟨-, rfl⟩, -, heq⟩
  · exact hv.head c (by rwa [heq] at hc)
  · rw [heq] at hc
    cases k with
    | pi =>
        obtain rfl : '\\' = c := Option.some.inj hc
        decide
    | e =>
        obtain rfl : 'e' = c := Option.some.inj hc
        decide

theorem backslashIsPi_replace_pi (hs : '\\' ∉ s) : BackslashIsPi (KnownConstant.pi.replace s) :=
  BackslashIsPi.rewrites (fun _ hr => absurd (hr.subset (by simp)) hs) (fun _ => hs)
    (rewrites_constant .pi s)

theorem backslashIsPi_replaceEach (hs : '\\' ∉ s) :
    BackslashIsPi (KnownConstant.replaceEach s) :=
  (backslashIsPi_replace_pi hs).rewrites (k := .e) (fun h => nomatch h) (rewrites_constant .e _)

theorem IsAugend.replaceEach (hs : IsAugend s) (hplain : '\\' ∉ s) :
    IsAugend (KnownConstant.replaceEach s) :=
  (hs.constant (backslashIsPi_replace_pi hplain)).constant (backslashIsPi_replaceEach hplain)

theorem IsAddend.replaceEach (hv : IsAddend v) (hplain : '\\' ∉ v) :
    IsAddend (KnownConstant.replaceEach v) :=
  (hv.constant (backslashIsPi_replace_pi hplain)).constant (backslashIsPi_replaceEach hplain)

theorem stays_constant (k : KnownConstant) (w : Text) : Stays (k.call w) sign v := by
  unfold KnownConstant.call
  split
  · exact fun t _ => Recogniser.localAt_literal
      (fun c hc => by rw [eq_of_mem_head?_tail hc]; decide) t
  · exact fun _ _ => rfl

theorem replaceEach_joined (hsign : IsSign sign) (hs : IsAugend s) (hplain : '\\' ∉ s) :
    KnownConstant.replaceEach (joined sign s v) =
      joined sign (KnownConstant.replaceEach s) (KnownConstant.replaceEach v) := by
  have hone : ∀ (k : KnownConstant) {s v}, IsAugend s →
      k.replace (joined sign s v) = joined sign (k.replace s) (k.replace v) :=
    fun k _ _ hs => wordRule_replaceAll_joined hsign hs (stays_constant k) k.meets_call
  show KnownConstant.e.replace (KnownConstant.pi.replace _) = _
  rw [hone .pi hs, hone .e (hs.constant (backslashIsPi_replace_pi hplain))]
  rfl

/-! ## Calls -/

theorem typesetCalls_joined (f : KnownFunction) (hsign : IsSign sign)
    (hs : IsBalanced '(' ')' s) :
    f.typesetCalls (joined sign s v) = joined sign (f.typesetCalls s) (f.typesetCalls v) := by
  have hspace : ' ' ∉ f.name ++ ['('] := by cases f <;> decide
  have hname : sign ∉ f.name ++ ['('] := by
    rcases hsign with rfl | rfl <;> cases f <;> decide
  have hpass : ∀ before c (r : Text), c ∉ f.name ++ ['('] →
      Call.replaceAfter f.name f.typeset before (c :: r) =
        c :: Call.replaceAfter f.name f.typeset (some c) r := by
    intro before c r hc
    refine Call.replaceAfter_of_none (Option.eq_none_iff_forall_ne_some.2 fun inside hi => hc ?_)
    obtain ⟨-, h⟩ := Call.opening?_eq_some_iff.1 hi
    cases f <;> exact (List.cons.inj h).1 ▸ List.mem_cons_self
  have hword : (some ' ').any isWordChar = (none : Option Char).any isWordChar :=
    isWordChar_blank
  obtain ⟨before, h⟩ := Call.replaceAfter_append f.typeset none (s := s)
    (u := tail sign v) (fun c hc => by rwa [eq_of_mem_head?_tail hc])
    fun inside hi => closing?_isSome_of_suffix hs hi
  rw [joined, KnownFunction.typesetCalls, Call.replace, h, hpass _ _ _ hspace, hpass _ _ _ hname,
    hpass _ _ _ hspace, Call.replaceAfter_congr v hword]
  rfl

theorem typesetEach_joined (hsign : IsSign sign) (hs : IsBalanced '(' ')' s) :
    KnownFunction.typesetEach (joined sign s v) =
      joined sign (KnownFunction.typesetEach s) (KnownFunction.typesetEach v) := by
  have hall : ∀ (fs : List KnownFunction) {s v : Text}, IsBalanced '(' ')' s →
      fs.foldl (fun s f => f.typesetCalls s) (joined sign s v) =
        joined sign (fs.foldl (fun s f => f.typesetCalls s) s)
          (fs.foldl (fun s f => f.typesetCalls s) v) := by
    intro fs
    induction fs with
    | nil => exact fun _ => rfl
    | cons f fs ih =>
        intro s v hs
        rw [List.foldl_cons, typesetCalls_joined f hsign hs,
          ih ((KnownFunction.keeps_typesetCalls (k := .round) f s).isBalanced hs)]
        rfl
  exact hall KnownFunction.typesetOrder hs

end CalcTypeset.Sum
