import CalcTypeset.Proofs.Called.Kept
import CalcTypeset.Proofs.Exchange.Rename

/-!
# Gaps and constants of an exchanged line

No gap belongs to a call, since the parenthesis stands directly behind the name. So an exchanged line
is squeezed to the exchange of the squeezed line.

The symbol of a constant is a word itself, and a word behind the constant is glued to it. A sine that
is glued to a constant is no sine any more, and its call is lost. Where no call of sine and cosine is
lost, the constants of the exchanged line are replaced as in the line.
-/

namespace CalcTypeset

open Text Called Fraction KnownFunction

namespace Call

variable {σ : Text → Text} {k : KnownConstant} {s t w r : Text} {c : Char}

/-! ## Gaps -/

/-- The first word behind a gap is set off by it, and the gaps behind the word are squeezed on. -/
theorem squeezeAfter_word (hne : w ≠ []) (hw : ∀ c ∈ w, isWordChar c = true) (gap : Bool)
    (t : Text) : squeezeAfter gap (w ++ t) = gapSpace gap ++ (w ++ squeezeAfter false t) := by
  have hsolid : ∀ c ∈ w, isBlank c = false := fun c hc => isBlank_of_isWordChar (hw c hc)
  obtain ⟨x, w, rfl⟩ := List.exists_cons_of_ne_nil hne
  rw [List.cons_append, squeezeAfter_cons (hsolid x (.head _)),
    squeezeAfter_append_of_no_blank (fun c hc => hsolid c (.tail _ hc)), List.cons_append]

theorem isOpening_squeezeAfter (s : Text) : isOpening (squeezeAfter false s) = isOpening s := by
  cases s with
  | nil => rfl
  | cons c s =>
      cases hc : isBlank c with
      | false =>
          rw [squeezeAfter_cons hc]
          rfl
      | true =>
          have hne : c ≠ '(' := by
            rintro rfl
            exact absurd hc (by decide)
          have hgap : squeezeAfter false (c :: s) = squeezeAfter true s := by
            rw [squeezeAfter, if_pos hc]
          have hclosed : isOpening (c :: s) = false := decide_eq_false fun h => hne (Option.some.inj h)
          rw [hgap, hclosed]
          refine decide_eq_false fun h => ?_
          exact absurd (head?_squeezeAfter_true s '(' h) (by decide)

theorem rename_gapSpace (gap : Bool) (s : Text) :
    rename σ (gapSpace gap ++ s) = gapSpace gap ++ rename σ s := by
  cases gap with
  | false => rfl
  | true => exact rename_cons (isWordChar_of_isBlank (by decide)) s

theorem squeezeAfter_rename (hσ : RenamesWords σ) (gap : Bool) (s : Text) :
    squeezeAfter gap (rename σ s) = rename σ (squeezeAfter gap s) := by
  induction s using run_induction generalizing gap with
  | nil => rw [rename_nil, squeezeAfter, rename_nil]
  | run s w r hw ih =>
      have hnamed := run?_rename hσ hw
      have hhead := keepsFront_squeezeAfter.word (run?_head hw)
      have hrun : run? isWordChar (w ++ squeezeAfter false r) = some (w, squeezeAfter false r) :=
        run?_append (run?_ne_nil hw) (run?_all hw) hhead
      have hline : squeezeAfter gap s = gapSpace gap ++ (w ++ squeezeAfter false r) := by
        rw [run?_eq_append hw]
        exact squeezeAfter_word (run?_ne_nil hw) (run?_all hw) gap r
      rw [hline, rename_gapSpace, rename_of_run hrun, isOpening_squeezeAfter, ← ih,
        run?_eq_append hnamed]
      exact squeezeAfter_word (run?_ne_nil hnamed) (run?_all hnamed) gap _
  | other c s hc ih =>
      cases hb : isBlank c with
      | true =>
          have hskip : ∀ t, squeezeAfter gap (c :: t) = squeezeAfter true t := fun t => by
            rw [squeezeAfter, if_pos hb]
          rw [rename_cons hc, hskip, hskip, ih]
      | false =>
          rw [rename_cons hc, squeezeAfter_cons hb, squeezeAfter_cons hb, rename_gapSpace,
            rename_cons hc, ih]

theorem skipBlanks_rename (hσ : RenamesWords σ) (s : Text) :
    skipBlanks (rename σ s) = rename σ (skipBlanks s) := by
  have hword : ∀ {v w r : Text}, run? isWordChar v = some (w, r) → skipBlanks v = v := by
    intro v w r hw
    refine skipBlanks_eq_self fun c hc => isBlank_of_isWordChar (run?_all hw c ?_)
    obtain ⟨x, w, rfl⟩ := List.exists_cons_of_ne_nil (run?_ne_nil hw)
    rw [run?_eq_append hw] at hc
    obtain rfl := Option.some.inj hc
    exact .head _
  induction s using run_induction with
  | nil => rw [rename_nil]; exact rename_nil.symm
  | run s w r hw ih => rw [hword hw, hword (run?_rename hσ hw)]
  | other c s hc ih =>
      rw [rename_cons hc]
      cases hb : isBlank c with
      | true => rw [skipBlanks_cons_of_isBlank _ hb, skipBlanks_cons_of_isBlank _ hb, ih]
      | false =>
          rw [skipBlanks_cons_of_not_isBlank _ hb, skipBlanks_cons_of_not_isBlank _ hb,
            rename_cons hc]

/-- A renamed line is squeezed as the line is. -/
theorem squeeze_rename (hσ : RenamesWords σ) (s : Text) :
    squeeze (rename σ s) = rename σ (squeeze s) := by
  rw [squeeze, skipBlanks_rename hσ, squeezeAfter_rename hσ]
  rfl

/-! ## Constants -/

theorem twinName_constant (k : KnownConstant) : twinName k.name = k.name := by
  cases k <;> decide

/-- Neither sine nor cosine begins with the name of a constant. -/
theorem countP_ofName?_constant (k : KnownConstant) (w : Text) :
    (ofName? (k.name ++ w)).toList.countP hasTwin = 0 := by
  refine List.countP_eq_zero.2 fun f hf htwin => ?_
  have hname := congrArg List.head? (name_of_ofName? (Option.mem_toList.1 hf))
  rcases (hasTwin_iff f).1 htwin with rfl | rfl <;> cases k <;> cases hname

/-- Behind the name of a constant no more sines and cosines are called than without it. When they
are all there, the exchange leaves the name as it is. -/
theorem exchange_constant (k : KnownConstant) (t : Text) :
    (calls (k.name ++ t)).countP hasTwin ≤ (calls t).countP hasTwin ∧
      ((calls t).countP hasTwin ≤ (calls (k.name ++ t)).countP hasTwin →
        exchange (k.name ++ t) = k.name ++ exchange t) := by
  have hne : k.name ≠ [] := by cases k <;> decide
  have hword : ∀ c ∈ k.name, isWordChar c = true := by cases k <;> decide
  cases ht : run? isWordChar t with
  | none =>
      have hhead := run?_eq_none_iff.1 ht
      have hrun : run? isWordChar (k.name ++ t) = some (k.name, t) := run?_append hne hword hhead
      refine ⟨Nat.le_of_eq (by rw [calls_name k hhead]), fun _ => ?_⟩
      rw [exchange, rename_of_run hrun, twinName_constant]
      split <;> rfl
  | some x =>
      obtain ⟨w, r⟩ := x
      have hglued : run? isWordChar (k.name ++ t) = some (k.name ++ w, r) := by
        rw [run?_eq_append ht, ← List.append_assoc]
        refine run?_append (fun h => hne (List.append_eq_nil_iff.1 h).1) (fun c hc => ?_)
          (run?_head ht)
        exact (List.mem_append.1 hc).elim (hword c) (run?_all ht c)
      rw [calls_of_run hglued, calls_of_run ht, List.countP_append, List.countP_append]
      cases hr : isOpening r with
      | false =>
          refine ⟨Nat.le_refl _, fun _ => ?_⟩
          rw [exchange, rename_of_run hglued, rename_of_run ht, hr]
          exact List.append_assoc _ _ _
      | true =>
          rw [if_pos rfl, if_pos rfl, countP_ofName?_constant, Nat.zero_add]
          refine ⟨Nat.le_add_left _ _, fun hle => ?_⟩
          have hself : ∀ v : Text, (ofName? v).toList.countP hasTwin = 0 → twinName v = v := by
            intro v hv
            unfold twinName
            split
            · next h => rw [h] at hv; exact absurd hv (by decide)
            · split
              · next h => rw [h] at hv; exact absurd hv (by decide)
              · rfl
          rw [exchange, rename_of_run hglued, rename_of_run ht, hr, if_pos rfl, if_pos rfl,
            hself _ (countP_ofName?_constant k w), hself w (by omega), List.append_assoc]

theorem exchange_latex (k : KnownConstant) (t : Text) :
    (calls (k.latex ++ t)).countP hasTwin ≤ (calls t).countP hasTwin ∧
      ((calls t).countP hasTwin ≤ (calls (k.latex ++ t)).countP hasTwin →
        exchange (k.latex ++ t) = k.latex ++ exchange t) := by
  cases k with
  | e => exact exchange_constant .e t
  | pi =>
      obtain ⟨hle, heq⟩ := exchange_constant .pi t
      have hcalls : calls (KnownConstant.pi.latex ++ t) = calls (KnownConstant.pi.name ++ t) :=
        calledAfter_separator isWordChar_backslash _
      rw [hcalls]
      refine ⟨hle, fun h => ?_⟩
      exact (rename_cons isWordChar_backslash (KnownConstant.pi.name ++ t)).trans (congrArg _ (heq h))

/-- A run that calls no constant calls none in the exchanged line. -/
theorem call_read?_exchange (hw : run? isWordChar s = some (w, r))
    (hr : (k.call w).read? r = none) :
    (k.call (if isOpening r then twinName w else w)).read? (exchange r) = none := by
  refine Option.eq_none_iff_forall_ne_some.2 fun x hx => ?_
  obtain ⟨v, hv, hname, rfl⟩ := k.meets_call _ _ _ _ hx
  obtain ⟨y, rfl, hy⟩ := eq_cons_of_rename renamesWords_twinName isWordChar_opening hv
  obtain ⟨z, rfl, -⟩ := eq_cons_of_rename renamesWords_twinName isWordChar_closing hy
  have hname : twinName w = k.name := hname
  have hconstant : w = k.name := by
    rw [← twinName_twinName w, hname, twinName_constant]
  rw [KnownConstant.call, if_pos hconstant] at hr
  cases hr

/-- Where no call of sine and cosine is lost, the constants of the exchanged line are replaced as in
the line. -/
theorem replace_exchange (k : KnownConstant) (s : Text) :
    (calls (k.replace s)).countP hasTwin ≤ (calls s).countP hasTwin ∧
      ((calls s).countP hasTwin ≤ (calls (k.replace s)).countP hasTwin →
        k.replace (exchange s) = exchange (k.replace s)) := by
  induction s using WordRule.scan_induction k.call with
  | nil =>
      rw [exchange, rename_nil, KnownConstant.replace, WordRule.replaceAll_nil, rename_nil]
      exact ⟨Nat.le_refl _, fun _ => rfl⟩
  | read s w r a r' hw hr ih =>
      obtain ⟨_, hv, rfl, rfl⟩ := k.meets_call w _ _ _ hr
      obtain ⟨hle, heq⟩ := exchange_latex k (k.replace r')
      have hline : k.replace s = k.latex ++ k.replace r' := WordRule.replaceAll_of_read hw hr
      have hcalls : calls s = calls r' := by
        rw [run?_eq_append hw, hv, calls_name k (by simp)]
        exact calledAfter_separators isWordChar_round r'
      have hround : exchange r = '(' :: ')' :: exchange r' := by
        rw [hv]
        exact (rename_cons isWordChar_opening _).trans
          (congrArg _ (rename_cons isWordChar_closing r'))
      have hrun : run? isWordChar (exchange s) = some (k.name, exchange r) := by
        rw [exchange, run?_rename renamesWords_twinName hw, twinName_constant]
        split <;> rfl
      have hread : (k.call k.name).read? (exchange r) = some ((), exchange r') := by
        rw [KnownConstant.call, if_pos rfl, hround]
        exact Recogniser.read?_literal_eq_some_iff.2 rfl
      have hother : k.replace (exchange s) = k.latex ++ k.replace (exchange r') :=
        WordRule.replaceAll_of_read hrun hread
      rw [hline, hcalls]
      refine ⟨Nat.le_trans hle ih.1, fun h => ?_⟩
      rw [hother, ih.2 (Nat.le_trans h hle), heq (Nat.le_trans ih.1 h)]
  | pass s w r hw hr ih =>
      have hline : k.replace s = w ++ k.replace r := WordRule.replaceAll_of_none hw hr
      have hrun := run?_replace hw hr
      have hopening : isOpening (k.replace r) = isOpening r := by
        rw [isOpening, isOpening, head?_replace (run?_head hw)]
      have hnamed := run?_rename renamesWords_twinName hw
      have hother : k.replace (exchange s) = (if isOpening r then twinName w else w) ++
          k.replace (exchange r) := WordRule.replaceAll_of_none hnamed (call_read?_exchange hw hr)
      rw [calls_of_run hrun, calls_of_run hw, hopening, List.countP_append, List.countP_append]
      refine ⟨Nat.add_le_add_left ih.1 _, fun h => ?_⟩
      rw [hother, ih.2 (Nat.le_of_add_le_add_left h), exchange, rename_of_run hrun, hopening]
  | other c s hc ih =>
      have hcalls : ∀ t, calls (c :: t) = calls t := calledAfter_separator hc
      rw [replace_cons hc, hcalls, hcalls, exchange, rename_cons hc, rename_cons hc,
        replace_cons hc]
      exact ⟨ih.1, fun h => congrArg _ (ih.2 h)⟩

/-- Where no call of sine and cosine is lost, all constants of the exchanged line are replaced as in
the line. -/
theorem replaceEach_exchange (s : Text) :
    (calls (KnownConstant.replaceEach s)).countP hasTwin ≤ (calls s).countP hasTwin ∧
      ((calls s).countP hasTwin ≤ (calls (KnownConstant.replaceEach s)).countP hasTwin →
        KnownConstant.replaceEach (exchange s) = exchange (KnownConstant.replaceEach s)) := by
  unfold KnownConstant.replaceEach
  induction KnownConstant.all generalizing s with
  | nil => exact ⟨Nat.le_refl _, fun _ => rfl⟩
  | cons k ks ih =>
      obtain ⟨hle, heq⟩ := replace_exchange k s
      obtain ⟨hrest, hrest'⟩ := ih (k.replace s)
      refine ⟨Nat.le_trans hrest hle, fun h => ?_⟩
      rw [List.foldl_cons, List.foldl_cons, heq (Nat.le_trans h hrest),
        hrest' (Nat.le_trans hle h)]

end Call

end CalcTypeset
