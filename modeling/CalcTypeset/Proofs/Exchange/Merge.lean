import CalcTypeset.Proofs.Blocks.Reading
import CalcTypeset.Proofs.Exchange.Rename

/-!
# Sines that became cosines

Of two lines that differ in the names of sine and cosine only, no count of names or letters tells
where they differ, since a name may be written for the other one in one place and the other way
round in another. So each of them is compared with a third line, in which every call is a call of
the cosine. From that line a line differs in one way only, and there the letters can be counted: it
has a letter more for each sine, so when it has no letter more than its calls account for, it
differs from the third line at its calls and nowhere else.

Two lines that become the same line in this way are the exchange of each other when their calls
are.
-/

namespace CalcTypeset

open Text Called Call KnownFunction

/-- The name of the cosine for the name of the sine; any other name as it is. -/
def KnownFunction.mergedName (w : Text) : Text := if w = sin.name then cos.name else w

/-- A sine that became a cosine. -/
def Merged (x x' : Text) : Prop := x = sin.name ∧ x' = cos.name

variable {B : Text → Text → Prop} {s s' t t' w w' : Text} {c : Char}

theorem renamesWords_mergedName : RenamesWords mergedName :=
  renamesWords_of_names fun w => by
    unfold mergedName
    split
    · exact .inr ⟨cos, rfl⟩
    · exact .inl rfl

theorem mergedName_twinName (w : Text) : mergedName (twinName w) = mergedName w := by
  have hne : cos.name ≠ sin.name := by decide
  by_cases hsin : w = sin.name
  · simp [mergedName, twinName, hsin, hne]
  · by_cases hcos : w = cos.name
    · simp [mergedName, twinName, hcos, hne]
    · simp [mergedName, twinName, hsin, hcos]

/-- It does not matter for the merged line whether sine and cosine were exchanged before. -/
theorem Call.rename_merged_exchange (s : Text) :
    rename mergedName (exchange s) = rename mergedName s := by
  rw [exchange, rename_rename renamesWords_twinName]
  exact congrFun (congrArg rename (funext mergedName_twinName)) s

/-- No sine is called in the merged line. -/
theorem Call.sin_not_mem_calls_merged (s : Text) : sin ∉ calls (rename mergedName s) := by
  have hname : ∀ w, ofName? (mergedName w) =
      (ofName? w).map fun f => if f = sin then cos else f := by
    intro w
    unfold mergedName
    split
    · next h => rw [h]; decide
    · next hsin =>
        cases h : ofName? w with
        | none => rfl
        | some f =>
            have hf : f ≠ sin := by
              rintro rfl
              exact hsin (name_of_ofName? h).symm
            rw [Option.map_some, if_neg hf]
  rw [calls_rename renamesWords_mergedName hname, List.mem_map]
  rintro ⟨f, -, hf⟩
  split at hf
  · cases hf
  · contradiction

/-- The merged line has a letter less for each call of the sine. -/
theorem Call.count_rename_merged (s : Text) :
    (rename mergedName s).count 'n' + (calls s).count sin = s.count 'n' := by
  induction s using run_induction with
  | nil => rw [rename_nil]; rfl
  | run s w r hw ih =>
      have hcount := congrArg (List.count 'n') (run?_eq_append hw)
      rw [List.count_append] at hcount
      have hone : (if isOpening r then mergedName w else w).count 'n' +
          (if isOpening r then (ofName? w).toList else []).count sin = w.count 'n' := by
        cases isOpening r with
        | false => rfl
        | true =>
            by_cases hsin : w = sin.name
            · subst hsin
              decide
            · have hnone : (ofName? w).toList.count sin = 0 := List.count_eq_zero.2 fun hmem =>
                hsin (name_of_ofName? (Option.mem_toList.1 hmem)).symm
              rw [if_pos rfl, if_pos rfl, hnone, mergedName, if_neg hsin]
              rfl
      rw [rename_of_run hw, calls_of_run hw, List.count_append, List.count_append, hcount]
      omega
  | other c s hc ih =>
      have hskip : calls (c :: s) = calls s := calledAfter_separator hc s
      rw [rename_cons hc, hskip, List.count_cons, List.count_cons]
      omega

theorem KnownFunction.mergedName_head (w : Text) (hw : w.head? = some 'p') :
    (mergedName w).head? = some 'p' := by
  unfold mergedName
  split
  · next h => rw [h] at hw; cases hw
  · exact hw

/-! ## Lines that differ in words -/

/-- The blocks are words. -/
def PairsWords (B : Text → Text → Prop) : Prop :=
  ∀ x x', B x x' → (∀ c ∈ x, isWordChar c = true) ∧ ∀ c ∈ x', isWordChar c = true

theorem Differ.cons_of_not_isWordChar (hB : PairsBlocks B) (hword : PairsWords B)
    (h : Differ B (c :: s) s') (hc : isWordChar c = false) :
    ∃ t, s' = c :: t ∧ Differ B s t := by
  generalize hv : c :: s = v at h
  cases h with
  | nil => cases hv
  | keep d h =>
      obtain ⟨rfl, rfl⟩ := List.cons.inj hv
      exact ⟨_, rfl, h⟩
  | @block x x' u u' hx h =>
      obtain ⟨d, x, rfl⟩ := List.exists_cons_of_ne_nil (hB.left hx).ne_nil
      have hd := (hword _ _ hx).1 d (by simp)
      rw [← (List.cons.inj hv).1, hc] at hd
      cases hd

/-- Two lines that differ in words have their runs at the same places, and the same is called. -/
theorem Differ.exists_run {r : Text} (hB : PairsBlocks B) (hword : PairsWords B)
    (h : Differ B s s') (hw : Text.run? isWordChar s = some (w, r)) :
    ∃ w' r', Text.run? isWordChar s' = some (w', r') ∧ Differ B w w' ∧ Differ B r r' ∧
      isOpening r' = isOpening r := by
  have hpair : Paired (Differ B) (Differ B) (Text.run? isWordChar s) (Text.run? isWordChar s') :=
    h.run? hB fun x x' hx => .inl (hword x x' hx)
  rw [hw] at hpair
  obtain ⟨w', r', hw', hww, hr⟩ := hpair.exists_some
  refine ⟨w', r', hw', hww, hr, ?_⟩
  have hhead := run?_head hw
  cases r with
  | nil => rw [(hr.eq_nil_iff hB).2 rfl]
  | cons c r =>
      obtain ⟨t, rfl, -⟩ := hr.cons_of_not_isWordChar hB hword (hhead c rfl)
      rfl

/-! ## Merged lines -/

theorem KnownFunction.isBlock_name (f : KnownFunction) : IsBlock f.name where
  ne_nil := f.name_ne_nil
  head := by cases f <;> decide
  tail c hc := by
    have hname : ∀ c ∈ f.name.tail, Variable.isNameChar c = true := by cases f <;> decide
    exact .inl (hname c hc)

theorem pairsBlocks_merged : PairsBlocks Merged where
  left := by
    rintro _ _ ⟨rfl, -⟩
    exact isBlock_name sin
  right := by
    rintro _ _ ⟨-, rfl⟩
    exact isBlock_name cos

theorem pairsWords_merged : PairsWords Merged := by
  rintro _ _ ⟨rfl, rfl⟩
  exact ⟨isWordChar_of_mem_name _, isWordChar_of_mem_name _⟩

theorem Call.merged_rename (s : Text) : Differ Merged s (rename mergedName s) := by
  induction s using run_induction with
  | nil => rw [rename_nil]; exact .nil
  | run s w r hw ih =>
      have hname : Differ Merged w (mergedName w) := by
        unfold mergedName
        split
        · next h => exact .of_block ⟨h, rfl⟩
        · exact .refl w
      have hrun : Differ Merged w (if isOpening r then mergedName w else w) := by
        split
        · exact hname
        · exact .refl w
      have happend := hrun.append ih
      rwa [← rename_of_run hw, ← run?_eq_append hw] at happend
  | other c s hc ih => rw [rename_cons hc]; exact .keep c ih

/-- A sine has a letter that the cosine has not. -/
theorem Differ.count_merged (h : Differ Merged s s') :
    s'.count 'n' ≤ s.count 'n' ∧ (s.count 'n' ≤ s'.count 'n' → s' = s) := by
  induction h with
  | nil => exact ⟨Nat.le_refl _, fun _ => rfl⟩
  | keep c h ih =>
      rw [List.count_cons, List.count_cons]
      exact ⟨Nat.add_le_add_right ih.1 _, fun hle => by rw [ih.2 (Nat.le_of_add_le_add_right hle)]⟩
  | block hx h ih =>
      obtain ⟨rfl, rfl⟩ := hx
      have hsin : sin.name.count 'n' = 1 := by decide
      have hcos : cos.name.count 'n' = 0 := by decide
      rw [List.count_append, List.count_append, hsin, hcos]
      exact ⟨by omega, fun hle => by omega⟩

/-- A short word is the same in both lines, or it is the name. -/
theorem Differ.short_merged (h : Differ Merged w w') :
    w'.length = w.length ∧ (w.length < 3 → w' = w) ∧
      (w.length ≤ 3 → w' = w ∨ (w = sin.name ∧ w' = cos.name)) := by
  induction h with
  | nil => exact ⟨rfl, fun _ => rfl, fun _ => .inl rfl⟩
  | keep c h ih =>
      obtain ⟨hlength, hlt, -⟩ := ih
      simp only [List.length_cons]
      exact ⟨by omega, fun hle => by rw [hlt (by omega)], fun hle => .inl (by rw [hlt (by omega)])⟩
  | @block x x' s s' hx h ih =>
      obtain ⟨rfl, rfl⟩ := hx
      have hsin : sin.name.length = 3 := by decide
      have hcos : cos.name.length = 3 := by decide
      rw [List.length_append, List.length_append, hsin, hcos]
      refine ⟨by omega, fun hle => by omega, fun hle => .inr ?_⟩
      obtain rfl : s = [] := List.length_eq_zero_iff.1 (by omega)
      obtain rfl : s' = [] := List.length_eq_zero_iff.1 (by omega)
      exact ⟨List.append_nil _, List.append_nil _⟩

/-- Names of sine and cosine stand in front of such names. -/
theorem Differ.countP_ofName?_merged (h : Differ Merged w w') :
    (ofName? w').toList.countP hasTwin = (ofName? w).toList.countP hasTwin := by
  have hlong : ∀ {v : Text}, ¬ v.length ≤ 3 → (ofName? v).toList.countP hasTwin = 0 := by
    intro v hv
    refine List.countP_eq_zero.2 fun f hf htwin => ?_
    have hname := name_of_ofName? (Option.mem_toList.1 hf)
    rcases (hasTwin_iff f).1 htwin with rfl | rfl <;> exact hv (by rw [← hname]; decide)
  obtain ⟨hlength, -, hshort⟩ := h.short_merged
  by_cases hw : w.length ≤ 3
  · rcases hshort hw with rfl | ⟨rfl, rfl⟩
    · rfl
    · decide
  · rw [hlong hw, hlong (by omega)]

/-- As many calls of sine and cosine are in both lines. -/
theorem Differ.countP_calls_merged (h : Differ Merged s s') :
    (calls s').countP hasTwin = (calls s).countP hasTwin := by
  induction s using run_induction generalizing s' with
  | nil => rw [(h.eq_nil_iff pairsBlocks_merged).2 rfl]
  | run s w r hw ih =>
      obtain ⟨w', r', hw', hww, hr, hopening⟩ := h.exists_run pairsBlocks_merged pairsWords_merged hw
      rw [calls_of_run hw, calls_of_run hw', hopening, List.countP_append, List.countP_append, ih hr]
      cases isOpening r with
      | true => exact congrArg (· + _) hww.countP_ofName?_merged
      | false => rfl
  | other c s hc ih =>
      obtain ⟨t, rfl, ht⟩ := h.cons_of_not_isWordChar pairsBlocks_merged pairsWords_merged hc
      rw [calls, calls, calledAfter_separator hc, calledAfter_separator hc]
      exact ih ht

/-- A line that has as many letters as its sines account for was merged at its calls and nowhere
else. -/
theorem Differ.eq_rename_merged (h : Differ Merged s s') (hno : sin ∉ calls s') :
    s'.count 'n' + (calls s).count sin ≤ s.count 'n' ∧
      (s.count 'n' ≤ s'.count 'n' + (calls s).count sin → s' = rename mergedName s) := by
  induction s using run_induction generalizing s' with
  | nil =>
      obtain rfl := (h.eq_nil_iff pairsBlocks_merged).2 rfl
      exact ⟨Nat.le_refl _, fun _ => rename_nil.symm⟩
  | run s w r hw ih =>
      obtain ⟨w', r', hw', hww, hr, hopening⟩ := h.exists_run pairsBlocks_merged pairsWords_merged hw
      have hcalls' := calls_of_run hw'
      rw [hopening] at hcalls'
      rw [hcalls', List.mem_append, not_or] at hno
      obtain ⟨hle, heq⟩ := ih hr hno.2
      have hsplit' := run?_eq_append hw'
      have hcount := congrArg (List.count 'n') (run?_eq_append hw)
      have hcount' := congrArg (List.count 'n') hsplit'
      rw [List.count_append] at hcount hcount'
      obtain ⟨hletters, hsame⟩ := hww.count_merged
      -- A run that is no call of the sine is merged with a run that has as many letters.
      have hkept : (if isOpening r then (ofName? w).toList else []).count sin = 0 →
          (if isOpening r then mergedName w else w) = w →
          s'.count 'n' + (calls s).count sin ≤ s.count 'n' ∧
            (s.count 'n' ≤ s'.count 'n' + (calls s).count sin → s' = rename mergedName s) := by
        intro hnone hname
        rw [calls_of_run hw, List.count_append, hnone, rename_of_run hw, hname]
        refine ⟨by omega, fun hle' => ?_⟩
        rw [hsplit', hsame (by omega), heq (by omega)]
      cases ho : isOpening r with
      | false =>
          rw [ho] at hkept
          exact hkept rfl rfl
      | true =>
          rw [ho] at hkept hno
          by_cases hsin : w = sin.name
          · subst hsin
            rcases hww.short_merged.2.2 (by decide) with rfl | ⟨-, rfl⟩
            · exact absurd (by decide) hno.1
            · have hone : (sin.name).count 'n' = 1 ∧ (cos.name).count 'n' = 0 := by decide
              have hcalls : (calls s).count sin = 1 + (calls r).count sin := by
                rw [calls_of_run hw, ho, List.count_append]
                exact congrArg (· + _) (by decide)
              rw [rename_of_run hw, ho, hcalls]
              refine ⟨by omega, fun hle' => ?_⟩
              rw [hsplit', heq (by omega)]
              rfl
          · refine hkept (List.count_eq_zero.2 fun hmem => ?_) (if_neg hsin)
            exact hsin (name_of_ofName? (Option.mem_toList.1 hmem)).symm
  | other c s hc ih =>
      obtain ⟨t, rfl, ht⟩ := h.cons_of_not_isWordChar pairsBlocks_merged pairsWords_merged hc
      have hcalls : ∀ u, calls (c :: u) = calls u := fun u => calledAfter_separator hc u
      rw [hcalls] at hno
      obtain ⟨hle, heq⟩ := ih ht hno
      rw [hcalls, List.count_cons, List.count_cons, rename_cons hc]
      exact ⟨by omega, fun h => by rw [heq (by omega)]⟩

/-! ## The exchange of a line -/

/-- Two words that are merged into the same one are the same, or both are names of a function with
a twin. -/
theorem KnownFunction.mergedName_cases (h : mergedName w' = mergedName w) :
    (∃ f g : KnownFunction, f.hasTwin = true ∧ g.hasTwin = true ∧ w = f.name ∧ w' = g.name) ∨
      (w' = w ∧ twinName w = w ∧ (ofName? w).toList.filter hasTwin = []) := by
  have hname : ∀ v, mergedName v = cos.name → ∃ f : KnownFunction, f.hasTwin = true ∧ v = f.name := by
    intro v hv
    by_cases hsin : v = sin.name
    · exact ⟨sin, rfl, hsin⟩
    · rw [mergedName, if_neg hsin] at hv
      exact ⟨cos, rfl, hv⟩
  by_cases hcos : mergedName w = cos.name
  · obtain ⟨f, hf, rfl⟩ := hname w hcos
    obtain ⟨g, hg, rfl⟩ := hname w' (h.trans hcos)
    exact .inl ⟨f, g, hf, hg, rfl, rfl⟩
  · have hplain : ∀ v, mergedName v ≠ cos.name → v ≠ sin.name ∧ v ≠ cos.name ∧ mergedName v = v := by
      intro v hv
      have hsin : v ≠ sin.name := by
        rintro rfl
        exact hv (by decide)
      rw [mergedName, if_neg hsin] at hv ⊢
      exact ⟨hsin, hv, rfl⟩
    obtain ⟨hsin, hne, hself⟩ := hplain w hcos
    refine .inr ⟨?_, ?_, ?_⟩
    · rw [← (hplain w' (by rwa [h])).2.2, h, hself]
    · rw [twinName, if_neg hsin, if_neg hne]
    · refine List.filter_eq_nil_iff.2 fun f hf htwin => ?_
      have hf := name_of_ofName? (Option.mem_toList.1 hf)
      rcases (hasTwin_iff f).1 htwin with rfl | rfl
      · exact hsin hf.symm
      · exact hne hf.symm

/-- Two lines that are merged into the same line, and of which one calls the twins of what the other
one calls, are the exchange of each other. -/
theorem Call.eq_exchange (h : rename mergedName s' = rename mergedName s)
    (hcalls : (calls s').filter hasTwin = ((calls s).filter hasTwin).map twin) :
    s' = exchange s := by
  induction s using run_induction generalizing s' with
  | nil =>
      rw [rename_nil] at h
      rw [eq_nil_of_rename renamesWords_mergedName h]
      exact rename_nil.symm
  | run s w r hw ih =>
      have hrun := run?_rename renamesWords_mergedName hw
      rw [← h] at hrun
      obtain ⟨w', r', hw', hww, hr⟩ := run?_of_rename renamesWords_mergedName hrun
      have hopening : isOpening r' = isOpening r := by
        have hnamed : isOpening (rename mergedName r') = isOpening r' :=
          isOpening_rename (run?_head hw')
        rw [← hnamed, hr, isOpening_rename (run?_head hw)]
      rw [calls_of_run hw', calls_of_run hw, List.filter_append, List.filter_append,
        List.map_append, hopening] at hcalls
      rw [exchange, rename_of_run hw, run?_eq_append hw']
      cases ho : isOpening r with
      | false =>
          rw [ho] at hcalls
          rw [hopening, ho] at hww
          obtain rfl : w' = w := hww
          exact congrArg (w' ++ ·) (ih hr hcalls)
      | true =>
          rw [ho] at hcalls
          rw [hopening, ho] at hww
          rcases mergedName_cases hww with ⟨f, g, hf, hg, rfl, rfl⟩ | ⟨rfl, htwin, hnone⟩
          · have hone : ∀ f : KnownFunction, f.hasTwin = true →
                (ofName? f.name).toList.filter hasTwin = [f] := fun f hf => by
              rw [ofName?_name]
              exact List.filter_cons_of_pos hf
            rw [if_pos rfl, if_pos rfl, hone f hf, hone g hg] at hcalls
            obtain ⟨rfl, htail⟩ := List.cons.inj hcalls
            rw [ih hr htail, name_twin]
            rfl
          · rw [if_pos rfl, hnone] at hcalls
            rw [ih hr hcalls, if_pos rfl, htwin]
            rfl
  | other c s hc ih =>
      rw [rename_cons hc] at h
      obtain ⟨r, rfl, hr⟩ := eq_cons_of_rename renamesWords_mergedName hc h
      have hskip : ∀ u, calls (c :: u) = calls u := fun u => calledAfter_separator hc u
      rw [hskip, hskip] at hcalls
      rw [ih hr hcalls]
      exact (rename_cons hc s).symm

end CalcTypeset
