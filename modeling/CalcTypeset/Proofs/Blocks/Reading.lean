import CalcTypeset.Proofs.Blocks.Differ

/-!
# Reading texts alike that differ in blocks

A recogniser reads two related texts alike when it reads both or neither, what it reads of them is
related, and the rests are related again. Most recognisers are put together from parts that read
alike, and then they do so themselves. The parts are runs of a class, searches for a character and
literals; each is followed along the two texts at once, and passes a block in one step, since
nothing that it looks for stands inside one.

The multiplication sign and the references are left to those who say what the blocks are: a block
may hold letters of the command, or be part of a reference.
-/

namespace CalcTypeset

open Text Reference

/-- Two results of a reading: values that are related, and rests that are. -/
inductive Paired {α : Type} (E : Text → Text → Prop) (V : α → α → Prop) :
    Option (α × Text) → Option (α × Text) → Prop where
  | none : Paired E V none none
  | some {a a' : α} {r r' : Text} (ha : V a a') (hr : E r r') :
      Paired E V (some (a, r)) (some (a', r'))

/-- Related texts are read alike. -/
structure ReadsAlike {α : Type} (E : Text → Text → Prop) (V : α → α → Prop) (p : Recogniser α) :
    Prop where
  paired : ∀ {s s'}, E s s' → Paired E V (p.read? s) (p.read? s')

variable {α β : Type} {E : Text → Text → Prop} {V : α → α → Prop} {W : β → β → Prop}

namespace Paired

variable {x x' y y' : Option (α × Text)}

theorem eq_none (h : Paired E V .none x') : x' = .none := by
  cases h
  rfl

theorem exists_some {a : α} {r : Text} (h : Paired E V (.some (a, r)) x') :
    ∃ a' r', x' = .some (a', r') ∧ V a a' ∧ E r r' := by
  cases h with
  | some ha hr => exact ⟨_, _, rfl, ha, hr⟩

theorem map (h : Paired E V x x') {g g' : α → β} (hg : ∀ a a', V a a' → W (g a) (g' a')) :
    Paired E W (x.map fun z => (g z.1, z.2)) (x'.map fun z => (g' z.1, z.2)) := by
  cases h with
  | none => exact .none
  | some ha hr => exact .some (hg _ _ ha) hr

theorem bind (h : Paired E V x x') {f f' : α × Text → Option (β × Text)}
    (hf : ∀ a a' r r', V a a' → E r r' → Paired E W (f (a, r)) (f' (a', r'))) :
    Paired E W (x.bind f) (x'.bind f') := by
  cases h with
  | none => exact .none
  | some ha hr => exact hf _ _ _ _ ha hr

theorem or (h : Paired E V x x') (h' : Paired E V y y') : Paired E V (x.or y) (x'.or y') := by
  cases h with
  | none => exact h'
  | some ha hr => exact .some ha hr

theorem filter (h : Paired E V x x') {test : α × Text → Bool}
    (htest : ∀ a a' r r', V a a' → E r r' → test (a', r') = test (a, r)) :
    Paired E V (x.filter test) (x'.filter test) := by
  cases h with
  | none => exact .none
  | some ha hr =>
      rw [Option.filter_some, Option.filter_some, htest _ _ _ _ ha hr]
      split
      · exact .some ha hr
      · exact .none

end Paired

namespace ReadsAlike

variable {p q : Recogniser α}

theorem map (hp : ReadsAlike E V p) {g : α → β} (hg : ∀ a a', V a a' → W (g a) (g a')) :
    ReadsAlike E W (p.map g) := ⟨fun h => (hp.paired h).map hg⟩

theorem bind (hp : ReadsAlike E V p) {q : α → Recogniser β}
    (hq : ∀ a a', V a a' → ∀ s s', E s s' → Paired E W ((q a).read? s) ((q a').read? s')) :
    ReadsAlike E W (p.bind q) :=
  ⟨fun h => (hp.paired h).bind fun a a' r r' ha hr => hq a a' ha r r' hr⟩

theorem orElse (hp : ReadsAlike E V p) (hq : ReadsAlike E V q) : ReadsAlike E V (p.orElse q) :=
  ⟨fun h => by
    simp only [Recogniser.read?_orElse, Option.orElse_eq_orElse, Option.orElse_eq_or]
    exact (hp.paired h).or (hq.paired h)⟩

theorem filter (hp : ReadsAlike E V p) {test : α → Bool}
    (htest : ∀ a a', V a a' → test a' = test a) : ReadsAlike E V (p.filter test) :=
  ⟨fun h => (hp.paired h).filter fun a a' _ _ ha _ => htest a a' ha⟩

theorem followedBy (hp : ReadsAlike E V p) {test : Text → Bool}
    (htest : ∀ r r', E r r' → test r' = test r) : ReadsAlike E V (p.followedBy test) :=
  ⟨fun h => (hp.paired h).filter fun _ _ r r' _ hr => htest r r' hr⟩

theorem never : ReadsAlike E V (.never : Recogniser α) := ⟨fun _ => .none⟩

end ReadsAlike

variable {σ : Type} {B : Text → Text → Prop} {G : Gauge σ} {rest : σ} {test : Char → Bool}
  {s s' t t' x : Text} {c : Char}

/-- A recogniser that cuts off what it reads leaves rests that the gauge can read. -/
theorem ReadsAlike.of_differ {p : Recogniser α} (hp : p.Meets fun _ _ _ => True)
    (h : ∀ {s s'}, Differ B s s' → Paired (Differ B) V (p.read? s) (p.read? s')) :
    ReadsAlike (Compared B G) V p := by
  refine ⟨fun {s s'} hs => ?_⟩
  have hread := h hs.differ
  cases hx : p.read? s with
  | none =>
      rw [hx] at hread
      rw [hread.eq_none]
      exact .none
  | some y =>
      rw [hx] at hread
      obtain ⟨a', r', hx', ha, hr⟩ := hread.exists_some
      obtain ⟨w, hw, -⟩ := hp _ _ _ hx
      obtain ⟨w', hw', -⟩ := hp _ _ _ hx'
      rw [hx']
      exact .some ha (hs.of_suffix hr ⟨w, hw.symm⟩ ⟨w', hw'.symm⟩)

theorem ReadsAlike.spaced {p : Recogniser α} (hB : PairsBlocks B)
    (hp : ReadsAlike (Compared B G) V p) : ReadsAlike (Compared B G) V p.spaced :=
  ⟨fun {s s'} h => by
    rw [Recogniser.read?_spaced, Recogniser.read?_spaced]
    have hread := hp.paired (h.skipBlanks hB)
    generalize p.read? (skipBlanks s) = x at hread
    generalize p.read? (skipBlanks s') = x' at hread
    cases hread with
    | none => exact .none
    | some ha hr => exact .some ha (hr.skipBlanks hB)⟩

/-! ## Parts -/

theorem run?_eq (s : Text) : run? test s =
    if s.takeWhile test = [] then none else some (s.takeWhile test, s.dropWhile test) := by
  cases s with
  | nil => rfl
  | cons c s => cases hc : test c <;> simp [run?, hc]

theorem Differ.run? (hB : PairsBlocks B) (htest : TakesBlocks B test) (h : Differ B s s') :
    Paired (Differ B) (Differ B) (run? test s) (run? test s') := by
  obtain ⟨htake, hdrop⟩ := h.takeWhile hB htest
  rw [run?_eq, run?_eq]
  simp only [htake.eq_nil_iff hB]
  split
  · exact .none
  · exact .some htake hdrop

theorem readsAlike_run (hB : PairsBlocks B) (htest : TakesBlocks B test) :
    ReadsAlike (Compared B G) (Differ B) (Recogniser.run test) :=
  .of_differ ((Recogniser.meets_run test).mono fun _ _ _ _ => trivial) fun h => h.run? hB htest

/-- A run of what stands outside references is the same in both texts. -/
theorem readsAlike_plainRun (hB : PairsBlocks B) (htest : ∀ c, test c = true → IsOutside c) :
    ReadsAlike (Compared B G) Eq (Recogniser.run test) := by
  refine .of_differ ((Recogniser.meets_run test).mono fun _ _ _ _ => trivial) fun {s s'} h => ?_
  have hdrop := (h.takeWhile hB (hB.takes_of_isOutside htest)).2
  rw [Recogniser.read?_run, Recogniser.read?_run, run?_eq, run?_eq, h.takeWhile_eq hB htest]
  split
  · exact .none
  · exact .some rfl hdrop

theorem splitAt?_append_of_not_mem (hx : c ∉ x) (s : Text) :
    splitAt? c (x ++ s) = (splitAt? c s).map fun y => (x ++ y.1, y.2) := by
  induction x with
  | nil => cases h : splitAt? c s <;> simp [h]
  | cons d x ih =>
      rw [List.mem_cons, not_or] at hx
      rw [List.cons_append, splitAt?, if_neg (Ne.symm hx.1), ih hx.2, Option.map_map]
      rfl

theorem Differ.splitAt? (hc : ∀ {x x'}, B x x' → c ∉ x ∧ c ∉ x')
    (h : Differ B s s') : Paired (Differ B) (Differ B) (splitAt? c s) (splitAt? c s') := by
  induction h with
  | nil => exact .none
  | keep d h ih =>
      rw [Text.splitAt?, Text.splitAt?]
      split
      · exact .some .nil h
      · exact ih.map fun _ _ ha => .keep d ha
  | block hx h ih =>
      rw [splitAt?_append_of_not_mem (hc hx).1, splitAt?_append_of_not_mem (hc hx).2]
      exact ih.map fun _ _ ha => .block hx ha

theorem readsAlike_upTo (hB : PairsBlocks B) (hc : IsOutside c) :
    ReadsAlike (Compared B G) (Differ B) (Recogniser.upTo c) :=
  .of_differ ((Recogniser.meets_upTo c).mono fun _ _ _ _ => trivial) fun h =>
    h.splitAt? fun hx => ⟨(hB.left hx).not_mem hc, (hB.right hx).not_mem hc⟩

/-- Characters with which no block begins are read of both texts or of neither. -/
theorem Differ.after?_of_head (hB : PairsBlocks B) {lit : Text}
    (hlit : ∀ c ∈ lit, ∀ x x', B x x' → x.head? ≠ some c ∧ x'.head? ≠ some c)
    (h : Differ B s s') : Option.Rel (Differ B) (after? lit s) (after? lit s') := by
  induction lit generalizing s s' with
  | nil => exact .some h
  | cons a lit ih =>
      cases h with
      | nil => exact .none
      | keep c h =>
          rw [Text.after?, Text.after?]
          split
          · exact ih (fun c hc => hlit c (by simp [hc])) h
          · exact .none
      | @block x x' s s' hx h =>
          have hnone : ∀ {x : Text}, x ≠ [] → x.head? ≠ some a → ∀ t,
              Text.after? (a :: lit) (x ++ t) = .none := by
            intro x hne hhead t
            obtain ⟨c, w, rfl⟩ := List.exists_cons_of_ne_nil hne
            have hca : a ≠ c := fun h => hhead (congrArg some h.symm)
            rw [List.cons_append, Text.after?, if_neg hca]
          obtain ⟨hhead, hhead'⟩ := hlit a (by simp) x x' hx
          rw [hnone (hB.left hx).ne_nil hhead, hnone (hB.right hx).ne_nil hhead']
          exact .none

/-- Characters that stand outside references are read of both texts or of neither. -/
theorem Differ.after? (hB : PairsBlocks B) {lit : Text} (hlit : ∀ c ∈ lit, IsOutside c)
    (h : Differ B s s') : Option.Rel (Differ B) (after? lit s) (after? lit s') :=
  h.after?_of_head hB fun c hc _ _ hx =>
    ⟨fun h => (hB.left hx).head c h (hlit c hc), fun h => (hB.right hx).head c h (hlit c hc)⟩

theorem readsAlike_of_after? {lit : Text} {hne : lit ≠ []}
    (h : ∀ {s s'}, Compared B G s s' → Option.Rel (Differ B) (after? lit s) (after? lit s')) :
    ReadsAlike (Compared B G) Eq (Recogniser.literal lit hne) := by
  refine ⟨fun {s s'} hs => ?_⟩
  show Paired _ Eq ((after? lit s).map ((), ·)) ((after? lit s').map ((), ·))
  have hafter := h hs
  cases hx : after? lit s with
  | none =>
      rw [hx] at hafter
      generalize after? lit s' = x' at hafter ⊢
      cases hafter
      exact .none
  | some r =>
      cases hx' : after? lit s' with
      | none => rw [hx, hx'] at hafter; cases hafter
      | some r' =>
          rw [hx, hx'] at hafter
          cases hafter with
          | some hr =>
              rw [after?_eq_some_iff] at hx hx'
              exact .some rfl (hs.of_suffix hr ⟨lit, hx.symm⟩ ⟨lit, hx'.symm⟩)

theorem readsAlike_literal (hB : PairsBlocks B) {lit : Text} {hne : lit ≠ []}
    (hlit : ∀ c ∈ lit, IsOutside c) :
    ReadsAlike (Compared B G) Eq (Recogniser.literal lit hne) :=
  readsAlike_of_after? fun h => h.differ.after? hB hlit

/-- A literal that begins outside references is in both texts or in neither, when it is read of both
or of neither. -/
theorem Compared.occurs (hB : PairsBlocks B) {lit : Text} (hhead : ∃ c ∈ lit.head?, IsOutside c)
    (hlit : ∀ {s s'}, Compared B G s s' → Option.Rel (Differ B) (after? lit s) (after? lit s'))
    (h : Compared B G s s') : occurs lit s' = occurs lit s := by
  have hstarts : ∀ {s s'}, Compared B G s s' → startsWith lit s' = startsWith lit s := by
    intro s s' h
    have hafter := hlit h
    rw [startsWith, startsWith]
    generalize Text.after? lit s = x at hafter ⊢
    generalize Text.after? lit s' = x' at hafter ⊢
    cases hafter <;> rfl
  have hpass : ∀ x : Text, (∀ c ∈ x, ¬ IsOutside c) → ∀ t,
      Text.occurs lit (x ++ t) = Text.occurs lit t := by
    intro x hx t
    induction x with
    | nil => rfl
    | cons c x ih =>
        have hnone : startsWith lit (c :: (x ++ t)) = false := by
          refine Bool.eq_false_iff.2 fun hs => ?_
          obtain ⟨r, hr⟩ := startsWith_iff.1 hs
          obtain ⟨d, hd, hout⟩ := hhead
          obtain ⟨l, rfl⟩ := List.head?_eq_some_iff.1 hd
          exact hx c (by simp) ((List.cons.inj hr).1 ▸ hout)
        rw [List.cons_append, Text.occurs, hnone, Bool.false_or]
        exact ih fun d hd => hx d (by simp [hd])
  obtain ⟨hd, hs, hs'⟩ := h
  induction hd with
  | nil => rfl
  | @keep c s s' h ih =>
      have hrest := ih (hs.of_isInfix (List.suffix_cons c s).isInfix)
        (hs'.of_isInfix (List.suffix_cons c s').isInfix)
      rw [Text.occurs, Text.occurs, hrest, hstarts ⟨.keep c h, hs, hs'⟩]
  | @block x x' s s' hx h ih =>
      rw [hpass x (hB.left hx).not_isOutside, hpass x' (hB.right hx).not_isOutside]
      exact ih (hs.of_isInfix (List.suffix_append x s).isInfix)
        (hs'.of_isInfix (List.suffix_append x' s').isInfix)

theorem readsAlike_single (hB : PairsBlocks B) (hc : IsOutside c) :
    ReadsAlike (Compared B G) Eq (Recogniser.single c) :=
  readsAlike_literal hB (by simpa using hc)

theorem Bracket.closing?_cons_of_neutral (hopen : c ≠ '(') (hclose : c ≠ ')') (d : Nat) (s : Text) :
    closing? d (c :: s) = (closing? d s).map fun y => (c :: y.1, y.2) := by
  cases d <;> simp [closing?, hopen, hclose]

theorem closing?_append_of_not_mem (hopen : '(' ∉ x) (hclose : ')' ∉ x) (d : Nat) (s : Text) :
    Bracket.closing? d (x ++ s) = (Bracket.closing? d s).map fun y => (x ++ y.1, y.2) := by
  induction x with
  | nil => cases h : Bracket.closing? d s <;> simp [h]
  | cons c x ih =>
      rw [List.mem_cons, not_or] at hopen hclose
      rw [List.cons_append, Bracket.closing?_cons_of_neutral (Ne.symm hopen.1) (Ne.symm hclose.1),
        ih hopen.2 hclose.2, Option.map_map]
      rfl

theorem Differ.closing? (hB : PairsBlocks B) (h : Differ B s s') (d : Nat) :
    Paired (Differ B) (Differ B) (Bracket.closing? d s) (Bracket.closing? d s') := by
  induction h generalizing d with
  | nil => exact .none
  | keep c h ih =>
      by_cases hopen : c = '('
      · subst hopen
        cases d <;> exact (ih _).map fun _ _ ha => .keep '(' ha
      · by_cases hclose : c = ')'
        · subst hclose
          cases d with
          | zero => exact .some .nil h
          | succ d => exact (ih d).map fun _ _ ha => .keep ')' ha
        · rw [Bracket.closing?_cons_of_neutral hopen hclose,
            Bracket.closing?_cons_of_neutral hopen hclose]
          exact (ih d).map fun _ _ ha => .keep c ha
  | block hx h ih =>
      have hround : ∀ {x}, IsBlock x → '(' ∉ x ∧ ')' ∉ x := fun hx =>
        ⟨hx.not_mem (by decide), hx.not_mem (by decide)⟩
      rw [closing?_append_of_not_mem (hround (hB.left hx)).1 (hround (hB.left hx)).2,
        closing?_append_of_not_mem (hround (hB.right hx)).1 (hround (hB.right hx)).2]
      exact (ih d).map fun _ _ ha => .block hx ha

theorem Bracket.readsAlike_group (hB : PairsBlocks B) :
    ReadsAlike (Compared B G) (Differ B) Bracket.group := by
  refine .of_differ (Bracket.meets_group.mono fun _ _ _ _ => trivial) fun {s s'} h => ?_
  cases h with
  | nil => exact .none
  | keep c h =>
      by_cases hc : c = '('
      · subst hc
        exact h.closing? hB 0
      · have hnone : ∀ t, group.read? (c :: t) = none := fun t => by
          show group? (c :: t) = none
          simp [group?, hc]
        rw [hnone, hnone]
        exact .none
  | block hx h =>
      have hnone : ∀ {x}, IsBlock x → ∀ t, group.read? (x ++ t) = none := by
        intro x hx t
        obtain ⟨c, w, rfl⟩ := List.exists_cons_of_ne_nil hx.ne_nil
        have hc : c ≠ '(' := by
          rintro rfl
          exact hx.head _ rfl (by decide)
        show group? (c :: (w ++ t)) = none
        simp [group?, hc]
      rw [hnone (hB.left hx), hnone (hB.right hx)]
      exact .none

end CalcTypeset
