import CalcTypeset.Text.Recogniser

/-!
# What a recogniser takes

A recogniser hands back a result and a rest. The contracts of this file say what stands between
the two: the text is a piece, which was taken, followed by the rest, and the piece, the result and
the rest are related in a way that the recogniser promises. Contracts follow the combinators, so
the contract of a division site is put together from those of its operands.

A reading is local at a text when appending something does not change it. Locality follows the
combinators too; what may be appended to a run or a literal is decided by the first character of
the appendix.
-/

namespace CalcTypeset

namespace Text

theorem skipBlanks_eq_append (s : Text) :
    ∃ b, s = b ++ skipBlanks s ∧ ∀ c ∈ b, isBlank c = true :=
  ⟨s.takeWhile isBlank, (List.takeWhile_append_dropWhile).symm,
    fun _ hc => List.all_eq_true.1 List.all_takeWhile _ hc⟩

theorem skipBlanks_append_of_all_blank {b : Text} (s : Text) (hb : ∀ c ∈ b, isBlank c = true) :
    skipBlanks (b ++ s) = skipBlanks s := by
  induction b with
  | nil => rfl
  | cons c b ih =>
      rw [List.cons_append, skipBlanks_cons_of_isBlank _ (hb c (by simp))]
      exact ih fun x hx => hb x (by simp [hx])

/-- What follows skipped blanks is no blank. -/
theorem isBlank_of_mem_head?_skipBlanks {s : Text} {c : Char} (h : c ∈ (skipBlanks s).head?) :
    isBlank c = false := by
  have := List.head?_dropWhile_not isBlank s
  rw [show s.dropWhile isBlank = skipBlanks s from rfl, Option.mem_def.1 h] at this
  simpa using this

theorem skipBlanks_eq_self {s : Text} (h : ∀ c ∈ s.head?, isBlank c = false) :
    skipBlanks s = s := by
  cases s with
  | nil => rfl
  | cons c s => exact skipBlanks_cons_of_not_isBlank s (h c rfl)

/-- Blanks are skipped up to a place that the text reaches on its own. -/
theorem skipBlanks_append {s : Text} (u : Text)
    (h : skipBlanks s ≠ [] ∨ ∀ c ∈ u.head?, isBlank c = false) :
    skipBlanks (s ++ u) = skipBlanks s ++ u := by
  induction s with
  | nil =>
      rcases h with h | h
      · exact absurd rfl h
      · exact skipBlanks_eq_self h
  | cons c s ih =>
      cases hc : isBlank c with
      | true =>
          rw [List.cons_append, skipBlanks_cons_of_isBlank _ hc, skipBlanks_cons_of_isBlank _ hc]
          exact ih (by rwa [skipBlanks_cons_of_isBlank _ hc] at h)
      | false =>
          rw [List.cons_append, skipBlanks_cons_of_not_isBlank _ hc,
            skipBlanks_cons_of_not_isBlank _ hc, List.cons_append]

/-- The numbers of the blanks. -/
def blankCodes : List Nat :=
  List.range' 0x09 5 ++ List.range' 0x1C 5 ++ [0x85, 0xA0, 0x1680] ++ List.range' 0x2000 11 ++
    [0x2028, 0x2029, 0x202F, 0x205F, 0x3000]

/-- A class that holds none of the blanks one by one holds no blank. -/
theorem eq_false_of_isBlank {test : Char → Bool} (htest : ∀ n ∈ blankCodes, test (.ofNat n) = false)
    {c : Char} (h : isBlank c = true) : test c = false := by
  rw [← Char.ofNat_toNat c]
  refine htest _ ?_
  simp only [isBlank, Bool.or_eq_true, Bool.and_eq_true, decide_eq_true_eq] at h
  simp only [blankCodes, List.mem_append, List.mem_range'_1, List.mem_cons, List.not_mem_nil,
    or_false]
  omega

theorem run?_head {p : Char → Bool} {s w r : Text} (h : run? p s = some (w, r)) :
    ∀ c ∈ r.head?, p c = false := by
  obtain ⟨x, t, -, -, -, rfl⟩ := exists_of_run? h
  intro c hc
  have := List.head?_dropWhile_not p t
  rw [Option.mem_def.1 hc] at this
  simpa using this

theorem run?_all {p : Char → Bool} {s w r : Text} (h : run? p s = some (w, r)) :
    ∀ c ∈ w, p c = true := by
  obtain ⟨x, t, -, hx, rfl, -⟩ := exists_of_run? h
  exact List.forall_mem_cons.2 ⟨hx, fun c hc => List.all_eq_true.1 List.all_takeWhile c hc⟩

/-- A run is read when all of it belongs to the class and what follows does not. -/
theorem run?_append {p : Char → Bool} {w r : Text} (hw : w ≠ []) (hp : ∀ c ∈ w, p c = true)
    (hr : ∀ c ∈ r.head?, p c = false) : run? p (w ++ r) = some (w, r) := by
  cases w with
  | nil => exact absurd rfl hw
  | cons x w =>
      have htail : ∀ c ∈ w, p c = true := fun c hc => hp c (by simp [hc])
      have hdrop : r.dropWhile p = r := by
        cases r with
        | nil => rfl
        | cons y r => rw [List.dropWhile_cons_of_neg (by simp [hr y rfl])]
      have htake : r.takeWhile p = [] := by
        cases r with
        | nil => rfl
        | cons y r => rw [List.takeWhile_cons_of_neg (by simp [hr y rfl])]
      rw [List.cons_append, run?, if_pos (hp x (by simp)), List.takeWhile_append_of_pos htail,
        List.dropWhile_append_of_pos htail, hdrop, htake, List.append_nil]

theorem run?_eq_none_iff {p : Char → Bool} {s : Text} :
    run? p s = none ↔ ∀ c ∈ s.head?, p c = false := by
  cases s with
  | nil => simp [run?]
  | cons c s => simp [run?]

end Text

namespace Recogniser

open Text

variable {α β : Type} {p : Recogniser α} {P : Text → α → Text → Prop}

/-! ## Contracts -/

/-- Whatever is read is a piece in front of the rest, and the contract holds between the piece,
the result and the rest. -/
def Meets (p : Recogniser α) (P : Text → α → Text → Prop) : Prop :=
  ∀ s a r, p.read? s = some (a, r) → ∃ w, s = w ++ r ∧ P w a r

theorem Meets.mono {Q : Text → α → Text → Prop} (hp : p.Meets P)
    (h : ∀ w a r, P w a r → Q w a r) : p.Meets Q := by
  intro s a r hs
  obtain ⟨w, rfl, hw⟩ := hp s a r hs
  exact ⟨w, rfl, h w a r hw⟩

theorem Meets.map (hp : p.Meets P) (g : α → β) :
    (p.map g).Meets fun w b r => ∃ a, P w a r ∧ g a = b := by
  intro s b r hs
  obtain ⟨⟨a, r'⟩, ha, he⟩ := Option.map_eq_some_iff.1 hs
  obtain ⟨rfl, rfl⟩ := Prod.mk.inj he
  obtain ⟨w, rfl, hw⟩ := hp s a _ ha
  exact ⟨w, rfl, a, hw, rfl⟩

theorem Meets.bind {q : α → Recogniser β} {Q : α → Text → β → Text → Prop} (hp : p.Meets P)
    (hq : ∀ a, (q a).Meets (Q a)) :
    (p.bind q).Meets fun w b r =>
      ∃ v a v', w = v ++ v' ∧ P v a (v' ++ r) ∧ Q a v' b r := by
  intro s b r hs
  obtain ⟨⟨a, r'⟩, ha, hb⟩ := Option.bind_eq_some_iff.1 hs
  obtain ⟨v, rfl, hv⟩ := hp s a r' ha
  obtain ⟨v', rfl, hv'⟩ := hq a r' b r hb
  exact ⟨v ++ v', by rw [List.append_assoc], v, a, v', rfl, hv, hv'⟩

theorem Meets.orElse {q : Recogniser α} {Q : Text → α → Text → Prop} (hp : p.Meets P)
    (hq : q.Meets Q) : (p.orElse q).Meets fun w a r => P w a r ∨ Q w a r := by
  intro s a r hs
  simp only [read?_orElse, Option.orElse_eq_orElse, Option.orElse_eq_or,
    Option.or_eq_some_iff] at hs
  rcases hs with hs | ⟨-, hs⟩
  · obtain ⟨w, rfl, hw⟩ := hp s a r hs
    exact ⟨w, rfl, .inl hw⟩
  · obtain ⟨w, rfl, hw⟩ := hq s a r hs
    exact ⟨w, rfl, .inr hw⟩

theorem Meets.filter (hp : p.Meets P) (test : α → Bool) :
    (p.filter test).Meets fun w a r => P w a r ∧ test a = true := by
  intro s a r hs
  obtain ⟨ha, ht⟩ := Option.filter_eq_some_iff.1 hs
  obtain ⟨w, rfl, hw⟩ := hp s a r ha
  exact ⟨w, rfl, hw, ht⟩

theorem Meets.followedBy (hp : p.Meets P) (test : Text → Bool) :
    (p.followedBy test).Meets fun w a r => P w a r ∧ test r = true := by
  intro s a r hs
  obtain ⟨ha, ht⟩ := Option.filter_eq_some_iff.1 hs
  obtain ⟨w, rfl, hw⟩ := hp s a r ha
  exact ⟨w, rfl, hw, ht⟩

theorem Meets.spaced (hp : p.Meets P) :
    p.spaced.Meets fun w a r => ∃ b v b', w = b ++ v ++ b' ∧ (∀ c ∈ b, isBlank c = true) ∧
      (∀ c ∈ b', isBlank c = true) ∧ P v a (b' ++ r) := by
  intro s a r hs
  obtain ⟨⟨a, r'⟩, ha, he⟩ := Option.map_eq_some_iff.1 hs
  obtain ⟨rfl, rfl⟩ := Prod.mk.inj he
  obtain ⟨b, hb, hblank⟩ := skipBlanks_eq_append s
  obtain ⟨b', hb', hblank'⟩ := skipBlanks_eq_append r'
  obtain ⟨v, hv, hP⟩ := hp _ a r' ha
  refine ⟨b ++ v ++ b', ?_, b, v, b', rfl, hblank, hblank', ?_⟩
  · rw [hv] at hb
    rw [hb, List.append_assoc, List.append_assoc, ← hb']
  · rwa [← hb']

theorem meets_never : (never : Recogniser α).Meets P := by
  intro s a r hs
  cases hs

theorem meets_char (test : Char → Bool) :
    (char test).Meets fun w c _ => w = [c] ∧ test c = true := by
  intro s c r hs
  obtain ⟨x, hx, hs⟩ := Option.bind_eq_some_iff.1 hs
  split at hs
  · next ht =>
      obtain ⟨rfl, rfl⟩ := Prod.mk.inj (Option.some.inj hs)
      match s with
      | [] => cases hx
      | y :: s =>
          obtain rfl : y = x := by simpa using hx
          exact ⟨[y], rfl, rfl, ht⟩
  · cases hs

theorem meets_run (test : Char → Bool) :
    (run test).Meets fun w a r => w = a ∧ a ≠ [] ∧ (∀ c ∈ a, test c = true) ∧
      ∀ c ∈ r.head?, test c = false := by
  intro s a r hs
  exact ⟨a, run?_eq_append hs, rfl, run?_ne_nil hs, run?_all hs, run?_head hs⟩

theorem meets_literal (lit : Text) (h : lit ≠ []) :
    (literal lit h).Meets fun w _ _ => w = lit := by
  intro s _ r hs
  exact ⟨lit, read?_literal_eq_some_iff.1 hs, rfl⟩

theorem meets_single (c : Char) : (single c).Meets fun w _ _ => w = [c] :=
  meets_literal [c] (List.cons_ne_nil _ _)

theorem read?_single_eq_some_iff {c : Char} {s r : Text} {x : Unit} :
    (single c).read? s = some (x, r) ↔ s = c :: r :=
  read?_literal_eq_some_iff

theorem meets_upTo (c : Char) : (upTo c).Meets fun w a _ => w = a ++ [c] ∧ c ∉ a := by
  intro s a r hs
  obtain ⟨rfl, hc⟩ := splitAt?_eq_some_iff.1 hs
  exact ⟨a ++ [c], by simp, rfl, hc⟩

/-! ## Where nothing is read -/

section

variable {s : Text}

theorem read?_map_eq_none (h : p.read? s = none) (g : α → β) : (p.map g).read? s = none := by
  rw [read?_map, h]; rfl

theorem read?_bind_eq_none (h : p.read? s = none) (q : α → Recogniser β) :
    (p.bind q).read? s = none := by
  rw [read?_bind, h]; rfl

theorem read?_filter_eq_none (h : p.read? s = none) (test : α → Bool) :
    (p.filter test).read? s = none := by
  rw [read?_filter, h]; rfl

theorem read?_orElse_eq_none {q : Recogniser α} (h : p.read? s = none) (hq : q.read? s = none) :
    (p.orElse q).read? s = none := by
  rw [read?_orElse, h, hq]; rfl

theorem read?_literal_eq_none {lit : Text} {hne : lit ≠ []} {c : Char} (h : lit.head? ≠ some c)
    (r : Text) : (literal lit hne).read? (c :: r) = none := by
  obtain ⟨a, l, rfl⟩ := List.exists_cons_of_ne_nil hne
  have hac : a ≠ c := fun hac => h (by rw [hac]; rfl)
  simp [literal, after?, hac]

theorem read?_single_eq_none {x c : Char} (h : c ≠ x) (r : Text) :
    (single x).read? (c :: r) = none := by
  simp [single, literal, after?, h.symm]

end

/-! ## Locality -/

/-- Reading the text with `u` appended gives the same result, with `u` appended to the rest. -/
def LocalAt (p : Recogniser α) (u t : Text) : Prop :=
  p.read? (t ++ u) = (p.read? t).map fun x => (x.1, x.2 ++ u)

variable {u t : Text}

theorem LocalAt.of_some {a : α} {r : Text} (h : p.LocalAt u t) (ht : p.read? t = some (a, r)) :
    p.read? (t ++ u) = some (a, r ++ u) := by
  rw [h, ht]; rfl

theorem LocalAt.of_none (h : p.LocalAt u t) (ht : p.read? t = none) :
    p.read? (t ++ u) = none := by
  rw [h, ht]; rfl

theorem localAt_nil_iff : p.LocalAt u [] ↔ p.read? u = none := by
  rw [LocalAt, p.read?_nil, List.nil_append, Option.map_none]

theorem LocalAt.map (h : p.LocalAt u t) (g : α → β) : (p.map g).LocalAt u t := by
  rw [LocalAt, read?_map, read?_map, h, Option.map_map, Option.map_map]
  rfl

theorem LocalAt.bind {q : α → Recogniser β} (h : p.LocalAt u t)
    (hq : ∀ a r, p.read? t = some (a, r) → (q a).LocalAt u r) : (p.bind q).LocalAt u t := by
  rw [LocalAt, read?_bind, read?_bind, h]
  cases ht : p.read? t with
  | none => rfl
  | some x => exact hq x.1 x.2 ht

theorem LocalAt.orElse {q : Recogniser α} (h : p.LocalAt u t) (hq : q.LocalAt u t) :
    (p.orElse q).LocalAt u t := by
  rw [LocalAt, read?_orElse, read?_orElse, h, hq]
  cases p.read? t <;> rfl

theorem LocalAt.filter (h : p.LocalAt u t) (test : α → Bool) : (p.filter test).LocalAt u t := by
  rw [LocalAt, read?_filter, read?_filter, h]
  cases p.read? t with
  | none => rfl
  | some x => cases hx : test x.1 <;> simp [Option.filter, hx]

theorem LocalAt.followedBy {test : Text → Bool} (h : p.LocalAt u t)
    (htest : ∀ a r, p.read? t = some (a, r) → test (r ++ u) = test r) :
    (p.followedBy test).LocalAt u t := by
  rw [LocalAt, read?_followedBy, read?_followedBy, h]
  cases ht : p.read? t with
  | none => rfl
  | some x =>
      have := htest x.1 x.2 ht
      cases hx : test x.2 <;> simp [Option.filter, hx, this]

/-- Blanks around a reading are skipped locally when the text goes on behind them. -/
theorem LocalAt.spaced (ht : skipBlanks t ≠ []) (h : p.LocalAt u (skipBlanks t))
    (hr : ∀ a r, p.read? (skipBlanks t) = some (a, r) →
      skipBlanks r ≠ [] ∨ ∀ c ∈ u.head?, isBlank c = false) :
    p.spaced.LocalAt u t := by
  rw [LocalAt, read?_spaced, read?_spaced, skipBlanks_append u (.inl ht), h]
  cases hx : p.read? (skipBlanks t) with
  | none => rfl
  | some x =>
      simp only [Option.map_some]
      rw [skipBlanks_append u (hr x.1 x.2 hx)]

theorem localAt_run {test : Char → Bool} (hu : ∀ c ∈ u.head?, test c = false) (t : Text) :
    (run test).LocalAt u t := by
  rw [LocalAt, read?_run, read?_run]
  cases ht : run? test t with
  | none =>
      cases t with
      | nil => exact run?_eq_none_iff.2 hu
      | cons c t =>
          exact run?_eq_none_iff.2 fun x hx => run?_eq_none_iff.1 ht x hx
  | some x =>
      obtain ⟨w, r⟩ := x
      have hr : ∀ c ∈ (r ++ u).head?, test c = false := by
        cases r with
        | nil => exact hu
        | cons y r => exact fun c hc => run?_head ht c hc
      rw [run?_eq_append ht, List.append_assoc]
      exact run?_append (run?_ne_nil ht) (run?_all ht) hr

theorem after?_append_of_not_mem {lit : Text} (hu : ∀ c ∈ u.head?, c ∉ lit) (t : Text) :
    after? lit (t ++ u) = (after? lit t).map (· ++ u) := by
  induction lit generalizing t with
  | nil => rfl
  | cons a lit ih =>
      cases t with
      | nil =>
          cases u with
          | nil => rfl
          | cons c u =>
              have hne : a ≠ c := fun h => hu c rfl (by simp [h])
              simp [after?, hne]
      | cons c t =>
          by_cases hc : a = c
          · simp only [List.cons_append, after?, hc, if_true]
            exact ih (fun x hx hmem => hu x hx (by simp [hmem])) t
          · simp [after?, hc]

theorem localAt_literal {lit : Text} {h : lit ≠ []} (hu : ∀ c ∈ u.head?, c ∉ lit) (t : Text) :
    (literal lit h).LocalAt u t := by
  show (after? lit (t ++ u)).map _ = ((after? lit t).map _).map _
  rw [after?_append_of_not_mem hu, Option.map_map, Option.map_map]
  rfl

theorem localAt_single {c : Char} (hu : u.head? ≠ some c) (t : Text) :
    (single c).LocalAt u t :=
  localAt_literal (fun x hx hmem => hu (by rw [← List.mem_singleton.1 hmem]; exact hx)) t

theorem localAt_char {test : Char → Bool} (hu : ∀ c ∈ u.head?, test c = false) (t : Text) :
    (char test).LocalAt u t := by
  cases t with
  | nil =>
      rw [localAt_nil_iff]
      cases u with
      | nil => rfl
      | cons c u => simp [char, hu c rfl]
  | cons c t => cases hc : test c <;> simp [LocalAt, char, hc]

theorem localAt_upTo {c : Char} (hc : c ∈ t) : (upTo c).LocalAt u t := by
  obtain ⟨a, r, rfl, ha⟩ := List.eq_append_cons_of_mem hc
  rw [LocalAt, read?_upTo, read?_upTo, splitAt?_eq_some_iff.2 ⟨rfl, ha⟩]
  exact splitAt?_eq_some_iff.2 ⟨by simp, ha⟩

end Recogniser

end CalcTypeset
