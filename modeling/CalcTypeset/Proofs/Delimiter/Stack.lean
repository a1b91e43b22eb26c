import CalcTypeset.Proofs.Gauge
import CalcTypeset.Proofs.Sum.Locality
import Mathlib.Data.List.Forall2

/-!
# Parentheses and what they wait for

A command tells what the parenthesis behind it is: a sized one waits for a sized one, and that of a
direct trigonometric function for a degree mark and a plain one. The gauge of this file reads a line
with the stack of the open parentheses, and gets stuck where one is closed by what it does not wait
for. A parenthesis that closes nothing is read too, since a line may hold such ones.

When the gauge comes to the end of a line and only plain parentheses are open there, all others have
been closed by what they wait for: `exists_closing` finds what closes one, and `exists_opening` what
a closing one was opened by. Both rest on the same remark: a text in which every parenthesis is
closed may be read inside of any others and does nothing to them but mark the angles among them
(`follow_frame`).
-/

namespace CalcTypeset

open Text CalcTypeset.Bracket

/-- An open parenthesis, by what it waits for. -/
inductive Delimiter where
  | plain
  /-- Opened by a command for its size. -/
  | sized
  /-- Opened around an angle, which may have been marked. -/
  | angle (marked : Bool)
deriving DecidableEq

namespace Delimiter

/-! ## Commands -/

/-- The command in front of an opening parenthesis that grows. -/
def left : Text := "\\left".toList

/-- The command in front of a closing parenthesis that grows. -/
def right : Text := "\\right".toList

/-- The functions that take an angle. -/
def direct : List KnownFunction := [.sin, .cos, .tan]

/-- The commands that say something of a parenthesis behind them. -/
def commands : List Text := left :: right :: direct.map KnownFunction.latex

/-- A command begins with the text. -/
def isBeginning (x : Text) : Bool := commands.any fun k => x.isPrefixOf k

/-- The beginning of a command that has been read, with one more character. -/
def advance (x : Text) (c : Char) : Text :=
  if c = '\\' then ['\\'] else if !x.isEmpty && isBeginning (x ++ [c]) then x ++ [c] else []

/-- A command is a backslash and small letters. -/
theorem eq_backslash_or_isLower {k : Text} (hk : k ∈ commands) :
    ∀ c ∈ k, c = '\\' ∨ c.isLower = true := by
  revert k
  decide

theorem advance_eq_nil {c : Char} (hc : c ≠ '\\') (hlower : c.isLower = false) (x : Text) :
    advance x c = [] := by
  have hbeginning : isBeginning (x ++ [c]) = false := by
    refine List.any_eq_false.2 fun k hk hprefix => ?_
    have hmem := (List.isPrefixOf_iff_prefix.1 hprefix).subset (show c ∈ x ++ [c] by simp)
    rcases eq_backslash_or_isLower hk c hmem with h | h
    · exact hc h
    · rw [hlower] at h
      cases h
  rw [advance, if_neg hc, hbeginning, Bool.and_false, if_neg Bool.false_ne_true]

theorem advance_suffix (x : Text) (c : Char) : advance x c <:+ x ++ [c] := by
  unfold advance
  split
  · next hc => exact hc ▸ List.suffix_append x ['\\']
  · split
    · exact List.suffix_refl _
    · exact List.nil_suffix

/-! ## Parentheses -/

/-- What an opening parenthesis behind a command is. -/
def behind (x : Text) : Delimiter :=
  if x = left then sized else if x ∈ direct.map KnownFunction.latex then angle false else plain

/-- Whether a closing parenthesis behind a command closes it. -/
def closedBy (x : Text) : Delimiter → Bool
  | plain => x != right
  | sized => x == right
  | angle marked => marked && x != right

/-- What becomes of it when a text is read: a degree mark marks an angle. -/
def marks (t : Text) : Delimiter → Delimiter
  | angle marked => angle (marked || t.contains Markup.degree)
  | k => k

variable {k k' : Delimiter} {s t u x p : Text} {c : Char}

theorem behind_of_not_mem (hx : x ∉ commands) : behind x = plain := by
  rw [commands, List.mem_cons, List.mem_cons, not_or, not_or] at hx
  rw [behind, if_neg hx.1, if_neg hx.2.2]

theorem behind_eq_sized_iff : behind x = sized ↔ x = left := by
  unfold behind
  split
  · next hleft => simp [hleft]
  · next hleft => split <;> simp [hleft]

theorem closedBy_plain (hx : x ∉ commands) : plain.closedBy x = true := by
  rw [commands, List.mem_cons, List.mem_cons, not_or, not_or] at hx
  simpa [closedBy] using hx.2.1

theorem marks_append (s t : Text) (k : Delimiter) : marks (s ++ t) k = marks t (marks s k) := by
  cases k with
  | angle marked =>
      rw [marks, marks, marks, Bool.or_assoc, List.contains_eq_any_beq, List.any_append]
      simp only [List.contains_eq_any_beq]
  | plain | sized => rfl

theorem map_marks_append (s t : Text) (st : List Delimiter) :
    st.map (marks (s ++ t)) = (st.map (marks s)).map (marks t) := by
  rw [List.map_map]
  exact List.map_congr_left fun k _ => marks_append s t k

theorem marks_of_not_mem (h : Markup.degree ∉ t) (k : Delimiter) : marks t k = k := by
  cases k with
  | angle marked => rw [marks, List.contains_eq_mem, decide_eq_false h, Bool.or_false]
  | plain | sized => rfl

theorem map_marks_of_not_mem (h : Markup.degree ∉ t) (st : List Delimiter) :
    st.map (marks t) = st := by
  rw [funext (marks_of_not_mem h), List.map_id']

theorem map_marks_cons (hc : c ≠ Markup.degree) (s : Text) (st : List Delimiter) :
    st.map (marks (c :: s)) = st.map (marks s) := by
  have hmark : Markup.degree ∉ [c] := by simpa using hc.symm
  rw [← List.singleton_append, map_marks_append, map_marks_of_not_mem hmark]

theorem marks_eq_plain_iff : marks t k = plain ↔ k = plain := by
  cases k <;> simp [marks]

theorem marks_eq_sized_iff : marks t k = sized ↔ k = sized := by
  cases k <;> simp [marks]

/-- It is the same, or waits for less, since it has been marked. -/
def le (k k' : Delimiter) : Prop := k = k' ∨ k = k'.marks [Markup.degree]

theorem le.closedBy (h : le k k') (hk : k'.closedBy x = true) : k.closedBy x = true := by
  rcases h with rfl | rfl
  · exact hk
  · cases k' with
    | angle marked =>
        rw [Delimiter.closedBy, Bool.and_eq_true] at hk
        exact Bool.and_eq_true_iff.2 ⟨by simp, hk.2⟩
    | plain | sized => exact hk

theorem le.trans {k'' : Delimiter} (h : le k k') (h' : le k' k'') : le k k'' := by
  rcases h with rfl | rfl
  · exact h'
  · rcases h' with rfl | rfl
    · exact .inr rfl
    · exact .inr (by cases k'' <;> simp [marks])

theorem le.marks (h : le k k') (t : Text) : le (k.marks t) (k'.marks t) := by
  rcases h with rfl | rfl
  · exact .inl rfl
  · exact .inr (by cases k' <;> simp [Delimiter.marks])

theorem marks_le (t : Text) (k : Delimiter) : le (k.marks t) k := by
  by_cases h : Markup.degree ∈ t
  · exact .inr (by cases k <;> simp [marks, h])
  · exact .inl (marks_of_not_mem h k)

/-! ## Reading a line -/

/-- What has been read: the beginning of a command, and the open parentheses, the innermost first. -/
structure State where
  command : Text
  opened : List Delimiter

/-- The state behind a character; none when it closes a parenthesis that does not wait for it. -/
def State.step (q : State) (c : Char) : Option State :=
  if c = '(' then some ⟨[], behind q.command :: q.opened⟩
  else if c = ')' then
    if (q.opened.headD .plain).closedBy q.command then some ⟨[], q.opened.tail⟩ else none
  else some ⟨advance q.command c, q.opened.map (marks [c])⟩

/-- The same command, and the same parentheses, of which more may have been marked. -/
structure State.le (q q' : State) : Prop where
  command : q.command = q'.command
  opened : List.Forall₂ Delimiter.le q.opened q'.opened

theorem forall₂_le_refl (st : List Delimiter) : List.Forall₂ le st st :=
  List.forall₂_same.2 fun _ _ => .inl rfl

theorem forall₂_le_trans {st st' st'' : List Delimiter} (h : List.Forall₂ le st st')
    (h' : List.Forall₂ le st' st'') : List.Forall₂ le st st'' := by
  induction h generalizing st'' with
  | nil => exact h'
  | cons h _ ih =>
      obtain _ | ⟨hk, ht⟩ := h'
      exact .cons (h.trans hk) (ih ht)

theorem forall₂_le_marks {st st' : List Delimiter} (h : List.Forall₂ le st st') (t : Text) :
    List.Forall₂ le (st.map (marks t)) (st'.map (marks t)) := by
  induction h with
  | nil => exact .nil
  | cons h _ ih => exact .cons (h.marks t) ih

theorem forall₂_marks_le (t : Text) (st : List Delimiter) :
    List.Forall₂ le (st.map (marks t)) st := by
  induction st with
  | nil => exact .nil
  | cons k st ih => exact .cons (marks_le t k) ih

theorem closedBy_of_forall₂_le {st st' : List Delimiter} (h : List.Forall₂ le st' st)
    (hclosed : (st.headD plain).closedBy x = true) :
    (st'.headD plain).closedBy x = true ∧ List.Forall₂ le st'.tail st.tail := by
  cases h with
  | nil => exact ⟨hclosed, .nil⟩
  | cons hk hst => exact ⟨hk.closedBy hclosed, hst⟩

theorem State.step_mono {q q' r : State} (hle : q'.le q) (hstep : q.step c = some r) :
    ∃ r', q'.step c = some r' ∧ r'.le r := by
  unfold step at hstep ⊢
  rw [hle.command]
  by_cases hopen : c = '('
  · rw [if_pos hopen] at hstep ⊢
    obtain rfl := Option.some.inj hstep
    exact ⟨_, rfl, rfl, .cons (.inl rfl) hle.opened⟩
  · rw [if_neg hopen] at hstep ⊢
    by_cases hclose : c = ')'
    · rw [if_pos hclose] at hstep ⊢
      split at hstep
      · next hclosed =>
          obtain rfl := Option.some.inj hstep
          obtain ⟨hclosed', htail⟩ := closedBy_of_forall₂_le hle.opened hclosed
          exact ⟨_, if_pos hclosed', rfl, htail⟩
      · cases hstep
    · rw [if_neg hclose] at hstep ⊢
      obtain rfl := Option.some.inj hstep
      exact ⟨_, rfl, rfl, forall₂_le_marks hle.opened [c]⟩

/-- The gauge of the parentheses. -/
def delimiters : Gauge State where
  step := State.step
  le := State.le
  refl q := ⟨rfl, forall₂_le_refl q.opened⟩
  trans h h' := ⟨h.command.trans h'.command, forall₂_le_trans h.opened h'.opened⟩
  mono := State.step_mono

variable {q r : State} {st st' P Q : List Delimiter}

theorem step_opening (x : Text) (st : List Delimiter) :
    delimiters.step ⟨x, st⟩ '(' = some ⟨[], behind x :: st⟩ := rfl

theorem step_closing_eq_some_iff : delimiters.step q ')' = some r ↔
    (q.opened.headD .plain).closedBy q.command = true ∧ r = ⟨[], q.opened.tail⟩ := by
  show (if (q.opened.headD .plain).closedBy q.command = true then some _ else none) = some r ↔ _
  rw [Option.ite_none_right_eq_some, Option.some.injEq]
  exact and_congr_right fun _ => eq_comm

theorem step_other (hopen : c ≠ '(') (hclose : c ≠ ')') (x : Text) (st : List Delimiter) :
    delimiters.step ⟨x, st⟩ c = some ⟨advance x c, st.map (marks [c])⟩ := by
  show State.step _ c = _
  rw [State.step, if_neg hopen, if_neg hclose]

/-- Neither a parenthesis nor a degree mark. -/
def IsNeutral (t : Text) : Prop := ∀ c ∈ t, c ≠ '(' ∧ c ≠ ')' ∧ c ≠ Markup.degree

instance (t : Text) : Decidable (IsNeutral t) := inferInstanceAs (Decidable (∀ c ∈ t, _))

/-- Where nothing is opened, closed or marked, only the command changes. -/
theorem follow_neutral (ht : IsNeutral t) (x : Text) (st : List Delimiter) :
    delimiters.follow ⟨x, st⟩ t = some ⟨t.foldl advance x, st⟩ := by
  induction t generalizing x with
  | nil => rfl
  | cons c t ih =>
      obtain ⟨hopen, hclose, hdegree⟩ := ht c (by simp)
      rw [Gauge.follow_cons, step_other hopen hclose, Option.bind_some,
        map_marks_cons hdegree, map_marks_of_not_mem List.not_mem_nil]
      exact ih (fun d hd => ht d (by simp [hd])) _

/-- Whatever has been read, a command is read as it stands. -/
theorem follow_command (ht : IsNeutral t) (hhead : t.head? = some '\\') (q : State) :
    delimiters.follow q t = some ⟨t.foldl advance [], q.opened⟩ := by
  obtain ⟨l, rfl⟩ := List.head?_eq_some_iff.1 hhead
  exact follow_neutral ht q.command q.opened

theorem follow_left (q : State) : delimiters.follow q left = some ⟨left, q.opened⟩ := by
  have hread : left.foldl advance [] = left := by decide
  rw [follow_command (t := left) (by decide) (by decide), hread]

theorem follow_right (q : State) : delimiters.follow q right = some ⟨right, q.opened⟩ := by
  have hread : right.foldl advance [] = right := by decide
  rw [follow_command (t := right) (by decide) (by decide), hread]

/-- Read inside of other parentheses, a text that closes none of them does not depend on them, and
marks the angles among them. -/
theorem follow_frame {d : Nat} (h : delimiters.follow ⟨x, P ++ Q⟩ s = some r)
    (hd : Kind.round.depthAfter P.length s = some d) :
    ∃ y P', P'.length = d ∧ r = ⟨y, P' ++ Q.map (marks s)⟩ ∧
      ∀ Q, delimiters.follow ⟨x, P ++ Q⟩ s = some ⟨y, P' ++ Q.map (marks s)⟩ := by
  induction s generalizing x P Q with
  | nil =>
      obtain rfl := Option.some.inj h
      refine ⟨x, P, Option.some.inj hd, ?_, fun Q => ?_⟩
      · rw [map_marks_of_not_mem List.not_mem_nil]
      · rw [map_marks_of_not_mem List.not_mem_nil, Gauge.follow_nil]
  | cons c s ih =>
      by_cases hopen : c = '('
      · subst hopen
        have hmarks := map_marks_cons (c := '(') (by decide) s
        rw [show '(' = Kind.round.opening from rfl, Kind.depthAfter_opening] at hd
        obtain ⟨y, P', hP', hr, hframe⟩ := ih (P := behind x :: P) h hd
        exact ⟨y, P', hP', by rw [hmarks, hr], fun Q => by rw [hmarks, ← hframe Q]; rfl⟩
      · by_cases hclose : c = ')'
        · subst hclose
          have hmarks := map_marks_cons (c := ')') (by decide) s
          obtain _ | ⟨k, P⟩ := P
          · cases hd
          · obtain ⟨m, hm, hs⟩ := Option.bind_eq_some_iff.1 h
            obtain ⟨hclosed, rfl⟩ := step_closing_eq_some_iff.1 hm
            have hstep : ∀ Q, delimiters.step ⟨x, k :: P ++ Q⟩ ')' = some ⟨[], P ++ Q⟩ :=
              fun Q => step_closing_eq_some_iff.2 ⟨hclosed, rfl⟩
            rw [List.length_cons, show ')' = Kind.round.closing from rfl,
              Kind.depthAfter_closing] at hd
            obtain ⟨y, P', hP', hr, hframe⟩ := ih hs hd
            exact ⟨y, P', hP', by rw [hmarks, hr], fun Q => by
              rw [hmarks, ← hframe Q, Gauge.follow_cons, hstep, Option.bind_some]⟩
        · have hstep : ∀ Q, delimiters.follow ⟨x, P ++ Q⟩ (c :: s) =
              delimiters.follow ⟨advance x c, P.map (marks [c]) ++ Q.map (marks [c])⟩ s := fun Q => by
            rw [Gauge.follow_cons, step_other hopen hclose, Option.bind_some, List.map_append]
          rw [hstep] at h
          have hlength : (P.map (marks [c])).length = P.length := List.length_map _
          rw [Kind.depthAfter_neutral_cons ⟨hopen, hclose⟩, ← hlength] at hd
          obtain ⟨y, P', hP', hr, hframe⟩ := ih h hd
          refine ⟨y, P', hP', ?_, fun Q => ?_⟩
          · rw [hr, ← map_marks_append, List.singleton_append]
          · rw [hstep, hframe, ← map_marks_append, List.singleton_append]

/-- A text in which every parenthesis is closed may be read inside of any others, and marks the
angles among them. -/
theorem follow_of_isBalanced (ht : IsBalanced '(' ')' t)
    (h : delimiters.follow ⟨x, st⟩ t = some r) : ∃ y, r = ⟨y, st.map (marks t)⟩ ∧
      ∀ st, delimiters.follow ⟨x, st⟩ t = some ⟨y, st.map (marks t)⟩ := by
  obtain ⟨y, P, hP, hr, hframe⟩ := follow_frame (P := []) h ht
  obtain rfl := List.eq_nil_of_length_eq_zero hP
  exact ⟨y, hr, hframe⟩

/-- The command that has been read is the end of what has been read. -/
theorem command_suffix (h : delimiters.follow q s = some r) : r.command <:+ q.command ++ s := by
  induction s generalizing q with
  | nil =>
      obtain rfl := Option.some.inj h
      exact ⟨[], (List.append_nil _).symm⟩
  | cons c s ih =>
      obtain ⟨m, hm, hr⟩ := Option.bind_eq_some_iff.1 h
      have hcommand : m.command <:+ q.command ++ [c] := by
        replace hm : q.step c = some m := hm
        unfold State.step at hm
        split at hm
        · obtain rfl := Option.some.inj hm
          exact List.nil_suffix
        · split at hm
          · split at hm
            · obtain rfl := Option.some.inj hm
              exact List.nil_suffix
            · cases hm
          · obtain rfl := Option.some.inj hm
            exact advance_suffix q.command c
      obtain ⟨z, hz⟩ := hcommand
      refine (ih hr).trans ⟨z, ?_⟩
      rw [← List.append_assoc, hz, List.append_assoc, List.singleton_append]

/-! ## What closes a parenthesis -/

/-- When only plain parentheses are open at the end, another one has been closed by what it waited
for. -/
theorem exists_closing (h : delimiters.follow ⟨[], k :: st⟩ s = some r)
    (hr : ∀ k ∈ r.opened, k = plain) (hk : k ≠ plain) :
    ∃ t u y, closing? 0 s = some (t, u) ∧ y <:+ t ∧ (marks t k).closedBy y = true := by
  cases hclosing : closing? 0 s with
  | none =>
      obtain ⟨e, he⟩ := closing?_eq_none_iff.1 hclosing
      obtain ⟨y, P, -, rfl, -⟩ := follow_frame (P := []) h he
      exact absurd (marks_eq_plain_iff.1 (hr (marks s k) (by simp))) hk
  | some p =>
      obtain ⟨t, u⟩ := p
      obtain ⟨rfl, ht⟩ := closing?_eq_some_iff.1 hclosing
      obtain ⟨m, hm, hrest⟩ := Gauge.follow_append_eq_some_iff.1 h
      obtain ⟨m', hm', -⟩ := Option.bind_eq_some_iff.1 hrest
      obtain ⟨y, rfl, -⟩ := follow_of_isBalanced ht hm
      exact ⟨t, u, y, rfl, command_suffix hm, (step_closing_eq_some_iff.1 hm').1⟩

/-! ## What a parenthesis was opened by -/

/-- The open parentheses of a text, the innermost first: behind each, all others are closed. -/
def Opened : Text → List Delimiter → Prop
  | _, [] => True
  | p, k :: st => ∃ q a, p = q ++ '(' :: a ∧ IsBalanced '(' ')' a ∧ (k = sized → left <:+ q) ∧
      Opened q st

theorem Opened.append (h : Opened p st) (ht : IsBalanced '(' ')' t) : Opened (p ++ t) st := by
  cases st with
  | nil => trivial
  | cons k st =>
      obtain ⟨q, a, rfl, ha, hk, hq⟩ := h
      refine ⟨q, a ++ t, by simp, ?_, hk, hq⟩
      exact (Kind.depthAfter_append_of_some (k := .round) ha t).trans ht

theorem Opened.marks (h : Opened p st) (t : Text) : Opened p (st.map (marks t)) := by
  induction st generalizing p with
  | nil => trivial
  | cons k st ih =>
      obtain ⟨q, a, hp, ha, hk, hq⟩ := h
      exact ⟨q, a, hp, ha, fun hsized => hk (marks_eq_sized_iff.1 hsized), ih hq⟩

/-- What is open is known behind each character. -/
theorem Opened.step (h : Opened p q.opened) (hcommand : q.command <:+ p)
    (hstep : delimiters.step q c = some r) : Opened (p ++ [c]) r.opened := by
  by_cases hopen : c = '('
  · subst hopen
    obtain rfl := Option.some.inj hstep
    exact ⟨p, [], rfl, rfl, fun hsized => (behind_eq_sized_iff.1 hsized) ▸ hcommand, h⟩
  · by_cases hclose : c = ')'
    · subst hclose
      obtain ⟨-, rfl⟩ := step_closing_eq_some_iff.1 hstep
      obtain ⟨x, _ | ⟨k, st⟩⟩ := q
      · trivial
      · obtain ⟨q, a, rfl, ha, -, hq⟩ := h
        have hgroup := hq.append (t := Markup.parenthesised a)
          (depthAfter_parenthesised (k := .round) ha)
        simpa [Markup.parenthesised] using hgroup
    · obtain ⟨x, st⟩ := q
      rw [step_other hopen hclose] at hstep
      obtain rfl := Option.some.inj hstep
      exact (h.append (t := [c]) (Kind.depthAfter_neutral_cons (k := .round) ⟨hopen, hclose⟩ [])).marks
        [c]

theorem Opened.follow (h : Opened p q.opened) (hcommand : q.command <:+ p)
    (hs : delimiters.follow q s = some r) : Opened (p ++ s) r.opened := by
  induction s generalizing p q with
  | nil =>
      obtain rfl := Option.some.inj hs
      rwa [List.append_nil]
  | cons c s ih =>
      obtain ⟨m, hm, hr⟩ := Option.bind_eq_some_iff.1 hs
      have hstep : delimiters.follow q [c] = some m := by
        rw [Gauge.follow_cons, hm, Option.bind_some, Gauge.follow_nil]
      obtain ⟨z, hz⟩ := hcommand
      have := ih (p := p ++ [c]) (h.step ⟨z, hz⟩ hm)
        ((command_suffix hstep).trans ⟨z, by rw [← List.append_assoc, hz]⟩) hr
      rwa [List.append_assoc] at this

/-- A sized closing parenthesis closes a sized one. -/
theorem exists_opening (h : delimiters.follow ⟨[], []⟩ (p ++ right ++ ')' :: u) = some r) :
    ∃ q a, p = q ++ left ++ '(' :: a ∧ IsBalanced '(' ')' a := by
  obtain ⟨m, hm, hclose⟩ := Gauge.follow_append_eq_some_iff.1 h
  obtain ⟨m', hp, hm'⟩ := Gauge.follow_append_eq_some_iff.1 hm
  rw [follow_right] at hm'
  obtain rfl := Option.some.inj hm'
  obtain ⟨r', hstep, -⟩ := Option.bind_eq_some_iff.1 hclose
  have hclosed := (step_closing_eq_some_iff.1 hstep).1
  have hopened : Opened p m'.opened := by
    simpa using Opened.follow (p := []) (q := ⟨[], []⟩) trivial (List.suffix_refl _) hp
  obtain ⟨x, _ | ⟨k, st⟩⟩ := m'
  · cases hclosed
  · obtain ⟨q, a, rfl, ha, hk, -⟩ := hopened
    obtain ⟨q, rfl⟩ : left <:+ q := hk (by cases k <;> simp_all [closedBy])
    exact ⟨q, a, rfl, ha⟩

end Delimiter

end CalcTypeset
