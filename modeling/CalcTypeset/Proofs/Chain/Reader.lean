import CalcTypeset.Proofs.Site
import Mathlib.Algebra.Order.Field.Rat

/-!
# Reading a typeset chain

A line of numerals, products, slashes and fractions is read back as a number: a fraction is its
numerator divided by its denominator, and the two infix signs bind equally and to the left. Blanks
mean nothing between the pieces of such a line, so they are dropped first; then one character
after the other is taken by a machine that keeps the value in front of the operand it waits for,
and the same for each group that is open. A line that is no such expression stops the machine.

`Reads` is what a part of a line does wherever an operand is awaited, and it follows the pieces of
the line. `IsStuck` is the opposite: a part that stops the machine wherever it comes.
-/

namespace CalcTypeset.Chain

open Text

/-- An operator of a chain. -/
inductive Op where
  | mul | div
deriving DecidableEq, Repr

namespace Op

/-- The operator as it is typed. -/
def sign : Op → Char
  | mul => '*'
  | div => '/'

/-- The operator between two operands, as it is typeset. -/
def latex : Op → Text
  | mul => Markup.times
  | div => ['/']

/-- What the operator makes of two values. -/
def apply : Op → ℚ → ℚ → ℚ
  | mul, u, v => u * v
  | div, u, v => u / v

end Op

/-- The value in front of an operand and the operator between them, if there are any. -/
abbrev Left := Option (ℚ × Op)

/-- The value up to an operand. -/
def Left.join : Left → ℚ → ℚ
  | none, v => v
  | some (u, o), v => o.apply u v

/-- What the machine waits for in the group that it reads. -/
inductive Focus where
  /-- An operand is due. -/
  | operand (left : Left)
  /-- A numeral may go on. -/
  | numeral (left : Left) (n : ℕ)
  /-- An operand has ended. -/
  | value (v : ℚ)
  /-- The numerator has been read, and the denominator is due. -/
  | bar (left : Left) (numerator : ℚ)

/-- A group that is open, with what stood in front of its fraction. -/
inductive Group where
  | numerator (left : Left)
  | denominator (left : Left) (numerator : ℚ)

/-- The state of the machine. While a command is typed, its letters so far are kept. -/
structure State where
  focus : Focus
  groups : List Group
  command : Option Text

/-- The value of the group so far, where an operand may end. -/
def Focus.value? : Focus → Option ℚ
  | numeral left n => some (left.join n)
  | value v => some v
  | _ => none

namespace State

/-- Where the machine starts. -/
def start : State := ⟨.operand none, [], none⟩

def operator (o : Op) (st : State) : Option State :=
  st.focus.value?.map fun v => ⟨.operand (some (v, o)), st.groups, none⟩

def fraction (st : State) : Option State :=
  match st.focus with
  | .operand left => some ⟨.operand none, .numerator left :: st.groups, none⟩
  | _ => none

def openBrace (st : State) : Option State :=
  match st.focus with
  | .bar left n => some ⟨.operand none, .denominator left n :: st.groups, none⟩
  | _ => none

def closeBrace (st : State) : Option State :=
  st.focus.value?.bind fun v =>
    match st.groups with
    | .numerator left :: gs => some ⟨.bar left v, gs, none⟩
    | .denominator left n :: gs => some ⟨.value (left.join (n / v)), gs, none⟩
    | [] => none

def digit (d : ℕ) (st : State) : Option State :=
  match st.focus with
  | .operand left => some ⟨.numeral left d, st.groups, none⟩
  | .numeral left n => some ⟨.numeral left (10 * n + d), st.groups, none⟩
  | _ => none

/-- The letters of a command and the brace behind a fraction. -/
def letters (w : Text) (st : State) : Option State :=
  if w = "times".toList then st.operator .mul
  else if w = "frac\x7b".toList then st.fraction
  else if w.isPrefixOf "times".toList || w.isPrefixOf "frac\x7b".toList then
    some { st with command := some w }
  else none

end State

/-- The value of a decimal digit. -/
def digitValue (c : Char) : ℕ := c.toNat - '0'.toNat

/-- One character is taken. -/
def step (st : State) (c : Char) : Option State :=
  match st.command with
  | some w => st.letters (w ++ [c])
  | none =>
      if c = '\\' then some { st with command := some [] }
      else if c = '/' then st.operator .div
      else if c = '{' then st.openBrace
      else if c = '}' then st.closeBrace
      else if c.isDigit then st.digit (digitValue c)
      else none

/-- A text is taken. -/
def run (st : State) (s : Text) : Option State := s.foldlM step st

/-- The value of a line when it has been read to its end. -/
def State.result (st : State) : Option ℚ :=
  match st with
  | ⟨focus, [], none⟩ => focus.value?
  | _ => none

/-- The text without its blanks. -/
def solid (s : Text) : Text := s.filter fun c => !isBlank c

/-- The number that a line stands for; none when it cannot be read. -/
def read? (s : Text) : Option ℚ := (run .start (solid s)).bind State.result

theorem run_append (st : State) (s t : Text) :
    run st (s ++ t) = (run st s).bind fun st' => run st' t := by
  rw [run, List.foldlM_append]
  rfl

theorem solid_append (s t : Text) : solid (s ++ t) = solid s ++ solid t :=
  List.filter_append ..

/-! ## Pieces that can be read -/

variable {left : Left} {groups : List Group} {focus : Focus}

theorem run_times : run ⟨focus, groups, none⟩ "\\times".toList =
    (State.mk focus groups none).operator .mul :=
  Option.bind_fun_some _

theorem run_frac : run ⟨focus, groups, none⟩ "\\frac\x7b".toList =
    (State.mk focus groups none).fraction :=
  Option.bind_fun_some _

theorem run_slash : run ⟨focus, groups, none⟩ ['/'] =
    (State.mk focus groups none).operator .div :=
  Option.bind_fun_some _

theorem run_openBrace : run ⟨focus, groups, none⟩ ['{'] =
    (State.mk focus groups none).openBrace :=
  Option.bind_fun_some _

theorem run_closeBrace : run ⟨focus, groups, none⟩ ['}'] =
    (State.mk focus groups none).closeBrace :=
  Option.bind_fun_some _

/-- Wherever an operand is due, the text is read and gives a value to the group. -/
def Reads (s : Text) (f : Left → ℚ) : Prop :=
  ∀ left groups, ∃ focus, run ⟨.operand left, groups, none⟩ (solid s) = some ⟨focus, groups, none⟩ ∧
    focus.value? = some (f left)

variable {s t : Text} {f g : Left → ℚ}

theorem Reads.read?_eq (h : Reads s f) : read? s = some (f none) := by
  obtain ⟨focus, hrun, hvalue⟩ := h none []
  rw [read?, State.start, hrun]
  exact hvalue

theorem Reads.frac (hs : Reads s f) (ht : Reads t g) :
    Reads (Markup.frac s t) fun left => left.join (f none / g none) := by
  intro left groups
  obtain ⟨fs, hs, hfs⟩ := hs none (.numerator left :: groups)
  obtain ⟨ft, ht, hft⟩ := ht none (.denominator left (f none) :: groups)
  have hsolid : solid (Markup.frac s t) =
      "\\frac\x7b".toList ++ (solid s ++ (['}'] ++ (['{'] ++ (solid t ++ ['}'])))) := by
    have hfrac : Markup.frac s t =
        "\\frac\x7b".toList ++ (s ++ (['}'] ++ (['{'] ++ (t ++ ['}'])))) :=
      List.append_assoc ("\\frac\x7b".toList ++ s) ['}'] _ |>.trans
        (List.append_assoc "\\frac\x7b".toList s _)
    rw [hfrac]
    simp only [solid_append]
    rfl
  refine ⟨.value (left.join (f none / g none)), ?_, rfl⟩
  rw [hsolid, run_append, run_frac, State.fraction, Option.bind_some, run_append, hs,
    Option.bind_some, run_append, run_closeBrace, State.closeBrace, hfs, Option.bind_some,
    Option.bind_some, run_append, run_openBrace, State.openBrace, Option.bind_some, run_append,
    ht, Option.bind_some, run_closeBrace, State.closeBrace, hft]
  rfl

theorem Reads.op (o : Op) (hs : Reads s f) (ht : Reads t g) :
    Reads (s ++ o.latex ++ t) fun left => g (some (f left, o)) := by
  intro left groups
  obtain ⟨fs, hs, hfs⟩ := hs left groups
  obtain ⟨ft, ht, hft⟩ := ht (some (f left, o)) groups
  have hop : run ⟨fs, groups, none⟩ (solid o.latex) =
      some ⟨.operand (some (f left, o)), groups, none⟩ := by
    cases o with
    | mul => rw [show solid Op.mul.latex = "\\times".toList from rfl, run_times,
        State.operator, hfs]; rfl
    | div => rw [show solid Op.div.latex = ['/'] from rfl, run_slash, State.operator, hfs]; rfl
  refine ⟨ft, ?_, hft⟩
  rw [solid_append, solid_append, run_append, run_append, hs, Option.bind_some, hop,
    Option.bind_some, ht]

/-! ## Numerals -/

/-- The value of a run of digits that goes on from a number. -/
def valueFrom (n : ℕ) (s : Text) : ℕ := s.foldl (fun n c => 10 * n + digitValue c) n

/-- A positive decimal numeral. -/
structure Numeral where
  text : Text
  ne_nil : text ≠ []
  isDigit : ∀ c ∈ text, c.isDigit = true
  pos : 0 < valueFrom 0 text

/-- The number that a numeral stands for. -/
def Numeral.value (n : Numeral) : ℚ := valueFrom 0 n.text

theorem solid_eq_self (h : ∀ c ∈ s, isBlank c = false) : solid s = s :=
  List.filter_eq_self.2 fun c hc => by rw [h c hc]; rfl

theorem isTermChar_of_isDigit {c : Char} (h : c.isDigit = true) :
    Fraction.isTermChar c = true :=
  Fraction.isTermChar_of_isNameChar (by simp [Variable.isNameChar, Char.isAlphanum, h])

theorem step_digit {c : Char} (h : c.isDigit = true) :
    step ⟨focus, groups, none⟩ c = (State.mk focus groups none).digit (digitValue c) := by
  have hne : c ≠ '\\' ∧ c ≠ '/' ∧ c ≠ '{' ∧ c ≠ '}' := by
    refine ⟨?_, ?_, ?_, ?_⟩ <;> rintro rfl <;> exact absurd h (by decide)
  simp only [step, hne, if_false, h, if_true]

theorem run_digits (h : ∀ c ∈ s, c.isDigit = true) (n : ℕ) :
    run ⟨.numeral left n, groups, none⟩ s =
      some ⟨.numeral left (valueFrom n s), groups, none⟩ := by
  induction s generalizing n with
  | nil => rfl
  | cons c s ih =>
      have hstep : step ⟨.numeral left n, groups, none⟩ c =
          some ⟨.numeral left (10 * n + digitValue c), groups, none⟩ := step_digit (h c (by simp))
      rw [run, List.foldlM_cons, hstep]
      exact ih (fun x hx => h x (by simp [hx])) _

theorem Numeral.reads (n : Numeral) : Reads n.text fun left => left.join n.value := by
  intro left groups
  have hsolid : solid n.text = n.text := solid_eq_self fun c hc =>
    Fraction.isBlank_of_isTermChar (isTermChar_of_isDigit (n.isDigit c hc))
  refine ⟨.numeral left (valueFrom 0 n.text), ?_, rfl⟩
  obtain ⟨c, s, hs⟩ := List.exists_cons_of_ne_nil n.ne_nil
  have hdigit : ∀ x ∈ c :: s, x.isDigit = true := by rw [← hs]; exact n.isDigit
  have hstep : step ⟨.operand left, groups, none⟩ c =
      some ⟨.numeral left (digitValue c), groups, none⟩ := step_digit (hdigit c (by simp))
  rw [hsolid, hs, run, List.foldlM_cons, hstep]
  refine (run_digits (fun x hx => hdigit x (by simp [hx])) _).trans ?_
  simp [valueFrom]

/-! ## Pieces that stop the machine -/

/-- The text cannot be read wherever it comes, and whatever comes behind it. -/
def IsStuck (s : Text) : Prop := ∀ st, run st (solid s) = none

theorem IsStuck.read?_eq_none (h : IsStuck s) (a b : Text) : read? (a ++ s ++ b) = none := by
  rw [read?, solid_append, solid_append, run_append, run_append]
  cases run .start (solid a) with
  | none => rfl
  | some st => rw [Option.bind_some, h st]; rfl

/-- No command goes on with a backslash. -/
theorem step_backslash (w : Text) : step ⟨focus, groups, some w⟩ '\\' = none := by
  have hmem : '\\' ∈ w ++ ['\\'] := List.mem_append_right w (by simp)
  have hne : ∀ t : Text, '\\' ∉ t → w ++ ['\\'] ≠ t ∧ (w ++ ['\\']).isPrefixOf t = false := by
    intro t ht
    refine ⟨fun he => ht (he ▸ hmem), ?_⟩
    cases hp : (w ++ ['\\']).isPrefixOf t with
    | false => rfl
    | true => exact absurd ((List.isPrefixOf_iff_prefix.1 hp).subset hmem) ht
  have htimes := hne "times".toList (by decide)
  have hfrac := hne "frac\x7b".toList (by decide)
  show State.letters (w ++ ['\\']) _ = none
  rw [State.letters, if_neg htimes.1, if_neg hfrac.1, htimes.2, hfrac.2]
  rfl

/-- A text that begins with a command is stuck when no group can go on with it. -/
theorem isStuck_of_backslash (hs : solid s = '\\' :: t)
    (h : ∀ focus groups, run ⟨focus, groups, none⟩ (solid s) = none) : IsStuck s := by
  rintro ⟨focus, groups, _ | w⟩
  · exact h focus groups
  · rw [hs, run, List.foldlM_cons, step_backslash]
    rfl

/-- A multiplication sign waits for an operand. -/
theorem isStuck_times_closeBrace : IsStuck (Markup.timesSign ++ ['}']) := by
  refine isStuck_of_backslash rfl fun focus groups => ?_
  have hsolid : solid (Markup.timesSign ++ ['}']) = "\\times".toList ++ ['}'] := rfl
  rw [hsolid, run_append, run_times, State.operator]
  cases focus.value? <;> rfl

/-- When the text is read, it leaves the groups as they are. -/
def Stays (s : Text) : Prop := ∀ focus groups st,
  run ⟨focus, groups, none⟩ (solid s) = some st → ∃ focus', st = ⟨focus', groups, none⟩

/-- A numerator waits for its denominator. -/
theorem isStuck_numerator_times (h : Stays s) :
    IsStuck (Markup.fracOpen ++ s ++ '}' :: Markup.timesSign) := by
  have hsolid : solid (Markup.fracOpen ++ s ++ '}' :: Markup.timesSign) =
      "\\frac\x7b".toList ++ (solid s ++ (['}'] ++ "\\times".toList)) := by
    rw [solid_append, solid_append, List.append_assoc]
    rfl
  refine isStuck_of_backslash hsolid fun focus groups => ?_
  rw [hsolid, run_append, run_frac, State.fraction]
  cases focus with
  | operand left =>
      rw [Option.bind_some, run_append]
      cases hs : run ⟨.operand none, .numerator left :: groups, none⟩ (solid s) with
      | none => rfl
      | some st =>
          obtain ⟨fs, rfl⟩ := h _ _ _ hs
          rw [Option.bind_some, run_append, run_closeBrace, State.closeBrace]
          cases fs.value? with
          | none => rfl
          | some v => rw [Option.bind_some, Option.bind_some, run_times]; rfl
  | numeral => rfl
  | value => rfl
  | bar => rfl

end CalcTypeset.Chain
