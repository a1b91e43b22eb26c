import CalcTypeset.Proofs.CallRule
import CalcTypeset.Proofs.Delimiter.Stack

/-!
# Calls between delimiters

The argument of a call that can be read may stand between parentheses of any other sort: it closes
none of those around it and does not end with a command (`IsContent`). So a typeset call can be read
wherever the call can. It closes what it opens, and leaves the parentheses around it as they were,
except that a degree mark may mark some more of them (`exists_follow_typeset`).
-/

namespace CalcTypeset.Delimiter

open Text CalcTypeset.Bracket

variable {f : KnownFunction} {k : Delimiter} {st : List Delimiter} {t x y : Text} {r : State}

/-! ## Names -/

/-- A command that ends with a name is that of the name, so it takes an angle. -/
theorem mem_direct_of_suffix (hx : x ∈ commands) (h : x <:+ y ++ f.name) : f ∈ direct ∧ x ≠ left := by
  have hends : ∀ f ∈ KnownFunction.all, ∀ x ∈ commands,
      x.drop (x.length - f.name.length) <:+ f.name → f ∈ direct ∧ x ≠ left := by decide +kernel
  refine hends f f.mem_all x hx (List.suffix_of_suffix_length_le
    ((List.drop_suffix _ x).trans h) (List.suffix_append y f.name) ?_)
  rw [List.length_drop]
  omega

theorem isNeutral_name (f : KnownFunction) : IsNeutral f.name := by
  cases f <;> decide

theorem foldl_advance_suffix (x s : Text) : s.foldl advance x <:+ x ++ s := by
  induction s generalizing x with
  | nil => rw [List.append_nil]; exact List.suffix_refl x
  | cons c s ih =>
      obtain ⟨z, hz⟩ := advance_suffix x c
      refine (ih (advance x c)).trans ⟨z, ?_⟩
      rw [← List.append_assoc, hz, List.append_assoc, List.singleton_append]

theorem behind_name_ne_sized (f : KnownFunction) (x : Text) :
    behind (f.name.foldl advance x) ≠ sized := by
  intro h
  have hleft := behind_eq_sized_iff.1 h
  have hsuffix := foldl_advance_suffix x f.name
  rw [hleft] at hsuffix
  exact (mem_direct_of_suffix (List.mem_cons_self ..) hsuffix).2 rfl

theorem behind_name_of_not_mem (hf : f ∉ direct) (x : Text) :
    behind (f.name.foldl advance x) = plain :=
  behind_of_not_mem fun hx => hf (mem_direct_of_suffix hx (foldl_advance_suffix x f.name)).1

theorem follow_name_opening (f : KnownFunction) (x : Text) (st : List Delimiter) :
    delimiters.follow ⟨x, st⟩ (f.name ++ ['(']) =
      some ⟨[], behind (f.name.foldl advance x) :: st⟩ := by
  rw [Gauge.follow_append_of_some (follow_neutral (isNeutral_name f) x st)]
  rfl

/-! ## Contents -/

/-- The text may stand between parentheses, whatever these wait for, unless for a command. -/
def IsContent (t : Text) : Prop :=
  ∃ y, y ≠ right ∧ ∀ st, delimiters.follow ⟨[], st⟩ t = some ⟨y, st.map (marks t)⟩

/-- The content of a call that can be read. -/
theorem isContent_of_follow (ht : IsBalanced '(' ')' t)
    (h : delimiters.follow ⟨x, st⟩ (f.name ++ Markup.parenthesised t) = some r) :
    IsContent t ∧ r = ⟨[], st.map (marks t)⟩ := by
  have hsplit : f.name ++ Markup.parenthesised t = f.name ++ ['('] ++ (t ++ [')']) := by
    simp [Markup.parenthesised]
  rw [hsplit, Gauge.follow_append_of_some (follow_name_opening f x st)] at h
  obtain ⟨m, hm, hclose⟩ := Gauge.follow_append_eq_some_iff.1 h
  obtain ⟨y, rfl, hframe⟩ := follow_of_isBalanced ht hm
  obtain ⟨m', hstep, hr⟩ := Option.bind_eq_some_iff.1 hclose
  obtain rfl := Option.some.inj hr
  obtain ⟨hclosed, rfl⟩ := step_closing_eq_some_iff.1 hstep
  refine ⟨⟨y, ?_, hframe⟩, rfl⟩
  rintro rfl
  have hne := behind_name_ne_sized f x
  revert hclosed hne
  cases behind (f.name.foldl advance x) <;> simp [marks, closedBy]

theorem IsContent.concat_degree (h : IsContent t) : IsContent (t ++ [Markup.degree]) := by
  obtain ⟨y, -, h⟩ := h
  refine ⟨[], by decide, fun st => ?_⟩
  rw [Gauge.follow_append_of_some (h st), map_marks_append, Gauge.follow_cons,
    step_other (by decide) (by decide), advance_eq_nil (by decide) (by decide)]
  rfl

theorem IsContent.markedOnce (h : IsContent t) : IsContent (KnownFunction.markedOnce t) := by
  unfold KnownFunction.markedOnce
  split
  · exact h
  · exact h.concat_degree

theorem IsContent.follow_closing (h : IsContent t)
    (hk : ∀ y, y ≠ right → (marks t k).closedBy y = true) (st : List Delimiter) :
    delimiters.follow ⟨[], k :: st⟩ (t ++ [')']) = some ⟨[], st.map (marks t)⟩ := by
  obtain ⟨y, hy, h⟩ := h
  rw [Gauge.follow_append_of_some (h (k :: st)), Gauge.follow_cons,
    step_closing_eq_some_iff.2 ⟨hk y hy, rfl⟩]
  rfl

theorem IsContent.follow_right (h : IsContent t) (st : List Delimiter) :
    delimiters.follow ⟨[], sized :: st⟩ (t ++ "\\right)".toList) = some ⟨[], st.map (marks t)⟩ := by
  obtain ⟨y, -, h⟩ := h
  have hsplit : t ++ "\\right)".toList = t ++ right ++ [')'] := by
    rw [List.append_assoc]
    rfl
  rw [hsplit, Gauge.follow_append_of_some
    ((Gauge.follow_append_of_some (h (sized :: st)) right).trans (Delimiter.follow_right _))]
  rfl

theorem IsContent.follow_brace (h : IsContent t) (st : List Delimiter) :
    delimiters.follow ⟨[], st⟩ (t ++ ['\x7d']) = some ⟨[], st.map (marks t)⟩ := by
  obtain ⟨y, -, h⟩ := h
  rw [Gauge.follow_append_of_some (h st), follow_neutral (by decide)]
  show some (⟨advance y '\x7d', _⟩ : State) = _
  rw [advance_eq_nil (by decide) (by decide)]

/-! ## Typeset calls -/

theorem closedBy_of_plain (t : Text) : ∀ y, y ≠ right → (marks t plain).closedBy y = true := by
  intro y hy
  simpa [marks, closedBy] using hy

theorem closedBy_of_marked {marked : Bool} (ht : Markup.degree ∈ t) :
    ∀ y, y ≠ right → (marks t (angle marked)).closedBy y = true := by
  intro y hy
  simpa [marks, closedBy, ht] using hy

theorem degree_mem_markedOnce (t : Text) : Markup.degree ∈ KnownFunction.markedOnce t := by
  unfold KnownFunction.markedOnce
  split
  · next h => exact List.contains_iff_mem.1 h
  · exact List.mem_append_right t (List.mem_singleton_self _)

/-- The command of a function that takes an angle opens one. -/
theorem follow_direct (hf : f ∈ direct) (x : Text) (st : List Delimiter) :
    delimiters.follow ⟨x, st⟩ (f.latex ++ ['(']) = some ⟨[], angle false :: st⟩ := by
  have hlatex : ∀ f ∈ direct, IsNeutral f.latex ∧ f.latex.head? = some '\\' ∧
      behind (f.latex.foldl advance []) = angle false := by decide
  obtain ⟨hneutral, hhead, hbehind⟩ := hlatex f hf
  rw [Gauge.follow_append_of_some (follow_command hneutral hhead _), ← hbehind]
  rfl

/-- A function that takes an angle has its argument marked and closed. -/
theorem follow_typeset_direct (hf : f ∈ direct) (h : IsContent t) (x : Text)
    (st : List Delimiter) :
    delimiters.follow ⟨x, st⟩ (f.typeset t) =
      some ⟨[], st.map (marks (KnownFunction.markedOnce t))⟩ := by
  have hsplit : f.typeset t = f.latex ++ ['('] ++ (KnownFunction.markedOnce t ++ [')']) := by
    simp only [direct, List.mem_cons, List.not_mem_nil, or_false] at hf
    rcases hf with rfl | rfl | rfl <;> simp [KnownFunction.typeset, Markup.parenthesised]
  rw [hsplit, Gauge.follow_append_of_some (follow_direct hf x st)]
  exact h.markedOnce.follow_closing (closedBy_of_marked (degree_mem_markedOnce t)) st

/-- Between parentheses of whatever size an argument is closed by what is written with it. -/
theorem follow_delimited (f : KnownFunction) (h : IsContent t) (st : List Delimiter) :
    delimiters.follow ⟨[], st⟩ (f.delimited t) = some ⟨[], st.map (marks t)⟩ := by
  unfold KnownFunction.delimited
  split
  · have hsplit : Markup.sized t = left ++ '(' :: (t ++ "\\right)".toList) := by
      show "\\left(".toList ++ t ++ "\\right)".toList = _
      rw [List.append_assoc]
      rfl
    rw [hsplit, Gauge.follow_append_of_some (follow_left _)]
    exact h.follow_right st
  · exact h.follow_closing (closedBy_of_plain t) st

/-- A degree mark behind a call marks the angles around it. -/
theorem follow_concat_degree {w : Text}
    (h : delimiters.follow ⟨x, st⟩ w = some ⟨[], st.map (marks t)⟩) :
    delimiters.follow ⟨x, st⟩ (w ++ [Markup.degree]) =
      some ⟨[], st.map (marks (t ++ [Markup.degree]))⟩ := by
  rw [Gauge.follow_append_of_some h, map_marks_append]
  rfl

/-- The command of an inverse function or a logarithm ends with a brace. -/
theorem follow_latex {f : KnownFunction} (hf : f ∈ [KnownFunction.asin, .acos, .atan, .log, .ln])
    (q : State) : delimiters.follow q f.latex = some ⟨[], q.opened⟩ := by
  have hlatex : ∀ f ∈ [KnownFunction.asin, .acos, .atan, .log, .ln], IsNeutral f.latex ∧
      f.latex.head? = some '\\' ∧ f.latex.foldl advance [] = [] := by decide
  obtain ⟨hneutral, hhead, hread⟩ := hlatex f hf
  rw [follow_command hneutral hhead, hread]

/-- A call that keeps its name and parentheses. -/
theorem follow_call (hf : f ∉ direct) (h : IsContent t) (x : Text) (st : List Delimiter) :
    delimiters.follow ⟨x, st⟩ (f.name ++ Markup.parenthesised t) = some ⟨[], st.map (marks t)⟩ := by
  have hsplit : f.name ++ Markup.parenthesised t = f.name ++ ['('] ++ (t ++ [')']) := by
    simp [Markup.parenthesised]
  rw [hsplit, Gauge.follow_append_of_some (follow_name_opening f x st), behind_name_of_not_mem hf]
  exact h.follow_closing (closedBy_of_plain t) st

/-- A call whose parentheses become braces. -/
theorem follow_braces {w : Text} (hw : delimiters.follow ⟨x, st⟩ (w ++ ['\x7b']) = some ⟨[], st⟩)
    (h : IsContent t) :
    delimiters.follow ⟨x, st⟩ (w ++ Markup.braced t) = some ⟨[], st.map (marks t)⟩ := by
  have hsplit : w ++ Markup.braced t = w ++ ['\x7b'] ++ (t ++ ['\x7d']) := by
    simp [Markup.braced]
  rw [hsplit, Gauge.follow_append_of_some hw, h.follow_brace]

/-- A typeset call can be read wherever the call can, and marks what its argument does, or all
angles around it. -/
theorem exists_follow_typeset (f : KnownFunction) (h : IsContent t) (x : Text)
    (st : List Delimiter) :
    ∃ v, delimiters.follow ⟨x, st⟩ (f.typeset t) = some ⟨[], st.map (marks (t ++ v))⟩ := by
  have hdelimited : ∀ f ∈ [KnownFunction.asin, .acos, .atan, .log, .ln],
      delimiters.follow ⟨x, st⟩ (f.latex ++ f.delimited t) = some ⟨[], st.map (marks t)⟩ := by
    intro f hf
    rw [Gauge.follow_append_of_some (follow_latex hf _), follow_delimited f h]
  cases f with
  | sin | cos | tan =>
      obtain ⟨v, hv⟩ : ∃ v, KnownFunction.markedOnce t = t ++ v := by
        unfold KnownFunction.markedOnce
        split
        · exact ⟨[], (List.append_nil t).symm⟩
        · exact ⟨_, rfl⟩
      exact ⟨v, hv ▸ follow_typeset_direct (by decide) h x st⟩
  | asin | acos | atan => exact ⟨_, follow_concat_degree (hdelimited _ (by decide))⟩
  | log | ln =>
      refine ⟨[], ?_⟩
      rw [List.append_nil]
      exact hdelimited _ (by decide)
  | sqrt =>
      have hneutral : IsNeutral (KnownFunction.sqrt.latex ++ ['\x7b']) := by decide
      have hread : (KnownFunction.sqrt.latex ++ ['\x7b']).foldl advance [] = [] := by decide
      refine ⟨[], ?_⟩
      rw [List.append_nil, KnownFunction.typeset]
      refine follow_braces ?_ h
      rw [follow_command hneutral (by decide), hread]
  | exp =>
      have hneutral : IsNeutral ("e^".toList ++ ['\x7b']) := by decide
      refine ⟨[], ?_⟩
      rw [List.append_nil, KnownFunction.typeset]
      refine follow_braces ?_ h
      rw [follow_neutral hneutral, List.foldl_append, List.foldl_cons,
        advance_eq_nil (by decide) (by decide), List.foldl_nil]
  | dtor =>
      have htypeset : KnownFunction.dtor.typeset t =
          KnownFunction.dtor.name ++ Markup.parenthesised (t ++ [Markup.degree]) := rfl
      exact ⟨_, htypeset ▸ follow_call (by decide) h.concat_degree x st⟩
  | rtod =>
      have htypeset : KnownFunction.rtod.typeset t =
          KnownFunction.rtod.name ++ Markup.parenthesised t ++ [Markup.degree] := rfl
      exact ⟨_, htypeset ▸ follow_concat_degree (follow_call (by decide) h x st)⟩

/-- The gauge of the parentheses does not mind that a call is typeset. -/
theorem eases_typeset (f : KnownFunction) (ht : IsBalanced '(' ')' t) :
    delimiters.Eases (f.name ++ Markup.parenthesised t) (f.typeset t) := by
  intro q r h
  obtain ⟨hcontent, rfl⟩ := isContent_of_follow ht h
  obtain ⟨v, hv⟩ := exists_follow_typeset f hcontent q.command q.opened
  refine ⟨_, hv, rfl, ?_⟩
  rw [map_marks_append]
  exact forall₂_marks_le v _

theorem eases_typesetCalls (f : KnownFunction) (s : Text) :
    delimiters.Eases s (f.typesetCalls s) := by
  refine Call.replaceAfter_rel delimiters.congruence_eases (fun t ht => ?_) none s
  rw [List.append_assoc]
  exact eases_typeset f ht

theorem eases_typesetEach (s : Text) : delimiters.Eases s (KnownFunction.typesetEach s) :=
  List.foldlRecOn KnownFunction.typesetOrder _ (.refl s) fun t ht f _ =>
    ht.trans (eases_typesetCalls f t)

end CalcTypeset.Delimiter
