import CalcTypeset.Proofs.Reference.Kept
import CalcTypeset.Proofs.Settled

/-!
# Texts that differ in blocks

Two runs of the conversion are compared by a relation between their lines: the lines are the same
but for blocks, and block stands in front of block. What a block is depends on what is compared, the
names of references or the names of two functions. That a pass treats both lines alike is a matter
of the characters in a block only: none of them separates, so no command, operator or bracket begins
or ends inside one.

What has to be known of the whole lines besides is told by a gauge that every pass eases.
-/

namespace CalcTypeset

open Text Reference

/-- Two texts that are the same but for blocks that are paired with each other. -/
inductive Differ (B : Text → Text → Prop) : Text → Text → Prop where
  | nil : Differ B [] []
  | keep (c : Char) {s s' : Text} (h : Differ B s s') : Differ B (c :: s) (c :: s')
  | block {x x' s s' : Text} (hx : B x x') (h : Differ B s s') : Differ B (x ++ s) (x' ++ s')

/-- A text in which nothing ends or begins: its first character is one of names or references, and
those behind it are such as stand inside a reference. -/
structure IsBlock (x : Text) : Prop where
  ne_nil : x ≠ []
  head : ∀ c ∈ x.head?, ¬ IsOutside c
  tail : ∀ c ∈ x.tail, IsInside c

/-- Of two blocks that are paired, the class takes all characters, or it takes neither first one. -/
def TakesBlocks (B : Text → Text → Prop) (test : Char → Bool) : Prop :=
  ∀ x x', B x x' → ((∀ c ∈ x, test c = true) ∧ ∀ c ∈ x', test c = true) ∨
    ((∀ c ∈ x.head?, test c = false) ∧ ∀ c ∈ x'.head?, test c = false)

/-- What is paired are blocks. -/
structure PairsBlocks (B : Text → Text → Prop) : Prop where
  left : ∀ {x x'}, B x x' → IsBlock x
  right : ∀ {x x'}, B x x' → IsBlock x'

/-- Two texts that differ in blocks and that a gauge can read. -/
structure Compared {σ : Type} (B : Text → Text → Prop) (G : Gauge σ) (s s' : Text) : Prop where
  differ : Differ B s s'
  reads : G.Reads s
  reads' : G.Reads s'

variable {B : Text → Text → Prop} {test : Char → Bool} {s s' t t' x w : Text} {c : Char}

/-! ## Blocks -/

theorem not_isOutside_of_isInside (hc : IsInside c) : ¬ IsOutside c := fun h => hc.ne h rfl

namespace IsBlock

theorem not_isOutside (h : IsBlock x) : ∀ c ∈ x, ¬ IsOutside c := by
  intro c hc
  obtain ⟨d, w, rfl⟩ := List.exists_cons_of_ne_nil h.ne_nil
  rcases List.mem_cons.1 hc with rfl | hc
  · exact h.head c rfl
  · exact not_isOutside_of_isInside (h.tail c hc)

theorem not_mem (h : IsBlock x) (hc : IsOutside c) : c ∉ x := fun hmem =>
  h.not_isOutside c hmem hc

/-- A class that takes what stands outside references only does not take the beginning of a
block. -/
theorem head_eq_false (h : IsBlock x) (htest : ∀ c, test c = true → IsOutside c) :
    ∀ c ∈ x.head?, test c = false := fun c hc =>
  Bool.eq_false_iff.2 fun hc' => h.head c hc (htest c hc')

end IsBlock

/-- A class that takes what stands outside references only goes no further than a block. -/
theorem PairsBlocks.takes_of_isOutside (hB : PairsBlocks B)
    (htest : ∀ c, test c = true → IsOutside c) : TakesBlocks B test := fun _ _ hx =>
  .inr ⟨(hB.left hx).head_eq_false htest, (hB.right hx).head_eq_false htest⟩

theorem PairsBlocks.takes_of_not_isOutside (hB : PairsBlocks B)
    (htest : ∀ c, ¬ IsOutside c → test c = true) : TakesBlocks B test := fun _ _ hx =>
  .inl ⟨fun c hc => htest c ((hB.left hx).not_isOutside c hc),
    fun c hc => htest c ((hB.right hx).not_isOutside c hc)⟩

theorem takeWhile_of_head (h : ∀ c ∈ x.head?, test c = false) (hx : x ≠ []) (s : Text) :
    (x ++ s).takeWhile test = [] ∧ (x ++ s).dropWhile test = x ++ s := by
  obtain ⟨c, w, rfl⟩ := List.exists_cons_of_ne_nil hx
  have hc := h c rfl
  constructor
  · rw [List.cons_append, List.takeWhile_cons, hc]
    rfl
  · rw [List.cons_append, List.dropWhile_cons, hc]
    rfl

namespace Differ

theorem refl (s : Text) : Differ B s s := by
  induction s with
  | nil => exact .nil
  | cons c s ih => exact .keep c ih

theorem append (hs : Differ B s s') (ht : Differ B t t') : Differ B (s ++ t) (s' ++ t') := by
  induction hs with
  | nil => exact ht
  | keep c h ih => exact .keep c ih
  | block hx h ih =>
      rw [List.append_assoc, List.append_assoc]
      exact .block hx ih

theorem of_block {x' : Text} (hx : B x x') : Differ B x x' := by
  have := Differ.block hx .nil
  rwa [List.append_nil, List.append_nil] at this

theorem braced (h : Differ B t t') : Differ B (Markup.braced t) (Markup.braced t') :=
  .keep '\x7b' (h.append (.refl ['\x7d']))

theorem parenthesised (h : Differ B t t') :
    Differ B (Markup.parenthesised t) (Markup.parenthesised t') := .keep '(' (h.append (.refl [')']))

theorem eq_nil_iff (hB : PairsBlocks B) (h : Differ B s s') : s' = [] ↔ s = [] := by
  cases h with
  | nil => exact Iff.rfl
  | keep c h => simp
  | block hx h => simp [(hB.left hx).ne_nil, (hB.right hx).ne_nil]

theorem isEmpty (hB : PairsBlocks B) (h : Differ B s s') : s'.isEmpty = s.isEmpty := by
  rw [Bool.eq_iff_iff, List.isEmpty_iff, List.isEmpty_iff]
  exact h.eq_nil_iff hB

/-- A character that stands in no reference is in both texts or in neither. -/
theorem mem_iff (hB : PairsBlocks B) (h : Differ B s s') (hc : IsOutside c) : c ∈ s' ↔ c ∈ s := by
  induction h with
  | nil => rfl
  | keep d h ih => rw [List.mem_cons, List.mem_cons, ih]
  | block hx h ih =>
      rw [List.mem_append, List.mem_append, ih, iff_false_intro ((hB.left hx).not_mem hc),
        iff_false_intro ((hB.right hx).not_mem hc)]

theorem contains (hB : PairsBlocks B) (h : Differ B s s') (hc : IsOutside c) :
    s'.contains c = s.contains c := by
  rw [Bool.eq_iff_iff, List.contains_iff_mem, List.contains_iff_mem]
  exact h.mem_iff hB hc

theorem any (hB : PairsBlocks B) (h : Differ B s s') (htest : ∀ c, test c = true → IsOutside c) :
    s'.any test = s.any test := by
  rw [Bool.eq_iff_iff, List.any_eq_true, List.any_eq_true]
  constructor
  · rintro ⟨c, hc, hx⟩
    exact ⟨c, (h.mem_iff hB (htest c hx)).1 hc, hx⟩
  · rintro ⟨c, hc, hx⟩
    exact ⟨c, (h.mem_iff hB (htest c hx)).2 hc, hx⟩

/-! ## Runs -/

/-- A class that takes blocks whole or not at all cuts both texts alike. -/
theorem takeWhile (hB : PairsBlocks B) (htest : TakesBlocks B test) (h : Differ B s s') :
    Differ B (s.takeWhile test) (s'.takeWhile test) ∧
      Differ B (s.dropWhile test) (s'.dropWhile test) := by
  induction h with
  | nil => exact ⟨.nil, .nil⟩
  | keep c h ih =>
      rw [List.takeWhile_cons, List.takeWhile_cons, List.dropWhile_cons, List.dropWhile_cons]
      cases test c with
      | true => exact ⟨.keep c ih.1, ih.2⟩
      | false => exact ⟨.nil, .keep c h⟩
  | @block x x' s s' hx h ih =>
      rcases htest _ _ hx with ⟨hall, hall'⟩ | ⟨hhead, hhead'⟩
      · rw [List.takeWhile_append_of_pos hall, List.takeWhile_append_of_pos hall',
          List.dropWhile_append_of_pos hall, List.dropWhile_append_of_pos hall']
        exact ⟨.block hx ih.1, ih.2⟩
      · obtain ⟨htake, hdrop⟩ := takeWhile_of_head hhead (hB.left hx).ne_nil s
        obtain ⟨htake', hdrop'⟩ := takeWhile_of_head hhead' (hB.right hx).ne_nil s'
        rw [htake, hdrop, htake', hdrop']
        exact ⟨.nil, .block hx h⟩

/-- What a class takes that stands outside references is the same in both texts. -/
theorem takeWhile_eq (hB : PairsBlocks B) (htest : ∀ c, test c = true → IsOutside c)
    (h : Differ B s s') : s'.takeWhile test = s.takeWhile test := by
  induction h with
  | nil => rfl
  | keep c h ih => rw [List.takeWhile_cons, List.takeWhile_cons, ih]
  | @block x x' s s' hx h ih =>
      rw [(takeWhile_of_head ((hB.left hx).head_eq_false htest) (hB.left hx).ne_nil s).1,
        (takeWhile_of_head ((hB.right hx).head_eq_false htest) (hB.right hx).ne_nil s').1]

theorem skipBlanks (hB : PairsBlocks B) (h : Differ B s s') :
    Differ B (skipBlanks s) (skipBlanks s') :=
  (h.takeWhile hB (hB.takes_of_isOutside fun _ => isOutside_of_isBlank)).2

theorem takeWhile_isBlank (hB : PairsBlocks B) (h : Differ B s s') :
    s'.takeWhile isBlank = s.takeWhile isBlank :=
  h.takeWhile_eq hB fun _ => isOutside_of_isBlank

theorem isAllBlank (hB : PairsBlocks B) (h : Differ B s s') : isAllBlank s' = isAllBlank s := by
  have hsolid : ∀ {x}, IsBlock x → ∀ t, Text.isAllBlank (x ++ t) = false := by
    intro x hx t
    obtain ⟨c, w, rfl⟩ := List.exists_cons_of_ne_nil hx.ne_nil
    have hc : isBlank c = false :=
      Bool.eq_false_iff.2 fun hblank => hx.head c rfl (isOutside_of_isBlank hblank)
    show (isBlank c && _) = false
    rw [hc, Bool.false_and]
  induction h with
  | nil => rfl
  | keep c h ih =>
      show (isBlank c && _) = (isBlank c && _)
      exact congrArg _ ih
  | block hx h ih => rw [hsolid (hB.left hx), hsolid (hB.right hx)]

/-- A gap does not end inside a block. -/
theorem squeezeAfter (hB : PairsBlocks B) (h : Differ B s s') (gap : Bool) :
    Differ B (squeezeAfter gap s) (squeezeAfter gap s') := by
  induction h generalizing gap with
  | nil => exact .nil
  | keep c h ih =>
      rw [Text.squeezeAfter, Text.squeezeAfter]
      split
      · exact ih true
      · split
        · exact .keep ' ' (.keep c (ih false))
        · exact .keep c (ih false)
  | @block x x' s s' hx h ih =>
      have hone : ∀ {x}, IsBlock x → ∀ t, Text.squeezeAfter gap (x ++ t) =
          gapSpace gap ++ (x ++ Text.squeezeAfter false t) := by
        intro x hx t
        have hsolid : ∀ c ∈ x, isBlank c = false := fun c hc =>
          Bool.eq_false_iff.2 fun h => hx.not_isOutside c hc (isOutside_of_isBlank h)
        obtain ⟨c, w, rfl⟩ := List.exists_cons_of_ne_nil hx.ne_nil
        rw [List.cons_append, squeezeAfter_cons (hsolid c (by simp)),
          squeezeAfter_append_of_no_blank fun d hd => hsolid d (by simp [hd])]
        rfl
      rw [hone (hB.left hx), hone (hB.right hx)]
      exact (Differ.refl _).append (.block hx (ih false))

theorem squeeze (hB : PairsBlocks B) (h : Differ B s s') : Differ B (squeeze s) (squeeze s') :=
  (h.skipBlanks hB).squeezeAfter hB false

end Differ

/-! ## What a gauge can read -/

namespace Compared

variable {σ : Type} {G : Gauge σ} {rest : σ} {r r' : Text}

theorem of_infix (h : Compared B G s s') (hd : Differ B r r') (hr : r <:+: s) (hr' : r' <:+: s') :
    Compared B G r r' := ⟨hd, h.reads.of_isInfix hr, h.reads'.of_isInfix hr'⟩

theorem of_suffix (h : Compared B G s s') (hd : Differ B r r') (hr : r <:+ s) (hr' : r' <:+ s') :
    Compared B G r r' := h.of_infix hd hr.isInfix hr'.isInfix

theorem skipBlanks (hB : PairsBlocks B) (h : Compared B G s s') :
    Compared B G (Text.skipBlanks s) (Text.skipBlanks s') :=
  h.of_suffix (h.differ.skipBlanks hB) (List.dropWhile_suffix _) (List.dropWhile_suffix _)

/-- A pass that eases the gauge keeps texts compared when it keeps their difference. -/
theorem of_eases (h : Compared B G s s') (hd : Differ B t t') (ht : G.Eases s t)
    (ht' : G.Eases s' t') : Compared B G t t' := ⟨hd, h.reads.of_eases ht, h.reads'.of_eases ht'⟩

end Compared

end CalcTypeset
