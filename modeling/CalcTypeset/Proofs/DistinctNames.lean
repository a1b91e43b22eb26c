import CalcTypeset.Variable
import Mathlib.Data.List.Perm.Basic

/-!
# Names stay distinct

A sheet of slots is in order when no two slots have the same name, slots without a name apart.
Giving a slot a name keeps the sheet in order just when the name is not taken, whether the slot
keeps its name, changes it or gives it up: the name is compared with those of the other slots only,
and which slots are the others is told by the numbers.

Numbers that are pairwise distinct split the sheet at the slot that is named, so the names behind
the change are those of the others with the new one among them.
-/

namespace CalcTypeset.Variable

/-- The sheet with the name of the slot `number` set. -/
def setName (number : Int) (name : Text) (slots : List Slot) : List Slot :=
  slots.map fun slot => if slot.number = number then { slot with name } else slot

/-- The names that the slots have, in their order. -/
def names (slots : List Slot) : List Text := (slots.map Slot.name).filter fun name => name ≠ []

/-- No two slots have the same name. -/
def HasDistinctNames (slots : List Slot) : Prop := (names slots).Nodup

instance (slots : List Slot) : Decidable (HasDistinctNames slots) :=
  inferInstanceAs (Decidable (List.Nodup _))

variable {name : Text} {number : Int} {slot : Slot} {slots slots' before behind : List Slot}

theorem mem_names_iff : name ∈ names slots ↔ name ≠ [] ∧ ∃ slot ∈ slots, slot.name = name := by
  simp [names, and_comm]

theorem HasDistinctNames.of_perm (h : HasDistinctNames slots) (hperm : slots.Perm slots') :
    HasDistinctNames slots' :=
  ((hperm.map Slot.name).filter _).nodup h

/-- The name of one slot beside the names of the others. -/
theorem hasDistinctNames_cons_iff : HasDistinctNames (slot :: slots) ↔
    HasDistinctNames slots ∧ slot.name ∉ names slots := by
  rcases eq_or_ne slot.name [] with hname | hname
  · simp [HasDistinctNames, names, hname]
  · simp [HasDistinctNames, names, hname, and_comm]

theorem hasDistinctNames_append_cons_iff : HasDistinctNames (before ++ slot :: behind) ↔
    HasDistinctNames (before ++ behind) ∧ slot.name ∉ names (before ++ behind) := by
  rw [← hasDistinctNames_cons_iff]
  exact ⟨fun h => h.of_perm List.perm_middle, fun h => h.of_perm List.perm_middle.symm⟩

/-- The slot `number` stands between others. -/
structure Splits (number : Int) (slots before : List Slot) (slot : Slot) (behind : List Slot) :
    Prop where
  eq : slots = before ++ slot :: behind
  number_eq : slot.number = number
  others : ∀ other ∈ before ++ behind, other.number ≠ number

/-- Distinct numbers split the sheet at each of its slots. -/
theorem exists_splits (hnumbers : (slots.map Slot.number).Nodup)
    (hnumber : number ∈ slots.map Slot.number) :
    ∃ before slot behind, Splits number slots before slot behind := by
  obtain ⟨slot, hslot, rfl⟩ := List.mem_map.1 hnumber
  obtain ⟨before, behind, rfl⟩ := List.append_of_mem hslot
  have hperm : (before ++ slot :: behind).Perm (slot :: (before ++ behind)) := List.perm_middle
  have hnot := (List.nodup_cons.1 ((hperm.map Slot.number).nodup hnumbers)).1
  exact ⟨before, slot, behind, rfl, rfl, fun other hother heq =>
    hnot (List.mem_map.2 ⟨other, hother, heq⟩)⟩

theorem Splits.setName_eq (h : Splits number slots before slot behind) (name : Text) :
    setName number name slots = before ++ { slot with name } :: behind := by
  have hkeep : ∀ l : List Slot, (∀ other ∈ l, other ∈ before ++ behind) →
      setName number name l = l := fun l hl => by
    rw [setName, List.map_congr_left fun other hother =>
      if_neg (h.others other (hl other hother)), List.map_id']
  have hbefore := hkeep before fun other hother => List.mem_append_left _ hother
  have hbehind := hkeep behind fun other hother => List.mem_append_right _ hother
  rw [h.eq, setName, List.map_append, List.map_cons, if_pos h.number_eq]
  exact congrArg₂ (fun x y => x ++ _ :: y) hbefore hbehind

/-- A name is free for a slot when no other slot has it. -/
theorem Splits.isTaken_eq_false_iff (h : Splits number slots before slot behind) :
    isTaken name number slots = false ↔ name ∉ names (before ++ behind) := by
  rw [← Bool.not_eq_true, isTaken_iff, mem_names_iff, h.eq]
  refine not_congr (and_congr_right fun _ => ⟨?_, ?_⟩)
  · rintro ⟨other, hother, hne, hname⟩
    have hmem : other = slot ∨ other ∈ before ++ behind :=
      List.mem_cons.1 (List.perm_middle.subset hother)
    exact ⟨other, hmem.resolve_left fun heq => hne (heq ▸ h.number_eq), hname⟩
  · rintro ⟨other, hother, hname⟩
    exact ⟨other, List.perm_middle.symm.subset (.tail _ hother), h.others other hother, hname⟩

theorem isTaken_perm (hperm : slots'.Perm slots) (name : Text) (number : Int) :
    isTaken name number slots' = isTaken name number slots := by
  rw [Bool.eq_iff_iff, isTaken_iff, isTaken_iff]
  simp only [hperm.mem_iff]

/-- In a sheet in order, a slot may have a name just when it is not taken, and the answer is the
same for every order of the slots. -/
theorem hasDistinctNames_setName_iff (hnumbers : (slots.map Slot.number).Nodup)
    (hnames : HasDistinctNames slots) (hnumber : number ∈ slots.map Slot.number) (name : Text) :
    (HasDistinctNames (setName number name slots) ↔ isTaken name number slots = false) ∧
      ∀ slots', slots'.Perm slots → isTaken name number slots' = isTaken name number slots := by
  refine ⟨?_, fun slots' hperm => isTaken_perm hperm name number⟩
  obtain ⟨before, slot, behind, h⟩ := exists_splits hnumbers hnumber
  rw [h.eq, hasDistinctNames_append_cons_iff] at hnames
  rw [h.setName_eq, hasDistinctNames_append_cons_iff, h.isTaken_eq_false_iff]
  exact and_iff_right hnames.1

/-- A sheet with two named slots and two without a name. -/
def sheet : List Slot :=
  [⟨1, "rate".toList⟩, ⟨2, []⟩, ⟨3, "years".toList⟩, ⟨4, []⟩]

/-- The name of another slot is refused, in whatever order the slots stand. -/
theorem hasDistinctNames_setName_iff_other : (sheet.map Slot.number).Nodup ∧
    HasDistinctNames sheet ∧ (2 : Int) ∈ sheet.map Slot.number ∧
    ¬ HasDistinctNames (setName 2 "years".toList sheet) ∧
    isTaken "years".toList 2 sheet.reverse = true := by
  have hnumbers : (sheet.map Slot.number).Nodup := by decide
  have hnames : HasDistinctNames sheet := by decide
  have hnumber : (2 : Int) ∈ sheet.map Slot.number := by decide
  have htaken : isTaken "years".toList 2 sheet = true := by decide
  obtain ⟨hiff, hperm⟩ := hasDistinctNames_setName_iff hnumbers hnames hnumber "years".toList
  refine ⟨hnumbers, hnames, hnumber, fun h => ?_, ?_⟩
  · rw [hiff.1 h] at htaken
    cases htaken
  · rw [hperm _ (List.reverse_perm sheet), htaken]

end CalcTypeset.Variable
