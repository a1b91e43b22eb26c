import CalcTypeset.Proofs.Idle
import CalcTypeset.Proofs.Written

/-!
# Writing values into a line

Values are written name by name, each over the whole line as it then is. So a value that was written
could take part in a later reference, and brackets that were no reference could become one when what
stood between them is written anew. Neither happens in a line with valid names: no number and no
truth value is written with a square bracket, and a bracket that opens no reference has a closing
one directly behind it or none at all.

`pieces_replaceAll` says this of one pass over the references. Two passes are then one, in which
each name is looked up once, and the order of the names does not matter. A whole number with too
many digits ends this in an error, whatever the line and wherever the number stands among the
values.
-/

namespace CalcTypeset

open Text Reference

/-! ## Passes over the references -/

namespace Reference

variable {f g : Text → Text} {s t n : Text}

/-- A reference holds a name. -/
theorem ne_nil_of_mem_names (h : n ∈ names s) : n ≠ [] ∧ ']' ∉ n := by
  induction s using Recogniser.scan_induction reference with
  | nil => rw [names_nil] at h; cases h
  | read s m r hs ih =>
      obtain ⟨w, -, -, hm⟩ := Fraction.meets_reference s m r hs
      rw [names, Recogniser.sites_of_read hs] at h
      rcases List.mem_cons.1 h with rfl | h
      · exact hm
      · exact ih h
  | pass c s hs ih =>
      rw [names, Recogniser.sites_of_none hs] at h
      exact ih h

/-- Inside a reference with a valid name no reference begins. -/
theorem read?_literal_inside {lit : Text} (hn : ∀ c ∈ n, Variable.isNameChar c = true) (r : Text) :
    (Recogniser.literal (write lit) (List.cons_ne_nil _ _)).read? (n ++ [']'] ++ r) = none := by
  cases n with
  | nil => exact Recogniser.read?_literal_eq_none (by simp [write]) r
  | cons c n =>
      refine Recogniser.read?_literal_eq_none (fun hc => ?_) _
      obtain rfl : '[' = c := Option.some.inj hc
      exact absurd (hn '[' (by simp)) (by decide)

theorem pieces_write (hn : n ≠ []) (hmem : ']' ∉ n) : reference.pieces (write n) = [.site n] := by
  have hread := reference_read?_write hn hmem []
  rw [List.append_nil] at hread
  rw [reference.pieces_of_read hread, Recogniser.pieces_nil]

/-- A text without an opening bracket is passed character by character. -/
theorem pieces_append_of_not_mem (h : '[' ∉ t) (r : Text) :
    reference.pieces (t ++ r) = reference.pieces t ++ reference.pieces r := by
  induction t with
  | nil => rw [Recogniser.pieces_nil]; rfl
  | cons c t ih =>
      rw [List.mem_cons, not_or] at h
      have hnone : ∀ x, reference.read? (c :: x) = none := fun x =>
        Recogniser.read?_bind_eq_none (Recogniser.read?_single_eq_none (Ne.symm h.1) x) _
      rw [List.cons_append, reference.pieces_of_none (hnone _), reference.pieces_of_none (hnone _),
        ih h.2]
      rfl

/-- What is written for a name is the reference to it, or a text without square brackets. -/
def IsResolution (g : Text → Text) (n : Text) : Prop := g n = write n ∨ IsPlain (g n)

/-- A bracket that opens no reference opens none when the references behind it are written anew. -/
theorem read?_replaceAll_eq_none {c : Char} (h : reference.read? (c :: s) = none) :
    reference.read? (c :: reference.replaceAll g s) = none := by
  by_cases hc : c = '['
  · subst hc
    by_cases hmem : ']' ∈ s
    · -- The brackets are empty, and stay so.
      obtain ⟨n, t, rfl, hn⟩ := List.eq_append_cons_of_mem hmem
      obtain rfl : n = [] := Decidable.byContradiction fun hne => by
        rw [reference_read?_eq, splitAt?_eq_some_iff.2 ⟨rfl, hn⟩] at h
        simp [Option.filter, hne] at h
      have hclose : reference.read? (']' :: t) = none := rfl
      rw [List.nil_append, reference.replaceAll_of_none g hclose]
      rfl
    · have hnone : reference.Meets fun w _ _ => ']' ∈ w :=
        Fraction.meets_reference.mono fun w n _ hw => by rw [hw.1]; simp [write]
      rwa [Recogniser.replaceAll_eq_self_of_not_mem hnone hmem]
  · exact Recogniser.read?_bind_eq_none (Recogniser.read?_single_eq_none hc _) _

/-- The pieces that come of a piece when its name is written anew. -/
def rewritten (g : Text → Text) : Piece Text → List (Piece Text)
  | .plain t => [.plain t]
  | .site n => reference.pieces (g n)

/-- The references of a line whose names were written anew are those of the names one by one. -/
theorem pieces_replaceAll (h : ∀ n ∈ names s, IsResolution g n) :
    reference.pieces (reference.replaceAll g s) = (reference.pieces s).flatMap (rewritten g) := by
  induction s using Recogniser.scan_induction reference with
  | nil => rw [Recogniser.replaceAll_nil, Recogniser.pieces_nil]; rfl
  | read s n r hs ih =>
      obtain ⟨w, -, -, hne, hmem⟩ := Fraction.meets_reference s n r hs
      rw [names, Recogniser.sites_of_read hs] at h
      rw [reference.replaceAll_of_read g hs, reference.pieces_of_read hs, List.flatMap_cons,
        ← ih fun m hm => h m (List.mem_cons_of_mem n hm)]
      rcases h n (by simp) with hn | hn
      · show _ = reference.pieces (g n) ++ _
        rw [hn, reference.pieces_of_read (reference_read?_write hne hmem _), pieces_write hne hmem]
        rfl
      · exact pieces_append_of_not_mem hn.not_mem.1 _
  | pass c s hs ih =>
      rw [names, Recogniser.sites_of_none hs] at h
      rw [reference.replaceAll_of_none g hs, reference.pieces_of_none hs,
        reference.pieces_of_none (read?_replaceAll_eq_none hs), ih h]
      rfl

/-- Two passes are one. -/
theorem replaceAll_replaceAll (h : ∀ n ∈ names s, IsResolution g n) :
    reference.replaceAll f (reference.replaceAll g s) =
      reference.replaceAll (fun n => reference.replaceAll f (g n)) s := by
  rw [Recogniser.replaceAll, pieces_replaceAll h, Recogniser.replaceAll, Piece.writeAll,
    Piece.writeAll, List.flatMap_assoc]
  congr 1
  funext p
  cases p with
  | plain t => simp [rewritten, Piece.write]
  | site n => rfl

theorem names_replaceAll (h : ∀ n ∈ names s, IsResolution g n) :
    names (reference.replaceAll g s) = (names s).flatMap fun n => names (g n) := by
  rw [names, Recogniser.sites, pieces_replaceAll h, names, Recogniser.sites]
  generalize reference.pieces s = ps
  induction ps with
  | nil => rfl
  | cons p ps ih =>
      rw [List.flatMap_cons, Piece.sites, List.filterMap_append]
      cases p with
      | plain t => exact ih
      | site n => exact congrArg (names (g n) ++ ·) ih

theorem reference_replaceAll_write (hn : n ≠ []) (hmem : ']' ∉ n) :
    reference.replaceAll f (write n) = f n := by
  rw [Recogniser.replaceAll, pieces_write hn hmem, Piece.writeAll_site, Piece.writeAll_nil,
    List.append_nil]

theorem replaceAll_of_isPlain (h : IsPlain t) : reference.replaceAll f t = t := by
  have hopen : reference.Meets fun w _ _ => '[' ∈ w :=
    Fraction.meets_reference.mono fun w n _ hw => by rw [hw.1]; simp [write]
  exact Recogniser.replaceAll_eq_self_of_not_mem hopen h.not_mem.1

/-- References that are written as they stand leave the line as it is. -/
theorem replaceAll_eq_self (s : Text) : reference.replaceAll write s = s := by
  induction s using Recogniser.scan_induction reference with
  | nil => rw [Recogniser.replaceAll_nil]
  | read s n r hs ih =>
      obtain ⟨w, rfl, rfl, -⟩ := Fraction.meets_reference s n r hs
      rw [reference.replaceAll_of_read _ hs, ih]
  | pass c s hs ih => rw [reference.replaceAll_of_none _ hs, ih]

theorem hasValidNames_replaceAll (h : ∀ n ∈ names s, IsResolution g n) (hs : HasValidNames s) :
    HasValidNames (reference.replaceAll g s) := by
  intro m hm
  rw [names_replaceAll h] at hm
  obtain ⟨n, hn, hm⟩ := List.mem_flatMap.1 hm
  obtain ⟨hne, hmem⟩ := ne_nil_of_mem_names hn
  rcases h n hn with heq | hplain
  · rw [heq, names, Recogniser.sites, pieces_write hne hmem] at hm
    rw [List.mem_singleton.1 hm]
    exact hs n hn
  · rw [names_of_not_mem hplain.not_mem.2] at hm
    cases hm

theorem replaceAll_congr (h : ∀ n ∈ names s, f n = g n) :
    reference.replaceAll f s = reference.replaceAll g s := by
  induction s using Recogniser.scan_induction reference with
  | nil => rw [Recogniser.replaceAll_nil, Recogniser.replaceAll_nil]
  | read s n r hs ih =>
      rw [names, Recogniser.sites_of_read hs] at h
      rw [reference.replaceAll_of_read f hs, reference.replaceAll_of_read g hs, h n (by simp),
        ih fun m hm => h m (List.mem_cons_of_mem n hm)]
  | pass c s hs ih =>
      rw [names, Recogniser.sites_of_none hs] at h
      rw [reference.replaceAll_of_none f hs, reference.replaceAll_of_none g hs, ih h]

end Reference

/-! ## Names and values -/

namespace Bindings

variable {b b' : Bindings} {s n : Text} {v : Value}

/-- The value of a name. There is none when the name is not bound, or is known to have none. -/
def valueOf? (b : Bindings) (n : Text) : Option Value := (b.lookup n).join

/-- What a reference becomes when every name is looked up. -/
def resolve (b : Bindings) (n : Text) : Text :=
  match b.valueOf? n with
  | some v => v.written
  | none => Reference.write n

/-- Writes all values in one pass over the references of a line. -/
def substituteAtOnce (b : Bindings) : Text → Text := reference.replaceAll b.resolve

/-- Each valid name is bound at most once, to a number, a truth value or nothing. -/
structure IsMapping (b : Bindings) : Prop where
  nodup : (b.map Prod.fst).Nodup
  named : ∀ e ∈ b, e.1 ≠ [] ∧ Variable.isValidName e.1 = true
  noText : ∀ e ∈ b, ∀ t, e.2 ≠ some (.text t)

/-- Every value that a name is bound to has a text. -/
def IsWritable (b : Bindings) : Prop := ∀ e ∈ b, ∀ v ∈ e.2, v.HasText

theorem IsMapping.tail {e : Text × Option Value} (h : IsMapping (e :: b)) : IsMapping b where
  nodup := (List.nodup_cons.1 h.nodup).2
  named x hx := h.named x (List.mem_cons_of_mem e hx)
  noText x hx := h.noText x (List.mem_cons_of_mem e hx)

/-- However names are bound, each is bound once. -/
theorem nodup_bind (n : Text) (v : Option Value) (h : (b.map Prod.fst).Nodup) :
    ((b.bind n v).map Prod.fst).Nodup := by
  have hmem : ∀ b : Bindings, ∀ m ∈ (b.bind n v).map Prod.fst, m = n ∨ m ∈ b.map Prod.fst := by
    intro b
    induction b with
    | nil => simp [bind]
    | cons e b ih =>
        intro m hm
        rw [bind] at hm
        split at hm
        · exact .inr hm
        · rcases List.mem_cons.1 hm with rfl | hm
          · exact .inr (by simp)
          · exact (ih m hm).imp_right (List.mem_cons_of_mem _)
  induction b with
  | nil => simp [bind]
  | cons e b ih =>
      obtain ⟨hnot, htail⟩ := List.nodup_cons.1 h
      rw [bind]
      split
      · exact List.nodup_cons.2 ⟨hnot, htail⟩
      · next hne =>
          refine List.nodup_cons.2 ⟨fun hin => ?_, ih htail⟩
          exact (hmem b _ hin).elim hne hnot

theorem nodup_ofList (l : List (Text × Option Value)) : ((ofList l).map Prod.fst).Nodup :=
  List.foldlRecOn (motive := fun b : Bindings => (b.map Prod.fst).Nodup) l _ List.nodup_nil
    fun _ hb e _ => nodup_bind e.1 e.2 hb

/-- In a mapping the value of a name is the one that it is bound to. -/
theorem valueOf?_eq_some_iff (h : (b.map Prod.fst).Nodup) :
    b.valueOf? n = some v ↔ (n, some v) ∈ b := by
  induction b with
  | nil => simp [valueOf?]
  | cons e b ih =>
      obtain ⟨m, w⟩ := e
      obtain ⟨hnot, htail⟩ := List.nodup_cons.1 h
      by_cases hm : n = m
      · subst hm
        have hnone : (n, some v) ∉ b := fun hmem => hnot (List.mem_map.2 ⟨_, hmem, rfl⟩)
        simp [valueOf?, hnone, eq_comm]
      · have hne : (n == m) = false := beq_false_of_ne hm
        have htail' := ih htail
        simp only [valueOf?] at htail'
        simp [valueOf?, List.lookup_cons, hne, hm, htail']

theorem valueOf?_perm (h : (b.map Prod.fst).Nodup) (hperm : b'.Perm b) (n : Text) :
    b'.valueOf? n = b.valueOf? n := by
  have h' : (b'.map Prod.fst).Nodup := (hperm.map Prod.fst).nodup_iff.2 h
  refine Option.ext fun v => ?_
  rw [valueOf?_eq_some_iff h, valueOf?_eq_some_iff h', hperm.mem_iff]

theorem IsMapping.perm (h : IsMapping b) (hperm : b'.Perm b) : IsMapping b' where
  nodup := (hperm.map Prod.fst).nodup_iff.2 h.nodup
  named e he := h.named e (hperm.mem_iff.1 he)
  noText e he := h.noText e (hperm.mem_iff.1 he)

theorem IsMapping.isPlain_written (h : IsMapping b) (hv : b.valueOf? n = some v) :
    IsPlain v.written := by
  refine Value.isPlain_written fun t ht => ?_
  subst ht
  exact h.noText _ ((valueOf?_eq_some_iff h.nodup).1 hv) t rfl

theorem IsMapping.isResolution (h : IsMapping b) (n : Text) : IsResolution b.resolve n := by
  unfold IsResolution resolve
  split
  · next v hv => exact .inr (h.isPlain_written hv)
  · exact .inl rfl

theorem IsMapping.names_resolve (h : IsMapping b) (hn : n ≠ []) (hmem : ']' ∉ n) :
    names (b.resolve n) = if (b.valueOf? n).isNone then [n] else [] := by
  unfold resolve
  split
  · next v hv => rw [names_of_not_mem (h.isPlain_written hv).not_mem.2, hv]; rfl
  · next hnone =>
      rw [names, Recogniser.sites, pieces_write hn hmem, hnone]
      rfl

/-- The names that are left are those without a value. -/
theorem IsMapping.names_substituteAtOnce (h : IsMapping b) (s : Text) :
    names (b.substituteAtOnce s) = (names s).filter fun n => (b.valueOf? n).isNone := by
  have hnames : ∀ n ∈ names s, n ≠ [] ∧ ']' ∉ n := fun n hn => ne_nil_of_mem_names hn
  rw [substituteAtOnce, names_replaceAll fun n _ => h.isResolution n]
  generalize names s = ns at hnames
  induction ns with
  | nil => rfl
  | cons n ns ih =>
      obtain ⟨hne, hmem⟩ := hnames n (by simp)
      rw [List.flatMap_cons, ih fun m hm => hnames m (List.mem_cons_of_mem n hm),
        h.names_resolve hne hmem, List.filter_cons]
      cases (b.valueOf? n).isNone <;> rfl

/-! ## One name after the other -/

/-- Writing one value is a pass over the references: no other text of a line with valid names looks
like a reference to the name. -/
theorem replaceAll_literal_write (hs : HasValidNames s) (hn : n ≠ [])
    (hname : Variable.isValidName n = true) (t : Text) :
    (Recogniser.literal (Reference.write n) (List.cons_ne_nil _ _)).replaceAll (fun _ => t) s =
      reference.replaceAll (fun m => if m = n then t else Reference.write m) s := by
  have hclose : ∀ {n}, Variable.isValidName n = true → ']' ∉ n := fun h hmem =>
    absurd (isNameChar_of_isValidName h _ hmem) (by decide)
  induction s using Recogniser.scan_induction reference with
  | nil => rw [Recogniser.replaceAll_nil, Recogniser.replaceAll_nil]
  | read s m r hread ih =>
      obtain ⟨w, rfl, rfl, -, hm⟩ := Fraction.meets_reference s m r hread
      rw [HasValidNames, names, Recogniser.sites_of_read hread] at hs
      have hvalid := hs m (by simp)
      rw [reference.replaceAll_of_read _ hread, ← ih fun x hx => hs x (List.mem_cons_of_mem m hx)]
      split
      · next heq =>
          subst heq
          exact Recogniser.replaceAll_of_read _ _
            (Recogniser.read?_literal_eq_some_iff (u := ()).2 rfl)
      · next hne =>
          refine Recogniser.replaceAll_append_of_none fun t ht hsuffix => ?_
          rcases List.suffix_cons_iff.1 hsuffix with rfl | hsuffix
          · -- A reference is read to one name only.
            refine Option.eq_none_iff_forall_ne_some.2 fun x hx => hne ?_
            have hother := reference_read?_write hn (hclose hname) x.2
            rw [← Recogniser.read?_literal_eq_some_iff.1 hx] at hother
            exact (Prod.mk.inj (Option.some.inj (hread.symm.trans hother))).1
          · obtain ⟨y, ⟨x, hy⟩, rfl⟩ := suffix_name ht hsuffix
            refine read?_literal_inside (fun c hc => isNameChar_of_isValidName hvalid c ?_) r
            rw [← hy]
            exact List.mem_append_right x hc
  | pass c s hnone ih =>
      rw [HasValidNames, names, Recogniser.sites_of_none hnone] at hs
      have hliteral : (Recogniser.literal (Reference.write n) (List.cons_ne_nil _ _)).read?
          (c :: s) = none := Option.eq_none_iff_forall_ne_some.2 fun x hx => by
        rw [Recogniser.read?_literal_eq_some_iff.1 hx,
          reference_read?_write hn (hclose hname)] at hnone
        cases hnone
      rw [reference.replaceAll_of_none _ hnone, Recogniser.replaceAll_of_none _ _ hliteral, ih hs]

/-- A name that is bound to nothing is written as it would be if it were not bound. -/
theorem resolve_cons_none (h : n ∉ b.map Prod.fst) (m : Text) :
    resolve ((n, none) :: b) m = b.resolve m := by
  have hvalue : valueOf? ((n, none) :: b) m = b.valueOf? m := by
    by_cases hm : m = n
    · subst hm
      have hnone : b.lookup m = none := List.lookup_eq_none_iff.2 fun e he =>
        bne_iff_ne.2 fun heq => h (heq ▸ List.mem_map_of_mem he)
      simp [valueOf?, hnone]
    · simp [valueOf?, List.lookup_cons, beq_false_of_ne hm]
  rw [resolve, resolve, hvalue]

theorem resolve_cons_some (v : Value) (m : Text) :
    resolve ((n, some v) :: b) m = if m = n then v.written else b.resolve m := by
  by_cases hm : m = n
  · simp [resolve, valueOf?, hm]
  · simp [resolve, valueOf?, List.lookup_cons, beq_false_of_ne hm, hm]

theorem substitute_cons_none (b : Bindings) (n s : Text) :
    substitute ((n, none) :: b) s = b.substitute s := rfl

theorem substitute_cons_some (h : v.HasText) (b : Bindings) (n s : Text) :
    substitute ((n, some v) :: b) s = b.substitute ((Recogniser.literal (Reference.write n)
      (List.cons_ne_nil _ _)).replaceAll (fun _ => v.written) s) := by
  show (substituteOne n v s >>= fun s => b.substitute s) = _
  rw [substituteOne, Value.write_eq_ok h]
  rfl

theorem substitute_cons_error (h : ¬ v.HasText) (b : Bindings) (n s : Text) :
    substitute ((n, some v) :: b) s = .error ⟨Decimal.digitLimit⟩ := by
  show (substituteOne n v s >>= fun s => b.substitute s) = _
  rw [substituteOne, Value.write_eq_error h]
  rfl

theorem isWritable_cons {e : Text × Option Value} :
    IsWritable (e :: b) ↔ (∀ v ∈ e.2, v.HasText) ∧ b.IsWritable := List.forall_mem_cons

/-- A value without a text is an error, whatever the line is. -/
theorem substitute_eq_error (h : ¬ b.IsWritable) (s : Text) :
    b.substitute s = .error ⟨Decimal.digitLimit⟩ := by
  induction b generalizing s with
  | nil => exact absurd (fun e he => nomatch he) h
  | cons e b ih =>
      obtain ⟨n, v⟩ := e
      rw [isWritable_cons, not_and] at h
      cases v with
      | none => rw [substitute_cons_none, ih (h (fun v hv => nomatch hv))]
      | some v =>
          by_cases htext : v.HasText
          · rw [substitute_cons_some htext, ih (h (by simpa using htext))]
          · exact substitute_cons_error htext b n s

/-- Writing the values one after the other is writing them at once. -/
theorem IsMapping.substitute_eq (h : IsMapping b) (hwritable : b.IsWritable)
    (hs : HasValidNames s) : b.substitute s = .ok (b.substituteAtOnce s) := by
  induction b generalizing s with
  | nil => exact congrArg Except.ok (replaceAll_eq_self s).symm
  | cons e b ih =>
      obtain ⟨n, v⟩ := e
      obtain ⟨hn, hname⟩ := h.named (n, v) (by simp)
      obtain ⟨hvalue, hrest⟩ := isWritable_cons.1 hwritable
      cases v with
      | none =>
          have hnot := (List.nodup_cons.1 h.nodup).1
          rw [substitute_cons_none, ih h.tail hrest hs]
          exact congrArg Except.ok (replaceAll_congr fun m _ => (resolve_cons_none hnot m).symm)
      | some v =>
          have hplain : IsPlain v.written :=
            Value.isPlain_written fun t ht => h.noText (n, some v) (by simp) t (by rw [ht])
          have hresolution : ∀ m ∈ names s,
              IsResolution (fun m => if m = n then v.written else Reference.write m) m := by
            intro m _
            by_cases hm : m = n
            · exact .inr (by simpa [hm] using hplain)
            · exact .inl (by simp [hm])
          rw [substitute_cons_some (hvalue v rfl), replaceAll_literal_write hs hn hname,
            ih h.tail hrest (hasValidNames_replaceAll hresolution hs), substituteAtOnce,
            replaceAll_replaceAll hresolution]
          refine congrArg Except.ok (replaceAll_congr fun m hmem => ?_)
          obtain ⟨hne, hclose⟩ := ne_nil_of_mem_names hmem
          rw [resolve_cons_some]
          split
          · exact replaceAll_of_isPlain hplain
          · exact reference_replaceAll_write hne hclose

theorem IsMapping.substituteAtOnce_perm (h : IsMapping b) (hperm : b'.Perm b) (s : Text) :
    b'.substituteAtOnce s = b.substituteAtOnce s := by
  refine replaceAll_congr fun n _ => ?_
  rw [resolve, resolve, valueOf?_perm h.nodup hperm]

theorem isWritable_perm (hperm : b'.Perm b) : b'.IsWritable ↔ b.IsWritable :=
  forall_congr' fun _ => imp_congr_left hperm.mem_iff

/-- Values that have a text are written at once, whatever the order of the names, and only
references without a value are left. Where a value has no text, the line has none either. -/
theorem substitute_simultaneous (hs : ∀ n ∈ names s, Variable.isValidName n = true)
    (hb : b.IsMapping) :
    (b.IsWritable → b.substitute s = .ok (b.substituteAtOnce s)) ∧
      (¬ b.IsWritable → b.substitute s = .error ⟨Decimal.digitLimit⟩) ∧
      (∀ b' : Bindings, b'.Perm b → b'.substitute s = b.substitute s) ∧
      names (b.substituteAtOnce s) = (names s).filter fun n => (b.valueOf? n).isNone := by
  refine ⟨fun h => hb.substitute_eq h hs, fun h => substitute_eq_error h s, fun b' hperm => ?_,
    hb.names_substituteAtOnce s⟩
  by_cases h : b.IsWritable
  · have h' : b'.IsWritable := (isWritable_perm hperm).2 h
    rw [hb.substitute_eq h hs, (hb.perm hperm).substitute_eq h' hs, hb.substituteAtOnce_perm hperm]
  · have h' : ¬ b'.IsWritable := mt (isWritable_perm hperm).1 h
    rw [substitute_eq_error h, substitute_eq_error h']

/-- Empty and unclosed brackets stand beside references that are written; a name that is bound to
nothing and one that is not bound stay. -/
theorem substitute_simultaneous_stray_brackets :
    (∀ n ∈ names "[][a]/[b_1]*[c]+[d]^[a][".toList, Variable.isValidName n = true) ∧
      IsMapping [("b_1".toList, some (.bool true)), ("c".toList, none),
        ("a".toList, some (.int (-12)))] ∧
      substitute [("b_1".toList, some (.bool true)), ("c".toList, none),
        ("a".toList, some (.int (-12)))] "[][a]/[b_1]*[c]+[d]^[a][".toList =
          .ok "[]-12/True*[c]+[d]^-12[".toList ∧
      names "[]-12/True*[c]+[d]^-12[".toList = ["c".toList, "d".toList] := by
  have hs : ∀ n ∈ names "[][a]/[b_1]*[c]+[d]^[a][".toList, Variable.isValidName n = true := by
    decide +kernel
  have hb : IsMapping [("b_1".toList, some (.bool true)), ("c".toList, none),
      ("a".toList, some (.int (-12)))] := by
    refine ⟨by decide, by decide, ?_⟩
    simp
  have hwritable : IsWritable [("b_1".toList, some (.bool true)), ("c".toList, none),
      ("a".toList, some (.int (-12)))] := by
    have hint : (-12 : Int).natAbs < 10 ^ Decimal.digitLimit := by decide +kernel
    simpa [IsWritable, Value.HasText] using hint
  obtain ⟨hok, -, -, hnames⟩ := substitute_simultaneous hs hb
  have hline : substituteAtOnce [("b_1".toList, some (.bool true)), ("c".toList, none),
      ("a".toList, some (.int (-12)))] "[][a]/[b_1]*[c]+[d]^[a][".toList =
        "[]-12/True*[c]+[d]^-12[".toList := by decide +kernel
  rw [hline] at hok hnames
  exact ⟨hs, hb, hok hwritable, hnames.trans (by decide +kernel)⟩

/-- A number with one digit more than the limit is an error, although no reference to it stands in
the line. -/
theorem not_substitute_simultaneous :
    (∀ n ∈ names "1+2".toList, Variable.isValidName n = true) ∧
      IsMapping [("a".toList, some (.int (10 ^ Decimal.digitLimit)))] ∧
      substitute [("a".toList, some (.int (10 ^ Decimal.digitLimit)))] "1+2".toList =
        .error ⟨Decimal.digitLimit⟩ ∧
      substituteAtOnce [("a".toList, some (.int (10 ^ Decimal.digitLimit)))] "1+2".toList =
        "1+2".toList := by
  have hlong : ¬ Value.HasText (.int (10 ^ Decimal.digitLimit)) := Value.not_hasText_pow le_rfl
  have hnames : names "1+2".toList = [] := by decide +kernel
  refine ⟨fun n hn => ?_, ⟨by simp, by simp; decide, by simp⟩,
    substitute_cons_error hlong [] "a".toList _, ?_⟩
  · rw [hnames] at hn
    cases hn
  · exact replaceAll_of_isPlain (by decide)

end Bindings

end CalcTypeset
