import CalcTypeset.Proofs.Namespace.Reading

/-!
# Start tags

The first `math` start tag of a text is the one that an engine's result is judged by. It is found by
its beginning, and ends at the next `>`; no tag begins in front of it (`startTag?_eq_some_iff`).

The namespaces of a text are tidy when those in front of the tag stand in tags of their own, and
each one in the tag is set off from what follows it. Of a namespace in front nothing is taken then,
since no other follows it in its tag.
-/

namespace CalcTypeset.MathML

open Text

/-! ## Start tags -/

/-- A `math` start tag in a text: what stands in front of it, its attributes, and what stands behind
its `>`. -/
structure StartTag where
  before : Text
  attributes : Text
  behind : Text
deriving DecidableEq, Repr

/-- The text with the tag in it. -/
def StartTag.write (tag : StartTag) : Text :=
  tag.before ++ (tagOpen ++ (tag.attributes ++ '>' :: tag.behind))

/-- The first `math` start tag of a text, up to the next `>`. -/
def startTag? : Text → Option StartTag
  | [] => none
  | c :: s =>
      match after? tagOpen (c :: s) with
      | some r => (splitAt? '>' r).map fun (attributes, behind) => ⟨[], attributes, behind⟩
      | none => (startTag? s).map fun tag => { tag with before := c :: tag.before }

/-- The first `math` start tag names one namespace. -/
def HasOneNamespace (m : Text) : Prop :=
  (startTag? m).map (fun tag => (namespaces tag.attributes).length) = some 1

instance (m : Text) : Decidable (HasOneNamespace m) := inferInstanceAs (Decidable (_ = _))

/-- Whether what follows the opening quotation mark passes the test, for each namespace. -/
def eachNamespace (test : Text → Bool) : Text → Bool
  | [] => true
  | c :: s => (!isBlank c || (after? attributeOpen s).all test) && eachNamespace test s

/-- The value ends, and a blank or the end of the tag follows. -/
def isSetOff (b : Text) : Bool :=
  match splitAt? '"' b with
  | none => false
  | some (_, r) => r.head?.all fun x => isBlank x || x = '/'

/-- The value ends, and so does its tag without a further namespace. -/
def isLastInTag (b : Text) : Bool :=
  match splitAt? '"' b with
  | none => false
  | some (_, r) => r.contains '>' && !hasFurtherNamespace r

/-- Namespaces in front of the tag have tags of their own, and those in it are set off. -/
structure StartTag.IsTidy (tag : StartTag) : Prop where
  before : eachNamespace isLastInTag tag.before = true
  attributes : eachNamespace isSetOff tag.attributes = true

variable {s t u v w r a b display m : Text} {c : Char} {tag : StartTag} {test : Text → Bool}

theorem tagOpen_ne_nil : tagOpen ≠ [] := by decide

theorem addNamespace_eq : addNamespace =
    (Recogniser.literal tagOpen tagOpen_ne_nil).replaceFirst fun _ =>
      tagOpen ++ namespaceAttribute := rfl

theorem namespaceAttribute_eq :
    namespaceAttribute = ' ' :: (attributeOpen ++ (namespaceName ++ ['"'])) := by
  decide +kernel

theorem not_mem_attributeOpen : '<' ∉ attributeOpen ∧ '>' ∉ attributeOpen := by decide

/-- No tag begins in front of another one and ends in it. -/
theorem after?_tagOpen_append (hne : s ≠ []) (u : Text) :
    after? tagOpen (s ++ (tagOpen ++ u)) = (after? tagOpen s).map (· ++ (tagOpen ++ u)) := by
  obtain ⟨c, s, rfl⟩ := List.exists_cons_of_ne_nil hne
  have hmath : ∀ x ∈ (tagOpen ++ u).head?, x ∉ "math".toList := fun x hx => by
    obtain rfl := Option.some.inj hx
    decide
  have htail := Recogniser.after?_append_of_not_mem hmath s
  rw [List.cons_append]
  show after? ('<' :: "math".toList) _ = (after? ('<' :: "math".toList) _).map _
  rw [after?, after?]
  split
  · exact htail
  · rfl

theorem occurs_cons_eq_false : occurs v (c :: s) = false ↔
    after? v (c :: s) = none ∧ occurs v s = false := by
  rw [occurs, Bool.or_eq_false_iff, startsWith, Option.isSome_eq_false_iff,
    Option.isNone_iff_eq_none]

theorem startTag?_of_after? (h : after? tagOpen (c :: s) = some r) : startTag? (c :: s) =
    (splitAt? '>' r).map fun (attributes, behind) => ⟨[], attributes, behind⟩ := by
  rw [startTag?, h]

theorem startTag?_of_none (h : after? tagOpen (c :: s) = none) : startTag? (c :: s) =
    (startTag? s).map fun tag => { tag with before := c :: tag.before } := by
  rw [startTag?, h]

theorem startTag?_write (hbefore : occurs tagOpen b = false) (hend : '>' ∉ a) (r : Text) :
    startTag? (StartTag.write ⟨b, a, r⟩) = some ⟨b, a, r⟩ := by
  induction b with
  | nil =>
      have hfirst : after? tagOpen (StartTag.write ⟨[], a, r⟩) = some (a ++ '>' :: r) :=
        after?_append tagOpen _
      have hsplit : splitAt? '>' (a ++ '>' :: r) = some (a, r) :=
        splitAt?_eq_some_iff.2 ⟨rfl, hend⟩
      exact (startTag?_of_after? hfirst).trans (by rw [hsplit]; rfl)
  | cons c b ih =>
      obtain ⟨hc, hb⟩ := occurs_cons_eq_false.1 hbefore
      have hnone : after? tagOpen (StartTag.write ⟨c :: b, a, r⟩) = none := by
        rw [StartTag.write, after?_tagOpen_append (List.cons_ne_nil c b), hc]
        rfl
      exact (startTag?_of_none hnone).trans (congrArg (Option.map _) (ih hb))

theorem write_of_startTag? (h : startTag? m = some tag) :
    m = tag.write ∧ occurs tagOpen tag.before = false ∧ '>' ∉ tag.attributes := by
  induction m generalizing tag with
  | nil => cases h
  | cons c m ih =>
      cases hc : after? tagOpen (c :: m) with
      | some r =>
          rw [startTag?_of_after? hc, Option.map_eq_some_iff] at h
          obtain ⟨⟨a, b⟩, hsplit, rfl⟩ := h
          obtain ⟨rfl, hend⟩ := splitAt?_eq_some_iff.1 hsplit
          have hwrite := after?_eq_some_iff.1 hc
          exact ⟨hwrite, rfl, hend⟩
      | none =>
          rw [startTag?_of_none hc, Option.map_eq_some_iff] at h
          obtain ⟨tag, htag, rfl⟩ := h
          obtain ⟨rfl, hbefore, hend⟩ := ih htag
          -- A tag that began here would begin in front of the one that was found.
          have hnone := after?_tagOpen_append (List.cons_ne_nil c tag.before)
            (tag.attributes ++ '>' :: tag.behind)
          rw [List.cons_append, ← StartTag.write, hc] at hnone
          exact ⟨rfl, occurs_cons_eq_false.2 ⟨Option.map_eq_none_iff.1 hnone.symm, hbefore⟩, hend⟩

theorem startTag?_eq_some_iff : startTag? m = some tag ↔
    m = tag.write ∧ occurs tagOpen tag.before = false ∧ '>' ∉ tag.attributes := by
  refine ⟨write_of_startTag?, ?_⟩
  rintro ⟨rfl, hbefore, hend⟩
  exact startTag?_write hbefore hend tag.behind

theorem hasOneNamespace_write (hbefore : occurs tagOpen b = false) (hend : '>' ∉ a) (r : Text) :
    HasOneNamespace (StartTag.write ⟨b, a, r⟩) ↔ (namespaces a).length = 1 := by
  rw [HasOneNamespace, startTag?_write hbefore hend, Option.map_some, Option.some.injEq]

theorem occurs_tagOpen_write (tag : StartTag) : occurs tagOpen tag.write = true :=
  occurs_iff.2 ⟨tag.before, tag.attributes ++ '>' :: tag.behind, by simp [StartTag.write]⟩

/-! ## Tidy tags -/

theorem test_of_suffix (h : eachNamespace test s = true) (hc : isBlank c = true)
    (hs : c :: (attributeOpen ++ r) <:+ s) : test r = true := by
  induction s with
  | nil => cases List.suffix_nil.1 hs
  | cons d s ih =>
      rw [eachNamespace, Bool.and_eq_true] at h
      rcases List.suffix_cons_iff.1 hs with heq | hs
      · obtain ⟨rfl, rfl⟩ := List.cons.inj heq
        simpa [hc, after?_append] using h.1
      · exact ih h.2 hs

/-- What is read with all the blanks in front of it passes the test too. -/
theorem test_of_blanks (h : eachNamespace test s = true) (hne : b ≠ [])
    (hb : ∀ c ∈ b, isBlank c = true) (hs : b ++ (attributeOpen ++ r) <:+ s) : test r = true := by
  obtain ⟨b, c, rfl⟩ := (List.eq_nil_or_concat b).resolve_left hne
  have hc : c :: (attributeOpen ++ r) <:+ b.concat c ++ (attributeOpen ++ r) := ⟨b, by simp⟩
  exact test_of_suffix h (hb c (by simp)) (hc.trans hs)

theorem exists_of_isLastInTag (h : isLastInTag b = true) :
    ∃ v a r, b = v ++ '"' :: (a ++ '>' :: r) ∧ '"' ∉ v ∧ '>' ∉ a ∧ ¬ NamesNamespace a := by
  rw [isLastInTag] at h
  split at h
  · cases h
  · next v q hq =>
      obtain ⟨rfl, hv⟩ := splitAt?_eq_some_iff.1 hq
      rw [Bool.and_eq_true, List.contains_iff_mem] at h
      obtain ⟨a, r, rfl, ha⟩ := List.eq_append_cons_of_mem h.1
      refine ⟨v, a, r, rfl, hv, ha, fun hnames => ?_⟩
      simp [(hasFurtherNamespace_append ha r).2 hnames] at h

theorem exists_of_isSetOff (h : isSetOff b = true) :
    ∃ v r, b = v ++ '"' :: r ∧ '"' ∉ v ∧ ∀ c ∈ r.head?, isBlank c = true ∨ c = '/' := by
  rw [isSetOff] at h
  split at h
  · cases h
  · next v r hr =>
      obtain ⟨rfl, hv⟩ := splitAt?_eq_some_iff.1 hr
      refine ⟨v, r, rfl, hv, fun c hc => ?_⟩
      rw [Option.mem_def.1 hc] at h
      simpa using h

/-- The two parts around the first of a character are determined. -/
theorem append_cons_inj {x : Char} (h : a ++ x :: r = b ++ x :: s) (ha : x ∉ a) (hb : x ∉ b) :
    a = b ∧ r = s := by
  have hsplit := splitAt?_eq_some_iff.2 ⟨h, hb⟩
  rw [splitAt?_eq_some_iff.2 ⟨rfl, ha⟩] at hsplit
  exact Prod.mk.inj (Option.some.inj hsplit)

/-- A namespace in front of the tag is the last one in a tag of its own, so nothing is taken. -/
theorem readsNone_before (h : eachNamespace isLastInTag s = true) (u : Text) :
    repeatedNamespace.ReadsNone s ('<' :: u) := by
  intro t hne ht
  refine Option.eq_none_iff_forall_ne_some.2 fun x hx => ?_
  obtain ⟨hread, hfurther⟩ := repeatedNamespace_read?_eq_some_iff.1 hx
  obtain ⟨b, hbne, hb, hv, heq⟩ := namespaceValue_read?_eq_some_iff.1 hread
  -- The opening is passed before the tag is met.
  have hpass : (b ++ attributeOpen) ++ (x.1 ++ '"' :: x.2) = t ++ '<' :: u := by simp [heq]
  obtain ⟨k, rfl, hk⟩ := exists_append_of_not_mem hpass fun hmem => by
    rcases List.mem_append.1 hmem with hmem | hmem
    · exact absurd (hb _ hmem) (by decide)
    · exact not_mem_attributeOpen.1 hmem
  rw [List.append_assoc] at ht
  obtain ⟨v, a, r, rfl, hv', ha, hnames⟩ := exists_of_isLastInTag (test_of_blanks h hbne hb ht)
  have hrest : x.1 ++ '"' :: x.2 = v ++ '"' :: (a ++ '>' :: (r ++ '<' :: u)) := by simp [hk]
  rw [(append_cons_inj hrest hv hv').2, hasFurtherNamespace_append ha] at hfurther
  exact hnames hfurther

theorem readsNone_before_tag (h : tag.IsTidy) (u : Text) :
    repeatedNamespace.ReadsNone (tag.before ++ tagOpen) u := by
  refine (readsNone_before h.before ("math".toList ++ u)).append ?_
  exact readsNone_repeatedNamespace (readsNone_of_forall_not_isBlank (by decide))

end CalcTypeset.MathML
