import CalcTypeset.Proofs.Namespace.Tag
import Mathlib.Data.List.Count

/-!
# One namespace in the tag

What an engine returns may have a `math` start tag with any number of namespaces, among attributes
and texts of any kind. The first such tag of the result names one namespace just when the engine
named none at all and nothing in the tag looks like a namespace, or named two in the tag, or one
that no other follows. With three or more all but the first are left, and a namespace that stands
elsewhere keeps the tag without one.

The rewriting is one replacement, made at the first place that reads as a repeated namespace. It is
followed here through three stretches: in front of the tag it finds nothing when each namespace
there stands in a tag of its own that ends; in the tag it drops the first of several namespaces, and
since a namespace is set off from what follows, no new one arises where the two ends meet; and what
stands behind the tag has no part in what is found in it.
-/

namespace CalcTypeset.MathML

open Text

variable {s t u v r a b display m : Text} {tag : StartTag}

/-! ## In the tag -/

/-- Where each namespace is set off, a replacement in the tag stays there. -/
theorem replaceFirst_append_behind (hend : '>' ∉ s) (hs : eachNamespace isSetOff s = true)
    (u : Text) : ∃ r, repeatedNamespace.replaceFirst (fun _ => []) (s ++ '>' :: u) =
      repeatedNamespace.replaceFirst (fun _ => []) s ++ '>' :: r := by
  have hblank : ∀ c ∈ ('>' :: u).head?, isBlank c = false := by
    intro c hc
    obtain rfl := Option.some.inj hc
    decide
  have hopen : ∀ c ∈ ('>' :: u).head?, c ∉ attributeOpen := by
    intro c hc
    obtain rfl := Option.some.inj hc
    exact not_mem_attributeOpen.2
  have hlocal : ∀ t, t <:+ s → repeatedNamespace.LocalAt ('>' :: u) t := by
    intro t ht
    refine Recogniser.LocalAt.followedBy ?_ ?_
    · refine (Recogniser.localAt_run hblank t).bind fun b r₁ hb => ?_
      refine (Recogniser.localAt_literal hopen r₁).bind fun _ r hr => Recogniser.localAt_upTo ?_
      have hread : t = b ++ (attributeOpen ++ r) := by
        rw [run?_eq_append hb, Recogniser.read?_literal_eq_some_iff.1 hr]
      obtain ⟨v, q, rfl, -, -⟩ := exists_of_isSetOff
        (test_of_blanks hs (run?_ne_nil hb) (run?_all hb) (hread ▸ ht))
      simp
    · intro v r hr
      obtain ⟨b, -, -, -, rfl⟩ := namespaceValue_read?_eq_some_iff.1 hr
      have hend' : '>' ∉ r := fun hmem => hend (ht.subset (by simp [hmem]))
      rw [Bool.eq_iff_iff, hasFurtherNamespace_append hend', hasFurtherNamespace_iff hend']
  have hnone : repeatedNamespace.read? ('>' :: u) = none := rfl
  rcases Recogniser.replaceFirst_append hlocal with h | h
  · exact ⟨u, h⟩
  · exact ⟨_, h.trans (congrArg _ (Recogniser.replaceFirst_of_none hnone))⟩

/-- An opening that begins in front of a blank or the end of a tag is met as a whole there, unless
only blanks of it are. -/
theorem blank_or_opened (h : u ++ r = b ++ (attributeOpen ++ t))
    (hb : ∀ c ∈ b, isBlank c = true) (hr : ∀ c ∈ r.head?, isBlank c = true ∨ c = '/') :
    (∀ c ∈ u, isBlank c = true) ∨ ∃ y, u = b ++ (attributeOpen ++ y) := by
  rw [← List.append_assoc, List.append_eq_append_iff] at h
  rcases h with ⟨y, hy, hry⟩ | ⟨y, rfl, -⟩
  · cases y with
    | nil => exact .inr ⟨[], by simpa using hy.symm⟩
    | cons c y =>
        have hc := hr c (by rw [hry]; rfl)
        rcases List.append_eq_append_iff.1 hy with ⟨z, -, hz⟩ | ⟨z, rfl, -⟩
        · -- The character where the parts meet is none of the opening.
          have hmem : c ∈ attributeOpen := by simp [hz]
          rcases hc with hc | rfl
          · rw [isBlank_of_mem_attributeOpen hmem] at hc
            cases hc
          · exact absurd hmem (by decide)
        · exact .inl fun c hmem => hb c (List.mem_append_left z hmem)
  · exact .inr ⟨y, List.append_assoc ..⟩

/-- What would be read in front of a namespace that is set off, once the namespace is dropped, would
be read there with the namespace in its place. -/
theorem readsNone_of_setOff
    (hu : namespaceValue.ReadsNone u (b ++ (attributeOpen ++ (v ++ '"' :: r))))
    (hb : ∀ c ∈ b, isBlank c = true) (hr : ∀ c ∈ r.head?, isBlank c = true ∨ c = '/') :
    namespaceValue.ReadsNone u r := by
  intro k hne hk
  refine Option.eq_none_iff_forall_ne_some.2 fun x hx => ?_
  have hnone := hu k hne hk
  obtain ⟨b', hbne', hb', -, heq⟩ := namespaceValue_read?_eq_some_iff.1 hx
  rcases blank_or_opened heq hb' hr with hblank | ⟨y, rfl⟩
  · have hboth : ∀ c ∈ k ++ b, isBlank c = true := fun c hmem =>
      (List.mem_append.1 hmem).elim (hblank c) (hb c)
    obtain ⟨z, hz⟩ := exists_read (s := v ++ '"' :: r)
      (List.append_ne_nil_of_left_ne_nil hne b) hboth (by simp)
    rw [List.append_assoc, hnone] at hz
    cases hz
  · obtain ⟨z, hz⟩ := exists_read (s := y ++ (b ++ (attributeOpen ++ (v ++ '"' :: r)))) hbne' hb'
      (by simp)
    simp only [List.append_assoc] at hnone
    rw [hnone] at hz
    cases hz

theorem repeats_iff : Repeats s ↔
    ∃ t v r, t <:+ s ∧ namespaceValue.read? t = some (v, r) ∧ NamesNamespace r := by
  constructor
  · rintro ⟨a, c, v, r, hc, hv, rfl, hr⟩
    refine ⟨c :: (attributeOpen ++ (v ++ '"' :: r)), v, r, List.suffix_append .., ?_, hr⟩
    exact namespaceValue_read?_eq_some_iff.2 ⟨[c], List.cons_ne_nil c [], by simpa, hv, rfl⟩
  · rintro ⟨t, v, r, ⟨a, rfl⟩, ht, hr⟩
    obtain ⟨b, hne, hb, hv, rfl⟩ := namespaceValue_read?_eq_some_iff.1 ht
    obtain ⟨b, c, rfl⟩ := (List.eq_nil_or_concat b).resolve_left hne
    exact ⟨a ++ b, c, v, r, hb c (by simp), hv, by simp, hr⟩

theorem not_repeats_of_readsNone (h : namespaceValue.ReadsNone s []) : ¬ Repeats s := by
  intro hrepeats
  obtain ⟨t, v, r, hsuffix, ht, -⟩ := repeats_iff.1 hrepeats
  have hne : t ≠ [] := by
    rintro rfl
    rw [namespaceValue.read?_nil] at ht
    cases ht
  have hnone := h t hne hsuffix
  rw [List.append_nil, ht] at hnone
  cases hnone

/-- Another namespace follows some namespace when it follows the one that is read first. -/
theorem repeats_append_iff (hu : namespaceValue.ReadsNone u t)
    (ht : namespaceValue.read? t = some (v, r)) : Repeats (u ++ t) ↔ NamesNamespace r := by
  rw [repeats_iff]
  constructor
  · rintro ⟨x, w, q, ⟨a, hx⟩, hread, hq⟩
    rcases List.append_eq_append_iff.1 hx with ⟨y, rfl, rfl⟩ | ⟨y, -, rfl⟩
    · cases y with
      | nil => exact hq.of_suffix (suffix_of_read ht (List.suffix_refl t) hread)
      | cons c y =>
          rw [hu _ (List.cons_ne_nil c y) (List.suffix_append a _)] at hread
          cases hread
    · exact hq.of_suffix (suffix_of_read ht (List.suffix_append y x) hread)
  · intro hr
    exact ⟨t, v, r, List.suffix_append u t, ht, hr⟩

theorem namespaces_append (hu : namespaceValue.ReadsNone u t)
    (ht : namespaceValue.read? t = some (v, r)) : namespaces (u ++ t) = v :: namespaces r :=
  hu.sites_append.trans (Recogniser.sites_of_read ht)

theorem repeats_of_length (h : 1 < (namespaces s).length) : Repeats s := by
  rcases namespaceValue.readsNone_or_exists_first s with hnone | ⟨u, t, v, r, rfl, hu, ht⟩
  · rw [namespaces, hnone.sites_eq_nil] at h
    cases h
  · rw [namespaces_append hu ht, List.length_cons, Nat.lt_add_left_iff_pos,
      List.length_pos_iff] at h
    exact (repeats_append_iff hu ht).2 (namesNamespace_of_namespaces h)

/-- Where no namespace is followed by another one, nothing is taken. -/
theorem replaceFirst_of_not_repeats (hend : '>' ∉ s) (h : ¬ Repeats s) :
    repeatedNamespace.replaceFirst (fun _ => []) s = s := by
  refine Recogniser.ReadsNone.replaceFirst_eq_self ?_
  intro t _ ht
  refine Option.eq_none_iff_forall_ne_some.2 fun x hx => h ?_
  rw [List.append_nil] at hx
  obtain ⟨hread, hfurther⟩ := repeatedNamespace_read?_eq_some_iff.1 hx
  obtain ⟨b, -, -, -, rfl⟩ := namespaceValue_read?_eq_some_iff.1 hread
  have hend' : '>' ∉ x.2 := fun hmem => hend (ht.subset (by simp [hmem]))
  exact repeats_iff.2 ⟨_, x.1, x.2, ht, hread, (hasFurtherNamespace_iff hend').1 hfurther⟩

/-- Where some namespace is followed by another one, the first of all is taken, and the others are
the namespaces of what is left. -/
theorem replaceFirst_of_repeats (hend : '>' ∉ s) (hs : eachNamespace isSetOff s = true)
    (h : Repeats s) : ∃ t, repeatedNamespace.replaceFirst (fun _ => []) s = t ∧ t ⊆ s ∧
      namespaces t = (namespaces s).tail := by
  rcases namespaceValue.readsNone_or_exists_first s with hnone | ⟨u, t, v, r, rfl, hu, ht⟩
  · exact absurd h (not_repeats_of_readsNone hnone)
  · have hr := (repeats_append_iff hu ht).1 h
    have hnames := namespaces_append hu ht
    obtain ⟨b, hne, hb, hv, rfl⟩ := namespaceValue_read?_eq_some_iff.1 ht
    have hend' : '>' ∉ r := fun hmem => hend (by simp [hmem])
    have hread := repeatedNamespace_read?_eq_some_iff.2
      ⟨ht, (hasFurtherNamespace_iff hend').2 hr⟩
    obtain ⟨v', r', heq, hv', hhead⟩ := exists_of_isSetOff
      (test_of_blanks hs hne hb (List.suffix_append u _))
    obtain ⟨rfl, rfl⟩ := append_cons_inj heq hv hv'
    refine ⟨u ++ r, ?_, ?_, ?_⟩
    · rw [(readsNone_repeatedNamespace hu).replaceFirst_append,
        Recogniser.replaceFirst_of_read hread, List.nil_append]
    · exact List.append_subset.2 ⟨List.subset_append_left .., fun c hc => by simp [hc]⟩
    · rw [hnames, List.tail_cons]
      exact (readsNone_of_setOff hu hb hhead).sites_append

theorem replaceFirst_not_mem (hend : '>' ∉ s) (hs : eachNamespace isSetOff s = true) :
    '>' ∉ repeatedNamespace.replaceFirst (fun _ => []) s := by
  by_cases h : Repeats s
  · obtain ⟨t, ht, hsubset, -⟩ := replaceFirst_of_repeats hend hs h
    rw [ht]
    exact fun hmem => hend (hsubset hmem)
  · rwa [replaceFirst_of_not_repeats hend h]

/-- One namespace is left when there were two, or one that no other follows. -/
theorem length_namespaces_replaceFirst (hend : '>' ∉ s) (hs : eachNamespace isSetOff s = true) :
    (namespaces (repeatedNamespace.replaceFirst (fun _ => []) s)).length = 1 ↔
      (namespaces s).length = 2 ∨ (namespaces s).length = 1 ∧ ¬ Repeats s := by
  by_cases h : Repeats s
  · obtain ⟨t, ht, -, hnames⟩ := replaceFirst_of_repeats hend hs h
    rw [ht, hnames, List.length_tail]
    simp only [h, not_true_eq_false, and_false, or_false]
    omega
  · have htwo : (namespaces s).length ≠ 2 := fun htwo => h (repeats_of_length (by omega))
    rw [replaceFirst_of_not_repeats hend h]
    simp only [htwo, h, not_false_eq_true, and_true, false_or]

/-! ## The three cases -/

/-- A text that names a namespace somewhere has one in its first tag when two stood there, or one
that no other follows. -/
theorem hasOneNamespace_of_named (htag : startTag? m = some tag) (htidy : tag.IsTidy)
    (hnamed : occurs attributeOpen m = true) : HasOneNamespace (ensureNamespace display m) ↔
      (namespaces tag.attributes).length = 2 ∨
        (namespaces tag.attributes).length = 1 ∧ ¬ Repeats tag.attributes := by
  obtain ⟨rfl, hbefore, hend⟩ := startTag?_eq_some_iff.1 htag
  obtain ⟨r, hr⟩ := replaceFirst_append_behind hend htidy.attributes tag.behind
  have hkept := replaceFirst_not_mem hend htidy.attributes
  have hwrite : ensureNamespace display tag.write = StartTag.write ⟨tag.before,
      repeatedNamespace.replaceFirst (fun _ => []) tag.attributes, r⟩ := by
    rw [ensureNamespace, occurs_tagOpen_write, hnamed, Bool.not_true, if_neg Bool.false_ne_true,
      if_pos rfl, StartTag.write, ← List.append_assoc,
      (readsNone_before_tag htidy _).replaceFirst_append, hr]
    simp [StartTag.write]
  rw [hwrite, hasOneNamespace_write hbefore hkept]
  exact length_namespaces_replaceFirst hend htidy.attributes

/-- In a text without a namespace none is read in the tag. -/
theorem readsNone_attributes (htag : startTag? m = some tag)
    (hnamed : occurs attributeOpen m = false) : namespaceValue.ReadsNone tag.attributes [] := by
  obtain ⟨rfl, -, -⟩ := startTag?_eq_some_iff.1 htag
  exact readsNone_of_not_occurs (not_occurs_of_isInfix hnamed
    ⟨tag.before ++ tagOpen, '>' :: tag.behind, by simp [StartTag.write]⟩)

theorem addNamespace_write (hbefore : occurs tagOpen tag.before = false) :
    addNamespace tag.write = (tag.before ++ tagOpen) ++
      (namespaceAttribute ++ (tag.attributes ++ '>' :: tag.behind)) := by
  have hfirst : (Recogniser.literal tagOpen tagOpen_ne_nil).ReadsNone tag.before
      (tagOpen ++ (tag.attributes ++ '>' :: tag.behind)) := by
    intro t hne ht
    obtain ⟨c, t, rfl⟩ := List.exists_cons_of_ne_nil hne
    have hnone := (occurs_cons_eq_false.1 (not_occurs_of_isInfix hbefore ht.isInfix)).1
    show (after? tagOpen _).map _ = none
    rw [after?_tagOpen_append hne, hnone]
    rfl
  rw [addNamespace_eq, StartTag.write, hfirst.replaceFirst_append,
    Recogniser.replaceFirst_of_read ((Recogniser.read?_literal_eq_some_iff (u := ())).2 rfl)]
  simp

theorem read?_namespaceAttribute (u : Text) :
    namespaceValue.read? (namespaceAttribute ++ u) = some (namespaceName, u) := by
  rw [namespaceAttribute_eq]
  refine namespaceValue_read?_eq_some_iff.2 ⟨[' '], List.cons_ne_nil ' ' [], ?_, ?_, ?_⟩
  · decide
  · decide
  · simp

theorem namespaces_namespaceAttribute (h : namespaceValue.ReadsNone u []) :
    namespaces (namespaceAttribute ++ u) = [namespaceName] := by
  rw [namespaces, Recogniser.sites_of_read (read?_namespaceAttribute u), h.sites_eq_nil]

/-- The namespace that was put in is taken out again where another one seems to follow. -/
theorem replaceFirst_namespaceAttribute (hend : '>' ∉ a)
    (h : namespaceValue.ReadsNone (a ++ '>' :: r) []) :
    repeatedNamespace.replaceFirst (fun _ => []) (namespaceAttribute ++ (a ++ '>' :: r)) =
      if NamesNamespace a then a ++ '>' :: r else namespaceAttribute ++ (a ++ '>' :: r) := by
  have hread := read?_namespaceAttribute (a ++ '>' :: r)
  split
  · next hnames =>
      have hfurther := (hasFurtherNamespace_append hend r).2 hnames
      rw [Recogniser.replaceFirst_of_read
        (repeatedNamespace_read?_eq_some_iff.2 ⟨hread, hfurther⟩), List.nil_append]
  · next hnames =>
      have hnone : repeatedNamespace.read? (namespaceAttribute ++ (a ++ '>' :: r)) = none := by
        rw [repeatedNamespace_eq, Recogniser.read?_followedBy, hread, Option.filter_some,
          if_neg (mt (hasFurtherNamespace_append hend r).1 hnames)]
      -- Behind its blank, the attribute holds no other one at which a reading could begin.
      have hname : repeatedNamespace.ReadsNone (attributeOpen ++ (namespaceName ++ ['"']))
          (a ++ '>' :: r) :=
        readsNone_repeatedNamespace (readsNone_of_forall_not_isBlank (by decide +kernel))
      rw [namespaceAttribute_eq] at hnone ⊢
      refine Recogniser.ReadsNone.replaceFirst_eq_self
        (.append ?_ (readsNone_repeatedNamespace h))
      rw [List.append_nil]
      exact .cons hnone hname

/-- A text without a namespace has one in its first tag when nothing there looks like one. -/
theorem hasOneNamespace_of_unnamed (htag : startTag? m = some tag) (htidy : tag.IsTidy)
    (hnamed : occurs attributeOpen m = false) :
    HasOneNamespace (ensureNamespace display m) ↔ ¬ NamesNamespace tag.attributes := by
  have hattributes := readsNone_attributes htag hnamed
  obtain ⟨rfl, hbefore, hend⟩ := startTag?_eq_some_iff.1 htag
  have hrest : namespaceValue.ReadsNone (tag.attributes ++ '>' :: tag.behind) [] :=
    readsNone_of_not_occurs (not_occurs_of_isInfix hnamed
      ⟨tag.before ++ tagOpen, [], by simp [StartTag.write]⟩)
  rw [ensureNamespace, occurs_tagOpen_write, hnamed, Bool.not_true, if_neg Bool.false_ne_true,
    if_neg Bool.false_ne_true, addNamespace_write hbefore,
    (readsNone_before_tag htidy _).replaceFirst_append, replaceFirst_namespaceAttribute hend hrest]
  by_cases hnames : NamesNamespace tag.attributes
  · rw [if_pos hnames, List.append_assoc, ← StartTag.write, hasOneNamespace_write hbefore hend,
      namespaces, hattributes.sites_eq_nil]
    simp [hnames]
  · have hend' : '>' ∉ namespaceAttribute ++ tag.attributes := by
      rw [List.mem_append, not_or]
      exact ⟨by decide +kernel, hend⟩
    have hwrite : (tag.before ++ tagOpen) ++
        (namespaceAttribute ++ (tag.attributes ++ '>' :: tag.behind)) =
          StartTag.write ⟨tag.before, namespaceAttribute ++ tag.attributes, tag.behind⟩ := by
      simp [StartTag.write]
    rw [if_neg hnames, hwrite, hasOneNamespace_write hbefore hend',
      namespaces_namespaceAttribute hattributes]
    simp [hnames]

/-- Nothing is read where fewer than two quotation marks stand. -/
theorem readsNone_of_count (h : s.count '"' ≤ 1) : namespaceValue.ReadsNone s [] := by
  intro t _ ht
  refine Option.eq_none_iff_forall_ne_some.2 fun x hx => ?_
  obtain ⟨b, -, -, -, heq⟩ := namespaceValue_read?_eq_some_iff.1 hx
  have hcount := ht.sublist.count_le '"'
  rw [List.append_nil] at heq
  rw [heq, attributeOpen_eq] at hcount
  simp only [List.count_append, List.count_cons_self] at hcount
  omega

theorem readsNone_display (u : Text) : namespaceValue.ReadsNone " display=\"".toList u :=
  .cons rfl (readsNone_of_forall_not_isBlank (by decide))

/-- An element that is put around a text names one namespace. -/
theorem hasOneNamespace_wrap (hdisplay : '"' ∉ display) (m : Text) :
    HasOneNamespace (wrap display m) := by
  have hmem : '>' ∈ (display ++ ['"']) ++ '>' :: (m ++ "</math>".toList) := by simp
  -- The tag ends in the display mode, or where it should end.
  obtain ⟨a, r, hsplit, hend⟩ := List.eq_append_cons_of_mem hmem
  obtain ⟨k, hk, -⟩ := exists_append_of_not_mem hsplit.symm hend
  have hcount : a.count '"' ≤ 1 := by
    have hle : a.count '"' ≤ (display ++ ['"']).count '"' :=
      (hk ▸ List.prefix_append a k).sublist.count_le '"'
    rwa [List.count_append, List.count_eq_zero_of_not_mem hdisplay] at hle
  have hwrite : wrap display m =
      StartTag.write ⟨[], namespaceAttribute ++ (" display=\"".toList ++ a), r⟩ := by
    have hclose : "\">".toList = ['"', '>'] := rfl
    simp only [wrap, StartTag.write, List.append_assoc, List.nil_append, ← hsplit]
    rw [hclose]
    rfl
  have hattributes : '>' ∉ namespaceAttribute ++ (" display=\"".toList ++ a) := by
    simp only [List.mem_append, not_or]
    exact ⟨by decide +kernel, by decide, hend⟩
  have hnone : namespaceValue.ReadsNone (" display=\"".toList ++ a) [] :=
    (readsNone_display _).append (readsNone_of_count hcount)
  rw [hwrite, hasOneNamespace_write (by decide) hattributes, namespaces_namespaceAttribute hnone]
  rfl

/-- **One namespace.** For every text whose first `math` start tag, if it has one, ends and is tidy:
the first tag of the result names one namespace exactly when the text has no tag, or names no
namespace at all and nothing in the tag looks like one, or names two in the tag, or one that no
other follows. -/
theorem hasOneNamespace_ensureNamespace_iff (hdisplay : '"' ∉ display)
    (hm : occurs tagOpen m = true → ∃ tag, startTag? m = some tag ∧ tag.IsTidy) :
    HasOneNamespace (ensureNamespace display m) ↔ ∀ tag, startTag? m = some tag →
      (occurs attributeOpen m = false ∧ ¬ NamesNamespace tag.attributes) ∨
        (namespaces tag.attributes).length = 2 ∨
        ((namespaces tag.attributes).length = 1 ∧ ¬ Repeats tag.attributes) := by
  cases hopen : occurs tagOpen m with
  | false =>
      rw [ensureNamespace, hopen, Bool.not_false, if_pos rfl]
      refine iff_of_true (hasOneNamespace_wrap hdisplay m) fun tag htag => ?_
      rw [(startTag?_eq_some_iff.1 htag).1, occurs_tagOpen_write] at hopen
      cases hopen
  | true =>
      obtain ⟨tag, htag, htidy⟩ := hm hopen
      simp only [htag, Option.some.injEq, forall_eq']
      cases hnamed : occurs attributeOpen m with
      | false =>
          have hnone : namespaces tag.attributes = [] :=
            (readsNone_attributes htag hnamed).sites_eq_nil
          rw [hasOneNamespace_of_unnamed htag htidy hnamed, hnone]
          simp
      | true =>
          rw [hasOneNamespace_of_named htag htidy hnamed]
          simp

/-- Two namespaces in the tag, and one in another element. -/
theorem hasOneNamespace_ensureNamespace_iff_twice :
    HasOneNamespace (ensureNamespace "inline".toList
      "<math xmlns=\"a\" xmlns=\"b\"><mi xmlns=\"c\">x</mi></math>".toList) := by
  have htag : startTag? "<math xmlns=\"a\" xmlns=\"b\"><mi xmlns=\"c\">x</mi></math>".toList =
      some ⟨[], " xmlns=\"a\" xmlns=\"b\"".toList, "<mi xmlns=\"c\">x</mi></math>".toList⟩ := by
    decide +kernel
  refine (hasOneNamespace_ensureNamespace_iff (by decide) ?_).2 ?_
  · exact fun _ => ⟨_, htag, by decide +kernel, by decide +kernel⟩
  · intro tag h
    obtain rfl := Option.some.inj (htag.symm.trans h)
    exact .inr (.inl (by decide +kernel))

/-- Of three namespaces in the tag two are left, and one that stands in another element keeps the
tag without any. -/
theorem not_hasOneNamespace_ensureNamespace :
    ((startTag? "<math xmlns=\"a\" xmlns=\"b\" xmlns=\"c\">x</math>".toList).isSome ∧
      ¬ HasOneNamespace (ensureNamespace "inline".toList
        "<math xmlns=\"a\" xmlns=\"b\" xmlns=\"c\">x</math>".toList)) ∧
    ((startTag? "<math><mi xmlns=\"a\">x</mi></math>".toList).isSome ∧
      ¬ HasOneNamespace (ensureNamespace "inline".toList
        "<math><mi xmlns=\"a\">x</mi></math>".toList)) := by
  decide +kernel

end CalcTypeset.MathML
