import Docstore.Proofs.Entity.Names
import Docstore.Proofs.Text.Numerals

/-!
# Dotted texts of paths

A text between dots is a segment, and a text is a path unless nothing stands between two of its
dots. Only numbers have several spellings.

* `Path.IsNumeral` : a part that is read as an index;
* `Path.canonicalText` : the parts of a text, numerals without leading zeros;
* `Segment.IsPlain` : a segment that its own text denotes;
* `Path.ofText?_text` : a path of plain segments is read back from its text;
* `Path.plain_of_ofText?` : what is read is plain, and its text is the canonical one;
* `Path.text_canonical` : which texts are paths, and that the text of a path is their one canonical
  form.
-/

namespace Docstore

namespace Path

/-- The text consists of digits, and their value is an index. -/
def IsNumeral (part : String) : Prop :=
  part ≠ "" ∧ (∀ c ∈ part.toList, c.isDigit = true) ∧
    Nat.ofDigitChars 10 part.toList 0 < 0x10000000000000000

instance (part : String) : Decidable (IsNumeral part) :=
  -- Only the characters of the part are tried, not all there are.
  let _ := List.decidableBAll (fun c : Char => c.isDigit = true) part.toList
  inferInstanceAs (Decidable (_ ∧ _ ∧ _))

/-- A part in its one spelling: a numeral has no leading zeros. -/
def canonicalPart (part : String) : String :=
  if IsNumeral part then String.ofList (Text.withoutLeadingZeros part.toList) else part

/-- The text with every part in its one spelling. -/
def canonicalText (text : String) : String := ".".intercalate ((dottedNames text).map canonicalPart)

end Path

/-- The segment is an index of 64 bits, a wildcard, or a name that can be taken for neither and
stands between two dots. -/
def Segment.IsPlain : Segment → Prop
  | .name key => key ≠ "" ∧ '.' ∉ key.toList ∧ key ≠ "*" ∧ ¬ Path.IsNumeral key
  | .index i => i < 0x10000000000000000
  | .any => True

instance : DecidablePred Segment.IsPlain
  | .name _ => inferInstanceAs (Decidable (_ ∧ _ ∧ _ ∧ _))
  | .index _ => inferInstanceAs (Decidable (_ < _))
  | .any => isTrue trivial

/-- Every segment is plain. -/
def Path.IsPlain (p : Path) : Prop := ∀ s ∈ p, s.IsPlain

instance (p : Path) : Decidable p.IsPlain := inferInstanceAs (Decidable (∀ s ∈ p, s.IsPlain))

namespace Path

/-! ### Parts -/

/-- A text is what stands between its dots, with the dots. -/
theorem intercalate_splitDots (cs : List Char) : ['.'].intercalate (splitDots cs) = cs := by
  induction cs with
  | nil => rfl
  | cons c rest ih =>
    rw [splitDots]
    cases hrest : splitDots rest with
    | nil => exact absurd hrest (splitDots_ne_nil rest)
    | cons part parts =>
      rw [hrest] at ih
      by_cases hc : c = '.'
      · simp [hc, ih]
      · cases parts with
        | nil => simpa [hc] using ih
        | cons next more => simpa [hc] using ih

/-- Between dots there is no dot. -/
theorem not_mem_of_mem_splitDots {cs part : List Char} (h : part ∈ splitDots cs) : '.' ∉ part := by
  induction cs generalizing part with
  | nil =>
    obtain rfl := List.mem_singleton.1 h
    exact List.not_mem_nil
  | cons c rest ih =>
    rw [splitDots] at h
    split at h
    · rcases List.mem_cons.1 h with rfl | h
      · exact List.not_mem_nil
      · exact ih h
    · next hc =>
      cases hrest : splitDots rest with
      | nil => exact absurd hrest (splitDots_ne_nil rest)
      | cons first parts =>
        rw [hrest] at h ih
        rcases List.mem_cons.1 h with rfl | h
        · have hfirst := ih List.mem_cons_self
          simp [Ne.symm hc, hfirst]
        · exact ih (List.mem_cons_of_mem _ h)

/-- The parts of a text are what stands between its dots. -/
theorem dottedNames_spec (text : String) :
    ".".intercalate (dottedNames text) = text ∧ ∀ part ∈ dottedNames text, '.' ∉ part.toList := by
  constructor
  · have htoList : String.toList ∘ String.ofList = id := funext fun _ => String.toList_ofList
    rw [← String.toList_inj, String.toList_intercalate, dottedNames, List.map_map, htoList,
      List.map_id]
    exact intercalate_splitDots text.toList
  · intro part hpart
    obtain ⟨cs, hcs, rfl⟩ := List.mem_map.1 hpart
    rw [String.toList_ofList]
    exact not_mem_of_mem_splitDots hcs

/-! ### Segments -/

theorem segmentOfPart?_eq_none_iff {part : List Char} : segmentOfPart? part = none ↔ part = [] := by
  by_cases hpart : part = []
  · simp [segmentOfPart?, hpart]
  · -- Any other part is a wildcard, an index or a name.
    rw [segmentOfPart?, if_neg hpart]
    refine iff_of_false ?_ hpart
    split
    · simp
    · split
      · split <;> simp
      · simp

theorem isNumeral_ofList_iff {part : List Char} :
    IsNumeral (String.ofList part) ↔
      ∃ n, Text.natOfDigits? part = some n ∧ n < 0x10000000000000000 := by
  have hempty : String.ofList part = "" ↔ part = [] := by
    rw [← String.toList_inj, String.toList_ofList]
    rfl
  simp only [IsNumeral, Text.natOfDigits?_eq_some_iff, String.toList_ofList, ne_eq, hempty]
  constructor
  · rintro ⟨hne, hdigits, hlt⟩
    exact ⟨_, ⟨hne, hdigits, rfl⟩, hlt⟩
  · rintro ⟨n, ⟨hne, hdigits, rfl⟩, hlt⟩
    exact ⟨hne, hdigits, hlt⟩

/-- What a part between dots denotes is plain, and its text is the part in its one spelling. -/
theorem plain_of_segmentOfPart? {part : List Char} {s : Segment} (hdot : '.' ∉ part)
    (h : segmentOfPart? part = some s) :
    s.IsPlain ∧ s.text = canonicalPart (String.ofList part) := by
  have hname : ¬ IsNumeral (String.ofList part) → part ≠ [] → part ≠ ['*'] →
      (Segment.name (String.ofList part)).IsPlain ∧
        String.ofList part = canonicalPart (String.ofList part) := by
    intro hnumeral hne hany
    rw [canonicalPart, if_neg hnumeral]
    refine ⟨⟨?_, ?_, ?_, hnumeral⟩, rfl⟩
    · simpa [← String.toList_inj] using hne
    · simpa using hdot
    · simpa [← String.toList_inj] using hany
  unfold segmentOfPart? at h
  split at h
  · cases h
  · next hne =>
    split at h
    · next hany =>
      obtain rfl := Option.some.inj h
      subst hany
      exact ⟨trivial, by simp [Segment.text, canonicalPart, IsNumeral]⟩
    · next hany =>
      cases hread : Text.natOfDigits? part with
      | none =>
        rw [hread] at h
        obtain rfl := Option.some.inj h
        exact hname (by simp [isNumeral_ofList_iff, hread]) hne hany
      | some n =>
        simp only [hread] at h
        split at h
        · next hlt =>
          obtain rfl := Option.some.inj h
          obtain ⟨-, hdigits, hvalue⟩ := Text.natOfDigits?_eq_some_iff.1 hread
          have hnumeral := isNumeral_ofList_iff.2 ⟨n, hread, hlt⟩
          refine ⟨hlt, ?_⟩
          rw [canonicalPart, if_pos hnumeral, String.toList_ofList,
            ← Text.natDigits_ofDigitChars hne hdigits, hvalue]
          rfl
        · next hlt =>
          obtain rfl := Option.some.inj h
          refine hname ?_ hne hany
          simpa [isNumeral_ofList_iff, hread] using hlt

/-- A plain segment is what its text denotes. -/
theorem segmentOfPart?_text {s : Segment} (h : s.IsPlain) :
    segmentOfPart? s.text.toList = some s := by
  cases s with
  | any => rfl
  | index i =>
    have hany : Text.natDigits i ≠ ['*'] := by
      intro heq
      have hdigit := Text.isDigit_of_mem_natDigits (n := i) (c := '*') (by simp [heq])
      cases hdigit
    have hlt : i < 0x10000000000000000 := h
    simp [Segment.text, Text.natText, segmentOfPart?, Text.natDigits_ne_nil, hany,
      Text.natOfDigits?_natDigits, hlt]
  | name key =>
    obtain ⟨hne, -, hany, hnumeral⟩ := h
    have hne' : key.toList ≠ [] := by simpa using hne
    have hany' : key.toList ≠ ['*'] := by
      intro heq
      refine hany (String.toList_inj.1 ?_)
      rw [heq]
      rfl
    rw [← String.ofList_toList (s := key), isNumeral_ofList_iff] at hnumeral
    simp only [Segment.text, segmentOfPart?, if_neg hne', if_neg hany', String.ofList_toList]
    cases hread : Text.natOfDigits? key.toList with
    | none => rfl
    | some n =>
      have hlt : ¬ n < 0x10000000000000000 := fun hlt => hnumeral ⟨n, hread, hlt⟩
      simp only [if_neg hlt]

theorem not_mem_text_of_isPlain {s : Segment} (h : s.IsPlain) : '.' ∉ s.text.toList := by
  cases s with
  | any => decide
  | index i =>
    intro hmem
    rw [Segment.text, Text.natText, String.toList_ofList] at hmem
    have hdigit := Text.isDigit_of_mem_natDigits hmem
    cases hdigit
  | name key => exact h.2.1

/-! ### Lists of parts -/

theorem segmentsOfParts?_eq_none_iff {parts : List (List Char)} :
    segmentsOfParts? parts = none ↔ [] ∈ parts := by
  induction parts with
  | nil => simp [segmentsOfParts?]
  | cons part rest ih =>
    rw [List.mem_cons, eq_comm (a := []), ← segmentOfPart?_eq_none_iff, ← ih, segmentsOfParts?]
    cases segmentOfPart? part <;> cases segmentsOfParts? rest <;> simp

theorem plain_of_segmentsOfParts? {parts : List (List Char)} {p : Path}
    (hdot : ∀ part ∈ parts, '.' ∉ part) (h : segmentsOfParts? parts = some p) :
    p.IsPlain ∧ p.map Segment.text = (parts.map String.ofList).map canonicalPart := by
  induction parts generalizing p with
  | nil =>
    obtain rfl := Option.some.inj h
    exact ⟨fun s hs => (by cases hs), rfl⟩
  | cons part rest ih =>
    obtain ⟨s, hs, h⟩ := Option.bind_eq_some_iff.1 h
    obtain ⟨q, hq, h⟩ := Option.bind_eq_some_iff.1 h
    obtain rfl := Option.some.inj h
    obtain ⟨hfirst, hrest⟩ := List.forall_mem_cons.1 hdot
    obtain ⟨hplain, htext⟩ := plain_of_segmentOfPart? hfirst hs
    obtain ⟨hplains, htexts⟩ := ih hrest hq
    refine ⟨List.forall_mem_cons.2 ⟨hplain, hplains⟩, ?_⟩
    rw [List.map_cons, List.map_cons, List.map_cons, htext, htexts]

theorem segmentsOfParts?_text {p : Path} (h : p.IsPlain) :
    segmentsOfParts? (p.map fun s => s.text.toList) = some p := by
  induction p with
  | nil => rfl
  | cons s rest ih =>
    obtain ⟨hs, hrest⟩ := List.forall_mem_cons.1 h
    rw [List.map_cons, segmentsOfParts?, segmentOfPart?_text hs, ih hrest]
    rfl

/-! ### Texts -/

variable {text : String} {p : Path}

/-- A text is no path exactly when nothing stands between two of its dots. -/
theorem ofText?_eq_none_iff : ofText? text = none ↔ text ≠ "" ∧ "" ∈ dottedNames text := by
  have hpart : "" ∈ dottedNames text ↔ [] ∈ splitDots text.toList := by
    simp [dottedNames, ← String.toList_inj]
  rw [hpart, ← segmentsOfParts?_eq_none_iff, ofText?]
  by_cases hempty : text = ""
  · simp [hempty]
  · have hne : text.toList ≠ [] := by simpa using hempty
    simp [hne, hempty]

/-- What is read is plain, and its text is the canonical one. -/
theorem plain_of_ofText? (h : ofText? text = some p) :
    p.IsPlain ∧ p.text = canonicalText text := by
  rw [ofText?] at h
  split at h
  · next hempty =>
    obtain rfl := Option.some.inj h
    obtain rfl : text = "" := by simpa using hempty
    exact ⟨fun s hs => (by cases hs), by decide⟩
  · obtain ⟨hplain, htexts⟩ := plain_of_segmentsOfParts? (fun _ => not_mem_of_mem_splitDots) h
    refine ⟨hplain, ?_⟩
    rw [Path.text, htexts]
    rfl

/-- A path of plain segments is read back from its text. -/
theorem ofText?_text (h : p.IsPlain) : ofText? p.text = some p := by
  by_cases hroot : p = []
  · subst hroot
    rfl
  have hparts : splitDots p.text.toList = p.map fun s => s.text.toList := by
    rw [Path.text, String.toList_intercalate, List.map_map]
    refine splitDots_intercalate (by simpa using hroot) fun part hpart => ?_
    obtain ⟨s, hs, rfl⟩ := List.mem_map.1 hpart
    exact not_mem_text_of_isPlain (h s hs)
  have hread := segmentsOfParts?_text h
  have hne : p.text.toList ≠ [] := by
    intro hempty
    rw [← hparts, hempty] at hread
    cases hread
  rw [ofText?, if_neg hne, hparts, hread]

/-- **Dotted texts have a canonical form.** The parts of a text are what stands between its dots. A
text is no path exactly when it is not empty and has an empty part; what is read from a text is
written as that text, less the redundant zeros in front of its numerals, and read back from it; and
every path of plain segments is read back from its text. -/
theorem text_canonical :
    (∀ text, ".".intercalate (dottedNames text) = text ∧
      ∀ part ∈ dottedNames text, '.' ∉ part.toList) ∧
    (∀ text, ofText? text = none ↔ text ≠ "" ∧ "" ∈ dottedNames text) ∧
    (∀ text p, ofText? text = some p →
      ofText? p.text = some p ∧ p.text = canonicalText text) ∧
    ∀ p : Path, p.IsPlain → ofText? p.text = some p :=
  ⟨dottedNames_spec, fun _ => ofText?_eq_none_iff,
    fun _ _ h => ⟨ofText?_text (plain_of_ofText? h).1, (plain_of_ofText? h).2⟩,
    fun _ => ofText?_text⟩

/-- A numeral loses its leading zeros, and digits without an index are a name. -/
theorem text_canonical_rows :
    let text := "rows.007.*"
    let p : Path := [.name "rows", .index 7, .any]
    let q : Path := [.name "18446744073709551616", .index 18446744073709551615]
    (ofText? text = some p ∧ ofText? p.text = some p ∧ p.text = canonicalText text ∧
      canonicalText text = "rows.7.*") ∧
    q.IsPlain ∧ ofText? q.text = some q ∧
    ofText? "rows..name" = none ∧ "" ∈ dottedNames "rows..name" := by
  intro text p q
  have hread : ofText? text = some p := by decide
  have htext : canonicalText text = "rows.7.*" := by decide
  have hplain : q.IsPlain := by decide
  have hempty : "" ∈ dottedNames "rows..name" := by decide
  obtain ⟨hback, hcanonical⟩ := text_canonical.2.2.1 text p hread
  exact ⟨⟨hread, hback, hcanonical, htext⟩, hplain, text_canonical.2.2.2 q hplain,
    (text_canonical.2.1 "rows..name").2 ⟨by decide, hempty⟩, hempty⟩

end Path

end Docstore
