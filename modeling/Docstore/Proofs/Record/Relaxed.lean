import Docstore.Proofs.Query.Scripts
import Docstore.Proofs.Record.NormalForm
import Docstore.Proofs.Record.Saving

/-!
# Scripts on a record and on its document

A script runs on the relaxed form of a record or on the document that the record is decoded to.
The document has the members in the order of declaration and those that are missing as nulls, and
its simple values went through their types.

* `ScalarType.toJson_of_read` : simple values are read as their relaxed forms;
* `Field.sameAlong_elements`, `Field.sameAlong_member` : one step down, into an array or an object;
* `Field.Faithful` : everything stored has the declared shape, and simple values at a path are read
  as their relaxed forms;
* `Field.Faithful.sameAlong` : the relaxed form and the document are alike along the path;
* `Entity.runRecord_eq_run_of_decode` : the script of a query answers the same on both.

A script sees no more of a document than its values along the operands of the query
(`Query.run_eq_of_sameAlong`), so that neither the order of members nor a null instead of a missing
one is noticed.

Points of time are left out, since their relaxed form is an object and not text, and so are
free-form values and the identifier, which may be stored as more than its text.
-/

namespace Docstore

namespace ScalarType

/-- Values of the type are stored as values that JSON has, too: as text, numbers or truth
values. -/
def isPlain : ScalarType → Bool
  | .date => false
  | .any => false
  | _ => true

/-- A plain value is read as the relaxed form of what is stored for it, if the text of a decimal
comes back as it was. -/
theorem toJson_of_read {t : ScalarType} {v j : Json} {c : Canonical} (ht : t.isPlain = true)
    (hdecimal : ∀ d, c = .bigDecimal d → (Decimal.ofText? d.text).map Decimal.text = some d.text)
    (hc : t.cast v = .ok c) (hj : t.read c.stored = .ok j) : c.stored.toJson = j := by
  by_cases hv : v = .null
  · subst hv
    obtain rfl : .null = c := Except.ok.inj ((cast_null t).symm.trans hc)
    exact Except.ok.inj hj
  have hany : t ≠ .any := by
    rintro rfl
    cases ht
  rw [cast_eq_ok_iff hany hv] at hc
  cases t with
  | any => cases ht
  | date => cases ht
  | string =>
    obtain ⟨s, -, rfl⟩ := Option.map_eq_some_iff.1 hc
    exact Except.ok.inj hj
  | integer =>
    obtain ⟨n, -, rfl⟩ := Option.map_eq_some_iff.1 hc
    exact Except.ok.inj hj
  | boolean =>
    obtain ⟨b, -, rfl⟩ := Option.map_eq_some_iff.1 hc
    exact Except.ok.inj hj
  | double =>
    obtain ⟨x, -, rfl⟩ := Option.map_eq_some_iff.1 hc
    cases x with
    | finite x => exact Except.ok.inj hj
    | _ => cases hj
  | bigDecimal =>
    obtain ⟨d, -, rfl⟩ := Option.map_eq_some_iff.1 hc
    obtain ⟨d', hback, rfl⟩ := exists_of_read_bigDecimal hj
    have htext := hdecimal d rfl
    rw [hback, Option.map_some, Option.some.injEq] at htext
    exact congrArg Json.string htext.symm
  | bigInteger =>
    obtain ⟨n, -, rfl⟩ := Option.map_eq_some_iff.1 hc
    exact (of_read_bigInteger hj).2

end ScalarType

namespace Field

variable {f g : Field} {b c : Bson} {v : Json} {p q : Path}

/-- Where elements are declared and something is stored, an array is. -/
theorem Fits.exists_array (h : f.Fits b) (hstep : f.step? .any = some g) (hb : b ≠ .null) :
    ∃ items, b = .array items := by
  cases f with
  | scalarArray t => cases b <;> first | exact ⟨_, rfl⟩ | exact absurd h hb
  | objectArray members => cases b <;> first | exact ⟨_, rfl⟩ | exact absurd h hb
  | _ => cases hstep

/-- What is decoded is like the relaxed form: the same simple value, or of the same kind. -/
theorem alike_of_decodeMember (hfits : f.Fits b)
    (hleaf : ∀ t, f = .scalar t → ∀ j, t.read b = .ok j → b.toJson = j)
    (hv : f.decodeMember (some b) = .ok (some v)) : b.toJson.Alike v := by
  by_cases hb : b = .null
  · subst hb
    obtain rfl : .null = v := Option.some.inj (Except.ok.inj hv)
    exact .refl _
  cases f with
  | scalar t =>
    obtain ⟨j, hj, heq⟩ := decodeMember_scalar.1 hv
    obtain rfl : v = j := Option.some.inj heq
    rw [hleaf t rfl v hj]
    exact .refl v
  | reference entity => exact hfits.elim
  | object members =>
    cases b with
    | document r =>
      obtain ⟨js, -, hv⟩ := bind_eq_ok_iff.1 hv
      obtain rfl : _ = v := Option.some.inj (Except.ok.inj hv)
      rw [Bson.toJson_document]
      exact .object _ _
    | _ => exact absurd hfits hb
  | _ =>
    cases b with
    | array items =>
      obtain ⟨js, -, hv⟩ := bind_eq_ok_iff.1 hv
      obtain rfl : _ = v := Option.some.inj (Except.ok.inj hv)
      rw [Bson.toJson_array]
      exact .array _ _
    | _ => exact absurd hfits hb

/-- An array is like its relaxed form when its elements are. -/
theorem sameAlong_elements (hstep : f.step? .any = some g) (hfits : f.Fits b)
    (hitems : ∀ (i : Nat) c, f.Reaches b [.index i] g c → g.Fits c ∧
      ∀ w, g.decodeMember (some c) = .ok (some w) → Json.SameAlong p c.toJson w)
    (hv : f.decodeMember (some b) = .ok (some v)) : Json.SameAlong (.any :: p) b.toJson v := by
  by_cases hb : b = .null
  · subst hb
    obtain rfl : .null = v := Option.some.inj (Except.ok.inj hv)
    exact .refl _ _
  obtain ⟨items, rfl⟩ := hfits.exists_array hstep hb
  have hitems := fun i c hc => hitems i c (.element hstep hc)
  obtain ⟨js, rfl, hlength, hread⟩ :=
    exists_of_decodeMember_array hstep (fun i c hc => (hitems i c hc).1) hv
  rw [Bson.toJson_array]
  refine ⟨.array _ _, by simp [Json.length?, hlength], fun i => ?_⟩
  simp only [Json.at?, List.getElem?_map]
  cases hc : items[i]? with
  | none =>
    have hnone : js[i]? = none := by
      rw [List.getElem?_eq_none_iff] at hc ⊢
      omega
    rw [hnone]
    exact .refl p .null
  | some c =>
    obtain ⟨w, hw⟩ := getElem?_of_length hlength hc
    rw [hw]
    exact (hitems i c hc).2 w (hread i c w hc hw)

/-- An object is like its relaxed form where a member is. A member that is missing in the one is
null in the other, and scripts take both alike. -/
theorem sameAlong_member {members : Members} {key : String} (hd : members.Distinct)
    (hf : members.get? key = some g) (hfits : (Field.object members).Fits b)
    (hmember : ∀ c, (Field.object members).Reaches b [.name key] g c → g.Fits c ∧
      ∀ w, g.decodeMember (some c) = .ok (some w) → Json.SameAlong p c.toJson w)
    (hv : (Field.object members).decodeMember (some b) = .ok (some v)) :
    Json.SameAlong (.name key :: p) b.toJson v := by
  cases b with
  | null =>
    obtain rfl : .null = v := Option.some.inj (Except.ok.inj hv)
    exact .refl _ _
  | document r =>
    obtain ⟨js, hjs, rfl⟩ := exists_of_decodeMember_document hd hv
    rw [Bson.toJson_document]
    refine ⟨.object _ _, ?_⟩
    simp only [Json.get?, Fields.get?_map]
    cases hc : Fields.get? key r with
    | none =>
      rw [getD_get?_decodeMembers hd hjs hc]
      exact .refl p .null
    | some c =>
      obtain ⟨hfits, hsame⟩ := hmember c (.member hf hc (.here g c))
      obtain ⟨w, hw, hread⟩ := (get?_decodeMembers_iff hd hjs hf hc).2 hfits
      rw [hw]
      exact hsame w hread
  | _ => cases hfits

/-- Everything in a stored value has the declared shape, and the simple values at a path, or one
element below it, are read as their relaxed forms. -/
structure Faithful (f : Field) (b : Bson) (p : Path) : Prop where
  distinct : f.DistinctNames
  fits : ∀ q g c, f.Reaches b q g c → g.Fits c
  leaf : ∀ q t c j, f.Reaches b q (.scalar t) c →
    q.labels = p.labels ∨ q.labels = p.labels ++ [.any] → t.read c = .ok j → c.toJson = j

namespace Faithful

theorem below {rest : Path} (h : f.Faithful b p) (hreach : f.Reaches b q g c)
    (hlabels : p.labels = q.labels ++ rest.labels) : g.Faithful c rest where
  distinct := hreach.distinctNames h.distinct
  fits q' x found hbelow := h.fits _ x found (hreach.trans hbelow)
  leaf q' t found j hbelow hq := by
    refine h.leaf _ t found j (hreach.trans hbelow) ?_
    rw [Path.labels_append, hlabels, List.append_assoc]
    exact hq.imp (congrArg _) (congrArg _)

/-- At the end of the path only the elements of an array are looked at. -/
theorem sameAlong_nil (h : f.Faithful b []) (hv : f.decodeMember (some b) = .ok (some v)) :
    Json.SameAlong [.any] b.toJson v := by
  have hfits := h.fits [] f b (.here f b)
  have hleaf : ∀ t, f = .scalar t → ∀ j, t.read b = .ok j → b.toJson = j := by
    rintro t rfl j hj
    exact h.leaf [] t b j (.here _ b) (.inl rfl) hj
  have harray : ∀ x, f.step? .any = some x → Json.SameAlong [.any] b.toJson v := by
    intro x hstep
    refine sameAlong_elements hstep hfits (fun i c hreach => ⟨h.fits _ x c hreach, ?_⟩) hv
    intro w hw
    refine alike_of_decodeMember (h.fits _ x c hreach) ?_ hw
    rintro t rfl j hj
    exact h.leaf [.index i] t c j hreach (.inr rfl) hj
  have halike := alike_of_decodeMember hfits hleaf hv
  cases f with
  | scalar t =>
    obtain ⟨j, hj, heq⟩ := decodeMember_scalar.1 hv
    obtain rfl : v = j := Option.some.inj heq
    rw [hleaf t rfl v hj]
    exact .refl _ v
  | reference entity => exact hfits.elim
  | object members =>
    refine Json.SameAlong.of_alike halike fun items hitems => ?_
    cases b with
    | null => simp [Bson.toJson] at hitems
    | document r => simp [Bson.toJson] at hitems
    | _ => cases hfits
  | scalarArray t => exact harray _ rfl
  | objectArray members => exact harray _ rfl

/-- The relaxed form of a stored value is like what it is decoded to, along a declared path and at
the elements below it. A member that is missing in the one is null in the other. -/
theorem sameAlong (h : f.Faithful b p) (hv : f.decodeMember (some b) = .ok (some v))
    (hp : f.follow? p = some g) : Json.SameAlong (p.labels ++ [.any]) b.toJson v := by
  induction p generalizing f b v with
  | nil => exact h.sameAlong_nil hv
  | cons s rest ih =>
    obtain ⟨x, hstep, hrest⟩ := Option.bind_eq_some_iff.1 hp
    have hfits := h.fits [] f b (.here f b)
    -- A wildcard and an index lead to the elements of the array.
    have harray : Cursor.stepLabel s = .any → f.step? .any = some x →
        Json.SameAlong (.any :: (Path.labels rest ++ [.any])) b.toJson v := by
      intro hs hany
      refine sameAlong_elements hany hfits (fun i c hreach => ⟨h.fits _ x c hreach, ?_⟩) hv
      intro w hw
      refine ih (h.below hreach ?_) hw hrest
      rw [Path.labels, List.map_cons, hs]
      rfl
    cases s with
    | index i => exact harray rfl (by cases f <;> exact hstep)
    | any => exact harray rfl hstep
    | name key =>
      cases f with
      | object members =>
        refine sameAlong_member h.distinct.1 hstep hfits (fun c hreach => ?_) hv
        exact ⟨h.fits _ x c hreach, fun w hw => ih (h.below hreach rfl) hw hrest⟩
      | _ => cases hstep

end Faithful

end Field

/-- Neither the positions of a path nor the elements there are the identifier, unless the path is
that of the identifier. -/
theorem Mapper.isIdPath_eq_false_of_labels {m : Mapper} {p q : Path} (hp : m.isIdPath p = false)
    (hq : q.labels = p.labels ∨ q.labels = p.labels ++ [.any]) : m.isIdPath q = false := by
  rw [← isIdPath_labels]
  rcases hq with hq | hq
  · rw [hq, isIdPath_labels, hp]
  · rw [hq]
    exact isIdPath_child_any m p.labels

namespace Entity

variable {e : Entity} {m : Mapper} {d d' : Json} {r : Record} {p : Path}

/-- A simple value is stored at the place of a field of the entity's list. -/
theorem StoresLeaf.exists_field {t : ScalarType} {b : Bson} (h : e.StoresLeaf r p t b) :
    ∃ c ∈ e.fields, c.node.scalarType? = some t ∧ c.path = p.labels := by
  obtain ⟨c, hc, ht⟩ := Option.bind_eq_some_iff.1 h.1
  rcases mem_fields_of_resolve? hc with rfl | hmem
  · cases ht
  · exact ⟨c, hmem, ht, Cursor.path_of_follow? hc⟩

/-- What was encoded is faithful along every path but that of the identifier. -/
theorem faithful_of_encodeAs (he : e.Distinct)
    (hplain : ∀ c ∈ e.fields, ∀ t, c.node.scalarType? = some t → t.isPlain = true)
    (hr : m.encodeAs e d = .ok r)
    (hdecimal : ∀ p (x : Decimal), e.StoresLeaf r p .bigDecimal (.string x.text) →
      (Decimal.ofText? x.text).map Decimal.text = some x.text)
    (hp : m.isIdPath p = false) : (Field.object e.members).Faithful (.document r) p where
  distinct := he
  fits q g c hreach := by
    obtain ⟨v, hv⟩ := (encodes_of_encodeAs hr).of_reaches hreach
    exact hv.fits
  leaf q t c j hreach hq hj := by
    have hleaf := storesLeaf_iff.2 hreach
    obtain ⟨cursor, hmem, ht, -⟩ := hleaf.exists_field
    have htype := hplain cursor hmem t ht
    have hany : t ≠ .any := by
      rintro rfl
      cases htype
    obtain ⟨v, hv⟩ := (encodes_of_encodeAs hr).of_reaches hreach
    obtain ⟨canonical, hcast, hstored⟩ := Mapper.encodeScalar_eq_ok_iff.1 hv.encodeScalar_eq
    have hid : m.isIdPath (.root ++ q) = false := Mapper.isIdPath_eq_false_of_labels hp hq
    rw [if_neg (by simp [hid])] at hstored
    subst hstored
    refine ScalarType.toJson_of_read htype (fun x hx => ?_) hcast hj
    subst hx
    obtain rfl := ScalarType.eq_bigDecimal_of_cast hany hcast
    exact hdecimal q x hleaf

/-- The script of a query gives the same answer on a record and on the document that the record is
decoded to, or stops on both in the same way. The record is one that was encoded with an entity
of plain types, its decimals come back from their texts, and the query does not read the
identifier. -/
theorem runRecord_eq_run_of_decode (he : e.Distinct)
    (hplain : ∀ c ∈ e.fields, ∀ t, c.node.scalarType? = some t → t.isPlain = true)
    (hr : m.encodeAs e d = .ok r) (hd : e.decode r = .ok d')
    (hdecimal : ∀ p (x : Decimal), e.StoresLeaf r p .bigDecimal (.string x.text) →
      (Decimal.ofText? x.text).map Decimal.text = some x.text)
    {q : Query} {s : Script} (hs : q.script e = .ok s)
    (hid : ∀ p ∈ q.fieldsRead .root, m.isIdPath p = false) : s.runRecord r = s.run d' := by
  refine (Query.run_eq_of_sameAlong hs fun p c hp hc => ?_).symm
  have hfaithful := faithful_of_encodeAs he hplain hr hdecimal (hid p hp)
  refine hfaithful.sameAlong (g := c.node.asField) (decode_eq_ok_iff.1 hd) ?_
  rw [← resolve?_asField, hc]
  rfl

/-- Quantities are compared with a limit, in rows one of which is null. The note is missing, and
the members stand in another order than the declaration has. -/
theorem runRecord_eq_run_of_decode_order :
    let e : Entity := ⟨"order", [("_id", .scalar .string), ("total", .scalar .bigDecimal),
      ("limit", .scalar .integer), ("note", .scalar .string),
      ("rows", .objectArray [("qty", .scalar .integer), ("tags", .scalarArray .string)])]⟩
    let m : Mapper := { entities := [] }
    let d : Json := .object [("rows", .array [.object [("qty", .string "2")], .null]),
      ("limit", .int 3), ("total", .string "20.50"), ("_id", .string "n")]
    let r : Record := [("rows", .array [.document [("qty", .int64 2)], .null]),
      ("limit", .int64 3), ("total", .string "20.50"), ("_id", .string "n")]
    let d' : Json := .object [("_id", .string "n"), ("total", .string "20.50"), ("limit", .int 3),
      ("note", .null), ("rows", .array [.object [("qty", .int 2), ("tags", .null)], .null])]
    let q : Query := .compareFields [.name "rows", .any, .name "qty"] .lte [.name "limit"]
    m.encodeAs e d = .ok r ∧ e.decode r = .ok d' ∧
      ∃ s, q.script e = .ok s ∧ s.runRecord r = s.run d' := by
  intro e m d r d' q
  have he : e.Distinct := by
    simp [e, Distinct, Fields.Distinct, Fields.keys, Field.MembersDistinct, Field.DistinctNames]
  have hplain : ∀ c ∈ e.fields, ∀ t, c.node.scalarType? = some t → t.isPlain = true := by
    decide
  have hdecimal : ∀ p (x : Decimal), e.StoresLeaf r p .bigDecimal (.string x.text) →
      (Decimal.ofText? x.text).map Decimal.text = some x.text := by
    intro p x hleaf
    have htotal : ∀ c ∈ e.fields, c.node.scalarType? = some .bigDecimal →
        c.path = [.name "total"] := by
      decide
    obtain ⟨c, hmem, ht, hpath⟩ := hleaf.exists_field
    obtain rfl := Path.eq_of_labels_eq_name (hpath.symm.trans (htotal c hmem ht))
    have htext : "20.50" = x.text := Bson.string.inj (Option.some.inj hleaf.2)
    rw [← htext]
    rfl
  have hr : m.encodeAs e d = .ok r := by rfl
  have hd : e.decode r = .ok d' := by rfl
  have hid : ∀ p ∈ q.fieldsRead .root, m.isIdPath p = false := by decide
  refine ⟨hr, hd, _, rfl, ?_⟩
  exact runRecord_eq_run_of_decode he hplain hr hd hdecimal rfl hid

end Entity

end Docstore
