import Docstore.Proofs.Record.NormalForm
import Docstore.Proofs.Record.Saving
import Docstore.Proofs.Scalar.RoundTrip
import Docstore.Proofs.Script.FieldComparison
import Docstore.Proofs.Script.LooseOrder

/-!
# Comparisons of fields and the order of their type

A script compares the relaxed forms of stored values and knows nothing of their types.

* `Canonical.order?` : the order of two values in the sense of their type;
* `Canonical.scriptOrder?` : the order that a script sees;
* `ScalarType.holds_stored` : a comparison of relaxed forms goes by the order that a script sees;
* `Entity.runRecord_compareFields` : so does the script that compares two fields, and for strings,
  integers and doubles, and for the equality of big integers, that is the order of the type.

Numbers of any size are stored as text and have the order of their texts. A point of time has an
object for its relaxed form, and objects compare with nothing.
-/

namespace Docstore

/-! ### Orders -/

namespace Canonical

/-- The order of two values in the sense of their type: numbers by value, points of time by their
place in time, and strings by characters, which is the order of their bytes. -/
def order? : Canonical → Canonical → Option Ordering
  | .string a, .string b => some (compare a b)
  | .integer a, .integer b => some (compare a.toInt b.toInt)
  | .double a, .double b => a.compare? b
  | .bigDecimal a, .bigDecimal b =>
    some (compare (a.numerator * powerOfTen b.scale) (b.numerator * powerOfTen a.scale))
  | .bigInteger a, .bigInteger b => some (compare a b)
  | .date a, .date b => some (compare a.toInt b.toInt)
  | _, _ => none

/-- The order that a script sees: that of their texts for numbers of any size, and none for points
of time. -/
def scriptOrder? : Canonical → Canonical → Option Ordering
  | .bigDecimal a, .bigDecimal b => some (compare a.text b.text)
  | .bigInteger a, .bigInteger b => some (compare (Text.intText a) (Text.intText b))
  | .date _, .date _ => none
  | a, b => a.order? b

/-- A script has the very number: integers are doubles to it, and only finite doubles are
numbers. -/
def IsExact : Canonical → Prop
  | .integer n => Double.HoldsInt n.toInt
  | .double x => ∃ y, x = .finite y
  | _ => True

end Canonical

/-- A comparison of values of the type goes by the order of the type. -/
def ScalarType.keepsOrder (op : Comparison) : ScalarType → Bool
  | .string => true
  | .integer => true
  | .double => true
  | .bigInteger => op.isEquality
  | _ => false

/-! ### Relaxed forms -/

theorem exists_dateJson (millis : Int64) : ∃ members, Bson.dateJson millis = .object members := by
  rw [Bson.dateJson]
  split
  · split <;> exact ⟨_, rfl⟩
  · exact ⟨_, rfl⟩

namespace ScalarType

variable {t : ScalarType} {v w : Json} {c c' : Canonical} {op : Comparison}

/-- A comparison of the relaxed forms of two values goes by the order that a script sees. -/
theorem holds_stored (ht : t.supportsOrdering = true) (hv : v ≠ .null) (hw : w ≠ .null)
    (hc : t.cast v = .ok c) (hc' : t.cast w = .ok c') (hexact : c.IsExact) (hexact' : c'.IsExact)
    (op : Comparison) :
    op.holds c.stored.toJson c'.stored.toJson = op.allows (c.scriptOrder? c') := by
  have hany : t ≠ .any := by
    rintro rfl
    cases ht
  rw [cast_eq_ok_iff hany hv] at hc
  rw [cast_eq_ok_iff hany hw] at hc'
  cases t with
  | any => cases ht
  | boolean => cases ht
  | string =>
    obtain ⟨a, -, rfl⟩ := Option.map_eq_some_iff.1 hc
    obtain ⟨b, -, rfl⟩ := Option.map_eq_some_iff.1 hc'
    exact op.holds_eq_allows nofun nofun
  | integer =>
    obtain ⟨a, -, rfl⟩ := Option.map_eq_some_iff.1 hc
    obtain ⟨b, -, rfl⟩ := Option.map_eq_some_iff.1 hc'
    have horder : (Json.int a.toInt).looseOrder? (.int b.toInt) =
      some (compare a.toInt b.toInt) := Double.compare?_ofInt hexact hexact'
    have hholds : op.holds (.int a.toInt) (.int b.toInt) =
      op.allows ((Json.int a.toInt).looseOrder? (.int b.toInt)) := op.holds_eq_allows nofun nofun
    exact hholds.trans (congrArg op.allows horder)
  | double =>
    obtain ⟨a, -, rfl⟩ := Option.map_eq_some_iff.1 hc
    obtain ⟨b, -, rfl⟩ := Option.map_eq_some_iff.1 hc'
    obtain ⟨a, rfl⟩ := hexact
    obtain ⟨b, rfl⟩ := hexact'
    exact op.holds_eq_allows nofun nofun
  | bigDecimal =>
    obtain ⟨a, -, rfl⟩ := Option.map_eq_some_iff.1 hc
    obtain ⟨b, -, rfl⟩ := Option.map_eq_some_iff.1 hc'
    exact op.holds_eq_allows nofun nofun
  | bigInteger =>
    obtain ⟨a, -, rfl⟩ := Option.map_eq_some_iff.1 hc
    obtain ⟨b, -, rfl⟩ := Option.map_eq_some_iff.1 hc'
    exact op.holds_eq_allows nofun nofun
  | date =>
    obtain ⟨a, -, rfl⟩ := Option.map_eq_some_iff.1 hc
    obtain ⟨b, -, rfl⟩ := Option.map_eq_some_iff.1 hc'
    obtain ⟨members, ha⟩ := exists_dateJson a
    obtain ⟨members', hb⟩ := exists_dateJson b
    have hforms : op.holds (Bson.dateJson a) (Bson.dateJson b) = op.allows none := by
      rw [ha, hb]
      exact op.holds_eq_allows nofun nofun
    exact hforms

end ScalarType

/-! ### Texts of numbers -/

/-- Decimals with one text have one value. The converse fails: the text tells the places. -/
theorem Decimal.of_text_eq {a b : Decimal} (h : a.text = b.text) :
    a.numerator = b.numerator ∧ a.scale = b.scale := by
  have hread := congrArg ofText? h
  rw [ofText?_text, ofText?_text, Option.some_inj, mk.injEq] at hread
  obtain ⟨hnegative, hmantissa, hscale⟩ := hread
  refine ⟨?_, hscale⟩
  rw [hmantissa] at hnegative
  rw [numerator, numerator, hmantissa]
  by_cases hzero : b.mantissa = 0
  · simp [hzero]
  · have hnonzero : (b.mantissa != 0) = true := bne_iff_ne.2 hzero
    rw [hnonzero, Bool.and_true, Bool.and_true] at hnegative
    rw [hnegative]

theorem Text.intText_injective {a b : Int} (h : intText a = intText b) : a = b := by
  have hread := congrArg (fun s => intOfText? s.toList) h
  simp only [intText, String.toList_ofList, intOfText?_intDigits, Option.some_inj] at hread
  exact hread

namespace Canonical

variable {t : ScalarType} {v w : Json} {c c' : Canonical} {op : Comparison}

/-- Big integers are equal to a script when they are. -/
theorem allows_bigInteger (hop : op.isEquality = true) (a b : Int) :
    op.allows ((bigInteger a).scriptOrder? (.bigInteger b)) =
      op.allows ((bigInteger a).order? (.bigInteger b)) := by
  have hiff : compare (Text.intText a) (Text.intText b) = .eq ↔ compare a b = .eq := by
    rw [Std.LawfulEqCmp.compare_eq_iff_eq, Std.LawfulEqCmp.compare_eq_iff_eq]
    exact ⟨Text.intText_injective, congrArg _⟩
  have hequal : (some (compare (Text.intText a) (Text.intText b)) == some .eq) =
      (some (compare a b) == some .eq) := by
    rw [Bool.eq_iff_iff]
    simpa using hiff
  cases op with
  | eq => exact hequal
  | neq => exact congrArg Bool.not hequal
  | _ => cases hop

end Canonical

namespace ScalarType

variable {t : ScalarType} {v w : Json} {c c' : Canonical} {op : Comparison}

/-- Values of a type that keeps its order have it for a script, too. -/
theorem allows_of_keepsOrder (hv : v ≠ .null) (hw : w ≠ .null) (hc : t.cast v = .ok c)
    (hc' : t.cast w = .ok c') (h : t.keepsOrder op = true) :
    op.allows (c.scriptOrder? c') = op.allows (c.order? c') := by
  have hany : t ≠ .any := by
    rintro rfl
    cases h
  rw [cast_eq_ok_iff hany hv] at hc
  rw [cast_eq_ok_iff hany hw] at hc'
  cases t with
  | bigInteger =>
    obtain ⟨a, -, rfl⟩ := Option.map_eq_some_iff.1 hc
    obtain ⟨b, -, rfl⟩ := Option.map_eq_some_iff.1 hc'
    exact Canonical.allows_bigInteger h a b
  | string =>
    obtain ⟨a, -, rfl⟩ := Option.map_eq_some_iff.1 hc
    rfl
  | integer =>
    obtain ⟨a, -, rfl⟩ := Option.map_eq_some_iff.1 hc
    rfl
  | double =>
    obtain ⟨a, -, rfl⟩ := Option.map_eq_some_iff.1 hc
    rfl
  | _ => cases h

/-- Decimals that are equal to a script are equal in value. -/
theorem order?_of_bigDecimal (hv : v ≠ .null) (hw : w ≠ .null) (hc : bigDecimal.cast v = .ok c)
    (hc' : bigDecimal.cast w = .ok c') (h : c.scriptOrder? c' = some .eq) :
    c.order? c' = some .eq := by
  rw [cast_eq_ok_iff (by simp) hv] at hc
  rw [cast_eq_ok_iff (by simp) hw] at hc'
  obtain ⟨a, -, rfl⟩ := Option.map_eq_some_iff.1 hc
  obtain ⟨b, -, rfl⟩ := Option.map_eq_some_iff.1 hc'
  have htext : a.text = b.text := Std.LawfulEqOrd.eq_of_compare (Option.some.inj h)
  obtain ⟨hnumerator, hscale⟩ := Decimal.of_text_eq htext
  rw [Canonical.order?, hnumerator, hscale]
  exact congrArg some Std.ReflCmp.compare_self

end ScalarType

/-! ### Two fields of a record -/

/-- The script that compares two members of the document. -/
theorem run_comparisonScript_names (x y : String) (op : Comparison) (this : Json) :
    (comparisonScript [.name x] false op [.name y] false).run this =
      .ok (op.holds ((this.get? x).getD .null) ((this.get? y).getD .null)) := by
  have hmember : ∀ name, FieldRef.lookup [] this [.name name] = .ok (this.get? name) := by
    intro name
    have hroot : FieldRef.lookup [] this [] = .ok (some this) := rfl
    exact FieldRef.lookup_name hroot name
  have hcond : (Expr.compare op (.field [.name x]) (.field [.name y])).eval [] this =
      .ok (.bool (op.holds ((this.get? x).getD .null) ((this.get? y).getD .null))) :=
    eval_compare (eval_field (hmember x)) (eval_field (hmember y))
  have hscript : comparisonScript [.name x] false op [.name y] false =
    ⟨[.when (.compare op (.field [.name x]) (.field [.name y])) [.resultBool true]] ++
      [.resultBool false]⟩ := rfl
  rw [hscript, Script.run, Stmt.runBlock_append, runBlock_when hcond]
  cases op.holds ((this.get? x).getD .null) ((this.get? y).getD .null) <;> rfl

namespace Entity

variable {m : Mapper} {e : Entity} {d v w : Json} {r : Record} {x y : String} {t : ScalarType}

/-- A simple member of a document that is not the identifier is stored as its value in the type of
the field. -/
theorem exists_stored_of_encodeAs (hr : m.encodeAs e d = .ok r)
    (hx : e.members.get? x = some (.scalar t)) (hid : x ≠ m.options.idField)
    (hv : d.get? x = some v) : ∃ c, t.cast v = .ok c ∧ Fields.get? x r = some c.stored := by
  cases d with
  | object members =>
    obtain ⟨f, b, hf, hb, hstored⟩ := Mapper.get?_of_encodeMembers hr hv
    obtain rfl : .scalar t = f := Option.some.inj (hx.symm.trans hf)
    rw [Mapper.encodeField] at hb
    obtain ⟨c, hc, rfl⟩ := Mapper.encodeScalar_eq_ok_iff.1 hb
    have hpath : m.isIdPath (Path.child .root (.name x)) = false := by
      simpa [Mapper.isIdPath, Path.child, Path.root] using hid
    rw [hpath] at hstored
    exact ⟨c, hc, hstored⟩
  | _ => cases hv

/-- A simple field of the document is found, and is no array. -/
theorem exists_resolve_scalar (hx : e.members.get? x = some (.scalar t)) :
    ∃ c, e.root.resolve [.name x] = .ok c ∧ c.node.isArray = false := by
  have hfollow : (Field.object e.members).follow? [.name x] = some (.scalar t) := by
    rw [Field.follow?, Field.step?, hx]
    rfl
  rw [← resolve?_asField] at hfollow
  obtain ⟨c, hc, hfield⟩ := Option.map_eq_some_iff.1 hfollow
  have hroot : e.root.follow? [.name x] = some c := hc
  refine ⟨c, ?_, ?_⟩
  · rw [Cursor.resolve, hroot]
  · obtain ⟨node, trail⟩ := c
    rcases node with (_ | _ | _ | _ | _) | _ | _ <;> first | rfl | cases hfield

/-- The script of a comparison of two simple fields looks at what is stored for them. -/
theorem exists_script_compareFields {b b' : Bson} (op : Comparison)
    (hx : e.members.get? x = some (.scalar t)) (hy : e.members.get? y = some (.scalar t))
    (hb : Fields.get? x r = some b) (hb' : Fields.get? y r = some b') :
    ∃ s, (Query.compareFields [.name x] op [.name y]).script e = .ok s ∧
      s.runRecord r = .ok (op.holds b.toJson b'.toJson) := by
  obtain ⟨left, hleft, hleftArray⟩ := exists_resolve_scalar hx
  obtain ⟨right, hright, hrightArray⟩ := exists_resolve_scalar hy
  refine ⟨comparisonScript [.name x] false op [.name y] false, ?_, ?_⟩
  · rw [Query.script, hleft, hright, ok_bind, ok_bind, hleftArray, hrightArray]
    rfl
  · rw [Script.runRecord, run_comparisonScript_names, Bson.toJson_document, Json.get?, Json.get?,
      Fields.get?_map, Fields.get?_map, hb, hb']
    rfl

/-- The script that compares two simple fields of one type goes by the order that a script sees of
their values. For strings, integers and doubles that is the order of the type, and so it is for the
equality of big integers; decimals that are equal to the script are equal in value. -/
theorem runRecord_compareFields (op : Comparison) (ht : t.supportsOrdering = true)
    (hx : e.members.get? x = some (.scalar t)) (hy : e.members.get? y = some (.scalar t))
    (hxid : x ≠ m.options.idField) (hyid : y ≠ m.options.idField)
    (hr : m.encodeAs e d = .ok r) (hv : d.get? x = some v) (hw : d.get? y = some w)
    (hvnull : v ≠ .null) (hwnull : w ≠ .null)
    (hexact : ∀ c, t.cast v = .ok c ∨ t.cast w = .ok c → c.IsExact) :
    ∃ s c c', (Query.compareFields [.name x] op [.name y]).script e = .ok s ∧
      t.cast v = .ok c ∧ t.cast w = .ok c' ∧
      s.runRecord r = .ok (op.allows (c.scriptOrder? c')) ∧
      (t.keepsOrder op = true → s.runRecord r = .ok (op.allows (c.order? c'))) ∧
      (t = .bigDecimal → op = .eq → s.runRecord r = .ok true → c.order? c' = some .eq) := by
  obtain ⟨c, hc, hb⟩ := exists_stored_of_encodeAs hr hx hxid hv
  obtain ⟨c', hc', hb'⟩ := exists_stored_of_encodeAs hr hy hyid hw
  obtain ⟨s, hs, hrun⟩ := exists_script_compareFields op hx hy hb hb'
  rw [ScalarType.holds_stored ht hvnull hwnull hc hc' (hexact c (.inl hc)) (hexact c' (.inr hc'))]
    at hrun
  refine ⟨s, c, c', hs, hc, hc', hrun, fun hkeeps => ?_, ?_⟩
  · rw [hrun, ScalarType.allows_of_keepsOrder hvnull hwnull hc hc' hkeeps]
  · rintro rfl rfl htrue
    rw [hrun] at htrue
    exact ScalarType.order?_of_bigDecimal hvnull hwnull hc hc' (beq_iff_eq.1 (Except.ok.inj htrue))

/-- Two spellings of one number are equal, the first of them with blanks and zeros in front. -/
theorem runRecord_compareFields_spellings :
    let e : Entity := ⟨"stock", [("_id", .scalar .string), ("least", .scalar .bigInteger),
      ("count", .scalar .bigInteger)]⟩
    let m : Mapper := { entities := [] }
    let d : Json := .object [("count", .string " 007"), ("least", .int 7)]
    let r : Record := [("count", .string "7"), ("least", .string "7")]
    m.encodeAs e d = .ok r ∧
      ∃ s, (Query.compareFields [.name "count"] .eq [.name "least"]).script e = .ok s ∧
        s.runRecord r = .ok true := by
  intro e m d r
  have hr : m.encodeAs e d = .ok r := by rfl
  have hexact : ∀ c, ScalarType.bigInteger.cast (.string " 007") = .ok c ∨
      ScalarType.bigInteger.cast (.int 7) = .ok c → c.IsExact := by
    rintro c (hc | hc)
    · obtain rfl : .bigInteger 7 = c := Except.ok.inj hc
      trivial
    · obtain rfl : .bigInteger 7 = c := Except.ok.inj hc
      trivial
  obtain ⟨s, c, c', hs, hc, hc', -, hkeeps, -⟩ :=
    runRecord_compareFields (m := m) (e := e) (x := "count") (y := "least") .eq rfl rfl rfl
      (by decide) (by decide) hr rfl rfl nofun nofun hexact
  obtain rfl : .bigInteger 7 = c := Except.ok.inj hc
  obtain rfl : .bigInteger 7 = c' := Except.ok.inj hc'
  exact ⟨hr, s, hs, hkeeps rfl⟩

/-- Nine is less than ten, but its text is not before that of ten. -/
theorem big_integers_out_of_order :
    let e : Entity := ⟨"stock", [("objectType", .scalar .string), ("least", .scalar .bigInteger),
      ("count", .scalar .bigInteger)]⟩
    let m : Mapper := { entities := [] }
    let d : Json := .object [("objectType", .string "stock"), ("least", .string "9"),
      ("count", .string "10")]
    ∃ r s, m.encodeAs e d = .ok r ∧
      (Query.compareFields [.name "least"] .lt [.name "count"]).script e = .ok s ∧
      ScalarType.bigInteger.cast (.string "9") = .ok (.bigInteger 9) ∧
      ScalarType.bigInteger.cast (.string "10") = .ok (.bigInteger 10) ∧
      (Canonical.bigInteger 9).order? (.bigInteger 10) = some .lt ∧ s.runRecord r = .ok false :=
  ⟨_, _, rfl, rfl, rfl, rfl, rfl, rfl⟩

end Entity

end Docstore
