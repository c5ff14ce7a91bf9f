import Docstore.Proofs.Entity.Declared
import Docstore.Proofs.Identifier
import Docstore.Proofs.Record.Decoding
import Docstore.Proofs.Record.Encoding

/-!
# Positions of documents

* `Json.follow?` : the value at a position of a document;
* `Json.replaceAt` : the document with another value there;
* `Mapper.Encodes.step?`, `Mapper.Encodes.of_step?` : one step down, in the document and in what is
  stored for it;
* `Mapper.Encodes.follow?` : what is stored at a position is the stored form of the value there;
* `Mapper.Encodes.of_follow?`, `Mapper.Encodes.exists_follow?` : nothing else is stored, but for the
  parts of free-form values;
* `Mapper.encodeAs_eq_error` : a value that cannot be cast is the reason why a document cannot be
  encoded, when nothing else is.
-/

namespace Docstore

namespace Json

/-- The value one step below; a wildcard leads nowhere. -/
def step? (value : Json) : Segment → Option Json
  | .name key => value.get? key
  | .index i => value.at? i
  | .any => none

/-- The value that the steps of a path lead to. -/
def follow? : Path → Json → Option Json
  | [], value => some value
  | s :: rest, value => (value.step? s).bind (follow? rest)

/-- The document with another value at a position. Where the path leads nowhere nothing changes. -/
def replaceAt : (document : Json) → Path → (new : Json) → Json
  | _, [], new => new
  | .object members, .name key :: rest, new =>
    match Fields.get? key members with
    | some value => .object (Fields.insert key (value.replaceAt rest new) members)
    | none => .object members
  | .array items, .index i :: rest, new =>
    .array (items.modify i fun item => item.replaceAt rest new)
  | value, _, _ => value

end Json

/-- A walk with another element at one place, where it takes a step that stops, succeeds only if
the walk itself stops there. -/
theorem Elementwise.eq_error_of_modify {ε α β : Type} {walk : Nat → List α → Except ε (List β)}
    {step : Nat → α → Except ε β} (h : Elementwise walk step) {as : List α} {bs : List β}
    {i start : Nat} {a : α} {err : ε} {g : α → α} (ha : as[i]? = some a)
    (hwalk : walk start (as.modify i g) = .ok bs)
    (hstep : ∀ b, step (start + i) (g a) = .ok b → step (start + i) a = .error err) :
    walk start as = .error err := by
  induction as generalizing i start bs with
  | nil => cases ha
  | cons first rest ih =>
    cases i with
    | zero =>
      obtain rfl := Option.some.inj ha
      rw [Nat.add_zero] at hstep
      rw [List.modify_zero_cons, h.cons] at hwalk
      obtain ⟨b, hb, -⟩ := bind_eq_ok_iff.1 hwalk
      rw [h.cons, hstep b hb]
      rfl
    | succ i =>
      rw [List.modify_succ_cons, h.cons] at hwalk
      obtain ⟨b, hb, hwalk⟩ := bind_eq_ok_iff.1 hwalk
      obtain ⟨more, hmore, -⟩ := bind_eq_ok_iff.1 hwalk
      rw [index_succ] at hstep
      rw [h.cons, hb, ih ha hmore hstep]
      rfl

namespace Mapper

variable {m : Mapper} {path : Path} {f g : Field} {v found : Json} {b : Bson}

/-- Simple values are cast, and identifiers take their one form. -/
theorem encodeScalar_eq_ok_iff {t : ScalarType} {path : Path} {v : Json} {b : Bson} :
    m.encodeScalar t path v = .ok b ↔
      ∃ c, t.cast v = .ok c ∧ b = if m.isIdPath path then c.stored.asIdentifier else c.stored := by
  rw [encodeScalar, bind_eq_ok_iff]
  simp only [inPhase_eq_ok_iff]
  refine exists_congr fun c => and_congr_right fun _ => ?_
  by_cases hnull : c.isNull = true
  · have hc : c = .null := by cases c <;> first | rfl | cases hnull
    subst hc
    by_cases hid : m.isIdPath path = true <;>
      simp [Canonical.isNull, hid, Canonical.stored, Bson.asIdentifier, pure_eq_ok_iff,
        @eq_comm _ b]
  · by_cases hid : m.isIdPath path = true <;> simp [hnull, hid, pure_eq_ok_iff, @eq_comm _ b]

theorem Encodes.encodeScalar_eq {t : ScalarType} (h : m.Encodes path (.scalar t) v b) :
    m.encodeScalar t path v = .ok b := by
  cases h with
  | scalar h => exact h
  | null h => exact encodeScalar_null t path

/-- What is stored one step below a value is the stored form of the value there. -/
theorem Encodes.step? {s : Segment} {below : Field} {w : Json} (h : m.Encodes path f v b)
    (hf : f.step? s = some below) (hv : v.step? s = some w) :
    ∃ c, b.step? s = some c ∧ m.Encodes (path.child s) below w c := by
  cases h with
  | scalar h => cases hf
  | null h => cases s <;> cases hv
  | @object _ members d r hkeys hdeclared hbelow =>
    cases s with
    | name key =>
      have hd : Fields.get? key d = some w := hv
      obtain ⟨c, hc⟩ := Fields.exists_get?_of_keys hkeys.symm hd
      exact ⟨c, hc, hbelow key below w c hf hd hc⟩
    | _ => cases hf
  | @scalarArray _ t items stored hlength hbelow =>
    cases s with
    | index i =>
      obtain rfl := Option.some.inj hf
      obtain ⟨c, hc⟩ := getElem?_of_length hlength hv
      exact ⟨c, hc, hbelow i w c hv hc⟩
    | name key => cases hf
    | any => cases hv
  | @objectArray _ members items stored hlength hbelow =>
    cases s with
    | index i =>
      obtain rfl := Option.some.inj hf
      obtain ⟨c, hc⟩ := getElem?_of_length hlength hv
      exact ⟨c, hc, hbelow i w c hv hc⟩
    | name key => cases hf
    | any => cases hv

/-- Only free-form values are stored with values inside. -/
theorem eq_any_of_step? {t : ScalarType} {s : Segment} {c : Bson}
    (h : m.encodeScalar t path v = .ok b) (hc : b.step? s = some c) : t = .any := by
  obtain ⟨canonical, hcast, rfl⟩ := encodeScalar_eq_ok_iff.1 h
  split at hc
  · rcases canonical.stored.asIdentifier_form with h | ⟨id, h⟩ | ⟨text, h⟩ <;> rw [h] at hc <;>
      cases hc
  · cases canonical with
    | any value => exact ScalarType.eq_any_of_cast hcast
    | _ => cases hc

/-- A step into what is stored is a step in the declaration and in the document, unless a
free-form value is entered. -/
theorem Encodes.of_step? {s : Segment} {c : Bson} (h : m.Encodes path f v b)
    (hc : b.step? s = some c) :
    f = .scalar .any ∨ ∃ below w, f.step? s = some below ∧ v.step? s = some w ∧
      m.Encodes (path.child s) below w c := by
  cases h with
  | scalar h => exact .inl (congrArg Field.scalar (eq_any_of_step? h hc))
  | null h => cases hc
  | @object _ members d r hkeys hdeclared hbelow =>
    cases s with
    | name key =>
      have hr : Fields.get? key r = some c := hc
      obtain ⟨w, hw⟩ := Fields.exists_get?_of_keys hkeys hr
      obtain ⟨below, hf⟩ : ∃ below, members.get? key = some below := by
        refine Option.ne_none_iff_exists'.1 (hdeclared key ?_)
        exact List.mem_map_of_mem (Fields.mem_of_get?_eq_some hw)
      exact .inr ⟨below, w, hf, hw, hbelow key below w c hf hw hr⟩
    | _ => cases hc
  | @scalarArray _ t items stored hlength hbelow =>
    cases s with
    | index i =>
      obtain ⟨w, hw⟩ := getElem?_of_length hlength.symm hc
      exact .inr ⟨.scalar t, w, rfl, hw, hbelow i w c hw hc⟩
    | _ => cases hc
  | @objectArray _ members items stored hlength hbelow =>
    cases s with
    | index i =>
      obtain ⟨w, hw⟩ := getElem?_of_length hlength.symm hc
      exact .inr ⟨.object members, w, rfl, hw, hbelow i w c hw hc⟩
    | _ => cases hc

/-- What is stored at a position is the stored form of the value there. -/
theorem Encodes.follow? {p : Path} (h : m.Encodes path f v b) (hg : f.follow? p = some g)
    (hfound : v.follow? p = some found) :
    ∃ stored, Bson.follow? p b = some stored ∧ m.Encodes (path ++ p) g found stored := by
  induction p generalizing path f v b with
  | nil =>
    obtain rfl : f = g := Option.some.inj hg
    obtain rfl : v = found := Option.some.inj hfound
    exact ⟨b, by rw [Bson.follow?], by rwa [List.append_nil]⟩
  | cons s rest ih =>
    obtain ⟨below, hf, hbelow⟩ := Option.bind_eq_some_iff.1 hg
    obtain ⟨w, hv, hw⟩ := Option.bind_eq_some_iff.1 hfound
    obtain ⟨c, hc, hencodes⟩ := h.step? hf hv
    obtain ⟨stored, hstored, hencodes⟩ := ih hencodes hbelow hw
    rw [Path.child, List.append_assoc] at hencodes
    exact ⟨stored, by rw [Bson.follow?_cons, hc]; exact hstored, hencodes⟩

/-- What is found at a path is the stored form of the value there, or part of a free-form value. -/
theorem Encodes.of_follow? {p : Path} {stored : Bson} (h : m.Encodes path f v b)
    (hb : Bson.follow? p b = some stored) :
    (∃ g found, f.follow? p = some g ∧ v.follow? p = some found ∧
      m.Encodes (path ++ p) g found stored) ∨ f.FreeFormAbove p := by
  induction p generalizing path f v b with
  | nil =>
    obtain rfl : b = stored := Option.some.inj hb
    exact .inl ⟨f, v, rfl, rfl, by rwa [List.append_nil]⟩
  | cons s rest ih =>
    rw [Bson.follow?_cons] at hb
    obtain ⟨c, hc, hrest⟩ := Option.bind_eq_some_iff.1 hb
    rcases h.of_step? hc with rfl | ⟨below, w, hf, hv, hencodes⟩
    · exact .inr ⟨[], List.nil_prefix, (List.cons_ne_nil s rest).symm, rfl⟩
    · refine (ih hencodes hrest).imp ?_ (.cons hf)
      rintro ⟨g, found, hg, hfound, hencodes⟩
      rw [Path.child, List.append_assoc] at hencodes
      exact ⟨g, found, Option.bind_eq_some_iff.2 ⟨below, hf, hg⟩,
        Option.bind_eq_some_iff.2 ⟨w, hv, hfound⟩, hencodes⟩

/-- Only what stands at a position of a document is stored there. -/
theorem Encodes.exists_follow? {p : Path} {stored : Bson} (hreach : f.Reaches b p g stored)
    (h : m.Encodes path f v b) :
    ∃ found, v.follow? p = some found ∧ m.Encodes (path ++ p) g found stored := by
  obtain ⟨hg, hstored⟩ := Field.reaches_iff.1 hreach
  rcases h.of_follow? hstored with ⟨g', found, hg', hfound, hencodes⟩ | habove
  · obtain rfl := Option.some.inj (hg.symm.trans hg')
    exact ⟨found, hfound, hencodes⟩
  · rw [habove.follow?_eq_none] at hg
    cases hg

/-! ### Values that cannot be cast -/

theorem encodeMembers_eq_error_of_insert {declared : Members} {members : List (String × Json)}
    {key : String} {w w' : Json} {r : List (String × Bson)} {err : Error}
    (hw : Fields.get? key members = some w)
    (hr : m.encodeMembers declared path (Fields.insert key w' members) = .ok r)
    (hstep : ∀ f b, declared.get? key = some f →
      m.encodeField (path.child (.name key)) f w' = .ok b →
        m.encodeField (path.child (.name key)) f w = .error err) :
    m.encodeMembers declared path members = .error err := by
  induction members generalizing r with
  | nil => cases hw
  | cons member rest ih =>
    obtain ⟨name, old⟩ := member
    rw [Fields.insert] at hr
    by_cases hname : name = key
    · subst hname
      obtain rfl : old = w := Option.some.inj ((Fields.get?_cons_self _ _ _).symm.trans hw)
      rw [if_pos rfl] at hr
      obtain ⟨f, b, more, hf, hb, -, -⟩ := encodeMembers_cons_eq_ok_iff.1 hr
      rw [encodeMembers_cons hf, hstep f b hf hb]
      rfl
    · rw [if_neg hname] at hr
      rw [Fields.get?_cons_of_ne hname] at hw
      obtain ⟨f, b, more, hf, hb, hmore, -⟩ := encodeMembers_cons_eq_ok_iff.1 hr
      rw [encodeMembers_cons hf, hb, ih hw hmore]
      rfl

/-- A field whose value has one simple value that cannot be cast is not encoded for that reason,
when nothing else prevents it. -/
theorem encodeField_eq_error {p : Path} {t : ScalarType} {cause : CastError}
    (hf : f.follow? p = some (.scalar t)) (hv : v.follow? p = some found)
    (hcast : t.cast found = .error cause)
    (hb : m.encodeField path f (v.replaceAt p .null) = .ok b) :
    m.encodeField path f v = .error (.conversion .encode cause) := by
  induction p generalizing path f v b with
  | nil =>
    obtain rfl : f = .scalar t := Option.some.inj hf
    obtain rfl : v = found := Option.some.inj hv
    rw [encodeField, encodeScalar, hcast]
    rfl
  | cons s rest ih =>
    obtain ⟨below, hstep, hbelow⟩ := Option.bind_eq_some_iff.1 hf
    obtain ⟨w, hw, hfound⟩ := Option.bind_eq_some_iff.1 hv
    cases s with
    | any => cases hw
    | name key =>
      cases v with
      | object members =>
        have hw : Fields.get? key members = some w := hw
        cases f with
        | object declared =>
          rw [Json.replaceAt, hw, encodeField] at hb
          obtain ⟨r, hr, -⟩ := bind_eq_ok_iff.1 hb
          rw [encodeField, encodeMembers_eq_error_of_insert hw hr fun f b hf' hb => ?_]
          · rfl
          · obtain rfl : f = below := Option.some.inj (hf'.symm.trans hstep)
            exact ih hbelow hfound hb
        | _ => cases hstep
      | _ => cases hw
    | index i =>
      cases v with
      | array items =>
        have hw : items[i]? = some w := hw
        rw [Json.replaceAt] at hb
        cases f with
        | scalarArray t' =>
          obtain rfl := Option.some.inj hstep
          rw [encodeField] at hb
          obtain ⟨stored, hstored, -⟩ := bind_eq_ok_iff.1 hb
          have hbelow' : ∀ b, m.encodeScalar t' (path.child (.index (0 + i)))
              (w.replaceAt rest .null) = .ok b → m.encodeScalar t' (path.child (.index (0 + i))) w =
                .error (.conversion .encode cause) := by
            intro b hb
            rw [← encodeField] at hb ⊢
            exact ih hbelow hfound hb
          rw [encodeField,
            (encodeScalars_elementwise t' path).eq_error_of_modify hw hstored hbelow']
          rfl
        | objectArray declared =>
          obtain rfl := Option.some.inj hstep
          rw [encodeField] at hb
          obtain ⟨stored, hstored, -⟩ := bind_eq_ok_iff.1 hb
          have herror := (encodeElements_elementwise declared path).eq_error_of_modify hw hstored
            fun b hb => ih hbelow hfound hb
          rw [encodeField, herror]
          rfl
        | _ => cases hstep
      | _ => cases hw

theorem encodeField_root (e : Entity) (members : List (String × Json)) :
    m.encodeField .root (.object e.members) (.object members) =
      (m.encodeAs e (.object members)).map .document := by
  rw [encodeField, encodeAs]
  cases m.encodeMembers e.members .root members <;> rfl

/-- A document with one simple value that cannot be cast is not encoded for that reason, when
nothing else prevents it. -/
theorem encodeAs_eq_error {e : Entity} {d : Json} {p : Path} {t : ScalarType} {cause : CastError}
    (hf : (Field.object e.members).follow? p = some (.scalar t)) (hd : d.follow? p = some found)
    (hcast : t.cast found = .error cause) (hb : ∃ r, m.encodeAs e (d.replaceAt p .null) = .ok r) :
    m.encodeAs e d = .error (.conversion .encode cause) := by
  obtain ⟨key, rest, rfl⟩ : ∃ key rest, p = .name key :: rest := by
    cases p with
    | nil => cases hf
    | cons s rest => cases s <;> first | exact ⟨_, _, rfl⟩ | cases hf
  cases d with
  | object members =>
    obtain ⟨r, hr⟩ := hb
    obtain ⟨members', hreplace⟩ : ∃ members', Json.replaceAt (.object members) (.name key :: rest)
        .null = .object members' := by
      rw [Json.replaceAt]
      split <;> exact ⟨_, rfl⟩
    have hb : m.encodeField .root (.object e.members)
        (Json.replaceAt (.object members) (.name key :: rest) .null) = .ok (.document r) := by
      rw [hreplace] at hr ⊢
      rw [encodeField_root, hr]
      rfl
    have herror := encodeField_eq_error hf hd hcast hb
    rw [encodeField_root] at herror
    cases hencode : m.encodeAs e (.object members) with
    | ok r => rw [hencode] at herror; cases herror
    | error err =>
      rw [hencode] at herror
      obtain rfl := Except.error.inj herror
      rfl
  | _ => cases hd

end Mapper

end Docstore
