import Docstore.Proofs.Entity.Declared
import Docstore.Proofs.Entity.Listing
import Docstore.Proofs.Fields

/-!
# Paths of names

Outside of arrays a path consists of member names, and its dotted form can be taken apart again when
no name has a dot.

* `Path.ofNames` : the path of names;
* `Path.dottedNames` : the names in a dotted text;
* `Path.dottedNames_intercalate` : names without dots are found between the dots;
* `Path.dottedNames_storageText` : the key of a path of names has these names;
* `Entity.DotFree` : no declared name has a dot;
* `Cursor.exists_ofNames` : a path to a field outside of arrays is one of names.
-/

namespace Docstore

namespace Path

/-- The path of names, one inside the other. -/
def ofNames (names : List String) : Path := names.map .name

/-- The names between the dots of a text. -/
def dottedNames (text : String) : List String := (splitDots text.toList).map String.ofList

theorem splitDots_of_not_mem {part : List Char} (h : '.' ∉ part) : splitDots part = [part] := by
  induction part with
  | nil => rfl
  | cons c rest ih =>
    obtain ⟨hc, hrest⟩ := not_or.1 (mt List.mem_cons.2 h)
    rw [splitDots, if_neg (Ne.symm hc), ih hrest]

theorem splitDots_ne_nil (cs : List Char) : splitDots cs ≠ [] := by
  cases cs with
  | nil => exact List.cons_ne_nil _ _
  | cons c rest =>
    rw [splitDots]
    split
    · exact List.cons_ne_nil _ _
    · split <;> exact List.cons_ne_nil _ _

/-- The parts of two texts with a dot between them are those of the one and those of the other. -/
theorem splitDots_append_dot (cs rest : List Char) :
    splitDots (cs ++ '.' :: rest) = splitDots cs ++ splitDots rest := by
  induction cs with
  | nil => rfl
  | cons c more ih =>
    rw [List.cons_append, splitDots, splitDots, ih]
    by_cases hc : c = '.'
    · rw [if_pos hc, if_pos hc]
      rfl
    · rw [if_neg hc, if_neg hc]
      cases hmore : splitDots more with
      | nil => exact absurd hmore (splitDots_ne_nil more)
      | cons part parts => rfl

/-- Parts without dots are found between the dots. -/
theorem splitDots_intercalate {parts : List (List Char)} (hne : parts ≠ [])
    (h : ∀ part ∈ parts, '.' ∉ part) : splitDots (['.'].intercalate parts) = parts := by
  induction parts with
  | nil => exact absurd rfl hne
  | cons part rest ih =>
    have hpart := h part List.mem_cons_self
    cases rest with
    | nil =>
      rw [List.intercalate_singleton]
      exact splitDots_of_not_mem hpart
    | cons next more =>
      rw [List.intercalate_cons_cons, List.append_assoc, List.singleton_append,
        splitDots_append_dot, splitDots_of_not_mem hpart, List.singleton_append,
        ih (List.cons_ne_nil _ _) fun p hp => h p (List.mem_cons_of_mem _ hp)]

theorem storageText_ofNames (names : List String) :
    (ofNames names).storageText = ".".intercalate names := by
  have hfilter : (ofNames names).filter (fun s => !s.isAny) = ofNames names := by
    refine List.filter_eq_self.2 fun s hs => ?_
    obtain ⟨name, -, rfl⟩ := List.mem_map.1 hs
    rfl
  rw [storageText, hfilter, text, ofNames, List.map_map]
  exact congrArg _ (List.map_id _)

/-- Names without dots are found between the dots. -/
theorem dottedNames_intercalate {names : List String} (hne : names ≠ [])
    (h : ∀ name ∈ names, '.' ∉ name.toList) : dottedNames (".".intercalate names) = names := by
  have hparts : splitDots (['.'].intercalate (names.map String.toList)) =
      names.map String.toList := by
    refine splitDots_intercalate (by simpa using hne) fun part hpart => ?_
    obtain ⟨name, hname, rfl⟩ := List.mem_map.1 hpart
    exact h name hname
  have hofList : (String.ofList ∘ String.toList) = id := funext fun s => String.ofList_toList
  rw [dottedNames, String.toList_intercalate]
  refine (congrArg (List.map String.ofList) hparts).trans ?_
  rw [List.map_map, hofList, List.map_id]

/-- The names of two texts with a dot between them are those of the one and those of the other. -/
theorem dottedNames_append_dot (text rest : String) :
    dottedNames (text ++ "." ++ rest) = dottedNames text ++ dottedNames rest := by
  have hlist : (text ++ "." ++ rest).toList = text.toList ++ '.' :: rest.toList := by
    simp [String.toList_append]
  rw [dottedNames, hlist, splitDots_append_dot, List.map_append]
  rfl

/-- The key of a path of names without dots has these names. -/
theorem dottedNames_storageText {names : List String} (hne : names ≠ [])
    (h : ∀ name ∈ names, '.' ∉ name.toList) : dottedNames (ofNames names).storageText = names := by
  rw [storageText_ofNames, dottedNames_intercalate hne h]

end Path

/-! ### Names without dots -/

namespace Field

mutual

/-- No declared name below the field has a dot. -/
def DotFree : Field → Prop
  | .object members => MembersDotFree members
  | .objectArray members => MembersDotFree members
  | _ => True

/-- No name of these members has a dot, and none below them. -/
def MembersDotFree : List (String × Field) → Prop
  | [] => True
  | (name, field) :: rest => '.' ∉ name.toList ∧ DotFree field ∧ MembersDotFree rest

end

theorem MembersDotFree.of_get? {members : Members} (h : MembersDotFree members) {name : String}
    {f : Field} (hf : members.get? name = some f) : '.' ∉ name.toList ∧ f.DotFree := by
  induction members with
  | nil => cases hf
  | cons member rest ih =>
    obtain ⟨key, g⟩ := member
    by_cases hkey : key = name
    · subst hkey
      rw [Fields.get?_cons_self] at hf
      obtain rfl := Option.some.inj hf
      exact ⟨h.1, h.2.1⟩
    · rw [Fields.get?_cons_of_ne hkey] at hf
      exact ih h.2.2 hf

theorem DotFree.step? {f below : Field} {s : Segment} (h : f.DotFree)
    (hstep : f.step? s = some below) :
    below.DotFree ∧ ∀ name, s = .name name → '.' ∉ name.toList := by
  cases f with
  | object members =>
    cases s with
    | name key =>
      obtain ⟨hkey, hbelow⟩ := MembersDotFree.of_get? h hstep
      refine ⟨hbelow, fun name hname => ?_⟩
      obtain rfl := Segment.name.inj hname
      exact hkey
    | _ => cases hstep
  | scalarArray t => cases s <;> cases hstep <;> exact ⟨trivial, nofun⟩
  | objectArray members => cases s <;> cases hstep <;> exact ⟨h, nofun⟩
  | _ => cases hstep

/-- A path that leads somewhere in a declaration without dots has names without dots. -/
theorem DotFree.not_mem_of_name_mem {f g : Field} {p : Path} (h : f.DotFree)
    (hf : f.follow? p = some g) {name : String} (hname : .name name ∈ p) : '.' ∉ name.toList := by
  induction p generalizing f with
  | nil => cases hname
  | cons s rest ih =>
    obtain ⟨below, hstep, hbelow⟩ := Option.bind_eq_some_iff.1 hf
    obtain ⟨hdot, hs⟩ := h.step? hstep
    rcases List.mem_cons.1 hname with hname | hname
    · exact hs name hname.symm
    · exact ih hdot hbelow hname

theorem DotFree.not_mem_of_follow? {f g : Field} {names : List String} (h : f.DotFree)
    (hf : f.follow? (Path.ofNames names) = some g) : ∀ name ∈ names, '.' ∉ name.toList :=
  fun _ hname => h.not_mem_of_name_mem hf (List.mem_map_of_mem hname)

end Field

/-- No declared name of an entity has a dot. -/
def Entity.DotFree (e : Entity) : Prop := (Field.object e.members).DotFree

/-! ### Fields outside of arrays -/

namespace Cursor

variable {c c' : Cursor} {s : Segment} {p : Path}

theorem trail_of_findMember? {parent : Node} {trail : List Step} {key : String} {i : Nat}
    {members : Members} (h : findMember? parent trail key i members = some c) :
    ∃ j label, c.trail = ⟨j, label, parent⟩ :: trail := by
  induction members generalizing i with
  | nil => cases h
  | cons member rest ih =>
    obtain ⟨name, f⟩ := member
    rw [findMember?] at h
    split at h
    · obtain rfl := Option.some.inj h
      exact ⟨i, _, rfl⟩
    · exact ih h

theorem ancestors_of_step? (h : c.step? s = some c') : c'.ancestors = c' :: c.ancestors := by
  have htrail : ∃ j label, c'.trail = ⟨j, label, c.node⟩ :: c.trail := by
    have helement : c.element? = some c' → ∃ j label, c'.trail = ⟨j, label, c.node⟩ :: c.trail := by
      intro h
      obtain ⟨node, -, rfl⟩ := Option.map_eq_some_iff.1 h
      exact ⟨_, _, rfl⟩
    cases s with
    | name key => exact trail_of_findMember? h
    | index i => exact helement h
    | any => exact helement h
  obtain ⟨j, label, htrail⟩ := htrail
  rw [ancestors, htrail]
  rfl

theorem insideArray_of_step? (h : c.step? s = some c') (hc : c.insideArray = true) :
    c'.insideArray = true := by
  rw [insideArray, ancestors_of_step? h, List.any_cons]
  exact Bool.or_eq_true_iff.2 (.inr hc)

theorem insideArray_of_element? (h : c.element? = some c') : c'.insideArray = true := by
  have hnode : c'.node.isElement = true := by
    obtain ⟨node, hnode, rfl⟩ := Option.map_eq_some_iff.1 h
    obtain ⟨parent, trail⟩ := c
    rcases parent with (_ | _ | _ | _ | _) | _ | _ <;> cases hnode <;> rfl
  rw [insideArray, ancestors, List.any_cons, hnode, Bool.or_true, Bool.true_or]

theorem insideArray_of_follow? (h : c.follow? p = some c') (hc : c.insideArray = true) :
    c'.insideArray = true := by
  induction p generalizing c with
  | nil =>
    obtain rfl := Option.some.inj h
    exact hc
  | cons s rest ih =>
    obtain ⟨below, hstep, h⟩ := Option.bind_eq_some_iff.1 h
    exact ih h (insideArray_of_step? hstep hc)

/-- A path out of arrays takes names only. -/
theorem exists_ofNames (h : c.follow? p = some c') (hc : c'.insideArray = false) :
    ∃ names, p = Path.ofNames names := by
  induction p generalizing c with
  | nil => exact ⟨[], rfl⟩
  | cons s rest ih =>
    obtain ⟨below, hstep, h⟩ := Option.bind_eq_some_iff.1 h
    obtain ⟨names, rfl⟩ := ih h
    have helement : c.element? ≠ some below := by
      intro helement
      rw [insideArray_of_follow? h (insideArray_of_element? helement)] at hc
      cases hc
    cases s with
    | name key => exact ⟨key :: names, rfl⟩
    | index i => exact absurd hstep helement
    | any => exact absurd hstep helement

end Cursor

end Docstore
