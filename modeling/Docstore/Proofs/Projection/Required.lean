import Docstore.Proofs.Entity.Leaves
import Docstore.Proofs.Query.Scripts
import Docstore.Proofs.Script.Cut

/-!
# Predicates on required fields

A store that delivers no more than the required fields of a query delivers enough for its script.

* `Entity.keeps_requiredFields` : the required fields overlap every path that a query reads;
* `Query.blockWatches_script` : the script of a query looks at nothing beyond the required fields;
* `Query.run_cut_requiredFields` : its answer is the same without everything else.

A path to an object is represented by the leaves below the object. That is enough because a script
sees of an object only that it is one.
-/

namespace Docstore

variable {e : Entity} {q : Query} {paths : List Path} {p : Path} {c : Cursor}

/-! ### What is required -/

namespace Entity

/-- The required fields overlap every node that a query reads, and its elements unless it is an
object. -/
theorem keeps_requiredFields (he : e.Populated) (hread : p ∈ q.fieldsRead .root)
    (h : e.resolve? p = some c) :
    Path.Keeps (e.requiredFields { query := some q }) p.labels ∧
      (c.node.isObject = false →
        Path.Keeps (e.requiredFields { query := some q }) (p.labels ++ [.any])) := by
  obtain ⟨leaf, hmem, hlabels, hoverlaps, hany⟩ := exists_leaf_of_resolve? he h
  have hrequired : leaf ∈ e.requiredFields { query := some q } := by
    have hp : p.overlaps leaf = true := by
      rw [Path.overlaps_comm]
      exact (Path.overlaps_labels hlabels p).symm.trans hoverlaps
    have hq : q.requires leaf = true := List.any_eq_true.2 ⟨p, hread, hp⟩
    refine mem_requiredFields.2 ⟨hmem, ?_⟩
    rw [Demand.requires]
    simp [hq]
  exact ⟨⟨leaf, hrequired, hlabels, hoverlaps⟩, fun hnode =>
    ⟨leaf, hrequired, hlabels, hany hnode⟩⟩

end Entity

theorem Node.isObject_eq_false_of_isArray {n : Node} (h : n.isArray = true) :
    n.isObject = false := by
  rcases n with (_ | _ | _ | _ | _) | _ | _ <;> first | rfl | cases h

/-! ### Queries -/

/-- The right operand of a membership test does not resolve to an object. -/
def Query.SearchesNoObject (e : Entity) : Query → Prop
  | .memberOf _ _ array => ∀ c, e.resolve? array = some c → c.node.isObject = false
  | _ => True

namespace Query

/-- A query that searches no object runs through none. -/
theorem SearchesNoObject.isObject_eq_false (hq : q.SearchesNoObject e) (h : e.resolve? p = some c)
    (hruns : q.RunsThrough p c) : c.node.isObject = false := by
  cases q with
  | memberOf field op array =>
    obtain rfl : p = array := hruns
    exact hq c h
  | _ => exact Node.isObject_eq_false_of_isArray hruns

/-- Everything that the script of a query looks at is required by the query. -/
theorem blockWatches_script {s : Script} (he : e.Populated) (hq : q.SearchesNoObject e)
    (hs : q.script e = .ok s) :
    Stmt.BlockWatches (Path.Keeps (e.requiredFields { query := some q })) [] s.body := by
  refine blockWatches_script_of Path.Keeps.of_append (fun p c hread h => ?_) hs
  obtain ⟨hkeeps, hbelow⟩ := Entity.keeps_requiredFields he hread h
  exact ⟨hkeeps, fun hruns => hbelow (hq.isObject_eq_false h hruns)⟩

/-- The script of a query gives the same answer, or stops in the same way, on a document that is
cut to the required fields of the query. -/
theorem run_cut_requiredFields {s : Script} (he : e.Populated) (hq : q.SearchesNoObject e)
    (hs : q.script e = .ok s) (d : Json) :
    s.run (d.cut (e.requiredFields { query := some q })) = s.run d := by
  rw [Script.run, Script.run, Stmt.runBlock_cut (blockWatches_script he hq hs)]

/-- Whether the owner of a table is the lead of some row: of the owner the name alone is needed. -/
theorem run_cut_requiredFields_lead :
    let person : Field := .object [("name", .scalar .string)]
    let e : Entity := ⟨"table", [("owner", person), ("title", .scalar .string),
      ("rows", .objectArray [("open", .scalar .boolean), ("lead", person)])]⟩
    let q : Query := .compareFields [.name "owner"] .eq [.name "rows", .any, .name "lead"]
    let ann : Json := .object [("name", .string "Ann"), ("age", .int 40)]
    let d : Json := .object [("title", .string "first"), ("owner", ann),
      ("rows", .array [.string "none", .object [("open", .bool true), ("lead", .null)]])]
    ∃ s, q.script e = .ok s ∧ e.Populated ∧
      d.cut (e.requiredFields { query := some q }) = .object [("owner", .object [("name",
        .string "Ann")]), ("rows", .array [.string "none", .object [("lead", .null)]])] ∧
      s.run (d.cut (e.requiredFields { query := some q })) = s.run d := by
  intro person e q ann d
  have he : e.Populated := by
    simp [e, person, Entity.Populated, Field.Populated, Field.MembersPopulated]
  exact ⟨_, rfl, he, rfl, run_cut_requiredFields (q := q) he trivial rfl d⟩

end Query

end Docstore
