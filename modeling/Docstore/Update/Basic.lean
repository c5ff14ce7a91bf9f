import Docstore.Query.Basic

/-!
# Updates

* `Source` : what a field is set to;
* `Update` : a change of a document.
-/

namespace Docstore

/-- What a field is set to, or what is added to it. -/
inductive Source where
  | value (value : Json)
  /-- The value of another field. -/
  | field (path : Path)
  | emptyObject
  | emptyArray

/-- A change of a document. -/
inductive Update where
  | assign (op : Assignment) (fields : List (Path × Source))
  | unset (fields : List Path)
  /-- Values behind the last element of an array. -/
  | append (array : Path) (values : List Source)
  /-- Values between the elements of an array. -/
  | insert (array : Path) (values : List Source)
  /-- An update of every element that satisfies a query. -/
  | forEach (array : Path) (filter : Query) (update : Update)
  /-- Updates one after another. -/
  | sequence (updates : List Update)

end Docstore
