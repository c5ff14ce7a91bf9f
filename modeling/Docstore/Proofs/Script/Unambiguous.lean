import Docstore.Proofs.Text.Numerals
import Docstore.Script.Text

/-!
# The text of a script tells what it is

No two scripts have the same text, when their names are such that a text can be read at all.

* `Script.IsName`, `Script.IsVariable` : the names of members and of variables;
* `Script.WellNamed` : all names of a script are such names, and no comparison is compared;
* `FieldRef.eq_of_text` : chains are told apart with what follows them;
* `Expr.eq_of_text` : expressions are;
* `Stmt.apart`, `Stmt.blockApart` : statements are, one by one and in braces;
* `Script.eq_of_text` : and so are whole scripts.

Every part is shown to be told apart from others of its kind, with what follows it: the text of a
part and of what may follow it is that of no other part. Texts are read word by word, a word being
as many characters of names as there are (`eq_of_word`). The first word of a statement or an
expression tells its kind, since no variable is a reserved word.
-/

namespace Docstore

/-! ### Names -/

namespace Script

/-- A letter of any script, a digit, `_` or `$`. -/
def isNameChar (c : Char) : Bool := c.isAlphanum || c == '_' || c == '$' || decide (127 < c.toNat)

/-- A letter of any script, or `_`. -/
def isNameStart (c : Char) : Bool := c.isAlpha || c == '_' || decide (127 < c.toNat)

/-- Words that no variable is called. -/
def reserved : List String :=
  ["this", "true", "false", "var", "for", "if", "else", "return", "break", "function"]

/-- The name of a member. The one that stands for the length of an array is none. -/
structure IsName (name : String) : Prop where
  ne_empty : name ≠ ""
  chars : name.toList.all isNameChar = true
  ne_length : name ≠ "length"

/-- The name of a variable. -/
structure IsVariable (v : String) : Prop extends IsName v where
  start : v.toList.head?.all isNameStart = true
  not_reserved : v ∉ reserved

instance (name : String) : Decidable (IsName name) :=
  decidable_of_iff (name ≠ "" ∧ name.toList.all isNameChar = true ∧ name ≠ "length")
    ⟨fun ⟨hne, hchars, hlength⟩ => ⟨hne, hchars, hlength⟩,
      fun h => ⟨h.ne_empty, h.chars, h.ne_length⟩⟩

instance (v : String) : Decidable (IsVariable v) :=
  decidable_of_iff (IsName v ∧ v.toList.head?.all isNameStart = true ∧ v ∉ reserved)
    ⟨fun ⟨hname, hstart, hreserved⟩ => ⟨hname, hstart, hreserved⟩,
      fun h => ⟨h.toIsName, h.start, h.not_reserved⟩⟩

end Script

open Script (isNameChar isNameStart IsName IsVariable)

/-- The names of an accessor are such names. -/
def Accessor.WellNamed : Accessor → Prop
  | .name key => IsName key
  | .index _ => True
  | .var v => IsVariable v

/-- The names of a chain are such names. -/
def FieldRef.WellNamed (ref : FieldRef) : Prop := ∀ a ∈ ref, a.WellNamed

namespace Expr

/-- The expression can be compared: it is no comparison. -/
def IsOperand : Expr → Prop
  | .compare _ _ _ => False
  | _ => True

/-- The names of an expression are such names, and comparisons are not compared. -/
def WellNamed : Expr → Prop
  | .field ref => ref.WellNamed
  | .length ref => ref.WellNamed
  | .var v => IsVariable v
  | .bool _ => True
  | .compare _ left right => (left.WellNamed ∧ left.IsOperand) ∧ right.WellNamed ∧ right.IsOperand
  | .not inner => inner.WellNamed

end Expr

namespace Stmt

mutual

/-- The names of a statement are such names. -/
def WellNamed : Stmt → Prop
  | .declare v value => IsVariable v ∧ value.WellNamed
  | .assign v value => IsVariable v ∧ value.WellNamed
  | .forEach v array body => IsVariable v ∧ array.WellNamed ∧ BlockWellNamed body
  | .branch cond yes no => cond.WellNamed ∧ BlockWellNamed yes ∧ BlockWellNamed no
  | .result value => value.WellNamed
  | .leave => True

/-- The names of statements in a row are such names. -/
def BlockWellNamed : List Stmt → Prop
  | [] => True
  | s :: rest => WellNamed s ∧ BlockWellNamed rest

end

end Stmt

/-- The names of a script are such names. -/
def Script.WellNamed (s : Script) : Prop := Stmt.BlockWellNamed s.body

/-! ### Words -/

/-- The text does not go on with a character of this kind. -/
def Ends (p : Char → Bool) (rest : List Char) : Prop := ∀ c, rest.head? = some c → p c = false

section

variable {p : Char → Bool} {w w' rest rest' : List Char}

theorem ends_cons {c : Char} (hc : p c = false) (rest : List Char) : Ends p (c :: rest) := by
  intro c' hc'
  obtain rfl := Option.some.inj hc'
  exact hc

theorem takeWhile_word (hw : w.all p = true) (hrest : Ends p rest) :
    (w ++ rest).takeWhile p = w := by
  have hnone : rest.takeWhile p = [] := by
    cases rest with
    | nil => rfl
    | cons c rest => rw [List.takeWhile_cons_of_neg (by simp [hrest c rfl])]
  rw [List.takeWhile_append_of_pos (List.all_eq_true.1 hw), hnone, List.append_nil]

/-- A word is as many characters of a kind as there are. -/
theorem eq_of_word (hw : w.all p = true) (hw' : w'.all p = true) (hrest : Ends p rest)
    (hrest' : Ends p rest') (h : w ++ rest = w' ++ rest') : w = w' ∧ rest = rest' := by
  have hword := congrArg (List.takeWhile p) h
  rw [takeWhile_word hw hrest, takeWhile_word hw' hrest'] at hword
  subst hword
  exact ⟨rfl, List.append_cancel_left h⟩

end

theorem isNameChar_of_isDigit {c : Char} (h : c.isDigit = true) : isNameChar c = true := by
  simp [isNameChar, Char.isAlphanum, h]

theorem isNameStart_of_isDigit {c : Char} (h : c.isDigit = true) : isNameStart c = false := by
  have hrange := Text.toNat_of_isDigit h
  have hne : c ≠ '_' := by
    rintro rfl
    cases h
  have hletter : c.isAlpha = false := by
    have hupper : c.isUpper = false := decide_eq_false fun h => by
      have hle : 65 ≤ c.toNat := UInt32.le_iff_toNat_le.1 h.1
      omega
    have hlower : c.isLower = false := Bool.and_eq_false_imp.2 fun h => by
      have hle : 97 ≤ c.toNat := UInt32.le_iff_toNat_le.1 (of_decide_eq_true h)
      omega
    exact Bool.or_eq_false_iff.2 ⟨hupper, hlower⟩
  simp only [isNameStart, hletter, Bool.false_or, Bool.or_eq_false_iff, beq_eq_false_iff_ne,
    decide_eq_false_iff_not]
  exact ⟨hne, by omega⟩

/-- No variable starts with a digit. -/
theorem Script.IsVariable.ne_natDigits {v : String} (h : IsVariable v) (n : Nat) :
    v.toList ≠ Text.natDigits n := by
  intro heq
  cases hdigits : Text.natDigits n with
  | nil => exact Text.natDigits_ne_nil n hdigits
  | cons c rest =>
    have hstart : isNameStart c = true := by
      have h := h.start
      rwa [heq, hdigits] at h
    have hdigit : c.isDigit = true := Text.isDigit_of_mem_natDigits (hdigits ▸ List.mem_cons_self)
    rw [isNameStart_of_isDigit hdigit] at hstart
    cases hstart

/-! ### Chains -/

/-- What follows an expression. -/
def Follows (rest : List Char) : Prop :=
  ∃ c more, rest = c :: more ∧ (c = ';' ∨ c = ')' ∨ c = ' ')

/-- What follows a chain: its length may be meant. -/
def FollowsChain (rest : List Char) : Prop :=
  Follows rest ∨ ∃ more, rest = ".length".toList ++ more ∧ Follows more

theorem Follows.ends {rest : List Char} (h : Follows rest) : Ends isNameChar rest := by
  obtain ⟨c, more, rfl, rfl | rfl | rfl⟩ := h <;> exact ends_cons (by decide) more

theorem FollowsChain.ends {rest : List Char} (h : FollowsChain rest) : Ends isNameChar rest := by
  rcases h with h | ⟨more, rfl, -⟩
  · exact h.ends
  · exact ends_cons (by decide) _

namespace Accessor

variable {a a' : Accessor} {rest rest' : List Char}

theorem text_name (key : String) (rest : List Char) :
    (name key).text.toList ++ rest = '.' :: (key.toList ++ rest) := by
  simp [text]

theorem text_index (i : Nat) (rest : List Char) :
    (index i).text.toList ++ rest = '[' :: (Text.natDigits i ++ ']' :: rest) := by
  simp [text, Text.natText]

theorem text_var (v : String) (rest : List Char) :
    (var v).text.toList ++ rest = '[' :: (v.toList ++ ']' :: rest) := by
  simp [text]

/-- An accessor starts with a dot or a bracket. -/
theorem exists_head_text (a : Accessor) (rest : List Char) :
    ∃ c more, a.text.toList ++ rest = c :: more ∧ (c = '.' ∨ c = '[') := by
  cases a with
  | name key => exact ⟨_, _, text_name key rest, .inl rfl⟩
  | index i => exact ⟨_, _, text_index i rest, .inr rfl⟩
  | var v => exact ⟨_, _, text_var v rest, .inr rfl⟩

theorem ends_text (a : Accessor) (rest : List Char) : Ends isNameChar (a.text.toList ++ rest) := by
  obtain ⟨c, more, htext, rfl | rfl⟩ := a.exists_head_text rest
  · rw [htext]
    exact ends_cons (by decide) more
  · rw [htext]
    exact ends_cons (by decide) more

theorem not_follows (a : Accessor) (rest : List Char) : ¬ Follows (a.text.toList ++ rest) := by
  rintro ⟨c, more, h, hc⟩
  obtain ⟨c', more', htext, hc'⟩ := a.exists_head_text rest
  obtain ⟨rfl, -⟩ := List.cons.inj (htext.symm.trans h)
  rcases hc' with rfl | rfl <;> simp at hc

/-- Accessors are told apart when no name goes on after them. -/
theorem eq_of_text (ha : a.WellNamed) (ha' : a'.WellNamed) (hrest : Ends isNameChar rest)
    (hrest' : Ends isNameChar rest') (h : a.text.toList ++ rest = a'.text.toList ++ rest') :
    a = a' ∧ rest = rest' := by
  have hclose : ∀ rest, Ends isNameChar (']' :: rest) := ends_cons (by decide)
  have hdigits : ∀ i, (Text.natDigits i).all isNameChar = true := fun i =>
    List.all_eq_true.2 fun c hc => isNameChar_of_isDigit (Text.isDigit_of_mem_natDigits hc)
  cases a with
  | name key =>
    cases a' with
    | name key' =>
      rw [text_name, text_name] at h
      obtain ⟨hkey, hrest⟩ := eq_of_word ha.chars ha'.chars hrest hrest' (List.cons.inj h).2
      exact ⟨congrArg name (String.toList_injective hkey), hrest⟩
    | index i => simp [text_name, text_index] at h
    | var v => simp [text_name, text_var] at h
  | index i =>
    rw [text_index] at h
    cases a' with
    | name key => simp [text_name] at h
    | index i' =>
      rw [text_index] at h
      obtain ⟨hi, hrest⟩ := eq_of_word (hdigits i) (hdigits i') (hclose _) (hclose _)
        (List.cons.inj h).2
      exact ⟨congrArg index (Text.natDigits_injective hi), (List.cons.inj hrest).2⟩
    | var v =>
      rw [text_var] at h
      obtain ⟨hv, -⟩ := eq_of_word (hdigits i) ha'.chars (hclose _) (hclose _) (List.cons.inj h).2
      exact absurd hv.symm (IsVariable.ne_natDigits ha' i)
  | var v =>
    rw [text_var] at h
    cases a' with
    | name key => simp [text_name] at h
    | index i =>
      rw [text_index] at h
      obtain ⟨hv, -⟩ := eq_of_word ha.chars (hdigits i) (hclose _) (hclose _) (List.cons.inj h).2
      exact absurd hv (IsVariable.ne_natDigits ha i)
    | var v' =>
      rw [text_var] at h
      obtain ⟨hv, hrest⟩ := eq_of_word ha.chars ha'.chars (hclose _) (hclose _) (List.cons.inj h).2
      exact ⟨congrArg var (String.toList_injective hv), (List.cons.inj hrest).2⟩

end Accessor

namespace FieldRef

theorem text_append (ref : FieldRef) (rest : List Char) :
    ref.text.toList ++ rest =
      "this".toList ++ (ref.flatMap (fun a => a.text.toList) ++ rest) := by
  simp [text, String.toList_join, List.flatMap_map]

theorem ends_flatMap (ref : FieldRef) {rest : List Char} (hrest : Ends isNameChar rest) :
    Ends isNameChar (ref.flatMap (fun a => a.text.toList) ++ rest) := by
  cases ref with
  | nil => exact hrest
  | cons a more =>
    rw [List.flatMap_cons, List.append_assoc]
    exact a.ends_text _

/-- What follows a chain is no other accessor. -/
theorem not_followsChain_of_accessor {a : Accessor} {rest : List Char} (ha : a.WellNamed)
    (hrest : Ends isNameChar rest) : ¬ FollowsChain (a.text.toList ++ rest) := by
  rintro (h | ⟨more, h, hmore⟩)
  · exact a.not_follows rest h
  · cases a with
    | name key =>
      rw [Accessor.text_name] at h
      have hlength : "length".toList.all isNameChar = true := by decide
      obtain ⟨hkey, -⟩ := eq_of_word ha.chars hlength hrest hmore.ends (List.cons.inj h).2
      exact ha.ne_length (String.toList_injective hkey)
    | index i => simp [Accessor.text_index] at h
    | var v => simp [Accessor.text_var] at h

/-- Chains are told apart with what follows them. -/
theorem eq_of_accessors {ref ref' : FieldRef} {rest rest' : List Char} (href : ref.WellNamed)
    (href' : ref'.WellNamed) (hrest : FollowsChain rest) (hrest' : FollowsChain rest')
    (h : ref.flatMap (fun a => a.text.toList) ++ rest =
      ref'.flatMap (fun a => a.text.toList) ++ rest') : ref = ref' ∧ rest = rest' := by
  induction ref generalizing ref' with
  | nil =>
    cases ref' with
    | nil => exact ⟨rfl, h⟩
    | cons a' more' =>
      rw [List.flatMap_cons, List.append_assoc] at h
      have hmore := ends_flatMap more' hrest'.ends
      exact absurd (h ▸ hrest) (not_followsChain_of_accessor (href' a' List.mem_cons_self) hmore)
  | cons a more ih =>
    obtain ⟨ha, hmore⟩ := List.forall_mem_cons.1 href
    rw [List.flatMap_cons, List.append_assoc] at h
    cases ref' with
    | nil =>
      have hends := ends_flatMap more hrest.ends
      exact absurd (h ▸ hrest') (not_followsChain_of_accessor ha hends)
    | cons a' more' =>
      obtain ⟨ha', hmore'⟩ := List.forall_mem_cons.1 href'
      rw [List.flatMap_cons, List.append_assoc] at h
      obtain ⟨rfl, hmores⟩ := Accessor.eq_of_text ha ha' (ends_flatMap more hrest.ends)
        (ends_flatMap more' hrest'.ends) h
      obtain ⟨rfl, hrests⟩ := ih hmore hmore' hmores
      exact ⟨rfl, hrests⟩

/-- Chains are told apart with what follows them. -/
theorem eq_of_text {ref ref' : FieldRef} {rest rest' : List Char} (href : ref.WellNamed)
    (href' : ref'.WellNamed) (hrest : FollowsChain rest) (hrest' : FollowsChain rest')
    (h : ref.text.toList ++ rest = ref'.text.toList ++ rest') : ref = ref' ∧ rest = rest' := by
  rw [text_append, text_append] at h
  exact eq_of_accessors href href' hrest hrest' (List.append_cancel_left h)

end FieldRef

/-! ### Expressions -/

/-- What follows an expression that is no operand. -/
def Closes (rest : List Char) : Prop := ∃ c more, rest = c :: more ∧ (c = ';' ∨ c = ')')

theorem Closes.follows {rest : List Char} (h : Closes rest) : Follows rest := by
  obtain ⟨c, more, rfl, hc⟩ := h
  exact ⟨c, more, rfl, hc.imp_right .inl⟩

theorem follows_blank (rest : List Char) : Follows (' ' :: rest) :=
  ⟨' ', rest, rfl, .inr (.inr rfl)⟩

theorem not_closes_blank (rest : List Char) : ¬ Closes (' ' :: rest) := by
  rintro ⟨c, more, h, hc⟩
  obtain ⟨rfl, -⟩ := List.cons.inj h
  simp at hc

theorem Comparison.symbol_injective {op op' : Comparison} (h : op.symbol = op'.symbol) :
    op = op' := by
  revert h
  cases op <;> cases op' <;> simp [symbol]

/-- Comparisons are told apart with the blank after them. -/
theorem Comparison.eq_of_symbol {op op' : Comparison} {rest rest' : List Char}
    (h : op.symbol.toList ++ ' ' :: rest = op'.symbol.toList ++ ' ' :: rest') :
    op = op' ∧ rest = rest' := by
  have hsymbol : ∀ op : Comparison, op.symbol.toList.all (· != ' ') = true := by
    intro op
    cases op <;> decide
  obtain ⟨hops, hrest⟩ := eq_of_word (hsymbol op) (hsymbol op') (ends_cons (by decide) _)
    (ends_cons (by decide) _) h
  exact ⟨symbol_injective (String.toList_injective hops), (List.cons.inj hrest).2⟩

namespace Expr

variable {e e' : Expr} {rest rest' : List Char}

/-- The first word of an operand. -/
def word : Expr → String
  | .field _ => "this"
  | .length _ => "this"
  | .var v => v
  | .bool b => if b then "true" else "false"
  | _ => ""

/-- What goes on after the first word of an operand. -/
def after : Expr → List Char → List Char
  | .field ref, rest => ref.flatMap (fun a => a.text.toList) ++ rest
  | .length ref, rest => ref.flatMap (fun a => a.text.toList) ++ (".length".toList ++ rest)
  | .not inner, rest => "!(".toList ++ (inner.text.toList ++ ')' :: rest)
  | _, rest => rest

/-- The kinds of operands. -/
inductive Kind where
  | chain
  | var
  | bool
  | not

/-- The kind of an operand. -/
def kind : Expr → Kind
  | .field _ => .chain
  | .length _ => .chain
  | .var _ => .var
  | .bool _ => .bool
  | _ => .not

/-- The kind of an operand with this first word. -/
def kindOfWord (w : String) : Kind :=
  if w = "this" then .chain else if w = "true" ∨ w = "false" then .bool
  else if w = "" then .not else .var

theorem kindOfWord_word (h : e.WellNamed) : kindOfWord e.word = e.kind := by
  cases e with
  | var v =>
    have hv : IsVariable v := h
    have hreserved := hv.not_reserved
    have hne := hv.ne_empty
    simp only [Script.reserved, List.mem_cons, not_or] at hreserved
    simp [kindOfWord, word, kind, hreserved, hne]
  | bool b => cases b <;> rfl
  | _ => rfl

theorem text_operand (he : e.IsOperand) (rest : List Char) :
    e.text.toList ++ rest = e.word.toList ++ e.after rest := by
  cases e with
  | field ref => exact ref.text_append rest
  | length ref =>
    rw [text, String.toList_append, List.append_assoc, FieldRef.text_append]
    rfl
  | var v => rfl
  | bool b => cases b <;> rfl
  | compare op left right => exact he.elim
  | not inner => simp [text, word, after]

theorem text_compare (op : Comparison) (left right : Expr) (rest : List Char) :
    (compare op left right).text.toList ++ rest =
      left.text.toList ++ ' ' :: (op.symbol.toList ++ ' ' :: (right.text.toList ++ rest)) := by
  simp [text]

theorem all_word (h : e.WellNamed) : e.word.toList.all isNameChar = true := by
  have hthis : "this".toList.all isNameChar = true := by decide
  cases e with
  | field ref => exact hthis
  | length ref => exact hthis
  | var v => exact IsName.chars (IsVariable.toIsName h)
  | bool b => cases b <;> decide
  | _ => rfl

theorem ends_after (he : e.IsOperand) (hrest : Follows rest) : Ends isNameChar (e.after rest) := by
  cases e with
  | field ref => exact FieldRef.ends_flatMap ref hrest.ends
  | length ref => exact FieldRef.ends_flatMap ref (ends_cons (by decide) _)
  | compare op left right => exact he.elim
  | not inner => exact ends_cons (by decide) _
  | _ => exact hrest.ends

/-- The text of the operand with what follows it is that of no other operand. -/
def OperandApart (e : Expr) : Prop :=
  ∀ e' rest rest', e'.WellNamed → e'.IsOperand → Follows rest → Follows rest' →
    e.text.toList ++ rest = e'.text.toList ++ rest' → e = e' ∧ rest = rest'

/-- The text of the expression with what closes it is that of no other expression. -/
def Apart (e : Expr) : Prop :=
  ∀ e' rest rest', e'.WellNamed → Closes rest → Closes rest' →
    e.text.toList ++ rest = e'.text.toList ++ rest' → e = e' ∧ rest = rest'

/-- An operand is told apart from others when it is from those of its kind with its first word. -/
theorem operandApart_of_kind (he : e.WellNamed) (hop : e.IsOperand)
    (h : ∀ e' rest rest', e'.WellNamed → e'.IsOperand → Follows rest → Follows rest' →
      e.kind = e'.kind → e.word = e'.word → e.after rest = e'.after rest' →
        e = e' ∧ rest = rest') : e.OperandApart := by
  intro e' rest rest' he' hop' hrest hrest' htext
  rw [text_operand hop, text_operand hop'] at htext
  obtain ⟨hword, hafter⟩ := eq_of_word (all_word he) (all_word he')
    (ends_after hop hrest) (ends_after hop' hrest') htext
  have hword := String.toList_injective hword
  refine h e' rest rest' he' hop' hrest hrest' ?_ hword hafter
  rw [← kindOfWord_word he, ← kindOfWord_word he', hword]

theorem not_follows_length (rest : List Char) : ¬ Follows (".length".toList ++ rest) := by
  rintro ⟨c, more, h, hc⟩
  obtain rfl : '.' = c := (List.cons.inj h).1
  simp at hc

theorem operandApart_field {ref : FieldRef} (href : ref.WellNamed) : (field ref).OperandApart := by
  refine operandApart_of_kind href trivial fun e' rest rest' he' _ hrest hrest' hkind _ h => ?_
  cases e' with
  | field ref' =>
    obtain ⟨rfl, hrests⟩ := FieldRef.eq_of_accessors href he' (.inl hrest) (.inl hrest') h
    exact ⟨rfl, hrests⟩
  | length ref' =>
    obtain ⟨-, rfl⟩ := FieldRef.eq_of_accessors href he' (.inl hrest) (.inr ⟨_, rfl, hrest'⟩) h
    exact absurd hrest (not_follows_length _)
  | _ => cases hkind

theorem operandApart_length {ref : FieldRef} (href : ref.WellNamed) :
    (length ref).OperandApart := by
  refine operandApart_of_kind href trivial fun e' rest rest' he' _ hrest hrest' hkind _ h => ?_
  cases e' with
  | field ref' =>
    obtain ⟨-, rfl⟩ := FieldRef.eq_of_accessors href he' (.inr ⟨_, rfl, hrest⟩) (.inl hrest') h
    exact absurd hrest' (not_follows_length _)
  | length ref' =>
    obtain ⟨rfl, hrests⟩ := FieldRef.eq_of_accessors href he' (.inr ⟨_, rfl, hrest⟩)
      (.inr ⟨_, rfl, hrest'⟩) h
    exact ⟨rfl, List.append_cancel_left hrests⟩
  | _ => cases hkind

theorem operandApart_var {v : String} (hv : IsVariable v) : (var v).OperandApart := by
  refine operandApart_of_kind hv trivial fun e' rest rest' _ hop' _ _ hkind hword h => ?_
  cases e' with
  | var v' => exact ⟨congrArg var hword, h⟩
  | _ => cases hkind

theorem operandApart_bool (b : Bool) : (bool b).OperandApart := by
  refine operandApart_of_kind trivial trivial fun e' rest rest' _ hop' _ _ hkind hword h => ?_
  cases e' with
  | bool b' =>
    refine ⟨congrArg bool ?_, h⟩
    cases b <;> cases b'
    · rfl
    · exact absurd hword (by decide)
    · exact absurd hword (by decide)
    · rfl
  | _ => cases hkind

theorem operandApart_not {inner : Expr} (hnamed : inner.WellNamed) (hinner : inner.Apart) :
    (not inner).OperandApart := by
  have hclose : ∀ rest, Closes (')' :: rest) := fun rest => ⟨_, rest, rfl, .inr rfl⟩
  refine operandApart_of_kind hnamed trivial fun e' rest rest' he' hop' _ _ hkind _ h => ?_
  cases e' with
  | not inner' =>
    obtain ⟨rfl, hrests⟩ := hinner inner' _ _ he' (hclose rest) (hclose rest')
      (List.append_cancel_left h)
    exact ⟨rfl, (List.cons.inj hrests).2⟩
  | compare op left right => exact hop'.elim
  | _ => cases hkind

/-- No operand goes on as a comparison does. -/
theorem apart_of_operandApart (h : e.OperandApart) : e.Apart := by
  intro e' rest rest' he' hrest hrest' htext
  by_cases hop' : e'.IsOperand
  · exact h e' rest rest' he' hop' hrest.follows hrest'.follows htext
  · cases e' with
    | compare op left right =>
      rw [text_compare] at htext
      obtain ⟨⟨hleft, hopLeft⟩, -⟩ := he'
      obtain ⟨-, rfl⟩ := h left rest _ hleft hopLeft hrest.follows (follows_blank _) htext
      exact absurd hrest (not_closes_blank _)
    | _ => exact absurd trivial hop'

theorem apart_compare {op : Comparison} {left right : Expr} (hl : left.OperandApart)
    (hr : right.OperandApart) : (compare op left right).Apart := by
  intro e' rest rest' he' hrest hrest' htext
  rw [text_compare] at htext
  by_cases hop' : e'.IsOperand
  · obtain ⟨-, rfl⟩ := hl e' _ rest' he' hop' (follows_blank _) hrest'.follows htext
    exact absurd hrest' (not_closes_blank _)
  · cases e' with
    | compare op' left' right' =>
      rw [text_compare] at htext
      obtain ⟨⟨hleft, hopLeft⟩, hright, hopRight⟩ := he'
      obtain ⟨rfl, htail⟩ := hl left' _ _ hleft hopLeft (follows_blank _) (follows_blank _) htext
      obtain ⟨rfl, hrights⟩ := Comparison.eq_of_symbol (List.cons.inj htail).2
      obtain ⟨rfl, hrests⟩ := hr right' rest rest' hright hopRight hrest.follows hrest'.follows
        hrights
      exact ⟨rfl, hrests⟩
    | _ => exact absurd trivial hop'

/-- The text of an expression tells it, and that of an operand does even before a blank. -/
theorem apart (he : e.WellNamed) : e.Apart ∧ (e.IsOperand → e.OperandApart) := by
  induction e with
  | field ref =>
    have h := operandApart_field he
    exact ⟨apart_of_operandApart h, fun _ => h⟩
  | length ref =>
    have h := operandApart_length he
    exact ⟨apart_of_operandApart h, fun _ => h⟩
  | var v =>
    have h := operandApart_var he
    exact ⟨apart_of_operandApart h, fun _ => h⟩
  | bool b =>
    have h := operandApart_bool b
    exact ⟨apart_of_operandApart h, fun _ => h⟩
  | compare op left right ihLeft ihRight =>
    obtain ⟨⟨hleft, hopLeft⟩, hright, hopRight⟩ := he
    exact ⟨apart_compare ((ihLeft hleft).2 hopLeft) ((ihRight hright).2 hopRight), False.elim⟩
  | not inner ih =>
    have hinner : inner.WellNamed := he
    have h := operandApart_not hinner (ih hinner).1
    exact ⟨apart_of_operandApart h, fun _ => h⟩

/-- Expressions are told apart with what closes them. -/
theorem eq_of_text (he : e.WellNamed) (he' : e'.WellNamed) (hrest : Closes rest)
    (hrest' : Closes rest') (h : e.text.toList ++ rest = e'.text.toList ++ rest') :
    e = e' ∧ rest = rest' := (apart he).1 e' rest rest' he' hrest hrest' h

end Expr

/-! ### Statements -/

namespace Stmt

variable {s s' : Stmt} {rest rest' : List Char}

/-- The first word of a statement. -/
def word : Stmt → String
  | .declare _ _ => "var"
  | .assign v _ => v
  | .forEach _ _ _ => "for"
  | .branch _ _ _ => "if"
  | .result _ => "return"
  | .leave => "break"

/-- The text of the second branch of a statement, which is left out when it is empty. -/
def elseText (no : List Stmt) : String :=
  if no.isEmpty then "" else " else " ++ inBraces (blockText no)

/-- What goes on after the first word of a statement. -/
def after : Stmt → List Char → List Char
  | .declare v value, rest => ' ' :: (v.toList ++ '=' :: (value.text.toList ++ ';' :: rest))
  | .assign _ value, rest => '=' :: (value.text.toList ++ ';' :: rest)
  | .forEach v array body, rest =>
    "(var ".toList ++ (v.toList ++ '=' :: '0' :: ';' :: (v.toList ++ '<' :: (array.text.toList ++
      (".length".toList ++ ';' :: (v.toList ++ ("++) \x7b".toList ++
        ((blockText body).toList ++ '\x7d' :: rest)))))))
  | .branch cond yes no, rest =>
    '(' :: (cond.text.toList ++ ')' :: ' ' :: '\x7b' :: ((blockText yes).toList ++
      '\x7d' :: ((elseText no).toList ++ rest)))
  | .result value, rest => ' ' :: (value.text.toList ++ ';' :: rest)
  | .leave, rest => ';' :: rest

/-- The kinds of statements. -/
inductive Kind where
  | declare
  | assign
  | forEach
  | branch
  | result
  | leave

/-- The kind of a statement. -/
def kind : Stmt → Kind
  | .declare _ _ => .declare
  | .assign _ _ => .assign
  | .forEach _ _ _ => .forEach
  | .branch _ _ _ => .branch
  | .result _ => .result
  | .leave => .leave

/-- The kind of a statement with this first word. -/
def kindOfWord (w : String) : Kind :=
  if w = "var" then .declare else if w = "for" then .forEach else if w = "if" then .branch
  else if w = "return" then .result else if w = "break" then .leave else .assign

theorem kindOfWord_word (h : s.WellNamed) : kindOfWord s.word = s.kind := by
  cases s with
  | assign v value =>
    rw [WellNamed] at h
    have hreserved := h.1.not_reserved
    simp only [Script.reserved, List.mem_cons, not_or] at hreserved
    simp [kindOfWord, word, kind, hreserved]
  | _ => rfl

theorem all_word (h : s.WellNamed) : s.word.toList.all isNameChar = true := by
  have hwords : ∀ w ∈ ["var", "for", "if", "return", "break"],
      w.toList.all isNameChar = true := by decide
  cases s with
  | assign v value =>
    rw [WellNamed] at h
    exact h.1.chars
  | _ => exact hwords _ (by simp [word])

theorem ends_after (s : Stmt) (rest : List Char) : Ends isNameChar (s.after rest) := by
  cases s <;> exact ends_cons (by decide) _

theorem text_append (s : Stmt) (rest : List Char) :
    s.text.toList ++ rest = s.word.toList ++ s.after rest := by
  cases s with
  | declare v value =>
    have htext : (declare v value).text = "var " ++ v ++ "=" ++ value.text ++ ";" := rfl
    simp [htext, word, after]
  | assign v value =>
    have htext : (assign v value).text = v ++ "=" ++ value.text ++ ";" := rfl
    simp [htext, word, after]
  | forEach v array body =>
    have htext : (forEach v array body).text = "for(var " ++ v ++ "=0;" ++ v ++ "<" ++ array.text ++
      ".length;" ++ v ++ "++) " ++ inBraces (blockText body) := rfl
    simp [htext, word, after, inBraces]
  | branch cond yes no =>
    have htext : (branch cond yes no).text =
        "if(" ++ cond.text ++ ") " ++ inBraces (blockText yes) ++ elseText no := by
      cases no with
      | nil => exact String.append_empty.symm
      | cons first more => exact String.append_assoc
    simp [htext, word, after, inBraces]
  | result value =>
    have htext : (result value).text = "return " ++ value.text ++ ";" := rfl
    simp [htext, word, after]
  | leave => rfl

theorem blockText_cons_append (s : Stmt) (ss : List Stmt) (rest : List Char) :
    (blockText (s :: ss)).toList ++ rest = s.text.toList ++ ((blockText ss).toList ++ rest) := by
  simp [blockText]

theorem elseText_append {no : List Stmt} (hno : no ≠ []) (rest : List Char) :
    (elseText no).toList ++ rest =
      " else \x7b".toList ++ ((blockText no).toList ++ '\x7d' :: rest) := by
  simp [elseText, hno, inBraces]

/-- The text of a statement starts with a character of names. -/
theorem exists_head_text (h : s.WellNamed) (rest : List Char) :
    ∃ c more, s.text.toList ++ rest = c :: more ∧ isNameChar c = true := by
  have hne : s.word ≠ "" := by
    cases s with
    | assign v value =>
      rw [WellNamed] at h
      exact h.1.ne_empty
    | _ => simp [word]
  rw [text_append]
  cases hword : s.word.toList with
  | nil => exact absurd (String.toList_injective hword) hne
  | cons c more => exact ⟨c, _, rfl, List.all_eq_true.1 (all_word h) c (hword ▸ List.mem_cons_self)⟩

/-- What follows a statement is no second branch of it. -/
theorem head_blockText_ne_blank {ss : List Stmt} (h : BlockWellNamed ss) (rest : List Char) :
    ((blockText ss).toList ++ '\x7d' :: rest).head? ≠ some ' ' := by
  cases ss with
  | nil => simp [blockText]
  | cons s more =>
    rw [BlockWellNamed] at h
    rw [blockText_cons_append]
    obtain ⟨c, tail, htext, hc⟩ := exists_head_text h.1 ((blockText more).toList ++ '\x7d' :: rest)
    rw [htext]
    intro hblank
    obtain rfl := Option.some.inj hblank
    cases hc

/-- The text of the statement with what follows it is that of no other statement. -/
def Apart (s : Stmt) : Prop :=
  ∀ s' rest rest', s'.WellNamed → rest.head? ≠ some ' ' → rest'.head? ≠ some ' ' →
    s.text.toList ++ rest = s'.text.toList ++ rest' → s = s' ∧ rest = rest'

/-- The text of the statements with the closing brace is that of no others. -/
def BlockApart (ss : List Stmt) : Prop :=
  ∀ ss' rest rest', BlockWellNamed ss' →
    (blockText ss).toList ++ '\x7d' :: rest = (blockText ss').toList ++ '\x7d' :: rest' →
      ss = ss' ∧ rest = rest'

/-- A statement is told apart from others when it is from those of its kind with its first
word. -/
theorem apart_of_kind (hs : s.WellNamed)
    (h : ∀ s' rest rest', s'.WellNamed → rest.head? ≠ some ' ' → rest'.head? ≠ some ' ' →
      s.kind = s'.kind → s.word = s'.word → s.after rest = s'.after rest' →
        s = s' ∧ rest = rest') : s.Apart := by
  intro s' rest rest' hs' hrest hrest' htext
  rw [text_append, text_append] at htext
  obtain ⟨hword, hafter⟩ := eq_of_word (all_word hs) (all_word hs')
    (ends_after s rest) (ends_after s' rest') htext
  have hword := String.toList_injective hword
  refine h s' rest rest' hs' hrest hrest' ?_ hword hafter
  rw [← kindOfWord_word hs, ← kindOfWord_word hs', hword]

theorem closes_semicolon (rest : List Char) : Closes (';' :: rest) := ⟨_, rest, rfl, .inl rfl⟩

theorem apart_declare {v : String} {value : Expr} (hs : (declare v value).WellNamed) :
    (declare v value).Apart := by
  refine apart_of_kind hs fun s' rest rest' hs' _ _ hkind _ h => ?_
  cases s' with
  | declare v' value' =>
    rw [WellNamed] at hs hs'
    obtain ⟨hv, hvalue⟩ := eq_of_word hs.1.chars hs'.1.chars (ends_cons (by decide) _)
      (ends_cons (by decide) _) (List.cons.inj h).2
    obtain ⟨rfl, hend⟩ := Expr.eq_of_text hs.2 hs'.2 (closes_semicolon _) (closes_semicolon _)
      (List.cons.inj hvalue).2
    obtain rfl := String.toList_injective hv
    exact ⟨rfl, (List.cons.inj hend).2⟩
  | _ => cases hkind

theorem apart_assign {v : String} {value : Expr} (hs : (assign v value).WellNamed) :
    (assign v value).Apart := by
  refine apart_of_kind hs fun s' rest rest' hs' _ _ hkind hword h => ?_
  cases s' with
  | assign v' value' =>
    rw [WellNamed] at hs hs'
    obtain rfl : v = v' := hword
    obtain ⟨rfl, hend⟩ := Expr.eq_of_text hs.2 hs'.2 (closes_semicolon _) (closes_semicolon _)
      (List.cons.inj h).2
    exact ⟨rfl, (List.cons.inj hend).2⟩
  | _ => cases hkind

theorem apart_result {value : Expr} (hs : (result value).WellNamed) : (result value).Apart := by
  refine apart_of_kind hs fun s' rest rest' hs' _ _ hkind _ h => ?_
  cases s' with
  | result value' =>
    rw [WellNamed] at hs hs'
    obtain ⟨rfl, hend⟩ := Expr.eq_of_text hs hs' (closes_semicolon _) (closes_semicolon _)
      (List.cons.inj h).2
    exact ⟨rfl, (List.cons.inj hend).2⟩
  | _ => cases hkind

theorem apart_leave : leave.Apart := by
  refine apart_of_kind trivial fun s' rest rest' _ _ _ hkind _ h => ?_
  cases s' with
  | leave => exact ⟨rfl, (List.cons.inj h).2⟩
  | _ => cases hkind

theorem apart_forEach {v : String} {array : FieldRef} {body : List Stmt}
    (hs : (forEach v array body).WellNamed) (hbody : BlockApart body) :
    (forEach v array body).Apart := by
  have hfollows : ∀ rest, FollowsChain (".length".toList ++ ';' :: rest) := fun rest =>
    .inr ⟨_, rfl, (closes_semicolon rest).follows⟩
  refine apart_of_kind hs fun s' rest rest' hs' _ _ hkind _ h => ?_
  cases s' with
  | forEach v' array' body' =>
    rw [WellNamed] at hs hs'
    obtain ⟨hv, hbound⟩ := eq_of_word hs.1.chars hs'.1.chars (ends_cons (by decide) _)
      (ends_cons (by decide) _) (List.append_cancel_left h)
    obtain rfl := String.toList_injective hv
    simp only [List.cons.injEq, true_and, List.append_cancel_left_eq] at hbound
    obtain ⟨rfl, hstep⟩ := FieldRef.eq_of_text hs.2.1 hs'.2.1 (hfollows _) (hfollows _) hbound
    simp only [List.cons.injEq, true_and, List.append_cancel_left_eq] at hstep
    obtain ⟨rfl, hrests⟩ := hbody body' rest rest' hs'.2.2 hstep
    exact ⟨rfl, hrests⟩
  | _ => cases hkind

theorem apart_branch {cond : Expr} {yes no : List Stmt} (hs : (branch cond yes no).WellNamed)
    (hyes : BlockApart yes) (hno : BlockApart no) : (branch cond yes no).Apart := by
  have hblank : ∀ (ss : List Stmt) (rest : List Char), ss ≠ [] →
      ((elseText ss).toList ++ rest).head? = some ' ' := by
    intro ss rest hss
    rw [elseText_append hss]
    rfl
  refine apart_of_kind hs fun s' rest rest' hs' hrest hrest' hkind _ h => ?_
  cases s' with
  | branch cond' yes' no' =>
    rw [WellNamed] at hs hs'
    obtain ⟨rfl, hblock⟩ := Expr.eq_of_text hs.1 hs'.1 ⟨_, _, rfl, .inr rfl⟩ ⟨_, _, rfl, .inr rfl⟩
      (List.cons.inj h).2
    simp only [List.cons.injEq, true_and] at hblock
    obtain ⟨rfl, helse⟩ := hyes yes' _ _ hs'.2.1 hblock
    by_cases hnone : no = []
    · by_cases hnone' : no' = []
      · subst hnone hnone'
        exact ⟨rfl, helse⟩
      · subst hnone
        exact absurd ((congrArg List.head? helse).trans (hblank no' rest' hnone')) hrest
    · by_cases hnone' : no' = []
      · subst hnone'
        exact absurd ((congrArg List.head? helse).symm.trans (hblank no rest hnone)) hrest'
      · rw [elseText_append hnone, elseText_append hnone', List.append_cancel_left_eq] at helse
        obtain ⟨rfl, hrests⟩ := hno no' rest rest' hs'.2.2 helse
        exact ⟨rfl, hrests⟩
  | _ => cases hkind

theorem blockApart_nil : BlockApart [] := by
  intro ss' rest rest' hss' h
  cases ss' with
  | nil => exact ⟨rfl, (List.cons.inj h).2⟩
  | cons s' more' =>
    rw [BlockWellNamed] at hss'
    rw [blockText_cons_append] at h
    obtain ⟨c, tail, htext, hc⟩ := exists_head_text hss'.1
      ((blockText more').toList ++ '\x7d' :: rest')
    obtain rfl : '\x7d' = c := (List.cons.inj (h.trans htext)).1
    cases hc

theorem blockApart_cons {more : List Stmt} (hs : s.WellNamed) (hmore : BlockWellNamed more)
    (h : s.Apart) (hrest : BlockApart more) : BlockApart (s :: more) := by
  intro ss' rest rest' hss' htext
  rw [blockText_cons_append] at htext
  cases ss' with
  | nil =>
    obtain ⟨c, tail, hhead, hc⟩ := exists_head_text hs ((blockText more).toList ++ '\x7d' :: rest)
    obtain rfl : c = '\x7d' := (List.cons.inj (hhead.symm.trans htext)).1
    cases hc
  | cons s' more' =>
    rw [BlockWellNamed] at hss'
    rw [blockText_cons_append] at htext
    obtain ⟨rfl, hmores⟩ := h s' _ _ hss'.1 (head_blockText_ne_blank hmore rest)
      (head_blockText_ne_blank hss'.2 rest') htext
    obtain ⟨rfl, hrests⟩ := hrest more' rest rest' hss'.2 hmores
    exact ⟨rfl, hrests⟩

mutual

/-- Statements are told apart with what follows them. -/
theorem apart : ∀ (s : Stmt), s.WellNamed → s.Apart
  | .declare _ _, h => apart_declare h
  | .assign _ _, h => apart_assign h
  | .forEach v array body, h =>
    apart_forEach h (blockApart body (by rw [WellNamed] at h; exact h.2.2))
  | .branch cond yes no, h =>
    apart_branch h (blockApart yes (by rw [WellNamed] at h; exact h.2.1))
      (blockApart no (by rw [WellNamed] at h; exact h.2.2))
  | .result _, h => apart_result h
  | .leave, _ => apart_leave

theorem blockApart : ∀ (ss : List Stmt), BlockWellNamed ss → BlockApart ss
  | [], _ => blockApart_nil
  | s :: rest, h => by
    rw [BlockWellNamed] at h
    exact blockApart_cons h.1 h.2 (apart s h.1) (blockApart rest h.2)

end

end Stmt

/-- The text of a script tells what it is. -/
theorem Script.eq_of_text {s s' : Script} (hs : s.WellNamed) (hs' : s'.WellNamed)
    (h : s.text = s'.text) : s = s' := by
  have hbody : (Stmt.blockText s.body).toList ++ '\x7d' :: [] =
      (Stmt.blockText s'.body).toList ++ '\x7d' :: [] := by
    have htext := congrArg String.toList h
    simpa [text, inBraces] using htext
  obtain ⟨hbodies, -⟩ := Stmt.blockApart s.body hs s'.body [] [] hs' hbody
  cases s
  cases s'
  exact congrArg Script.mk hbodies

end Docstore
