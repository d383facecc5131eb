/-!
# Types of values

An expression yields a number, a string, a Boolean or a byte sequence. While types are being
determined every node carries the set of types that it may still have, and such a set only ever
becomes smaller.
-/

namespace TolerantExpr

inductive ValueType where
  | numeric
  | string
  | boolean
  | byteSequence
deriving DecidableEq, Repr

namespace ValueType

/-- All types, in the order in which an open choice is settled. -/
def all : List ValueType := [numeric, string, boolean, byteSequence]

def name : ValueType → String
  | numeric => "Numeric"
  | string => "String"
  | boolean => "Boolean"
  | byteSequence => "ByteSequence"

@[simp] theorem mem_all (t : ValueType) : t ∈ all := by cases t <;> decide

end ValueType

/-- A set of value types. -/
structure TypeSet where
  numeric : Bool
  string : Bool
  boolean : Bool
  byteSequence : Bool
deriving DecidableEq, Repr

namespace TypeSet

def empty : TypeSet := ⟨false, false, false, false⟩

/-- Every type. -/
def full : TypeSet := ⟨true, true, true, true⟩

/-- The set of one type. -/
def only : ValueType → TypeSet
  | .numeric => ⟨true, false, false, false⟩
  | .string => ⟨false, true, false, false⟩
  | .boolean => ⟨false, false, true, false⟩
  | .byteSequence => ⟨false, false, false, true⟩

def has (s : TypeSet) : ValueType → Bool
  | .numeric => s.numeric
  | .string => s.string
  | .boolean => s.boolean
  | .byteSequence => s.byteSequence

def inter (a b : TypeSet) : TypeSet :=
  ⟨a.numeric && b.numeric, a.string && b.string, a.boolean && b.boolean,
    a.byteSequence && b.byteSequence⟩

def union (a b : TypeSet) : TypeSet :=
  ⟨a.numeric || b.numeric, a.string || b.string, a.boolean || b.boolean,
    a.byteSequence || b.byteSequence⟩

/-- The union of the sets of one type each. -/
def ofList (ts : List ValueType) : TypeSet := ts.foldr (fun t s => (only t).union s) empty

/-- The members, in the order in which an open choice is settled. -/
def toList (s : TypeSet) : List ValueType := ValueType.all.filter s.has

/-- How many types are left. -/
def card (s : TypeSet) : Nat := s.numeric.toNat + s.string.toNat + s.boolean.toNat + s.byteSequence.toNat

/-- The type, if exactly one is left. -/
def single? (s : TypeSet) : Option ValueType :=
  match s.toList with
  | [t] => some t
  | _ => none

/-- The members in braces. -/
def text (s : TypeSet) : String :=
  "\x7b" ++ ", ".intercalate (s.toList.map ValueType.name) ++ "\x7d"

/-- How a set reads in a message: the bare name of its type if there is only one. -/
def describe (s : TypeSet) : String :=
  match s.single? with
  | some t => t.name
  | none => s.text

@[simp] theorem has_inter (a b : TypeSet) (t : ValueType) :
    (a.inter b).has t = (a.has t && b.has t) := by cases t <;> rfl

@[simp] theorem has_union (a b : TypeSet) (t : ValueType) :
    (a.union b).has t = (a.has t || b.has t) := by cases t <;> rfl

@[simp] theorem has_only (a t : ValueType) : (only a).has t = decide (a = t) := by
  cases a <;> cases t <;> rfl

@[simp] theorem has_empty (t : ValueType) : empty.has t = false := by cases t <;> rfl

@[simp] theorem has_full (t : ValueType) : full.has t = true := by cases t <;> rfl

/-- A set is known by its members. -/
@[ext] theorem ext_has {a b : TypeSet} (h : ∀ t, a.has t = b.has t) : a = b := by
  obtain ⟨n, s, o, y⟩ := a
  obtain ⟨n', s', o', y'⟩ := b
  have h1 := h .numeric
  have h2 := h .string
  have h3 := h .boolean
  have h4 := h .byteSequence
  simp only [has] at h1 h2 h3 h4
  simp [h1, h2, h3, h4]

theorem card_inter_le (a b : TypeSet) : (a.inter b).card ≤ a.card := by
  obtain ⟨n, s, o, y⟩ := a
  obtain ⟨n', s', o', y'⟩ := b
  revert n s o y n' s' o' y'
  decide

end TypeSet
end TolerantExpr
