/-
Names and values.

A `Value` is what an argument is given or a variable falls back on.  Numbers
keep their text; there is no null.

* `Value.induct` — induction over values and the values inside them;
* `Value.isConst` — whether a value is free of variables;
* `Value.same_iff` — equality of values is decidable.
-/
namespace GraphQL

/-- A name as it stands in a document. -/
structure Name where
  text : String
deriving DecidableEq

/-- A reference to a variable. -/
structure Variable where
  name : Name
deriving DecidableEq

mutual

/-- An input value. -/
inductive Value
  | var (v : Variable)
  | int (text : String)
  | float (text : String)
  /-- A string, given by its contents. -/
  | string (contents : String)
  | boolean (b : Bool)
  | enum (text : String)
  | list (items : List Value)
  | object (fields : List ObjectField)

/-- A named part of an object value. -/
structure ObjectField where
  name : Name
  value : Value

end

namespace Value

/-- Induction over values and the values inside them. -/
theorem induct {motive : Value → Prop} (var : ∀ v, motive (var v)) (int : ∀ t, motive (int t))
    (float : ∀ t, motive (float t)) (string : ∀ t, motive (string t))
    (boolean : ∀ b, motive (boolean b)) (enum : ∀ t, motive (enum t))
    (list : ∀ vs, (∀ v ∈ vs, motive v) → motive (list vs))
    (object : ∀ fs, (∀ f ∈ fs, motive f.value) → motive (object fs)) (v : Value) :
    motive v := by
  apply @Value.rec motive (fun f => motive f.value) (fun vs => ∀ v ∈ vs, motive v)
    (fun fs => ∀ f ∈ fs, motive f.value)
  all_goals simp_all

mutual

/-- Whether no variable occurs in a value. -/
def isConst : Value → Bool
  | var _ => false
  | int _ | float _ | string _ | boolean _ | enum _ => true
  | list items => allConst items
  | object fields => fieldsConst fields

/-- Whether no variable occurs in any of the values. -/
def allConst : List Value → Bool
  | [] => true
  | v :: vs => v.isConst && allConst vs

/-- Whether no variable occurs in any of the fields. -/
def fieldsConst : List ObjectField → Bool
  | [] => true
  | ⟨_, v⟩ :: fs => v.isConst && fieldsConst fs

end

theorem allConst_eq (vs : List Value) : allConst vs = vs.all isConst := by
  induction vs with
  | nil => rfl
  | cons v vs ih => simp [allConst, ih]

theorem fieldsConst_eq (fs : List ObjectField) :
    fieldsConst fs = fs.all fun f => f.value.isConst := by
  induction fs with
  | nil => rfl
  | cons f fs ih =>
    obtain ⟨_, v⟩ := f
    simp [fieldsConst, ih]

mutual

/-- Structural comparison of values. -/
def same : Value → Value → Bool
  | var a, var b => a == b
  | int a, int b => a == b
  | float a, float b => a == b
  | string a, string b => a == b
  | boolean a, boolean b => a == b
  | enum a, enum b => a == b
  | list as, list bs => sameItems as bs
  | object as, object bs => sameFields as bs
  | _, _ => false

/-- Structural comparison of lists of values. -/
def sameItems : List Value → List Value → Bool
  | [], [] => true
  | a :: as, b :: bs => a.same b && sameItems as bs
  | _, _ => false

/-- Structural comparison of object fields. -/
def sameFields : List ObjectField → List ObjectField → Bool
  | [], [] => true
  | ⟨m, v⟩ :: as, ⟨n, w⟩ :: bs => m == n && v.same w && sameFields as bs
  | _, _ => false

end

mutual

theorem same_iff (a b : Value) : a.same b = true ↔ a = b := by
  cases a <;> cases b <;> simp [same]
  · exact sameItems_iff _ _
  · exact sameFields_iff _ _
termination_by structural a

theorem sameItems_iff (as bs : List Value) : sameItems as bs = true ↔ as = bs := by
  cases as with
  | nil => cases bs <;> simp [sameItems]
  | cons a as =>
    cases bs with
    | nil => simp [sameItems]
    | cons b bs => simp [sameItems, same_iff a b, sameItems_iff as bs]
termination_by structural as

theorem sameFields_iff (as bs : List ObjectField) : sameFields as bs = true ↔ as = bs := by
  cases as with
  | nil => cases bs <;> simp [sameFields]
  | cons a as =>
    obtain ⟨m, v⟩ := a
    cases bs with
    | nil => simp [sameFields]
    | cons b bs =>
      obtain ⟨n, w⟩ := b
      simp [sameFields, same_iff v w, sameFields_iff as bs]
termination_by structural as

end

instance : DecidableEq Value := fun a b => decidable_of_iff _ (same_iff a b)

end Value

instance : DecidableEq ObjectField := fun a b =>
  decidable_of_iff (a.name = b.name ∧ a.value = b.value) (by cases a; cases b; simp)

end GraphQL
