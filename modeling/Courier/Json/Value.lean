import Courier.Number.Decimal

/-!
JSON values.

A number is a whole number or a double.  The members of an object are kept in strictly ascending
order of their keys, so that two objects are equal exactly when they hold the same members;
`Members.insert` keeps that order and lets the last of two equal keys win.
-/

namespace Courier.Json

/-- A number of a JSON text: whole numbers stay exact, all others are doubles. -/
inductive Number
  | whole (n : Int)
  | real (x : Binary64)
deriving DecidableEq

/-- A JSON value.  The members of an object are in ascending order of their keys. -/
inductive Value
  | null
  | bool (b : Bool)
  | number (n : Number)
  | string (s : String)
  | array (items : List Value)
  | object (members : List (String × Value))

/-! ### Equality -/

mutual

/-- Equality of values is decided along their structure. -/
def Value.decEq : (a b : Value) → Decidable (a = b)
  | .null, .null => isTrue rfl
  | .bool a, .bool b => decidable_of_iff (a = b) (by simp)
  | .number a, .number b => decidable_of_iff (a = b) (by simp)
  | .string a, .string b => decidable_of_iff (a = b) (by simp)
  | .array a, .array b => @decidable_of_iff _ (a = b) (by simp) (Value.decEqItems a b)
  | .object a, .object b => @decidable_of_iff _ (a = b) (by simp) (Value.decEqMembers a b)
  | .null, .bool _ | .null, .number _ | .null, .string _ | .null, .array _ | .null, .object _
  | .bool _, .null | .bool _, .number _ | .bool _, .string _ | .bool _, .array _
  | .bool _, .object _ | .number _, .null | .number _, .bool _ | .number _, .string _
  | .number _, .array _ | .number _, .object _ | .string _, .null | .string _, .bool _
  | .string _, .number _ | .string _, .array _ | .string _, .object _ | .array _, .null
  | .array _, .bool _ | .array _, .number _ | .array _, .string _ | .array _, .object _
  | .object _, .null | .object _, .bool _ | .object _, .number _ | .object _, .string _
  | .object _, .array _ => isFalse (by simp)

/-- Equality of lists of values. -/
def Value.decEqItems : (a b : List Value) → Decidable (a = b)
  | [], [] => isTrue rfl
  | [], _ :: _ | _ :: _, [] => isFalse (by simp)
  | a :: as, b :: bs =>
    match Value.decEq a b, Value.decEqItems as bs with
    | isTrue h, isTrue k => isTrue (by rw [h, k])
    | isFalse h, _ => isFalse (by simp [h])
    | _, isFalse k => isFalse (by simp [k])

/-- Equality of lists of members. -/
def Value.decEqMembers : (a b : List (String × Value)) → Decidable (a = b)
  | [], [] => isTrue rfl
  | [], _ :: _ | _ :: _, [] => isFalse (by simp)
  | (k, a) :: as, (l, b) :: bs =>
    if h : k = l then
      match Value.decEq a b, Value.decEqMembers as bs with
      | isTrue h', isTrue k' => isTrue (by rw [h, h', k'])
      | isFalse h', _ => isFalse (by simp [h'])
      | _, isFalse k' => isFalse (by simp [k'])
    else isFalse (by simp [h])

end

instance : DecidableEq Value := Value.decEq

instance : Inhabited Value := ⟨.null⟩

/-! ### Members -/

namespace Members

variable {α : Type}

/-- Adds a member in key order; a member of the same key is replaced. -/
def insert (key : String) (value : α) : List (String × α) → List (String × α)
  | [] => [(key, value)]
  | (k, v) :: rest =>
    if key < k then (key, value) :: (k, v) :: rest
    else if key = k then (key, value) :: rest
    else (k, v) :: insert key value rest

/-- The value of a key, if there is a member of that key. -/
def get? (key : String) : List (String × α) → Option α
  | [] => none
  | (k, v) :: rest => if k = key then some v else get? key rest

@[simp] theorem get?_nil (key : String) : get? key ([] : List (String × α)) = none := rfl

@[simp] theorem get?_insert_self (key : String) (value : α) (ms : List (String × α)) :
    get? key (insert key value ms) = some value := by
  induction ms with
  | nil => simp [insert, get?]
  | cons m ms ih =>
    obtain ⟨k, v⟩ := m
    simp only [insert]
    split
    · simp [get?]
    · split
      · simp [get?]
      · next h => simp [get?, Ne.symm h, ih]

/-- The members of a list of pairs, the last of equal keys winning. -/
def ofList (pairs : List (String × α)) : List (String × α) :=
  pairs.foldl (fun ms p => insert p.1 p.2 ms) []

end Members

/-- The value under a key of an object; `none` for other values and for missing keys. -/
def Value.get? (v : Value) (key : String) : Option Value :=
  match v with
  | .object ms => Members.get? key ms
  | _ => none

/-- The value with all its texts changed; keys stay. -/
def Value.mapText (f : String → String) : Value → Value
  | .null => .null
  | .bool b => .bool b
  | .number n => .number n
  | .string s => .string (f s)
  | .array items => .array (mapItems items)
  | .object ms => .object (mapMembers ms)
where
  mapItems : List Value → List Value
    | [] => []
    | v :: vs => mapText f v :: mapItems vs
  mapMembers : List (String × Value) → List (String × Value)
    | [] => []
    | (k, v) :: ms => (k, mapText f v) :: mapMembers ms

end Courier.Json
