import NyaTerm.Lib.Text

namespace NyaTerm

-- A JSON number. Floats are kept as the decimal text they are written as, so that 0.0 and -0.0 are two.
inductive Number
  | int (n : Int)
  | float (text : String)
  deriving DecidableEq

-- `serde_json::Value`. The order of an object's members is not observable: `Json.same` is the
-- equality of the source.
inductive Json
  | null
  | bool (b : Bool)
  | number (n : Number)
  | string (s : String)
  | array (values : List Json)
  | object (fields : List (String × Json))

namespace Json

mutual

def decEq : (a b : Json) → Decidable (a = b)
  | null, null => isTrue rfl
  | bool a, bool b => decidable_of_iff (a = b) (by simp)
  | number a, number b => decidable_of_iff (a = b) (by simp)
  | string a, string b => decidable_of_iff (a = b) (by simp)
  | array as, array bs => have := decEqValues as bs; decidable_of_iff (as = bs) (by simp)
  | object as, object bs => have := decEqFields as bs; decidable_of_iff (as = bs) (by simp)
  | null, bool _ | null, number _ | null, string _ | null, array _
  | null, object _ | bool _, null | bool _, number _ | bool _, string _
  | bool _, array _ | bool _, object _ | number _, null | number _, bool _
  | number _, string _ | number _, array _ | number _, object _ | string _, null
  | string _, bool _ | string _, number _ | string _, array _ | string _, object _
  | array _, null | array _, bool _ | array _, number _ | array _, string _
  | array _, object _ | object _, null | object _, bool _ | object _, number _
  | object _, string _ | object _, array _ => isFalse (nomatch ·)

def decEqValues : (as bs : List Json) → Decidable (as = bs)
  | [], [] => isTrue rfl
  | a :: as, b :: bs =>
    have := decEq a b
    have := decEqValues as bs
    decidable_of_iff (a = b ∧ as = bs) (by simp)
  | [], _ :: _ | _ :: _, [] => isFalse (nomatch ·)

def decEqFields : (as bs : List (String × Json)) → Decidable (as = bs)
  | [], [] => isTrue rfl
  | (i, a) :: as, (j, b) :: bs =>
    have := decEq a b
    have := decEqFields as bs
    decidable_of_iff (i = j ∧ a = b ∧ as = bs) (by simp [and_assoc])
  | [], _ :: _ | _ :: _, [] => isFalse (nomatch ·)

end

instance : DecidableEq Json := decEq

def isObject : Json → Bool
  | object _ => true
  | _ => false

def isArray : Json → Bool
  | array _ => true
  | _ => false

def asBool : Json → Option Bool
  | bool b => some b
  | _ => none

def isBoolean (v : Json) : Bool :=
  v.asBool.isSome

def asString : Json → Option String
  | string s => some s
  | _ => none

def asObject : Json → Option (List (String × Json))
  | object fields => some fields
  | _ => none

def get (v : Json) (name : String) : Option Json :=
  v.asObject.bind (·.lookup name)

def pick (source : Json) (fields : List String) : Json :=
  object <| fields.filterMap fun field => (source.get field).map (field, ·)

mutual

def sortAllObjects : Json → Json
  | array values => array (sortValues values)
  | object fields => object ((sortFields fields).insertionSort (·.1 ≤ ·.1))
  | v => v

def sortValues : List Json → List Json
  | [] => []
  | v :: vs => v.sortAllObjects :: sortValues vs

def sortFields : List (String × Json) → List (String × Json)
  | [] => []
  | (name, v) :: vs => (name, v.sortAllObjects) :: sortFields vs

end

def same (a b : Json) : Bool :=
  a.sortAllObjects = b.sortAllObjects

def Number.toText : Number → String
  | .int n => toString n
  | .float text => text

mutual

-- `serde_json::to_vec`, as text.
def toText : Json → String
  | null => "null"
  | bool b => if b then "true" else "false"
  | number n => Number.toText n
  | string s => String.ofList (Text.quote s.toList)
  | array values => "[" ++ ",".intercalate (valueTexts values) ++ "]"
  | object fields => "\x7b" ++ ",".intercalate (fieldTexts fields) ++ "\x7d"

def valueTexts : List Json → List String
  | [] => []
  | v :: vs => v.toText :: valueTexts vs

def fieldTexts : List (String × Json) → List String
  | [] => []
  | (name, v) :: vs => (String.ofList (Text.quote name.toList) ++ ":" ++ v.toText) :: fieldTexts vs

end

end Json
end NyaTerm
