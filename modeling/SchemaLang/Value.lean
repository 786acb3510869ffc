/-! Constant values. A number is kept as it is written, so that nothing of it is lost,
and an object keeps its entries in order, repeated names included. -/

namespace SchemaLang

inductive Value where
  | int (text : String)
  | float (text : String)
  | string (value : String)
  | boolean (value : Bool)
  | null
  | enum (name : String)
  | list (items : List Value)
  | object (entries : List (String × Value))

namespace Value

instance : Inhabited Value := ⟨null⟩

mutual

/-- Are two values written alike, up to layout and the spelling of strings? -/
def beq : Value → Value → Bool
  | int a, int b => a == b
  | float a, float b => a == b
  | string a, string b => a == b
  | boolean a, boolean b => a == b
  | null, null => true
  | enum a, enum b => a == b
  | list a, list b => beqItems a b
  | object a, object b => beqEntries a b
  | _, _ => false

def beqItems : List Value → List Value → Bool
  | [], [] => true
  | a :: as, b :: bs => beq a b && beqItems as bs
  | _, _ => false

def beqEntries : List (String × Value) → List (String × Value) → Bool
  | [], [] => true
  | (k, a) :: as, (l, b) :: bs => k == l && beq a b && beqEntries as bs
  | _, _ => false

end

instance : BEq Value := ⟨beq⟩

end Value

end SchemaLang
