namespace ControlFlow

/-- The position of a block among all blocks its graph ever created. -/
abbrev BlockId := Nat

namespace BlockId

def text (b : BlockId) : String :=
  "b" ++ Nat.repr b

def tagged (b : BlockId) : String :=
  "BlockId(" ++ Nat.repr b ++ ")"

def taggedOption : Option BlockId → String
  | none => "None"
  | some b => "Some(" ++ tagged b ++ ")"

def taggedItems (bs : List BlockId) : String :=
  ", ".intercalate (bs.map tagged)

def taggedList (bs : List BlockId) : String :=
  "[" ++ taggedItems bs ++ "]"

end BlockId

end ControlFlow
