namespace ControlFlow

structure Passes where
  prune : Bool
  bypass : Bool
  postDominators : Bool
  crossCheck : Bool
  deriving DecidableEq, Repr

namespace Passes

def usual : Passes :=
  ⟨true, false, false, false⟩

def bare : Passes :=
  ⟨false, false, false, false⟩

def full : Passes :=
  ⟨true, true, true, true⟩

instance : Inhabited Passes :=
  ⟨usual⟩

end Passes

end ControlFlow
