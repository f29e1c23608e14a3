import ControlFlow.Edge
import ControlFlow.Fault
import ControlFlow.View

namespace ControlFlow

structure Crossing where
  source : BlockId
  target : BlockId
  kind : EdgeClass
  deriving DecidableEq

structure Numbering where
  root : BlockId
  pres : Array (Option Nat)
  posts : Array (Option Nat)
  parents : Array (Option BlockId)
  preorder : Array BlockId
  postorder : Array BlockId
  crossings : Array Crossing
  deriving DecidableEq

namespace Numbering

def bound (N : Numbering) : Nat :=
  N.pres.size

def size (N : Numbering) : Nat :=
  N.preorder.size

def isEmpty (N : Numbering) : Bool :=
  N.preorder.isEmpty

def pre? (N : Numbering) (b : BlockId) : Option Nat :=
  N.pres[b]?.join

def post? (N : Numbering) (b : BlockId) : Option Nat :=
  N.posts[b]?.join

def rpost? (N : Numbering) (b : BlockId) : Option Nat :=
  (N.post? b).map (N.size - 1 - ·)

def parent? (N : Numbering) (b : BlockId) : Option BlockId :=
  N.parents[b]?.join

def contains (N : Numbering) (b : BlockId) : Bool :=
  (N.pre? b).isSome

def block? (N : Numbering) (i : Nat) : Option BlockId :=
  N.preorder[i]?

def reversePostorder (N : Numbering) : List BlockId :=
  N.postorder.toList.reverse

def blank (root : BlockId) (bound : Nat) : Numbering :=
  { root
    pres := Array.replicate bound none
    posts := Array.replicate bound none
    parents := Array.replicate bound none
    preorder := #[]
    postorder := #[]
    crossings := #[] }

def enter (N : Numbering) (b : BlockId) (parent : Option BlockId) : Numbering :=
  { N with
    pres := N.pres.setIfInBounds b (some N.preorder.size)
    parents := N.parents.setIfInBounds b parent
    preorder := N.preorder.push b }

def leave (N : Numbering) (b : BlockId) : Numbering :=
  { N with
    posts := N.posts.setIfInBounds b (some N.postorder.size)
    postorder := N.postorder.push b }

def cross (N : Numbering) (u v : BlockId) (kind : EdgeClass) : Numbering :=
  { N with crossings := N.crossings.push ⟨u, v, kind⟩ }

def classify (N : Numbering) (u v : BlockId) : EdgeClass :=
  match N.pre? v with
  | none => .tree
  | some j =>
      if (N.post? v).isNone then .back
      else if (N.pre? u).any (· < j) then .forward
      else .cross

def unnumbered (N : Numbering) : Nat :=
  N.pres.countP (·.isNone)

theorem unnumbered_enter_lt {N : Numbering} {b : BlockId} (parent : Option BlockId)
    (h : N.pres[b]? = some none) : (N.enter b parent).unnumbered < N.unnumbered := by
  obtain ⟨hb, hn⟩ := Array.getElem?_eq_some_iff.mp h
  have hpos : 0 < N.pres.countP (·.isNone) :=
    Array.countP_pos_iff.mpr ⟨none, hn ▸ Array.getElem_mem hb, rfl⟩
  simp only [unnumbered, enter, Array.setIfInBounds, hb, dif_pos, Array.countP_set, hn,
    Option.isNone_none, Option.isNone_some, if_true, Bool.false_eq_true, if_false, Nat.add_zero]
  exact Nat.sub_lt hpos Nat.one_pos

end Numbering

structure Frame where
  block : BlockId
  rest : List BlockId

def Frame.work : List Frame → Nat
  | [] => 0
  | f :: fs => f.rest.length + 1 + work fs

def Numbering.run (g : View) : List Frame → Numbering → Except Fault Numbering
  | [], N => .ok N
  | ⟨u, []⟩ :: stack, N => run g stack (N.leave u)
  | ⟨u, v :: vs⟩ :: stack, N =>
      match _hv : N.pres[v]? with
      | none => .error .indexOutOfBounds
      | some none =>
          run g (⟨v, g.succs v⟩ :: ⟨u, vs⟩ :: stack)
            ((N.cross u v (N.classify u v)).enter v (some u))
      | some (some _) => run g (⟨u, vs⟩ :: stack) (N.cross u v (N.classify u v))
termination_by stack N => (N.unnumbered, Frame.work stack)
decreasing_by
  · exact Prod.Lex.right _ (by simp only [Frame.work, List.length_nil]; omega)
  · exact Prod.Lex.left _ _
      (Numbering.unnumbered_enter_lt (N := N.cross u v (N.classify u v)) (some u) (by assumption))
  · exact Prod.Lex.right _ (by simp only [Frame.work, List.length_cons]; omega)

/-- The numbering from `root`, empty when `root` is outside the graph. -/
def View.number (g : View) (root : BlockId) : Except Fault Numbering :=
  if root < g.bound then
    Numbering.run g [⟨root, g.succs root⟩] ((Numbering.blank root g.bound).enter root none)
  else .ok (.blank root g.bound)

def Rooted.number (g : Rooted) : Except Fault Numbering :=
  g.toView.number g.root

end ControlFlow
