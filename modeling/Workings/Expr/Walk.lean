import Workings.Expr.Basic

/-!
# Walking an expression in post-order

A walk visits every node of an expression after its parts, from left to right, with a stack in place
of recursion. A node is told apart from an equal one elsewhere by its position, the way from the root
down to it. The top of the stack is ready to be visited once its last part has just been visited;
otherwise its parts go on the stack first.
-/

namespace Workings

/-- The way from the root to a node, the last turn first. -/
abbrev Position := List Nat

/-- The state of a walk: the nodes still to be visited, and the position visited last. -/
structure Walk where
  stack : List (Position × Expr)
  last : Option Position

namespace Walk

/-- A walk that has not visited anything yet. -/
def start (e : Expr) : Walk :=
  ⟨[([], e)], none⟩

/-- The parts of a node with their positions. -/
def placed (position : Position) (e : Expr) : List (Position × Expr) :=
  e.children.zipIdx.map fun (child, index) => (index :: position, child)

/-- One move of the walk: a visit of the top of the stack, or its parts put on the stack. There is
none when the walk is over. -/
def step? (walk : Walk) : Option (Option Expr × Walk) :=
  match walk.stack with
  | [] => none
  | (position, e) :: rest =>
    let parts := placed position e
    let ready := parts.getLast?.all fun part => walk.last == some part.1
    if ready then
      some (some e, ⟨rest, some position⟩)
    else
      some (none, ⟨parts ++ walk.stack, walk.last⟩)

/-- The nodes visited in at most `moves` moves. -/
def visits : Nat → Walk → List Expr
  | 0, _ => []
  | moves + 1, walk =>
    match walk.step? with
    | none => []
    | some (some e, next) => e :: visits moves next
    | some (none, next) => visits moves next

end Walk

/-- Every node of an expression in post-order. A node takes at most two moves. -/
def Expr.postOrder (e : Expr) : List Expr :=
  Walk.visits (2 * e.size) (Walk.start e)

end Workings
