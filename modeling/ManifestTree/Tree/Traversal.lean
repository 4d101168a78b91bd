import ManifestTree.Tree.Schema

/-!
# Walking a tree

The children of an element are the signs it consumed and the elements of its fields, in the order
of the source.  `Node.preorder` lists an element and all below it, parents first; `Node.leaves`
lists the elements without children, comments apart, in the order of the source.
-/

namespace ManifestTree

/-- Sorts by where spans start; what starts together keeps its order. -/
def sortByStart {α : Type} (start : α → Int) (items : List α) : List α :=
  items.mergeSort fun a b => decide (start a ≤ start b)

namespace Node

/-- The elements directly below an element, in the order of the source. -/
def children (n : Node) : List Node :=
  sortByStart (fun c => c.span.start) (n.tokens.map Leaf.toNode ++ n.shape.elements)

/-- A listing of a subtree, with the offset where the subtree starts. -/
structure Listing where
  /-- Where the subtree starts. -/
  start : Int
  /-- Its elements, parents first. -/
  nodes : List Node

/-- An element and everything below it, parents first. -/
def preorder (n : Node) : List Node :=
  (n.fold fun node shape =>
    let below := node.tokens.map (fun l => Listing.mk l.span.start [l.toNode]) ++ shape.elements
    Listing.mk node.span.start
      (node :: (sortByStart Listing.start below).flatMap Listing.nodes)).nodes

/-- Neither children nor a comment. -/
def isLeaf (n : Node) : Bool := n.kind ≠ .comment && n.children.isEmpty

/-- The elements without children, comments apart, in the order of the source. -/
def leaves (n : Node) : List Node :=
  sortByStart (fun c => c.span.start) (n.preorder.filter isLeaf)

/-- The segments of a name with double colons between them, after one if the name is absolute. -/
def name? (n : Node) : Option Text :=
  match n.shape with
  | .scopedName _ segments absolute =>
    let colons : Text := [':', ':']
    some ((if absolute then colons else []) ++ colons.intercalate segments)
  | _ => none

/-- The default arm of a case statement: the first arm that consists of the default alone. -/
def defaultArm? (n : Node) : Option Node :=
  match n.shape with
  | .case _ arms => arms.find? fun arm => arm.kind = .caseDefault
  | _ => none

/-- The element at a path of child numbers. -/
def descend? (n : Node) : List Nat → Option Node
  | [] => some n
  | i :: path => n.children[i]?.bind fun c => c.descend? path

end Node

end ManifestTree
