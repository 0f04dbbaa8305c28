import Otsos.Foundation.Loop
import Otsos.Foundation.TreeStore

/-! The red-black tree of an address map, as `vm_map.c` writes it. The mirror-image halves of each
function are one definition over the side `d`. A null dereference, like running out of fuel, is
`none`. -/
namespace Otsos.VmMap
open RedBlack

abbrev RbTree := Store Nat

namespace RbTree
variable (s : RbTree)

/-- Let the parent of `x`, or the map's root, point to `v` instead. The side tested first is `d`. -/
def replaceChild (d : Dir) (x : Nat) (v : Option Nat) : RbTree :=
  match s.parent x with
  | none => { s with root := v }
  | some p => if s.child d p = some x then s.setChild d p v else s.setChild d.opp p v

def setParent? (x : Option Nat) (v : Option Nat) : RbTree :=
  match x with
  | none => s
  | some x => s.setParent x v

def setColor? (x : Option Nat) (c : Color) : RbTree :=
  match x with
  | none => s
  | some x => s.setColor x c

def rbRotate (d : Dir) (s : RbTree) (x : Nat) : Option RbTree := do
  let y ← s.child d.opp x
  let s := s.setChild d.opp x (s.child d y)
  let s := setParent? s (s.child d y) (some x)
  let s := s.setParent y (s.parent x)
  let s := replaceChild s d x (some y)
  let s := s.setChild d y (some x)
  return s.setParent x (some y)

def rbRotateLeft : RbTree → Nat → Option RbTree := rbRotate .left

def rbRotateRight : RbTree → Nat → Option RbTree := rbRotate .right

def isRed (node : Option Nat) : Bool :=
  match node with
  | none => false
  | some node => s.color node == .red

/-- The case of a black uncle: `z` ends up below its new black parent. -/
def rotateUp (d : Dir) (s : RbTree) (z parent grand : Nat) : Option (RbTree × Nat) := do
  if s.child d.opp parent = some z then
    let z := parent
    let s ← rbRotate d s z
    let parent ← s.parent z
    let grand ← s.parent parent
    let s := (s.setColor parent .black).setColor grand .red
    return (← rbRotate d.opp s grand, z)
  else
    let s := (s.setColor parent .black).setColor grand .red
    return (← rbRotate d.opp s grand, z)

def rbInsertLoop : Nat → RbTree → Nat → Option RbTree
  | 0, _, _ => none
  | fuel + 1, s, z =>
    match s.parent z with
    | none => some s
    | some parent =>
      if s.color parent = .red then
        match s.parent parent with
        | none => some s
        | some grand =>
          let d := if s.child .left grand = some parent then Dir.left else Dir.right
          let uncle := s.child d.opp grand
          if isRed s uncle then
            rbInsertLoop fuel
              ((setColor? (s.setColor parent .black) uncle .black).setColor grand .red) grand
          else do
            let (s, z) ← rotateUp d s z parent grand
            rbInsertLoop fuel s z
      else some s

def rbInsertFixup (fuel : Nat) (s : RbTree) (z : Nat) : Option RbTree := do
  let s ← rbInsertLoop fuel s z
  let root ← s.root
  return s.setColor root .black

def rbTransplant (u : Nat) (v : Option Nat) : RbTree :=
  setParent? (replaceChild s .left u v) v (s.parent u)

def rbMinimum : Nat → RbTree → Nat → Option Nat
  | 0, _, _ => none
  | fuel + 1, s, node =>
    match s.child .left node with
    | none => some node
    | some left => rbMinimum fuel s left

def rbIsBlack (node : Option Nat) : Bool :=
  match node with
  | none => true
  | some node => s.color node == .black

/-- A red sibling is rotated above `parent`; the answer has the sibling afterwards. -/
def raiseSibling (d : Dir) (s : RbTree) (parent : Nat) : Option (RbTree × Option Nat) :=
  match s.child d.opp parent with
  | none => some (s, none)
  | some w =>
    if s.color w = .red then do
      let s ← rbRotate d ((s.setColor w .black).setColor parent .red) parent
      return (s, s.child d.opp parent)
    else some (s, some w)

/-- The inner child of the sibling `w` is red: turn it above `w`. -/
def raiseNephew (d : Dir) (s : RbTree) (w : Nat) : Option RbTree :=
  rbRotate d.opp ((setColor? s (s.child d w) .black).setColor w .red) w

/-- The outer child of the sibling `w` is red: turn `w` above `parent`. -/
def turnParent (d : Dir) (s : RbTree) (parent : Nat) (w : Option Nat) : Option RbTree :=
  let s := match w with
    | none => s
    | some w => setColor? (s.setColor w (s.color parent)) (s.child d.opp w) .black
  rbRotate d (s.setColor parent .black) parent

/-- The last case: a black sibling with a red child. -/
def borrow (d : Dir) (s : RbTree) (parent w : Nat) : Option RbTree :=
  if rbIsBlack s (s.child d.opp w) then do
    let s ← raiseNephew d s w
    turnParent d s parent (s.child d.opp parent)
  else turnParent d s parent (some w)

/-- The loop's answer is the node to be painted black after it. -/
def rbRemoveLoop : Nat → RbTree → Option Nat → Option Nat → Option (RbTree × Option Nat)
  | 0, _, _, _ => none
  | fuel + 1, s, x, parent =>
    if x ≠ s.root ∧ rbIsBlack s x then
      match parent with
      | none => some (s, x)
      | some parent => do
        let d := if x = s.child .left parent then Dir.left else Dir.right
        let (s, w) ← raiseSibling d s parent
        match w with
        | none => rbRemoveLoop fuel s (some parent) (s.parent parent)
        | some w =>
          if rbIsBlack s (s.child .left w) ∧ rbIsBlack s (s.child .right w) then
            let s := s.setColor w .red
            rbRemoveLoop fuel s (some parent) (s.parent parent)
          else
            let s ← borrow d s parent w
            rbRemoveLoop fuel s s.root none
    else some (s, x)

def rbRemoveFixup (fuel : Nat) (s : RbTree) (x parent : Option Nat) : Option RbTree := do
  let (s, x) ← rbRemoveLoop fuel s x parent
  return setColor? s x .black

/-- `y` takes the place of `entry`; its right subtree is in place already. -/
def replaceEntry (entry y : Nat) : Option RbTree := do
  let s := rbTransplant s entry (some y)
  let s := s.setChild .left y (s.child .left entry)
  let left ← s.child .left y
  let s := s.setParent left (some y)
  return s.setColor y (s.color entry)

/-- Take the successor `y` of `entry` out and give it the right subtree of `entry`. The answer has
the node above the place where `y` was. -/
def liftSuccessor (entry y : Nat) : Option (RbTree × Option Nat) :=
  if s.parent y = some entry then some (s, some y)
  else do
    let parent := s.parent y
    let s := rbTransplant s y (s.child .right y)
    let s := s.setChild .right y (s.child .right entry)
    let right ← s.child .right y
    return (s.setParent right (some y), parent)

/-- Cut `entry` out. The answer has the subtree that moved up, the node above it and the colour that
went missing on the path to it. -/
def rbSplice (fuel : Nat) (s : RbTree) (entry : Nat) :
    Option (RbTree × Option Nat × Option Nat × Color) :=
  match s.child .left entry, s.child .right entry with
  | none, right => some (rbTransplant s entry right, right, s.parent entry, s.color entry)
  | some left, none =>
    some (rbTransplant s entry (some left), some left, s.parent entry, s.color entry)
  | some _, some right => do
    let y ← rbMinimum fuel s right
    let removedColor := s.color y
    let x := s.child .right y
    let (s, parent) ← liftSuccessor s entry y
    let s ← replaceEntry s entry y
    return (s, x, parent, removedColor)

/-- The tree part of `vm_map_unlink`. -/
def rbRemove (fuel : Nat) (s : RbTree) (entry : Nat) : Option RbTree := do
  let (s, x, parent, removedColor) ← rbSplice fuel s entry
  let s ← if removedColor = .black then rbRemoveFixup fuel s x parent else pure s
  let s := (s.setChild .left entry none).setChild .right entry none
  return s.setParent entry none

end RbTree

end Otsos.VmMap
