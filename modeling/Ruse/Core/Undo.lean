import Ruse.Core.Edit

/-!
# The undo history

The model of `crates/core/src/undo.rs` and of the transaction types of
`transaction.rs`: a branching tree of nodes in creation order, the group each
node undoes with, and the moves `undo`, `redo`, and `toChronological` that walk
it. A node is named by its index, and a freshly recorded node is appended.

The loops of the source follow parent or child edges; here they carry `fuel`,
and `nodes.length` is always enough of it (`Ruse.Core.UndoInvariant`).
-/

namespace Ruse.Core

inductive TransactionOrigin where
  | userInput
  | macro'
  | plugin
  | lsp
  | aiAgent
  | remotePeer
deriving DecidableEq, Repr, Inhabited

/-- How a transaction joins the history's grouping of adjacent changes. -/
inductive GroupHint where
  | continue'
  | breakBefore
  | joinPrev
deriving DecidableEq, Repr, Inhabited

/-- A proposed mutation: an edit list onto a specific base revision. -/
structure Transaction where
  baseRevision : Nat
  edits : EditList
  origin : TransactionOrigin
  groupHint : GroupHint
  cursor : Option Nat

namespace Transaction

/-- A transaction with the default grouping. -/
def new (baseRevision : Nat) (edits : EditList) (origin : TransactionOrigin) : Transaction :=
  ⟨baseRevision, edits, origin, .continue', none⟩

/-- Record where the cursor stood when this change began. -/
def withCursor (t : Transaction) (cursor : Nat) : Transaction := { t with cursor := some cursor }

def withHint (t : Transaction) (hint : GroupHint) : Transaction := { t with groupHint := hint }

end Transaction

/-- A node in the undo tree: one transaction applied to its parent. -/
structure UndoNode where
  parent : Option Nat
  children : List Nat
  seq : Nat
  group : Nat
  forward : Option EditList
  inverse : Option EditList
  origin : Option TransactionOrigin
  resultRevision : Nat
  redoChild : Option Nat
  cursor : Nat

/-- What one `u`/`C-r`/`g-`/`g+` step re-applies. -/
structure UndoStep where
  /-- The edit lists to apply, in order. -/
  edits : List EditList
  /-- The undo group each of `edits` belongs to. -/
  groups : List Nat
  /-- The node current after each of `edits`, and the origin of the node whose
  edits it is. -/
  nodes : List (Nat × Option TransactionOrigin)
  /-- `edits[tail..]` belong to the last group the step crossed. -/
  tail : Nat
  /-- Whether that last group was re-applied forwards. -/
  forward : Bool
  /-- The last group's start cursor. -/
  cursor : Nat

/-- The in-memory undo history for one document. -/
structure UndoHistory where
  nodes : List UndoNode
  current : Nat
  chronological : List Nat
  nextSeq : Nat
  nextGroup : Nat
  lastWasNav : Bool
  synced : Bool

namespace UndoHistory

/-- The root of a history at `baseRevision`. -/
def rootNode (baseRevision : Nat) : UndoNode where
  parent := none
  children := []
  seq := 0
  group := 0
  forward := none
  inverse := none
  origin := none
  resultRevision := baseRevision
  redoChild := none
  cursor := 0

/-- A history rooted at `baseRevision`. -/
def new (baseRevision : Nat) : UndoHistory where
  nodes := [rootNode baseRevision]
  current := 0
  chronological := [0]
  nextSeq := 1
  nextGroup := 1
  lastWasNav := false
  synced := false

/-- `self.nodes[i]`; an index past the end, where the source panics, reads as a
root. -/
def node (h : UndoHistory) (i : Nat) : UndoNode := h.nodes.getD i (rootNode 0)

def sync (h : UndoHistory) : UndoHistory := { h with synced := true }

def freshGroup (h : UndoHistory) : Nat × UndoHistory :=
  (h.nextGroup, { h with nextGroup := h.nextGroup + 1 })

/-- The group a change appended to `current` belongs to. -/
def groupFor (h : UndoHistory) (origin : TransactionOrigin) (hint : GroupHint) :
    Nat × UndoHistory :=
  let cur := h.node h.current
  let mergeable := cur.parent.isSome && !h.lastWasNav
  match hint with
  | .breakBefore => h.freshGroup
  | .joinPrev => if mergeable then (cur.group, h) else h.freshGroup
  | .continue' =>
    if mergeable && !h.synced && cur.origin == some origin then (cur.group, h)
    else h.freshGroup

/-- Append `id` to the children of node `p` and make it the redo target. -/
def addChild (nodes : List UndoNode) (p id : Nat) : List UndoNode :=
  nodes.modify p fun n => { n with children := n.children ++ [id], redoChild := some id }

/-- Record a freshly-applied transaction as a new child of `current`, and move
`current` onto it. -/
def record (h : UndoHistory) (forward inverse : EditList) (origin : TransactionOrigin)
    (hint : GroupHint) (resultRevision cursor : Nat) : UndoHistory :=
  let (group, h) := h.groupFor origin hint
  let id := h.nodes.length
  let node : UndoNode :=
    { parent := some h.current, children := [], seq := h.nextSeq, group,
      forward := some forward, inverse := some inverse, origin := some origin,
      resultRevision, redoChild := none, cursor }
  { nodes := addChild (h.nodes ++ [node]) h.current id
    current := id
    chronological := h.chronological ++ [id]
    nextSeq := h.nextSeq + 1
    nextGroup := h.nextGroup
    lastWasNav := false
    synced := false }

/-- `self.nodes[p].redo_child = Some(c)`. -/
def setRedoChild (h : UndoHistory) (p c : Nat) : UndoHistory :=
  { h with nodes := h.nodes.modify p fun n => { n with redoChild := some c } }

/-- The edit lists of a node; every node but the root carries both. -/
def forwardOf (h : UndoHistory) (i : Nat) : EditList := (h.node i).forward.getD .empty

def inverseOf (h : UndoHistory) (i : Nat) : EditList := (h.node i).inverse.getD .empty

/-- The empty step a loop starts from. -/
def emptyStep : UndoStep := ⟨[], [], [], 0, false, 0⟩

/-- The loop of `undo`: leave nodes of `group`, the current one first. -/
def undoLoop (group : Nat) : Nat → UndoHistory → UndoStep → UndoHistory × UndoStep
  | 0, h, out => (h, out)
  | fuel + 1, h, out =>
    let node := h.node h.current
    match node.parent with
    | none => (h, out)
    | some parent =>
      if node.group ≠ group then (h, out)
      else
        undoLoop group fuel { h.setRedoChild parent h.current with current := parent }
          { out with
            edits := out.edits ++ [h.inverseOf h.current]
            groups := out.groups ++ [group]
            nodes := out.nodes ++ [((h.node parent).seq, node.origin)]
            cursor := node.cursor }

/-- Undo the whole current group. `none` at the root. -/
def undo (h : UndoHistory) : Option (UndoHistory × UndoStep) :=
  match (h.node h.current).parent with
  | none => none
  | some _ =>
    let (h', out) := undoLoop (h.node h.current).group h.nodes.length h emptyStep
    some ({ h' with lastWasNav := true }, out)

/-- The child `C-r` moves into from `n`: the branch last visited, else the
newest. -/
def redoTarget (h : UndoHistory) (n : Nat) : Option Nat :=
  (h.node n).redoChild.or (h.node n).children.getLast?

/-- The loop of `redo`: enter `node`, then its redo target while that is of the
same group. -/
def redoLoop (group : Nat) : Nat → UndoHistory → Nat → UndoStep → UndoHistory × UndoStep
  | 0, h, _, out => (h, out)
  | fuel + 1, h, node, out =>
    let out :=
      { out with
        edits := out.edits ++ [h.forwardOf node]
        groups := out.groups ++ [group]
        nodes := out.nodes ++ [((h.node node).seq, (h.node node).origin)] }
    let h := { h with current := node }
    match h.redoTarget node with
    | some child =>
      if (h.node child).group = group then redoLoop group fuel h child out else (h, out)
    | none => (h, out)

/-- Redo the whole next group along the branch last visited. -/
def redo (h : UndoHistory) : Option (UndoHistory × UndoStep) :=
  match h.redoTarget h.current with
  | none => none
  | some first =>
    let (h', out) := redoLoop (h.node first).group h.nodes.length h first emptyStep
    some ({ h' with lastWasNav := true },
      { out with tail := 0, forward := true, cursor := (h.node first).cursor })

/-- `n` and every ancestor up to the root, nearest first. -/
def ancestry (h : UndoHistory) : Nat → Nat → List Nat
  | 0, n => [n]
  | fuel + 1, n =>
    match (h.node n).parent with
    | some p => n :: ancestry h fuel p
    | none => [n]

/-- Walk from `node` to the root until an ancestor of `current` is met: that one,
and the nodes strictly below it, top first. -/
def climb (h : UndoHistory) (currentAncestry : List Nat) : Nat → Nat → List Nat → Nat × List Nat
  | 0, node, down => (node, down)
  | fuel + 1, node, down =>
    if node ∈ currentAncestry then (node, down)
    else
      match (h.node node).parent with
      | some p => climb h currentAncestry fuel p (node :: down)
      | none => (node, node :: down)

/-- What the two loops of `navigate_to` thread besides the history. -/
structure NavState where
  hist : UndoHistory
  out : UndoStep
  /-- The group of the run of edit lists being collected. -/
  group : Option Nat

/-- One round of the loop up: the inverse of node `c`, whose parent is `parent`. -/
def NavState.leave (s : NavState) (c parent : Nat) : NavState :=
  let h := s.hist
  let node := h.node c
  { hist := h.setRedoChild parent c
    group := some node.group
    out :=
      { s.out with
        tail := if s.group = some node.group then s.out.tail else s.out.edits.length
        cursor := node.cursor
        groups := s.out.groups ++ [node.group]
        edits := s.out.edits ++ [h.inverseOf c]
        nodes := s.out.nodes ++ [((h.node parent).seq, node.origin)] } }

/-- One round of the loop down: the forward edits of node `n`. -/
def NavState.enter (s : NavState) (n : Nat) : NavState :=
  let h := match (s.hist.node n).parent with
    | some p => s.hist.setRedoChild p n
    | none => s.hist
  let node := h.node n
  let fresh := s.group ≠ some node.group
  { hist := h
    group := some node.group
    out :=
      { s.out with
        tail := if fresh then s.out.edits.length else s.out.tail
        cursor := if fresh then node.cursor else s.out.cursor
        groups := s.out.groups ++ [node.group]
        nodes := s.out.nodes ++ [(node.seq, node.origin)]
        edits := s.out.edits ++ [h.forwardOf n] } }

/-- Inverses from `c` up to (not including) `lca`. -/
def navUp (lca : Nat) : Nat → Nat → NavState → NavState
  | 0, _, s => s
  | fuel + 1, c, s =>
    if c = lca then s
    else
      let parent := (s.hist.node c).parent.getD 0
      navUp lca fuel parent (s.leave c parent)

/-- Forwards from just below the ancestor down to the target. -/
def navDown (down : List Nat) (s : NavState) : NavState := down.foldl NavState.enter s

/-- Move `current` to any node: inverses up to the lowest common ancestor, then
forwards down to `target`. -/
def navigateTo (h : UndoHistory) (target : Nat) : Option (UndoHistory × UndoStep) :=
  if target = h.current then none
  else
    let fuel := h.nodes.length
    let (lca, down) := h.climb (h.ancestry fuel h.current) fuel target []
    let up := navUp lca fuel h.current ⟨h, emptyStep, none⟩
    let s := navDown down { up with group := none }
    some ({ s.hist with current := target, lastWasNav := true },
      { s.out with forward := !down.isEmpty })

/-- The tip node of each undo group in creation order: the last of each maximal
run of one group in `chronological`. -/
def groupTips (h : UndoHistory) : List Nat := go h.chronological
where
  go : List Nat → List Nat
    | id :: next :: rest =>
      if (h.node next).group ≠ (h.node id).group then id :: go (next :: rest)
      else go (next :: rest)
    | [id] => [id]
    | [] => []

/-- The place among `count` tips that `g-` (`older`) / `g+` goes to from `pos`. -/
def chronologicalTarget (older : Bool) (pos count : Nat) : Option Nat :=
  if older then if pos = 0 then none else some (pos - 1)
  else if pos + 1 < count then some (pos + 1)
  else none

/-- `g-` (`older`) / `g+`: step one logical change along creation order. -/
def toChronological (h : UndoHistory) (older : Bool) : Option (UndoHistory × UndoStep) := do
  let tips := h.groupTips
  let pos ← tips.idxOf? h.current
  let target ← chronologicalTarget older pos tips.length
  h.navigateTo (tips.getD target 0)

/-- The `seq` of the current node. -/
def currentSeq (h : UndoHistory) : Nat := (h.node h.current).seq

def currentGroup (h : UndoHistory) : Nat := (h.node h.current).group

end UndoHistory

end Ruse.Core
