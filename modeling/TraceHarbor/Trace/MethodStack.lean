import TraceHarbor.Trace.MethodEvent

/-!
# From Method Events to a Method Stack

The pipeline of `TraceDataUtils.structuredDataToStack`:

1. **Scan**: entries are pushed on `rawData`; an exit pops its entry and yields a `MethodItem`.
2. **Drain** (strict mode): entries that never saw an exit become items ending at `endTime`.
3. **Rebuild**: `stackToTree` turns the result stack into a tree of `TreeNode`s by the depths.
4. **Flatten**: `treeToStack` lists that tree in pre-order.

The mutable `TreeNode`s live in an arena indexed by allocation order.
-/

namespace TraceHarbor.Trace

structure MethodItem where
  methodId : Int
  durTime : Int
  depth : Int
  count : Int := 1
  deriving Repr, DecidableEq

def MethodItem.mergeMore (item : MethodItem) (cost : Int) : MethodItem :=
  { item with count := item.count + 1, durTime := addInt32 item.durTime cost }

def defaultAnr : Int := 5 * 1000

/-- `addMethodItem`: merge into the item on top of the stack, or push. -/
def addMethodItem (resultStack : List MethodItem) (item : MethodItem) : List MethodItem :=
  match resultStack with
  | [] => [item]
  | last :: rest =>
    if last.methodId = item.methodId ∧ last.depth = item.depth ∧ 0 ≠ item.depth then
      last.mergeMore (if item.durTime = defaultAnr then last.durTime else item.durTime) :: rest
    else
      item :: last :: rest

/-! ## Scanning the Event Buffer -/

/-- What the `while (inMethodId != outMethodId && rawData.isNotEmpty())` loop leaves behind. -/
structure PopResult where
  inVal : Long
  tmp : List Long
  depth : Int
  rawData : List Long

/-- Pop entries until one matches the exit or none is left. -/
def popToMatch (outMethodId : Int) (inVal : Long) (tmp : List Long) (depth : Int) :
    List Long → PopResult
  | [] => ⟨inVal, tmp, depth, []⟩
  | next :: rawData =>
    if getMethodId inVal ≠ outMethodId then
      popToMatch outMethodId next (tmp ++ [next]) (depth - 1) rawData
    else
      ⟨inVal, tmp, depth, next :: rawData⟩

/-- Local variables of the scan loop, with the list passed in as `result`. -/
structure ScanState where
  depth : Int
  rawData : List Long
  isBegin : Bool
  result : List MethodItem
  deriving Repr, DecidableEq

def onEnter (s : ScanState) (trueId : Long) : ScanState :=
  let depth := if getMethodId trueId = methodIdDispatch then 0 else s.depth
  { s with depth := depth + 1, rawData := trueId :: s.rawData }

/-- An exit event; `none` is the early return on a negative duration, which clears `result`. -/
def onExit (s : ScanState) (trueId : Long) : Option ScanState :=
  let outMethodId := getMethodId trueId
  match s.rawData with
  | [] => some s
  | first :: rest =>
    let m := popToMatch outMethodId first [first] (s.depth - 1) rest
    if getMethodId m.inVal ≠ outMethodId ∧ getMethodId m.inVal = methodIdDispatch then
      let rawData := m.rawData ++ m.tmp
      some { s with rawData := rawData, depth := m.depth + rawData.length }
    else
      let during := getTime trueId - getTime m.inVal
      if during.slt 0#64 then
        none
      else
        some { s with
          rawData := m.rawData
          depth := m.depth
          result := addMethodItem s.result
            { methodId := outMethodId, durTime := during.toInt32, depth := m.depth } }

def scanEvent (isStrict : Bool) (s : ScanState) (trueId : Long) : Option ScanState :=
  if trueId = 0#64 then
    some s
  else
    let isBegin := s.isBegin ||
      (isStrict && isIn trueId && decide (getMethodId trueId = methodIdDispatch))
    let s := { s with isBegin := isBegin }
    if isStrict && !isBegin then
      some s
    else if isIn trueId then
      some (onEnter s trueId)
    else
      onExit s trueId

def scan (isStrict : Bool) : List Long → ScanState → Option ScanState
  | [], s => some s
  | trueId :: buffer, s => (scanEvent isStrict s trueId).bind (scan isStrict buffer)

/-- The loop `while (rawData.isNotEmpty() && isStrict)` over entries without an exit. -/
def drain (diffTime endTime : Long) : List Long → List MethodItem → List MethodItem
  | [], result => result
  | trueId :: rawData, result =>
    if isIn trueId then
      let inTime := getTime trueId + diffTime
      drain diffTime endTime rawData (addMethodItem result
        { methodId := getMethodId trueId, durTime := (endTime - inTime).toInt32,
          depth := rawData.length })
    else
      drain diffTime endTime rawData result

/-! ## Rebuilding the Call Tree -/

/-- `TreeNode`; the root has no item. -/
structure TreeNode where
  item : Option MethodItem
  father : Option ℕ
  children : List ℕ
  deriving Repr, DecidableEq

def TreeNode.depth (node : TreeNode) : Int := (node.item.map (·.depth)).getD 0

/-- The tree nodes allocated so far; node `0` is the `root` passed to `stackToTree`. -/
structure Arena where
  nodes : ℕ → TreeNode
  next : ℕ

namespace Arena

/-- `TreeNode(null, null)` -/
def root : Arena := ⟨fun _ => ⟨none, none, []⟩, 1⟩

def alloc (a : Arena) (node : TreeNode) : Arena :=
  ⟨Function.update a.nodes a.next node, a.next + 1⟩

/-- `parent.add(node)`: the new child goes first. -/
def add (a : Arena) (parent node : ℕ) : Arena :=
  ⟨Function.update a.nodes parent
    { a.nodes parent with children := node :: (a.nodes parent).children }, a.next⟩

/-- `while (lastNode != null && lastNode.depth() > depth) lastNode = lastNode.father`. A node's
index bounds the walk. -/
def walkUp (a : Arena) (depth : Int) : ℕ → Option ℕ → Option ℕ
  | _, none => none
  | 0, some n => some n
  | fuel + 1, some n =>
    if (a.nodes n).depth > depth then a.walkUp depth fuel (a.nodes n).father else some n

end Arena

/-- One round of the loop of `stackToTree`; `none` is the early return on a first node whose
depth is not 0. -/
def buildNode (a : Arena) (lastNode : Option ℕ) (item : MethodItem) : Option (Arena × Option ℕ) :=
  let node := a.next
  match lastNode with
  | none =>
    if item.depth ≠ 0 then none
    else some ((a.alloc ⟨some item, none, []⟩).add 0 node, some node)
  | some last =>
    if item.depth = 0 then
      some ((a.alloc ⟨some item, some last, []⟩).add 0 node, some node)
    else if (a.nodes last).depth ≥ item.depth then
      match (a.walkUp item.depth a.next (some last)).bind fun n => (a.nodes n).father with
      | some father => some ((a.alloc ⟨some item, some father, []⟩).add father node, some node)
      | none => some (a.alloc ⟨some item, some last, []⟩, some node)
    else
      some ((a.alloc ⟨some item, some last, []⟩).add last node, some node)

/-- The loop of `stackToTree`. -/
def buildTree : List MethodItem → Arena → Option ℕ → Option (Arena × Option ℕ)
  | [], a, lastNode => some (a, lastNode)
  | item :: items, a, lastNode =>
    (buildNode a lastNode item).bind fun st => buildTree items st.1 st.2

/-- `stackToTree`, from a fresh root; a failed start leaves the root without children. -/
def stackToTree (resultStack : List MethodItem) : Arena :=
  match buildTree resultStack Arena.root none with
  | some (a, _) => a
  | none => Arena.root

/-- `treeToStack`, the pre-order listing below a node; the recursion is no deeper than the number
of nodes. -/
def treeToStack (a : Arena) : ℕ → ℕ → List MethodItem
  | 0, _ => []
  | fuel + 1, node =>
    (a.nodes node).children.flatMap fun c => (a.nodes c).item.toList ++ treeToStack a fuel c

/-! ## The Pipeline -/

/-- `structuredDataToStack`; `diffTime` is `AppMethodBeat.getDiffTime()`. -/
def structuredDataToStack (diffTime : Long) (buffer : List Long) (result : List MethodItem)
    (isStrict : Bool) (endTime : Long) : List MethodItem :=
  match scan isStrict buffer ⟨0, [], !isStrict, result⟩ with
  | none => []
  | some s =>
    let result := if isStrict then drain diffTime endTime s.rawData s.result else s.result
    let tree := stackToTree result
    treeToStack tree tree.next 0

end TraceHarbor.Trace
