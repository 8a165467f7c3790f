import TraceHarbor.Lib.LinkedTree
import TraceHarbor.Lib.Loop

/-!
# The Splay Map of the Memory Hooks

`splay_map<TKey, TVal>` keeps its nodes and its values in two growing buffers and links the nodes by
their indices. Index 0 is the null pointer; the node there is the header that the top-down splay hangs
its two spines on. Removed nodes form a free list through their `left` links.

Every index is compared with `b_size` where the source has `check_overflow`, and with the number of
nodes that the block from `realloc` really holds. An operation is `none` when an access would leave the
buffers.
-/

namespace TraceHarbor.Hooks

open Lib

/-! ## Memory -/

structure Node (κ : Type) where
  key : κ
  left : ℕ
  right : ℕ
  deriving Inhabited

/-- The node buffer; what lies outside the allocated block is never read. -/
abbrev NodeBuffer (κ : Type) := ℕ → Node κ

namespace NodeBuffer

variable {κ : Type}

/-- `get_node_lc` and `get_node_rc`. -/
def child (k : NodeBuffer κ) (ptr : ℕ) : Side → ℕ
  | .left => (k ptr).left
  | .right => (k ptr).right

/-- Assignment to `get_node_lc(ptr)` or `get_node_rc(ptr)`. -/
def setChild (k : NodeBuffer κ) (ptr : ℕ) (d : Side) (v : ℕ) : NodeBuffer κ :=
  Function.update k ptr <|
    match d with
    | .left => { k ptr with left := v }
    | .right => { k ptr with right := v }

/-- The assignments to `get_node_key(ptr)`, `get_node_lc(ptr)` and `get_node_rc(ptr)` that fill a
new node. -/
def setNode (k : NodeBuffer κ) (ptr : ℕ) (key : κ) (left right : ℕ) : NodeBuffer κ :=
  Function.update k ptr { key := key, left := left, right := right }

end NodeBuffer

/-- The sizes of the two kinds of entries and the outcome of `realloc` on a number of bytes. -/
structure Platform where
  sizeofNode : ℕ
  sizeofVal : ℕ
  realloc : ℕ → Bool
  sizeofNode_pos : 0 < sizeofNode
  sizeofVal_pos : 0 < sizeofVal

/-- The size of `tree_info`, which heads the node block. -/
def sizeofTreeInfo : ℕ := 16

/-- `malloc_size` of the node block for `n` nodes, a `uint32_t`. -/
def Platform.keyBytes (p : Platform) (n : ℕ) : ℕ := (sizeofTreeInfo + n * p.sizeofNode) % 2 ^ 32

/-- `malloc_size` of the value block for `n` values, a `uint32_t`. -/
def Platform.valBytes (p : Platform) (n : ℕ) : ℕ := n * p.sizeofVal % 2 ^ 32

/-- The map with the fields of its `tree_info`. `kCap` and `vCap` are the numbers of entries that
the allocated blocks have room for. -/
structure SplayMap (κ V : Type) where
  rootPtr : ℕ
  freePtr : ℕ
  bSize : ℕ
  tSize : ℕ
  kBuff : NodeBuffer κ
  vBuff : ℕ → V
  lastPtr : ℕ
  iSize : ℕ
  kCap : ℕ
  vCap : ℕ

namespace SplayMap

/-! ## Splaying -/

section Splay

variable {κ : Type} [LinearOrder κ]

/-- The local variables of `splay` with the node buffer it rewrites: `l` is `tail .right` and `r` is
`tail .left`. -/
structure Walk (κ : Type) where
  kBuff : NodeBuffer κ
  tail : Side → ℕ
  t : ℕ

/-- A node with key `k` is passed on side `d` on the way to `key`. -/
def Passes (key : κ) (d : Side) (k : κ) : Prop :=
  match d with
  | .left => key < k
  | .right => k < key

instance (key : κ) (d : Side) (k : κ) : Decidable (Passes key d k) := by
  cases d <;> exact inferInstanceAs (Decidable (_ < _))

/-- Link right (`d = .left`) or link left (`d = .right`): the end of a round. -/
def link (bound : ℕ) (d : Side) (w : Walk κ) : Walk κ ⊕ Option (Bool × Walk κ) :=
  if w.tail d < bound then
    let kBuff := w.kBuff.setChild (w.tail d) d w.t
    .inl { kBuff := kBuff, tail := Function.update w.tail d w.t, t := kBuff.child w.t d }
  else
    .inr none

/-- The branch of a round that turns to side `d`. The source has it twice, mirrored. -/
def turn (bound : ℕ) (key : κ) (d : Side) (w : Walk κ) : Walk κ ⊕ Option (Bool × Walk κ) :=
  let c := w.kBuff.child w.t d
  if c = 0 then
    .inr (some (false, w))
  else if ¬ c < bound then
    .inr none
  else if Passes key d (w.kBuff c).key then
    -- rotate the child above `t`
    let kBuff := (w.kBuff.setChild w.t d (w.kBuff.child c d.other)).setChild c d.other w.t
    let w' : Walk κ := { w with kBuff := kBuff, t := c }
    if kBuff.child c d = 0 then .inr (some (false, w')) else link bound d w'
  else
    link bound d w

/-- One round of the loop of `splay`; it leaves with the value of `ret`. -/
def splayStep (bound : ℕ) (key : κ) (w : Walk κ) : Walk κ ⊕ Option (Bool × Walk κ) :=
  if ¬ w.t < bound then .inr none
  else if key < (w.kBuff w.t).key then turn bound key .left w
  else if (w.kBuff w.t).key < key then turn bound key .right w
  else .inr (some (true, w))

def assemble (w : Walk κ) : NodeBuffer κ :=
  let k := w.kBuff.setChild (w.tail .right) .right (w.kBuff.child w.t .left)
  let k := k.setChild (w.tail .left) .left (k.child w.t .right)
  let k := k.setChild w.t .left (k.child 0 .right)
  let k := k.setChild w.t .right (k.child 0 .left)
  (k.setChild 0 .left 0).setChild 0 .right 0

/-- `splay(key, root)`: the result, the rewritten nodes and the new value of `root`. Nodes below
`bound` may be touched, which also bounds the rounds of the loop. -/
def splay (bound : ℕ) (kBuff : NodeBuffer κ) (key : κ) (root : ℕ) :
    Option (Bool × NodeBuffer κ × ℕ) :=
  if root = 0 then some (false, kBuff, root)
  else
    match loop (splayStep bound key) bound { kBuff := kBuff, tail := fun _ => 0, t := root } with
    | some (some (ret, w)) =>
      if w.t < bound ∧ w.tail .left < bound ∧ w.tail .right < bound then
        some (ret, assemble w, w.t)
      else none
    | _ => none

end Splay

/-! ## Buffers -/

variable {κ V : Type}

def nodeBound (s : SplayMap κ V) : ℕ := min s.bSize s.kCap

def valBound (s : SplayMap κ V) : ℕ := min s.bSize s.vCap

def freeNode (s : SplayMap κ V) (ptr : ℕ) : Option (SplayMap κ V) :=
  if ptr = 0 then some s
  else if ptr < s.nodeBound then
    some { s with kBuff := s.kBuff.setChild ptr .left s.freePtr, freePtr := ptr }
  else none

/-- `next_free_node`: the head of the free list, or the index `t_size` when the list is empty. -/
def nextFreeNode (s : SplayMap κ V) : Option (ℕ × SplayMap κ V) :=
  if s.freePtr = 0 then some (s.tSize, s)
  else if s.freePtr < s.nodeBound then
    some (s.freePtr, { s with freePtr := s.kBuff.child s.freePtr .left })
  else none

variable [Inhabited κ] [Inhabited V]

/-- `_init` on fresh buffers; `none` when the map is left without a block. -/
def init (p : Platform) (capacity : ℕ) : Option (SplayMap κ V) :=
  let iSize := if capacity = 0 then 1024 else capacity
  if p.realloc (p.keyBytes iSize) ∧ p.realloc (p.valBytes iSize) ∧
      sizeofTreeInfo ≤ p.keyBytes iSize then
    some {
      rootPtr := 0, freePtr := 0, bSize := iSize, tSize := 0
      kBuff := fun _ => default, vBuff := fun _ => default
      lastPtr := 0, iSize := iSize
      kCap := (p.keyBytes iSize - sizeofTreeInfo) / p.sizeofNode
      vCap := p.valBytes iSize / p.sizeofVal }
  else none

/-- The buffer with `count` entries from `start` on zeroed by `memset`. -/
def zeroed {α : Type} [Inhabited α] (buff : ℕ → α) (start count : ℕ) : ℕ → α :=
  fun i => if start ≤ i ∧ i < start + count then default else buff i

/-- `reallocate_memory(false)`: both blocks grow by `i_size` entries. `none` when a `memset` of the
new entries would run past its block. -/
def reallocateMemory (p : Platform) (s : SplayMap κ V) : Option (Bool × SplayMap κ V) :=
  let size := (s.bSize + s.iSize) % 2 ^ 32
  if ¬ p.realloc (p.keyBytes size) then some (false, s)
  else if p.keyBytes size < sizeofTreeInfo + (s.bSize + s.iSize) * p.sizeofNode then none
  else
    let s := { s with
      kBuff := zeroed s.kBuff s.bSize s.iSize
      kCap := (p.keyBytes size - sizeofTreeInfo) / p.sizeofNode }
    if ¬ p.realloc (p.valBytes size) then some (false, s)
    else if p.valBytes size < (s.bSize + s.iSize) * p.sizeofVal then none
    else
      some (true, { s with
        vBuff := zeroed s.vBuff s.bSize s.iSize
        vCap := p.valBytes size / p.sizeofVal
        bSize := size })

/-! ## Operations -/

variable [LinearOrder κ]

/-- The condition at the head of `insert`: grow when the next index would be `b_size`. -/
def makeRoom (p : Platform) (s : SplayMap κ V) : Option (Bool × SplayMap κ V) :=
  if s.tSize + 1 = s.bSize then s.reallocateMemory p else some (true, s)

/-- A new node `n` with its key, links and value becomes the root. -/
def place (s : SplayMap κ V) (n : ℕ) (key : κ) (val : V) (left right : ℕ) :
    Option (Option ℕ × SplayMap κ V) :=
  if n < s.nodeBound ∧ n < s.valBound then
    some (some n, { s with
      kBuff := s.kBuff.setNode n key left right
      vBuff := Function.update s.vBuff n val
      rootPtr := n })
  else none

/-- `insert` into an empty tree. -/
def insertFirst (s : SplayMap κ V) (key : κ) (val : V) : Option (Option ℕ × SplayMap κ V) := do
  let (n, s) ← nextFreeNode { s with tSize := 1 }
  s.place n key val 0 0

/-- `insert` above the splayed root, whose subtree on side `d` goes to the new node. -/
def insertAbove (s : SplayMap κ V) (d : Side) (key : κ) (val : V) :
    Option (Option ℕ × SplayMap κ V) := do
  let root := s.rootPtr
  let (n, s) ← nextFreeNode { s with tSize := s.tSize + 1 }
  let subtree := s.kBuff.child root d
  let (res, s) ←
    match d with
    | .left => s.place n key val subtree root
    | .right => s.place n key val root subtree
  return (res, { s with kBuff := s.kBuff.setChild root d 0 })

/-- `insert` once there is room: the index of the value, as the source returns its address. -/
def insertRoom (s : SplayMap κ V) (key : κ) (val : V) : Option (Option ℕ × SplayMap κ V) :=
  if s.rootPtr = 0 then s.insertFirst key val
  else do
    let (found, kBuff, root) ← splay s.nodeBound s.kBuff key s.rootPtr
    let s := { s with kBuff := kBuff, rootPtr := root }
    if found then
      if root < s.valBound then
        some (some root, { s with vBuff := Function.update s.vBuff root val })
      else none
    else if ¬ root < s.nodeBound then none
    else if key < (kBuff root).key then s.insertAbove .left key val
    else s.insertAbove .right key val

/-- `insert`: the index of the entry, or `none` inside for the null pointer. -/
def insert (p : Platform) (s : SplayMap κ V) (key : κ) (val : V) :
    Option (Option ℕ × SplayMap κ V) := do
  let (room, s) ← s.makeRoom p
  if room then s.insertRoom key val else return (none, s)

omit [Inhabited κ] [Inhabited V]

/-- The tree that replaces a removed root: its right subtree, or its splayed left subtree with the
right one below. -/
def joinChildren (s : SplayMap κ V) (key : κ) : Option (NodeBuffer κ × ℕ) := do
  let left := s.kBuff.child s.rootPtr .left
  if left = 0 then return (s.kBuff, s.kBuff.child s.rootPtr .right)
  else
    let (_, kBuff, x) ← splay s.nodeBound s.kBuff key left
    return (kBuff.setChild x .right (kBuff.child s.rootPtr .right), x)

/-- `remove`: the index of the value that was removed. -/
def remove (s : SplayMap κ V) (key : κ) : Option (Option ℕ × SplayMap κ V) := do
  let (found, kBuff, root) ← splay s.nodeBound s.kBuff key s.rootPtr
  let s := { s with kBuff := kBuff, rootPtr := root }
  if ¬ found then return (none, s)
  else if ¬ root < s.nodeBound then none
  else
    let (kBuff, x) ← s.joinChildren key
    let s ← freeNode { s with kBuff := kBuff } root
    if root < s.valBound then
      return (some root, { s with tSize := s.tSize - 1, rootPtr := x })
    else none

/-- `exist`: `inter_find` leaves the found index, or 0, in `last_ptr`. -/
def exist (s : SplayMap κ V) (key : κ) : Option (Bool × SplayMap κ V) := do
  let (found, kBuff, root) ← splay s.nodeBound s.kBuff key s.rootPtr
  let last := if found then root else 0
  return (last ≠ 0, { s with kBuff := kBuff, rootPtr := root, lastPtr := last })

/-- `find`: the value at `last_ptr`. -/
def find (s : SplayMap κ V) : Option V :=
  if s.lastPtr < s.valBound then some (s.vBuff s.lastPtr) else none

/-- The local variables of `inter_enumerate`, with what the callback has been given so far. -/
structure Visit (κ V : Type) where
  root : ℕ
  stack : List ℕ
  count : ℕ
  visited : List (κ × V)

/-- One round of `inter_enumerate`: push a node and go left, or visit the top of the stack and go
right. -/
def visitStep (s : SplayMap κ V) (v : Visit κ V) : Visit κ V ⊕ Option (List (κ × V)) :=
  if v.root ≠ 0 then
    let stack := v.root :: v.stack
    if s.tSize < stack.length then .inr (some v.visited)
    else if v.root < s.nodeBound then
      .inl { v with root := s.kBuff.child v.root .left, stack := stack }
    else .inr none
  else
    match v.stack with
    | [] => .inr (some v.visited)
    | top :: rest =>
      if top < s.nodeBound ∧ top < s.valBound then
        let visited := v.visited ++ [((s.kBuff top).key, s.vBuff top)]
        if s.tSize < v.count + 1 then .inr (some visited)
        else
          .inl { root := s.kBuff.child top .right, stack := rest, count := v.count + 1,
                 visited := visited }
      else .inr none

/-- `enumerate`: what the callback is given, in order. A tree of `t_size` nodes takes two rounds
per node. -/
def enumerate (s : SplayMap κ V) : Option (List (κ × V)) :=
  (loop s.visitStep (2 * s.bSize) { root := s.rootPtr, stack := [], count := 0, visited := [] }).join

end SplayMap

end TraceHarbor.Hooks
