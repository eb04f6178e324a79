import Mathlib
import RocksCloud.Util.Coding

/-!
# The compacted trie builder of `utilities/ot/tries`

`compacted_trie_builder::build` turns a sorted list of strings into a compacted trie, one
string at a time, and hands every finished node to a tree-building visitor. It keeps a stack of
open nodes along the path of the previous string: a node has the length `path_len` of the path
above it, the length `skip` of its own edge label, and the children closed so far, each under
its branching byte.

For each new string the builder

1. finds the first position where it differs from the previous one, and throws
   `std::invalid_argument` if the two are equal, one is a prefix of the other, or the new one
   is smaller;
2. closes every open node strictly below the branching point, handing it to the visitor;
3. splits the node whose edge contains the branching point; and
4. opens a leaf for the rest of the new string.

After the last string the remaining path is closed and the root is built. Strings are read
through `stl_string_adaptor`, which appends the null terminator; so sorted strings without a
`0` byte are always prefix-free, and strings with one need not be.

The stack is kept with its top first; `std::vector` indices count from the bottom. A thrown
exception is an `Except.error` with the message of the source.
-/

set_option autoImplicit false

namespace RocksCloud.Ot

open RocksCloud.Util

universe u

variable {Rep : Type u}

/-- The visitor the builder drives: `node children buf offset skip` builds a node whose edge
label is `buf[offset, offset + skip)` and whose children are given with their branching
bytes. -/
structure TreeBuilder (Rep : Type u) where
  node : List (UInt8 × Rep) → Bytes → Nat → Nat → Rep

/-- An open node of the builder's stack (`compacted_trie_builder::node`). -/
structure BuilderNode (Rep : Type u) where
  pathLen : Nat
  skip : Nat
  children : List (UInt8 × Rep)

/-- `stl_string_adaptor`: the bytes of a `std::string` followed by its null terminator. -/
def stlStringAdaptor (s : Bytes) : Bytes := s ++ [0]

/-- `std::mismatch` over the common length: the first position where `cur` and `last` differ,
or the length of the shorter one. -/
def mismatchIndex : Bytes → Bytes → Nat
  | a :: as, b :: bs => if a = b then mismatchIndex as bs + 1 else 0
  | _, _ => 0

/-- Close the top node of the stack into the node below it: the visitor builds it from the
previous string `last`, and it becomes a child under the byte `last[path_len - 1]`. -/
def closeTop (visitor : TreeBuilder Rep) (last : Bytes) :
    List (BuilderNode Rep) → List (BuilderNode Rep)
  | child :: parent :: rest =>
      { parent with
        children := parent.children ++
          [(last.getD (child.pathLen - 1) 0,
            visitor.node child.children last child.pathLen child.skip)] } :: rest
  | st => st

/-- Close the `n` top nodes of the stack, top first. -/
def closeTopN (visitor : TreeBuilder Rep) (last : Bytes) :
    Nat → List (BuilderNode Rep) → List (BuilderNode Rep)
  | 0, st => st
  | n + 1, st => closeTopN visitor last n (closeTop visitor last st)

/-- Split the current node at the branching point `mismatch` when the point lies inside its
edge: the lower part of the edge, with the node's children, becomes its only child. -/
def splitNode (visitor : TreeBuilder Rep) (last : Bytes) (mismatch : Nat)
    (curNode : BuilderNode Rep) : BuilderNode Rep :=
  if mismatch < curNode.pathLen + curNode.skip then
    { pathLen := curNode.pathLen
      skip := mismatch - curNode.pathLen
      children := [(last.getD mismatch 0,
        visitor.node curNode.children last (mismatch + 1)
          (curNode.pathLen + curNode.skip - mismatch - 1))] }
  else curNode

/-- One turn of the loop of `build` for the string `cur`, after the string `last`. -/
def buildStep (visitor : TreeBuilder Rep) (st : List (BuilderNode Rep)) (last cur : Bytes) :
    Except String (List (BuilderNode Rep)) :=
  let mismatch := mismatchIndex cur last
  if mismatch = cur.length ∨ mismatch = last.length then
    if mismatch = cur.length ∧ mismatch = last.length then .error "Duplicate string found"
    else .error "Input range are not prefix-free"
  else if cur.getD mismatch 0 < last.getD mismatch 0 then .error "Input range is not sorted"
  else
    -- find the node to split, counting from the bottom of the stack
    let curNodeIdx := st.reverse.findIdx fun nd => ¬ mismatch > nd.pathLen + nd.skip
    match closeTopN visitor last (st.length - 1 - curNodeIdx) st with
    | curNode :: rest =>
        .ok ({ pathLen := mismatch + 1, skip := cur.length - mismatch - 1, children := [] } ::
          splitNode visitor last mismatch curNode :: rest)
    | [] => .ok []

/-- `compacted_trie_builder::build`: the root node handed to the visitor's `root`, or `none`
for an empty range, where the source returns before building anything. -/
def build (visitor : TreeBuilder Rep) (strings : List Bytes) : Except String (Option Rep) :=
  match strings.map stlStringAdaptor with
  | [] => .ok none
  | first :: rest => do
      let st0 : List (BuilderNode Rep) := [{ pathLen := 0, skip := first.length, children := [] }]
      let (st, last) ← rest.foldlM
        (fun (acc : List (BuilderNode Rep) × Bytes) cur => do
          let st ← buildStep visitor acc.1 acc.2 cur
          pure (st, cur))
        (st0, first)
      -- close the remaining path
      match closeTopN visitor last (st.length - 1) st with
      | root :: _ => .ok (some (visitor.node root.children last root.pathLen root.skip))
      | [] => .ok none

/-! ## The checks of `build` -/

/-- Two equal strings mismatch nowhere. -/
theorem mismatchIndex_self (s : Bytes) : mismatchIndex s s = s.length := by
  induction s with
  | nil => rfl
  | cons a as ih => simp [mismatchIndex, ih]

end RocksCloud.Ot
