import Mathlib
import RocksCloud.Lib.BitVector
import RocksCloud.Ot.CompactedTrieBuilder

/-!
# The path-decomposed trie of `utilities/ot/tries`

`path_decomposed_trie<LabelsPoolType, Lexicographic>` stores a compacted trie in three arrays
after decomposing it into paths. Every node of the decomposed tree is a root-to-leaf path of
the compacted trie; in the lexicographic variant (the one the OtLexPdt filter uses) the path
always continues into the first child, otherwise into the largest one.

* `m_labels`: for every path, its label string, ended by `0`. A label below `256` is a byte of
  the path; a label `256 + n - 1` marks a branching point with `n` further children.
* `m_branching_chars`: the branching bytes of the further children, node by node.
* `m_bp`: the tree of paths as a DFUDS parenthesis sequence behind a fake root `(`: a node
  with `d` children is `d` open parentheses followed by a close.

The label strings are kept in a `vbyte_string_pool`, which splits its input at every `0` and
returns the pieces through `get_string_enumerator`; an exhausted enumerator returns `0`. The
pool here is that list of pieces (the varint byte stream and its Elias-Fano positions only
store it). `bp_vector::find_close` is the matching parenthesis (`Lib.findClose`).

`index` walks the decomposed tree: it matches the key against the labels of the current path,
remembers the last branching point, and on a mismatch right after one looks the key byte up
among the node's branching characters and moves to that child. Keys are read through
`stl_string_adaptor`, so the null terminator is matched against the `0` that ends a path.
-/

set_option autoImplicit false

namespace RocksCloud.Ot

open RocksCloud.Util RocksCloud.Lib

/-! ## The centroid builder visitor -/

/-- `centroid_builder_visitor::subtree`: a decomposed subtree under construction. The path
string and its branches are kept in reverse, as the visitor pushes them bottom-up. -/
structure Subtree where
  centroidPathString : List UInt16
  centroidPathBranches : List UInt8
  bp : List Bool
  branchingChars : List UInt8
  labels : List UInt16
  deriving Repr, DecidableEq

/-- A fresh `subtree`. -/
def Subtree.empty : Subtree := ⟨[], [], [], [], []⟩

/-- `subtree::size`: the number of leaves below it. -/
def Subtree.size (t : Subtree) : Nat := (t.bp.length + 1) / 2 + t.centroidPathBranches.length

/-- `subtree::append_to`: `t` becomes a child of the path being built in `tree`. Its path
string goes to the labels (a lone `0` if it is empty), its branches to `m_bp` as that many
open parentheses and a close, and its own arrays after them. -/
def Subtree.appendTo (t tree : Subtree) : Subtree :=
  { tree with
    labels := (if t.centroidPathString.length ≠ 0 then tree.labels ++ t.centroidPathString.reverse
      else tree.labels ++ [0]) ++ t.labels
    bp := tree.bp ++ List.replicate t.centroidPathBranches.length true ++ [false] ++ t.bp
    branchingChars := tree.branchingChars ++ t.centroidPathBranches.reverse ++ t.branchingChars }

/-- The index of the first child of maximal size (the `for` loop of `node` when
`Lexicographic` is false), scanning from index `i` with the best so far. -/
def largestChildFrom : List (UInt8 × Subtree) → Nat → Nat → Nat → Nat
  | [], _, best, _ => best
  | c :: cs, i, best, bestSize =>
      if i = 0 ∨ c.2.size > bestSize then largestChildFrom cs (i + 1) i c.2.size
      else largestChildFrom cs (i + 1) best bestSize

/-- Append the children other than the heavy one, in order. Each pushes its branching byte,
so the branches of the path are stored reversed. -/
def appendChildren (largest : Nat) : List (UInt8 × Subtree) → Nat → Subtree → Subtree
  | [], _, ret => ret
  | c :: cs, i, ret =>
      if i ≠ largest then
        appendChildren largest cs (i + 1)
          (c.2.appendTo { ret with centroidPathBranches := ret.centroidPathBranches ++ [c.1] })
      else appendChildren largest cs (i + 1) ret

/-- `centroid_builder_visitor::node`: the heavy child's subtree is continued with its branching
byte and the branching label `256 + n_branches - 1`, the other children are appended below it,
and the edge label `buf[offset, offset + skip)` is pushed in reverse. -/
def centroidNode (lexicographic : Bool) (children : List (UInt8 × Subtree)) (buf : Bytes)
    (offset skip : Nat) : Subtree :=
  let ret : Subtree :=
    match children with
    | [] => Subtree.empty
    | _ =>
        let largest := if lexicographic then 0 else largestChildFrom children 0 0 0
        let heavy := children.getD largest (0, Subtree.empty)
        let nBranches := children.length - 1
        let ret0 := { heavy.2 with
          centroidPathString := heavy.2.centroidPathString ++
            [heavy.1.toUInt16, (256 + nBranches - 1).toUInt16] }
        appendChildren largest children 0 ret0
  { ret with
    centroidPathString := ret.centroidPathString ++
      (List.range skip).reverse.map fun i => (buf.getD (offset + i) 0).toUInt16 }

/-- The visitor as the builder sees it. -/
def centroidBuilderVisitor (lexicographic : Bool) : TreeBuilder Subtree :=
  ⟨centroidNode lexicographic⟩

/-- `centroid_builder_visitor::root`: a fake DFUDS root `(` with the root path appended. -/
def centroidRoot (rootNode : Subtree) : Subtree :=
  rootNode.appendTo { Subtree.empty with bp := [true] }

/-! ## The trie as the reader holds it -/

/-- `vbyte_string_pool` built from `labels`: the runs of labels ended by a `0`; the strings are
numbered from `0` and labels after the last `0` belong to no string. `cur` holds the current
run, reversed. -/
def vbyteStringPoolAux : List UInt16 → List UInt16 → List (List UInt16)
  | [], _ => []
  | c :: cs, cur => if c = 0 then cur.reverse :: vbyteStringPoolAux cs [] else vbyteStringPoolAux cs (c :: cur)

/-- The strings of the `vbyte_string_pool` of `labels`. -/
def vbyteStringPool (labels : List UInt16) : List (List UInt16) := vbyteStringPoolAux labels []

/-- The three arrays `index` reads: `m_bp`, `m_branching_chars` and the strings of
`m_labels`. -/
structure PathDecomposedTrie where
  bp : List Bool
  branchingChars : List UInt8
  labels : List (List UInt16)
  deriving Repr, DecidableEq

/-- Where the label scan of `index` stops: with the result of `index`, or at a branching point
with the key position and the range of branching characters to try. -/
inductive LabelScan where
  | done (result : Option Nat)
  | descend (curPos branchingCharsBegin branchingChars : Nat)
  deriving Repr, DecidableEq

/-- `path_decomposed_trie::build`: the trie of the root subtree the visitor built over
`strings`. An empty range leaves no root, which the source dereferences; a builder exception
is passed on. -/
def PathDecomposedTrie.build (lexicographic : Bool) (strings : List Bytes) :
    Except String PathDecomposedTrie := do
  match ← RocksCloud.Ot.build (centroidBuilderVisitor lexicographic) strings with
  | none => .error "no root"
  | some rootNode =>
      let root := centroidRoot rootNode
      pure ⟨root.bp, root.branchingChars, vbyteStringPool root.labels⟩

/-- The inner `while (true)` of `index` over the labels of the path `rank0`.
`lastBranchingPoint` is `none` for the initial `size_t(-1)`. An exhausted enumerator returns
the label `0`, which is the first case. -/
def scanLabels (s : Bytes) (len rank0 : Nat) :
    List UInt16 → Nat → Nat → Nat → Option Nat → LabelScan
  | [], curPos, bcBegin, bc, lastBranchingPoint =>
      if curPos = len then .done none
      else if (s.getD curPos 0).toNat ≠ 0 then
        if lastBranchingPoint ≠ some curPos then .done none else .descend curPos bcBegin bc
      else if curPos + 1 = len then .done (some rank0) else .done none
  | label :: rest, curPos, bcBegin, bc, lastBranchingPoint =>
      if curPos = len then .done none
      else if label.toNat ≥ 256 then
        scanLabels s len rank0 rest curPos (bcBegin + bc) (label.toNat - 256 + 1) (some curPos)
      else if label.toNat ≠ (s.getD curPos 0).toNat then
        if lastBranchingPoint ≠ some curPos then .done none else .descend curPos bcBegin bc
      else if label = 0 then
        if curPos + 1 = len then .done (some rank0) else .done none
      else scanLabels s len rank0 rest (curPos + 1) bcBegin bc lastBranchingPoint

/-- The `for` loop of `index` over the branching characters `first_child_rank + i` for `i`
from `i` on, `k` of them left: the first that equals the key byte. -/
def findChild (t : PathDecomposedTrie) (c : UInt8) (firstChildRank : Nat) :
    Nat → Nat → Option Nat
  | _, 0 => none
  | i, k + 1 =>
      if t.branchingChars.getD (firstChildRank + i) 0 = c then some i
      else findChild t c firstChildRank (i + 1) k

/-- The outer `while (true)` of `index`, with `fuel` bounding its turns: each turn either
returns or moves to a child past one more byte of the key. -/
def indexLoop (t : PathDecomposedTrie) (s : Bytes) (len : Nat) :
    Nat → Nat → Nat → Nat → Option Nat
  | 0, _, _, _ => none
  | fuel + 1, curPos, curNodePos, firstChildRank =>
      let rank0 := curNodePos - firstChildRank - 1
      if curPos = len then some rank0
      else
        match scanLabels s len rank0 (t.labels.getD rank0 []) curPos 0 0 none with
        | .done r => r
        | .descend curPos bcBegin bc =>
            match findChild t (s.getD curPos 0) firstChildRank bcBegin bc with
            | none => none
            | some child =>
                let childOpen := curNodePos + child
                let curNodePos' := findClose t.bp childOpen + 1
                indexLoop t s len fuel (curPos + 1) curNodePos'
                  (firstChildRank + child + (curNodePos' - childOpen) / 2)

/-- `path_decomposed_trie::index`: the rank of the key's path, or `none` for the `size_t(-1)`
of a key that is not in the trie. -/
def PathDecomposedTrie.index (t : PathDecomposedTrie) (val : Bytes) : Option Nat :=
  let s := stlStringAdaptor val
  indexLoop t s s.length (s.length + 1) 0 1 0

end RocksCloud.Ot
