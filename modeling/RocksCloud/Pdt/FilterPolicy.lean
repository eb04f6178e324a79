import Mathlib
import RocksCloud.Util.Coding
import RocksCloud.Lib.BitVector

/-!
# `PdtFilterPolicy` and the trie of `utilities/pdt`

A second path-decomposed trie, used by `PdtFilterPolicy` (`util/pdt.cc`). Its `compacted_trie_builder` takes the
strings one `append` at a time, widened to 16-bit characters and ended by `WORD_EOF = 1024`, so
that a string holding `0` bytes is still prefix-free. Unlike the builder of `utilities/ot`,
which throws on bad input, this one states its preconditions with `assert`:

* the new string is neither equal to the previous one nor a prefix of it (`Prefix-free and
  non-duplicate`), and
* it is larger than the previous one (`Sorted`).

A failed assertion is an `Except.error` here, naming the check; the model is the source built
with assertions on. The other assertions of the builder hold on every input the first two let
through and are not modelled.

`DefaultTreeBuilder` is the visitor: like the centroid visitor of `utilities/ot`, it continues
the heavy child's path, marks a branching point with `SPECIAL_CHAR_FLAG + n - 1`, and ends every
leaf path with `DELIMITER_FLAG`.

`PdtFilterPolicy::CreateFilter` sorts the keys it is given (a block-based filter builder
passes them in any order, duplicates included), appends them, finishes the trie, and writes
five varint64 sizes followed by the labels, the branches, the parentheses and the word
positions.

## Results

* `append_duplicate`: appending the previous string again fails the first assertion;
* `appendAll_repeat`: so does any list in which a key follows itself, such as the sorted
  list of keys that hold a duplicate.
-/

set_option autoImplicit false

namespace RocksCloud.Pdt

open RocksCloud.Util RocksCloud.Lib

/-- `DefaultTreeBuilder::SPECIAL_CHAR_FLAG`: a branching label is this plus the number of
further children minus one. -/
def specialCharFlag : Nat := 256

/-- `DefaultTreeBuilder::DELIMITER_FLAG`: the label that ends a leaf path. -/
def delimiterFlag : Nat := 512

/-- `DefaultTreeBuilder::WORD_EOF`: the character that ends every appended string. -/
def wordEof : UInt16 := 1024

/-! ## The visitor -/

/-- `DefaultTreeBuilder::subtree`. The decomposition path and its branches are built in
reverse. The leaf count the source keeps only feeds an assertion and is left out. -/
structure Subtree where
  decompositionPathLabel : List UInt16
  decompositionBranches : List UInt16
  labels : List UInt16
  branches : List UInt16
  bp : List Bool
  deriving Repr, DecidableEq

/-- A fresh `subtree`. -/
def Subtree.empty : Subtree := ⟨[], [], [], [], []⟩

/-- `subtree::size`: the number of leaves, from the parentheses and the branches. -/
def Subtree.size (t : Subtree) : Nat := (t.bp.length + t.decompositionBranches.length + 2) / 2

/-- `subtree::append_to`: `t` becomes a child of the path being built in `tree`. -/
def Subtree.appendTo (t tree : Subtree) : Subtree :=
  { tree with
    labels := (if t.decompositionPathLabel.length ≠ 0 then
        tree.labels ++ t.decompositionPathLabel.reverse
      else tree.labels ++ [0]) ++ t.labels
    bp := tree.bp ++ List.replicate t.decompositionBranches.length true ++ [false] ++ t.bp
    branches := tree.branches ++ t.decompositionBranches.reverse ++ t.branches }

/-- The index of the first child of maximal size, scanning from index `i`. -/
def largestChildFrom : List (UInt16 × Subtree) → Nat → Nat → Nat → Nat
  | [], _, best, _ => best
  | c :: cs, i, best, bestSize =>
      if i = 0 ∨ c.2.size > bestSize then largestChildFrom cs (i + 1) i c.2.size
      else largestChildFrom cs (i + 1) best bestSize

/-- Append the children other than the heavy one, in order, each pushing its branching
character. -/
def appendChildren (largest : Nat) : List (UInt16 × Subtree) → Nat → Subtree → Subtree
  | [], _, ret => ret
  | c :: cs, i, ret =>
      if i ≠ largest then
        appendChildren largest cs (i + 1)
          (c.2.appendTo { ret with decompositionBranches := ret.decompositionBranches ++ [c.1] })
      else appendChildren largest cs (i + 1) ret

/-- `DefaultTreeBuilder::node`: the heavy child continued by its branching character and a
branching label, the other children below it; a leaf gets the delimiter; then the edge label
`buf[offset, offset + skip)` in reverse. -/
def defaultNode (lexicographic : Bool) (children : List (UInt16 × Subtree)) (buf : List UInt16)
    (offset skip : Nat) : Subtree :=
  let ret : Subtree :=
    match children with
    | [] => { Subtree.empty with decompositionPathLabel := [delimiterFlag.toUInt16] }
    | _ =>
        let largest := if lexicographic then 0 else largestChildFrom children 0 0 0
        let heavy := children.getD largest (0, Subtree.empty)
        let nBranches := children.length - 1
        let ret0 := { heavy.2 with
          decompositionPathLabel := heavy.2.decompositionPathLabel ++
            [heavy.1, (specialCharFlag + nBranches - 1).toUInt16] }
        appendChildren largest children 0 ret0
  { ret with
    decompositionPathLabel := ret.decompositionPathLabel ++
      (List.range skip).reverse.map fun i => buf.getD (offset + i) 0 }

/-- `DefaultTreeBuilder::root`: a fake DFUDS root `(` with the root path appended. -/
def defaultRoot (rootNode : Subtree) : Subtree :=
  rootNode.appendTo { Subtree.empty with bp := [true] }

/-! ## The builder -/

/-- An open node of the builder's stack. -/
structure BuilderNode where
  pathLen : Nat
  skip : Nat
  children : List (UInt16 × Subtree)
  deriving Repr, Inhabited

/-- The builder's state: the open nodes, bottom first as the source's `node_stack`, and the
previous string. -/
structure TrieBuilderState where
  nodeStack : List BuilderNode
  lastString : List UInt16
  deriving Repr

/-- A builder before the first `append`. -/
def TrieBuilderState.empty : TrieBuilderState := ⟨[], []⟩

/-- `std::mismatch` over the common length. -/
def mismatchIndex : List UInt16 → List UInt16 → Nat
  | a :: as, b :: bs => if a = b then mismatchIndex as bs + 1 else 0
  | _, _ => 0

/-- Close the node at the top of the stack into the one below it, under the character
`last[path_len - 1]` as stored by `branchChar`: `append` keeps it as a `uint16_t`, `finish`
narrows it to a `uint8_t`. -/
def closeTop (lexicographic : Bool) (branchChar : UInt16 → UInt16) (last : List UInt16) :
    List BuilderNode → List BuilderNode
  | [] => []
  | [n] => [n]
  | st =>
      let child := st.getLast!
      let rest := st.dropLast
      let parent := rest.getLast!
      rest.dropLast ++
        [{ parent with
            children := parent.children ++
              [(branchChar (last.getD (child.pathLen - 1) 0),
                defaultNode lexicographic child.children last child.pathLen child.skip)] }]

/-- Close the `n` top nodes of the stack. -/
def closeTopN (lexicographic : Bool) (branchChar : UInt16 → UInt16) (last : List UInt16) :
    Nat → List BuilderNode → List BuilderNode
  | 0, st => st
  | n + 1, st => closeTopN lexicographic branchChar last n (closeTop lexicographic branchChar last st)

/-- `compacted_trie_builder::append` for the raw bytes of one key. -/
def append (lexicographic : Bool) (s : TrieBuilderState) (rawBytes : Bytes) :
    Except String TrieBuilderState :=
  let bytes := rawBytes.map UInt8.toUInt16 ++ [wordEof]
  match s.nodeStack with
  | [] => .ok ⟨[⟨0, bytes.length, []⟩], bytes⟩
  | _ =>
      let last := s.lastString
      let mismatchIdx := mismatchIndex bytes last
      if mismatchIdx = bytes.length ∨ mismatchIdx = last.length then
        .error "Prefix-free and non-duplicate"
      else if ¬ (last.getD mismatchIdx 0 = wordEof ∨
          (bytes.getD mismatchIdx 0 ≠ wordEof ∧ bytes.getD mismatchIdx 0 > last.getD mismatchIdx 0)) then
        .error "Sorted"
      else
        -- the node to split, counting from the bottom of the stack
        let splitNodeIdx := s.nodeStack.findIdx fun nd => ¬ mismatchIdx > nd.pathLen + nd.skip
        let st := closeTopN lexicographic id last (s.nodeStack.length - 1 - splitNodeIdx) s.nodeStack
        let splitNode := st.getLast!
        let splitNode' :=
          if mismatchIdx < splitNode.pathLen + splitNode.skip then
            { pathLen := splitNode.pathLen
              skip := mismatchIdx - splitNode.pathLen
              children := [(last.getD mismatchIdx 0,
                defaultNode lexicographic splitNode.children last (mismatchIdx + 1)
                  (splitNode.pathLen + splitNode.skip - mismatchIdx - 1))] }
          else splitNode
        .ok ⟨st.dropLast ++ [splitNode', ⟨mismatchIdx + 1, bytes.length - mismatchIdx - 1, []⟩],
          bytes⟩

/-- Append the keys one after another, stopping at the first failed assertion. -/
def appendAll (lexicographic : Bool) (s : TrieBuilderState) :
    List Bytes → Except String TrieBuilderState
  | [] => .ok s
  | k :: ks => do
      let s' ← append lexicographic s k
      appendAll lexicographic s' ks

/-- `compacted_trie_builder::finish`: close the remaining path and build the root; finishing
a builder that was never appended to fails its assertion. -/
def finish (lexicographic : Bool) (s : TrieBuilderState) : Except String Subtree :=
  match closeTopN lexicographic (fun c => c.toUInt8.toUInt16) s.lastString
      (s.nodeStack.length - 1) s.nodeStack with
  | [root] => .ok (defaultRoot
      (defaultNode lexicographic root.children s.lastString root.pathLen root.skip))
  | _ => .error "!node_stack.empty()"

/-! ## The assertions of `append` -/

theorem mismatchIndex_self (s : List UInt16) : mismatchIndex s s = s.length := by
  induction s with
  | nil => rfl
  | cons a as ih => simp [mismatchIndex, ih]

/-- Appending the previous string again fails the first assertion. -/
theorem append_duplicate (lexicographic : Bool) (s : TrieBuilderState) (key : Bytes)
    (hne : s.nodeStack ≠ []) (hlast : s.lastString = key.map UInt8.toUInt16 ++ [wordEof]) :
    append lexicographic s key = .error "Prefix-free and non-duplicate" := by
  unfold append
  cases hst : s.nodeStack with
  | nil => exact absurd hst hne
  | cons n ns =>
      simp only [hlast, mismatchIndex_self, true_or, if_true]

/-- After a successful `append`, the previous string is the key just appended, with its
terminator, and the stack is not empty. -/
theorem append_ok {lexicographic : Bool} {s s' : TrieBuilderState} {key : Bytes}
    (h : append lexicographic s key = .ok s') :
    s'.lastString = key.map UInt8.toUInt16 ++ [wordEof] ∧ s'.nodeStack ≠ [] := by
  unfold append at h
  split at h
  · cases h
    exact ⟨rfl, by simp⟩
  · -- both ways of treating the split node push the new leaf and keep the key
    dsimp only at h
    split_ifs at h <;>
    · cases h
      exact ⟨rfl, by simp⟩

/-- **A repeated key is refused.** Appending a list in which a key follows itself fails an
assertion, whatever was appended before. -/
theorem appendAll_repeat (lexicographic : Bool) (s : TrieBuilderState) (pre post : List Bytes)
    (key : Bytes) (s' : TrieBuilderState) :
    appendAll lexicographic s (pre ++ key :: key :: post) ≠ .ok s' := by
  induction pre generalizing s with
  | nil =>
      -- the first copy of the key is either refused or becomes the previous string
      simp only [List.nil_append, appendAll]
      cases h : append lexicographic s key with
      | error e => simp [bind, Except.bind]
      | ok s1 =>
          obtain ⟨hlast, hne⟩ := append_ok h
          simp [bind, Except.bind, append_duplicate lexicographic s1 key hne hlast]
  | cons k ks ih =>
      simp only [List.cons_append, appendAll]
      cases h : append lexicographic s k with
      | error e => simp [bind, Except.bind]
      | ok s1 => simpa [bind, Except.bind] using ih s1

/-! ## The filter -/

/-- The arrays of a `DefaultPathDecomposedTrie` built from a finished builder: the labels, the
branches, the parentheses, and where each node's labels start (`word_positions`). -/
structure DefaultPathDecomposedTrie where
  labels : List UInt16
  branches : List UInt16
  bp : List Bool
  wordPositions : List Nat
  deriving Repr, DecidableEq

/-- The word positions: `0`, the index after every delimiter but the last label, and the
number of labels. -/
def wordPositionsOf (labels : List UInt16) : List Nat :=
  0 :: ((List.range (labels.length - 1)).filter fun i =>
      labels.getD i 0 = delimiterFlag.toUInt16).map (· + 1) ++ [labels.length]

/-- `DefaultPathDecomposedTrie(trieBuilder)`, with its assertion that the labels end with a
delimiter. -/
def DefaultPathDecomposedTrie.ofRoot (root : Subtree) : Except String DefaultPathDecomposedTrie :=
  if root.labels.getLast? = some delimiterFlag.toUInt16 then
    .ok ⟨root.labels, root.branches, root.bp, wordPositionsOf root.labels⟩
  else .error "m_labels.back() == DELIMITER_FLAG"

/-- `std::sort` of the keys under `Slice::compare`, the bytewise order. -/
def sortSlices (keys : List Bytes) : List Bytes :=
  keys.mergeSort fun a b => decide (a ≤ b)

/-- `PdtFilterPolicy::CreateFilter`: the trie of the sorted keys appended to `dst` as five
varint64 sizes (bits of the parentheses, then the byte sizes of the four arrays) and the
arrays. The parentheses are copied word by word from a little-endian host. -/
def createFilter (lexicographic : Bool) (keys : List Bytes) (dst : Bytes) :
    Except String Bytes := do
  let s ← appendAll lexicographic TrieBuilderState.empty (sortSlices keys)
  let root ← finish lexicographic s
  let pdt ← DefaultPathDecomposedTrie.ofRoot root
  let words := packWords pdt.bp
  pure (dst ++ encodeVarint64 pdt.bp.length.toUInt64 ++
    encodeVarint64 (pdt.labels.length * 2).toUInt64 ++
    encodeVarint64 (pdt.branches.length * 2).toUInt64 ++
    encodeVarint64 (words.length * 8).toUInt64 ++
    encodeVarint64 (pdt.wordPositions.length * 8).toUInt64 ++
    pdt.labels.flatMap encodeFixed16 ++ pdt.branches.flatMap encodeFixed16 ++
    words.flatMap encodeFixed64 ++ pdt.wordPositions.flatMap fun p => encodeFixed64 p.toUInt64)

/-- Sorting a key and its copy leaves them side by side. -/
theorem sortSlices_pair (key : Bytes) : sortSlices [key, key] = [key, key] := by
  have hperm : (sortSlices [key, key]).Perm (List.replicate 2 key) :=
    List.mergeSort_perm [key, key] _
  exact List.perm_replicate.mp hperm

/-- **A duplicate key gives no filter.** `CreateFilter` over a key given twice, as a block-based
filter builder passes a key written twice, fails the builder's assertion that the strings are
distinct, whatever the key and the decomposition. -/
theorem createFilter_duplicate_key (lexicographic : Bool) (key dst out : Bytes) :
    createFilter lexicographic [key, key] dst ≠ .ok out := by
  have happend := appendAll_repeat lexicographic TrieBuilderState.empty [] [] key
  simp only [List.nil_append] at happend
  unfold createFilter
  rw [sortSlices_pair]
  cases h : appendAll lexicographic TrieBuilderState.empty [key, key] with
  | error e => simp [bind, Except.bind]
  | ok s => exact absurd h (happend s)

end RocksCloud.Pdt
