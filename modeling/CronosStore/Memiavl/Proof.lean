import CronosStore.Memiavl.Export

/-!
# Existence proofs

`memiavl/proof.go`: the path from the root down to a leaf, turned into the operations that
lead from the leaf up to the root hash. The operations are those of ics23; what a verifier
computes with them is `ExistenceProof.calculate`. Step by step that is what `writeHashBytes`
hashes (`convertInnerOp_left`, `convertInnerOp_right`), so a proof ends at the root hash.

The hashes that are kept in nodes on the way are left out here: nobody can tell
(`cached_hashes_coherent`).
-/

namespace CronosStore.Memiavl

open Foundation List

/-! ## The operations of ics23 -/

inductive HashOp
  | noHash
  | sha256
deriving DecidableEq

inductive LengthOp
  | noPrefix
  | varProto
deriving DecidableEq

structure LeafOp where
  hash : HashOp
  prehashValue : HashOp
  length : LengthOp
  leafPrefix : Bytes
deriving DecidableEq

structure InnerOp where
  hash : HashOp
  innerPrefix : Bytes
  suffix : Bytes
deriving DecidableEq

structure ExistenceProof where
  key : Bytes
  value : Slice
  leaf : LeafOp
  path : List InnerOp
deriving DecidableEq

def HashOp.doHash [Sha256] : HashOp → Bytes → Bytes
  | .noHash, b => b
  | .sha256, b => Sha256.sum256 b

def LengthOp.doLength : LengthOp → Bytes → Bytes
  | .noPrefix, b => b
  | .varProto, b => Node.encodeBytes b

section Verifier

variable [Sha256]

def LeafOp.apply (op : LeafOp) (key value : Bytes) : Bytes :=
  op.hash.doHash (op.leafPrefix ++ op.length.doLength key ++
    op.length.doLength (op.prehashValue.doHash value))

def InnerOp.apply (op : InnerOp) (child : Bytes) : Bytes :=
  op.hash.doHash (op.innerPrefix ++ child ++ op.suffix)

def ExistenceProof.calculate (proof : ExistenceProof) : Bytes :=
  proof.path.foldl (fun child op => op.apply child)
    (proof.leaf.apply proof.key (proof.value.getD []))

end Verifier

/-! ## Making a proof -/

structure ProofInnerNode where
  height : Int
  size : Nat
  version : Nat
  left : Slice
  right : Slice
deriving DecidableEq

inductive ProofError
  | keyNotExist
  | emptyTree
  | keyInState
deriving DecidableEq

section Path

variable {N : Type} (I : NodeInterface N)

def pathToLeaf (key : Bytes) : Nat → N → List ProofInnerNode →
    Option (Except ProofError (List ProofInnerNode × N))
  | 0, _, _ => none
  | fuel + 1, node, path => do
    let height ← I.height node
    if height = 0 then
      if (← I.key node) = key then pure (.ok (path, node)) else pure (.error .keyNotExist)
    else if key < (← I.key node) then
      let right ← I.right node
      let inner : ProofInnerNode :=
        { height := toInt8 height, size := ← I.size node, version := ← I.version node,
          left := none, right := some (← I.hash right) }
      pathToLeaf key fuel (← I.left node) (path ++ [inner])
    else
      let left ← I.left node
      let inner : ProofInnerNode :=
        { height := toInt8 height, size := ← I.size node, version := ← I.version node,
          left := some (← I.hash left), right := none }
      pathToLeaf key fuel (← I.right node) (path ++ [inner])

end Path

def convertLeafOp (version : Int) : LeafOp where
  hash := .sha256
  prehashValue := .sha256
  length := .varProto
  leafPrefix := putVarint 0 ++ putVarint 1 ++ putVarint version

def lengthByte : UInt8 := 0x20

def convertInnerOp (inner : ProofInnerNode) : InnerOp :=
  let numbers := putVarint inner.height ++ putVarint inner.size ++ putVarint inner.version
  let left := inner.left.getD []
  if left.length > 0 then
    { hash := .sha256, innerPrefix := numbers ++ [lengthByte] ++ left ++ [lengthByte], suffix := [] }
  else
    { hash := .sha256, innerPrefix := numbers ++ [lengthByte],
      suffix := [lengthByte] ++ inner.right.getD [] }

def convertInnerOps (path : List ProofInnerNode) : List InnerOp := path.reverse.map convertInnerOp

def HeapTree.createExistenceProof [Sha256] (h : Heap) (t : HeapTree) (key : Bytes) :
    Option (Except ProofError ExistenceProof) :=
  match t.root with
  | none => some (.error .keyNotExist)
  | some root => do
    match ← pathToLeaf h.interface key ((← h.height root) + 1) root [] with
    | .error e => pure (.error e)
    | .ok (path, node) =>
      pure (.ok { key := ← h.key node, value := ← h.value node,
                  leaf := convertLeafOp (← h.version node), path := convertInnerOps path })

/-! ## The operations are those of the tree -/

section Ops

theorem encodeBytes_hash {b : Bytes} (h : b.length = 32) : Node.encodeBytes b = lengthByte :: b := by
  rw [Node.encodeBytes, h]
  rfl

variable [Sha256]

variable {h s v : Nat} {k : Bytes} {l r : Node}

theorem convertInnerOp_left (hh : h < 128) :
    (convertInnerOp ⟨toInt8 h, s, v, none, some r.hashNode⟩).apply l.hashNode =
      (Node.branch h s v k l r).hashNode := by
  rw [Node.hashNode, encodeBytes_hash l.length_hashNode, encodeBytes_hash r.length_hashNode]
  simp [convertInnerOp, InnerOp.apply, HashOp.doHash, toInt8_of_lt hh]

theorem convertInnerOp_right (hh : h < 128) :
    (convertInnerOp ⟨toInt8 h, s, v, some l.hashNode, none⟩).apply r.hashNode =
      (Node.branch h s v k l r).hashNode := by
  have hlen : l.hashNode.length > 0 := by rw [l.length_hashNode]; decide
  rw [Node.hashNode, encodeBytes_hash l.length_hashNode, encodeBytes_hash r.length_hashNode]
  simp [convertInnerOp, InnerOp.apply, HashOp.doHash, toInt8_of_lt hh, hlen]

end Ops

section Exact

variable [Sha256] {N : Type} {I : NodeInterface N}

def climb (path : List ProofInnerNode) (child : Bytes) : Bytes :=
  (convertInnerOps path).foldl (fun child op => op.apply child) child

theorem climb_cons (inner : ProofInnerNode) (path : List ProofInnerNode) (child : Bytes) :
    climb (inner :: path) child = (convertInnerOp inner).apply (climb path child) := by
  simp [climb, convertInnerOps]

/-- The walk finds the leaf of the key, and the path back up to the hash of the tree, or there
is no such leaf. -/
theorem pathToLeaf_spec (key : Bytes) {n : N} {t : Node} (hd : I.Denotes n t) (ht : t.Valid)
    (hlt : t.height < 128) {fuel : Nat} (hfuel : t.height < fuel) (path : List ProofInnerNode) :
    (∃ v x rest node, (key, x) ∈ t.toList ∧
      pathToLeaf I key fuel n path = some (.ok (path ++ rest, node)) ∧
      I.Denotes node (.leaf v key x) ∧ climb rest (Node.leaf v key x).hashNode = t.hashNode) ∨
    (∀ p ∈ t.toList, p.1 ≠ key) ∧ pathToLeaf I key fuel n path = some (.error .keyNotExist) := by
  obtain ⟨fuel, rfl⟩ : ∃ m, fuel = m + 1 := ⟨fuel - 1, by omega⟩
  induction t generalizing n fuel path with
  | leaf v k x =>
    have hheight : I.height n = some 0 := hd.1.height
    have hkey : I.key n = some k := hd.1.key
    rw [pathToLeaf]
    simp only [hheight, hkey, Results.some_bind, if_true, Option.pure_def]
    by_cases hk : k = key
    · subst hk
      rw [if_pos rfl]
      exact .inl ⟨v, x, [], n, mem_singleton_self _, by rw [append_nil], hd, rfl⟩
    · rw [if_neg hk]
      exact .inr ⟨by simpa [Node.toList] using hk, rfl⟩
  | branch h s v k l r ihl ihr =>
    obtain ⟨hs, nl, nr, hl, hr, hdl, hdr⟩ := hd
    have hmax := ht.balanced.2.2.1
    have hheight : I.height n = some h := hs.height
    have hkey : I.key n = some k := hs.key
    have hsize : I.size n = some s := hs.size
    have hversion : I.version n = some v := hs.version
    simp only [Node.height_branch] at hlt hfuel
    obtain ⟨fuel, rfl⟩ : ∃ m, fuel = m + 1 := ⟨fuel - 1, by omega⟩
    rw [pathToLeaf]
    simp only [hheight, hkey, hl, hr, hsize, hversion, hdl.shows.hash, hdr.shows.hash,
      Results.some_bind, if_neg (show ¬h = 0 by omega)]
    by_cases hk : key < k
    · rw [if_pos hk]
      obtain ⟨w, x, rest, node, hmem, hpath, hnode, hclimb⟩ | ⟨habs, hpath⟩ :=
        ihl hdl ht.left (by omega) (path ++ [⟨toInt8 h, s, v, none, some r.hashNode⟩]) fuel (by omega)
      · refine .inl ⟨w, x, ⟨toInt8 h, s, v, none, some r.hashNode⟩ :: rest, node,
          mem_append_left _ hmem, ?_, hnode, ?_⟩
        · rw [hpath, append_assoc]
          rfl
        · rw [climb_cons, hclimb, convertInnerOp_left hlt]
      · refine .inr ⟨?_, hpath⟩
        rw [Node.toList, forall_mem_append]
        exact ⟨habs, fun p hp he => absurd (ht.ordered.key_le_right p hp) (not_le.mpr (he ▸ hk))⟩
    · rw [if_neg hk]
      obtain ⟨w, x, rest, node, hmem, hpath, hnode, hclimb⟩ | ⟨habs, hpath⟩ :=
        ihr hdr ht.right (by omega) (path ++ [⟨toInt8 h, s, v, some l.hashNode, none⟩]) fuel (by omega)
      · refine .inl ⟨w, x, ⟨toInt8 h, s, v, some l.hashNode, none⟩ :: rest, node,
          mem_append_right _ hmem, ?_, hnode, ?_⟩
        · rw [hpath, append_assoc]
          rfl
        · rw [climb_cons, hclimb, convertInnerOp_right hlt]
      · refine .inr ⟨?_, hpath⟩
        rw [Node.toList, forall_mem_append]
        exact ⟨fun p hp he => hk (he ▸ ht.ordered.2.2.1 p hp), habs⟩

omit [Sha256] in
theorem Node.Balanced.height_lt_128 {n : Node} (hb : n.Balanced) (hlen : n.toList.length < 2 ^ 63) :
    n.height < 128 := by
  have hpow := hb.two_pow_le_length.trans_lt hlen
  have hhalf := (Nat.pow_lt_pow_iff_right (by decide)).mp hpow
  omega

theorem rootHash_of_rootDenotes {h : Heap} {t : HeapTree} {v : Tree}
    (hroot : h.interface.RootDenotes t.root v.root) : ∃ h', t.rootHash h = some (v.rootHash, h') := by
  obtain ⟨tv, cow, root⟩ := t
  obtain ⟨vv, vroot⟩ := v
  cases root with
  | none =>
    cases vroot with
    | none => exact ⟨h, rfl⟩
    | some n => exact absurd hroot id
  | some r =>
    cases vroot with
    | none => exact absurd hroot id
    | some n =>
      have hhash : h.interface.hash r = some n.hashNode := hroot.shows.hash
      simp only [Heap.interface, Option.bind_eq_bind, Option.bind_eq_some_iff, Option.pure_def,
        Option.some.injEq] at hhash
      obtain ⟨height, hheight, ⟨hash, h'⟩, hr, rfl⟩ := hhash
      refine ⟨h', ?_⟩
      simp only [HeapTree.rootHash, hheight, Results.some_bind]
      exact hr

theorem createExistenceProof_spec {h : Heap} {t : HeapTree} {v : Tree}
    (hroot : h.interface.RootDenotes t.root v.root) (hv : v.Valid) (hlen : v.toList.length < 2 ^ 63)
    (key : Bytes) :
    (∃ x proof, (key, x) ∈ v.toList ∧ t.createExistenceProof h key = some (.ok proof) ∧
      proof.key = key ∧ proof.value = x ∧ proof.calculate = v.rootHash) ∨
    (∀ p ∈ v.toList, p.1 ≠ key) ∧ t.createExistenceProof h key = some (.error .keyNotExist) := by
  obtain ⟨tv, cow, root⟩ := t
  obtain ⟨vv, vroot⟩ := v
  cases root with
  | none =>
    cases vroot with
    | none => exact .inr ⟨by simp [Tree.toList], rfl⟩
    | some n => exact absurd hroot id
  | some r =>
    cases vroot with
    | none => exact absurd hroot id
    | some n =>
      have hn := hv n rfl
      have hheight : h.height r = some n.height := hroot.shows.height
      obtain ⟨w, x, rest, node, hmem, hpath, hnode, hclimb⟩ | ⟨habs, hpath⟩ :=
        pathToLeaf_spec key hroot hn (hn.balanced.height_lt_128 hlen) (Nat.lt_succ_self _) []
      · have hkey : h.key node = some key := hnode.1.key
        have hvalue : h.value node = some x := hnode.2
        have hversion : h.version node = some w := hnode.1.version
        refine .inl ⟨x, ⟨key, x, convertLeafOp w, convertInnerOps rest⟩, hmem, ?_, rfl, rfl, hclimb⟩
        simp [HeapTree.createExistenceProof, hheight, hpath, hkey, hvalue, hversion]
      · refine .inr ⟨habs, ?_⟩
        simp [HeapTree.createExistenceProof, hheight, hpath]

end Exact

/-- Existence proofs are complete and sound: there is one exactly for a key of the tree, it
carries the pair of the tree, and a verifier who follows it arrives at the root hash. -/
theorem existence_proof_exact [Sha256] {h : Heap} {t : HeapTree} {v : Tree}
    (hroot : h.interface.RootDenotes t.root v.root) (hv : v.Valid) (hlen : v.toList.length < 2 ^ 63)
    (key : Bytes) :
    ((∃ proof, t.createExistenceProof h key = some (.ok proof)) ↔ ∃ x, (key, x) ∈ v.toList) ∧
    ((¬∃ x, (key, x) ∈ v.toList) → t.createExistenceProof h key = some (.error .keyNotExist)) ∧
    ∀ proof, t.createExistenceProof h key = some (.ok proof) →
      proof.key = key ∧ (key, proof.value) ∈ v.toList ∧
      ∃ h', t.rootHash h = some (proof.calculate, h') := by
  have hhash := rootHash_of_rootDenotes hroot
  obtain ⟨x, proof, hmem, hproof, hkey, hvalue, hcalc⟩ | ⟨habs, herror⟩ :=
    createExistenceProof_spec hroot hv hlen key
  · refine ⟨iff_of_true ⟨proof, hproof⟩ ⟨x, hmem⟩, fun hno => absurd ⟨x, hmem⟩ hno, ?_⟩
    intro proof' hproof'
    cases hproof.symm.trans hproof'
    exact ⟨hkey, hvalue ▸ hmem, hcalc ▸ hhash⟩
  · have hno : ¬∃ x, (key, x) ∈ v.toList := fun ⟨x, hx⟩ => habs _ hx rfl
    refine ⟨iff_of_false ?_ hno, fun _ => herror, ?_⟩
    · rintro ⟨proof, hproof⟩
      cases herror.symm.trans hproof
    · intro proof hproof
      cases herror.symm.trans hproof

/-- The proof of the second of two leaves in memory. -/
theorem existence_proof_exact_second :
    letI := Sha256.padded
    ∃ (proof : ExistenceProof) (h' : Heap),
      HeapTree.twoLeaves.createExistenceProof .twoLeaves [2] = some (.ok proof) ∧
      proof.value = some [8] ∧ proof.path.length = 1 ∧
      HeapTree.twoLeaves.rootHash .twoLeaves = some (proof.calculate, h') := by
  let _ := Sha256.padded
  obtain ⟨hiff, -, hproof⟩ := existence_proof_exact
    (Heap.twoLeaves_repRoot.rootDenotes Tree.twoLeaves_valid) Tree.twoLeaves_valid (by decide) [2]
  obtain ⟨proof, hp⟩ := hiff.mpr ⟨some [8], by decide⟩
  obtain ⟨-, -, h', hroot⟩ := hproof proof hp
  have hfields : (HeapTree.twoLeaves.createExistenceProof .twoLeaves [2]).map
      (fun r => r.toOption.map fun p => (p.value, p.path.length)) = some (some (some [8], 1)) := by
    decide
  rw [hp] at hfields
  simp only [Option.map_some, Except.toOption, Option.some.injEq, Prod.mk.injEq] at hfields
  exact ⟨proof, h', hp, hfields.1, hfields.2, hroot⟩

end CronosStore.Memiavl
