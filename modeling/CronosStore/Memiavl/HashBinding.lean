import CronosStore.Foundation.ByteReader
import CronosStore.Memiavl.Invariant

/-!
# Root hashes bind trees

What `writeHashBytes` writes can be read in one way only: the numbers are a prefix code, and the
keys and hashes come behind their lengths. So two nodes with the same hash have the same height,
size and version, and the same key and value or the same hashes of children, if no two of the
strings that were hashed for them collide. Down the trees, the two are equal (`eq_of_hashNode_eq`).
The keys of branches are not hashed, but are the least keys to their right.

What is asked of it here is that it is injective on the strings that are hashed for the two trees.
-/

namespace CronosStore.Memiavl

open Foundation List Option

namespace Node

/-- The sizes that the types of the fields allow: versions are `uint32`, sizes `int64`, and
lengths of slices `int`. -/
def Representable : Node → Prop
  | .leaf v k _ => v < 2 ^ 32 ∧ k.length < 2 ^ 63
  | .branch _ s v _ l r => v < 2 ^ 32 ∧ s < 2 ^ 63 ∧ l.Representable ∧ r.Representable

theorem encodeBytes_append_inj {a b c d : Bytes} (ha : a.length < 2 ^ 64) (hc : c.length < 2 ^ 64)
    (h : encodeBytes a ++ b = encodeBytes c ++ d) : a = c ∧ b = d := by
  rw [encodeBytes, encodeBytes, append_assoc, append_assoc] at h
  obtain ⟨hlen, hrest⟩ := putUvarint_append_inj ha hc h
  exact append_inj hrest hlen

section Hash

variable [Sha256]

def hashFields : Node → Bytes × Bytes
  | .leaf _ k x => (k, Sha256.sum256 (x.getD []))
  | .branch _ _ _ _ l r => (l.hashNode, r.hashNode)

def hashBytes (n : Node) : Bytes :=
  putVarint n.height ++ (putVarint n.size ++ (putVarint n.version ++
    (encodeBytes n.hashFields.1 ++ encodeBytes n.hashFields.2)))

theorem hashNode_eq (n : Node) : n.hashNode = Sha256.sum256 n.hashBytes := by
  cases n <;> simp [hashNode, hashBytes, hashFields, height, size, version]

def hashed : Node → List Bytes
  | .leaf v k x => [hashBytes (.leaf v k x), x.getD []]
  | .branch h s v k l r => hashBytes (.branch h s v k l r) :: (l.hashed ++ r.hashed)

theorem hashBytes_mem_hashed (n : Node) : n.hashBytes ∈ n.hashed := by
  cases n <;> exact mem_cons_self

variable {n : Node}

omit [Sha256] in
theorem Valid.numbers_lt (hn : n.Valid) (hr : n.Representable) :
    n.height < 2 ^ 63 ∧ n.size < 2 ^ 63 ∧ n.version < 2 ^ 63 := by
  have hsize : n.size < 2 ^ 63 := by
    cases n with
    | leaf v k x => exact Nat.one_lt_two_pow (by decide)
    | branch h s v k l r => exact hr.2.1
  have hversion : n.version < 2 ^ 32 := by
    cases n with
    | leaf v k x => exact hr.1
    | branch h s v k l r => exact hr.1
  refine ⟨?_, hsize, by omega⟩
  -- a balanced tree has exponentially many leaves
  have hlen := hn.balanced.two_pow_le_length
  rw [← hn.sized.size_eq] at hlen
  have hlt := (Nat.pow_lt_pow_iff_right (by decide)).mp (lt_of_le_of_lt hlen hsize)
  omega

theorem length_hashFields (hr : n.Representable) :
    n.hashFields.1.length < 2 ^ 64 ∧ n.hashFields.2.length < 2 ^ 64 := by
  cases n with
  | leaf v k x =>
    have hk : k.length < 2 ^ 63 := hr.2
    have hx : (Sha256.sum256 (x.getD [])).length = 32 := Sha256.length_sum256 _
    exact ⟨by show k.length < _; omega, by show (Sha256.sum256 _).length < _; omega⟩
  | branch h s v k l r =>
    have hl := l.length_hashNode
    have hr := r.length_hashNode
    exact ⟨by show l.hashNode.length < _; omega, by show r.hashNode.length < _; omega⟩

theorem hashBytes_inj {m : Node} (hn : n.Valid) (hm : m.Valid) (hrn : n.Representable)
    (hrm : m.Representable) (h : n.hashBytes = m.hashBytes) :
    n.height = m.height ∧ n.size = m.size ∧ n.version = m.version ∧ n.hashFields = m.hashFields := by
  obtain ⟨hhn, hsn, hvn⟩ := hn.numbers_lt hrn
  obtain ⟨hhm, hsm, hvm⟩ := hm.numbers_lt hrm
  obtain ⟨hf1, hf2⟩ := length_hashFields hrn
  obtain ⟨hg1, hg2⟩ := length_hashFields hrm
  obtain ⟨hheight, h⟩ := putVarint_append_inj hhn hhm h
  obtain ⟨hsize, h⟩ := putVarint_append_inj hsn hsm h
  obtain ⟨hversion, h⟩ := putVarint_append_inj hvn hvm h
  obtain ⟨hfst, h⟩ := encodeBytes_append_inj hf1 hg1 h
  have hsnd : encodeBytes n.hashFields.2 ++ [] = encodeBytes m.hashFields.2 ++ [] := by
    rw [append_nil, append_nil, h]
  exact ⟨hheight, hsize, hversion, Prod.ext hfst (encodeBytes_append_inj hf2 hg2 hsnd).1⟩

/-- Two nodes with the same hash are the same, if the strings that were hashed for them do not
collide. -/
theorem eq_of_hashNode_eq {m : Node} (hn : n.Valid) (hm : m.Valid) (hrn : n.Representable)
    (hrm : m.Representable) (hinj : Set.InjOn Sha256.sum256 {b | b ∈ n.hashed ∨ b ∈ m.hashed})
    (h : n.hashNode = m.hashNode) : n = m := by
  induction n generalizing m with
  | leaf v k x =>
    rw [hashNode_eq, hashNode_eq] at h
    have hbytes := hinj (.inl (hashBytes_mem_hashed _)) (.inr (hashBytes_mem_hashed _)) h
    obtain ⟨hheight, -, hversion, hfields⟩ := hashBytes_inj hn hm hrn hrm hbytes
    cases m with
    | leaf v' k' x' =>
      obtain ⟨hkey, hvalue⟩ := Prod.mk.inj hfields
      have hvalue : x.getD [] = x'.getD [] := by
        apply hinj _ _ hvalue
        · exact .inl (mem_cons_of_mem _ (mem_singleton_self _))
        · exact .inr (mem_cons_of_mem _ (mem_singleton_self _))
      -- there are no nil values
      have hx : x ≠ none := hn.stored (k, x) (mem_singleton_self _)
      have hx' : x' ≠ none := hm.stored (k', x') (mem_singleton_self _)
      obtain ⟨b, rfl⟩ := ne_none_iff_exists'.mp hx
      obtain ⟨b', rfl⟩ := ne_none_iff_exists'.mp hx'
      rw [show v = v' from hversion, hkey, show b = b' from hvalue]
    | branch ht s v' k' l r =>
      have hpos := hm.balanced.2.2.1
      have hzero : 0 = ht := hheight
      omega
  | branch ht s v k l r ihl ihr =>
    rw [hashNode_eq, hashNode_eq] at h
    have hbytes := hinj (.inl (hashBytes_mem_hashed _)) (.inr (hashBytes_mem_hashed _)) h
    obtain ⟨hheight, hsize, hversion, hfields⟩ := hashBytes_inj hn hm hrn hrm hbytes
    cases m with
    | leaf v' k' x' =>
      have hpos := hn.balanced.2.2.1
      have hzero : ht = 0 := hheight
      omega
    | branch ht' s' v' k' l' r' =>
      obtain ⟨hleft, hright⟩ := Prod.mk.inj hfields
      have hsub (a b : Node) (ha : ∀ c ∈ a.hashed, c ∈ l.hashed ∨ c ∈ r.hashed)
          (hb : ∀ c ∈ b.hashed, c ∈ l'.hashed ∨ c ∈ r'.hashed) :
          Set.InjOn Sha256.sum256 {c | c ∈ a.hashed ∨ c ∈ b.hashed} := by
        refine hinj.mono fun c hc => ?_
        rcases hc with hc | hc
        · exact .inl (mem_cons_of_mem _ (mem_append.mpr (ha c hc)))
        · exact .inr (mem_cons_of_mem _ (mem_append.mpr (hb c hc)))
      obtain rfl := ihl hn.left hm.left hrn.2.2.1 hrm.2.2.1
        (hsub l l' (fun _ => .inl) fun _ => .inl) hleft
      obtain rfl := ihr hn.right hm.right hrn.2.2.2 hrm.2.2.2
        (hsub r r' (fun _ => .inr) fun _ => .inr) hright
      have hkey : k = k' := hn.ordered.2.2.2.symm.trans hm.ordered.2.2.2
      rw [show ht = ht' from hheight, show s = s' from hsize, show v = v' from hversion, hkey]

end Hash

end Node

namespace Tree

def Representable (t : Tree) : Prop := ∀ n, t.root = some n → n.Representable

def hashed [Sha256] (t : Tree) : List Bytes := (t.root.map Node.hashed).getD [[]]

/-- Two trees with the same root hash have the same nodes, so the same shape, versions and
pairs, and are both empty or both not, if the strings that were hashed for them do not
collide. -/
theorem rootHash_binding [Sha256] {t t' : Tree} (ht : t.Valid) (ht' : t'.Valid)
    (hr : t.Representable) (hr' : t'.Representable)
    (hinj : Set.InjOn Sha256.sum256 {b | b ∈ t.hashed ∨ b ∈ t'.hashed})
    (h : t.rootHash = t'.rootHash) : t.root = t'.root ∧ t.toList = t'.toList := by
  suffices hroot : t.root = t'.root from ⟨hroot, by rw [toList, toList, hroot]⟩
  -- what is written for a node is not empty
  have hne (n : Node) : [] ≠ n.hashBytes := by
    intro hnil
    have hvarint : putVarint n.height ≠ [] := by
      rw [putVarint, putUvarint, putUvarintAux]
      split_ifs <;> exact cons_ne_nil _ _
    exact hvarint (append_eq_nil_iff.mp hnil.symm).1
  unfold rootHash at h
  unfold hashed at hinj
  cases hn : t.root with
  | none =>
    cases hm : t'.root with
    | none => rfl
    | some m =>
      simp only [hn, hm, map_none, map_some, getD_none, getD_some] at h hinj
      rw [Node.hashNode_eq] at h
      refine absurd (hinj ?_ ?_ h) (hne m)
      · exact .inl (mem_singleton_self _)
      · exact .inr (Node.hashBytes_mem_hashed m)
  | some n =>
    cases hm : t'.root with
    | none =>
      simp only [hn, hm, map_none, map_some, getD_none, getD_some] at h hinj
      rw [Node.hashNode_eq] at h
      refine absurd (hinj ?_ ?_ h.symm) (hne n)
      · exact .inr (mem_singleton_self _)
      · exact .inl (Node.hashBytes_mem_hashed n)
    | some m =>
      simp only [hn, hm, map_some, getD_some] at h hinj
      exact congrArg some
        (Node.eq_of_hashNode_eq (ht n hn) (ht' m hm) (hr n hn) (hr' m hm) hinj h)

def pair (value : UInt8) : Tree :=
  ⟨1, some (.branch 1 2 1 [108] (.leaf 1 [107] (some [value])) (.leaf 1 [108] (some [])))⟩

/-- Trees with different values have different hashes. -/
theorem rootHash_binding_values :
    @rootHash Sha256.padded (pair 7) ≠ @rootHash Sha256.padded (pair 8) := by
  let _ := Sha256.padded
  have hvalid (x : UInt8) : (pair x).Valid := by
    intro n hn
    cases hn
    refine ⟨by simp [Node.Balanced], by simp [Node.Sized, Node.toList],
      ⟨trivial, trivial, ?_, rfl⟩, by simp [Node.Stored, Node.toList]⟩
    simp only [Node.toList, mem_singleton, forall_eq]
    decide
  have hrep (x : UInt8) : (pair x).Representable := by
    intro n hn
    cases hn
    simp [Node.Representable]
  have hinj : ∀ a ∈ (pair 7).hashed ++ (pair 8).hashed, ∀ b ∈ (pair 7).hashed ++ (pair 8).hashed,
      Sha256.sum256 a = Sha256.sum256 b → a = b := by decide
  intro h
  have hsame := (rootHash_binding (hvalid 7) (hvalid 8) (hrep 7) (hrep 8)
    (fun a ha b hb => hinj a (mem_append.mpr ha) b (mem_append.mpr hb)) h).2
  exact absurd hsame (by decide)

end Tree

end CronosStore.Memiavl
