import CronosStore.Memiavl.HeapRecursion

/-!
# Hashing on the heap

`Hash` writes into cells that several trees may share. `HashStep` says that nothing but
cached hashes changed, and that a new one is the hash of whatever tree the cell is the root
of. As a cell is the root of one tree only, every tree keeps its value under such a step,
whoever asked for the hash.
-/

namespace CronosStore.Memiavl

open Foundation CellHeap Option

variable [Sha256] {F F' : Set Addr} {h h' h'' : Heap} {r : Ref} {t : Node} {depth : Nat}

structure HashStep (h h' : Heap) : Prop where
  length_eq : h'.length = h.length
  cell : ∀ a c, h[a]? = some c → ∃ hash, h'[a]? = some { c with hash := hash } ∧
    (hash = c.hash ∨ ∀ t F, Rep h (.mem a) t F → hash = some t.hashNode)

namespace HashStep

theorem refl (h : Heap) : HashStep h h := ⟨rfl, fun _ c hc => ⟨c.hash, hc, .inl rfl⟩⟩

theorem hashOk {hash hash' : Slice} (hh : HashOk hash t)
    (hor : hash' = hash ∨ hash' = some t.hashNode) : HashOk hash' t := by
  intro x hx
  rcases hor with rfl | rfl
  · exact hh x hx
  · exact (Option.some.inj hx).symm

theorem rep (hs : HashStep h h') (hr : Rep h r t F) : Rep h' r t F := by
  induction hr with
  | persisted hd => exact .persisted hd
  | leaf hc hh =>
    obtain ⟨hash, hc', hor⟩ := hs.cell _ _ hc
    exact .leaf hc' (hashOk hh (hor.imp_right fun hall => hall _ _ (.leaf hc hh)))
  | branch hc h0 hl hr hal har hlr hh ihl ihr =>
    obtain ⟨hash, hc', hor⟩ := hs.cell _ _ hc
    exact .branch hc' h0 ihl ihr hal har hlr
      (hashOk hh (hor.imp_right fun hall => hall _ _ (.branch hc h0 hl hr hal har hlr hh)))

theorem trans (hs : HashStep h h') (hs' : HashStep h' h'') : HashStep h h'' := by
  refine ⟨hs'.length_eq.trans hs.length_eq, fun a c hc => ?_⟩
  obtain ⟨hash, hc', hor⟩ := hs.cell a c hc
  obtain ⟨hash', hc'', hor'⟩ := hs'.cell a _ hc'
  refine ⟨hash', hc'', ?_⟩
  rcases hor' with rfl | hall
  · exact hor
  · exact .inr fun t F hrep => hall t F (hs.rep hrep)

theorem setHash {a : Addr} (hr : Rep h (.mem a) t F) :
    ∃ h', h.setHash a t.hashNode = some h' ∧ HashStep h h' := by
  obtain ⟨c, hc⟩ : ∃ c, h[a]? = some c := by
    cases hr with
    | leaf hc => exact ⟨_, hc⟩
    | branch hc => exact ⟨_, hc⟩
  have ha := (List.getElem?_eq_some_iff.mp hc).1
  refine ⟨h.set a { c with hash := some t.hashNode }, ?_, by simp, fun b c' hc' => ?_⟩
  · simp only [Heap.setHash, hc, Results.some_bind, pure_def]
  · by_cases hba : a = b
    · subst hba
      cases hc.symm.trans hc'
      exact ⟨_, List.getElem?_set_self ha, .inr fun t' F' hr' => by rw [hr.unique hr']⟩
    · exact ⟨c'.hash, (List.getElem?_set_ne hba).trans hc', .inl rfl⟩

end HashStep

/-- `Hash` returns the hash of the tree and changes nothing but cached hashes. -/
theorem hash_rep (hr : Rep h r t F) (hb : t.Balanced) (hdepth : t.height < depth) :
    ∃ h', Heap.hash depth h r = some (t.hashNode, h') ∧ HashStep h h' := by
  induction t generalizing h r F depth with
  | leaf v k x =>
    cases depth with
    | zero => omega
    | succ depth =>
      cases hr with
      | persisted hd =>
        refine ⟨h, ?_, HashStep.refl h⟩
        have hp : PersistedNode.hash _ = _ := hd.shows.hash
        simp only [Heap.hash, hp, Results.some_bind, pure_def]
      | @leaf a _ _ _ _ _ hash hc hh =>
        cases hash with
        | some y =>
          cases hh y rfl
          refine ⟨h, ?_, HashStep.refl h⟩
          simp only [Heap.hash, hc, Results.some_bind, pure_def]
        | none =>
          obtain ⟨h', he, hs⟩ := HashStep.setHash (.leaf hc hh)
          refine ⟨h', ?_, hs⟩
          simp only [Heap.hash, hc, Results.some_bind, if_true, pure_def]
          rw [show Sha256.sum256 (putVarint ((0 : Nat) : Int) ++ putVarint ((1 : Nat) : Int) ++
            putVarint v ++ Node.encodeBytes k ++ Node.encodeBytes (Sha256.sum256 (x.getD []))) =
            Node.hashNode (.leaf v k x) from rfl, he]
          rfl
  | branch ht s v k tl tr ihl ihr =>
    have h0 := hb.height_ne_zero
    obtain ⟨hbl, hbr, hh', -, -⟩ := hb
    rw [Node.height_branch] at hdepth
    cases depth with
    | zero => omega
    | succ depth =>
      cases hr with
      | persisted hd =>
        refine ⟨h, ?_, HashStep.refl h⟩
        have hp : PersistedNode.hash _ = _ := hd.shows.hash
        simp only [Heap.hash, hp, Results.some_bind, pure_def]
      | @branch a _ _ _ _ _ cl cr hash _ _ Fl Fr hc _ hl hr' hal har hlr hh =>
        cases hash with
        | some y =>
          cases hh y rfl
          refine ⟨h, ?_, HashStep.refl h⟩
          simp only [Heap.hash, hc, Results.some_bind, pure_def]
        | none =>
          obtain ⟨h1, he1, hs1⟩ := ihl hl hbl (show tl.height < depth by omega)
          obtain ⟨h2, he2, hs2⟩ := ihr (hs1.rep hr') hbr (show tr.height < depth by omega)
          have hs := hs1.trans hs2
          obtain ⟨h3, he3, hs3⟩ := HashStep.setHash
            (hs.rep (.branch hc h0 hl hr' hal har hlr hh))
          refine ⟨h3, ?_, hs.trans hs3⟩
          simp only [Heap.hash, hc, Results.some_bind, if_neg h0, he1, he2,
            pure_def]
          rw [show Sha256.sum256 _ = Node.hashNode (.branch ht s v k tl tr) from rfl, he3]
          rfl

theorem Rep.denotes (hr : Rep h r t F) (hb : t.Balanced) : h.interface.Denotes r t := by
  induction t generalizing r F with
  | leaf v k x =>
    obtain ⟨h', he, -⟩ := hash_rep hr hb (Nat.lt_succ_self _)
    refine ⟨⟨hr.isLeaf_eq, hr.height_eq, hr.size_eq, hr.version_eq, hr.key_eq, ?_⟩, hr.value_eq⟩
    simp only [Heap.interface, hr.height_eq, he, Results.some_bind,
      pure_def]
  | branch ht s v k tl tr ihl ihr =>
    obtain ⟨h', he, -⟩ := hash_rep hr hb (Nat.lt_succ_self _)
    obtain ⟨cl, cr, Fl, Fr, hsh, hl, hr', -⟩ := hr.branch_inv
    refine ⟨⟨hr.isLeaf_eq, hr.height_eq, hr.size_eq, hr.version_eq, hr.key_eq, ?_⟩, cl, cr, hsh.left,
      hsh.right, ihl hl hb.1, ihr hr' hb.2.1⟩
    simp only [Heap.interface, hr.height_eq, he, Results.some_bind,
      pure_def]

end CronosStore.Memiavl
