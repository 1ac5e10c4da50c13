import CronosStore.Memiavl.World

/-!
# Cached hashes

A hash is computed when it is asked for and kept until `Mutate` clears it. In every reachable world
a hash that is kept, in a cell or in a snapshot, is the one that `writeHashBytes` gives when nothing
is kept (`scratchHash`).

The values of a world are a state of their own (`Op.act`), which an operation on the heap moves and
`RootHash` does not (`Shows.step`).
-/

namespace CronosStore.Memiavl

open Foundation CellHeap List Option

variable [Sha256]

/-! ## Hashes from scratch -/

def NodeInterface.scratchHash {N : Type} (I : NodeInterface N) : Nat → N → Option Bytes
  | 0, _ => none
  | depth + 1, n => do
    let head := putVarint (← I.height n) ++ putVarint (← I.size n) ++ putVarint (← I.version n)
    if ← I.isLeaf n then
      pure (Sha256.sum256 (head ++ Node.encodeBytes (← I.key n) ++
        Node.encodeBytes (Sha256.sum256 ((← I.value n).getD []))))
    else
      pure (Sha256.sum256 (head ++ Node.encodeBytes (← scratchHash I depth (← I.left n)) ++
        Node.encodeBytes (← scratchHash I depth (← I.right n))))

theorem NodeInterface.Denotes.scratchHash_eq {N : Type} {I : NodeInterface N} {n : N} {t : Node}
    (h : I.Denotes n t) (hb : t.Balanced) {depth : Nat} (hdepth : t.height < depth) :
    I.scratchHash depth n = some t.hashNode := by
  refine h.depth_induction (motive := fun depth n t => I.scratchHash depth n = some t.hashNode) ?_ ?_ hb hdepth
  · intro depth n v k x hs hx
    simp only [NodeInterface.scratchHash, hs.isLeaf, hs.height, hs.size, hs.version, hs.key, hx,
      Results.some_bind, Option.pure_def, Node.isLeaf, if_true]
    rfl
  · intro depth n nl nr ht s v k l r hs hl hr ihl ihr
    simp only [NodeInterface.scratchHash, hs.isLeaf, hs.height, hs.size, hs.version, hl, hr, ihl, ihr,
      Results.some_bind, Option.pure_def, Node.isLeaf, Bool.false_eq_true, if_false]
    rfl

namespace Heap

def scratchHash (h : Heap) (r : Ref) : Option Bytes := do
  h.interface.scratchHash ((← h.height r) + 1) r

def cachedHash (h : Heap) : Ref → Slice
  | .mem a => h[a]?.bind MemNode.hash
  | .persisted p => p.hash

inductive Below (h : Heap) (root : Ref) : Ref → Prop
  | self : Below h root root
  | left {r c : Ref} (hr : Below h root r) (hleaf : h.isLeaf r = some false)
      (hc : h.left r = some c) : Below h root c
  | right {r c : Ref} (hr : Below h root r) (hleaf : h.isLeaf r = some false)
      (hc : h.right r = some c) : Below h root c

end Heap

variable {h : Heap} {r root : Ref} {t : Node} {F : Set Addr}

theorem Rep.of_below (hroot : Rep h root t F) (hb : t.Balanced) (hr : h.Below root r) :
    ∃ t' F', Rep h r t' F' ∧ t'.Balanced := by
  induction hr with
  | self => exact ⟨t, F, hroot, hb⟩
  | left _ hleaf hc ih =>
    obtain ⟨t', F', hrep, hb'⟩ := ih
    cases t' with
    | leaf v k x => cases hleaf.symm.trans hrep.isLeaf_eq
    | branch ht s v k tl tr =>
      obtain ⟨cl, cr, Fl, Fr, hshape, hl, -⟩ := hrep.branch_inv
      cases hshape.left.symm.trans hc
      exact ⟨tl, Fl, hl, hb'.1⟩
  | right _ hleaf hc ih =>
    obtain ⟨t', F', hrep, hb'⟩ := ih
    cases t' with
    | leaf v k x => cases hleaf.symm.trans hrep.isLeaf_eq
    | branch ht s v k tl tr =>
      obtain ⟨cl, cr, Fl, Fr, hshape, -, hr, -⟩ := hrep.branch_inv
      cases hshape.right.symm.trans hc
      exact ⟨tr, Fr, hr, hb'.2.1⟩

theorem RepRoot.exists_rep {n : Option Node} (hr : RepRoot h (Option.some r) n F) :
    ∃ t, n = Option.some t ∧ Rep h r t F := by
  cases hr with
  | some hr => exact ⟨_, rfl, hr⟩

theorem RepRoot.eq_none {n : Option Node} (hr : RepRoot h Option.none n F) : n = Option.none := by
  cases hr with
  | none => rfl

theorem Rep.scratchHash_eq (hr : Rep h r t F) (hb : t.Balanced) :
    h.scratchHash r = some t.hashNode := by
  rw [Heap.scratchHash, hr.height_eq]
  exact (hr.denotes hb).scratchHash_eq hb (Nat.lt_succ_self _)

theorem Rep.cachedHash_eq (hr : Rep h r t F) {x : Bytes} (hx : h.cachedHash r = some x) :
    x = t.hashNode := by
  cases hr with
  | persisted hd => exact Option.some.inj (hx.symm.trans hd.shows.hash)
  | leaf hc hh =>
    rw [Heap.cachedHash, hc] at hx
    exact hh x hx
  | branch hc _ _ _ _ _ _ hh =>
    rw [Heap.cachedHash, hc] at hx
    exact hh x hx

/-! ## The values of a world -/

structure Value where
  tree : Tree
  changed : Bool

def Op.act (vals : List Value) : Op → List Value
  | .set i key value => vals.modify i fun x => ⟨x.tree.set key value, true⟩
  | .remove i key => vals.modify i fun x =>
      ⟨x.tree.remove key, x.changed || x.tree.toList.any fun p => p.1 = key⟩
  | .saveVersion i _ => vals.modify i fun x => match x.tree.saveVersion with
      | some t => ⟨t, false⟩
      | none => x
  | .rootHash _ => vals
  | .copy i => match vals[i]? with
      | some x => if x.changed then vals else vals ++ [⟨x.tree, false⟩]
      | none => vals
  | .adopt _ => vals

def Op.isRootHash : Op → Bool
  | .rootHash _ => true
  | _ => false

structure World.Shows (w : World) (vals : List Value) : Prop where
  changed : w.handles.map Handle.changed = vals.map Value.changed
  values : ∃ val fp, w.Inv val fp ∧ ∀ i x, vals[i]? = some x → val i = x.tree

variable {w w' : World} {vals : List Value} {i : Nat}

omit [Sha256] in
theorem World.change_inv {hd : Handle} {f : Heap → Handle → Option (Handle × Heap)}
    (hi : w.handles[i]? = some hd) (hs : w.change i f = some w') :
    ∃ hd' h', f w.heap hd = some (hd', h') ∧ w' = ⟨h', w.handles.set i hd'⟩ := by
  simp only [World.change, hi, Option.bind_eq_bind, Option.bind_eq_some_iff, Option.pure_def,
    Option.some.injEq] at hs
  obtain ⟨⟨hd', h'⟩, hf, rfl⟩ := hs
  exact ⟨hd', h', hf, rfl⟩

/-- Whether a removal changes the tree is a matter of its keys. -/
theorem HandleOk.remove_changed {hd hd' : Handle} {h' : Heap} {v : Tree}
    (hok : HandleOk h hd v F) {key : Bytes} (hf : Handle.remove key h hd = some (hd', h')) :
    hd'.changed = (hd.changed || v.toList.any fun p => p.1 = key) := by
  obtain ⟨t', h₁, F', he, -, -, hrep', -⟩ := remove_repRoot hok.rep hok.version hok.valid key
  simp only [Handle.remove, he, Results.some_bind, Option.pure_def,
    Option.some.injEq, Prod.mk.injEq] at hf
  obtain ⟨rfl, rfl⟩ := hf
  refine congrArg (hd.changed || ·) ?_
  by_cases hkey : ∃ p ∈ v.toList, p.1 = key
  · obtain ⟨p, hp, rfl⟩ := hkey
    have hany : (v.toList.any fun q => q.1 = p.1) = true :=
      any_eq_true.mpr ⟨p, hp, decide_eq_true rfl⟩
    rw [hany, decide_eq_true_eq]
    intro heq
    obtain ⟨rfl, rfl⟩ := Prod.mk.inj heq
    have hroot := hok.rep.unique hrep'
    have hlist : v.toList = (v.remove p.1).toList := by rw [Tree.toList, Tree.toList, hroot]
    rw [hok.valid.toList_remove] at hlist
    rw [hlist] at hp
    exact (SortedAssoc.mem_erase.mp hp).2 rfl
  · have habs : ∀ p ∈ v.toList, p.1 ≠ key := fun p hp hpk => hkey ⟨p, hp, hpk⟩
    have hany : (v.toList.any fun q => q.1 = key) = false :=
      any_eq_false.mpr fun p hp => by simpa using habs p hp
    cases he.symm.trans (remove_absent_repRoot hok.rep hok.valid habs)
    simp [hany]

theorem HandleOk.saveVersion_changed {hd hd' : Handle} {h' : Heap} {v : Tree} {updateHash : Bool}
    (hok : HandleOk h hd v F) (hf : Handle.saveVersion updateHash h hd = some (hd', h')) :
    hd'.changed = (hd.changed && v.saveVersion.isNone) := by
  simp only [Handle.saveVersion, Option.bind_eq_bind, Option.bind_eq_some_iff, Option.pure_def,
    Option.some.injEq, Prod.mk.injEq] at hf
  obtain ⟨⟨res, t, h₁⟩, hsv, rfl, -⟩ := hf
  rw [HeapTree.saveVersion, hok.version] at hsv
  rw [Tree.saveVersion]
  by_cases hmax : v.version = maxUint32
  · rw [if_pos hmax] at hsv ⊢
    cases hsv
    rfl
  · rw [if_neg hmax] at hsv ⊢
    cases updateHash with
    | false =>
      cases hsv
      rfl
    | true =>
      simp only [Option.bind_eq_bind, Option.bind_eq_some_iff, Option.pure_def, if_true,
        Option.some.injEq, Prod.mk.injEq] at hsv
      obtain ⟨_, -, _, rfl, rfl, -⟩ := hsv
      rfl

namespace World.Shows

section

variable (hs : w.Shows vals)
include hs

theorem length_eq : w.handles.length = vals.length := by
  have h := congrArg List.length hs.changed
  rwa [length_map, length_map] at h

theorem changed_eq {hd : Handle} {x : Value} (hi : w.handles[i]? = some hd)
    (hx : vals[i]? = some x) : hd.changed = x.changed := by
  have h := congrArg (·[i]?) hs.changed
  simp only [getElem?_map, hi, hx, map_some, Option.some.injEq] at h
  exact h

theorem modify {hd' : Handle} {x : Value} {g : Value → Value}
    {val val' : Nat → Tree} {fp' : Nat → Set Addr} {h' : Heap} (hx : vals[i]? = some x)
    (hval : ∀ j y, vals[j]? = some y → val j = y.tree) (hch : hd'.changed = (g x).changed)
    (hinv : World.Inv ⟨h', w.handles.set i hd'⟩ val' fp') (hself : val' i = (g x).tree)
    (hother : ∀ j < w.handles.length, j ≠ i → val' j = val j) :
    World.Shows ⟨h', w.handles.set i hd'⟩ (vals.modify i g) := by
  have hmod : vals.modify i g = vals.set i (g x) := by
    obtain ⟨hlt, rfl⟩ := List.getElem?_eq_some_iff.mp hx
    rw [modify_eq_set_getElem?, getElem?_eq_getElem hlt]
    rfl
  refine ⟨?_, val', fp', hinv, fun j y hj => ?_⟩
  · rw [hmod, map_set, map_set, hs.changed, hch]
  · have hlt := (List.getElem?_eq_some_iff.mp hj).1
    rw [length_modify, ← hs.length_eq] at hlt
    by_cases hij : j = i
    · subst hij
      rw [getElem?_modify_eq, hx] at hj
      cases hj
      exact hself
    · rw [getElem?_modify_ne _ _ (Ne.symm hij)] at hj
      rw [hother j hlt hij]
      exact hval j y hj

theorem cases (i : Nat) :
    (w.handles[i]? = none ∧ vals[i]? = none) ∨
      ∃ hd x, w.handles[i]? = some hd ∧ vals[i]? = some x := by
  by_cases hlt : i < w.handles.length
  · exact .inr ⟨_, _, getElem?_eq_getElem hlt, getElem?_eq_getElem (hs.length_eq ▸ hlt)⟩
  · refine .inl ⟨getElem?_eq_none (by omega), getElem?_eq_none ?_⟩
    rw [← hs.length_eq]
    omega

theorem change {op : Op} {f : Heap → Handle → Option (Handle × Heap)}
    {g : Value → Value} (hstep : w.step op = w.change i f)
    (hother : ∀ j, j ≠ i → op.on j = none)
    (hself : ∀ x : Value, (g x).tree = match op.on i with
      | some o => x.tree.apply o
      | none => x.tree)
    (hflag : ∀ {hd hd' x h' F}, HandleOk w.heap hd x.tree F → hd.changed = x.changed →
      f w.heap hd = some (hd', h') → hd'.changed = (g x).changed) :
    ∃ w', w.step op = some w' ∧ w'.Shows (vals.modify i g) := by
  obtain ⟨val, fp, hinv, hval⟩ := hs.values
  rcases hs.cases i with ⟨hi, hx⟩ | ⟨hd, x, hi, hx⟩
  · refine ⟨w, hstep.trans (World.change_none hi f), ?_⟩
    rw [modify_eq_self (getElem?_eq_none_iff.mp hx)]
    exact hs
  · obtain ⟨w', hw', val', fp', hinv', -, hval'⟩ := hinv.step op
    obtain ⟨hd', h', hf, rfl⟩ := World.change_inv hi (hstep.symm.trans hw')
    refine ⟨_, hw', hs.modify hx hval ?_ hinv' ?_ ?_⟩
    · apply hflag (hval i x hx ▸ hinv.ok i hd hi) (hs.changed_eq hi hx) hf
    · have hvi := hval' i (List.getElem?_eq_some_iff.mp hi).1
      have hgx := hself x
      cases hon : op.on i with
      | none =>
        simp only [hon] at hvi hgx
        rw [hvi, hgx, hval i x hx]
      | some o =>
        simp only [hon] at hvi hgx
        rw [hvi, hgx, hval i x hx]
    · intro j hj hij
      rw [hval' j hj, hother j hij]

theorem copy (i : Nat) :
    ∃ w', w.step (.copy i) = some w' ∧ w'.Shows ((Op.copy i).act vals) := by
  obtain ⟨val, fp, hinv, hval⟩ := hs.values
  rcases hs.cases i with ⟨hi, hx⟩ | ⟨hd, x, hi, hx⟩
  · refine ⟨w, by simp only [World.step, hi], ?_⟩
    simp only [Op.act, hx]
    exact hs
  have hch := hs.changed_eq hi hx
  cases hxc : x.changed with
  | true =>
    refine ⟨w, by simp only [World.step, hi, hch, hxc, if_true], ?_⟩
    simp only [Op.act, hx, hxc, if_true]
    exact hs
  | false =>
    have hstep : w.step (.copy i) = some ⟨w.heap, w.handles.set i { hd with tree := hd.tree.copy.1 } ++
        [{ tree := hd.tree.copy.2, changed := false }]⟩ := by
      simp only [World.step, hi, hch, hxc, Bool.false_eq_true, if_false]
    refine ⟨_, hstep, ?_⟩
    simp only [Op.act, hx, hxc, Bool.false_eq_true, if_false]
    refine ⟨?_, _, _, hinv.copy hi (hch.trans hxc), fun j y hj => ?_⟩
    · have hget : (vals.map Value.changed)[i]? = some hd.changed := by
        rw [getElem?_map, hx, map_some, hch]
      obtain ⟨hlt, hget⟩ := List.getElem?_eq_some_iff.mp hget
      rw [map_append, map_append, map_set, hs.changed, ← hget, set_getElem_self]
      rfl
    · have hlen := hs.length_eq
      by_cases hlt : j < vals.length
      · rw [getElem?_append_left hlt] at hj
        rw [Function.update_of_ne (by omega)]
        exact hval j y hj
      · have hle := (List.getElem?_eq_some_iff.mp hj).1
        rw [length_append, length_singleton] at hle
        obtain rfl : j = vals.length := by omega
        rw [getElem?_concat_length] at hj
        cases hj
        rw [hlen, Function.update_self]
        exact hval i x hx

theorem step (op : Op) : ∃ w', w.step op = some w' ∧ w'.Shows (op.act vals) := by
  have hunchanged : ∀ i, vals.modify i id = vals := fun i => modify_id i vals
  cases op with
  | set i key value =>
    apply hs.change rfl
    · exact fun j hj => if_neg (Ne.symm hj)
    · exact fun x => by rw [Op.on, if_pos rfl]; rfl
    · intro hd hd' x h' F _ _ hf
      simp only [Handle.set, Option.bind_eq_bind, Option.bind_eq_some_iff, Option.pure_def,
        Option.some.injEq, Prod.mk.injEq] at hf
      obtain ⟨_, -, rfl, -⟩ := hf
      rfl
  | remove i key =>
    apply hs.change rfl
    · exact fun j hj => if_neg (Ne.symm hj)
    · exact fun x => by rw [Op.on, if_pos rfl]; rfl
    · intro hd hd' x h' F hok hch hf
      rw [hok.remove_changed hf, hch]
  | saveVersion i updateHash =>
    apply hs.change rfl
    · exact fun j hj => if_neg (Ne.symm hj)
    · intro x
      rw [Op.on, if_pos rfl]
      cases hsv : x.tree.saveVersion <;> simp [Tree.apply, hsv]
    · intro hd hd' x h' F hok hch hf
      rw [hok.saveVersion_changed hf, hch]
      cases hsv : x.tree.saveVersion <;> simp
  | rootHash i =>
    rw [Op.act, ← hunchanged i]
    apply hs.change rfl
    · exact fun j hj => rfl
    · exact fun x => rfl
    · intro hd hd' x h' F _ hch hf
      simp only [Handle.rootHash, Option.bind_eq_bind, Option.bind_eq_some_iff, Option.pure_def,
        Option.some.injEq, Prod.mk.injEq] at hf
      obtain ⟨_, -, rfl, -⟩ := hf
      exact hch
  | adopt i =>
    rw [Op.act, ← hunchanged i]
    apply hs.change rfl
    · exact fun j hj => rfl
    · exact fun x => rfl
    · intro hd hd' x h' F _ hch hf
      cases hf
      exact hch
  | copy i => exact hs.copy i

theorem run (ops : List Op) :
    ∃ w', w.run ops = some w' ∧ w'.Shows (ops.foldl Op.act vals) := by
  induction ops generalizing w vals with
  | nil => exact ⟨w, rfl, hs⟩
  | cons op ops ih =>
    obtain ⟨w₁, hw1, hs1⟩ := hs.step op
    obtain ⟨w', hw', hs'⟩ := ih hs1
    refine ⟨w', ?_, hs'⟩
    rw [World.run, foldlM_cons, hw1]
    exact hw'

theorem rootHash_eq (j : Nat) :
    w.rootHash j = vals[j]?.map fun x => x.tree.rootHash := by
  obtain ⟨val, fp, hinv, hval⟩ := hs.values
  rcases hs.cases j with ⟨hj, hx⟩ | ⟨hd, x, hj, hx⟩
  · rw [World.rootHash, hj, hx]
    rfl
  · rw [(hinv.observe_eq (List.getElem?_eq_some_iff.mp hj).1).2, hval j x hx, hx]
    rfl

end

end World.Shows

omit [Sha256] in
theorem foldl_act_filter (vals : List Value) (ops : List Op) :
    (ops.filter fun op => !op.isRootHash).foldl Op.act vals = ops.foldl Op.act vals := by
  induction ops generalizing vals with
  | nil => rfl
  | cons op ops ih =>
    cases op with
    | rootHash i => exact ih vals
    | _ => exact ih _

theorem World.Reachable.shows (hw : w.Reachable) : ∃ vals, w.Shows vals := by
  obtain ⟨val, fp, hinv⟩ := hw.inv
  refine ⟨w.handles.mapIdx fun i hd => ⟨val i, hd.changed⟩, ?_, val, fp, hinv, fun i x hx => ?_⟩
  · apply ext_getElem?
    intro i
    rw [getElem?_map, getElem?_map, getElem?_mapIdx]
    cases w.handles[i]? <;> rfl
  · rw [getElem?_mapIdx, map_eq_some_iff] at hx
    obtain ⟨hd, -, rfl⟩ := hx
    rfl

def World.scratchRootHash (w : World) (i : Nat) : Option Bytes := do
  let hd ← w.handles[i]?
  match hd.tree.root with
  | none => pure (Sha256.sum256 [])
  | some r => w.heap.scratchHash r

/-- In every reachable world the hash that is kept for a node of a tree, if there is one, is the
one from scratch, and so is what `RootHash` gives. Two runs from there that differ only in
calls of `RootHash` go through and have the same trees with the same hashes. -/
theorem cached_hashes_coherent (hw : w.Reachable) :
    (∀ (i : Nat) (hd : Handle) root r, w.handles[i]? = some hd → hd.tree.root = some root → w.heap.Below root r →
      ∃ x, w.heap.scratchHash r = some x ∧ ∀ y, w.heap.cachedHash r = some y → y = x) ∧
    (∀ i, w.rootHash i = w.scratchRootHash i) ∧
    ∀ ops ops' : List Op,
      (ops.filter fun op => !op.isRootHash) = (ops'.filter fun op => !op.isRootHash) →
      ∃ w₁ w₂, w.run ops = some w₁ ∧ w.run ops' = some w₂ ∧
        w₁.handles.length = w₂.handles.length ∧ ∀ j, w₁.rootHash j = w₂.rootHash j := by
  obtain ⟨val, fp, hinv⟩ := hw.inv
  refine ⟨?_, ?_, ?_⟩
  · intro i hd root r hi hroot hbelow
    obtain ⟨-, hrep, hvalid, -⟩ := hinv.ok i hd hi
    rw [hroot] at hrep
    obtain ⟨n, hn, hrep⟩ := hrep.exists_rep
    obtain ⟨t, F, hr, hb⟩ := hrep.of_below (hvalid n hn).balanced hbelow
    exact ⟨t.hashNode, hr.scratchHash_eq hb, fun y hy => hr.cachedHash_eq hy⟩
  · intro i
    unfold World.scratchRootHash
    cases hi : w.handles[i]? with
    | none =>
      rw [World.rootHash, hi]
      rfl
    | some hd =>
      obtain ⟨-, hrep, hvalid, -⟩ := hinv.ok i hd hi
      rw [(hinv.observe_eq (List.getElem?_eq_some_iff.mp hi).1).2]
      simp only [Results.some_bind]
      rw [Tree.rootHash]
      cases hroot : hd.tree.root with
      | none =>
        rw [hroot] at hrep
        rw [hrep.eq_none]
        rfl
      | some r =>
        rw [hroot] at hrep
        obtain ⟨n, hn, hrep⟩ := hrep.exists_rep
        rw [hn]
        exact (hrep.scratchHash_eq (hvalid n hn).balanced).symm
  · intro ops ops' heq
    obtain ⟨vals, hs⟩ := hw.shows
    obtain ⟨w₁, hw1, hs1⟩ := hs.run ops
    obtain ⟨w₂, hw2, hs2⟩ := hs.run ops'
    have hsame : ops.foldl Op.act vals = ops'.foldl Op.act vals := by
      rw [← foldl_act_filter, heq, foldl_act_filter]
    rw [← hsame] at hs2
    refine ⟨w₁, w₂, hw1, hw2, hs1.length_eq.trans hs2.length_eq.symm, fun j => ?_⟩
    rw [hs1.rootHash_eq, hs2.rootHash_eq]

omit [Sha256] in
/-- A tree of one leaf whose hash is kept; the leaf is then changed, with and without another
call of `RootHash` before. -/
theorem cached_hashes_coherent_leaf : ∃ w : World,
    @World.Reachable Sha256.zero w ∧ w.heap.cachedHash (.mem 0) ≠ none ∧ ∃ w₁ w₂,
      @World.run Sha256.zero w [.rootHash 0, .set 0 [5] (some [9]), .rootHash 0] = some w₁ ∧
      @World.run Sha256.zero w [.set 0 [5] (some [9])] = some w₂ ∧
      @World.rootHash Sha256.zero w₁ 0 = @World.rootHash Sha256.zero w₂ 0 := by
  let _ := Sha256.zero
  obtain ⟨w, hw, hcached⟩ : ∃ w, World.step ⟨[⟨0, 1, 4, [5], some [], none, none, none⟩],
      [⟨⟨3, 0, some (.mem 0)⟩, true⟩]⟩ (.rootHash 0) = some w ∧ w.heap.cachedHash (.mem 0) ≠ none :=
    ⟨_, rfl, nofun⟩
  obtain ⟨-, -, hruns⟩ := cached_hashes_coherent (.step World.reachable_leaf hw)
  obtain ⟨w₁, w₂, hw1, hw2, -, heq⟩ := hruns [.rootHash 0, .set 0 [5] (some [9]), .rootHash 0]
    [.set 0 [5] (some [9])] rfl
  exact ⟨w, .step World.reachable_leaf hw, hcached, w₁, w₂, hw1, hw2, heq 0⟩

end CronosStore.Memiavl
