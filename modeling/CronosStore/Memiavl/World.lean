import CronosStore.Memiavl.Grown

/-!
# Several trees on one heap

`Copy` hands out a second tree over the same cells, and the two are then used in any order.
A world is a heap with its trees. What keeps them apart is one number a tree: a cell that
two trees reach has a version not above the `cowVersion` of either (`World.Inv.shared`), so
neither of them writes it.

`changed` is not a field of the source. It records whether a tree has been changed since its
last `SaveVersion`; a copy of a changed tree that both sides go on using is not taken here,
while a copy that replaces its original (`Op.adopt`) may be taken at any time.
-/

namespace CronosStore.Memiavl

open Foundation CellHeap List Option

/-- A tree that a caller holds, and whether it was written to since its last version. -/
structure Handle where
  tree : HeapTree
  changed : Bool
deriving DecidableEq

/-- A heap and the trees over it. -/
structure World where
  heap : Heap
  handles : List Handle
deriving DecidableEq

inductive Op
  | set (i : Nat) (key : Bytes) (value : Slice)
  | remove (i : Nat) (key : Bytes)
  | saveVersion (i : Nat) (updateHash : Bool)
  | rootHash (i : Nat)
  | copy (i : Nat)
  | adopt (i : Nat)
deriving DecidableEq

/-! ## Operations -/

namespace Handle

def set (key : Bytes) (value : Slice) (h : Heap) (hd : Handle) : Option (Handle × Heap) := do
  let (t, h) ← hd.tree.set h key value
  pure ({ tree := t, changed := true }, h)

def remove (key : Bytes) (h : Heap) (hd : Handle) : Option (Handle × Heap) := do
  let (t, h') ← hd.tree.remove h key
  pure ({ tree := t, changed := hd.changed || decide ((t, h') ≠ (hd.tree, h)) }, h')

def saveVersion [Sha256] (updateHash : Bool) (h : Heap) (hd : Handle) : Option (Handle × Heap) := do
  let (res, t, h) ← hd.tree.saveVersion h updateHash
  pure ({ tree := t, changed := hd.changed && res.isNone }, h)

def rootHash [Sha256] (h : Heap) (hd : Handle) : Option (Handle × Heap) := do
  let (_, h) ← hd.tree.rootHash h
  pure (hd, h)

def adopt (h : Heap) (hd : Handle) : Option (Handle × Heap) :=
  some ({ hd with tree := hd.tree.copy.2 }, h)

end Handle

namespace World

/-- What `f` makes of the heap and the tree `i`. -/
def change (w : World) (i : Nat) (f : Heap → Handle → Option (Handle × Heap)) : Option World :=
  match w.handles[i]? with
  | none => some w
  | some hd => do
    let (hd, h) ← f w.heap hd
    pure { heap := h, handles := w.handles.set i hd }

variable [Sha256]

def step (w : World) : Op → Option World
  | .set i key value => w.change i (Handle.set key value)
  | .remove i key => w.change i (Handle.remove key)
  | .saveVersion i updateHash => w.change i (Handle.saveVersion updateHash)
  | .rootHash i => w.change i Handle.rootHash
  | .copy i =>
    match w.handles[i]? with
    | none => some w
    | some hd =>
      if hd.changed then some w
      else
        let (orig, copied) := hd.tree.copy
        some { w with handles := w.handles.set i { hd with tree := orig } ++
          [{ tree := copied, changed := false }] }
  | .adopt i => w.change i Handle.adopt

def run (w : World) (ops : List Op) : Option World := ops.foldlM step w

def observe (w : World) (i : Nat) : Option Tree := do
  let hd ← w.handles[i]?
  match hd.tree.root with
  | none => pure { version := hd.tree.version, root := none }
  | some r =>
    let n ← w.heap.interface.read ((← w.heap.height r) + 1) r
    pure { version := hd.tree.version, root := some n }

def rootHash (w : World) (i : Nat) : Option Bytes := do
  let hd ← w.handles[i]?
  pure (← hd.tree.rootHash w.heap).1

def add (w : World) (t : HeapTree) (changed : Bool) : World :=
  { w with handles := w.handles ++ [{ tree := t, changed := changed }] }

/-- The worlds reached from trees that start empty or from an opened snapshot. A snapshot of
a tree with unsaved changes counts as changed. -/
inductive Reachable : World → Prop
  | init : Reachable { heap := [], handles := [] }
  | newEmptyTree {w : World} (hw : Reachable w) {version : Nat} {t : HeapTree}
      (ht : HeapTree.newEmptyTree version = some t) : Reachable (w.add t false)
  | openSnapshot {w : World} (hw : Reachable w) {s : Snapshot} {v : Tree} {changed : Bool}
      (hver : s.version = v.version) (hroot : persistedInterface.RootDenotes s.rootNode v.root)
      (hv : v.Valid) (hle : v.VersionsLE (v.version + 1))
      (hsaved : changed = false → v.VersionsLE v.version) :
      Reachable (w.add (.newFromSnapshot s) changed)
  | step {w w' : World} (hw : Reachable w) {op : Op} (hs : w.step op = some w') : Reachable w'

end World

/-! ## The operations on values -/

inductive TreeOp
  | set (key : Bytes) (value : Slice)
  | remove (key : Bytes)
  | saveVersion
deriving DecidableEq

def Tree.apply (t : Tree) : TreeOp → Tree
  | .set key value => t.set key value
  | .remove key => t.remove key
  | .saveVersion => t.saveVersion.getD t

def Op.on (j : Nat) : Op → Option TreeOp
  | .set i key value => if i = j then some (.set key value) else none
  | .remove i key => if i = j then some (.remove key) else none
  | .saveVersion i _ => if i = j then some .saveVersion else none
  | .rootHash _ => none
  | .copy _ => none
  | .adopt _ => none

def opsOn (j : Nat) (ops : List Op) : List TreeOp := ops.filterMap (Op.on j)

/-! ## The invariant -/

section Invariant

variable [Sha256]

structure HandleOk (h : Heap) (hd : Handle) (v : Tree) (F : Set Addr) : Prop where
  version : hd.tree.version = v.version
  rep : RepRoot h hd.tree.root v.root F
  valid : v.Valid
  cow : hd.tree.cowVersion ≤ v.version
  versions : v.VersionsLE (v.version + 1)
  clean : hd.changed = false → v.VersionsLE v.version

/-- A cell that two trees reach is one that neither of them writes. -/
structure World.Inv (w : World) (val : Nat → Tree) (fp : Nat → Set Addr) : Prop where
  ok : ∀ i hd, w.handles[i]? = some hd → HandleOk w.heap hd (val i) (fp i)
  shared : ∀ i j hd hd', i ≠ j → w.handles[i]? = some hd → w.handles[j]? = some hd' →
    ∀ a ∈ fp i, a ∈ fp j → ∃ c, w.heap[a]? = some c ∧ c.version ≤ hd.tree.cowVersion

namespace World.Inv

variable {w : World} {val : Nat → Tree} {fp : Nat → Set Addr} {i : Nat} {hd hd' : Handle}
  {h' : Heap} {v' : Tree} {F' : Set Addr}

section

variable (hw : w.Inv val fp)
include hw

theorem get_eq (hi : w.handles[i]? = some hd)
    (hs : Step (writable w.heap hd.tree.cowVersion (fp i)) w.heap (fp i) h' F') {j : Nat}
    {hdj : Handle} (hj : w.handles[j]? = some hdj) (hij : i ≠ j) :
    ∀ a ∈ fp j, h'[a]? = w.heap[a]? := by
  intro a ha
  have hlt := (hw.ok j hdj hj).rep.lt_length a ha
  refine hs.frame a hlt ?_
  by_cases hai : a ∈ fp i
  · obtain ⟨c, hc, hle⟩ := hw.shared i j hd hdj hij hi hj a hai ha
    refine .inr ?_
    rintro (hge | ⟨-, c', hc', hgt⟩)
    · exact Nat.not_lt.mpr hge hlt
    · cases hc.symm.trans hc'
      omega
  · exact .inl hai

theorem change (hi : w.handles[i]? = some hd)
    (hs : Step (writable w.heap hd.tree.cowVersion (fp i)) w.heap (fp i) h' F')
    (hok : HandleOk h' hd' v' F') (hcow : hd.tree.cowVersion ≤ hd'.tree.cowVersion) :
    World.Inv ⟨h', w.handles.set i hd'⟩ (Function.update val i v') (Function.update fp i F') := by
  have hlen := (List.getElem?_eq_some_iff.mp hi).1
  have hself : (w.handles.set i hd')[i]? = some hd' := List.getElem?_set_self hlen
  have hother : ∀ j, j ≠ i → (w.handles.set i hd')[j]? = w.handles[j]? := fun j hj =>
    getElem?_set_ne hj.symm
  have hold : ∀ {j hdj} {a : Addr}, w.handles[j]? = some hdj → j ≠ i → a ∈ fp j → a ∈ F' →
      a ∈ fp i := by
    intro j hdj a hj hij ha haF
    have hlt := (hw.ok j hdj hj).rep.lt_length a ha
    exact (hs.footprint a haF).resolve_right (Nat.not_le.mpr hlt)
  constructor
  · intro j hdj hj
    by_cases hij : j = i
    · subst hij
      cases hself.symm.trans hj
      simpa using hok
    · replace hj : w.handles[j]? = some hdj := (hother j hij).symm.trans hj
      rw [Function.update_of_ne hij, Function.update_of_ne hij]
      obtain ⟨h1, h2, h3, h4, h5, h6⟩ := hw.ok j hdj hj
      exact ⟨h1, h2.congr (hw.get_eq hi hs hj (Ne.symm hij)), h3, h4, h5, h6⟩
  · intro p q hdp hdq hpq hp hq a hap haq
    by_cases hpi : p = i
    · subst hpi
      cases hself.symm.trans hp
      have hqi : q ≠ p := Ne.symm hpq
      replace hq : w.handles[q]? = some hdq := (hother q hqi).symm.trans hq
      rw [Function.update_self] at hap
      rw [Function.update_of_ne hqi] at haq
      obtain ⟨c, hc, hle⟩ := hw.shared p q hd hdq hpq hi hq a (hold hq hqi haq hap) haq
      exact ⟨c, (hw.get_eq hi hs hq hpq a haq).trans hc, hle.trans hcow⟩
    · replace hp : w.handles[p]? = some hdp := (hother p hpi).symm.trans hp
      rw [Function.update_of_ne hpi] at hap
      have hget := hw.get_eq hi hs hp (Ne.symm hpi) a hap
      by_cases hqi : q = i
      · subst hqi
        rw [Function.update_self] at haq
        obtain ⟨c, hc, hle⟩ := hw.shared p q hdp hd hpq hp hi a hap (hold hp hpi hap haq)
        exact ⟨c, hget.trans hc, hle⟩
      · replace hq : w.handles[q]? = some hdq := (hother q hqi).symm.trans hq
        rw [Function.update_of_ne hqi] at haq
        obtain ⟨c, hc, hle⟩ := hw.shared p q hdp hdq hpq hp hq a hap haq
        exact ⟨c, hget.trans hc, hle⟩

theorem hashStep (hs : HashStep w.heap h') :
    World.Inv ⟨h', w.handles⟩ val fp := by
  constructor
  · intro j hdj hj
    obtain ⟨h1, h2, h3, h4, h5, h6⟩ := hw.ok j hdj hj
    exact ⟨h1, h2.hashStep hs, h3, h4, h5, h6⟩
  · intro p q hdp hdq hpq hp hq a hap haq
    obtain ⟨c, hc, hle⟩ := hw.shared p q hdp hdq hpq hp hq a hap haq
    obtain ⟨hash, hc', -⟩ := hs.cell a c hc
    exact ⟨_, hc', hle⟩

theorem append (hok : HandleOk w.heap hd' v' F')
    (hshared : ∀ j hdj, w.handles[j]? = some hdj → ∀ a ∈ fp j, a ∈ F' →
      ∃ c, w.heap[a]? = some c ∧ c.version ≤ hdj.tree.cowVersion ∧
        c.version ≤ hd'.tree.cowVersion) :
    World.Inv ⟨w.heap, w.handles ++ [hd']⟩ (Function.update val w.handles.length v')
      (Function.update fp w.handles.length F') := by
  have hcases : ∀ {j hdj}, (w.handles ++ [hd'])[j]? = some hdj →
      j = w.handles.length ∧ hdj = hd' ∨ j ≠ w.handles.length ∧ w.handles[j]? = some hdj := by
    intro j hdj hj
    by_cases hlt : j < w.handles.length
    · rw [getElem?_append_left hlt] at hj
      exact .inr ⟨hlt.ne, hj⟩
    · have hle := (List.getElem?_eq_some_iff.mp hj).1
      rw [length_append, length_singleton] at hle
      obtain rfl : j = w.handles.length := by omega
      rw [getElem?_concat_length] at hj
      exact .inl ⟨rfl, (Option.some.inj hj).symm⟩
  constructor
  · intro j hdj hj
    rcases hcases hj with ⟨rfl, rfl⟩ | ⟨hne, hj⟩
    · simpa using hok
    · rw [Function.update_of_ne hne, Function.update_of_ne hne]
      exact hw.ok j hdj hj
  · intro p q hdp hdq hpq hp hq a hap haq
    rcases hcases hp with ⟨rfl, rfl⟩ | ⟨hpn, hp'⟩
    · rcases hcases hq with ⟨rfl, -⟩ | ⟨hqn, hq⟩
      · exact absurd rfl hpq
      · rw [Function.update_self] at hap
        rw [Function.update_of_ne hqn] at haq
        obtain ⟨c, hc, -, hle⟩ := hshared q hdq hq a haq hap
        exact ⟨c, hc, hle⟩
    · rw [Function.update_of_ne hpn] at hap
      rcases hcases hq with ⟨rfl, -⟩ | ⟨hqn, hq⟩
      · rw [Function.update_self] at haq
        obtain ⟨c, hc, hle, -⟩ := hshared p hdp hp' a hap haq
        exact ⟨c, hc, hle⟩
      · rw [Function.update_of_ne hqn] at haq
        exact hw.shared p q hdp hdq hpq hp' hq a hap haq

end

end World.Inv

/-! ## Every operation acts on one value -/

section Steps

variable {w : World} {val : Nat → Tree} {fp : Nat → Set Addr} {i : Nat} {hd : Handle}

omit [Sha256] in
theorem World.change_eq (hi : w.handles[i]? = some hd) {f : Heap → Handle → Option (Handle × Heap)}
    {hd' : Handle} {h' : Heap} (hf : f w.heap hd = some (hd', h')) :
    w.change i f = some { heap := h', handles := w.handles.set i hd' } := by
  simp only [World.change, hi, hf, Results.some_bind, Option.pure_def]

omit [Sha256] in
theorem World.change_none (hi : w.handles[i]? = none)
    (f : Heap → Handle → Option (Handle × Heap)) : w.change i f = some w := by
  rw [World.change, hi]

def World.StepOk (w w' : World) (val : Nat → Tree) (op : Op) : Prop :=
  ∃ val' fp', w'.Inv val' fp' ∧ w.handles.length ≤ w'.handles.length ∧
    ∀ j < w.handles.length, val' j = match op.on j with
      | some o => (val j).apply o
      | none => val j

theorem World.Inv.stepOk_change {h' : Heap} {hd' : Handle} {v' : Tree} {F' : Set Addr} {op : Op}
    (hinv : World.Inv ⟨h', w.handles.set i hd'⟩ (Function.update val i v') (Function.update fp i F'))
    (hself : v' = match op.on i with
      | some o => (val i).apply o
      | none => val i) (hother : ∀ j, j ≠ i → op.on j = none) :
    w.StepOk ⟨h', w.handles.set i hd'⟩ val op := by
  refine ⟨_, _, hinv, by simp, fun j _ => ?_⟩
  by_cases hij : j = i
  · subst hij
    rw [Function.update_self, hself]
  · rw [Function.update_of_ne hij, hother j hij]

theorem World.Inv.stepOk_none (hw : w.Inv val fp) {op : Op}
    (hon : ∀ j < w.handles.length, op.on j = none) : w.StepOk w val op :=
  ⟨val, fp, hw, le_rfl, fun j hj => by rw [hon j hj]⟩

theorem World.Inv.set (hw : w.Inv val fp) (hi : w.handles[i]? = some hd) (key : Bytes)
    (value : Slice) :
    ∃ w', w.step (.set i key value) = some w' ∧ w.StepOk w' val (.set i key value) := by
  obtain ⟨hver, hrep, hvalid, hcow, hvers, -⟩ := hw.ok i hd hi
  obtain ⟨t', h', F', he, hver', hcow', hrep', hs⟩ := set_repRoot hrep hver hvalid key value
  have hnext : (val i).nextNodeVersion ≤ (val i).version + 1 := Nat.mod_le _ _
  have hok : HandleOk h' ⟨t', true⟩ ((val i).set key value) F' :=
    ⟨hver'.trans hver, hrep', hvalid.set key value, hcow'.trans_le hcow,
      hvers.set hvalid key value hnext, by simp⟩
  have hf : Handle.set key value w.heap hd = some (⟨t', true⟩, h') := by
    simp only [Handle.set, he, Results.some_bind, Option.pure_def]
  refine ⟨_, World.change_eq hi hf, (hw.change hi hs hok hcow'.ge).stepOk_change ?_ fun j hj => ?_⟩
  · rw [Op.on, if_pos rfl]
    rfl
  · rw [Op.on, if_neg (Ne.symm hj)]

theorem World.Inv.remove (hw : w.Inv val fp) (hi : w.handles[i]? = some hd) (key : Bytes) :
    ∃ w', w.step (.remove i key) = some w' ∧ w.StepOk w' val (.remove i key) := by
  obtain ⟨hver, hrep, hvalid, hcow, hvers, hclean⟩ := hw.ok i hd hi
  obtain ⟨t', h', F', he, hver', hcow', hrep', hs⟩ := remove_repRoot hrep hver hvalid key
  have hnext : (val i).nextNodeVersion ≤ (val i).version + 1 := Nat.mod_le _ _
  have hok : HandleOk h' ⟨t', hd.changed || decide ((t', h') ≠ (hd.tree, w.heap))⟩
      ((val i).remove key) F' := by
    refine ⟨hver'.trans hver, hrep', hvalid.remove key, hcow'.trans_le hcow,
      hvers.remove hvalid key hnext, fun hch => ?_⟩
    obtain ⟨hch1, hch2⟩ := Bool.or_eq_false_iff.mp hch
    obtain ⟨rfl, rfl⟩ := Prod.mk.inj (not_not.mp (of_decide_eq_false hch2))
    intro n hn
    rw [← hrep.unique hrep'] at hn
    exact hclean hch1 n hn
  have hf : Handle.remove key w.heap hd =
      some (⟨t', hd.changed || decide ((t', h') ≠ (hd.tree, w.heap))⟩, h') := by
    simp only [Handle.remove, he, Results.some_bind, Option.pure_def]
  refine ⟨_, World.change_eq hi hf, (hw.change hi hs hok hcow'.ge).stepOk_change ?_ fun j hj => ?_⟩
  · rw [Op.on, if_pos rfl]
    rfl
  · rw [Op.on, if_neg (Ne.symm hj)]

omit [Sha256] in
theorem World.set_self (hi : w.handles[i]? = some hd) : w.handles.set i hd = w.handles := by
  obtain ⟨hlt, rfl⟩ := List.getElem?_eq_some_iff.mp hi
  exact set_getElem_self hlt

theorem World.Inv.rootHash (hw : w.Inv val fp) (hi : w.handles[i]? = some hd) :
    ∃ w', w.step (.rootHash i) = some w' ∧ w.StepOk w' val (.rootHash i) := by
  obtain ⟨hver, hrep, hvalid, -⟩ := hw.ok i hd hi
  obtain ⟨h', he, hs⟩ := rootHash_repRoot hrep hvalid
  have hf : Handle.rootHash w.heap hd = some (hd, h') := by
    simp only [Handle.rootHash, he, Results.some_bind, Option.pure_def]
  have hstep := World.change_eq hi hf
  rw [World.set_self hi] at hstep
  exact ⟨_, hstep, val, fp, hw.hashStep hs, le_rfl, fun j _ => rfl⟩

theorem World.Inv.saveVersion (hw : w.Inv val fp) (hi : w.handles[i]? = some hd) (updateHash : Bool) :
    ∃ w', w.step (.saveVersion i updateHash) = some w' ∧
      w.StepOk w' val (.saveVersion i updateHash) := by
  have hok := hw.ok i hd hi
  by_cases hmax : hd.tree.version = maxUint32
  · -- the error leaves everything as it was
    have hf : Handle.saveVersion updateHash w.heap hd = some (hd, w.heap) := by
      simp [Handle.saveVersion, HeapTree.saveVersion, hmax]
    have hstep := World.change_eq hi hf
    rw [World.set_self hi] at hstep
    refine ⟨_, hstep, val, fp, hw, le_rfl, fun j _ => ?_⟩
    by_cases hij : i = j
    · subst hij
      have hsame : (val i).saveVersion = none := by
        rw [Tree.saveVersion, if_pos (hok.version.symm.trans hmax)]
      rw [Op.on, if_pos rfl]
      simp only [Tree.apply, hsame, getD_none]
    · rw [Op.on, if_neg hij]
  · obtain ⟨h', res, hs, hf⟩ : ∃ h' res, HashStep w.heap h' ∧
        HeapTree.saveVersion w.heap hd.tree updateHash =
          some (some res, { hd.tree with version := hd.tree.version + 1 }, h') := by
      rw [HeapTree.saveVersion, if_neg hmax]
      cases updateHash with
      | false => exact ⟨w.heap, none, HashStep.refl _, rfl⟩
      | true =>
        obtain ⟨h', he, hs⟩ := rootHash_repRoot hok.rep hok.valid
        refine ⟨h', some (val i).rootHash, hs, ?_⟩
        simp only [he, Results.some_bind, if_true, Option.pure_def]
    have hw' := hw.hashStep hs
    obtain ⟨hver, hrep, hvalid, hcow, hvers, -⟩ := hw'.ok i hd hi
    have hok' : HandleOk h' ⟨{ hd.tree with version := hd.tree.version + 1 }, false⟩
        ⟨(val i).version + 1, (val i).root⟩ (fp i) :=
      ⟨congrArg (· + 1) hver, hrep, hvalid, hcow.trans (Nat.le_succ _),
        fun n hn => (hvers n hn).mono (Nat.le_succ _), fun _ => hvers⟩
    have hf' : Handle.saveVersion updateHash w.heap hd =
        some (⟨{ hd.tree with version := hd.tree.version + 1 }, false⟩, h') := by
      simp [Handle.saveVersion, hf]
    have hinv := hw'.change hi (Step.refl _ _ _) hok' le_rfl
    refine ⟨_, World.change_eq hi hf', hinv.stepOk_change (w := w) ?_ fun j hj => ?_⟩
    · rw [Op.on, if_pos rfl]
      simp only [Tree.apply, Tree.saveVersion, ← hver, if_neg hmax, getD_some]
    · rw [Op.on, if_neg (Ne.symm hj)]

/-- The threshold of a copied tree protects all its cells, if it has no unsaved changes. -/
theorem HandleOk.copy {h : Heap} {hd : Handle} {v : Tree} {F : Set Addr} (hok : HandleOk h hd v F) :
    HandleOk h { hd with tree := hd.tree.copy.2 } v F ∧
      hd.tree.cowVersion ≤ hd.tree.copy.2.cowVersion ∧
      (hd.changed = false → ∀ a ∈ F, ∃ c, h[a]? = some c ∧
        c.version ≤ hd.tree.copy.2.cowVersion) := by
  obtain ⟨⟨tv, tc, troot⟩, changed⟩ := hd
  obtain ⟨vv, vroot⟩ := v
  obtain ⟨hver, hrep, hvalid, hcow, hvers, hclean⟩ := hok
  cases hver
  cases hrep with
  | none => exact ⟨⟨rfl, .none, hvalid, hcow, hvers, hclean⟩, le_rfl, fun _ a ha => ha.elim⟩
  | @some r n _ hr =>
    cases r with
    | persisted p =>
      refine ⟨⟨rfl, .some hr, hvalid, hcow, hvers, hclean⟩, le_rfl, fun _ a ha => ?_⟩
      cases hr with
      | persisted => exact ha.elim
    | mem b =>
      exact ⟨⟨rfl, .some hr, hvalid, le_rfl, hvers, hclean⟩, hcow,
        fun hch => hr.version_le (hclean hch n rfl)⟩

section

variable (hw : w.Inv val fp)
include hw

theorem World.Inv.adopt (hi : w.handles[i]? = some hd) :
    World.Inv ⟨w.heap, w.handles.set i { hd with tree := hd.tree.copy.2 }⟩ val fp := by
  obtain ⟨hok, hcow, -⟩ := (hw.ok i hd hi).copy
  have hinv := hw.change hi (Step.refl _ _ _) hok hcow
  rwa [Function.update_eq_self, Function.update_eq_self] at hinv

theorem World.Inv.copy (hi : w.handles[i]? = some hd)
    (hclean : hd.changed = false) :
    World.Inv ⟨w.heap, w.handles.set i { hd with tree := hd.tree.copy.1 } ++
        [{ tree := hd.tree.copy.2, changed := false }]⟩
      (Function.update val w.handles.length (val i)) (Function.update fp w.handles.length (fp i)) := by
  have hlt := (List.getElem?_eq_some_iff.mp hi).1
  obtain ⟨hok, -, hcells⟩ := (hw.ok i hd hi).copy
  have hw' := hw.adopt hi
  have hself : (w.handles.set i { hd with tree := hd.tree.copy.2 })[i]? =
      some { hd with tree := hd.tree.copy.2 } := getElem?_set_self hlt
  have hok' : HandleOk w.heap { tree := hd.tree.copy.2, changed := false } (val i) (fp i) := by
    rw [← hclean]
    exact hok
  have hinv := hw'.append hok' fun j hdj hj a haj hai => ?_
  · rwa [length_set] at hinv
  · obtain ⟨c, hc, hle⟩ := hcells hclean a hai
    by_cases hij : j = i
    · subst hij
      cases hself.symm.trans hj
      exact ⟨c, hc, hle, hle⟩
    · obtain ⟨c', hc', hle'⟩ := hw'.shared j i hdj _ hij hj hself a haj hai
      cases hc.symm.trans hc'
      exact ⟨c, hc, hle', hle⟩

/-- Every operation succeeds and moves the values of the handles as it should. -/
theorem World.Inv.step (op : Op) :
    ∃ w', w.step op = some w' ∧ w.StepOk w' val op := by
  have hne : ∀ {i : Nat}, w.handles[i]? = none → ∀ j < w.handles.length, i ≠ j := by
    rintro i hi j hj rfl
    rw [getElem?_eq_getElem hj] at hi
    cases hi
  cases op with
  | set i key value =>
    cases hi : w.handles[i]? with
    | none => exact ⟨w, World.change_none hi _, hw.stepOk_none fun j hj => if_neg (hne hi j hj)⟩
    | some hd => exact hw.set hi key value
  | remove i key =>
    cases hi : w.handles[i]? with
    | none => exact ⟨w, World.change_none hi _, hw.stepOk_none fun j hj => if_neg (hne hi j hj)⟩
    | some hd => exact hw.remove hi key
  | saveVersion i updateHash =>
    cases hi : w.handles[i]? with
    | none => exact ⟨w, World.change_none hi _, hw.stepOk_none fun j hj => if_neg (hne hi j hj)⟩
    | some hd => exact hw.saveVersion hi updateHash
  | rootHash i =>
    cases hi : w.handles[i]? with
    | none => exact ⟨w, World.change_none hi _, hw.stepOk_none fun j _ => rfl⟩
    | some hd => exact hw.rootHash hi
  | adopt i =>
    cases hi : w.handles[i]? with
    | none => exact ⟨w, World.change_none hi _, hw.stepOk_none fun j _ => rfl⟩
    | some hd =>
      exact ⟨_, World.change_eq hi rfl, val, fp, hw.adopt hi, by simp, fun j _ => rfl⟩
  | copy i =>
    cases hi : w.handles[i]? with
    | none =>
      refine ⟨w, ?_, hw.stepOk_none fun j _ => rfl⟩
      simp only [World.step, hi]
    | some hd =>
      by_cases hch : hd.changed = true
      · refine ⟨w, ?_, hw.stepOk_none fun j _ => rfl⟩
        simp only [World.step, hi, hch, if_true]
      · refine ⟨_, ?_, _, _, hw.copy hi (Bool.eq_false_iff.mpr hch), by simp, fun j hj => ?_⟩
        · simp only [World.step, hi, hch, Bool.false_eq_true, if_false]
        · rw [Function.update_of_ne hj.ne]
          rfl

/-- A run moves the value of each handle by the operations on it, and by nothing else. -/
theorem World.Inv.run (ops : List Op) :
    ∃ w' val' fp', w.run ops = some w' ∧ w'.Inv val' fp' ∧
      w.handles.length ≤ w'.handles.length ∧
      ∀ j < w.handles.length, val' j = (opsOn j ops).foldl Tree.apply (val j) := by
  induction ops generalizing w val fp with
  | nil => exact ⟨w, val, fp, rfl, hw, le_rfl, fun _ _ => rfl⟩
  | cons op ops ih =>
    obtain ⟨w₁, hs, val1, fp1, hw1, hlen, hval⟩ := hw.step op
    obtain ⟨w', val', fp', hrun, hw', hlen', hval'⟩ := ih hw1
    refine ⟨w', val', fp', ?_, hw', hlen.trans hlen', fun j hj => ?_⟩
    · rw [World.run, foldlM_cons, hs]
      exact hrun
    · rw [hval' j (hj.trans_le hlen), hval j hj, opsOn, opsOn, filterMap_cons]
      cases op.on j <;> rfl

end

theorem World.Reachable.inv (hw : w.Reachable) : ∃ val fp, w.Inv val fp := by
  induction hw with
  | init =>
    refine ⟨fun _ => ⟨0, none⟩, fun _ => ∅, ?_, ?_⟩
    · rintro i hd ⟨⟩
    · rintro i j hd hd' - ⟨⟩
  | @newEmptyTree w _ version t ht ih =>
    obtain ⟨val, fp, hinv⟩ := ih
    unfold HeapTree.newEmptyTree at ht
    split_ifs at ht
    cases ht
    have hok : HandleOk w.heap ⟨⟨version, 0, none⟩, false⟩ ⟨version, none⟩ ∅ := by
      refine ⟨rfl, .none, ?_, Nat.zero_le _, ?_, fun _ => ?_⟩ <;> rintro n ⟨⟩
    exact ⟨_, _, hinv.append hok fun j hdj hj a _ ha => ha.elim⟩
  | @openSnapshot w _ s v changed hver hroot hv hle hsaved ih =>
    obtain ⟨val, fp, hinv⟩ := ih
    have hrep : RepRoot w.heap (s.rootNode.map Ref.persisted) v.root ∅ := by
      cases h1 : s.rootNode <;> cases h2 : v.root <;>
        simp only [h1, h2, NodeInterface.RootDenotes] at hroot
      · exact .none
      · exact .some (.persisted hroot)
    have hok : HandleOk w.heap ⟨.newFromSnapshot s, changed⟩ v ∅ :=
      ⟨hver, hrep, hv, Nat.zero_le _, hle, hsaved⟩
    exact ⟨_, _, hinv.append hok fun j hdj hj a _ ha => ha.elim⟩
  | @step w w' _ op hs ih =>
    obtain ⟨val, fp, hinv⟩ := ih
    obtain ⟨w₁, hs1, val1, fp1, hw1, -⟩ := hinv.step op
    cases hs1.symm.trans hs
    exact ⟨val1, fp1, hw1⟩

theorem World.Inv.observe_eq (hw : w.Inv val fp) (hi : i < w.handles.length) :
    w.observe i = some (val i) ∧ w.rootHash i = some (val i).rootHash := by
  have hget := getElem?_eq_getElem hi
  obtain ⟨hver, hrep, hvalid, -⟩ := hw.ok i _ hget
  obtain ⟨h', he, -⟩ := rootHash_repRoot hrep hvalid
  have hroot := hrep.rootDenotes hvalid
  constructor
  · unfold World.observe
    generalize w.handles[i] = hd at hget hver hrep hroot
    obtain ⟨⟨tv, tc, troot⟩, changed⟩ := hd
    generalize val i = v, fp i = F at hver hrep hvalid hroot
    obtain ⟨vv, vroot⟩ := v
    cases hver
    cases hrep with
    | none => simp only [hget, Results.some_bind, Option.pure_def]
    | @some r n _ hr =>
      have hread := NodeInterface.Denotes.read_eq hroot (hvalid n rfl).balanced
        (Nat.lt_succ_self _)
      simp only [hget, hr.height_eq, hread, Results.some_bind, Option.pure_def]
  · simp only [World.rootHash, hget, he, Results.some_bind, Option.pure_def]

end Steps

/-- Take a tree of any reachable world that has no unsaved changes, copy it, and go on with any
operations on any of the trees. Nothing panics, and what is seen of the original and of the
copy, their nodes with contents and versions and their root hashes, is what the operations on
each of them alone make of the tree that was copied. -/
theorem copy_isolated {w : World} (hw : w.Reachable) {i : Nat} {hd : Handle}
    (hi : w.handles[i]? = some hd) (hclean : hd.changed = false) (ops : List Op) :
    ∃ w₁ w' v, w.step (.copy i) = some w₁ ∧ w₁.run ops = some w' ∧ w.observe i = some v ∧
      w'.observe i = some ((opsOn i ops).foldl Tree.apply v) ∧
      w'.rootHash i = some ((opsOn i ops).foldl Tree.apply v).rootHash ∧
      w'.observe w.handles.length = some ((opsOn w.handles.length ops).foldl Tree.apply v) ∧
      w'.rootHash w.handles.length =
        some ((opsOn w.handles.length ops).foldl Tree.apply v).rootHash := by
  obtain ⟨val, fp, hinv⟩ := hw.inv
  have hlt := (List.getElem?_eq_some_iff.mp hi).1
  have hcopy := hinv.copy hi hclean
  obtain ⟨w', val', fp', hrun, hw', hlen, hval⟩ := hcopy.run ops
  have hlen1 : (w.handles.set i { hd with tree := hd.tree.copy.1 } ++
      [({ tree := hd.tree.copy.2, changed := false } : Handle)]).length = w.handles.length + 1 := by
    simp
  have hvi : val' i = (opsOn i ops).foldl Tree.apply (val i) := by
    rw [hval i (by rw [hlen1]; omega), Function.update_of_ne hlt.ne]
  have hvc : val' w.handles.length = (opsOn w.handles.length ops).foldl Tree.apply (val i) := by
    rw [hval _ (by rw [hlen1]; omega), Function.update_self]
  have hlen' : w.handles.length + 1 ≤ w'.handles.length := hlen1 ▸ hlen
  obtain ⟨ho, hr⟩ := hw'.observe_eq (show i < w'.handles.length by omega)
  obtain ⟨hoc, hrc⟩ := hw'.observe_eq (show w.handles.length < w'.handles.length by omega)
  rw [hvi] at ho hr
  rw [hvc] at hoc hrc
  refine ⟨_, w', val i, ?_, hrun, (hinv.observe_eq hlt).1, ho, hr, hoc, hrc⟩
  simp only [World.step, hi, hclean, Bool.false_eq_true, if_false]

end Invariant

theorem World.reachable_leaf [Sha256] : World.Reachable
    ⟨[⟨0, 1, 4, [5], some [], none, none, none⟩], [⟨⟨3, 0, some (.mem 0)⟩, true⟩]⟩ := by
  have h0 : World.Reachable ⟨[], [⟨⟨3, 0, none⟩, false⟩]⟩ :=
    .newEmptyTree .init (show HeapTree.newEmptyTree 3 = _ from rfl)
  exact .step h0 (show World.step _ (.set 0 [5] none) = _ from rfl)

/-- A tree at version 4 with one leaf is copied; the copy changes the leaf and the original
takes a second one. -/
theorem copy_isolated_leaf :
    ∃ w : World, @World.Reachable Sha256.zero w ∧ w.handles.length = 1 ∧ ∃ w₁ w',
      @World.step Sha256.zero w (.copy 0) = some w₁ ∧ @World.run Sha256.zero w₁
        [.set 1 [5] (some [9]), .set 0 [6] (some [8]), .rootHash 1, .saveVersion 0 true] = some w' ∧
      (@World.observe Sha256.zero w' 1).map Tree.toList = some [([5], some [9])] ∧
      (@World.observe Sha256.zero w' 0).map Tree.toList =
        some [([5], some []), ([6], some [8])] := by
  let _ := Sha256.zero
  have h2 : World.Reachable ⟨[⟨0, 1, 4, [5], some [], none, none, none⟩],
      [⟨⟨4, 0, some (.mem 0)⟩, false⟩]⟩ :=
    .step World.reachable_leaf (show World.step _ (.saveVersion 0 false) = _ from rfl)
  obtain ⟨w₁, w', v, hs, hrun, hv, ho, -, hc, -⟩ := copy_isolated h2 (i := 0) rfl rfl
    [.set 1 [5] (some [9]), .set 0 [6] (some [8]), .rootHash 1, .saveVersion 0 true]
  cases hv
  exact ⟨_, h2, rfl, w₁, w', hs, hrun, congrArg (Option.map Tree.toList) hc,
    congrArg (Option.map Tree.toList) ho⟩

end CronosStore.Memiavl
