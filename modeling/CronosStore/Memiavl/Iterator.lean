import CronosStore.Memiavl.HeapTree

/-!
# Iterating over a range of keys

`memiavl/iterator.go`: a walk with a stack that leaves out the subtrees on the wrong side of a
bound. It reads nodes through the interface, so the walk is the same over memory, over the
files of a snapshot and over mixtures of both.

What the walk has still to give is a function of the trees on the stack (`remaining`): a step
that descends keeps it, a step that returns takes its first pair off.
-/

namespace CronosStore.Memiavl

open Foundation List

/-- `Iterator`, without the clones of its key and value. The top of the stack comes first. -/
structure Iterator (N : Type) where
  start : Slice
  stop : Slice
  ascending : Bool
  key : Slice
  value : Slice
  valid : Bool
  stack : List N

namespace Iterator

variable {N : Type} (I : NodeInterface N)

def afterStart (start : Slice) (key : Bytes) : Bool := start = none || start.getD [] < key

def beforeEnd (stop : Slice) (key : Bytes) : Bool := stop = none || key < stop.getD []

def pushChildren (it : Iterator N) (node : N) (afterStart beforeEnd : Bool) (stack : List N) :
    Option (List N) :=
  let pushRight (stack : List N) : Option (List N) :=
    if beforeEnd then do pure ((← I.right node) :: stack) else some stack
  let pushLeft (stack : List N) : Option (List N) :=
    if afterStart then do pure ((← I.left node) :: stack) else some stack
  if it.ascending then do pushLeft (← pushRight stack) else do pushRight (← pushLeft stack)

def next : Nat → Iterator N → Option (Iterator N)
  | fuel, it =>
    match it.stack with
    | [] => some { it with valid := false }
    | node :: stack =>
      match fuel with
      | 0 => none
      | fuel + 1 => do
        let key ← I.key node
        let afterStart := afterStart it.start key
        let beforeEnd := beforeEnd it.stop key
        if ← I.isLeaf node then
          let startOrAfter := afterStart || it.start.getD [] = key
          if startOrAfter && beforeEnd then
            pure { it with key := some key, value := ← I.value node, stack := stack }
          else next fuel { it with stack := stack }
        else
          let stack ← pushChildren I it node afterStart beforeEnd stack
          next fuel { it with stack := stack }

def newIterator (fuel : Nat) (start stop : Slice) (ascending : Bool) (root : Option N) :
    Option (Iterator N) :=
  next I fuel ⟨start, stop, ascending, none, none, true, root.toList⟩

/-- The pairs that are seen when `Next` is called until the iterator is invalid. The fuel
bounds both the calls and the nodes that one call visits. -/
def drain (visits : Nat) : Nat → Iterator N → Option (List (Bytes × Slice))
  | 0, _ => none
  | calls + 1, it =>
    if it.valid then do
      let rest ← drain visits calls (← next I visits it)
      pure ((it.key.getD [], it.value) :: rest)
    else some []

def pairs (fuel : Nat) (start stop : Slice) (ascending : Bool) (root : Option N) :
    Option (List (Bytes × Slice)) := do
  drain I fuel fuel (← newIterator I fuel start stop ascending root)

/-! ## What there is to give -/

def InRange (start stop : Slice) (key : Bytes) : Prop :=
  (∀ s, start = some s → s ≤ key) ∧ ∀ e, stop = some e → key < e

instance (start stop : Slice) (key : Bytes) : Decidable (InRange start stop key) :=
  decidable_of_iff ((start = none ∨ start.getD [] ≤ key) ∧ (stop = none ∨ key < stop.getD [])) <| by
    cases start <;> cases stop <;> simp [InRange]

def selected (start stop : Slice) (ascending : Bool) (l : List (Bytes × Slice)) :
    List (Bytes × Slice) :=
  let l := l.filter fun p => InRange start stop p.1
  if ascending then l else l.reverse

variable {start stop : Slice} {ascending : Bool}

theorem selected_append (l r : List (Bytes × Slice)) : selected start stop ascending (l ++ r) =
    if ascending then selected start stop ascending l ++ selected start stop ascending r
    else selected start stop ascending r ++ selected start stop ascending l := by
  cases ascending <;> simp [selected, filter_append]

theorem selected_eq_nil {l : List (Bytes × Slice)} (h : ∀ p ∈ l, ¬InRange start stop p.1) :
    selected start stop ascending l = [] := by
  have hnil : (l.filter fun p => InRange start stop p.1) = [] := by
    simpa [filter_eq_nil_iff] using h
  cases ascending <;> simp [selected, hnil]

theorem inRange_iff {key : Bytes} : InRange start stop key ↔
    (afterStart start key || decide (start.getD [] = key)) && beforeEnd stop key := by
  cases start <;> cases stop <;> simp [InRange, afterStart, beforeEnd, le_iff_lt_or_eq]

variable {h s v : Nat} {k : Bytes} {l r : Node} {stack : List N} {ts : List Node} {node : N}

theorem selected_branch (ho : (Node.branch h s v k l r).Ordered) :
    selected start stop ascending (Node.branch h s v k l r).toList =
      let left := if afterStart start k then selected start stop ascending l.toList else []
      let right := if beforeEnd stop k then selected start stop ascending r.toList else []
      if ascending then left ++ right else right ++ left := by
  have hleft : afterStart start k = false → selected start stop ascending l.toList = [] := by
    intro hstart
    refine selected_eq_nil fun p hp hin => ?_
    cases start with
    | none => cases hstart
    | some s =>
      have hle : k ≤ s := by simpa [afterStart] using hstart
      exact absurd (hin.1 s rfl) (not_le.mpr (lt_of_lt_of_le (ho.2.2.1 p hp) hle))
  have hright : beforeEnd stop k = false → selected start stop ascending r.toList = [] := by
    intro hend
    refine selected_eq_nil fun p hp hin => ?_
    cases stop with
    | none => cases hend
    | some e =>
      have hle : e ≤ k := by simpa [beforeEnd] using hend
      exact absurd (hin.2 e rfl) (not_lt.mpr (hle.trans (ho.key_le_right p hp)))
  rw [Node.toList, selected_append]
  cases ha : afterStart start k <;> cases hb : beforeEnd stop k <;> simp [ha, hb, hleft, hright]

def remaining (start stop : Slice) (ascending : Bool) (ts : List Node) : List (Bytes × Slice) :=
  ts.flatMap fun t => selected start stop ascending t.toList

def weight (ts : List Node) : Nat := (ts.map fun t => 2 * t.toList.length - 1).sum

variable [Sha256] {I}

def Holds (I : NodeInterface N) (stack : List N) (ts : List Node) : Prop :=
  List.Forall₂ I.Denotes stack ts ∧ ∀ t ∈ ts, t.Ordered

omit [Sha256] in
theorem remaining_append (ts us : List Node) : remaining start stop ascending (ts ++ us) =
    remaining start stop ascending ts ++ remaining start stop ascending us := flatMap_append

omit [Sha256] in
theorem weight_append (ts us : List Node) : weight (ts ++ us) = weight ts + weight us := by
  simp [weight]

theorem Holds.append {stack' : List N} {ts' : List Node} (h : Holds I stack ts)
    (h' : Holds I stack' ts') : Holds I (stack ++ stack') (ts ++ ts') :=
  ⟨rel_append h.1 h'.1, forall_mem_append.mpr ⟨h.2, h'.2⟩⟩

omit [Sha256] in
theorem pushChildren_eq (it : Iterator N) {nl nr : N} (hl : I.left node = some nl)
    (hr : I.right node = some nr) (a b : Bool) (stack : List N) :
    it.pushChildren I node a b stack =
      some ((if it.ascending then (if a then [nl] else []) ++ (if b then [nr] else [])
        else (if b then [nr] else []) ++ (if a then [nl] else [])) ++ stack) := by
  unfold pushChildren
  cases it.ascending <;> cases a <;> cases b <;> simp [hl, hr]

theorem Holds.pushChildren (it : Iterator N) (hh : Holds I (node :: stack) (.branch h s v k l r :: ts)) :
    ∃ stack' ts', it.pushChildren I node (afterStart it.start k) (beforeEnd it.stop k) stack = some stack' ∧
      Holds I stack' ts' ∧
      remaining it.start it.stop it.ascending ts' =
        remaining it.start it.stop it.ascending (.branch h s v k l r :: ts) ∧
      weight ts' < weight (.branch h s v k l r :: ts) := by
  obtain ⟨hd, ho⟩ := hh
  cases hd with
  | cons hnode hrest =>
  obtain ⟨-, nl, nr, hl, hr, hdl, hdr⟩ := hnode
  have hob := ho _ mem_cons_self
  have hleft (a : Bool) : Holds I (if a then [nl] else []) (if a then [l] else []) := by
    cases a with
    | false => exact ⟨.nil, by simp⟩
    | true => exact ⟨.cons hdl .nil, by simpa using hob.1⟩
  have hright (b : Bool) : Holds I (if b then [nr] else []) (if b then [r] else []) := by
    cases b with
    | false => exact ⟨.nil, by simp⟩
    | true => exact ⟨.cons hdr .nil, by simpa using hob.2.1⟩
  have hstack : Holds I stack ts := ⟨hrest, fun t ht => ho t (mem_cons_of_mem _ ht)⟩
  have hposl := l.length_toList_pos
  have hposr := r.length_toList_pos
  rw [pushChildren_eq it hl hr]
  refine ⟨_, (if it.ascending then (if afterStart it.start k then [l] else []) ++
    (if beforeEnd it.stop k then [r] else []) else (if beforeEnd it.stop k then [r] else []) ++
    (if afterStart it.start k then [l] else [])) ++ ts, rfl, Holds.append ?_ hstack, ?_, ?_⟩
  · split
    · exact (hleft _).append (hright _)
    · exact (hright _).append (hleft _)
  · rw [remaining_append]
    show _ = selected _ _ _ _ ++ remaining _ _ _ ts
    rw [selected_branch hob]
    congr 1
    cases it.ascending <;> cases afterStart it.start k <;> cases beforeEnd it.stop k <;>
      simp [remaining]
  · rw [weight_append]
    cases it.ascending <;> cases afterStart it.start k <;> cases beforeEnd it.stop k <;>
      simp [weight, Node.toList] <;> omega

theorem next_leaf {it : Iterator N} {x : Slice}
    (hst : it.stack = node :: stack) (hd : I.Denotes node (.leaf v k x)) (fuel : Nat) :
    next I (fuel + 1) it = if InRange it.start it.stop k then
        some { it with key := some k, value := x, stack := stack }
      else next I fuel { it with stack := stack } := by
  obtain ⟨hs, hx⟩ := hd
  have hkey : I.key node = some k := hs.key
  have hleaf : I.isLeaf node = some true := hs.isLeaf
  rw [next, hst]
  simp only [hkey, hleaf, hx, Results.some_bind, if_true, ← inRange_iff,
    Option.pure_def]

theorem next_branch {it : Iterator N} {stack' : List N} (hst : it.stack = node :: stack)
    (hd : I.Denotes node (.branch h s v k l r))
    (hpush : it.pushChildren I node (afterStart it.start k) (beforeEnd it.stop k) stack = some stack')
    (fuel : Nat) : next I (fuel + 1) it = next I fuel { it with stack := stack' } := by
  have hkey : I.key node = some k := hd.1.key
  have hleaf : I.isLeaf node = some false := hd.1.isLeaf
  rw [next, hst]
  simp only [hkey, hleaf, hpush, Results.some_bind, Bool.false_eq_true, if_false]

omit [Sha256] in
theorem weight_cons (t : Node) (ts : List Node) :
    weight (t :: ts) = 2 * t.toList.length - 1 + weight ts := by
  simp [weight]

omit [Sha256] in
theorem remaining_leaf {x : Slice} (ts : List Node) :
    remaining start stop ascending (.leaf v k x :: ts) = if InRange start stop k then
      (k, x) :: remaining start stop ascending ts else remaining start stop ascending ts := by
  cases ascending <;> simp [remaining, selected, Node.toList, filter_cons] <;> split <;> rfl

/-- A call of `Next` gives the first of the pairs that remain, or finds that none does. -/
theorem next_spec (fuel : Nat) (it : Iterator N) {ts : List Node} (hh : Holds I it.stack ts)
    (hfuel : weight ts ≤ fuel) :
    (remaining it.start it.stop it.ascending ts = [] ∧
      next I fuel it = some { it with valid := false, stack := [] }) ∨
    ∃ p stack' ts', remaining it.start it.stop it.ascending ts =
        p :: remaining it.start it.stop it.ascending ts' ∧
      next I fuel it = some { it with key := some p.1, value := p.2, stack := stack' } ∧
      Holds I stack' ts' ∧ weight ts' ≤ weight ts := by
  generalize hst : it.stack = stack at hh
  obtain ⟨hd, ho⟩ := hh
  cases hd with
  | nil =>
    refine .inl ⟨rfl, ?_⟩
    rw [next, hst]
  | @cons node t stack ts hnode hrest =>
    have hpos := t.length_toList_pos
    cases fuel with
    | zero =>
      rw [weight_cons] at hfuel
      omega
    | succ fuel =>
      have hstack : Holds I stack ts := ⟨hrest, fun t ht => ho t (mem_cons_of_mem _ ht)⟩
      cases t with
      | leaf v k x =>
        rw [next_leaf hst hnode, remaining_leaf]
        rw [weight_cons] at hfuel ⊢
        by_cases hin : InRange it.start it.stop k
        · rw [if_pos hin, if_pos hin]
          exact .inr ⟨(k, x), stack, ts, rfl, rfl, hstack, by omega⟩
        · rw [if_neg hin, if_neg hin]
          obtain hdone | ⟨p, stack', ts', hrem, hnext, hh', hw⟩ :=
            next_spec fuel { it with stack := stack } hstack (by omega)
          · exact .inl hdone
          · exact .inr ⟨p, stack', ts', hrem, hnext, hh', by omega⟩
      | branch h s v k l r =>
        obtain ⟨stack1, ts1, hpush, hh1, hrem1, hw1⟩ :=
          Holds.pushChildren it ⟨.cons hnode hrest, ho⟩
        rw [next_branch hst hnode hpush, ← hrem1]
        obtain hdone | ⟨p, stack', ts', hrem, hnext, hh', hw⟩ :=
          next_spec fuel { it with stack := stack1 } hh1 (by omega)
        · exact .inl hdone
        · exact .inr ⟨p, stack', ts', hrem, hnext, hh', by omega⟩

/-! ## A whole iteration -/

theorem drain_eq {visits : Nat} (calls : Nat) (it : Iterator N)
    (hh : Holds I it.stack ts) (hvalid : it.valid = true) (hvisits : weight ts ≤ visits)
    (hcalls : (remaining it.start it.stop it.ascending ts).length + 1 < calls) :
    drain I visits calls it = some ((it.key.getD [], it.value) ::
      remaining it.start it.stop it.ascending ts) := by
  induction calls generalizing it ts with
  | zero => omega
  | succ calls ih =>
    rw [drain, if_pos hvalid]
    obtain ⟨hrem, hnext⟩ | ⟨p, stack', ts', hrem, hnext, hh', hw⟩ := next_spec visits it hh hvisits
    · rw [hrem] at hcalls ⊢
      obtain ⟨calls, rfl⟩ : ∃ n, calls = n + 1 := ⟨calls - 1, by simp at hcalls; omega⟩
      simp [hnext, drain]
    · rw [hrem, length_cons] at hcalls
      rw [hnext, hrem]
      simp only [Results.some_bind]
      rw [ih { it with key := some p.1, value := p.2, stack := stack' } hh' hvalid (by omega)
        (by simp only; omega)]
      rfl

omit [Sha256] in
theorem length_selected_le (start stop : Slice) (ascending : Bool) (l : List (Bytes × Slice)) :
    (selected start stop ascending l).length ≤ l.length := by
  unfold selected
  split
  · exact length_filter_le _ _
  · rw [length_reverse]
    exact length_filter_le _ _

theorem pairs_eq {root : Option N} {t : Tree} (hroot : I.RootDenotes root t.root) (ht : t.Valid)
    {fuel : Nat} (hfuel : 2 * t.toList.length < fuel) :
    pairs I fuel start stop ascending root = some (selected start stop ascending t.toList) := by
  obtain ⟨tv, troot⟩ := t
  obtain ⟨ts, hh, hrem, hw⟩ : ∃ ts, Holds I root.toList ts ∧
      remaining start stop ascending ts = selected start stop ascending (Tree.mk tv troot).toList ∧
      weight ts ≤ 2 * (Tree.mk tv troot).toList.length := by
    cases root with
    | none =>
      cases troot with
      | none => exact ⟨[], ⟨.nil, by simp⟩, by cases ascending <;> rfl, Nat.zero_le _⟩
      | some n => exact absurd hroot id
    | some r =>
      cases troot with
      | none => exact absurd hroot id
      | some n =>
        refine ⟨[n], ⟨.cons hroot .nil, ?_⟩, append_nil _, ?_⟩
        · simpa using (ht n rfl).ordered
        · simp [weight, Tree.toList]
  have hlen := length_selected_le start stop ascending (Tree.mk tv troot).toList
  rw [← hrem] at hlen ⊢
  rw [pairs, newIterator]
  obtain ⟨hnil, hnext⟩ | ⟨p, stack', ts', hcons, hnext, hh', hw'⟩ :=
    next_spec fuel ⟨start, stop, ascending, none, none, true, root.toList⟩ hh (by omega)
  · obtain ⟨fuel, rfl⟩ : ∃ n, fuel = n + 1 := ⟨fuel - 1, by omega⟩
    simp only at hnil
    simp [hnext, drain, hnil]
  · simp only at hcons
    rw [hcons, length_cons] at hlen
    rw [hnext, hcons]
    simp only [Results.some_bind]
    rw [drain_eq fuel _ hh' rfl (by omega) (by simp only; omega)]
    rfl

end Iterator

def HeapTree.iterate [Sha256] (h : Heap) (t : HeapTree) (fuel : Nat) (start stop : Slice)
    (ascending : Bool) : Option (List (Bytes × Slice)) :=
  Iterator.pairs h.interface fuel start stop ascending t.root

/-- Range iteration is exact: it ends, and gives the pairs of the range once each, in the order
of the direction. -/
theorem iterate_exact [Sha256] {h : Heap} {t : HeapTree} {v : Tree}
    (hroot : h.interface.RootDenotes t.root v.root) (hv : v.Valid) (start stop : Slice)
    (ascending : Bool) :
    ∃ ps, (∀ fuel, 2 * v.toList.length < fuel → t.iterate h fuel start stop ascending = some ps) ∧
      (∀ p, p ∈ ps ↔ p ∈ v.toList ∧ Iterator.InRange start stop p.1) ∧
      ps.Pairwise fun a b => if ascending then a.1 < b.1 else b.1 < a.1 := by
  refine ⟨Iterator.selected start stop ascending v.toList,
    fun fuel hfuel => Iterator.pairs_eq hroot hv hfuel, fun p => ?_, ?_⟩
  · unfold Iterator.selected
    split <;> simp
  · have hsorted := List.Pairwise.filter (fun p => decide (Iterator.InRange start stop p.1)) hv.sorted
    unfold Iterator.selected
    cases ascending with
    | true => exact hsorted
    | false => exact pairwise_reverse.mpr hsorted

/-- A tree of two leaves in memory, backwards down to the second key. -/
theorem iterate_exact_descending :
    letI := Sha256.zero
    ∃ ps, HeapTree.twoLeaves.iterate .twoLeaves 5 (some [2]) none false = some ps ∧
      ∀ p, p ∈ ps ↔ p = ([2], some [8]) := by
  let _ := Sha256.zero
  obtain ⟨ps, hps, hmem, -⟩ := iterate_exact (Heap.twoLeaves_repRoot.rootDenotes Tree.twoLeaves_valid)
    Tree.twoLeaves_valid (some [2]) none false
  refine ⟨ps, hps 5 (by decide), fun p => ?_⟩
  rw [hmem]
  constructor
  · rintro ⟨hp, hin⟩
    obtain rfl | rfl : p = ([1], some [7]) ∨ p = ([2], some [8]) := by
      simpa [Tree.twoLeaves, Tree.toList, Node.toList] using hp
    · exact absurd hin (by decide)
    · rfl
  · rintro rfl
    exact ⟨by decide, by decide⟩

end CronosStore.Memiavl
