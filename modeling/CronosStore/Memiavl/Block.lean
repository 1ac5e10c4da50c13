import CronosStore.Memiavl.DB

/-!
# Blocks

A block, as the root store makes it: at most one call of `ApplyUpgrades`, then any number of calls
that apply change sets, then `Commit`. While the calls are made, the pending log stays such that its
change sets, applied to the trees as they were after the upgrades, give the live trees (`Pending`).
So the entry that is written has the effect of the block (`commitBlock_ok`).
-/

namespace CronosStore.Memiavl

open Foundation List

inductive Call
  | applyChangeSets (changeSets : List NamedChangeSet)
  | applyChangeSet (name : Name) (changeSet : ChangeSet)
deriving DecidableEq

structure Block where
  upgrades : List TreeNameUpgrade
  calls : List Call
deriving DecidableEq

namespace DB

def call (db : DB) : Call → Update DBError DB
  | .applyChangeSets changeSets => db.applyChangeSets changeSets
  | .applyChangeSet name changeSet => db.applyChangeSet name changeSet

def applyCalls (db : DB) : List Call → Update DBError DB
  | [] => .ok db
  | c :: calls =>
    match db.call c with
    | .error f => .error f
    | .ok db => db.applyCalls calls

def applyBlock (db : DB) (block : Block) : Update DBError DB :=
  match db.applyUpgrades block.upgrades with
  | .error f => .error f
  | .ok db => db.applyCalls block.calls

def commitBlock [Sha256] (db : DB) (block : Block) :
    Except (Failure DBError DB) (WalEntry × DB) :=
  match db.applyBlock block with
  | .error f => .error f
  | .ok db =>
    match db.saveVersion with
    | .error f => .error f
    | .ok (entry, db) => .ok (entry, db.clearPending)

end DB

/-! ## Change sets of a log -/

namespace MultiTree

theorem pairsFor_eq_nil {name : Name} {l : List NamedChangeSet} (h : ∀ cs ∈ l, cs.name ≠ name) :
    pairsFor name l = [] := by
  rw [pairsFor, flatMap_eq_nil_iff]
  exact fun cs hcs => if_neg (h cs hcs)

theorem pairsFor_insert {A B : List NamedChangeSet} {cs : NamedChangeSet}
    (h : ∀ c ∈ A ++ B, c.name ≠ cs.name) (name : Name) :
    pairsFor name (A ++ cs :: B) =
      pairsFor name (A ++ B) ++ if cs.name = name then cs.changeset else [] := by
  rw [pairsFor_append, pairsFor_cons, pairsFor_append]
  by_cases hn : cs.name = name
  · subst hn
    have hA : pairsFor cs.name A = [] := pairsFor_eq_nil fun c hc => h c (mem_append_left _ hc)
    have hB : pairsFor cs.name B = [] := pairsFor_eq_nil fun c hc => h c (mem_append_right _ hc)
    simp only [hA, hB, if_true, append_nil, nil_append]
  · rw [if_neg hn, nil_append, append_nil]

theorem pairsFor_extend {A B : List NamedChangeSet} {cs : NamedChangeSet} {pairs : ChangeSet}
    (h : ∀ c ∈ B, c.name ≠ cs.name) (name : Name) :
    pairsFor name (A ++ { cs with changeset := cs.changeset ++ pairs } :: B) =
      pairsFor name (A ++ cs :: B) ++ if cs.name = name then pairs else [] := by
  simp only [pairsFor_append, pairsFor_cons]
  by_cases hn : cs.name = name
  · subst hn
    simp only [if_true, pairsFor_eq_nil h, append_nil, append_assoc]
  · simp only [if_neg hn, append_nil]

end MultiTree

namespace PendingLog

structure Valid (p : PendingLog) : Prop where
  nodup : p.changesets.Nodup
  lt : ∀ ptr ∈ p.changesets, ptr < p.cells.length

structure Maps (p : PendingLog) (m : List (Name × Nat)) : Prop where
  fresh : ∀ name, m.lookup name = none → ∀ cs ∈ p.deref, cs.name ≠ name
  last : ∀ name ptr, m.lookup name = some ptr → ∃ A B cs, p.changesets = A ++ ptr :: B ∧
    p.cells[ptr]? = some cs ∧ cs.name = name ∧ ∀ c ∈ follow p.cells B, c.name ≠ name

section Follow

variable {p : PendingLog} {cells extra : List NamedChangeSet} {ptrs A B : List Nat} {ptr : Nat}
  {cs : NamedChangeSet}

theorem mem_follow : cs ∈ follow cells ptrs ↔ ∃ ptr ∈ ptrs, cells[ptr]? = some cs :=
  mem_filterMap

theorem follow_append_cells (h : ∀ ptr ∈ ptrs, ptr < cells.length) :
    follow (cells ++ extra) ptrs = follow cells ptrs :=
  filterMap_congr fun ptr hp => getElem?_append_left (h ptr hp)

theorem follow_modify (h : ptr ∉ ptrs) (f : NamedChangeSet → NamedChangeSet) :
    follow (cells.modify ptr f) ptrs = follow cells ptrs :=
  filterMap_congr fun q hq => getElem?_modify_ne _ _ fun (he : ptr = q) => h (he ▸ hq)

theorem follow_split (hcs : cells[ptr]? = some cs) :
    follow cells (A ++ ptr :: B) = follow cells A ++ cs :: follow cells B := by
  simp only [follow, filterMap_append, filterMap_cons, hcs]

theorem follow_range' (cells changeSets : List NamedChangeSet) :
    follow (cells ++ changeSets) (List.range' cells.length changeSets.length) = changeSets := by
  induction changeSets generalizing cells with
  | nil => rfl
  | cons cs changeSets ih =>
    have hget : (cells ++ cs :: changeSets)[cells.length]? = some cs := by simp
    have hrest := ih (cells ++ [cs])
    rw [append_assoc, singleton_append, length_append, length_singleton] at hrest
    rw [length_cons, range'_succ, ← nil_append (cells.length :: _), follow_split hget,
      hrest]
    rfl

end Follow

variable {p : PendingLog}

theorem Maps.nil (h : p.changesets = []) : p.Maps [] where
  fresh name _ cs hcs := by
    rw [deref, h] at hcs
    cases hcs
  last name ptr hl := by cases hl

theorem Maps.snoc {map : List (Name × Nat)} (h : p.Maps map) {ptr : Nat}
    {cs : NamedChangeSet} (hcs : p.cells[ptr]? = some cs) :
    Maps { p with changesets := p.changesets ++ [ptr] } ((cs.name, ptr) :: map) := by
  have hfollow (ptrs : List Nat) : follow p.cells (ptrs ++ [ptr]) = follow p.cells ptrs ++ [cs] :=
    follow_split hcs
  refine ⟨fun name hl c hc => ?_, fun name q hl => ?_⟩
  · rw [lookup_cons] at hl
    by_cases hn : name = cs.name
    · simp [hn] at hl
    · rw [beq_false_of_ne hn] at hl
      rw [deref, hfollow] at hc
      rcases mem_append.mp hc with hc | hc
      · exact h.fresh name hl c hc
      · rw [mem_singleton.mp hc]
        exact Ne.symm hn
  · rw [lookup_cons] at hl
    by_cases hn : name = cs.name
    · rw [hn, beq_self_eq_true] at hl
      cases hl
      exact ⟨p.changesets, [], cs, rfl, hcs, hn.symm, fun c hc => by cases hc⟩
    · rw [beq_false_of_ne hn] at hl
      obtain ⟨A, B, c, hAB, hc, hcn, hB⟩ := h.last name q hl
      refine ⟨A, B ++ [ptr], c, by simp [hAB], hc, hcn, fun d hd => ?_⟩
      simp only [hfollow] at hd
      rcases mem_append.mp hd with hd | hd
      · exact hB d hd
      · rw [mem_singleton.mp hd]
        exact Ne.symm hn

theorem Maps.foldl {map : List (Name × Nat)} (h : p.Maps map) {ptrs : List Nat}
    (hlt : ∀ ptr ∈ ptrs, ptr < p.cells.length) :
    Maps { p with changesets := p.changesets ++ ptrs }
      (ptrs.foldl (fun m ptr => match p.cells[ptr]? with
        | some cs => (cs.name, ptr) :: m
        | none => m) map) := by
  induction ptrs generalizing p map with
  | nil => simpa using h
  | cons q ptrs ih =>
    obtain ⟨hq, hlt⟩ := forall_mem_cons.mp hlt
    have hget := getElem?_eq_getElem hq
    have hrest := ih (h.snoc hget) hlt
    rw [foldl_cons]
    simp only [hget]
    simpa only [append_assoc, singleton_append] using hrest

section Merge

variable {p : PendingLog} {A B : List Nat} {cs : NamedChangeSet} {map : List (Name × Nat)}

def insertBetween (p : PendingLog) (A B : List Nat) (cs : NamedChangeSet) : PendingLog :=
  { p with cells := p.cells ++ [cs], changesets := A ++ p.cells.length :: B }

theorem getElem?_cells_self : (p.cells ++ [cs])[p.cells.length]? = some cs :=
  getElem?_concat_length

theorem deref_split (hAB : p.changesets = A ++ B) :
    p.deref = follow p.cells A ++ follow p.cells B := by
  rw [deref, hAB, follow, filterMap_append]
  rfl

theorem Valid.deref_insertBetween (h : p.Valid) (hAB : p.changesets = A ++ B) :
    (p.insertBetween A B cs).deref = follow p.cells A ++ cs :: follow p.cells B := by
  have hlt : ∀ ptr ∈ A ++ B, ptr < p.cells.length := hAB ▸ h.lt
  rw [deref, insertBetween, follow_split getElem?_cells_self,
    follow_append_cells fun ptr hp => hlt ptr (mem_append_left _ hp),
    follow_append_cells fun ptr hp => hlt ptr (mem_append_right _ hp)]

variable {ptr : Nat}

theorem mem_insertBetween (hAB : p.changesets = A ++ B) :
    ptr ∈ (p.insertBetween A B cs).changesets ↔ ptr = p.cells.length ∨ ptr ∈ p.changesets := by
  simp only [insertBetween, hAB, mem_append, mem_cons]
  tauto

theorem Valid.insertBetween (h : p.Valid) (hAB : p.changesets = A ++ B) :
    (p.insertBetween A B cs).Valid := by
  constructor
  · refine nodup_middle.mpr (nodup_cons.mpr ⟨fun hmem => ?_, hAB ▸ h.nodup⟩)
    exact Nat.lt_irrefl _ (h.lt _ (hAB ▸ hmem))
  · intro ptr hp
    show ptr < (p.cells ++ [cs]).length
    rw [length_append, length_singleton]
    rcases (mem_insertBetween hAB).mp hp with rfl | hp
    · exact Nat.lt_succ_self _
    · exact Nat.lt_succ_of_lt (h.lt ptr hp)

/-- One more element somewhere in a list leaves the parts behind another one as they are. -/
theorem exists_split_insert {A B A' B' : List Nat} {new : Nat} (h : A ++ B = A' ++ ptr :: B') :
    ∃ A1 B1, A ++ new :: B = A1 ++ ptr :: B1 ∧ ∀ q ∈ B1, q ∈ B' ∨ q = new := by
  rcases append_eq_append_iff.mp h with ⟨bs, rfl, hB⟩ | ⟨as, rfl, hB⟩
  · exact ⟨A ++ new :: bs, B', by simp [hB], fun q hq => .inl hq⟩
  · cases as with
    | nil =>
      rw [nil_append] at hB
      exact ⟨A' ++ [new], B', by simp [← hB], fun q hq => .inl hq⟩
    | cons a as =>
      rw [cons_append, List.cons.injEq] at hB
      obtain ⟨rfl, rfl⟩ := hB
      refine ⟨A', as ++ new :: B, by simp, fun q hq => ?_⟩
      simp only [mem_append, mem_cons] at hq ⊢
      tauto

theorem Maps.insertBetween (hmap : p.Maps map) (h : p.Valid) (hAB : p.changesets = A ++ B)
    (hfresh : ∀ c ∈ p.deref, c.name ≠ cs.name) :
    (p.insertBetween A B cs).Maps ((cs.name, p.cells.length) :: map) := by
  have hold {ptr : Nat} (hp : ptr ∈ p.changesets) : (p.cells ++ [cs])[ptr]? = p.cells[ptr]? :=
    getElem?_append_left (h.lt ptr hp)
  refine ⟨fun name hl c hc => ?_, fun name ptr hl => ?_⟩
  · rw [lookup_cons] at hl
    by_cases hn : name = cs.name
    · simp [hn] at hl
    · rw [beq_false_of_ne hn] at hl
      rw [h.deref_insertBetween hAB] at hc
      rcases mem_append.mp hc with hc | hc
      · exact hmap.fresh name hl c (deref_split hAB ▸ mem_append_left _ hc)
      · rcases mem_cons.mp hc with rfl | hc
        · exact Ne.symm hn
        · exact hmap.fresh name hl c (deref_split hAB ▸ mem_append_right _ hc)
  · rw [lookup_cons] at hl
    by_cases hn : name = cs.name
    · rw [hn, beq_self_eq_true] at hl
      cases hl
      refine ⟨A, B, cs, rfl, getElem?_cells_self, hn.symm, fun c hc => ?_⟩
      obtain ⟨q, hq, hget⟩ := mem_follow.mp hc
      have hmem : q ∈ p.changesets := hAB ▸ mem_append_right _ hq
      rw [hn]
      exact hfresh c (mem_follow.mpr ⟨q, hmem, (hold hmem).symm.trans hget⟩)
    · rw [beq_false_of_ne hn] at hl
      obtain ⟨A', B', c, hAB', hc, hcn, hB'⟩ := hmap.last name ptr hl
      have hsub : ∀ q ∈ ptr :: B', q ∈ p.changesets := fun q hq =>
        hAB' ▸ mem_append_right _ hq
      obtain ⟨A1, B1, hsplit, hB1⟩ := exists_split_insert (hAB.symm.trans hAB')
      refine ⟨A1, B1, c, hsplit, (hold (hsub ptr mem_cons_self)).trans hc, hcn, fun d hd => ?_⟩
      obtain ⟨q, hq, hget⟩ := mem_follow.mp hd
      rcases hB1 q hq with hq | rfl
      · rw [PendingLog.insertBetween, hold (hsub q (mem_cons_of_mem _ hq))] at hget
        exact hB' d (mem_follow.mpr ⟨q, hq, hget⟩)
      · cases getElem?_cells_self.symm.trans hget
        exact Ne.symm hn

def extend (p : PendingLog) (ptr : Nat) (pairs : ChangeSet) : PendingLog :=
  { p with cells := p.cells.modify ptr fun cs => { cs with changeset := cs.changeset ++ pairs } }

theorem Valid.extend (h : p.Valid) (ptr : Nat) (pairs : ChangeSet) : (p.extend ptr pairs).Valid :=
  ⟨h.nodup, fun q hq => (length_modify _ _ _).symm ▸ h.lt q hq⟩

theorem getElem?_extend {q : Nat} {pairs : ChangeSet} {c : NamedChangeSet}
    (hc : (p.extend ptr pairs).cells[q]? = some c) : ∃ d, p.cells[q]? = some d ∧ d.name = c.name := by
  rw [PendingLog.extend, getElem?_modify] at hc
  obtain ⟨d, hd, rfl⟩ := Option.map_eq_some_iff.mp hc
  refine ⟨d, hd, ?_⟩
  split_ifs <;> rfl

theorem exists_mem_follow_extend {pairs : ChangeSet} {c : NamedChangeSet} {ptrs : List Nat}
    (hc : c ∈ follow (p.extend ptr pairs).cells ptrs) : ∃ d ∈ follow p.cells ptrs, d.name = c.name := by
  obtain ⟨q, hq, hget⟩ := mem_follow.mp hc
  obtain ⟨d, hd, hn⟩ := getElem?_extend hget
  exact ⟨d, mem_follow.mpr ⟨q, hq, hd⟩, hn⟩

theorem Maps.extend (hmap : p.Maps map) (ptr : Nat) (pairs : ChangeSet) :
    (p.extend ptr pairs).Maps map where
  fresh name hl c hc := by
    obtain ⟨d, hd, hn⟩ := exists_mem_follow_extend hc
    exact hn ▸ hmap.fresh name hl d hd
  last name q hl := by
    obtain ⟨A, B, c, hAB, hc, hcn, hB⟩ := hmap.last name q hl
    obtain ⟨c', hc'⟩ : ∃ c', (p.extend ptr pairs).cells[q]? = some c' := by
      rw [PendingLog.extend, getElem?_modify, hc]
      exact ⟨_, rfl⟩
    obtain ⟨d, hd, hdn⟩ := getElem?_extend hc'
    cases hc.symm.trans hd
    refine ⟨A, B, c', hAB, hc', hdn.symm.trans hcn, fun e he => ?_⟩
    obtain ⟨e', he', hen⟩ := exists_mem_follow_extend he
    exact hen ▸ hB e' he'

theorem Valid.deref_extend (h : p.Valid) (hAB : p.changesets = A ++ ptr :: B)
    (hcs : p.cells[ptr]? = some cs) (pairs : ChangeSet) :
    p.deref = follow p.cells A ++ cs :: follow p.cells B ∧
      (p.extend ptr pairs).deref =
        follow p.cells A ++ { cs with changeset := cs.changeset ++ pairs } :: follow p.cells B := by
  have hnd := h.nodup
  rw [hAB] at hnd
  have hnot : ptr ∉ A ++ B := (nodup_cons.mp (nodup_middle.mp hnd)).1
  refine ⟨by rw [deref, hAB, follow_split hcs], ?_⟩
  have hcs' : (p.cells.modify ptr fun c => { c with changeset := c.changeset ++ pairs })[ptr]? =
      some { cs with changeset := cs.changeset ++ pairs } := by
    rw [getElem?_modify_eq, hcs]
    rfl
  rw [deref, PendingLog.extend]
  simp only [hAB]
  rw [follow_split hcs', follow_modify fun hmem => hnot (mem_append_left _ hmem),
    follow_modify fun hmem => hnot (mem_append_right _ hmem)]

end Merge

end PendingLog

/-! ## The calls of a block -/

namespace DB

open MultiTree PendingLog List

structure LogValid (db : DB) : Prop where
  valid : db.pendingLog.Valid
  maps : db.pendingLog.changesets ≠ [] →
    ∃ map, db.cachedPendingChangesets = some map ∧ db.pendingLog.Maps map

structure Pending (db : DB) (m : MultiTree) : Prop extends db.LogValid where
  mtree : db.mtree = m.applyPairs fun n => pairsFor n db.pendingLog.deref
  known : ∀ cs ∈ db.pendingLog.deref, m.HasTree cs.name

variable {db db' : DB} {m : MultiTree}

theorem onTrees_ok {r : Update MultiTreeError MultiTree} :
    db.onTrees r = .ok db' ↔ ∃ t, r = .ok t ∧ db' = { db with mtree := t } := by
  cases r with
  | error f => simp [onTrees]
  | ok t => simp [onTrees, eq_comm]

/-- Where the merged change set went does not matter. -/
theorem insertPendingChangeSet_eq (db : DB) (cs : NamedChangeSet) :
    ∃ A B, db.pendingLog.changesets = A ++ B ∧ db.insertPendingChangeSet cs =
      { db with
        pendingLog := db.pendingLog.insertBetween A B cs
        cachedPendingChangesets := some ((cs.name, db.pendingLog.cells.length) ::
          db.cachedPendingChangesets.getD []) } := by
  unfold insertPendingChangeSet PendingLog.alloc
  simp only
  split_ifs with h
  · exact ⟨db.pendingLog.changesets, [], (append_nil _).symm, rfl⟩
  · exact ⟨_, _, (take_append_drop _ _).symm, rfl⟩

structure Merged (db : DB) (name : Name) (cs : ChangeSet) (db' : DB) : Prop extends db'.LogValid where
  mtree : db'.mtree = db.mtree
  readOnly : db'.readOnly = db.readOnly
  upgrades : db'.pendingLog.upgrades = db.pendingLog.upgrades
  pairs : ∀ n, pairsFor n db'.pendingLog.deref =
    pairsFor n db.pendingLog.deref ++ if name = n then cs else []
  names : ∀ c ∈ db'.pendingLog.deref, c.name = name ∨ ∃ c' ∈ db.pendingLog.deref, c'.name = c.name

variable {name : Name} {changeSets : List NamedChangeSet} {entry : WalEntry}

theorem LogValid.insert (h : db.LogValid) (cs : ChangeSet)
    (hmap : db.pendingLog.Maps (db.cachedPendingChangesets.getD []))
    (hnone : (db.cachedPendingChangesets.getD []).lookup name = none) :
    db.Merged name cs (db.insertPendingChangeSet ⟨name, cs⟩) := by
  have hfresh : ∀ c ∈ db.pendingLog.deref, c.name ≠ name := hmap.fresh name hnone
  obtain ⟨A, B, hAB, heq⟩ := insertPendingChangeSet_eq db ⟨name, cs⟩
  have hold := deref_split hAB
  have hnew : (db.pendingLog.insertBetween A B ⟨name, cs⟩).deref = _ :=
    h.valid.deref_insertBetween hAB
  rw [heq]
  refine ⟨⟨h.valid.insertBetween hAB, fun _ => ⟨_, rfl, hmap.insertBetween h.valid hAB hfresh⟩⟩,
    rfl, rfl, rfl, ?_, ?_⟩
  · intro n
    simp only [hnew, hold]
    exact pairsFor_insert (hold ▸ hfresh) n
  · simp only [hnew, hold]
    intro c hc
    rcases mem_append.mp hc with hc | hc
    · exact .inr ⟨c, mem_append_left _ hc, rfl⟩
    · rcases mem_cons.mp hc with rfl | hc
      · exact .inl rfl
      · exact .inr ⟨c, mem_append_right _ hc, rfl⟩

theorem LogValid.extend (h : db.LogValid) (cs : ChangeSet) {ptr : Nat}
    {map : List (Name × Nat)} (hcache : db.cachedPendingChangesets = some map)
    (hmap : db.pendingLog.Maps map) (hptr : map.lookup name = some ptr) :
    db.Merged name cs { db with pendingLog := db.pendingLog.extend ptr cs } := by
  obtain ⟨A, B, c, hAB, hc, rfl, hB⟩ := hmap.last name ptr hptr
  obtain ⟨hold, hnew⟩ := h.valid.deref_extend hAB hc cs
  refine ⟨⟨h.valid.extend ptr cs, fun _ => ⟨map, hcache, hmap.extend ptr cs⟩⟩, rfl, rfl, rfl, ?_, ?_⟩
  · intro n
    simp only [hnew, hold]
    exact pairsFor_extend hB n
  · simp only [hnew, hold]
    intro d hd
    rcases mem_append.mp hd with hd | hd
    · exact .inr ⟨d, mem_append_left _ hd, rfl⟩
    · rcases mem_cons.mp hd with rfl | hd
      · exact .inl rfl
      · exact .inr ⟨d, mem_append_right _ (mem_cons_of_mem _ hd), rfl⟩

/-- The map is there when the pending log has change sets, and is empty when it has none. -/
theorem LogValid.ensure (h : db.LogValid) :
    ∃ cache, db.ensurePendingChangesetMap = { db with cachedPendingChangesets := cache } ∧
      DB.LogValid { db with cachedPendingChangesets := cache } ∧
      db.pendingLog.Maps (cache.getD []) := by
  unfold ensurePendingChangesetMap
  by_cases hnil : db.pendingLog.changesets = []
  · rw [if_pos hnil]
    refine ⟨db.cachedPendingChangesets.map fun _ => [], rfl, ⟨h.valid, fun hne => absurd hnil hne⟩, ?_⟩
    have hempty : (db.cachedPendingChangesets.map fun _ => ([] : List (Name × Nat))).getD [] = [] := by
      cases db.cachedPendingChangesets <;> rfl
    rw [hempty]
    exact .nil hnil
  · obtain ⟨map, hcache, hmap⟩ := h.maps hnil
    rw [if_neg hnil, hcache, Option.isSome_some, if_pos rfl]
    exact ⟨db.cachedPendingChangesets, rfl, h, by rwa [hcache]⟩

theorem LogValid.applyChangeSet (h : db.LogValid) (name : Name) {cs : ChangeSet} (hne : cs ≠ [])
    (hro : db.readOnly = false) :
    ∃ db1, db.Merged name cs db1 ∧
      db.applyChangeSet name cs = db1.onTrees (db.mtree.applyChangeSet name cs) := by
  unfold DB.applyChangeSet
  rw [if_neg hne, if_neg (by simp [hro])]
  obtain ⟨cache, heq, h', hmap⟩ := h.ensure
  rw [heq]
  simp only
  cases hl : (cache.getD []).lookup name with
  | some ptr =>
    cases cache with
    | none => simp at hl
    | some map =>
      obtain ⟨hv, hm, hr, hu, hp, hn⟩ := h'.extend cs rfl hmap hl
      exact ⟨_, ⟨hv, hm, hr, hu, hp, hn⟩, rfl⟩
  | none =>
    obtain ⟨hv, hm, hr, hu, hp, hn⟩ := h'.insert cs hmap hl
    exact ⟨_, ⟨hv, hm, hr, hu, hp, hn⟩, by rw [hm]⟩

section

variable (h : db.Pending m)
include h

theorem Pending.indexed (hi : m.Indexed) : db.mtree.Indexed :=
  h.mtree ▸ hi.applyPairs _

theorem Pending.hasTree (hn : db.mtree.HasTree name) :
    m.HasTree name := by
  rw [h.mtree] at hn
  exact hasTree_applyPairs.mp hn

theorem Pending.applyChangeSet (hi : m.Indexed) {cs : ChangeSet}
    (hok : db.applyChangeSet name cs = .ok db') :
    db'.Pending m ∧ db'.pendingLog.upgrades = db.pendingLog.upgrades ∧
      db'.readOnly = db.readOnly := by
  by_cases hnil : cs = []
  · rw [DB.applyChangeSet, if_pos hnil] at hok
    cases hok
    exact ⟨h, rfl, rfl⟩
  by_cases hro : db.readOnly = true
  · rw [DB.applyChangeSet, if_neg hnil, if_pos hro] at hok
    cases hok
  obtain ⟨db1, hmerge, heq⟩ := h.toLogValid.applyChangeSet name hnil (Bool.eq_false_iff.mpr hro)
  rw [heq] at hok
  obtain ⟨t, ht, rfl⟩ := onTrees_ok.mp hok
  obtain ⟨hhas, rfl⟩ := (h.indexed hi).applyChangeSet_ok.mp ht
  refine ⟨⟨⟨hmerge.valid, hmerge.maps⟩, ?_, fun c hc => ?_⟩, hmerge.upgrades, hmerge.readOnly⟩
  · simp only [h.mtree, applyPairs_applyPairs, hmerge.pairs]
  · rcases hmerge.names c hc with hn | ⟨c', hc', hn⟩
    · exact hn ▸ h.hasTree hhas
    · exact hn ▸ h.known c' hc'

theorem Pending.applyEach (hi : m.Indexed)
    (hok : db.applyEach changeSets = .ok db') :
    db'.Pending m ∧ db'.pendingLog.upgrades = db.pendingLog.upgrades ∧
      db'.readOnly = db.readOnly := by
  induction changeSets generalizing db with
  | nil =>
    cases hok
    exact ⟨h, rfl, rfl⟩
  | cons cs changeSets ih =>
    rw [DB.applyEach] at hok
    cases h1 : db.applyChangeSet cs.name cs.changeset with
    | error f => simp only [h1] at hok; cases hok
    | ok db1 =>
      simp only [h1] at hok
      obtain ⟨hp1, hu1, hr1⟩ := h.applyChangeSet hi h1
      obtain ⟨hp, hu, hr⟩ := ih hp1 hok
      exact ⟨hp, hu.trans hu1, hr.trans hr1⟩

end

theorem setPendingChangeSets_ok (db : DB) (hne : changeSets ≠ []) :
    (db.setPendingChangeSets changeSets).LogValid ∧
      (db.setPendingChangeSets changeSets).pendingLog.deref = changeSets ∧
      (db.setPendingChangeSets changeSets).mtree = db.mtree ∧
      (db.setPendingChangeSets changeSets).pendingLog.upgrades = db.pendingLog.upgrades ∧
      (db.setPendingChangeSets changeSets).readOnly = db.readOnly := by
  unfold DB.setPendingChangeSets
  simp only
  rw [if_neg hne]
  have hlt : ∀ ptr ∈ List.range' db.pendingLog.cells.length changeSets.length,
      ptr < (db.pendingLog.cells ++ changeSets).length := by
    intro ptr hp
    rw [mem_range'_1] at hp
    rw [length_append]
    exact hp.2
  have hnew : Maps ⟨db.pendingLog.cells ++ changeSets, [], db.pendingLog.upgrades⟩ [] := .nil rfl
  exact ⟨⟨⟨nodup_range', hlt⟩, fun _ => ⟨_, rfl, hnew.foldl hlt⟩⟩,
    follow_range' db.pendingLog.cells changeSets, rfl, rfl, rfl⟩

theorem Pending.applyChangeSets (h : db.Pending m) (hi : m.Indexed)
    (hok : db.applyChangeSets changeSets = .ok db') :
    db'.Pending m ∧ db'.pendingLog.upgrades = db.pendingLog.upgrades ∧
      db'.readOnly = db.readOnly := by
  unfold DB.applyChangeSets at hok
  split_ifs at hok with hne hro hnil
  · cases hok
    exact ⟨h, rfl, rfl⟩
  · obtain ⟨hvalid, hderef, hmt, hup, hro'⟩ := setPendingChangeSets_ok db hne
    simp only at hok
    obtain ⟨t, ht, rfl⟩ := onTrees_ok.mp hok
    rw [hmt] at ht
    obtain ⟨hall, rfl⟩ := (h.indexed hi).applyChangeSets_ok.mp ht
    have hold : db.pendingLog.deref = [] := by rw [deref, hnil]; rfl
    refine ⟨⟨⟨hvalid.valid, hvalid.maps⟩, ?_, fun c hc => ?_⟩, hup, hro'⟩
    · simp only [hderef, h.mtree, hold, applyPairs_applyPairs, pairsFor_nil, nil_append]
    · exact h.hasTree (hall c (hderef ▸ hc))
  · exact h.applyEach hi hok

theorem Pending.applyCalls (h : db.Pending m) (hi : m.Indexed) {calls : List Call}
    (hok : db.applyCalls calls = .ok db') :
    db'.Pending m ∧ db'.pendingLog.upgrades = db.pendingLog.upgrades ∧
      db'.readOnly = db.readOnly := by
  induction calls generalizing db with
  | nil =>
    cases hok
    exact ⟨h, rfl, rfl⟩
  | cons c calls ih =>
    rw [DB.applyCalls] at hok
    cases h1 : db.call c with
    | error f => simp only [h1] at hok; cases hok
    | ok db1 =>
      simp only [h1] at hok
      obtain ⟨hp1, hu1, hr1⟩ : db1.Pending m ∧ db1.pendingLog.upgrades = db.pendingLog.upgrades ∧
          db1.readOnly = db.readOnly := by
        cases c with
        | applyChangeSets changeSets => exact h.applyChangeSets hi h1
        | applyChangeSet name cs => exact h.applyChangeSet hi h1
      obtain ⟨hp, hu, hr⟩ := ih hp1 hok
      exact ⟨hp, hu.trans hu1, hr.trans hr1⟩

/-! ## The entry of a block -/

structure AtBoundary (db : DB) : Prop where
  changesets : db.pendingLog.changesets = []
  upgrades : db.pendingLog.upgrades = []

theorem atBoundary_new (t : MultiTree) (readOnly : Bool) : (DB.new t readOnly).AtBoundary :=
  ⟨rfl, rfl⟩

theorem pending_of_nil (h : db.pendingLog.changesets = []) : db.Pending db.mtree := by
  have hderef : db.pendingLog.deref = [] := by rw [deref, h]; rfl
  refine ⟨⟨⟨h ▸ nodup_nil, fun ptr hp => absurd (h ▸ hp) not_mem_nil⟩,
    fun hne => absurd h hne⟩, ?_, by simp [hderef]⟩
  rw [hderef]
  exact applyPairs_nil.symm

theorem applyUpgrades_ok {upgrades : List TreeNameUpgrade} (h : db.applyUpgrades upgrades = .ok db') :
    ∃ t, db.mtree.applyUpgrades upgrades = .ok t ∧ db.readOnly = false ∧
      db' = { db with
        mtree := t
        pendingLog := { db.pendingLog with upgrades := db.pendingLog.upgrades ++ upgrades } } := by
  unfold DB.applyUpgrades at h
  split_ifs at h with hro
  cases hu : db.onTrees (db.mtree.applyUpgrades upgrades) with
  | error f => simp only [hu] at h; cases h
  | ok db1 =>
    simp only [hu] at h
    obtain ⟨t, ht, rfl⟩ := onTrees_ok.mp hu
    cases h
    exact ⟨t, ht, Bool.eq_false_iff.mpr hro, rfl⟩

def PendingFrom (db : DB) (t : MultiTree) : Prop :=
  ∃ m, t.applyUpgrades db.pendingLog.upgrades = .ok m ∧ m.Indexed ∧ db.Pending m

theorem PendingFrom.applyWALEntry {t : MultiTree} (h : db.PendingFrom t) :
    t.applyWALEntry db.pendingLog.entry = .ok db.mtree := by
  obtain ⟨m, hm, hi, hp⟩ := h
  exact applyWALEntry_ok.mpr ⟨m, hm, hi.applyChangeSets_ok.mpr ⟨hp.known, hp.mtree⟩⟩

theorem AtBoundary.pendingFrom (hb : db.AtBoundary) (hi : db.mtree.Indexed) :
    db.PendingFrom db.mtree := by
  refine ⟨db.mtree, ?_, hi, pending_of_nil hb.changesets⟩
  rw [hb.upgrades, MultiTree.applyUpgrades, if_pos rfl]

theorem AtBoundary.applyWALEntry (hb : db.AtBoundary) (t : MultiTree) :
    t.applyWALEntry db.pendingLog.entry = .ok t := by
  rw [PendingLog.entry, PendingLog.deref, hb.changesets, hb.upgrades]
  rfl

theorem AtBoundary.applyUpgrades (hb : db.AtBoundary) (hi : db.mtree.Indexed)
    {upgrades : List TreeNameUpgrade} (hok : db.applyUpgrades upgrades = .ok db') :
    db'.PendingFrom db.mtree := by
  obtain ⟨u, hu, -, rfl⟩ := applyUpgrades_ok hok
  refine ⟨u, ?_, hi.applyUpgrades hu, pending_of_nil hb.changesets⟩
  simp only [hb.upgrades, nil_append]
  exact hu

theorem PendingFrom.applyCalls {t : MultiTree} (h : db.PendingFrom t) {calls : List Call}
    (hok : db.applyCalls calls = .ok db') : db'.PendingFrom t ∧ db'.readOnly = db.readOnly := by
  obtain ⟨m, hm, hi, hp⟩ := h
  obtain ⟨hp', hu, hr⟩ := hp.applyCalls hi hok
  exact ⟨⟨m, hu ▸ hm, hi, hp'⟩, hr⟩

variable [Sha256]

theorem saveVersion_ok (h : db.saveVersion = .ok (entry, db')) :
    ∃ t, db.mtree.saveVersion true = .ok t ∧ db' = { db with mtree := t } ∧
      entry = ⟨walIndex t.version t.initialVersion, db.pendingLog.entry⟩ := by
  unfold DB.saveVersion at h
  split_ifs at h
  cases hs : db.onTrees (db.mtree.saveVersion true) with
  | error f => simp only [hs] at h; cases h
  | ok db1 =>
    simp only [hs] at h
    obtain ⟨t, ht, rfl⟩ := onTrees_ok.mp hs
    cases h
    exact ⟨t, ht, rfl, rfl⟩

theorem commitBlock_eq_ok {block : Block} (h : db.commitBlock block = .ok (entry, db')) :
    ∃ d t, db.applyBlock block = .ok d ∧ d.mtree.saveVersion true = .ok t ∧
      db' = DB.clearPending { d with mtree := t } ∧
      entry = ⟨walIndex t.version t.initialVersion, d.pendingLog.entry⟩ := by
  unfold commitBlock at h
  cases hd : db.applyBlock block with
  | error f => simp only [hd] at h; cases h
  | ok d =>
    simp only [hd] at h
    cases hs : d.saveVersion with
    | error f => simp only [hs] at h; cases h
    | ok r =>
      simp only [hs] at h
      cases h
      obtain ⟨t, ht, heq, hentry⟩ := saveVersion_ok hs
      exact ⟨d, t, rfl, ht, congrArg DB.clearPending heq, hentry⟩

/-- The entry of a block has the effect of the block, and stands at the index of the version
that the block made. -/
theorem commitBlock_ok {block : Block} (hb : db.AtBoundary)
    (hi : db.mtree.Indexed) (h : db.commitBlock block = .ok (entry, db')) :
    db.mtree.commitEntry entry.data = .ok db'.mtree ∧ db'.AtBoundary ∧
      entry.index = walIndex db'.mtree.version db'.mtree.initialVersion ∧
      db'.readOnly = db.readOnly := by
  obtain ⟨d, t, hd, ht, rfl, rfl⟩ := commitBlock_eq_ok h
  unfold applyBlock at hd
  cases hu : db.applyUpgrades block.upgrades with
  | error f => simp only [hu] at hd; cases hd
  | ok db1 =>
    simp only [hu] at hd
    obtain ⟨hp, hro⟩ := (hb.applyUpgrades hi hu).applyCalls hd
    have hro1 : db1.readOnly = db.readOnly := by
      obtain ⟨u, -, -, rfl⟩ := applyUpgrades_ok hu
      rfl
    exact ⟨commitEntry_ok.mpr ⟨d.mtree, hp.applyWALEntry, ht⟩, ⟨rfl, rfl⟩, rfl, hro.trans hro1⟩

end DB

end CronosStore.Memiavl
