import CronosStore.Memiavl.Block

/-!
# Walking the changes of a store

`traverseStateChanges` of `memiavl/tree.go` over the log of a database. The log is the one
that `waitWALForRead` returns, once it has waited for the entries it asks for. A callback
changes a state and may fail; `callEach` is what calling it for a list of changes does.

The requested range is clipped against the window of the log in terms of versions, and the
entries are read by index. For a window of committed entries the two agree: the calls are
those of the versions of the window that the range holds (`traverseStateChanges_exact`).
-/

namespace CronosStore.Memiavl

open Foundation MultiTree List

def storeChangeSet (store : Name) (entry : WALEntry) : ChangeSet :=
  match entry.changesets.find? fun cs => cs.name = store with
  | some cs => cs.changeset
  | none => []

inductive TraverseError (ε : Type)
  | invalidEndVersion (endVersion : Int)
  | readFailed (index : Nat)
  | unmarshalFailed
  /-- The error of the callback, as it is. -/
  | callback (error : ε)
deriving DecidableEq

section Definitions

variable {P σ ε : Type} [WALCodec P] (log : IndexedLog P) (initialVersion : Nat) (store : Name)

def traverseEntries (fn : Int → ChangeSet → σ → σ × Option ε) :
    Nat → Nat → σ → σ × Option (TraverseError ε)
  | 0, _, s => (s, none)
  | count + 1, index, s =>
    match log.read index with
    | none => (s, some (.readFailed index))
    | some data =>
      match unmarshal data with
      | none => (s, some .unmarshalFailed)
      | some entry =>
        match fn (walVersion index initialVersion) (storeChangeSet store entry) s with
        | (s, some e) => (s, some (.callback e))
        | (s, none) => traverseEntries fn count (index + 1) s

def traverseStateChanges (startVersion endVersion : Int) (fn : Int → ChangeSet → σ → σ × Option ε)
    (s : σ) : σ × Option (TraverseError ε) :=
  if endVersion < 0 then (s, some (.invalidEndVersion endVersion))
  else if log.firstIndex = 0 ∨ log.lastIndex = 0 then (s, none)
  else
    let firstAvailable := walVersion log.firstIndex initialVersion
    let lastAvailable := walVersion log.lastIndex initialVersion
    let endVersion :=
      if endVersion = 0 ∨ endVersion > lastAvailable then lastAvailable else endVersion
    let startVersion := if startVersion < firstAvailable then firstAvailable else startVersion
    if endVersion < startVersion then (s, none)
    else
      let startIndex := walIndex startVersion initialVersion
      let endIndex := walIndex endVersion initialVersion
      traverseEntries log initialVersion store fn (endIndex + 1 - startIndex) startIndex s

end Definitions

def callEach {σ ε : Type} (fn : Int → ChangeSet → σ → σ × Option ε) :
    List (Int × ChangeSet) → σ → σ × Option ε
  | [], s => (s, none)
  | c :: calls, s =>
    match fn c.1 c.2 s with
    | (s, some e) => (s, some e)
    | (s, none) => callEach fn calls s

/-! ## The change set of an entry -/

theorem storeChangeSet_cons (store : Name) (cs : NamedChangeSet) (l : List NamedChangeSet)
    (upgrades : List TreeNameUpgrade) : storeChangeSet store ⟨cs :: l, upgrades⟩ =
      if cs.name = store then cs.changeset else storeChangeSet store ⟨l, upgrades⟩ := by
  unfold storeChangeSet
  by_cases h : cs.name = store <;> simp [h]

theorem storeChangeSet_alike {e e' : WALEntry} (h : e.Alike e') (store : Name) :
    List.Forall₂ KVPair.Alike (storeChangeSet store e) (storeChangeSet store e') := by
  obtain ⟨l, u⟩ := e
  obtain ⟨l', u'⟩ := e'
  have hl : List.Forall₂ NamedChangeSet.Alike l l' := h.changesets
  induction hl with
  | nil => exact .nil
  | @cons c c' l l' hc hl ih =>
    rw [storeChangeSet_cons, storeChangeSet_cons, hc.name]
    split_ifs
    · exact hc.changeset
    · exact ih ⟨hl, h.upgrades⟩

theorem storeChangeSet_eq_pairsFor {store : Name} {entry : WALEntry}
    (h : (entry.changesets.filter fun cs => cs.name = store).length ≤ 1) :
    storeChangeSet store entry = pairsFor store entry.changesets := by
  obtain ⟨l, u⟩ := entry
  induction l with
  | nil => rfl
  | cons cs l ih =>
    rw [storeChangeSet_cons, pairsFor_cons]
    by_cases hn : cs.name = store
    · simp only [hn, decide_true, filter_cons_of_pos, length_cons] at h
      have hnil : l.filter (fun cs => cs.name = store) = [] :=
        eq_nil_of_length_eq_zero (by omega)
      rw [if_pos hn, if_pos hn, pairsFor_eq_nil, append_nil]
      intro c hc heq
      exact filter_eq_nil_iff.mp hnil c hc (decide_eq_true heq)
    · rw [if_neg hn, if_neg hn, nil_append]
      refine ih ?_
      rwa [filter_cons_of_neg (by simpa using hn)] at h

theorem range'_filter {a n lo hi : Nat} {p : Nat → Bool} (hlo : a ≤ lo) (hle : lo ≤ hi)
    (hhi : hi < a + n) (hp : ∀ i, a ≤ i → i < a + n → (p i = true ↔ lo ≤ i ∧ i ≤ hi)) :
    (List.range' a n).filter p = List.range' lo (hi + 1 - lo) := by
  have hsplit : List.range' a n = List.range' a (lo - a) ++
      (List.range' lo (hi + 1 - lo) ++ List.range' (hi + 1) (a + n - (hi + 1))) := by
    have happend : ∀ b m k c, c = b + m →
        List.range' b m ++ List.range' c k = List.range' b (m + k) := by
      rintro b m k c rfl
      exact range'_append_1
    rw [happend lo _ _ (hi + 1) (by omega), happend a _ _ lo (by omega)]
    congr 1
    omega
  have hnone : ∀ b m, (∀ i, b ≤ i → i < b + m → ¬p i = true) → (List.range' b m).filter p = [] :=
    fun b m h => filter_eq_nil_iff.mpr fun i hi => by
      rw [mem_range'_1] at hi
      exact h i hi.1 hi.2
  rw [hsplit, filter_append, filter_append,
    hnone a _ fun i h1 h2 => by rw [hp i h1 (by omega)]; omega,
    hnone (hi + 1) _ fun i h1 h2 => by rw [hp i (by omega) (by omega)]; omega,
    filter_eq_self.mpr, nil_append, append_nil]
  intro i hi
  rw [mem_range'_1] at hi
  rw [hp i (by omega) (by omega)]
  omega

variable {initialVersion : Nat}

theorem walIndex_walVersion {index : Nat} (h : walVersion index initialVersion < 2 ^ 63) :
    walIndex (walVersion index initialVersion) initialVersion = index := by
  unfold walIndex walVersion at *
  split_ifs at * <;> omega

theorem walVersion_le_iff {i j : Nat} :
    walVersion i initialVersion ≤ walVersion j initialVersion ↔ i ≤ j := by
  unfold walVersion
  split_ifs <;> omega

theorem exists_walVersion {i j : Nat} {v : Int} (hi : walVersion i initialVersion ≤ v)
    (hj : v ≤ walVersion j initialVersion) :
    ∃ k, i ≤ k ∧ k ≤ j ∧ walVersion k initialVersion = v := by
  unfold walVersion at *
  split_ifs at *
  · exact ⟨(v - initialVersion + 1).toNat, by omega, by omega, by omega⟩
  · exact ⟨v.toNat, by omega, by omega, by omega⟩

section Traverse

variable {P : Type} [WALCodec P] {log : IndexedLog P} {initialVersion : Nat} {store : Name}

def changeAt (log : IndexedLog P) (initialVersion : Nat) (store : Name) (index : Nat) :
    Int × ChangeSet :=
  (walVersion index initialVersion,
    match (log.read index).bind unmarshal with
    | some entry => storeChangeSet store entry
    | none => [])

theorem traverseEntries_eq {σ ε : Type} (fn : Int → ChangeSet → σ → σ × Option ε) {count index : Nat}
    (hread : ∀ i, index ≤ i → i < index + count → ∃ entry, (log.read i).bind unmarshal = some entry)
    (s : σ) : traverseEntries log initialVersion store fn count index s =
      let r := callEach fn ((List.range' index count).map (changeAt log initialVersion store)) s
      (r.1, r.2.map .callback) := by
  induction count generalizing index s with
  | zero => rfl
  | succ count ih =>
    obtain ⟨entry, hentry⟩ := hread index le_rfl (by omega)
    obtain ⟨data, hdata, hunmarshal⟩ := Option.bind_eq_some_iff.mp hentry
    have hchange : changeAt log initialVersion store index =
        (walVersion index initialVersion, storeChangeSet store entry) := by
      simp only [changeAt, hentry]
    rw [traverseEntries, hdata]
    simp only [hunmarshal, range'_succ, map_cons, callEach, hchange]
    cases hfn : fn (walVersion index initialVersion) (storeChangeSet store entry) s with
    | mk s' e =>
      cases e with
      | some e => rfl
      | none => exact ih (fun i h1 h2 => hread i (by omega) (by omega)) s'

def windowIndices (log : IndexedLog P) (initialVersion : Nat) (startVersion endVersion : Int) :
    List Nat :=
  (List.range' (log.dropped + 1) (log.lastIndex - log.dropped)).filter fun index =>
    startVersion ≤ walVersion index initialVersion ∧
      (endVersion = 0 ∨ walVersion index initialVersion ≤ endVersion)

omit [WALCodec P] in
theorem mem_windowIndices {startVersion endVersion : Int} {index : Nat} :
    index ∈ windowIndices log initialVersion startVersion endVersion ↔
      (log.dropped < index ∧ index ≤ log.lastIndex) ∧ startVersion ≤ walVersion index initialVersion ∧
        (endVersion = 0 ∨ walVersion index initialVersion ≤ endVersion) := by
  have := log.dropped_le_lastIndex
  rw [windowIndices, mem_filter, mem_range'_1, decide_eq_true_iff]
  refine and_congr_left fun _ => ?_
  omega

/-- Clipping the range leaves the indices of the window that it holds. -/
theorem traverseStateChanges_eq {σ ε : Type} (fn : Int → ChangeSet → σ → σ × Option ε)
    (hread : ∀ i, log.dropped < i → i ≤ log.lastIndex →
      ∃ entry, (log.read i).bind unmarshal = some entry)
    (hfit : walVersion log.lastIndex initialVersion < 2 ^ 63) (startVersion : Int) {endVersion : Int}
    (hend : 0 ≤ endVersion) (s : σ) :
    traverseStateChanges log initialVersion store startVersion endVersion fn s =
      let r := callEach fn ((windowIndices log initialVersion startVersion endVersion).map
        (changeAt log initialVersion store)) s
      (r.1, r.2.map .callback) := by
  have hempty : windowIndices log initialVersion startVersion endVersion = [] → (s, none) =
      (let r := callEach fn ((windowIndices log initialVersion startVersion endVersion).map
        (changeAt log initialVersion store)) s
      (r.1, r.2.map (TraverseError.callback (ε := ε)))) := fun h => by
    rw [h]
    rfl
  unfold traverseStateChanges
  rw [if_neg (by omega)]
  by_cases hnil : log.entries = []
  · have h0 : log.lastIndex = 0 := by
      rw [IndexedLog.lastIndex, log.dropped_eq_zero hnil, hnil]
      rfl
    rw [if_pos (.inr h0)]
    refine hempty (eq_nil_iff_forall_not_mem.mpr fun i hi => ?_)
    have := (mem_windowIndices.mp hi).1
    omega
  · have hfirst : log.firstIndex = log.dropped + 1 := if_neg hnil
    have hlen : 0 < log.entries.length := length_pos_of_ne_nil hnil
    have hlast : log.dropped + 1 ≤ log.lastIndex := by
      rw [IndexedLog.lastIndex]
      omega
    rw [if_neg (by omega), hfirst]
    simp only
    -- the clipped bounds
    set last := walVersion log.lastIndex initialVersion with hlastv
    set first := walVersion (log.dropped + 1) initialVersion with hfirstv
    set e := if endVersion = 0 ∨ endVersion > last then last else endVersion with he
    set b := if startVersion < first then first else startVersion with hb
    have hcond : ∀ i, log.dropped + 1 ≤ i → i ≤ log.lastIndex →
        ((startVersion ≤ walVersion i initialVersion ∧
          (endVersion = 0 ∨ walVersion i initialVersion ≤ endVersion)) ↔
        (b ≤ walVersion i initialVersion ∧ walVersion i initialVersion ≤ e)) := by
      intro i h1 h2
      have h1' : first ≤ walVersion i initialVersion := walVersion_le_iff.mpr h1
      have h2' : walVersion i initialVersion ≤ last := walVersion_le_iff.mpr h2
      rw [he, hb]
      split_ifs <;> omega
    split_ifs with hrev
    · refine hempty (eq_nil_iff_forall_not_mem.mpr fun i hi => ?_)
      obtain ⟨⟨h1, h2⟩, hin⟩ := mem_windowIndices.mp hi
      have := (hcond i h1 h2).mp hin
      omega
    · have hb1 : first ≤ b := by
        rw [hb]
        split_ifs <;> omega
      have he1 : e ≤ last := by
        rw [he]
        split_ifs <;> omega
      obtain ⟨lo, hlo1, hlo2, hlov⟩ := exists_walVersion hb1 (show b ≤ last by omega)
      obtain ⟨hi, hhi1, hhi2, hhiv⟩ := exists_walVersion (show first ≤ e by omega) he1
      have hlohi : lo ≤ hi := by
        refine walVersion_le_iff.mp (show walVersion lo initialVersion ≤ walVersion hi initialVersion from ?_)
        omega
      have hloi : walIndex b initialVersion = lo := by
        rw [← hlov]
        exact walIndex_walVersion (by omega)
      have hhii : walIndex e initialVersion = hi := by
        rw [← hhiv]
        exact walIndex_walVersion (by omega)
      have hwindow : windowIndices log initialVersion startVersion endVersion =
          List.range' lo (hi + 1 - lo) := by
        refine range'_filter hlo1 hlohi (by omega) fun i h1 h2 => ?_
        rw [decide_eq_true_iff, hcond i h1 (by omega), ← hlov, ← hhiv, walVersion_le_iff,
          walVersion_le_iff]
      rw [hloi, hhii, hwindow]
      exact traverseEntries_eq fn (fun i h1 h2 => hread i (by omega) (by omega)) s

/-- The callback is called for the versions of the window that the range holds, in increasing
order and once each, with what was committed for the store at that version. A reversed range
calls it for none, and the first error ends the traversal. -/
theorem traverseStateChanges_exact {entries : List WALEntry}
    (hlog : Covers log 0 entries log.dropped log.lastIndex) (hlast : log.lastIndex ≤ entries.length)
    (hfit : walVersion log.lastIndex initialVersion < 2 ^ 63)
    (hone : ∀ e ∈ entries, (e.changesets.filter fun cs => cs.name = store).length ≤ 1)
    (startVersion : Int) {endVersion : Int} (hend : 0 ≤ endVersion) :
    ∃ calls : List (Int × ChangeSet),
      List.Forall₂ (fun index call => call.1 = walVersion index initialVersion ∧
          ∃ e, entries[index - 1]? = some e ∧
            List.Forall₂ KVPair.Alike (pairsFor store e.changesets) call.2)
        (windowIndices log initialVersion startVersion endVersion) calls ∧
      (calls.map Prod.fst).Pairwise (· < ·) ∧
      (0 < endVersion → endVersion < startVersion → calls = []) ∧
      ∀ {σ ε : Type} (fn : Int → ChangeSet → σ → σ × Option ε) (s : σ),
        traverseStateChanges log initialVersion store startVersion endVersion fn s =
          let r := callEach fn calls s
          (r.1, r.2.map .callback) := by
  -- what stands at an index of the window
  have hentry : ∀ i, log.dropped < i → i ≤ log.lastIndex → ∃ e e', entries[i - 1]? = some e ∧
      (log.read i).bind unmarshal = some e' ∧ e.Alike e' := by
    intro i h1 h2
    obtain ⟨e, he⟩ : ∃ e, entries[i - 1]? = some e := ⟨_, getElem?_eq_getElem (by omega)⟩
    obtain ⟨e', hdec, halike⟩ := WALCodec.unmarshal_marshal (P := P) e
    have hread := hlog (i - 1) e (by omega) (by omega) he
    rw [LogHolds, show 0 + (i - 1) + 1 = i by omega] at hread
    exact ⟨e, e', he, by rw [hread, Option.bind_some, hdec], halike⟩
  refine ⟨(windowIndices log initialVersion startVersion endVersion).map
    (changeAt log initialVersion store), ?_, ?_, fun hpos hrev => ?_, fun fn s => ?_⟩
  · rw [forall₂_map_right_iff]
    refine forall₂_same.mpr fun i hi => ⟨rfl, ?_⟩
    obtain ⟨⟨h1, h2⟩, -⟩ := mem_windowIndices.mp hi
    obtain ⟨e, e', he, hdec, halike⟩ := hentry i h1 h2
    refine ⟨e, he, ?_⟩
    rw [← storeChangeSet_eq_pairsFor (hone e (mem_of_getElem? he))]
    simp only [changeAt, hdec]
    exact storeChangeSet_alike halike store
  · rw [map_map, pairwise_map]
    refine (List.Pairwise.filter _ pairwise_lt_range').imp fun {a b} hab => ?_
    exact lt_of_not_ge fun hle => hab.not_ge (walVersion_le_iff.mp hle)
  · rw [map_eq_nil_iff]
    refine eq_nil_iff_forall_not_mem.mpr fun i hi => ?_
    have := (mem_windowIndices.mp hi).2
    omega
  · exact traverseStateChanges_eq fn (fun i h1 h2 =>
      let ⟨_, e', _, hdec, _⟩ := hentry i h1 h2
      ⟨e', hdec⟩) hfit startVersion hend s

end Traverse

/-- A chain that starts at version 5 and whose log has lost the first entry: the store was
written at version 6 only. -/
theorem traverseStateChanges_exact_pruned :
    let log : IndexedLog WALEntry := ⟨1, [⟨[⟨[1], [⟨false, [7], some [8]⟩]⟩], []⟩, ⟨[], []⟩], nofun⟩
    ∃ calls : List (Int × ChangeSet), calls.map Prod.fst = [6, 7] ∧
      ∀ {σ ε : Type} (fn : Int → ChangeSet → σ → σ × Option ε) (s : σ),
        traverseStateChanges log 5 [1] (-3) 0 fn s =
          let r := callEach fn calls s
          (r.1, r.2.map .callback) := by
  intro log
  let entries : List WALEntry := [⟨[], []⟩, ⟨[⟨[1], [⟨false, [7], some [8]⟩]⟩], []⟩, ⟨[], []⟩]
  have hlog : Covers log 0 entries log.dropped log.lastIndex := by
    intro k entry h1 h2 hk
    have hk' : k = 1 ∨ k = 2 := by
      have : k < 3 := h2
      have : 1 ≤ k := h1
      omega
    rcases hk' with rfl | rfl <;> exact hk
  obtain ⟨calls, hcalls, -, -, hrun⟩ := traverseStateChanges_exact hlog (by decide)
    (show walVersion 3 5 < 2 ^ 63 by decide)
    (show ∀ e ∈ entries, (e.changesets.filter fun cs => cs.name = [1]).length ≤ 1 by decide) (-3)
    (le_refl 0)
  refine ⟨calls, ?_, hrun⟩
  have hwindow : windowIndices log 5 (-3) 0 = [2, 3] := by decide
  rw [hwindow] at hcalls
  cases hcalls with
  | cons hc hrest =>
    cases hrest with
    | cons hd hrest =>
      cases hrest
      rw [map_cons, map_cons, hc.1, hd.1]
      decide

end CronosStore.Memiavl
