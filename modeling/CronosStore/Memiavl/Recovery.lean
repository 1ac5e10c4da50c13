import CronosStore.Memiavl.Block

/-!
# From a snapshot and the log back to the live state

A run of blocks leaves a history, and its entries go to the log: one by one when commits are
synchronous, in batches of any sizes when a writer takes them from a queue. Loading the
state of any version of the run and catching up then ends in the live state
(`catchupWAL_refines_commits`).
-/

namespace CronosStore.Memiavl

open Foundation List

def Consecutive (n : Nat) (entries : List WalEntry) : Prop :=
  ∀ k e, entries[k]? = some e → e.index = n + k + 1

theorem Consecutive.cons_iff {n : Nat} {e : WalEntry} {entries : List WalEntry} :
    Consecutive n (e :: entries) ↔ e.index = n + 1 ∧ Consecutive (n + 1) entries := by
  constructor
  · intro h
    refine ⟨h 0 e rfl, fun k d hd => ?_⟩
    have := h (k + 1) d hd
    omega
  · rintro ⟨he, h⟩ k d hd
    cases k with
    | zero =>
      cases hd
      exact he
    | succ k =>
      have := h k d hd
      omega

theorem Consecutive.append_iff {n : Nat} {l l' : List WalEntry} :
    Consecutive n (l ++ l') ↔ Consecutive n l ∧ Consecutive (n + l.length) l' := by
  induction l generalizing n with
  | nil => simp [Consecutive]
  | cons e l ih =>
    rw [cons_append, cons_iff, ih, cons_iff, and_assoc, length_cons]
    rw [show n + 1 + l.length = n + (l.length + 1) by omega]

section Log

variable {P : Type} [WALCodec P]

structure Extends (log log' : IndexedLog P) (entries : List WalEntry) : Prop where
  lastIndex : log'.lastIndex = log.lastIndex + entries.length
  dropped : log'.dropped = log.dropped
  old : ∀ i ≤ log.lastIndex, log'.read i = log.read i
  new : ∀ k e, entries[k]? = some e → MultiTree.LogHolds log' (log.lastIndex + k + 1) e.data

theorem Extends.refl (log : IndexedLog P) : Extends log log [] :=
  ⟨rfl, rfl, fun _ _ => rfl, fun k e he => by cases he⟩

variable {log : IndexedLog P} {entries : List WalEntry}

theorem Extends.trans {log' log'' : IndexedLog P} {l l' : List WalEntry}
    (h : Extends log log' l) (h' : Extends log' log'' l') : Extends log log'' (l ++ l') := by
  have hlast := h.lastIndex
  refine ⟨?_, h'.dropped.trans h.dropped, fun i hi => ?_, fun k e he => ?_⟩
  · rw [h'.lastIndex, hlast, length_append]
    omega
  · rw [h'.old i (by omega), h.old i hi]
  · by_cases hk : k < l.length
    · rw [getElem?_append_left hk] at he
      rw [MultiTree.LogHolds, h'.old _ (by omega)]
      exact h.new k e he
    · rw [getElem?_append_right (by omega)] at he
      have := h'.new _ e he
      rwa [hlast, show log.lastIndex + l.length + (k - l.length) + 1 = log.lastIndex + k + 1 by
        omega] at this

theorem Extends.append (log : IndexedLog P) (e : WalEntry) :
    Extends log (log.append (marshal e.data)) [e] := by
  refine ⟨by simp, by simp, fun i hi => IndexedLog.read_append_of_le hi, fun k d hd => ?_⟩
  obtain ⟨hk, rfl⟩ := List.getElem?_eq_some_iff.mp hd
  obtain rfl : k = 0 := by simpa using hk
  exact IndexedLog.read_append_self

theorem writeBatch_consecutive (h : Consecutive log.lastIndex entries) :
    ∃ log', log.writeBatch (entries.map fun e => (e.index, marshal e.data)) = some log' ∧
      Extends log log' entries := by
  induction entries generalizing log with
  | nil => exact ⟨log, rfl, .refl log⟩
  | cons e entries ih =>
    obtain ⟨he, h⟩ := Consecutive.cons_iff.mp h
    rw [← IndexedLog.lastIndex_append log (marshal e.data)] at h
    obtain ⟨log', hw, hext⟩ := ih h
    refine ⟨log', ?_, (Extends.append log e).trans hext⟩
    rw [map_cons, IndexedLog.writeBatch, if_pos he, hw]

theorem writeEntries_consecutive (h : Consecutive log.lastIndex entries) :
    ∃ log', writeEntries log entries = some log' ∧ Extends log log' entries := by
  have hall : entries.filter (fun e => log.lastIndex < e.index) = entries := by
    refine filter_eq_self.mpr fun e he => ?_
    obtain ⟨k, hk⟩ := mem_iff_getElem?.mp he
    have := h k e hk
    exact decide_eq_true (by omega)
  rw [writeEntries, hall]
  exact writeBatch_consecutive h

theorem writeBatches_consecutive {batches : List (List WalEntry)}
    (h : Consecutive log.lastIndex batches.flatten) :
    ∃ log', batches.foldlM writeEntries log = some log' ∧ Extends log log' batches.flatten := by
  induction batches generalizing log with
  | nil => exact ⟨log, rfl, .refl log⟩
  | cons batch batches ih =>
    rw [flatten_cons, Consecutive.append_iff] at h
    obtain ⟨log1, hw1, hext1⟩ := writeEntries_consecutive h.1
    obtain ⟨log', hw, hext⟩ := ih (hext1.lastIndex ▸ h.2)
    refine ⟨log', ?_, hext1.trans hext⟩
    rw [foldlM_cons, hw1]
    exact hw

theorem Extends.covers {log' : IndexedLog P} (h : Extends log log' entries) (i : Nat) :
    Covers log' log.lastIndex (entries.map WalEntry.data) i entries.length := by
  intro k entry _ hk he
  rw [getElem?_map, Option.map_eq_some_iff] at he
  obtain ⟨e, he, rfl⟩ := he
  exact h.new k e he

end Log

section Run

variable [Sha256]

def DB.commitBlocks (db : DB) : List Block → Except (Failure DBError DB) (List (WalEntry × DB))
  | [] => .ok []
  | block :: blocks =>
    match db.commitBlock block with
    | .error f => .error f
    | .ok (entry, db') =>
      match db'.commitBlocks blocks with
      | .error f => .error f
      | .ok run => .ok ((entry, db') :: run)

theorem DB.commitBlocks_cons {db : DB} {block : Block} {blocks : List Block}
    {run : List (WalEntry × DB)} (h : db.commitBlocks (block :: blocks) = .ok run) :
    ∃ entry db' run', db.commitBlock block = .ok (entry, db') ∧
      db'.commitBlocks blocks = .ok run' ∧ run = (entry, db') :: run' := by
  rw [DB.commitBlocks] at h
  cases h1 : db.commitBlock block with
  | error f => simp only [h1] at h; cases h
  | ok r =>
    obtain ⟨entry, db'⟩ := r
    simp only [h1] at h
    cases h2 : db'.commitBlocks blocks with
    | error f => simp only [h2] at h; cases h
    | ok run' =>
      simp only [h2] at h
      cases h
      exact ⟨entry, db', run', rfl, h2, rfl⟩

def runStates (db : DB) (run : List (WalEntry × DB)) : List MultiTree :=
  db.mtree :: run.map fun r => r.2.mtree

theorem DB.commitBlocks_history {n : Nat} {db : DB} {blocks : List Block}
    {run : List (WalEntry × DB)} {states : List MultiTree} {entries : List WALEntry}
    (hb : db.AtBoundary) (hh : History n (states ++ [db.mtree]) entries)
    (hrun : db.commitBlocks blocks = .ok run) (hlt : ∀ r ∈ run, r.2.mtree.version < 2 ^ 63) :
    History n (states ++ runStates db run) (entries ++ run.map fun r => r.1.data) ∧
      Consecutive (n + entries.length) (run.map Prod.fst) := by
  -- the history grows at its end, block by block
  induction blocks generalizing db run states entries with
  | nil =>
    cases hrun
    simpa [runStates, Consecutive] using hh
  | cons block blocks ih =>
    obtain ⟨entry, db', run', h1, h2, rfl⟩ := commitBlocks_cons hrun
    obtain ⟨hlt1, hlt⟩ := forall_mem_cons.mp hlt
    have hlen : entries.length = states.length := by
      have := hh.length
      simp only [length_append, length_singleton] at this
      omega
    have hget : (states ++ [db.mtree])[entries.length]? = some db.mtree := by
      rw [hlen, getElem?_concat_length]
    have hmem := mem_of_getElem? hget
    obtain ⟨hc, hb', hindex, -⟩ := DB.commitBlock_ok hb (hh.indexed _ hmem) h1
    have hh' := hh.snoc hget (.refl _) hc hlt1
    have hat : db'.mtree.AtIndex (n + entries.length + 1) :=
      (hh.atIndex _ _ hget).commitEntry (hh.indexed _ hmem) hc hlt1
    obtain ⟨hhist, hcons⟩ := ih hb' hh' h2 hlt
    refine ⟨?_, Consecutive.cons_iff.mpr ⟨?_, ?_⟩⟩
    · simpa [runStates] using hhist
    · rw [hindex, hat.walIndex_eq (by omega)]
    · simpa [Nat.add_assoc] using hcons

/-- Take any run of blocks from loaded trees, with the log at their version, and let its
entries be written in batches of any sizes. All of them are accepted, and for every state of
the run, loading a snapshot of it and catching up ends in the live state: the same names,
trees (node by node), versions and commit info. A snapshot can be loaded up to the versions
that the metadata may have. Trees out of lockstep, which `SetInitialVersion` may leave behind, are
not covered. -/
theorem catchupWAL_refines_commits {P : Type} [WALCodec P] {dir : MultiTreeDir} {m : MultiTree}
    (hload : loadMultiTree dir = .ok m)
    (hlock : ∀ entry ∈ m.trees, (entry.tree.version : Int) = m.version) {log : IndexedLog P}
    (hlog : m.AtIndex log.lastIndex) {blocks : List Block} {run : List (WalEntry × DB)}
    (hrun : (DB.new m false).commitBlocks blocks = .ok run)
    (hint64 : ∀ r ∈ run, r.2.mtree.version < 2 ^ 63) {batches : List (List WalEntry)}
    (hbatches : batches.flatten = run.map Prod.fst) :
    ∃ log', batches.foldlM writeEntries log = some log' ∧
      ∀ s ∈ runStates (.new m false) run,
        (s.version ≤ maxUint32 → ∃ l, loadMultiTree (s.writeSnapshot .empty) = .ok l) ∧
        ∀ l, loadMultiTree (s.writeSnapshot .empty) = .ok l →
          ∃ l' live, l.catchupWAL log' 0 = .ok l' ∧
            (runStates (.new m false) run).getLast? = some live ∧ live.Same l' := by
  obtain ⟨hidx, hinfo, hstart, hiv, hver, -⟩ := loadMultiTree_eq_ok hload
  have hbase : History log.lastIndex ([] ++ [(DB.new m false).mtree]) [] :=
    .single ⟨hidx, hinfo, hlock, hstart, hiv⟩ hlog
  obtain ⟨hh, hcons⟩ :=
    DB.commitBlocks_history (DB.atBoundary_new m false) hbase hrun hint64
  rw [nil_append, nil_append] at hh
  rw [length_nil, Nat.add_zero] at hcons
  rw [← hbatches] at hcons
  obtain ⟨log', hw, hext⟩ := writeBatches_consecutive hcons
  rw [hbatches] at hext
  refine ⟨log', hw, fun s hs => ⟨fun hle => ⟨_, loadMultiTree_writeSnapshot
    (hh.committed s hs hle) hle⟩, fun l hl => ?_⟩⟩
  obtain ⟨-, hsl⟩ := hh.load_writeSnapshot hs hl
  have hlen := hh.length
  simp only [length_map] at hlen
  obtain ⟨i, hi⟩ := mem_iff_getElem?.mp hs
  obtain ⟨hilt, -⟩ := List.getElem?_eq_some_iff.mp hi
  obtain ⟨live, hlive⟩ : ∃ live, (runStates (.new m false) run)[run.length]? = some live :=
    ⟨_, getElem?_eq_getElem (by omega)⟩
  have hcov := hext.covers i
  simp only [map_map, length_map] at hcov
  obtain ⟨l', hl', hsame⟩ := hh.catchupWAL_latest hi hlive (by omega) hcov
    (by rw [hext.lastIndex, length_map]) hsl
  refine ⟨l', live, hl', ?_, hsame⟩
  rw [getLast?_eq_getElem?, hlen, Nat.add_sub_cancel]
  exact hlive

end Run

def MultiTree.fresh (initialVersion : Nat) : MultiTree :=
  { MultiTree.newEmptyMultiTree initialVersion with metadata := ⟨some ⟨0, []⟩, initialVersion⟩ }

def mergedBlocks : List Block :=
  [⟨[⟨[2], [], false⟩, ⟨[1], [], false⟩],
      [.applyChangeSets [⟨[2], [⟨false, [7], none⟩]⟩, ⟨[1], [⟨false, [7], some [1]⟩]⟩],
        .applyChangeSet [1] [⟨true, [7], none⟩]]⟩,
    ⟨[], [.applyChangeSet [2] [⟨false, [8], some [3]⟩], .applyChangeSet [1] [⟨false, [9], none⟩]]⟩]

/-- These blocks from the initial version 5 on, written in one batch and replayed. -/
theorem catchupWAL_refines_commits_merged :
    ∃ run log' l' live, @DB.commitBlocks Sha256.zero (.new (.fresh 5) false) mergedBlocks = .ok run ∧
      [run.map Prod.fst].foldlM writeEntries (IndexedLog.empty : IndexedLog WALEntry) = some log' ∧
      @MultiTree.catchupWAL Sha256.zero _ _ (.fresh 5) log' 0 = .ok l' ∧
      MultiTree.version live = 6 ∧ live.Same l' := by
  let _ := Sha256.zero
  have hload : loadMultiTree ((MultiTree.fresh 5).writeSnapshot .empty) = .ok (.fresh 5) := rfl
  obtain ⟨run, hrun⟩ : ∃ run, (DB.new (.fresh 5) false).commitBlocks mergedBlocks = .ok run :=
    ⟨_, rfl⟩
  have hversions : run.map (fun r => r.2.mtree.version) = [5, 6] := by
    have h : ((DB.new (.fresh 5) false).commitBlocks mergedBlocks).map
        (fun run => run.map fun r => r.2.mtree.version) = .ok [5, 6] := by decide
    rw [hrun] at h
    exact Except.ok.inj h
  have hlog : (MultiTree.fresh 5).AtIndex (IndexedLog.empty : IndexedLog WALEntry).lastIndex :=
    ⟨.inr ⟨rfl, rfl⟩, by decide⟩
  have hint64 : ∀ r ∈ run, r.2.mtree.version < 2 ^ 63 := by
    intro r hr
    have hmem : r.2.mtree.version ∈ run.map fun r => r.2.mtree.version := mem_map.mpr ⟨r, hr, rfl⟩
    rw [hversions] at hmem
    revert hmem
    simp only [mem_cons, not_mem_nil, or_false]
    omega
  have hbatches : [run.map Prod.fst].flatten = run.map Prod.fst := append_nil _
  obtain ⟨log', hw, hs⟩ := catchupWAL_refines_commits hload
    (show ∀ entry ∈ [], _ from fun entry he => absurd he not_mem_nil) hlog
    hrun hint64 hbatches
  obtain ⟨l', live, hl', hlive, hsame⟩ := (hs _ mem_cons_self).2 _ hload
  refine ⟨run, log', l', live, hrun, hw, hl', ?_, hsame⟩
  have hlast := congrArg (Option.map MultiTree.version) hlive
  rw [← getLast?_map, runStates, map_cons, map_map] at hlast
  have hmap : run.map (MultiTree.version ∘ fun r => r.2.mtree) = [5, 6] := hversions
  rw [hmap] at hlast
  exact (Option.some.inj hlast).symm

end CronosStore.Memiavl
