import CronosStore.Foundation.Tiling
import CronosStore.VersionDB.SorterOptions

/-!
# The ranges of a dump

`versiondb/client/dump.go`: `DumpChangeSetCmd` cuts the versions of a store into chunks, one for each output
file, and `splitWorkLoad` cuts a chunk into a range for each worker. Both are loops that go up by a fixed
step and end a range early where the whole ends. Their bounds are `int64`; as long as none of them overflows,
the ranges tile what they are cut from (`rangeLoop_spec`, `splitWorkLoad_spec`), so that the tasks
together visit every version once (`dump_visits_once`).
-/

namespace CronosStore.VersionDB

open Foundation List

/-- The loop `for i := start; i < stop; i += step`, whose turns take the range from `i` to the next bound, but
not beyond the stop. -/
def rangeLoop (step stop : Int) : Nat → Int → Option (List Range)
  | 0, _ => none
  | fuel + 1, i =>
    if i < stop then
      let next := addInt64 i step
      (rangeLoop step stop fuel next).map (⟨i, if next > stop then stop else next⟩ :: ·)
    else some []

def workSize (workers : Int) (full : Range) : Int :=
  (addInt64 (addInt64 (addInt64 full.stop (-full.start)) workers) (-1)).tdiv workers

/-- `splitWorkLoad`. The division by no workers panics. -/
def splitWorkLoad (fuel : Nat) (workers : Int) (full : Range) : Option (List Range) :=
  if workers = 0 then none else rangeLoop (workSize workers full) full.stop fuel full.start

def dumpChunks (fuel : Nat) (concurrency chunkSize : Int) (full : Range) : Option (List (Range × List Range)) := do
  let chunks ← rangeLoop chunkSize full.stop fuel full.start
  chunks.mapM fun chunk => (splitWorkLoad fuel concurrency chunk).map (chunk, ·)

/-- The versions that `TraverseStateChanges` visits in a task of `dumpRangeBlocks`. Its last bound is
inclusive. -/
def traversed (blockRange : Range) : List Int :=
  Int.range blockRange.start (addInt64 blockRange.stop (-1) + 1)

def StepsFit (step : Int) (full : Range) : Prop :=
  ∀ i, full.start ≤ i → i < full.stop → step ∣ i - full.start → i + step < 2 ^ 63

def rangeAt (step stop i : Int) : Range := ⟨i, min (i + step) stop⟩

structure BoundsFit (concurrency chunkSize : Int) (full : Range) : Prop where
  chunks : StepsFit chunkSize full
  tasks : ∀ i, full.start ≤ i → i < full.stop → chunkSize ∣ i - full.start →
    let chunk := rangeAt chunkSize full.stop i
    chunk.stop - chunk.start + concurrency - 1 < 2 ^ 63 ∧ StepsFit (workSize concurrency chunk) chunk

variable {stop workers concurrency : Int} {full : Range}

theorem StepsFit.next {step i : Int} (h : StepsFit step ⟨i, stop⟩) (hstep : 0 < step) :
    StepsFit step ⟨i + step, stop⟩ := by
  intro j hj hjstop hdvd
  simp only at hj hjstop hdvd
  have hdvd' : step ∣ j - i := by
    have := Int.dvd_add hdvd (Int.dvd_refl step)
    rwa [show j - (i + step) + step = j - i by omega] at this
  exact h j (by simp only; omega) hjstop hdvd'

/-- The loop ends, and the ranges tile what it goes over. All but the last have the length of the step. -/
theorem rangeLoop_spec {step : Int} (hstep : 0 < step) {i : Int} (hi : -2 ^ 63 ≤ i) (hlt : i < stop)
    (hfits : StepsFit step ⟨i, stop⟩) :
    ∃ l, (∀ fuel, (stop - i).toNat < fuel → rangeLoop step stop fuel i = some l) ∧ Tiles i l stop ∧
      l.length * step < stop - i + step ∧
      ∀ r ∈ l, i ≤ r.start ∧ r.start < stop ∧ step ∣ r.start - i ∧ r = rangeAt step stop r.start := by
  induction hn : (stop - i).toNat using Nat.strong_induction_on generalizing i with
  | h n ih =>
    have hnext : addInt64 i step = i + step :=
      addInt64_eq (by omega) (hfits i le_rfl hlt (by simp))
    have hself : i ≤ i ∧ i < stop ∧ step ∣ i - i := ⟨le_rfl, hlt, by simp⟩
    by_cases hmore : i + step < stop
    · obtain ⟨l, hl, htiles, hlen, hmem⟩ := ih (stop - (i + step)).toNat (by omega) (by omega) hmore
        (hfits.next hstep) rfl
      refine ⟨⟨i, i + step⟩ :: l, ?_, .cons (by omega) htiles, ?_, ?_⟩
      · intro fuel hfuel
        cases fuel with
        | zero => omega
        | succ fuel =>
          rw [rangeLoop, if_pos hlt]
          simp only [hnext]
          rw [hl fuel (by omega), if_neg (by omega)]
          rfl
      · rw [length_cons, Nat.cast_add, Nat.cast_one, Int.add_mul]
        omega
      · intro r hr
        rcases mem_cons.mp hr with rfl | hr
        · refine ⟨hself.1, hself.2.1, hself.2.2, ?_⟩
          rw [rangeAt, min_eq_left hmore.le]
        · obtain ⟨hge, hrlt, hdvd, heq⟩ := hmem r hr
          have hdvd' := Int.dvd_add hdvd (Int.dvd_refl step)
          rw [show r.start - (i + step) + step = r.start - i by omega] at hdvd'
          exact ⟨by omega, hrlt, hdvd', heq⟩
    · -- the last range, which ends at the stop
      refine ⟨[⟨i, stop⟩], ?_, .cons hlt (.nil stop), ?_, ?_⟩
      · intro fuel hfuel
        obtain ⟨fuel, rfl⟩ : ∃ k, fuel = k + 2 := ⟨fuel - 2, by omega⟩
        have hend : (if i + step > stop then stop else i + step) = stop := by
          split_ifs
          · rfl
          · omega
        rw [rangeLoop, if_pos hlt]
        simp only [hnext, hend]
        rw [rangeLoop, if_neg hmore]
        rfl
      · rw [length_singleton, Nat.cast_one, Int.one_mul]
        omega
      · intro r hr
        rw [mem_singleton.mp hr]
        refine ⟨hself.1, hself.2.1, hself.2.2, ?_⟩
        rw [rangeAt, min_eq_right (not_lt.mp hmore)]

section

variable (hw : 0 < workers) (hlt : full.start < full.stop)
  (hfits : full.stop - full.start + workers - 1 < 2 ^ 63)

include hw hlt hfits

theorem workSize_eq :
    workSize workers full = (full.stop - full.start + workers - 1) / workers := by
  have hsum : addInt64 (addInt64 (addInt64 full.stop (-full.start)) workers) (-1) =
      full.stop - full.start + workers - 1 := by
    unfold addInt64
    omega
  rw [workSize, hsum, Int.tdiv_eq_ediv_of_nonneg (by omega)]

theorem workSize_spec :
    0 < workSize workers full ∧ full.stop - full.start ≤ workers * workSize workers full := by
  rw [workSize_eq hw hlt hfits]
  have hlt' := Int.lt_ediv_add_one_mul_self (full.stop - full.start + workers - 1) hw
  rw [Int.add_mul, Int.one_mul, Int.mul_comm] at hlt'
  have hle : full.stop - full.start ≤ workers * ((full.stop - full.start + workers - 1) / workers) := by omega
  exact ⟨(mul_pos_iff_of_pos_left hw).mp (by omega), hle⟩

theorem workSize_le : workSize workers full ≤ full.stop - full.start := by
  rw [workSize_eq hw hlt hfits]
  apply Int.ediv_le_of_le_mul hw
  have hprod := Int.mul_nonneg (show 0 ≤ full.stop - full.start - 1 by omega) (show 0 ≤ workers - 1 by omega)
  rw [Int.sub_mul, Int.mul_sub, Int.mul_one, Int.one_mul] at hprod
  omega

end

theorem splitWorkLoad_spec (hw : 0 < workers) (hstart : -2 ^ 63 ≤ full.start)
    (hlt : full.start < full.stop) (hsum : full.stop - full.start + workers - 1 < 2 ^ 63)
    (hfits : StepsFit (workSize workers full) full) :
    ∃ l, (∀ fuel, (full.stop - full.start).toNat < fuel → splitWorkLoad fuel workers full = some l) ∧
      Tiles full.start l full.stop ∧ l.length ≤ workers := by
  obtain ⟨hpos, hle⟩ := workSize_spec hw hlt hsum
  obtain ⟨l, hl, htiles, hlen, -⟩ := rangeLoop_spec hpos hstart hlt hfits
  refine ⟨l, ?_, htiles, ?_⟩
  · intro fuel hfuel
    rw [splitWorkLoad, if_neg (by omega)]
    exact hl fuel hfuel
  · have hcount : l.length * workSize workers full < (workers + 1) * workSize workers full := by
      rw [Int.add_mul, Int.one_mul]
      omega
    have := lt_of_mul_lt_mul_right hcount hpos.le
    omega

/-- It is enough that a chunk may begin at the last version and that there is room for the workers. -/
theorem boundsFit_of_lt {chunkSize : Int}
    (hworkers : 0 < concurrency) (hstop : full.stop - 1 + chunkSize < 2 ^ 63)
    (hsum : chunkSize + concurrency - 1 < 2 ^ 63) : BoundsFit concurrency chunkSize full where
  chunks i _ hi _ := by omega
  tasks i hi hlt _ := by
    have hstart : (rangeAt chunkSize full.stop i).start = i := rfl
    have hend : (rangeAt chunkSize full.stop i).stop = min (i + chunkSize) full.stop := rfl
    refine ⟨by omega, fun j _ hj _ => ?_⟩
    have hsize : workSize concurrency (rangeAt chunkSize full.stop i) ≤ _ :=
      workSize_le hworkers (by omega) (by omega)
    omega

theorem traversed_eq {r : Range} (hlt : -2 ^ 63 < r.stop)
    (hstop : r.stop < 2 ^ 63) : traversed r = r.members := by
  rw [traversed, addInt64_eq (by omega) (by omega), Range.members, show r.stop + -1 + 1 = r.stop by omega]

structure Worked (concurrency : Int) (c : Range × List Range) : Prop where
  tiles : Tiles c.1.start c.2 c.1.stop
  tasks : c.2.length ≤ concurrency

theorem mapM_splitWorkLoad {bound : Nat} {l : List Range}
    (h : ∀ r ∈ l, ∃ tasks, (∀ fuel, bound < fuel → splitWorkLoad fuel concurrency r = some tasks) ∧
      Worked concurrency (r, tasks)) :
    ∃ chunks, (∀ fuel, bound < fuel →
        (l.mapM fun chunk => (splitWorkLoad fuel concurrency chunk).map (chunk, ·)) = some chunks) ∧
      chunks.map Prod.fst = l ∧ ∀ c ∈ chunks, Worked concurrency c := by
  induction l with
  | nil => exact ⟨[], fun _ _ => rfl, rfl, by simp⟩
  | cons r l ih =>
    obtain ⟨⟨tasks, htasks, hworked⟩, h⟩ := forall_mem_cons.mp h
    obtain ⟨chunks, hchunks, hfst, hall⟩ := ih h
    refine ⟨(r, tasks) :: chunks, ?_, by rw [map_cons, hfst], forall_mem_cons.mpr ⟨hworked, hall⟩⟩
    intro fuel hfuel
    rw [mapM_cons, htasks fuel hfuel, hchunks fuel hfuel]
    rfl

theorem dumpChunks_spec {chunkSize : Int} (hstart : -2 ^ 63 ≤ full.start)
    (hlt : full.start < full.stop) (hchunk : 0 < chunkSize) (hworkers : 0 < concurrency)
    (hfits : BoundsFit concurrency chunkSize full) :
    ∃ chunks, (∀ fuel, (full.stop - full.start).toNat < fuel →
        dumpChunks fuel concurrency chunkSize full = some chunks) ∧
      Tiles full.start (chunks.map Prod.fst) full.stop ∧ ∀ c ∈ chunks, Worked concurrency c := by
  obtain ⟨l, hl, htiles, -, hmem⟩ := rangeLoop_spec hchunk hstart hlt hfits.chunks
  have hsplit : ∀ r ∈ l, ∃ tasks, (∀ fuel, (full.stop - full.start).toNat < fuel →
      splitWorkLoad fuel concurrency r = some tasks) ∧ Worked concurrency (r, tasks) := by
    intro r hr
    obtain ⟨hge, hrlt, hdvd, heq⟩ := hmem r hr
    obtain ⟨hsum, hsteps⟩ := hfits.tasks r.start hge hrlt hdvd
    rw [← heq] at hsum hsteps
    have hstop : r.stop ≤ full.stop := by
      rw [heq]
      exact min_le_right _ _
    obtain ⟨tasks, htasks, htile, hcount⟩ := splitWorkLoad_spec hworkers (by omega) (htiles.start_lt_stop hr) hsum
      hsteps
    exact ⟨tasks, fun fuel hfuel => htasks fuel (by omega), htile, hcount⟩
  obtain ⟨chunks, hchunks, hfst, hworked⟩ := mapM_splitWorkLoad hsplit
  refine ⟨chunks, ?_, hfst ▸ htiles, hworked⟩
  intro fuel hfuel
  rw [dumpChunks, hl fuel hfuel]
  exact hchunks fuel hfuel

theorem tiles_tasks {start : Int} {chunks : List (Range × List Range)}
    (htiles : Tiles start (chunks.map Prod.fst) stop) (hworked : ∀ c ∈ chunks, Worked concurrency c) :
    Tiles start (chunks.flatMap Prod.snd) stop := by
  induction chunks generalizing start with
  | nil => exact htiles
  | cons c chunks ih =>
    obtain ⟨⟨a, b⟩, tasks⟩ := c
    obtain ⟨hc, hall⟩ := forall_mem_cons.mp hworked
    rw [map_cons] at htiles
    cases htiles with
    | cons _ rest => exact hc.tiles.append (ih rest hall)

/-- The loops end. A chunk has at most as many tasks as there are workers, no task is empty, and the tasks in
order are the versions from the start up to the end, each of which is visited once. -/
theorem dump_visits_once {start stop chunkSize concurrency : Int} (hstart : -2 ^ 63 ≤ start)
    (hstop : stop < 2 ^ 63)
    (hlt : start < stop) (hchunk : 1 ≤ chunkSize) (hworkers : 1 ≤ concurrency)
    (hfits : BoundsFit concurrency chunkSize ⟨start, stop⟩) :
    ∃ chunks : List (Range × List Range),
      (∀ fuel, (stop - start).toNat < fuel → dumpChunks fuel concurrency chunkSize ⟨start, stop⟩ = some chunks) ∧
      (∀ c ∈ chunks, c.2.length ≤ concurrency ∧ ∀ r ∈ c.2, r.start < r.stop) ∧
      (chunks.flatMap Prod.snd).flatMap Range.members = Int.range start stop ∧
      (chunks.flatMap Prod.snd).flatMap traversed = Int.range start stop := by
  obtain ⟨chunks, hchunks, htiles, hworked⟩ := dumpChunks_spec hstart hlt hchunk hworkers hfits
  have htasks : Tiles start (chunks.flatMap Prod.snd) stop := tiles_tasks htiles hworked
  refine ⟨chunks, hchunks, ?_, htasks.flatMap_members, ?_⟩
  · intro c hc
    exact ⟨(hworked c hc).tasks, fun r hr => (hworked c hc).tiles.start_lt_stop hr⟩
  · rw [← htasks.flatMap_members]
    apply flatMap_congr
    intro r hr
    obtain ⟨hge, hle⟩ := htasks.bounds hr
    have := htasks.start_lt_stop hr
    exact traversed_eq (by omega) (by omega)

/-- Versions 1 to 11 in chunks of 4 for 3 workers. -/
theorem dump_visits_once_eleven :
    ∃ chunks : List (Range × List Range), dumpChunks 12 3 4 ⟨1, 12⟩ = some chunks ∧
      chunks.map (fun c => c.2.map fun r => (r.start, r.stop)) =
        [[(1, 3), (3, 5)], [(5, 7), (7, 9)], [(9, 10), (10, 11), (11, 12)]] ∧
      (chunks.flatMap Prod.snd).flatMap traversed = Int.range 1 12 := by
  have hfits : BoundsFit 3 4 ⟨1, 12⟩ := boundsFit_of_lt (by decide) (by decide) (by decide)
  obtain ⟨chunks, hchunks, -, -, hvisits⟩ := dump_visits_once (by decide) (by decide) (by decide) (by decide)
    (by decide) hfits
  have hrun := hchunks 12 (by decide)
  refine ⟨chunks, hrun, ?_, hvisits⟩
  have hlist : (dumpChunks 12 3 4 ⟨1, 12⟩).map (fun chunks => chunks.map fun c => c.2.map fun r => (r.start, r.stop)) =
      some [[(1, 3), (3, 5)], [(5, 7), (7, 9)], [(9, 10), (10, 11), (11, 12)]] := by decide
  rw [hrun] at hlist
  exact Option.some.inj hlist

end CronosStore.VersionDB
