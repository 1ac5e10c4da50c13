import Mathlib.Algebra.Order.Ring.Int
import Mathlib.Data.Int.Range
import Mathlib.Data.List.Basic

/-!
# Ranges that follow one another

A list of ranges tiles a range if none of them is empty and each begins where the one before it ends. Then
every number of the range is in just one of them, and they give the numbers in order
(`Tiles.flatMap_members`).
-/

namespace Foundation

open List

structure Range where
  start : Int
  stop : Int
deriving DecidableEq

def Range.members (r : Range) : List Int := Int.range r.start r.stop

inductive Tiles : Int → List Range → Int → Prop
  | nil (a : Int) : Tiles a [] a
  | cons {a b c : Int} {l : List Range} (h : a < b) (rest : Tiles b l c) : Tiles a (⟨a, b⟩ :: l) c

theorem range_append {a b c : Int} (hab : a ≤ b) (hbc : b ≤ c) :
    Int.range a b ++ Int.range b c = Int.range a c := by
  obtain ⟨m, rfl⟩ := Int.le.dest hab
  obtain ⟨n, rfl⟩ := Int.le.dest hbc
  have hm : (a + m - a).toNat = m := by omega
  have hn : (a + m + n - (a + m)).toNat = n := by omega
  have hmn : (a + m + n - a).toNat = m + n := by omega
  rw [Int.range, Int.range, Int.range, hm, hn, hmn, range_add, map_append, map_map]
  congr 1
  apply map_congr_left
  intro k _
  simp only [Function.comp_apply, Nat.cast_add]
  omega

namespace Tiles

variable {a b c : Int} {l l' : List Range}

theorem le (h : Tiles a l c) : a ≤ c := by
  induction h with
  | nil a => exact le_rfl
  | cons hab _ ih => exact hab.le.trans ih

theorem append (h : Tiles a l b) (h' : Tiles b l' c) : Tiles a (l ++ l') c := by
  induction h with
  | nil a => exact h'
  | cons hab _ ih => exact .cons hab (ih h')

theorem start_lt_stop (h : Tiles a l c) {r : Range} (hr : r ∈ l) : r.start < r.stop := by
  induction h with
  | nil a => cases hr
  | cons hab _ ih =>
    rcases mem_cons.mp hr with rfl | hr
    · exact hab
    · exact ih hr

theorem bounds (h : Tiles a l c) {r : Range} (hr : r ∈ l) : a ≤ r.start ∧ r.stop ≤ c := by
  induction h with
  | nil a => cases hr
  | cons hab rest ih =>
    rcases mem_cons.mp hr with rfl | hr
    · exact ⟨le_rfl, rest.le⟩
    · exact ⟨hab.le.trans (ih hr).1, (ih hr).2⟩

theorem flatMap_members (h : Tiles a l c) : l.flatMap Range.members = Int.range a c := by
  induction h with
  | nil a => simp [Int.range]
  | cons hab rest ih =>
    rw [flatMap_cons, ih]
    exact range_append hab.le rest.le

end Tiles

end Foundation
