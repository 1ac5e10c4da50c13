import CronosStore.VersionDB.ChangeSetFile

/-!
# Offsets in files of change sets

`IterateChangeSets` and `IterateVersions` with all that they return: the offset behind the
last change set that was handled, beside the error. The two share their loop and differ in
`ReadChangeSet`, which parses the payload or skips it. The parser finds the end of a payload
by adding up the sizes it computes for the pairs, and skipping relies on the header; both
come to the end of what was written (`iterate_writeChangeSet`).
-/

namespace CronosStore.VersionDB

open Foundation Memiavl List

def readSkipped (b : Bytes) : Except ChangeSetError (Int × ChangeSet × Int × Bytes) :=
  match readFull 16 b with
  | .error e => .error (.read e)
  | .ok (versionHeader, rest) =>
    let size := toInt64 (readLE (versionHeader.drop 8))
    if size ≤ rest.length then
      .ok (toInt64 (readLE (versionHeader.take 8)), [], size + 16, rest.drop size.toNat)
    else .error (.read .eof)

section Loop

variable {σ ε : Type}

def iterateVersions (readFailed : ChangeSetError → ε) (fn : Int → σ → Except ε (Bool × σ))
    (b : Bytes) (s : σ) : Iterated σ ε :=
  iterateOffsets readSkipped readFailed (fun version _ => fn version) (b.length + 1) b 0 s

/-! ## What was written is read to its end -/

variable {version : Int} {cs : ChangeSet}

theorem readSkipped_append (h0 : -2 ^ 63 ≤ version) (hlt : version < 2 ^ 63) (hcs : Encodable cs)
    (b : Bytes) :
    readSkipped (writeChangeSet version cs ++ b) =
      .ok (version, [], (writeChangeSet version cs).length, b) := by
  obtain ⟨header, hread, hversion, hsize⟩ := readHeader_append h0 hlt hcs b
  unfold readSkipped
  rw [hread]
  simp only [hversion, hsize, length_writeChangeSet]
  rw [if_pos (by rw [length_append]; omega), Int.toNat_natCast, drop_left]
  simp only [Except.ok.injEq, Prod.mk.injEq, true_and, and_true]
  omega

/-- A loop that goes on to the end of a file that was written, with a reader that takes one
change set at a time and shows `view` of it. -/
theorem iterateOffsets_writeChangeSet
    {read : Bytes → Except ChangeSetError (Int × ChangeSet × Int × Bytes)} (view : ChangeSet → ChangeSet)
    (hread : ∀ version cs b, -2 ^ 63 ≤ version → version < 2 ^ 63 → Encodable cs →
      read (writeChangeSet version cs ++ b) =
        .ok (version, view cs, (writeChangeSet version cs).length, b))
    (hend : read [] = .error (.read .eof)) (readFailed : ChangeSetError → ε)
    (step : Int → ChangeSet → σ → σ) {l : List (Int × ChangeSet)}
    (h : ∀ e ∈ l, -2 ^ 63 ≤ e.1 ∧ e.1 < 2 ^ 63 ∧ Encodable e.2) {fuel : Nat}
    (hfuel : (l.flatMap fun e => writeChangeSet e.1 e.2).length < fuel) (offset : Int) (s : σ) :
    iterateOffsets read readFailed (fun version cs s => .ok (true, step version cs s)) fuel
        (l.flatMap fun e => writeChangeSet e.1 e.2) offset s =
      ⟨offset + (l.flatMap fun e => writeChangeSet e.1 e.2).length,
        l.foldl (fun s e => step e.1 (view e.2) s) s, none⟩ := by
  induction l generalizing fuel offset s with
  | nil =>
    cases fuel with
    | zero => cases hfuel
    | succ fuel =>
      have hread : read (List.flatMap (fun e : Int × ChangeSet => writeChangeSet e.1 e.2) []) =
          .error (.read .eof) := hend
      rw [iterateOffsets, hread]
      simp
  | cons e l ih =>
    obtain ⟨⟨h0, hlt, hcs⟩, h⟩ := forall_mem_cons.mp h
    have hlen := length_writeChangeSet e.1 e.2
    rw [flatMap_cons, length_append] at hfuel
    cases fuel with
    | zero => cases hfuel
    | succ fuel =>
      rw [flatMap_cons, iterateOffsets, hread e.1 e.2 _ h0 hlt hcs]
      simp only [if_true]
      rw [ih h (by omega), length_append, foldl_cons, Iterated.mk.injEq]
      exact ⟨by omega, rfl, rfl⟩

/-- Whatever change sets are written one behind the other, a callback that always goes on gets
all of them in order, pairs to delete without a value and the others with one, and there is
no error; the offset is the length of the file. If the payloads are skipped, the versions
and the offset are the same. -/
theorem iterate_writeChangeSet (readFailed : ChangeSetError → ε) {l : List (Int × ChangeSet)}
    (h : ∀ e ∈ l, -2 ^ 63 ≤ e.1 ∧ e.1 < 2 ^ 63 ∧ Encodable e.2)
    (step : Int → ChangeSet → σ → σ) (stepVersion : Int → σ → σ) (s : σ) :
    iterateChangeSets readFailed (fun version cs s => .ok (true, step version cs s))
        (l.flatMap fun e => writeChangeSet e.1 e.2) s =
      ⟨(l.flatMap fun e => writeChangeSet e.1 e.2).length,
        l.foldl (fun s e => step e.1 (e.2.map decoded) s) s, none⟩ ∧
    iterateVersions readFailed (fun version s => .ok (true, stepVersion version s))
        (l.flatMap fun e => writeChangeSet e.1 e.2) s =
      ⟨(l.flatMap fun e => writeChangeSet e.1 e.2).length,
        l.foldl (fun s e => stepVersion e.1 s) s, none⟩ := by
  constructor
  · have hparsed := iterateOffsets_writeChangeSet (List.map decoded)
      (fun version cs b h0 hlt hcs => readParsed_append h0 hlt hcs b) rfl readFailed step h
      (Nat.lt_succ_self _) 0 s
    rw [Int.zero_add] at hparsed
    exact hparsed
  · have hskipped := iterateOffsets_writeChangeSet (fun _ => [])
      (fun version cs b h0 hlt hcs => readSkipped_append h0 hlt hcs b) rfl readFailed
      (fun version _ => stepVersion version) h (Nat.lt_succ_self _) 0 s
    rw [Int.zero_add] at hskipped
    exact hskipped

end Loop

/-- An empty change set, and one with a value that is nil and a pair to delete that has one, at
a negative version. -/
theorem iterate_writeChangeSet_mixed :
    iterateChangeSets id
        (fun version cs s => .ok (true, s ++ [(version, cs)]))
        (writeChangeSet 5 [] ++ writeChangeSet (-1) [⟨false, [1], none⟩, ⟨true, [], some [2]⟩]) [] =
      ⟨38, [(5, []), (-1, [⟨false, [1], some []⟩, ⟨true, [], none⟩])], none⟩ := by
  have h : ∀ e ∈ [((5 : Int), ([] : ChangeSet)), (-1, [⟨false, [1], none⟩, ⟨true, [], some [2]⟩])],
      -2 ^ 63 ≤ e.1 ∧ e.1 < 2 ^ 63 ∧ Encodable e.2 := by
    unfold Encodable
    decide
  exact (iterate_writeChangeSet id h (fun version cs s => s ++ [(version, cs)]) (fun _ s => s) []).1

end CronosStore.VersionDB
