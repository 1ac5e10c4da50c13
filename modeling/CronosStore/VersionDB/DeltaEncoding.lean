import CronosStore.Foundation.StreamCodec
import CronosStore.VersionDB.ExtSort

/-!
# Delta encoding of a stream

`versiondb/extsort/delta_encoding.go`. An encoder and a decoder remember the last item, and an item is
stored as the number of bytes that it shares with the last one and the bytes that follow these.
Both remember the same item after every call, so what is decoded is what was encoded, and the bytes that
are shared are there (`delta_roundTrip`).

The encoder keeps the slice that it is passed. No caller writes to a key later.
-/

namespace CronosStore.VersionDB

open Foundation List

structure DeltaEncoder where
  last : Bytes
deriving DecidableEq

structure DeltaDecoder where
  last : Bytes
deriving DecidableEq

def newDeltaEncoder : DeltaEncoder := ⟨[]⟩

def newDeltaDecoder : DeltaDecoder := ⟨[]⟩

def DeltaEncoder.write (de : DeltaEncoder) (key : Bytes) : Bytes × DeltaEncoder :=
  (deltaWrite de.last key, ⟨key⟩)

def DeltaDecoder.read (dd : DeltaDecoder) (b : Bytes) : Except SorterError (Bytes × Bytes × DeltaDecoder) :=
  (deltaRead dd.last b).map fun (key, b) => (key, b, ⟨key⟩)

def deltaCodec : StreamCodec DeltaEncoder DeltaDecoder Bytes SorterError where
  write := DeltaEncoder.write
  read := DeltaDecoder.read

theorem readUvarint_deltaWrite (last : Bytes) {key : Bytes} (hlen : key.length < 2 ^ 63) (b : Bytes) :
    ∃ b', readUvarint (deltaWrite last key ++ b) = .ok (diffOffset last key, b') := by
  have hkey := (diffOffset_spec last key).2.1
  rw [deltaWrite, append_assoc, append_assoc]
  exact ⟨_, readUvarint_append (by omega) _⟩

theorem deltaCodec_lockstep : deltaCodec.Lockstep
    (fun de dd => dd.last = de.last) fun key => key.length < 2 ^ 63 where
  step {de dd key} hlast hlen := by
    refine ⟨⟨key⟩, fun b => ?_, rfl⟩
    change dd.read (deltaWrite de.last key ++ b) = _
    rw [← hlast, DeltaDecoder.read, deltaRead_append hlen]
    rfl

theorem last_written (de : DeltaEncoder) (items : List Bytes) :
    (deltaCodec.written de items).last = items.getLastD de.last := by
  induction items generalizing de with
  | nil => rfl
  | cons item items ih =>
    rw [StreamCodec.written, foldl_cons, getLastD_cons]
    exact ih _

/-- The items come back, and then the end of the file. Whenever an item is read, the number of bytes that
it shares is read first, and is within the item before it. -/
theorem delta_roundTrip {items : List Bytes} (hlen : ∀ i ∈ items, i.length < 2 ^ 63) :
    (∀ n, items.length < n →
      deltaCodec.readAll n newDeltaDecoder (deltaCodec.writeAll newDeltaEncoder items) =
        (items, some (.read .eof))) ∧
    ∀ before item after, items = before ++ item :: after →
      ∃ dd b shared b',
        deltaCodec.Reads newDeltaDecoder (deltaCodec.writeAll newDeltaEncoder items) before dd b ∧
        dd.last = before.getLastD [] ∧ readUvarint b = .ok (shared, b') ∧ shared ≤ dd.last.length := by
  have hnew : newDeltaDecoder.last = newDeltaEncoder.last := rfl
  constructor
  · intro n hn
    obtain ⟨dd, hreads, -⟩ := deltaCodec_lockstep.reads_writeAll hnew hlen []
    rw [append_nil] at hreads
    exact hreads.readAll_eq rfl hn
  · rintro before item after rfl
    obtain ⟨hbefore, hitem⟩ := forall_mem_append.mp hlen
    obtain ⟨dd, hreads, hlast⟩ := deltaCodec_lockstep.reads_writeAll hnew hbefore
      (deltaCodec.writeAll (deltaCodec.written newDeltaEncoder before) (item :: after))
    rw [← StreamCodec.writeAll_append] at hreads
    obtain ⟨b', hshared⟩ := readUvarint_deltaWrite (deltaCodec.written newDeltaEncoder before).last
      (hitem item mem_cons_self) (deltaCodec.writeAll ⟨item⟩ after)
    refine ⟨dd, _, _, b', hreads, hlast.trans (last_written _ _), hshared, ?_⟩
    rw [hlast]
    exact (diffOffset_spec _ _).1

/-- A longer key, an empty one, and one that is repeated. -/
theorem delta_roundTrip_repeated :
    deltaCodec.readAll 5 newDeltaDecoder [0, 2, 1, 2, 2, 1, 3, 0, 0, 0, 0] =
      ([[1, 2], [1, 2, 3], [], []], some (.read .eof)) := by
  have hlen : ∀ i ∈ ([[1, 2], [1, 2, 3], [], []] : List Bytes), i.length < 2 ^ 63 := by decide
  exact (delta_roundTrip hlen).1 5 (by decide)

end CronosStore.VersionDB
