import CronosStore.Foundation.ByteReader
import CronosStore.Foundation.Loop
import CronosStore.Memiavl.Replay

/-!
# Files of change sets

The format of `versiondb/client/changeset.go`: for each version a header with the version and the
size of the payload, then the pairs. `WriteChangeSet`, `ReadChangeSet` and the loop of
`IterateChangeSets`, on the bytes of a file after decompression. What a file holds is the list of
change sets that are read until the reader fails (`fileChangeSets`); the end of the file is a
failure as well, and the one that is expected.

A key or value of a length that there is no memory for panics; here it is an error of the reader.
-/

namespace CronosStore.VersionDB

open Foundation Memiavl List

def toInt64 (n : Nat) : Int := if n < 2 ^ 63 then n else n - 2 ^ 64

def uvarintSize (num : Nat) : Nat :=
  let q := bitLen num / 7
  if bitLen num % 7 > 0 ∨ q = 0 then q + 1 else q

def encodedSizeOfKVPair (pair : KVPair) : Nat :=
  let size := 1 + uvarintSize pair.key.length + pair.key.length
  if pair.delete then size
  else size + uvarintSize (pair.value.getD []).length + (pair.value.getD []).length

/-- `encodeKVPair`. The buffer has the size that `encodedSizeOfKVPair` gives and is filled to
its end (`length_encodeKVPair`). -/
def encodeKVPair (pair : KVPair) : Bytes :=
  (if pair.delete then 1 else 0) :: putUvarint pair.key.length ++ pair.key ++
    if pair.delete then []
    else putUvarint (pair.value.getD []).length ++ pair.value.getD []

def writeChangeSet (version : Int) (cs : ChangeSet) : Bytes :=
  let payload := cs.flatMap encodeKVPair
  putLE 8 (version % 2 ^ 64).toNat ++ putLE 8 payload.length ++ payload

def readKVPair (b : Bytes) : Except ReadError (KVPair × Bytes) := do
  let (deletion, b) ← readByte b
  let (keyLen, b) ← readUvarint b
  let (key, b) ← readFull keyLen b
  if deletion = 1 then pure (⟨true, key, none⟩, b)
  else
    let (valueLen, b) ← readUvarint b
    let (value, b) ← readFull valueLen b
    pure (⟨false, key, some value⟩, b)

inductive ChangeSetError
  | read (error : ReadError)
  | beyondPayload (size offset : Int)
deriving DecidableEq

/-- The pairs of a payload of `size` bytes from `offset` on. Every pair takes a byte, so fuel
for the bytes that are left is enough. -/
def readPairs (size : Int) : Nat → Int → Bytes → Except ChangeSetError (ChangeSet × Bytes)
  | 0, _, _ => .error (.read .eof)
  | fuel + 1, offset, b =>
    if offset < size then
      match readKVPair b with
      | .error e => .error (.read e)
      | .ok (pair, b) =>
        match readPairs size fuel (offset + encodedSizeOfKVPair pair) b with
        | .error e => .error e
        | .ok (pairs, b) => .ok (pair :: pairs, b)
    else if offset ≠ size then .error (.beyondPayload size offset)
    else .ok ([], b)

def readParsed (b : Bytes) : Except ChangeSetError (Int × ChangeSet × Int × Bytes) :=
  match readFull 16 b with
  | .error e => .error (.read e)
  | .ok (versionHeader, rest) =>
    let size := toInt64 (readLE (versionHeader.drop 8))
    if size = 0 then .ok (toInt64 (readLE (versionHeader.take 8)), [], 16, rest)
    else
      match readPairs size (rest.length + 1) 0 rest with
      | .error e => .error e
      | .ok (changeSet, rest) =>
        .ok (toInt64 (readLE (versionHeader.take 8)), changeSet, size + 16, rest)

structure Iterated (σ ε : Type) where
  lastCompleteOffset : Int
  state : σ
  err : Option ε
deriving DecidableEq

def Iterated.result {σ ε : Type} (r : Iterated σ ε) : Except ε σ :=
  match r.err with
  | some e => .error e
  | none => .ok r.state

section Iterate

variable {σ ε : Type}

/-- The loop of `IterateChangeSets` and `IterateVersions`, with a callback that says if it goes on. The
end of the file is no error, whether it is the normal one or not. -/
def iterateOffsets (read : Bytes → Except ChangeSetError (Int × ChangeSet × Int × Bytes))
    (readFailed : ChangeSetError → ε) (fn : Int → ChangeSet → σ → Except ε (Bool × σ)) :
    Nat → Bytes → Int → σ → Iterated σ ε
  | 0, _, lastCompleteOffset, s => ⟨lastCompleteOffset, s, none⟩
  | fuel + 1, b, lastCompleteOffset, s =>
    match read b with
    | .error e => ⟨lastCompleteOffset, s, if e = .read .eof then none else some (readFailed e)⟩
    | .ok (version, changeSet, offset, b) =>
      match fn version changeSet s with
      | .error e => ⟨lastCompleteOffset, s, some e⟩
      | .ok (cont, s) =>
        if cont then iterateOffsets read readFailed fn fuel b (lastCompleteOffset + offset) s
        else ⟨lastCompleteOffset + offset, s, none⟩

def iterateChangeSets (readFailed : ChangeSetError → ε)
    (fn : Int → ChangeSet → σ → Except ε (Bool × σ)) (b : Bytes) (s : σ) : Iterated σ ε :=
  iterateOffsets readParsed readFailed fn (b.length + 1) b 0 s

/-! ## What a file holds -/

def changeSetsFrom : Nat → Bytes → List (Int × ChangeSet) × ChangeSetError
  | 0, _ => ([], .read .eof)
  | fuel + 1, b =>
    match readParsed b with
    | .error e => ([], e)
    | .ok (version, changeSet, _, b) =>
      ((version, changeSet) :: (changeSetsFrom fuel b).1, (changeSetsFrom fuel b).2)

def fileChangeSets (b : Bytes) : List (Int × ChangeSet) × ChangeSetError :=
  changeSetsFrom (b.length + 1) b

def iterateList (readFailed : ChangeSetError → ε) (fn : Int → ChangeSet → σ → Except ε (Bool × σ))
    (last : ChangeSetError) : List (Int × ChangeSet) → σ → Except ε σ
  | [], s => if last = .read .eof then .ok s else .error (readFailed last)
  | (version, changeSet) :: l, s =>
    match fn version changeSet s with
    | .error e => .error e
    | .ok (cont, s) => if cont then iterateList readFailed fn last l s else .ok s

theorem iterateOffsets_result (readFailed : ChangeSetError → ε)
    (fn : Int → ChangeSet → σ → Except ε (Bool × σ)) (fuel : Nat) (b : Bytes) (offset : Int) (s : σ) :
    (iterateOffsets readParsed readFailed fn fuel b offset s).result =
      iterateList readFailed fn (changeSetsFrom fuel b).2 (changeSetsFrom fuel b).1 s := by
  induction fuel generalizing b offset s with
  | zero => rfl
  | succ fuel ih =>
    rw [iterateOffsets, changeSetsFrom]
    cases readParsed b with
    | error e =>
      simp only [iterateList]
      split_ifs <;> rfl
    | ok r =>
      obtain ⟨version, changeSet, n, rest⟩ := r
      simp only [iterateList]
      rcases fn version changeSet s with e | ⟨_ | _, s⟩
      · rfl
      · rfl
      · exact ih rest _ s

theorem iterateChangeSets_result (readFailed : ChangeSetError → ε)
    (fn : Int → ChangeSet → σ → Except ε (Bool × σ)) (b : Bytes) (s : σ) :
    (iterateChangeSets readFailed fn b s).result =
      iterateList readFailed fn (fileChangeSets b).2 (fileChangeSets b).1 s :=
  iterateOffsets_result readFailed fn (b.length + 1) b 0 s

theorem readParsed_version {b rest : Bytes} {version n : Int} {changeSet : ChangeSet}
    (h : readParsed b = .ok (version, changeSet, n, rest)) :
    ∃ header rest', readFull 16 b = .ok (header, rest') ∧ version = toInt64 (readLE (header.take 8)) := by
  unfold readParsed at h
  split at h
  · cases h
  · rename_i header rest' hread
    refine ⟨header, rest', hread, ?_⟩
    simp only at h
    split_ifs at h
    · cases h
      rfl
    · split at h <;> cases h
      rfl

end Iterate

/-! ## What was written is read back -/

def decoded (pair : KVPair) : KVPair :=
  ⟨pair.delete, pair.key, if pair.delete then none else some (pair.value.getD [])⟩

def Encodable (cs : ChangeSet) : Prop := (cs.flatMap encodeKVPair).length < 2 ^ 63

theorem uvarintSize_eq {x : Nat} (hx : x < 2 ^ 64) : uvarintSize x = (putUvarint x).length := by
  rw [length_putUvarint hx, uvarintSize]
  split_ifs <;> omega

theorem length_encodeKVPair {pair : KVPair} (h : (encodeKVPair pair).length < 2 ^ 64) :
    encodedSizeOfKVPair pair = (encodeKVPair pair).length ∧ pair.key.length < 2 ^ 64 ∧
      (pair.delete = false → (pair.value.getD []).length < 2 ^ 64) := by
  unfold encodeKVPair at h ⊢
  unfold encodedSizeOfKVPair
  cases hd : pair.delete with
  | true =>
    simp only [hd, if_true, length_append, length_cons, length_nil] at h ⊢
    have hk : pair.key.length < 2 ^ 64 := by omega
    rw [uvarintSize_eq hk]
    exact ⟨by omega, hk, fun h => by cases h⟩
  | false =>
    simp only [hd, Bool.false_eq_true, if_false, length_append, length_cons] at h ⊢
    have hk : pair.key.length < 2 ^ 64 := by omega
    have hx : (pair.value.getD []).length < 2 ^ 64 := by omega
    rw [uvarintSize_eq hk, uvarintSize_eq hx]
    exact ⟨by omega, hk, fun _ => hx⟩

theorem encodedSizeOfKVPair_decoded (pair : KVPair) :
    encodedSizeOfKVPair (decoded pair) = encodedSizeOfKVPair pair := by
  unfold encodedSizeOfKVPair decoded
  cases pair.delete <;> rfl

theorem readKVPair_append {pair : KVPair} (h : (encodeKVPair pair).length < 2 ^ 64) (b : Bytes) :
    readKVPair (encodeKVPair pair ++ b) = .ok (decoded pair, b) := by
  obtain ⟨-, hk, hx⟩ := length_encodeKVPair h
  unfold encodeKVPair readKVPair decoded
  cases hd : pair.delete with
  | true =>
    simp only [if_true, cons_append, append_assoc, nil_append, readByte,
      Results.ok_bind, readUvarint_append hk, readFull_append rfl]
    rfl
  | false =>
    simp only [Bool.false_eq_true, if_false, cons_append, append_assoc, readByte,
      Results.ok_bind, readUvarint_append hk, readFull_append rfl, readUvarint_append (hx hd)]
    rfl

theorem readPairs_append {pairs : ChangeSet} (h : Encodable pairs) {size offset : Int}
    (hsize : size = offset + (pairs.flatMap encodeKVPair).length) {fuel : Nat} (b : Bytes)
    (hfuel : (pairs.flatMap encodeKVPair ++ b).length < fuel) :
    readPairs size fuel offset (pairs.flatMap encodeKVPair ++ b) = .ok (pairs.map decoded, b) := by
  unfold Encodable at h
  induction pairs generalizing offset fuel with
  | nil =>
    have hnil : (List.flatMap encodeKVPair []).length = 0 := rfl
    rw [hnil] at hsize
    cases fuel with
    | zero => omega
    | succ fuel =>
      rw [readPairs, if_neg (by omega), if_neg (by omega)]
      rfl
  | cons pair pairs ih =>
    have hcons : (List.flatMap encodeKVPair (pair :: pairs)).length =
        (encodeKVPair pair).length + (pairs.flatMap encodeKVPair).length := by
      rw [flatMap_cons, length_append]
    rw [length_append] at hfuel
    rw [hcons] at h hsize hfuel
    obtain ⟨hlen, -⟩ := length_encodeKVPair (show (encodeKVPair pair).length < 2 ^ 64 by omega)
    have hpos : 0 < (encodeKVPair pair).length := Nat.succ_pos _
    cases fuel with
    | zero => omega
    | succ fuel =>
      rw [readPairs, if_pos (by omega), flatMap_cons, append_assoc,
        readKVPair_append (by omega)]
      simp only [encodedSizeOfKVPair_decoded, hlen]
      rw [ih (by omega) (by omega) (by rw [length_append]; omega)]
      rfl

theorem toInt64_mod {v : Int} (h0 : -2 ^ 63 ≤ v) (hlt : v < 2 ^ 63) :
    toInt64 ((v % 2 ^ 64).toNat % 256 ^ 8) = v := by
  have hpow : 256 ^ 8 = 2 ^ 64 := rfl
  unfold toInt64
  rw [hpow]
  split_ifs <;> omega

theorem toInt64_length {n : Nat} (h : n < 2 ^ 63) : toInt64 (n % 256 ^ 8) = n := by
  have hpow : 256 ^ 8 = 2 ^ 64 := rfl
  unfold toInt64
  rw [hpow]
  split_ifs <;> omega

theorem length_writeChangeSet (version : Int) (cs : ChangeSet) :
    (writeChangeSet version cs).length = (cs.flatMap encodeKVPair).length + 16 := by
  rw [writeChangeSet, length_append, length_append, length_putLE, length_putLE]
  omega

variable {version : Int} {cs : ChangeSet}

theorem readHeader_append (h0 : -2 ^ 63 ≤ version) (hlt : version < 2 ^ 63) (hcs : Encodable cs) (b : Bytes) :
    ∃ header, readFull 16 (writeChangeSet version cs ++ b) =
        .ok (header, cs.flatMap encodeKVPair ++ b) ∧
      toInt64 (readLE (header.take 8)) = version ∧
      toInt64 (readLE (header.drop 8)) = (cs.flatMap encodeKVPair).length := by
  refine ⟨putLE 8 (version % 2 ^ 64).toNat ++ putLE 8 (cs.flatMap encodeKVPair).length, ?_, ?_, ?_⟩
  · rw [writeChangeSet, append_assoc]
    exact readFull_append (by rw [length_append, length_putLE, length_putLE])
  · rw [take_left' (length_putLE 8 _), readLE_putLE, toInt64_mod h0 hlt]
  · rw [drop_left' (length_putLE 8 _), readLE_putLE, toInt64_length hcs]

theorem readParsed_append (h0 : -2 ^ 63 ≤ version) (hlt : version < 2 ^ 63) (hcs : Encodable cs) (b : Bytes) :
    readParsed (writeChangeSet version cs ++ b) =
      .ok (version, cs.map decoded, (writeChangeSet version cs).length, b) := by
  obtain ⟨header, hread, hversion, hsize⟩ := readHeader_append h0 hlt hcs b
  unfold readParsed
  rw [hread]
  simp only [hversion, hsize, length_writeChangeSet, Nat.cast_add, Nat.cast_ofNat]
  by_cases hempty : ((cs.flatMap encodeKVPair).length : Int) = 0
  · rw [if_pos hempty, hempty]
    cases cs with
    | nil => rfl
    | cons pair cs =>
      simp only [flatMap_cons, length_append, encodeKVPair, cons_append, length_cons] at hempty
      omega
  · rw [if_neg hempty, readPairs_append hcs (by simp) b (by omega)]

end CronosStore.VersionDB
