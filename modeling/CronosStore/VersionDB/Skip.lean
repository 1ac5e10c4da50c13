import CronosStore.VersionDB.Iterate

/-!
# Parsing and skipping a change set

`ReadChangeSet` of `versiondb/client/changeset.go` parses a payload or skips it. The parser adds up the
sizes that the pairs would have if they were written again; the reader takes lengths in any form, so
it may have taken more bytes than were added up. What is skipped is the size of the header. So the two
come to the same place if and only if the lengths of the payload are in their shortest form. A negative
size is refused by the parser, while nothing is skipped for it and the header alone is taken
(`parsed_agrees_iff`).
-/

namespace CronosStore.VersionDB

open Foundation Memiavl List

def encodeFlagged (flag : UInt8) (key value : Bytes) : Bytes :=
  flag :: putUvarint key.length ++ key ++ if flag = 1 then [] else putUvarint value.length ++ value

inductive Shortest : Bytes → Prop
  | nil : Shortest []
  | cons (flag : UInt8) {key value payload : Bytes} (hkey : key.length < 2 ^ 64)
      (hvalue : value.length < 2 ^ 64) (h : Shortest payload) :
      Shortest (encodeFlagged flag key value ++ payload)

def sizeField (b : Bytes) : Int := toInt64 (readLE ((b.take 16).drop 8))

def payload (b : Bytes) : Bytes := (b.drop 16).take (sizeField b).toNat

/-- Parsing and skipping agree on a stream. If the payload is parsed, exactly the bytes that are
returned were read, and skipping gives the same version and number and leaves the same rest; and both
refuse a negative size. -/
structure Agrees (b : Bytes) : Prop where
  parsed : ∀ version changeSet n rest, readParsed b = .ok (version, changeSet, n, rest) →
    n = b.length - rest.length ∧ b.drop n.toNat = rest ∧ readSkipped b = .ok (version, [], n, rest)
  negative : 16 ≤ b.length → sizeField b < 0 →
    (readParsed b).isOk = false ∧ (readSkipped b).isOk = false

/-! ## What is read and what is counted -/

variable {b rest : Bytes}

theorem readField_ok {b1 x : Bytes} {n : Nat} (hn : readUvarint b = .ok (n, b1))
    (hx : readFull n b1 = .ok (x, rest)) :
    x.length < 2 ^ 64 ∧ uvarintSize x.length + x.length + rest.length ≤ b.length ∧
      (b.length ≤ uvarintSize x.length + x.length + rest.length →
        b = putUvarint x.length ++ x ++ rest) := by
  obtain ⟨hlt, hle, heq⟩ := readUvarint_ok hn
  obtain ⟨rfl, rfl⟩ := readFull_ok hx
  rw [uvarintSize_eq hlt]
  simp only [length_append] at hle heq
  refine ⟨hlt, by omega, fun hmin => ?_⟩
  rw [append_assoc]
  exact heq (by omega)

theorem readKVPair_ok {pair : KVPair} (h : readKVPair b = .ok (pair, rest)) :
    encodedSizeOfKVPair pair + rest.length ≤ b.length ∧
      (b.length ≤ encodedSizeOfKVPair pair + rest.length → ∃ flag key value,
        key.length < 2 ^ 64 ∧ value.length < 2 ^ 64 ∧ b = encodeFlagged flag key value ++ rest ∧
          (encodeFlagged flag key value).length = encodedSizeOfKVPair pair) := by
  unfold readKVPair at h
  cases b with
  | nil => cases h
  | cons flag b =>
    simp only [readByte, Results.ok_bind, Results.bind_eq_ok] at h
    obtain ⟨⟨keyLen, b1⟩, hn, ⟨key, b2⟩, hk, h⟩ := h
    obtain ⟨hkey, hle, heq⟩ := readField_ok hn hk
    by_cases hflag : flag = 1
    · rw [if_pos hflag] at h
      cases h
      simp only [encodedSizeOfKVPair, if_true, length_cons]
      refine ⟨by omega, fun hmin => ⟨flag, key, [], hkey, by decide, ?_, ?_⟩⟩
      · rw [encodeFlagged, if_pos hflag, append_nil, cons_append, heq (by omega)]
        rfl
      · rw [encodeFlagged, if_pos hflag, append_nil, cons_append, length_cons,
          length_append, uvarintSize_eq hkey]
        omega
    · rw [if_neg hflag, Results.bind_eq_ok] at h
      obtain ⟨⟨valueLen, b3⟩, hm, h⟩ := h
      rw [Results.bind_eq_ok] at h
      obtain ⟨⟨value, b4⟩, hv, h⟩ := h
      cases h
      obtain ⟨hvalue, hle', heq'⟩ := readField_ok (b := b2) hm hv
      simp only [encodedSizeOfKVPair, Bool.false_eq_true, if_false, length_cons, Option.getD_some]
      refine ⟨by omega, fun hmin => ⟨flag, key, value, hkey, hvalue, ?_, ?_⟩⟩
      · rw [encodeFlagged, if_neg hflag, cons_append, cons_append, heq (by omega),
          heq' (by omega)]
        simp only [cons_append, append_assoc]
      · rw [encodeFlagged, if_neg hflag, uvarintSize_eq hkey, uvarintSize_eq hvalue]
        simp only [length_append, cons_append, length_cons]
        omega

theorem readKVPair_encodeFlagged (flag : UInt8) {key value : Bytes} (hkey : key.length < 2 ^ 64)
    (hvalue : value.length < 2 ^ 64) (rest : Bytes) :
    ∃ pair, readKVPair (encodeFlagged flag key value ++ rest) = .ok (pair, rest) ∧
      encodedSizeOfKVPair pair = (encodeFlagged flag key value).length := by
  unfold encodeFlagged readKVPair
  by_cases hflag : flag = 1
  · refine ⟨⟨true, key, none⟩, ?_, ?_⟩
    · simp only [if_pos hflag, cons_append, append_assoc, nil_append, readByte,
        Results.ok_bind, readUvarint_append hkey, readFull_append rfl]
      rfl
    · simp only [encodedSizeOfKVPair, uvarintSize_eq hkey, if_pos hflag, if_true, cons_append,
        append_nil, length_cons, length_append]
      omega
  · refine ⟨⟨false, key, some value⟩, ?_, ?_⟩
    · simp only [if_neg hflag, cons_append, append_assoc, readByte, Results.ok_bind,
        readUvarint_append hkey, readFull_append rfl, readUvarint_append hvalue]
      rfl
    · simp only [encodedSizeOfKVPair, uvarintSize_eq hkey, uvarintSize_eq hvalue, if_neg hflag,
        Bool.false_eq_true, if_false, Option.getD_some, cons_append, length_cons,
        length_append]
      omega

/-- The parser has taken at least the bytes it counted, and just those if they are in shortest form. -/
theorem readPairs_ok {size offset : Int} {fuel : Nat} {pairs : ChangeSet}
    (h : readPairs size fuel offset b = .ok (pairs, rest)) :
    offset ≤ size ∧ size - offset + rest.length ≤ b.length ∧
      (b.length ≤ size - offset + rest.length → ∃ p, Shortest p ∧ b = p ++ rest) := by
  induction fuel generalizing offset b pairs with
  | zero => cases h
  | succ fuel ih =>
    rw [readPairs] at h
    split_ifs at h with hlt hend
    · cases hr : readKVPair b with
      | error e =>
        rw [hr] at h
        cases h
      | ok r =>
        obtain ⟨pair, b1⟩ := r
        simp only [hr] at h
        obtain ⟨hle, heq⟩ := readKVPair_ok hr
        cases hp : readPairs size fuel (offset + encodedSizeOfKVPair pair) b1 with
        | error e =>
          rw [hp] at h
          cases h
        | ok r =>
          rw [hp] at h
          cases h
          obtain ⟨hoff, hle', heq'⟩ := ih hp
          refine ⟨by omega, by omega, fun hmin => ?_⟩
          obtain ⟨flag, key, value, hkey, hvalue, hb, -⟩ := heq (by omega)
          obtain ⟨p, hshort, hrest⟩ := heq' (by omega)
          refine ⟨encodeFlagged flag key value ++ p, .cons flag hkey hvalue hshort, ?_⟩
          rw [hb, hrest, append_assoc]
    · cases h
      obtain rfl : offset = size := not_ne_iff.mp hend
      exact ⟨le_rfl, by omega, fun _ => ⟨[], .nil, rfl⟩⟩

theorem Shortest.readPairs {p : Bytes} (h : Shortest p) {size offset : Int}
    (hsize : size = offset + p.length) {fuel : Nat} (rest : Bytes) (hfuel : (p ++ rest).length < fuel) :
    ∃ pairs, readPairs size fuel offset (p ++ rest) = .ok (pairs, rest) := by
  induction h generalizing offset fuel with
  | nil =>
    cases fuel with
    | zero => omega
    | succ fuel =>
      rw [length_nil] at hsize
      refine ⟨[], ?_⟩
      rw [VersionDB.readPairs, if_neg (by omega), if_neg (by omega)]
      rfl
  | @cons flag key value payload hkey hvalue _ ih =>
    cases fuel with
    | zero => omega
    | succ fuel =>
      obtain ⟨pair, hread, hlen⟩ := readKVPair_encodeFlagged flag hkey hvalue (payload ++ rest)
      have hpos : 0 < (encodeFlagged flag key value).length := Nat.succ_pos _
      rw [length_append] at hsize
      simp only [length_append] at hfuel
      obtain ⟨pairs, hpairs⟩ := ih (show size = offset + encodedSizeOfKVPair pair + _ by omega)
        (show _ < fuel by rw [length_append]; omega)
      refine ⟨pair :: pairs, ?_⟩
      rw [VersionDB.readPairs, if_pos (by omega), append_assoc, hread]
      simp only [hpairs]

/-- A stream that is parsed has a header, a size that is not negative, and at least that many bytes
after the header. -/
theorem readParsed_ok {version n : Int} {changeSet : ChangeSet}
    (h : readParsed b = .ok (version, changeSet, n, rest)) :
    16 ≤ b.length ∧ 0 ≤ sizeField b ∧ n = sizeField b + 16 ∧ n + rest.length ≤ b.length ∧
      readSkipped b = .ok (version, [], n, b.drop n.toNat) ∧
      (b.length ≤ n + rest.length → Shortest (payload b) ∧ b.drop n.toNat = rest) := by
  unfold readParsed at h
  cases hr : readFull 16 b with
  | error e =>
    rw [hr] at h
    cases h
  | ok r =>
    obtain ⟨header, tail⟩ := r
    obtain ⟨rfl, hlen⟩ := readFull_ok hr
    have htake : (header ++ tail).take 16 = header := take_left' hlen
    have hdrop : (header ++ tail).drop 16 = tail := drop_left' hlen
    have hsize : sizeField (header ++ tail) = toInt64 (readLE (header.drop 8)) := by
      rw [sizeField, htake]
    simp only [hr, ← hsize] at h
    simp only [payload, hdrop, readSkipped, hr, ← hsize, length_append, hlen]
    generalize sizeField (header ++ tail) = size at h ⊢
    split_ifs at h with hzero
    · cases h
      subst hzero
      refine ⟨by omega, le_rfl, rfl, by omega, ?_, fun _ => ⟨?_, hdrop⟩⟩
      · rw [if_pos (by omega)]
        exact congrArg (fun d => Except.ok (_, [], _, d)) hdrop.symm
      · exact .nil
    · cases hp : readPairs size (tail.length + 1) 0 tail with
      | error e =>
        rw [hp] at h
        cases h
      | ok r =>
        simp only [hp] at h
        cases h
        obtain ⟨hnonneg, hle, heq⟩ := readPairs_ok hp
        have hskip : (header ++ tail).drop (size + 16).toNat = tail.drop size.toNat := by
          rw [show (size + 16).toNat = header.length + size.toNat by omega,
            drop_length_add_append]
        refine ⟨by omega, hnonneg, rfl, by omega, ?_, fun hmin => ?_⟩
        · rw [if_pos (by omega), hskip]
        · obtain ⟨p, hshort, rfl⟩ := heq (by omega)
          rw [length_append] at hle hmin
          rw [hskip, take_left' (by omega), drop_left' (by omega)]
          exact ⟨hshort, rfl⟩

theorem readSkipped_negative (hlen : 16 ≤ b.length) (h : sizeField b < 0) :
    (readSkipped b).isOk = true := by
  unfold readSkipped readFull
  unfold sizeField at h
  rw [if_pos hlen]
  simp only
  rw [if_pos (by omega)]
  rfl

theorem readParsed_shortest {version n : Int} {changeSet : ChangeSet}
    (h : readParsed b = .ok (version, changeSet, n, rest)) (hshort : Shortest (payload b)) :
    n + rest.length = b.length := by
  obtain ⟨hlen, hnonneg, hn, hle, -, -⟩ := readParsed_ok h
  unfold readParsed readFull at h
  rw [if_pos hlen] at h
  change (if sizeField b = 0 then _ else _) = _ at h
  split_ifs at h with hzero
  · cases h
    rw [length_drop]
    omega
  · have hpay : (payload b).length = (sizeField b).toNat := by
      rw [payload, length_take, length_drop]
      omega
    have hsplit : b.drop 16 = payload b ++ (b.drop 16).drop (sizeField b).toNat :=
      (take_append_drop _ _).symm
    obtain ⟨pairs, hpairs⟩ := hshort.readPairs (show sizeField b = 0 + _ by omega)
      ((b.drop 16).drop (sizeField b).toNat) (Nat.lt_succ_self _)
    rw [← hsplit] at hpairs
    rw [sizeField] at hpairs
    simp only [hpairs] at h
    cases h
    rw [length_drop, length_drop]
    omega

/-- Parsing and skipping agree if and only if the size is not negative and a payload that is parsed is
in shortest form. -/
theorem parsed_agrees_iff (b : Bytes) :
    Agrees b ↔ ¬(16 ≤ b.length ∧ sizeField b < 0) ∧
      ((readParsed b).isOk = true → Shortest (payload b)) := by
  constructor
  · intro h
    refine ⟨fun ⟨hlen, hneg⟩ => ?_, fun hok => ?_⟩
    · have hskip := (h.negative hlen hneg).2
      rw [readSkipped_negative hlen hneg] at hskip
      cases hskip
    · cases hp : readParsed b with
      | error e =>
        rw [hp] at hok
        cases hok
      | ok r =>
        obtain ⟨version, changeSet, n, rest⟩ := r
        have hn := (h.parsed _ _ _ _ hp).1
        obtain ⟨-, -, -, -, -, hmin⟩ := readParsed_ok hp
        exact (hmin (by omega)).1
  · rintro ⟨hneg, hshort⟩
    refine ⟨fun version changeSet n rest hp => ?_, fun hlen hlt => absurd ⟨hlen, hlt⟩ hneg⟩
    obtain ⟨-, -, -, -, hskip, hmin⟩ := readParsed_ok hp
    have hn := readParsed_shortest hp (hshort (by rw [hp]; rfl))
    have hrest := (hmin (by omega)).2
    rw [hrest] at hskip
    exact ⟨by omega, hrest, hskip⟩

/-- A length of zero in two bytes: the parser takes 20 bytes and returns 19, and what is skipped ends
one byte before. With the size -1, the parser fails and the header alone is skipped. -/
theorem exists_parsed_differs :
    (readParsed (putLE 8 1 ++ putLE 8 3 ++ [0, 0x80, 0x00, 0]) =
        .ok (1, [⟨false, [], some []⟩], 19, []) ∧
      readSkipped (putLE 8 1 ++ putLE 8 3 ++ [0, 0x80, 0x00, 0]) = .ok (1, [], 19, [0]) ∧
      ¬Agrees (putLE 8 1 ++ putLE 8 3 ++ [0, 0x80, 0x00, 0])) ∧
    ((readParsed (putLE 8 1 ++ putLE 8 (2 ^ 64 - 1))).isOk = false ∧
      readSkipped (putLE 8 1 ++ putLE 8 (2 ^ 64 - 1)) = .ok (1, [], 15, []) ∧
      ¬Agrees (putLE 8 1 ++ putLE 8 (2 ^ 64 - 1))) := by
  refine ⟨⟨by rfl, by rfl, fun h => ?_⟩, ⟨by rfl, by rfl, fun h => ?_⟩⟩
  · have hn := (h.parsed 1 [⟨false, [], some []⟩] 19 [] (by rfl)).1
    exact absurd hn (by decide)
  · have hskip := (h.negative (by decide) (by decide)).2
    exact Bool.noConfusion (hskip.symm.trans (show _ = true by rfl))

end CronosStore.VersionDB
