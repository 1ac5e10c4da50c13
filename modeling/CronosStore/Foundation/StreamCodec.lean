import CronosStore.Foundation.Bytes

/-!
# Streams of items

A writer puts items into a stream of bytes one after the other and a reader takes them out again. Both
may remember something between two items. If what they remember stays related whatever the next item
is (`Lockstep`), then the reader gives the items that were written, and stands where the writer has
stopped (`Lockstep.reads_writeAll`).
-/

namespace Foundation

structure StreamCodec (σ τ α ε : Type) where
  write : σ → α → Bytes × σ
  read : τ → Bytes → Except ε (α × Bytes × τ)

namespace StreamCodec

variable {σ τ α ε : Type} (c : StreamCodec σ τ α ε)

def writeAll : σ → List α → Bytes
  | _, [] => []
  | s, a :: l => (c.write s a).1 ++ writeAll (c.write s a).2 l

def written (s : σ) (l : List α) : σ := l.foldl (fun s a => (c.write s a).2) s

def readAll : Nat → τ → Bytes → List α × Option ε
  | 0, _, _ => ([], none)
  | n + 1, t, b =>
    match c.read t b with
    | .error e => ([], some e)
    | .ok (a, b, t) => ((a :: (readAll n t b).1), (readAll n t b).2)

inductive Reads : τ → Bytes → List α → τ → Bytes → Prop
  | nil (t : τ) (b : Bytes) : Reads t b [] t b
  | cons {t t' t'' : τ} {b b' b'' : Bytes} {a : α} {l : List α} (h : c.read t b = .ok (a, b', t'))
      (rest : Reads t' b' l t'' b'') : Reads t b (a :: l) t'' b''

/-- An item is read back with any bytes behind it, and both sides stay related. -/
structure Lockstep (related : σ → τ → Prop) (writable : α → Prop) : Prop where
  step : ∀ {s t a}, related s t → writable a →
    ∃ t', (∀ b, c.read t ((c.write s a).1 ++ b) = .ok (a, b, t')) ∧ related (c.write s a).2 t'

variable {c} {s : σ} {t t' : τ} {b b' : Bytes} {l : List α} {e : ε} {related : σ → τ → Prop}
  {writable : α → Prop}

theorem writeAll_append (l l' : List α) :
    c.writeAll s (l ++ l') = c.writeAll s l ++ c.writeAll (c.written s l) l' := by
  induction l generalizing s with
  | nil => rfl
  | cons a l ih => rw [List.cons_append, writeAll, writeAll, ih, List.append_assoc, written, written, List.foldl_cons]

theorem Reads.readAll_eq (h : c.Reads t b l t' b') (hend : c.read t' b' = .error e) {n : Nat}
    (hn : l.length < n) : c.readAll n t b = (l, some e) := by
  induction h generalizing n with
  | nil t b =>
    cases n with
    | zero => omega
    | succ n => rw [readAll, hend]
  | cons hread _ ih =>
    cases n with
    | zero => omega
    | succ n =>
      rw [readAll, hread]
      simp only [ih hend (Nat.lt_of_succ_lt_succ hn)]

theorem Lockstep.reads_writeAll (h : c.Lockstep related writable) (hst : related s t) (hl : ∀ a ∈ l, writable a)
    (b : Bytes) : ∃ t', c.Reads t (c.writeAll s l ++ b) l t' b ∧ related (c.written s l) t' := by
  induction l generalizing s t with
  | nil => exact ⟨t, .nil t b, hst⟩
  | cons a l ih =>
    obtain ⟨ha, hl⟩ := List.forall_mem_cons.mp hl
    obtain ⟨t1, hread, hst1⟩ := h.step hst ha
    obtain ⟨t', hreads, hst'⟩ := ih hst1 hl
    refine ⟨t', .cons ?_ hreads, hst'⟩
    rw [writeAll, List.append_assoc]
    exact hread _

end StreamCodec

end Foundation
