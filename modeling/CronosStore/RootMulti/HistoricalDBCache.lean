import CronosStore.Foundation.Lease
import Mathlib.Data.List.Count
import Mathlib.Data.List.Nodup

/-!
# The cache of historical databases

`historicalDBCache` of `store/rootmulti/store.go`: read-only databases by version, with a count
of their borrowers. Entries are pointers into `heap`, which borrowers keep when the cache has
dropped them; databases are numbered as they are loaded, and `closes` counts how often `Close`
was called on each. An entry and its database are a lease (`Foundation.Lease`): borrowers hold
it and the index of the cache retains it.
-/

namespace CronosStore.RootMulti

open Foundation List

structure HistoricalDBEntry where
  version : Int
  db : Nat
  refs : Nat
  evicted : Bool
deriving DecidableEq

structure HistoricalDBCache where
  maxSize : Nat
  /-- The first one is the most recently used. -/
  entries : List Nat
  closed : Bool
  loadSem : Nat
  heap : List HistoricalDBEntry
  closes : List Nat
deriving DecidableEq

namespace HistoricalDBCache

def new (maxSize : Nat) : HistoricalDBCache := ⟨maxSize, [], false, 0, [], []⟩

section

variable (c : HistoricalDBCache)

def closeDB (db : Nat) : HistoricalDBCache :=
  { c with closes := c.closes.modify db (· + 1) }

def lookup (version : Int) : Option (Nat × HistoricalDBCache) :=
  match c.entries.find? fun p => (c.heap[p]?).any (·.version = version) with
  | none => none
  | some p =>
    match c.heap[p]? with
    | none => none
    | some e =>
      some (p, { c with
        heap := c.heap.set p { e with refs := e.refs + 1 }
        entries := p :: c.entries.erase p })

def evict (p : Nat) : HistoricalDBCache :=
  match c.heap[p]? with
  | none => c
  | some e =>
    let c := { c with heap := c.heap.set p { e with evicted := true } }
    if e.refs = 0 then c.closeDB e.db else c

def insert (version : Int) (db : Nat) : Nat × HistoricalDBCache :=
  let c :=
    match c.entries.getLast? with
    | none => c
    | some oldest =>
      if c.entries.length ≥ c.maxSize then { c.evict oldest with entries := c.entries.dropLast }
      else c
  (c.heap.length, { c with
    heap := c.heap ++ [⟨version, db, 1, false⟩]
    entries := c.heap.length :: c.entries })

def release (p : Nat) : Option HistoricalDBCache :=
  match c.heap[p]? with
  | none => none
  | some e =>
    if e.refs = 0 then none
    else
      let c := { c with heap := c.heap.set p { e with refs := e.refs - 1 } }
      some (if e.refs - 1 = 0 ∧ e.evicted = true then c.closeDB e.db else c)

def close : HistoricalDBCache :=
  { c.entries.foldl evict c with closed := true, entries := [] }

/-! ## What the cache keeps -/

def lease (e : HistoricalDBEntry) (closes : Nat) : Lease := ⟨e.refs, !e.evicted, closes⟩

def At (p : Nat) (e : HistoricalDBEntry) : Prop := c.heap[p]? = some e

end

/-- The invariant, for borrowers that hold the entry `p` `holders p` times, and clients that
have a database of their own `owners db` times. -/
structure Sound (c : HistoricalDBCache) (holders owners : Nat → Nat) : Prop where
  nodup : c.entries.Nodup
  lt : ∀ p ∈ c.entries, p < c.heap.length
  mem_iff : ∀ p e, c.At p e → (p ∈ c.entries ↔ e.evicted = false)
  versions : ∀ p q e f, p ∈ c.entries → q ∈ c.entries → c.At p e → c.At q f →
    e.version = f.version → p = q
  length_le : c.entries.length ≤ c.maxSize
  refs : ∀ p e, c.At p e → e.refs = holders p
  leased : ∀ p e, c.At p e → ∃ n, c.closes[e.db]? = some n ∧ (lease e n).Sound
  inj : ∀ p q e f, c.At p e → c.At q f → e.db = f.db → p = q
  owned : ∀ d, 0 < owners d → c.closes[d]? = some 0 ∧ ∀ p e, c.At p e → e.db ≠ d
  settled : ∀ (d n : Nat), c.closes[d]? = some n →
    0 < owners d ∨ (∃ p e, c.At p e ∧ e.db = d) ∨ n = 1
  drained : c.closed = true → c.entries = []

variable {c c' : HistoricalDBCache} {holders holders' owners owners' : Nat → Nat} {p : Nat}
  {e : HistoricalDBEntry}

theorem Sound.congr (h : Sound c holders owners) (hh : ∀ p, holders' p = holders p)
    (ho : ∀ d, owners' d = owners d) : Sound c holders' owners' := by
  rw [funext hh, funext ho]
  exact h

theorem Sound.withLoadSem (h : Sound c holders owners) (n : Nat) :
    Sound { c with loadSem := n } holders owners :=
  ⟨h.nodup, h.lt, h.mem_iff, h.versions, h.length_le, h.refs, h.leased, h.inj, h.owned, h.settled,
    h.drained⟩

theorem getElem?_set_cases {α : Type} {l : List α} {i j : Nat} {a b : α}
    (h : (l.set i a)[j]? = some b) : j = i ∧ b = a ∨ j ≠ i ∧ l[j]? = some b := by
  rw [getElem?_set] at h
  split_ifs at h with hij
  · cases h
    exact .inl ⟨hij.symm, rfl⟩
  · exact .inr ⟨fun hji => hij hji.symm, h⟩

theorem At.of_set (hp : c.At p e) {refs : Nat} {evicted : Bool} {q : Nat} {f : HistoricalDBEntry}
    (hf : (c.heap.set p { e with refs := refs, evicted := evicted })[q]? = some f) :
    ∃ g, c.At q g ∧ g.version = f.version ∧ g.db = f.db := by
  rcases getElem?_set_cases hf with ⟨rfl, rfl⟩ | ⟨-, hf⟩
  · exact ⟨e, hp, rfl, rfl⟩
  · exact ⟨f, hf, rfl, rfl⟩

theorem Sound.update (h : Sound c holders owners) (hp : c.At p e) (refs : Nat) (evicted : Bool)
    {closes : List Nat} {n : Nat}
    (hcloses : ∀ d : Nat, closes[d]? = if d = e.db then some n else c.closes[d]?)
    (hlease : Lease.Sound ⟨refs, !evicted, n⟩)
    (hrefs : ∀ q, holders' q = if q = p then refs else holders q)
    {entries : List Nat} (hnodup : entries.Nodup) (hlen : entries.length ≤ c.maxSize)
    (hmem : ∀ q, q ∈ entries ↔ q ∈ c.entries ∧ (q = p → evicted = false))
    (hkeep : evicted = false → p ∈ c.entries) (hdrained : c.closed = true → entries = []) :
    Sound { c with heap := c.heap.set p { e with refs := refs, evicted := evicted },
                   closes := closes, entries := entries } holders' owners := by
  have hpne : ∀ q f, q ≠ p → c.At q f → f.db ≠ e.db :=
    fun q f hq hf heq => hq (h.inj q p f e hf hp heq)
  refine ⟨hnodup, fun q hq => ?_, fun q f hf => ?_, fun q r f g hq hr hf hg hv => ?_, hlen,
    fun q f hf => ?_, fun q f hf => ?_, fun q r f g hf hg hfg => ?_, fun d hd => ?_,
    fun d m hm => ?_, hdrained⟩
  · rw [length_set]
    exact h.lt q ((hmem q).mp hq).1
  · rcases getElem?_set_cases hf with ⟨rfl, rfl⟩ | ⟨hq, hf⟩
    · rw [hmem]
      exact ⟨fun hq => hq.2 rfl, fun hev => ⟨hkeep hev, fun _ => hev⟩⟩
    · rw [hmem, ← h.mem_iff q f hf]
      exact ⟨fun hm => hm.1, fun hm => ⟨hm, fun heq => absurd heq hq⟩⟩
  · obtain ⟨f', hf', hfv, -⟩ := hp.of_set hf
    obtain ⟨g', hg', hgv, -⟩ := hp.of_set hg
    exact h.versions q r f' g' ((hmem q).mp hq).1 ((hmem r).mp hr).1 hf' hg' (hfv.trans (hv.trans hgv.symm))
  · rw [hrefs]
    rcases getElem?_set_cases hf with ⟨rfl, rfl⟩ | ⟨hq, hf⟩
    · rw [if_pos rfl]
    · rw [if_neg hq]
      exact h.refs q f hf
  · rcases getElem?_set_cases hf with ⟨rfl, rfl⟩ | ⟨hq, hf⟩
    · exact ⟨n, by rw [hcloses, if_pos rfl], hlease⟩
    · obtain ⟨m, hm, hs⟩ := h.leased q f hf
      exact ⟨m, by rw [hcloses, if_neg (hpne q f hq hf)]; exact hm, hs⟩
  · obtain ⟨f', hf', -, hfd⟩ := hp.of_set hf
    obtain ⟨g', hg', -, hgd⟩ := hp.of_set hg
    exact h.inj q r f' g' hf' hg' (hfd.trans (hfg.trans hgd.symm))
  · obtain ⟨hzero, hne⟩ := h.owned d hd
    refine ⟨?_, fun q f hf => ?_⟩
    · rw [hcloses, if_neg (hne p e hp).symm]
      exact hzero
    · obtain ⟨f', hf', -, hfd⟩ := hp.of_set hf
      exact hfd ▸ hne q f' hf'
  · rw [hcloses] at hm
    by_cases hd : d = e.db
    · refine .inr (.inl ⟨p, { e with refs := refs, evicted := evicted }, ?_, hd.symm⟩)
      exact List.getElem?_set_self (List.getElem?_eq_some_iff.mp hp).1
    · rw [if_neg hd] at hm
      rcases h.settled d m hm with ho | ⟨q, f, hf, hfd⟩ | hone
      · exact .inl ho
      · have hq : q ≠ p := by
          rintro rfl
          cases Option.some.inj (hp.symm.trans hf)
          exact hd hfd.symm
        exact .inr (.inl ⟨q, f, (getElem?_set_ne hq.symm).trans hf, hfd⟩)
      · exact .inr (.inr hone)

variable {version : Int} {db : Nat}

theorem lookup_eq_some (hl : c.lookup version = some (p, c')) :
    ∃ e, p ∈ c.entries ∧ c.At p e ∧ e.version = version ∧
      c' = { c with heap := c.heap.set p { e with refs := e.refs + 1 }, entries := p :: c.entries.erase p } := by
  unfold lookup at hl
  cases hf : c.entries.find? fun p => (c.heap[p]?).any (·.version = version) with
  | none =>
    rw [hf] at hl
    cases hl
  | some q =>
    have hq := find?_some hf
    have hmem := mem_of_find?_eq_some hf
    rw [hf] at hl
    cases he : c.heap[q]? with
    | none =>
      rw [he] at hq
      cases hq
    | some e =>
      rw [he] at hq
      simp only [he, Option.some.injEq, Prod.mk.injEq] at hl
      obtain ⟨rfl, rfl⟩ := hl
      exact ⟨e, hmem, he, of_decide_eq_true hq, rfl⟩

theorem lookup_eq_none (hl : c.lookup version = none) (hlt : ∀ q ∈ c.entries, q < c.heap.length) :
    ∀ q ∈ c.entries, ∀ e, c.At q e → e.version ≠ version := by
  intro q hq e he hv
  unfold lookup at hl
  cases hf : c.entries.find? fun p => (c.heap[p]?).any (·.version = version) with
  | none =>
    have := find?_eq_none.mp hf q hq
    rw [he] at this
    exact this (decide_eq_true hv)
  | some p =>
    have hmem := mem_of_find?_eq_some hf
    rw [hf] at hl
    simp only [getElem?_eq_getElem (hlt p hmem)] at hl
    cases hl

theorem Sound.lookup (h : Sound c holders owners) (hl : c.lookup version = some (p, c'))
    (hrefs : ∀ q, holders' q = holders q + if q = p then 1 else 0) :
    Sound c' holders' owners ∧ ∃ e, c'.At p e ∧ e.version = version := by
  obtain ⟨e, hmem, he, hv, rfl⟩ := lookup_eq_some hl
  have hlen : (p :: c.entries.erase p).length = c.entries.length := by
    rw [length_cons, length_erase_of_mem hmem]
    have := length_pos_of_mem hmem
    omega
  have hev : e.evicted = false := (h.mem_iff p e he).mp hmem
  obtain ⟨n, hn, hs⟩ := h.leased p e he
  refine ⟨h.update he (e.refs + 1) e.evicted (n := n) ?_ ?_ ?_ ?_ ?_ ?_ ?_ ?_, _, getElem?_set_self (h.lt p hmem), hv⟩
  · intro d
    split_ifs with hd
    · rw [hd, hn]
    · rfl
  · refine Lease.Sound.borrow hs fun hlost => ?_
    simp [lease, Lease.Lost, hev] at hlost
  · intro q
    rw [hrefs]
    split_ifs with hq
    · rw [hq, h.refs p e he]
    · rfl
  · exact nodup_cons.mpr ⟨h.nodup.not_mem_erase, h.nodup.erase p⟩
  · rw [hlen]
    exact h.length_le
  · intro q
    rw [mem_cons, h.nodup.mem_erase_iff]
    constructor
    · rintro (rfl | ⟨-, hq⟩)
      · exact ⟨hmem, fun _ => hev⟩
      · exact ⟨hq, fun _ => hev⟩
    · rintro ⟨hq, -⟩
      by_cases hqp : q = p
      · exact .inl hqp
      · exact .inr ⟨hqp, hq⟩
  · exact fun _ => hmem
  · intro hclosed
    rw [h.drained hclosed] at hmem
    cases hmem

theorem getElem?_closes {n : Nat} (hn : c.closes[db]? = some n) (b : Prop) [Decidable b] (d : Nat) :
    (if b then c.closeDB db else c).closes[d]? =
      if d = db then some (if b then n + 1 else n) else c.closes[d]? := by
  by_cases hb : b
  · simp only [if_pos hb, closeDB]
    by_cases hd : d = db
    · rw [if_pos hd, hd, getElem?_modify_eq, hn]
      rfl
    · rw [if_neg hd, getElem?_modify_ne _ _ (Ne.symm hd)]
  · simp only [if_neg hb]
    by_cases hd : d = db
    · rw [if_pos hd, hd, hn]
    · rw [if_neg hd]

theorem evict_eq (hp : c.At p e) :
    c.evict p = { c with
      heap := c.heap.set p { e with evicted := true }
      closes := (if e.refs = 0 then c.closeDB e.db else c).closes } := by
  unfold HistoricalDBCache.evict
  rw [hp]
  simp only
  split_ifs
  · rfl
  · rfl

theorem Sound.evict (h : Sound c holders owners) (hmem : p ∈ c.entries) {entries : List Nat}
    (hnodup : entries.Nodup) (hlen : entries.length ≤ c.maxSize)
    (hentries : ∀ q, q ∈ entries ↔ q ∈ c.entries ∧ q ≠ p) :
    Sound { c.evict p with entries := entries } holders owners := by
  obtain ⟨e, he⟩ : ∃ e, c.At p e := ⟨_, getElem?_eq_getElem (h.lt p hmem)⟩
  have hev : e.evicted = false := (h.mem_iff p e he).mp hmem
  obtain ⟨n, hn, hs⟩ := h.leased p e he
  have hretire : Lease.Sound ⟨e.refs, false, if e.refs = 0 then n + 1 else n⟩ := by
    have hr := hs.retire (by simp [lease, hev])
    rw [Lease.retire, Lease.settle_eq] at hr
    simpa [lease, Lease.Lost] using hr
  rw [evict_eq he]
  refine h.update he e.refs true (getElem?_closes hn _) hretire ?_ hnodup hlen ?_ ?_ ?_
  · intro q
    split_ifs with hq
    · rw [hq, h.refs p e he]
    · rfl
  · intro q
    rw [hentries]
    exact ⟨fun hq => ⟨hq.1, fun hqp => absurd hqp hq.2⟩, fun hq => ⟨hq.1, fun hqp => by cases hq.2 hqp⟩⟩
  · intro hfalse
    cases hfalse
  · intro hclosed
    rw [h.drained hclosed] at hmem
    cases hmem

theorem getElem?_concat_cases {α : Type} {l : List α} {j : Nat} {a b : α}
    (h : (l ++ [a])[j]? = some b) : l[j]? = some b ∨ j = l.length ∧ b = a := by
  by_cases hj : j < l.length
  · rw [getElem?_append_left hj] at h
    exact .inl h
  · rw [getElem?_append_right (by omega)] at h
    obtain ⟨hlt, rfl⟩ := List.getElem?_eq_some_iff.mp h
    simp only [length_singleton] at hlt
    refine .inr ⟨by omega, ?_⟩
    simp [show j - l.length = 0 by omega]

theorem At.lt (hp : c.At p e) : p < c.heap.length := (List.getElem?_eq_some_iff.mp hp).1

section

variable (h : Sound c holders owners)
include h

theorem Sound.alloc (hopen : c.closed = false)
    (hroom : c.entries.length < c.maxSize)
    (hnew : ∀ q ∈ c.entries, ∀ e, c.At q e → e.version ≠ version)
    (hzero : holders c.heap.length = 0) (hdb : owners db = 1)
    (hrefs : ∀ q, holders' q = holders q + if q = c.heap.length then 1 else 0)
    (howners : ∀ d, owners' d + (if d = db then 1 else 0) = owners d) :
    Sound { c with
      heap := c.heap ++ [⟨version, db, 1, false⟩]
      entries := c.heap.length :: c.entries } holders' owners' := by
  obtain ⟨hcloses, hfresh⟩ := h.owned db (by omega)
  have hlt : ∀ q ∈ c.entries, q ≠ c.heap.length := fun q hq => Nat.ne_of_lt (h.lt q hq)
  refine ⟨?_, fun q hq => ?_, fun q f hf => ?_, fun q r f g hq hr hf hg hv => ?_, ?_,
    fun q f hf => ?_, fun q f hf => ?_, fun q r f g hf hg hfg => ?_, fun d hd => ?_,
    fun d m hm => ?_, fun hclosed => ?_⟩
  · exact nodup_cons.mpr ⟨fun hm => hlt _ hm rfl, h.nodup⟩
  · rw [length_append, length_singleton]
    rcases mem_cons.mp hq with rfl | hq
    · omega
    · have := h.lt q hq
      omega
  · rw [mem_cons]
    rcases getElem?_concat_cases hf with hf | ⟨rfl, rfl⟩
    · rw [← h.mem_iff q f hf]
      exact ⟨fun hm => hm.resolve_left (Nat.ne_of_lt (At.lt hf)), .inr⟩
    · exact ⟨fun _ => rfl, fun _ => .inl rfl⟩
  · rcases getElem?_concat_cases hf with hf' | ⟨rfl, rfl⟩
    · have hq := (mem_cons.mp hq).resolve_left (Nat.ne_of_lt (At.lt hf'))
      rcases getElem?_concat_cases hg with hg' | ⟨rfl, rfl⟩
      · exact h.versions q r f g hq ((mem_cons.mp hr).resolve_left (Nat.ne_of_lt (At.lt hg'))) hf' hg' hv
      · exact absurd hv (hnew q hq f hf')
    · rcases getElem?_concat_cases hg with hg' | ⟨rfl, rfl⟩
      · exact absurd hv.symm (hnew r ((mem_cons.mp hr).resolve_left (Nat.ne_of_lt (At.lt hg'))) g hg')
      · rfl
  · rw [length_cons]
    exact hroom
  · rw [hrefs]
    rcases getElem?_concat_cases hf with hf | ⟨rfl, rfl⟩
    · rw [if_neg (Nat.ne_of_lt (At.lt hf))]
      exact h.refs q f hf
    · rw [if_pos rfl, hzero]
  · rcases getElem?_concat_cases hf with hf | ⟨rfl, rfl⟩
    · exact h.leased q f hf
    · exact ⟨0, hcloses, rfl⟩
  · rcases getElem?_concat_cases hf with hf' | ⟨rfl, rfl⟩
    · rcases getElem?_concat_cases hg with hg' | ⟨rfl, rfl⟩
      · exact h.inj q r f g hf' hg' hfg
      · exact absurd hfg (hfresh q f hf')
    · rcases getElem?_concat_cases hg with hg' | ⟨rfl, rfl⟩
      · exact absurd hfg.symm (hfresh r g hg')
      · rfl
  · have hne : d ≠ db := by
      rintro rfl
      have := howners d
      rw [if_pos rfl] at this
      omega
    have hd' := howners d
    rw [if_neg hne] at hd'
    obtain ⟨hz, hfr⟩ := h.owned d (by omega)
    refine ⟨hz, fun q f hf => ?_⟩
    rcases getElem?_concat_cases hf with hf | ⟨rfl, rfl⟩
    · exact hfr q f hf
    · exact hne.symm
  · by_cases hd : d = db
    · exact .inr (.inl ⟨c.heap.length, _, getElem?_concat_length, hd.symm⟩)
    · have hd' := howners d
      rw [if_neg hd] at hd'
      rcases h.settled d m hm with ho | ⟨q, f, hf, hfd⟩ | hone
      · exact .inl (by omega)
      · exact .inr (.inl ⟨q, f, (getElem?_append_left (At.lt hf)).trans hf, hfd⟩)
      · exact .inr (.inr hone)
  · rw [hopen] at hclosed
    cases hclosed

theorem Sound.closeDB (hdb : owners db = 1)
    (howners : ∀ d, owners' d + (if d = db then 1 else 0) = owners d) :
    Sound (c.closeDB db) holders owners' := by
  obtain ⟨hzero, hfresh⟩ := h.owned db (by omega)
  have hcloses := getElem?_closes hzero True
  simp only [if_true] at hcloses
  refine ⟨h.nodup, h.lt, h.mem_iff, h.versions, h.length_le, h.refs, fun q f hf => ?_, h.inj,
    fun d hd => ?_, fun d m hm => ?_, h.drained⟩
  · rw [hcloses, if_neg (hfresh q f hf)]
    exact h.leased q f hf
  · have hne : d ≠ db := by
      rintro rfl
      have := howners d
      rw [if_pos rfl] at this
      omega
    have hd' := howners d
    rw [if_neg hne] at hd'
    rw [hcloses, if_neg hne]
    exact h.owned d (by omega)
  · rw [hcloses] at hm
    split_ifs at hm with hd
    · cases hm
      exact .inr (.inr rfl)
    · have hd' := howners d
      rw [if_neg hd] at hd'
      rcases h.settled d m hm with ho | hrest
      · exact .inl (by omega)
      · exact .inr hrest

theorem Sound.load (howners : ∀ d, owners' d = owners d + if d = c.closes.length then 1 else 0) :
    Sound { c with closes := c.closes ++ [0] } holders owners' := by
  have hold : ∀ {d n : Nat}, c.closes[d]? = some n → (c.closes ++ [0])[d]? = some n := fun hd =>
    (List.getElem?_append_left (List.getElem?_eq_some_iff.mp hd).1).trans hd
  refine ⟨h.nodup, h.lt, h.mem_iff, h.versions, h.length_le, h.refs, fun q f hf => ?_, h.inj,
    fun d hd => ?_, fun d m hm => ?_, h.drained⟩
  · obtain ⟨n, hn, hs⟩ := h.leased q f hf
    exact ⟨n, hold hn, hs⟩
  · rw [howners] at hd
    split_ifs at hd with heq
    · subst heq
      refine ⟨getElem?_concat_length, fun q f hf heq => ?_⟩
      obtain ⟨n, hn, -⟩ := h.leased q f hf
      have := (List.getElem?_eq_some_iff.mp hn).1
      omega
    · obtain ⟨hz, hfr⟩ := h.owned d (by omega)
      exact ⟨hold hz, hfr⟩
  · rw [howners]
    rcases getElem?_concat_cases hm with hm | ⟨hd, -⟩
    · rcases h.settled d m hm with ho | hrest
      · exact .inl (by omega)
      · exact .inr hrest
    · rw [if_pos hd]
      exact .inl (by omega)

/-! ## Entries keep their version -/

end

structure Keeps (c c' : HistoricalDBCache) : Prop where
  maxSize : c'.maxSize = c.maxSize
  at' : ∀ p e, c.At p e → ∃ e', c'.At p e' ∧ e'.version = e.version

theorem Keeps.refl (c : HistoricalDBCache) : Keeps c c := ⟨rfl, fun _ e he => ⟨e, he, rfl⟩⟩

theorem Keeps.trans {c'' : HistoricalDBCache} (h : Keeps c c') (h' : Keeps c' c'') : Keeps c c'' := by
  refine ⟨h'.maxSize.trans h.maxSize, fun p e he => ?_⟩
  obtain ⟨e', he', hv⟩ := h.at' p e he
  obtain ⟨e'', he'', hv'⟩ := h'.at' p e' he'
  exact ⟨e'', he'', hv'.trans hv⟩

theorem Keeps.congr {c'' : HistoricalDBCache} (h : Keeps c c') (hmax : c''.maxSize = c'.maxSize)
    (hheap : c''.heap = c'.heap) : Keeps c c'' := by
  refine ⟨hmax.trans h.maxSize, fun p e he => ?_⟩
  obtain ⟨e', he', hv⟩ := h.at' p e he
  exact ⟨e', by rw [At, hheap]; exact he', hv⟩

theorem keeps_set (hp : c.At p e) (refs : Nat) (evicted : Bool) (hmax : c'.maxSize = c.maxSize)
    (hheap : c'.heap = c.heap.set p { e with refs := refs, evicted := evicted }) : Keeps c c' := by
  refine ⟨hmax, fun q f hf => ?_⟩
  by_cases hq : q = p
  · subst hq
    cases Option.some.inj (hp.symm.trans hf)
    refine ⟨{ e with refs := refs, evicted := evicted }, ?_, rfl⟩
    rw [At, hheap]
    exact getElem?_set_self hp.lt
  · refine ⟨f, ?_, rfl⟩
    rw [At, hheap, getElem?_set_ne (Ne.symm hq)]
    exact hf

theorem keeps_lookup (hl : c.lookup version = some (p, c')) : Keeps c c' := by
  obtain ⟨e, -, he, -, rfl⟩ := lookup_eq_some hl
  exact keeps_set he _ _ rfl rfl

theorem keeps_evict (c : HistoricalDBCache) (p : Nat) : Keeps c (c.evict p) := by
  cases he : c.heap[p]? with
  | none =>
    unfold HistoricalDBCache.evict
    rw [he]
    exact .refl c
  | some e =>
    rw [evict_eq he]
    exact keeps_set he _ _ rfl rfl

theorem Sound.release (h : Sound c holders owners) (hp : c.At p e) (hpos : 0 < holders p)
    (hrefs : ∀ q, holders' q + (if q = p then 1 else 0) = holders q) :
    ∃ c', c.release p = some c' ∧ Sound c' holders' owners ∧ Keeps c c' := by
  have hr := h.refs p e hp
  obtain ⟨n, hn, hs⟩ := h.leased p e hp
  have hlease : Lease.Sound ⟨e.refs - 1, !e.evicted,
      if e.refs - 1 = 0 ∧ e.evicted = true then n + 1 else n⟩ := by
    have hr := hs.release (by simpa [lease, hr] using hpos)
    rw [Lease.release, Lease.settle_eq] at hr
    simpa [lease, Lease.Lost, and_comm] using hr
  have hrel : c.release p = some { c with
      heap := c.heap.set p { e with refs := e.refs - 1 }
      closes := (if e.refs - 1 = 0 ∧ e.evicted = true then c.closeDB e.db else c).closes } := by
    unfold HistoricalDBCache.release
    rw [hp]
    simp only
    rw [if_neg (by omega)]
    split_ifs
    · rfl
    · rfl
  refine ⟨_, hrel, ?_, keeps_set hp _ _ rfl rfl⟩
  refine h.update hp (e.refs - 1) e.evicted (getElem?_closes hn _) hlease ?_ h.nodup h.length_le ?_ ?_
    h.drained
  · intro q
    have := hrefs q
    split_ifs with hq
    · subst hq
      rw [if_pos rfl] at this
      omega
    · rw [if_neg hq] at this
      omega
  · intro q
    refine ⟨fun hq => ⟨hq, ?_⟩, fun hq => hq.1⟩
    rintro rfl
    exact (h.mem_iff q e hp).mp hq
  · exact (h.mem_iff p e hp).mpr

/-! ## Inserting and closing -/

theorem evict_fields (c : HistoricalDBCache) (p : Nat) :
    (c.evict p).maxSize = c.maxSize ∧ (c.evict p).closed = c.closed ∧
      (c.evict p).heap.length = c.heap.length := by
  cases he : c.heap[p]? with
  | none =>
    unfold HistoricalDBCache.evict
    rw [he]
    exact ⟨rfl, rfl, rfl⟩
  | some e =>
    rw [evict_eq he]
    exact ⟨rfl, rfl, length_set⟩

theorem dropLast_of_nodup {l : List Nat} (hnd : l.Nodup) {p : Nat} (hp : l.getLast? = some p) :
    p ∈ l ∧ (∀ q, q ∈ l.dropLast ↔ q ∈ l ∧ q ≠ p) ∧ l.dropLast.Nodup := by
  obtain ⟨front, rfl⟩ := getLast?_eq_some_iff.mp hp
  obtain ⟨hfront, -, hdis⟩ := nodup_append.mp hnd
  rw [dropLast_concat]
  refine ⟨by simp, fun q => ?_, hfront⟩
  have hne : q ∈ front → q ≠ p := fun hq => hdis q hq p (mem_singleton_self p)
  simp only [mem_append, mem_singleton]
  constructor
  · intro hq
    exact ⟨.inl hq, hne hq⟩
  · rintro ⟨hq | hq, hqp⟩
    · exact hq
    · exact absurd hq hqp

theorem Sound.insert (h : Sound c holders owners) (hopen : c.closed = false) (hsize : 0 < c.maxSize)
    (hnone : c.lookup version = none) (hzero : holders c.heap.length = 0) (hdb : owners db = 1)
    (hrefs : ∀ q, holders' q = holders q + if q = c.heap.length then 1 else 0)
    (howners : ∀ d, owners' d + (if d = db then 1 else 0) = owners d) :
    (c.insert version db).1 = c.heap.length ∧
      Sound (c.insert version db).2 holders' owners' ∧ Keeps c (c.insert version db).2 ∧
      ∃ e, (c.insert version db).2.At c.heap.length e ∧ e.version = version := by
  have hnew := lookup_eq_none hnone h.lt
  -- the state before the new entry is added
  obtain ⟨c1, heq, hs, hk, hlen, hclosed, hroom, hnew1⟩ : ∃ c1,
      c.insert version db = (c1.heap.length, { c1 with
        heap := c1.heap ++ [⟨version, db, 1, false⟩]
        entries := c1.heap.length :: c1.entries }) ∧
      Sound c1 holders owners ∧ Keeps c c1 ∧ c1.heap.length = c.heap.length ∧ c1.closed = c.closed ∧
      c1.entries.length < c1.maxSize ∧ ∀ q ∈ c1.entries, ∀ e, c1.At q e → e.version ≠ version := by
    unfold HistoricalDBCache.insert
    cases hlast : c.entries.getLast? with
    | none =>
      refine ⟨c, rfl, h, .refl c, rfl, rfl, ?_, hnew⟩
      rw [getLast?_eq_none_iff.mp hlast]
      exact hsize
    | some oldest =>
      by_cases hfull : c.entries.length ≥ c.maxSize
      · simp only [if_pos hfull]
        obtain ⟨hmem, hmem', hnodup⟩ := dropLast_of_nodup h.nodup hlast
        have hpos := length_pos_of_mem hmem
        obtain ⟨hmax, hclosed, hlen⟩ := evict_fields c oldest
        refine ⟨_, rfl, h.evict hmem hnodup ?_ hmem', (keeps_evict c oldest).congr rfl rfl, hlen, hclosed, ?_, ?_⟩
        · rw [length_dropLast]
          have := h.length_le
          omega
        · simp only [length_dropLast, hmax]
          have := h.length_le
          omega
        · intro q hq f hf hv
          obtain ⟨e, he⟩ : ∃ e, c.At q e :=
            ⟨_, getElem?_eq_getElem (h.lt q ((hmem' q).mp hq).1)⟩
          obtain ⟨f', hf', hv'⟩ := (keeps_evict c oldest).at' q e he
          cases Option.some.inj (hf'.symm.trans hf)
          exact hnew q ((hmem' q).mp hq).1 e he (hv'.symm.trans hv)
      · simp only [if_neg hfull]
        exact ⟨c, rfl, h, .refl c, rfl, rfl, by omega, hnew⟩
  rw [heq, ← hlen]
  rw [← hlen] at hzero hrefs
  have hopen1 : c1.closed = false := hclosed.trans hopen
  refine ⟨rfl, hs.alloc hopen1 hroom hnew1 hzero hdb hrefs howners, hk.trans ⟨rfl, fun q f hf => ?_⟩, ?_⟩
  · exact ⟨f, (getElem?_append_left hf.lt).trans hf, rfl⟩
  · exact ⟨_, getElem?_concat_length, rfl⟩

theorem evict_withEntries (c : HistoricalDBCache) (p : Nat) (l : List Nat) :
    HistoricalDBCache.evict { c with entries := l } p = { c.evict p with entries := l } := by
  unfold HistoricalDBCache.evict
  cases c.heap[p]? with
  | none => rfl
  | some e =>
    simp only
    split_ifs
    · rfl
    · rfl

theorem foldl_evict_withEntries (ps : List Nat) (c : HistoricalDBCache) (l : List Nat) :
    ps.foldl evict { c with entries := l } = { ps.foldl evict c with entries := l } := by
  induction ps generalizing c with
  | nil => rfl
  | cons p ps ih => rw [foldl_cons, foldl_cons, evict_withEntries, ih]

theorem Sound.evictAll (h : Sound c holders owners) :
    Sound { c.entries.foldl HistoricalDBCache.evict c with entries := [] } holders owners ∧
      Keeps c { c.entries.foldl HistoricalDBCache.evict c with entries := [] } := by
  -- entries leave the index one by one, from the front
  obtain ⟨l, hl⟩ : ∃ l, c.entries = l := ⟨_, rfl⟩
  induction l generalizing c with
  | nil =>
    have hsame : { c with entries := [] } = c := by rw [← hl]
    rw [hl, foldl_nil, hsame]
    exact ⟨h, .refl c⟩
  | cons p l ih =>
    have hnd := h.nodup
    have hlen := h.length_le
    rw [hl, nodup_cons] at hnd
    rw [hl, length_cons] at hlen
    have hs := h.evict (p := p) (by rw [hl]; exact mem_cons_self) hnd.2 (by omega) fun q => by
      rw [hl, mem_cons]
      constructor
      · intro hq
        exact ⟨.inr hq, fun hqp => hnd.1 (hqp ▸ hq)⟩
      · rintro ⟨hq | hq, hqp⟩
        · exact absurd hq hqp
        · exact hq
    obtain ⟨hs', hk⟩ := ih hs rfl
    rw [foldl_evict_withEntries] at hs' hk
    rw [hl, foldl_cons]
    have hk1 : Keeps c { c.evict p with entries := l } := (keeps_evict c p).congr rfl rfl
    exact ⟨hs', hk1.trans hk⟩

theorem Sound.close (h : Sound c holders owners) :
    Sound c.close holders owners ∧ Keeps c c.close := by
  obtain ⟨hs, hk⟩ := h.evictAll
  refine ⟨⟨hs.nodup, hs.lt, hs.mem_iff, hs.versions, hs.length_le, hs.refs, hs.leased, hs.inj,
    hs.owned, hs.settled, fun _ => rfl⟩, hk.congr rfl rfl⟩

end HistoricalDBCache

end CronosStore.RootMulti
