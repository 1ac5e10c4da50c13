import CronosStore.Foundation.Transitions
import CronosStore.RootMulti.HistoricalDBCache

/-!
# Borrowing from the cache

Any number of clients borrow databases from the cache and release them, in any order. A call
of `borrow` takes the lock twice and loads the database in between, so it is several steps of
its client. A client has one borrow at a time; a party with more of them is as many clients.
A database is closed when nobody can reach it any more, and once (`borrow_protocol`).
-/

namespace CronosStore.RootMulti

open Foundation List

inductive Client
  | idle
  /-- Nothing was found; it waits for its turn to load. -/
  | missed (version : Int)
  | loading (version : Int)
  | loaded (version : Int) (db : Nat)
  /-- It will close a database that was not inserted. -/
  | discarding (version : Int) (db : Nat) (result : Option Nat)
  | returning (version : Int) (result : Option Nat)
  | holding (version : Int) (entry : Nat)
  | panicked
deriving DecidableEq

inductive CacheAction
  | borrow (client : Nat) (version : Int)
  | acquireSem (client : Nat)
  | failLoad (client : Nat)
  | load (client : Nat)
  | insert (client : Nat)
  | discard (client : Nat)
  | giveBack (client : Nat)
  | release (client : Nat)
  | close
deriving DecidableEq

structure CacheSystem where
  cache : HistoricalDBCache
  clients : List Client
deriving DecidableEq

namespace CacheSystem

def init (maxSize clients : Nat) : CacheSystem := ⟨.new maxSize, .replicate clients .idle⟩

def go (σ : CacheSystem) (client : Nat) (k : Client) (cache : HistoricalDBCache) : CacheSystem :=
  ⟨cache, σ.clients.set client k⟩

def borrow (σ : CacheSystem) (client : Nat) (version : Int) : CacheSystem :=
  if σ.cache.closed then σ
  else
    match σ.cache.lookup version with
    | some (p, cache) => σ.go client (.holding version p) cache
    | none => σ.go client (.missed version) σ.cache

def insert (σ : CacheSystem) (client : Nat) (version : Int) (db : Nat) : CacheSystem :=
  if σ.cache.closed then σ.go client (.discarding version db none) σ.cache
  else
    match σ.cache.lookup version with
    | some (p, cache) => σ.go client (.discarding version db (some p)) cache
    | none =>
      let (p, cache) := σ.cache.insert version db
      σ.go client (.returning version (some p)) cache

def step (σ : CacheSystem) : CacheAction → Option CacheSystem
  | .borrow client version =>
    match σ.clients[client]? with
    | some .idle => some (σ.borrow client version)
    | _ => none
  | .acquireSem client =>
    match σ.clients[client]? with
    | some (.missed version) =>
      if σ.cache.loadSem < σ.cache.maxSize then
        some (σ.go client (.loading version) { σ.cache with loadSem := σ.cache.loadSem + 1 })
      else none
    | _ => none
  | .failLoad client =>
    match σ.clients[client]? with
    | some (.loading version) => some (σ.go client (.returning version none) σ.cache)
    | _ => none
  | .load client =>
    match σ.clients[client]? with
    | some (.loading version) =>
      some (σ.go client (.loaded version σ.cache.closes.length)
        { σ.cache with closes := σ.cache.closes ++ [0] })
    | _ => none
  | .insert client =>
    match σ.clients[client]? with
    | some (.loaded version db) => some (σ.insert client version db)
    | _ => none
  | .discard client =>
    match σ.clients[client]? with
    | some (.discarding version db result) =>
      some (σ.go client (.returning version result) (σ.cache.closeDB db))
    | _ => none
  | .giveBack client =>
    match σ.clients[client]? with
    | some (.returning version result) =>
      let k : Client := match result with
        | some p => .holding version p
        | none => .idle
      some (σ.go client k { σ.cache with loadSem := σ.cache.loadSem - 1 })
    | _ => none
  | .release client =>
    match σ.clients[client]? with
    | some (.holding _ p) =>
      match σ.cache.release p with
      | some cache => some (σ.go client .idle cache)
      | none => some (σ.go client .panicked σ.cache)
    | _ => none
  | .close => some ⟨σ.cache.close, σ.clients⟩

/-! ## What holds in every state -/

end CacheSystem

def Client.borrowed? : Client → Option Nat
  | .discarding _ _ result => result
  | .returning _ result => result
  | .holding _ p => some p
  | _ => none

def Client.db? : Client → Option Nat
  | .loaded _ db => some db
  | .discarding _ db _ => some db
  | _ => none

def Client.version? : Client → Option Int
  | .idle => none
  | .missed version => some version
  | .loading version => some version
  | .loaded version _ => some version
  | .discarding version _ _ => some version
  | .returning version _ => some version
  | .holding version _ => some version
  | .panicked => none

namespace CacheSystem

open HistoricalDBCache List

def holders (σ : CacheSystem) (p : Nat) : Nat := σ.clients.countP (·.borrowed? = some p)

def owners (σ : CacheSystem) (db : Nat) : Nat := σ.clients.countP (·.db? = some db)

structure Inv (maxSize : Nat) (σ : CacheSystem) : Prop where
  maxSize : σ.cache.maxSize = maxSize
  sound : σ.cache.Sound σ.holders σ.owners
  owners_le : ∀ d, σ.owners d ≤ 1
  held : ∀ k ∈ σ.clients, ∀ p, k.borrowed? = some p →
    ∃ e, σ.cache.At p e ∧ k.version? = some e.version
  calm : ∀ k ∈ σ.clients, k ≠ .panicked

variable {σ σ' : CacheSystem} {i : Nat} {k k' : Client} {cache : HistoricalDBCache}

theorem countP_set_add {α : Type} {l : List α} {i : Nat} {a : α} (h : l[i]? = some a) (b : α)
    (f : α → Bool) : (l.set i b).countP f + (if f a then 1 else 0) = l.countP f + if f b then 1 else 0 := by
  obtain ⟨hi, rfl⟩ := List.getElem?_eq_some_iff.mp h
  rw [countP_set hi]
  have hpos : (if f l[i] then 1 else 0) ≤ l.countP f := by
    split_ifs with hf
    · exact countP_pos_iff.mpr ⟨l[i], getElem_mem hi, hf⟩
    · exact Nat.zero_le _
  omega

theorem holders_go (hk : σ.clients[i]? = some k) (k' : Client) (cache : HistoricalDBCache) (p : Nat) :
    (σ.go i k' cache).holders p + (if k.borrowed? = some p then 1 else 0) =
      σ.holders p + if k'.borrowed? = some p then 1 else 0 := by
  have := countP_set_add hk k' (·.borrowed? = some p)
  simp only [decide_eq_true_eq] at this
  exact this

theorem owners_go (hk : σ.clients[i]? = some k) (k' : Client) (cache : HistoricalDBCache) (d : Nat) :
    (σ.go i k' cache).owners d + (if k.db? = some d then 1 else 0) =
      σ.owners d + if k'.db? = some d then 1 else 0 := by
  have := countP_set_add hk k' (·.db? = some d)
  simp only [decide_eq_true_eq] at this
  exact this

theorem Inv.go {maxSize : Nat} (h : Inv maxSize σ) (hk : σ.clients[i]? = some k)
    (hsound : cache.Sound (σ.go i k' cache).holders (σ.go i k' cache).owners)
    (hkeeps : Keeps σ.cache cache) (howner : ∀ d, k'.db? = some d → k.db? = some d ∨ σ.owners d = 0)
    (hheld : ∀ p, k'.borrowed? = some p → ∃ e, cache.At p e ∧ k'.version? = some e.version)
    (hcalm : k' ≠ .panicked) : Inv maxSize (σ.go i k' cache) := by
  refine ⟨hkeeps.maxSize.trans h.maxSize, hsound, fun d => ?_, fun x hx p hp => ?_, fun x hx => ?_⟩
  · have hcount := owners_go hk k' cache d
    have hle := h.owners_le d
    split_ifs at hcount with h1 h2 h2
    · omega
    · omega
    · rcases howner d h2 with h3 | h3
      · exact absurd h3 h1
      · omega
    · omega
  · rcases mem_or_eq_of_mem_set hx with hx | rfl
    · obtain ⟨e, he, hv⟩ := h.held x hx p hp
      obtain ⟨e', he', hv'⟩ := hkeeps.at' p e he
      exact ⟨e', he', by rw [hv, hv']⟩
    · exact hheld p hp
  · rcases mem_or_eq_of_mem_set hx with hx | rfl
    · exact h.calm x hx
    · exact hcalm

section Steps

variable {maxSize : Nat} (h : Inv maxSize σ) (hk : σ.clients[i]? = some k)

include hk in
theorem holders_eq_of_same (cache : HistoricalDBCache) (hentry : k'.borrowed? = k.borrowed?)
    (hdb : k'.db? = k.db?) :
    (∀ p, (σ.go i k' cache).holders p = σ.holders p) ∧
      ∀ d, (σ.go i k' cache).owners d = σ.owners d := by
  constructor
  · intro p
    have := holders_go hk k' cache p
    rw [hentry] at this
    omega
  · intro d
    have := owners_go hk k' cache d
    rw [hdb] at this
    omega

include h hk in
theorem Inv.same (k' : Client) (n : Nat) (hentry : k'.borrowed? = k.borrowed?) (hdb : k'.db? = k.db?)
    (hversion : ∀ p, k.borrowed? = some p → k'.version? = k.version?) (hcalm : k' ≠ .panicked) :
    Inv maxSize (σ.go i k' { σ.cache with loadSem := n }) := by
  obtain ⟨hh, ho⟩ := holders_eq_of_same hk { σ.cache with loadSem := n } hentry hdb
  refine h.go hk ((h.sound.congr hh ho).withLoadSem n) ((Keeps.refl _).congr rfl rfl) ?_ ?_ hcalm
  · intro d hd
    exact .inl (hdb ▸ hd)
  · intro p hp
    rw [hentry] at hp
    rw [hversion p hp]
    exact h.held k (mem_of_getElem? hk) p hp

include h hk in
theorem Inv.lookup {version : Int} {p : Nat} (hl : σ.cache.lookup version = some (p, cache))
    (hnone : k.borrowed? = none) (hentry : k'.borrowed? = some p) (hdb : k'.db? = k.db?)
    (hversion : k'.version? = some version) (hcalm : k' ≠ .panicked) :
    Inv maxSize (σ.go i k' cache) := by
  have hholders : ∀ q, (σ.go i k' cache).holders q = σ.holders q + if q = p then 1 else 0 := by
    intro q
    have := holders_go hk k' cache q
    rw [hnone, hentry] at this
    simpa [eq_comm] using this
  have howners : ∀ d, (σ.go i k' cache).owners d = σ.owners d := by
    intro d
    have := owners_go hk k' cache d
    rw [hdb] at this
    omega
  obtain ⟨hs, e, he, hv⟩ := h.sound.lookup hl hholders
  refine h.go hk (hs.congr (fun _ => rfl) howners) (keeps_lookup hl) ?_ ?_ hcalm
  · intro d hd
    exact .inl (hdb ▸ hd)
  · intro q hq
    rw [hentry] at hq
    cases hq
    exact ⟨e, he, by rw [hversion, hv]⟩

include h in
theorem Inv.borrow (hk : σ.clients[i]? = some .idle) (version : Int) :
    Inv maxSize (σ.borrow i version) := by
  unfold CacheSystem.borrow
  split_ifs
  · exact h
  · cases hl : σ.cache.lookup version with
    | some r => exact h.lookup hk hl rfl rfl rfl rfl (by simp)
    | none => exact h.same hk (.missed version) σ.cache.loadSem rfl rfl (fun _ hp => by cases hp) (by simp)

include h in
theorem Inv.load {version : Int} (hk : σ.clients[i]? = some (.loading version)) :
    Inv maxSize (σ.go i (.loaded version σ.cache.closes.length)
      { σ.cache with closes := σ.cache.closes ++ [0] }) := by
  have hfresh : σ.owners σ.cache.closes.length = 0 := by
    by_contra hpos
    obtain ⟨hz, -⟩ := h.sound.owned _ (Nat.pos_of_ne_zero hpos)
    have := (List.getElem?_eq_some_iff.mp hz).1
    omega
  refine h.go hk ?_ ((Keeps.refl _).congr rfl rfl) ?_ ?_ (by simp)
  · refine (h.sound.load fun d => ?_).congr ?_ fun _ => rfl
    · have := owners_go hk (.loaded version σ.cache.closes.length)
        { σ.cache with closes := σ.cache.closes ++ [0] } d
      simpa [Client.db?, eq_comm] using this
    · intro p
      have := holders_go hk (.loaded version σ.cache.closes.length)
        { σ.cache with closes := σ.cache.closes ++ [0] } p
      simpa [Client.borrowed?] using this
  · rintro d hd
    cases hd
    exact .inr hfresh
  · intro p hp
    cases hp

theorem Inv.owners_eq_one {maxSize : Nat} (h : Inv maxSize σ) (hk : σ.clients[i]? = some k) {d : Nat}
    (hd : k.db? = some d) : σ.owners d = 1 := by
  have hpos : 0 < σ.owners d :=
    countP_pos_iff.mpr ⟨k, mem_of_getElem? hk, decide_eq_true hd⟩
  have := h.owners_le d
  omega

include h in
theorem Inv.insert (hsize : 0 < maxSize) {version : Int} {db : Nat}
    (hk : σ.clients[i]? = some (.loaded version db)) : Inv maxSize (σ.insert i version db) := by
  unfold CacheSystem.insert
  by_cases hclosed : σ.cache.closed = true
  · rw [if_pos hclosed]
    exact h.same hk (.discarding version db none) σ.cache.loadSem rfl rfl (fun _ hp => by cases hp) (by simp)
  rw [if_neg hclosed]
  cases hl : σ.cache.lookup version with
  | some r => exact h.lookup hk hl rfl rfl rfl rfl (by simp)
  | none =>
    have hzero : σ.holders σ.cache.heap.length = 0 := by
      by_contra hpos
      obtain ⟨x, hx, hp⟩ := countP_pos_iff.mp (Nat.pos_of_ne_zero hpos)
      obtain ⟨e, he, -⟩ := h.held x hx _ (of_decide_eq_true hp)
      exact Nat.lt_irrefl _ he.lt
    have hholders : ∀ q, (σ.go i (.returning version (some σ.cache.heap.length)) (σ.cache.insert version db).2).holders q =
        σ.holders q + if q = σ.cache.heap.length then 1 else 0 := by
      intro q
      have := holders_go hk (.returning version (some σ.cache.heap.length)) (σ.cache.insert version db).2 q
      simpa [Client.borrowed?, eq_comm] using this
    have howners : ∀ d, (σ.go i (.returning version (some σ.cache.heap.length)) (σ.cache.insert version db).2).owners d +
        (if d = db then 1 else 0) = σ.owners d := by
      intro d
      have := owners_go hk (.returning version (some σ.cache.heap.length)) (σ.cache.insert version db).2 d
      simpa [Client.db?, eq_comm] using this
    obtain ⟨hp, hs, hkeeps, e, he, hv⟩ := h.sound.insert (Bool.eq_false_iff.mpr hclosed)
      (h.maxSize ▸ hsize) hl hzero (h.owners_eq_one hk rfl) hholders howners
    simp only [hp]
    refine h.go hk hs hkeeps ?_ ?_ (by simp)
    · intro d hd
      cases hd
    · intro p hp
      cases hp
      exact ⟨e, he, by rw [hv]; rfl⟩

include h in
theorem Inv.discard {version : Int} {db : Nat} {result : Option Nat}
    (hk : σ.clients[i]? = some (.discarding version db result)) :
    Inv maxSize (σ.go i (.returning version result) (σ.cache.closeDB db)) := by
  refine h.go hk ?_ ((Keeps.refl _).congr rfl rfl) ?_ ?_ (by simp)
  · refine (h.sound.closeDB (h.owners_eq_one hk rfl) fun d => ?_).congr (fun p => ?_) fun _ => rfl
    · have := owners_go hk (.returning version result) (σ.cache.closeDB db) d
      simpa [Client.db?, eq_comm] using this
    · have := holders_go hk (.returning version result) (σ.cache.closeDB db) p
      exact Nat.add_right_cancel this
  · intro d hd
    cases hd
  · intro p hp
    exact h.held _ (mem_of_getElem? hk) p hp

include h in
theorem Inv.release {version : Int} {p : Nat} (hk : σ.clients[i]? = some (.holding version p)) :
    ∃ cache, σ.cache.release p = some cache ∧ Inv maxSize (σ.go i .idle cache) := by
  obtain ⟨e, he, -⟩ := h.held _ (mem_of_getElem? hk) p rfl
  have hpos : 0 < σ.holders p :=
    countP_pos_iff.mpr ⟨_, mem_of_getElem? hk, decide_eq_true rfl⟩
  have hholders : ∀ q, (σ.go i .idle σ.cache).holders q + (if q = p then 1 else 0) = σ.holders q := by
    intro q
    have := holders_go hk .idle σ.cache q
    simpa [Client.borrowed?, eq_comm (a := q)] using this
  obtain ⟨cache, hrel, hs, hkeeps⟩ := h.sound.release he hpos hholders
  refine ⟨cache, hrel, h.go hk (hs.congr (fun _ => rfl) fun d => ?_) hkeeps ?_ ?_ (by simp)⟩
  · have := owners_go hk .idle cache d
    simpa [Client.db?] using this
  · intro d hd
    cases hd
  · intro q hq
    cases hq

end Steps

theorem Inv.step {maxSize : Nat} (h : Inv maxSize σ) (hsize : 0 < maxSize) {a : CacheAction}
    (hs : σ.step a = some σ') : Inv maxSize σ' := by
  cases a with
  | borrow i version =>
    simp only [CacheSystem.step] at hs
    split at hs
    · rename_i hk
      cases hs
      exact h.borrow hk version
    · cases hs
  | acquireSem i =>
    simp only [CacheSystem.step] at hs
    split at hs
    · rename_i version hk
      split_ifs at hs
      cases hs
      exact h.same hk (.loading version) _ rfl rfl (fun _ hp => by cases hp) (by simp)
    · cases hs
  | failLoad i =>
    simp only [CacheSystem.step] at hs
    split at hs
    · rename_i version hk
      cases hs
      exact h.same hk (.returning version none) σ.cache.loadSem rfl rfl (fun _ hp => by cases hp) (by simp)
    · cases hs
  | load i =>
    simp only [CacheSystem.step] at hs
    split at hs
    · rename_i version hk
      cases hs
      exact h.load hk
    · cases hs
  | insert i =>
    simp only [CacheSystem.step] at hs
    split at hs
    · rename_i version db hk
      cases hs
      exact h.insert hsize hk
    · cases hs
  | discard i =>
    simp only [CacheSystem.step] at hs
    split at hs
    · rename_i version db result hk
      cases hs
      exact h.discard hk
    · cases hs
  | giveBack i =>
    simp only [CacheSystem.step] at hs
    split at hs
    · rename_i version result hk
      cases hs
      cases result with
      | none => exact h.same hk .idle _ rfl rfl (fun _ hp => by cases hp) (by simp)
      | some p => exact h.same hk (.holding version p) _ rfl rfl (fun _ _ => rfl) (by simp)
    · cases hs
  | release i =>
    simp only [CacheSystem.step] at hs
    split at hs
    · rename_i version p hk
      obtain ⟨cache, hrel, hinv⟩ := h.release hk
      simp only [hrel] at hs
      cases hs
      exact hinv
    · cases hs
  | close =>
    cases hs
    obtain ⟨hs, hkeeps⟩ := h.sound.close
    refine ⟨hkeeps.maxSize.trans h.maxSize, hs, h.owners_le, fun k hk p hp => ?_, h.calm⟩
    obtain ⟨e, he, hv⟩ := h.held k hk p hp
    obtain ⟨e', he', hv'⟩ := hkeeps.at' p e he
    exact ⟨e', he', by rw [hv, hv']⟩

theorem init_inv (maxSize clients : Nat) : Inv maxSize (init maxSize clients) := by
  have hidle : ∀ k ∈ (init maxSize clients).clients, k = .idle := fun k hk =>
    eq_of_mem_replicate hk
  have howners : ∀ d, (init maxSize clients).owners d = 0 := by
    intro d
    refine countP_eq_zero.mpr fun k hk => ?_
    rw [hidle k hk]
    simp [Client.db?]
  refine ⟨rfl, ⟨nodup_nil, ?_, ?_, ?_, Nat.zero_le _, ?_, ?_, ?_, ?_, ?_, fun _ => rfl⟩, ?_, ?_, ?_⟩
  · intro p hp
    cases hp
  · intro p e he
    cases he
  · intro p q e f hp
    cases hp
  · intro p e he
    cases he
  · intro p e he
    cases he
  · intro p q e f he
    cases he
  · intro d hd
    rw [howners] at hd
    cases hd
  · intro d n hn
    cases hn
  · intro d
    rw [howners]
    exact Nat.zero_le 1
  · intro k hk p hp
    rw [hidle k hk] at hp
    cases hp
  · intro k hk
    rw [hidle k hk]
    simp

/-- In every state that any interleaving of any number of clients leads to, with room for at
least one entry: the database of an entry that a client has is not closed, and the entry is of
the version that the client asked for; no database is closed twice, and all of them are closed
once when no client has one and the cache is closed; the cache has no more than
`maxSize` entries, with different versions; and no `release` has panicked. -/
theorem borrow_protocol {maxSize clients : Nat} (hsize : 1 ≤ maxSize)
    (hrun : Runs step (fun _ _ => True) (init maxSize clients) σ) :
    (∀ k ∈ σ.clients, ∀ p, k.borrowed? = some p → ∃ e, σ.cache.At p e ∧
      k.version? = some e.version ∧ σ.cache.closes[e.db]? = some 0) ∧
    (∀ n ∈ σ.cache.closes, n ≤ 1) ∧
    (σ.cache.closed = true → (∀ k ∈ σ.clients, k.borrowed? = none ∧ k.db? = none) →
      ∀ n ∈ σ.cache.closes, n = 1) ∧
    σ.cache.entries.length ≤ maxSize ∧
    (∀ p q e f, p ∈ σ.cache.entries → q ∈ σ.cache.entries → σ.cache.At p e → σ.cache.At q f →
      e.version = f.version → p = q) ∧ σ.cache.entries.Nodup ∧
    ∀ k ∈ σ.clients, k ≠ .panicked := by
  have h : Inv maxSize σ := hrun.invariant (init_inv maxSize clients) fun _ _ _ h _ hs =>
    h.step hsize hs
  refine ⟨fun k hk p hp => ?_, fun n hn => ?_, fun hclosed hidle n hn => ?_, ?_, h.sound.versions,
    h.sound.nodup, h.calm⟩
  · obtain ⟨e, he, hv⟩ := h.held k hk p hp
    obtain ⟨n, hn, hs⟩ := h.sound.leased p e he
    have hpos : 0 < e.refs := by
      rw [h.sound.refs p e he]
      exact countP_pos_iff.mpr ⟨k, hk, decide_eq_true hp⟩
    have hz : n = 0 := hs.eq_zero fun hl => absurd hl.2 (Nat.ne_of_gt hpos)
    exact ⟨e, he, hv, hz ▸ hn⟩
  · obtain ⟨d, hd⟩ := mem_iff_getElem?.mp hn
    rcases h.sound.settled d n hd with ho | ⟨p, e, he, rfl⟩ | hone
    · cases hd.symm.trans (h.sound.owned d ho).1
      exact Nat.zero_le 1
    · obtain ⟨m, hm, hs⟩ := h.sound.leased p e he
      cases hd.symm.trans hm
      exact hs.le_one
    · exact Nat.le_of_eq hone
  · obtain ⟨d, hd⟩ := mem_iff_getElem?.mp hn
    rcases h.sound.settled d n hd with ho | ⟨p, e, he, rfl⟩ | hone
    · obtain ⟨k, hk, hdb⟩ := countP_pos_iff.mp ho
      rw [(hidle k hk).2] at hdb
      cases hdb
    · -- nobody holds the entry, and it has left the index
      obtain ⟨m, hm, hs⟩ := h.sound.leased p e he
      cases hd.symm.trans hm
      have hev : e.evicted = true := by
        by_contra hev
        have hmem := (h.sound.mem_iff p e he).mpr (Bool.eq_false_iff.mpr hev)
        rw [h.sound.drained hclosed] at hmem
        cases hmem
      have hrefs : e.refs = 0 := by
        rw [h.sound.refs p e he]
        refine countP_eq_zero.mpr fun k hk => ?_
        rw [(hidle k hk).1]
        simp
      have hlost : (lease e n).Lost := ⟨by simp [lease, hev], hrefs⟩
      rw [Lease.Sound, if_pos hlost] at hs
      exact hs
    · exact hone
  · rw [← h.maxSize]
    exact h.sound.length_le

def crowded : List CacheAction :=
  [.borrow 0 5, .acquireSem 0, .load 0, .insert 0, .giveBack 0, .borrow 1 7, .borrow 2 7,
    .acquireSem 1, .load 1, .insert 1, .giveBack 1, .release 0, .acquireSem 2, .load 2, .insert 2,
    .discard 2, .giveBack 2, .release 1, .close, .release 2]

theorem borrow_protocol_crowded : ∃ σ,
    runActions step (fun _ _ => True) (init 1 3) crowded = some σ ∧ σ.cache.closes.length = 3 ∧
      ∀ n ∈ σ.cache.closes, n = 1 := by
  obtain ⟨σ, hσ⟩ := Option.isSome_iff_exists.mp
    (show (runActions step (fun _ _ => True) (init 1 3) crowded).isSome from by decide)
  have hend : (runActions step (fun _ _ => True) (init 1 3) crowded).map
      (fun σ => (σ.cache.closes.length, σ.cache.closed, σ.clients)) =
        some (3, true, [.idle, .idle, .idle]) := by decide
  rw [hσ, Option.map_some, Option.some.injEq, Prod.mk.injEq, Prod.mk.injEq] at hend
  obtain ⟨hlen, hclosed, hclients⟩ := hend
  have hidle : ∀ k ∈ σ.clients, k.borrowed? = none ∧ k.db? = none := by
    rw [hclients]
    decide
  exact ⟨σ, hσ, hlen, (borrow_protocol (Nat.le_refl 1) (Runs.init.runActions hσ)).2.2.1 hclosed hidle⟩

end CacheSystem

end CronosStore.RootMulti
