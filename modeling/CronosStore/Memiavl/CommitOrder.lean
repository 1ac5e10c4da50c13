import CronosStore.Memiavl.AsyncCommit

/-!
# The log is a prefix of the commits

Entries are on their way from the caller through the channel and the hands of the writer to
the log. No step loses one or changes their order, unless an error comes up (`Passes`); what
is written are the first of them (`Inv.wrote`). So the log holds the first entries of the
committed versions in every state of a run (`wal_prefix_of_commits`), and after an error it
stays as it is.
-/

namespace CronosStore.Memiavl

open Foundation List

/-! ## Calls and versions -/

theorem MultiTree.AtIndex.congr {t t' : MultiTree} {i : Nat} (h : t.AtIndex i)
    (hiv : t'.initialVersion = t.initialVersion) (hinfo : t'.lastCommitInfo = t.lastCommitInfo) :
    t'.AtIndex i := by
  have hv : t'.version = t.version := congrArg CommitInfo.version hinfo
  exact ⟨by rw [hv, hiv]; exact h.version, by rw [hv]; exact h.lt⟩

namespace MultiTree

variable {t : MultiTree} {i : Nat}

theorem AtIndex.applyUpgrades (h : t.AtIndex i) (upgrades : List TreeNameUpgrade) :
    (stateAfter (t.applyUpgrades upgrades)).AtIndex i := by
  unfold MultiTree.applyUpgrades
  split_ifs
  · exact h
  · split
    · exact h.congr rfl rfl
    · simp only
      split <;> exact h.congr rfl rfl

theorem AtIndex.applyChangeSet (h : t.AtIndex i) (name : Name) (cs : ChangeSet) :
    (stateAfter (t.applyChangeSet name cs)).AtIndex i := by
  unfold MultiTree.applyChangeSet
  split <;> exact h.congr rfl rfl

theorem AtIndex.applyChangeSets (h : t.AtIndex i) (changeSets : List NamedChangeSet) :
    (stateAfter (t.applyChangeSets changeSets)).AtIndex i :=
  stateAfter_loop (P := fun t => t.AtIndex i)
    (fun t cs => t.applyChangeSet cs.name cs.changeset) MultiTree.applyChangeSets
    (fun _ => rfl) (fun _ hcs => by rw [MultiTree.applyChangeSets, hcs])
    (fun _ hcs => by rw [MultiTree.applyChangeSets, hcs])
    (fun _ cs ht => AtIndex.applyChangeSet ht cs.name cs.changeset) h changeSets

end MultiTree

namespace DB

variable {db : DB} {i : Nat}

theorem mtree_stateAfter_onTrees (db : DB) (r : Update MultiTreeError MultiTree) :
    (stateAfter (db.onTrees r)).mtree = stateAfter r := by
  rw [stateAfter_onTrees]

theorem mtree_ensurePendingChangesetMap (db : DB) : db.ensurePendingChangesetMap.mtree = db.mtree := by
  unfold ensurePendingChangesetMap
  split_ifs <;> rfl

theorem mtree_setPendingChangeSets (db : DB) (changeSets : List NamedChangeSet) :
    (db.setPendingChangeSets changeSets).mtree = db.mtree := by
  unfold setPendingChangeSets
  simp only
  split_ifs <;> rfl

theorem atIndex_applyChangeSet (h : db.mtree.AtIndex i) (name : Name) (cs : ChangeSet) :
    (stateAfter (db.applyChangeSet name cs)).mtree.AtIndex i := by
  unfold DB.applyChangeSet
  split_ifs
  · exact h
  · exact h
  · simp only [mtree_stateAfter_onTrees]
    apply MultiTree.AtIndex.applyChangeSet
    split
    · exact (mtree_ensurePendingChangesetMap db).symm ▸ h
    · exact (mtree_ensurePendingChangesetMap db).symm ▸ h

theorem atIndex_applyEach (h : db.mtree.AtIndex i) (changeSets : List NamedChangeSet) :
    (stateAfter (db.applyEach changeSets)).mtree.AtIndex i :=
  stateAfter_loop (P := fun db => db.mtree.AtIndex i)
    (fun db cs => db.applyChangeSet cs.name cs.changeset) DB.applyEach
    (fun _ => rfl) (fun _ hcs => by rw [DB.applyEach, hcs]) (fun _ hcs => by rw [DB.applyEach, hcs])
    (fun _ cs hdb => atIndex_applyChangeSet hdb cs.name cs.changeset) h changeSets

theorem atIndex_apply (h : db.mtree.AtIndex i) (a : Apply) :
    (stateAfter (db.apply a)).mtree.AtIndex i := by
  cases a with
  | upgrades upgrades =>
    have h1 := h.applyUpgrades upgrades
    rw [← mtree_stateAfter_onTrees db] at h1
    rw [DB.apply, DB.applyUpgrades]
    split_ifs
    · exact h
    · cases hu : db.onTrees (db.mtree.applyUpgrades upgrades) with
      | ok db1 =>
        rw [hu] at h1
        exact h1
      | error f =>
        rw [hu] at h1
        exact h1
  | changeSets c =>
    cases c with
    | applyChangeSet name cs => exact atIndex_applyChangeSet h name cs
    | applyChangeSets changeSets =>
      unfold DB.apply DB.call DB.applyChangeSets
      simp only
      split_ifs
      · exact h
      · exact h
      · rw [mtree_stateAfter_onTrees, mtree_setPendingChangeSets]
        exact h.applyChangeSets changeSets
      · exact atIndex_applyEach h changeSets

variable [Sha256]

theorem saveVersion_error {f : Failure DBError DB} (h : db.saveVersion = .error f) : f.state = db := by
  unfold DB.saveVersion at h
  split_ifs at h
  · cases h
    rfl
  · cases hs : db.mtree.saveVersion true with
    | ok t =>
      rw [hs] at h
      cases h
    | error g =>
      rw [hs] at h
      cases h
      unfold MultiTree.saveVersion at hs
      split at hs
      · cases hs
        rfl
      · cases hs

theorem saveVersion_atIndex {entry : WalEntry} {db' : DB} (hs : db.saveVersion = .ok (entry, db'))
    (h : db.mtree.AtIndex i) (hlt : db'.mtree.version < 2 ^ 63) :
    entry.index = i + 1 ∧ db'.mtree.AtIndex (i + 1) := by
  obtain ⟨t, ht, rfl, rfl⟩ := saveVersion_ok hs
  obtain ⟨-, rfl⟩ := MultiTree.saveVersion_ok.mp ht
  exact ⟨h.walIndex_next, .inl h.next, hlt⟩

end DB

/-! ## What is on its way to the log -/

def Writer.inHand : Writer → List WalEntry
  | .received entry => [entry]
  | .collecting _ entries => entries
  | .collected entries => entries
  | .batching entries _ => entries
  | _ => []

def Pipe.held (p : Pipe) : List WalEntry := p.writer.inHand ++ p.walChan

def Caller.outgoing : Caller → List WalEntry
  | .sending entry => [entry]
  | .writing entry => [entry]
  | _ => []

namespace Committer

variable {P : Type}

def unwritten (σ : Committer P) : List WalEntry :=
  (σ.pipe.map Pipe.held).getD [] ++ σ.caller.outgoing

/-- The log is the one of `σ₀` with the first committed entries, and the others are on their
way if no write has failed. -/
def Prefixed [WALCodec P] (σ₀ σ : Committer P) : Prop :=
  ∃ done rest, σ.committed = done ++ rest ∧ Extends σ₀.wal σ.wal done ∧
    (σ.failed = false → rest = σ.unwritten)

structure Coordinated (σ : Committer P) : Prop where
  capacity : ∀ walChan w, σ.pipe = some ⟨walChan, w⟩ → (walChan.length : Int) ≤ σ.walChanSize
  sending : ∀ e, σ.caller = .sending e → σ.pipe ≠ none
  writing : ∀ e, σ.caller = .writing e → σ.pipe = none ∧ σ.failed = false
  batching : ∀ walChan entries n, σ.pipe = some ⟨walChan, .batching entries n⟩ → n = σ.wal.lastIndex
  /-- The writer ends because the channel is closed and empty, or because of an error. -/
  ended : ∀ walChan w, σ.pipe = some ⟨walChan, w⟩ → w = .returned false ∨ w = .quit →
    σ.failed = true ∨ walChan = [] ∧ σ.isWaiting = true
  erred : ∀ walChan w, σ.pipe = some ⟨walChan, w⟩ → w = .returned true ∨ w = .latched →
    σ.failed = true
  /-- Nothing is written after an error, and it is latched before the writer is gone. -/
  stopped : ∀ walChan w, σ.failed = true → σ.pipe = some ⟨walChan, w⟩ →
    w = .returned true ∨ w = .latched ∨ w = .quit
  latched : σ.failed = true → σ.walErr = true ∨ ∃ walChan, σ.pipe = some ⟨walChan, .returned true⟩

structure Inv [WALCodec P] (σ₀ σ : Committer P) : Prop extends σ.Coordinated where
  consecutive : Consecutive σ₀.wal.lastIndex σ.committed
  atIndex : σ.walWriter = true → σ.db.mtree.AtIndex (σ₀.wal.lastIndex + σ.committed.length)
  prefixed : Prefixed σ₀ σ
  sent : σ.walChanSize < 0 → ∀ e, σ.caller = .sent e → MultiTree.LogHolds σ.wal e.index e.data
  returned : σ.walChanSize < 0 → ∀ e, some e ∈ σ.returned → MultiTree.LogHolds σ.wal e.index e.data

/-- A step that commits nothing and writes nothing: the entries that are on their way stay
so, unless an error comes up. -/
structure Passes (σ σ' : Committer P) : Prop where
  walChanSize : σ'.walChanSize = σ.walChanSize
  wal : σ'.wal = σ.wal
  committed : σ'.committed = σ.committed
  atIndex : σ'.walWriter = true →
    σ.walWriter = true ∧ ∀ i, σ.db.mtree.AtIndex i → σ'.db.mtree.AtIndex i
  walErr : σ.walErr = true → σ'.walErr = true
  unwritten : σ'.failed = false → σ.failed = false ∧ σ'.unwritten = σ.unwritten
  sent : σ.walChanSize < 0 → ∀ e, σ'.caller = .sent e → σ.caller = .sent e
  returned : σ.walChanSize < 0 → ∀ e, some e ∈ σ'.returned → some e ∈ σ.returned ∨ σ.caller = .sent e

structure Persists (σ σ' : Committer P) : Prop where
  failed : σ.failed = true → σ'.failed = true ∧ σ'.wal = σ.wal
  walErr : σ.walErr = true → σ'.walErr = true

variable {σ₀ σ σ' : Committer P}

theorem Passes.persists (h : σ.Passes σ') : σ.Persists σ' where
  failed hf := by
    refine ⟨?_, h.wal⟩
    by_contra hf'
    rw [(h.unwritten (by simpa using hf')).1] at hf
    cases hf
  walErr := h.walErr

/-! ## Steps of the caller -/

variable {pipe : Option Pipe} {caller : Caller}

theorem passes_of_same {walErr failed : Bool}
    {returned : List (Option WalEntry)}
    (hunwritten : failed = false → σ.failed = false ∧ unwritten ⟨σ.walChanSize, σ.db, σ.wal,
      σ.walWriter, pipe, walErr, caller, σ.committed, returned, failed⟩ = σ.unwritten)
    (herr : σ.walErr = true → walErr = true)
    (hsent : σ.walChanSize < 0 → ∀ e, caller = .sent e → σ.caller = .sent e)
    (hreturned : σ.walChanSize < 0 → ∀ e, some e ∈ returned →
      some e ∈ σ.returned ∨ σ.caller = .sent e) :
    σ.Passes ⟨σ.walChanSize, σ.db, σ.wal, σ.walWriter, pipe, walErr, caller, σ.committed, returned,
      failed⟩ :=
  ⟨rfl, rfl, rfl, fun hw => ⟨hw, fun _ h => h⟩, herr, hunwritten, hsent, hreturned⟩

theorem Passes.refl (σ : Committer P) : σ.Passes σ :=
  passes_of_same (fun hf => ⟨hf, rfl⟩) id (fun _ _ he => he) fun _ _ => .inl

theorem passes_of_db {db : DB} {walWriter : Bool} (hopen : walWriter = true →
    σ.walWriter = true ∧ ∀ i, σ.db.mtree.AtIndex i → db.mtree.AtIndex i) :
    σ.Passes { σ with db := db, walWriter := walWriter } :=
  ⟨rfl, rfl, rfl, hopen, id, fun hf => ⟨hf, rfl⟩, fun _ _ he => he, fun _ _ => .inl⟩

theorem passes_refuse {walErr failed : Bool} (herr : σ.walErr = true → walErr = true)
    (hunwritten : failed = false → σ.failed = false ∧ σ.caller = .idle) :
    σ.Passes (refuse { σ with walErr := walErr, failed := failed }) := by
  apply passes_of_same
  · intro hf
    obtain ⟨hf, hidle⟩ := hunwritten hf
    exact ⟨hf, by simp only [unwritten, hidle]⟩
  · exact herr
  · intro _ e he
    cases he
  · intro _ e he
    exact .inl (by simpa using he)

theorem Passes.trans {σ'' : Committer P} (h : σ.Passes σ') (h' : σ'.Passes σ'') : σ.Passes σ'' where
  walChanSize := h'.walChanSize.trans h.walChanSize
  wal := h'.wal.trans h.wal
  committed := h'.committed.trans h.committed
  atIndex hw := by
    obtain ⟨hw', hat'⟩ := h'.atIndex hw
    obtain ⟨hw, hat⟩ := h.atIndex hw'
    exact ⟨hw, fun i hi => hat' i (hat i hi)⟩
  walErr he := h'.walErr (h.walErr he)
  unwritten hf := by
    obtain ⟨hf', hu'⟩ := h'.unwritten hf
    obtain ⟨hf, hu⟩ := h.unwritten hf'
    exact ⟨hf, hu'.trans hu⟩
  sent hsize e he := h.sent hsize e (h'.sent (h.walChanSize ▸ hsize) e he)
  returned hsize e he := by
    rcases h'.returned (h.walChanSize ▸ hsize) e he with he | he
    · exact h.returned hsize e he
    · exact .inr (h.sent hsize e he)

section

variable (h : σ.Coordinated)
include h

theorem Coordinated.send (hs : σ.send = some σ') :
    σ.Passes σ' ∧ σ'.Coordinated := by
  obtain ⟨entry, walChan, w, hcaller, hpipe, hcase⟩ := send_inv hs
  obtain ⟨hcap, hsend, hwrite, hbatch, hended, herred, hstop, hlatch⟩ := h
  have hle := hcap _ _ hpipe
  have hasync : ¬σ.walChanSize < 0 := by omega
  rcases hcase with ⟨hroom, rfl⟩ | ⟨hzero, rfl, rfl⟩
  · constructor
    · apply passes_of_same _ id (fun hneg => absurd hneg hasync) fun _ _ => .inl
      intro hf
      refine ⟨hf, ?_⟩
      simp [unwritten, hcaller, hpipe, Pipe.held, Caller.outgoing]
    · constructor <;> grind [isWaiting]
  · have hnil : walChan = [] := by
      apply length_eq_zero_iff.mp
      omega
    constructor
    · apply passes_of_same _ id (fun hneg => absurd hneg hasync) fun _ _ => .inl
      intro hf
      refine ⟨hf, ?_⟩
      simp [unwritten, hcaller, hpipe, Pipe.held, Writer.inHand, Caller.outgoing, hnil]
    · constructor <;> grind [isWaiting]

theorem Coordinated.sendQuit (hs : σ.sendQuit = some σ') :
    σ.Passes σ' ∧ σ'.Coordinated := by
  obtain ⟨entry, walChan, hcaller, hpipe, rfl⟩ := sendQuit_inv hs
  cases h
  -- the caller is not waiting, so the writer is gone because of an error
  have hf : σ.failed = true := by grind [isWaiting]
  constructor
  · apply passes_refuse (fun _ => rfl)
    intro hf'
    rw [hf] at hf'
    cases hf'
  · constructor <;> grind [refuse, isWaiting]

theorem Coordinated.failSync (hs : σ.failSync = some σ') :
    σ.Passes σ' ∧ σ'.Coordinated := by
  obtain ⟨entry, hcaller, rfl⟩ := failSync_inv hs
  cases h
  constructor
  · apply passes_refuse (fun _ => rfl)
    intro hf
    cases hf
  · constructor <;> grind [refuse, isWaiting]

theorem Coordinated.finishCommit {taskFailed : Bool}
    (hs : σ.finishCommit taskFailed = some σ') : σ.Passes σ' ∧ σ'.Coordinated := by
  obtain ⟨entry, hcaller, rfl⟩ := finishCommit_inv hs
  cases h
  constructor
  · refine ⟨rfl, rfl, rfl, fun hw => ⟨hw, fun _ h => h⟩, id, fun hf => ⟨hf, ?_⟩, ?_, ?_⟩
    · simp only [unwritten, hcaller, Caller.outgoing]
    · intro _ e he
      cases he
    · intro _ e he
      rcases mem_append.mp he with he | he
      · exact .inl he
      · rw [mem_singleton] at he
        split_ifs at he
        cases he
        exact .inr hcaller
  · constructor <;> grind [isWaiting]

theorem Coordinated.waitOver (closing : Bool) :
    σ.Passes (σ.waitOver closing) ∧ (σ.waitOver closing).Coordinated := by
  cases closing with
  | false => exact ⟨.refl σ, h⟩
  | true =>
    cases h
    constructor
    · apply passes_of_db
      intro hw
      cases hw
    · constructor <;> assumption

theorem Coordinated.wait {closing : Bool}
    (hs : σ.wait closing = some σ') : σ.Passes σ' ∧ σ'.Coordinated := by
  rw [Committer.wait] at hs
  by_cases hidle : σ.caller = .idle
  · rw [if_neg (not_not_intro hidle)] at hs
    by_cases hpipe : σ.pipe = none
    · rw [if_pos hpipe] at hs
      cases hs
      exact h.waitOver closing
    · rw [if_neg hpipe] at hs
      cases h
      cases hs
      constructor
      · apply passes_of_same _ id _ fun _ _ => .inl
        · intro hf
          exact ⟨hf, by simp only [unwritten, hidle, Caller.outgoing]⟩
        · intro _ e he
          cases he
      · constructor <;> grind [isWaiting]
  · rw [if_pos hidle] at hs
    cases hs

theorem Coordinated.waited (hs : σ.waited = some σ') :
    σ.Passes σ' ∧ σ'.Coordinated := by
  obtain ⟨closing, walChan, hcaller, hpipe, rfl⟩ := waited_inv hs
  cases h
  have hempty : σ.failed = false → walChan = [] := by grind
  have hidle : Coordinated { σ with pipe := none, caller := .idle } := by
    constructor <;> grind [isWaiting]
  obtain ⟨hpass, hcoord⟩ := hidle.waitOver closing
  refine ⟨.trans ?_ hpass, hcoord⟩
  apply passes_of_same _ id _ fun _ _ => .inl
  · intro hf
    refine ⟨hf, ?_⟩
    simp [unwritten, hcaller, hpipe, Pipe.held, Writer.inHand, Caller.outgoing, hempty hf]
  · intro _ e he
    cases he

/-! ## Steps of the writer -/

end

theorem passes_pipe {p p' : Pipe} (hp : σ.pipe = some p) (hheld : p'.held = p.held) :
    σ.Passes { σ with pipe := some p' } := by
  apply passes_of_same _ id (fun _ _ he => he) fun _ _ => .inl
  intro hf
  refine ⟨hf, ?_⟩
  simp only [unwritten, hp, Option.map_some, Option.getD_some, hheld]

section

variable (h : σ.Coordinated)
include h

theorem Coordinated.receive
    (hs : σ.onPipe (Pipe.receive · σ.isWaiting) = some σ') : σ.Passes σ' ∧ σ'.Coordinated := by
  obtain ⟨p, p', hpipe, hp', rfl⟩ := onPipe_inv hs
  cases h
  rcases Pipe.receive_inv hp' with ⟨entry, walChan, rfl, rfl⟩ | ⟨rfl, hclosed, rfl⟩
  · refine ⟨passes_pipe hpipe rfl, ?_⟩
    constructor <;> grind [isWaiting]
  · refine ⟨passes_pipe hpipe rfl, ?_⟩
    constructor <;> grind [isWaiting]

theorem Coordinated.lenChan (hs : σ.onPipe Pipe.lenChan = some σ') :
    σ.Passes σ' ∧ σ'.Coordinated := by
  obtain ⟨p, p', hpipe, hp', rfl⟩ := onPipe_inv hs
  cases h
  obtain ⟨entry, walChan, rfl, rfl⟩ := Pipe.lenChan_inv hp'
  refine ⟨passes_pipe hpipe rfl, ?_⟩
  constructor <;> grind [isWaiting]

theorem Coordinated.receiveMore (hs : σ.onPipe Pipe.receiveMore = some σ') :
    σ.Passes σ' ∧ σ'.Coordinated := by
  obtain ⟨p, p', hpipe, hp', rfl⟩ := onPipe_inv hs
  cases h
  rcases Pipe.receiveMore_inv hp' with
    ⟨entry, walChan, remaining, entries, rfl, rfl⟩ | ⟨walChan, entries, rfl, rfl⟩
  · refine ⟨passes_pipe hpipe ?_, ?_⟩
    · simp [Pipe.held, Writer.inHand]
    · constructor <;> grind [isWaiting]
  · refine ⟨passes_pipe hpipe rfl, ?_⟩
    constructor <;> grind [isWaiting]

theorem Coordinated.readLastIndex
    (hs : σ.onPipe (Pipe.readLastIndex · σ.wal.lastIndex) = some σ') :
    σ.Passes σ' ∧ σ'.Coordinated := by
  obtain ⟨p, p', hpipe, hp', rfl⟩ := onPipe_inv hs
  cases h
  obtain ⟨walChan, entries, rfl, rfl⟩ := Pipe.readLastIndex_inv hp'
  refine ⟨passes_pipe hpipe rfl, ?_⟩
  constructor <;> grind [isWaiting]

theorem Coordinated.closeQuit (hs : σ.onPipe Pipe.closeQuit = some σ') :
    σ.Passes σ' ∧ σ'.Coordinated := by
  obtain ⟨⟨walChan, w⟩, p', hpipe, hp', rfl⟩ := onPipe_inv hs
  cases h
  rw [Pipe.closeQuit] at hp'
  split_ifs at hp' with hw
  cases hp'
  constructor
  · apply passes_pipe hpipe
    rcases hw with hw | hw
    · cases hw
      rfl
    · cases hw
      rfl
  · constructor <;> grind [isWaiting]

theorem Coordinated.failWriter (hs : σ.failWriter = some σ') :
    σ.Passes σ' ∧ σ'.Coordinated := by
  obtain ⟨walChan, w, hpipe, rfl⟩ := failWriter_inv hs
  cases h
  constructor
  · apply passes_of_same _ id (fun _ _ he => he) fun _ _ => .inl
    intro hf
    cases hf
  · constructor <;> grind [isWaiting]

theorem Coordinated.latch (hs : σ.latch = some σ') :
    σ.Passes σ' ∧ σ'.Coordinated := by
  obtain ⟨walChan, hpipe, rfl⟩ := latch_inv hs
  cases h
  constructor
  · apply passes_of_same _ (fun _ => rfl) (fun _ _ he => he) fun _ _ => .inl
    intro hf
    refine ⟨hf, ?_⟩
    simp only [unwritten, hpipe, Option.map_some, Pipe.held, Writer.inHand]
  · constructor <;> grind [isWaiting]

/-! ## Commits and writes -/

theorem Coordinated.apply (a : Apply) :
    σ.Passes { σ with db := stateAfter (σ.db.apply a) } ∧
      Coordinated { σ with db := stateAfter (σ.db.apply a) } := by
  refine ⟨passes_of_db fun hw => ⟨hw, fun i hi => DB.atIndex_apply hi a⟩, ?_⟩
  cases h
  constructor <;> assumption

theorem Coordinated.refuse (hidle : σ.caller = .idle) :
    σ.Passes σ.refuse ∧ σ.refuse.Coordinated := by
  cases h
  constructor
  · exact passes_refuse id fun hf => ⟨hf, hidle⟩
  · constructor <;> grind [Committer.refuse, isWaiting]

theorem Coordinated.route (hidle : σ.caller = .idle) (hopen : σ.walWriter = true)
    (hwal : σ.walErr = false) {entry : WalEntry}
    (hroute : σ.route entry = (pipe, caller)) (db : DB) (committed : List WalEntry) :
    Coordinated { σ with db := db, pipe := pipe, caller := caller, committed := committed } ∧
      unwritten { σ with db := db, pipe := pipe, caller := caller, committed := committed } =
        σ.unwritten ++ [entry] ∧ ∀ e, caller ≠ .sent e := by
  obtain ⟨hcap, hsend, hwrite, hbatch, hended, herred, hstop, hlatch⟩ := h
  unfold Committer.route at hroute
  rw [hopen, if_neg (by decide)] at hroute
  cases hp : σ.pipe with
  | none =>
    split_ifs at hroute
    · cases hroute
      refine ⟨?_, ?_, by simp⟩
      · constructor <;> grind [isWaiting]
      · simp [unwritten, hp, hidle, Pipe.held, Writer.inHand, Caller.outgoing]
    · cases hroute
      refine ⟨?_, ?_, by simp⟩
      · constructor <;> grind [isWaiting]
      · simp [unwritten, hp, hidle, Caller.outgoing]
  | some p =>
    obtain ⟨walChan, w⟩ := p
    have hsize : 0 ≤ σ.walChanSize := by
      have := hcap _ _ hp
      omega
    rw [if_pos hsize, hp] at hroute
    cases hroute
    refine ⟨?_, ?_, by simp⟩
    · constructor <;> grind [isWaiting]
    · simp [unwritten, hp, hidle, Caller.outgoing]

end

variable [WALCodec P]

theorem Inv.of_passes (h : Inv σ₀ σ) (hs : σ.Passes σ' ∧ σ'.Coordinated) :
    Inv σ₀ σ' ∧ σ.Persists σ' := by
  obtain ⟨hp, hc⟩ := hs
  refine ⟨⟨hc, hp.committed ▸ h.consecutive, fun hw => ?_, ?_, fun hsize e he => ?_,
    fun hsize e he => ?_⟩, hp.persists⟩
  · obtain ⟨hw, hat⟩ := hp.atIndex hw
    rw [hp.committed]
    exact hat _ (h.atIndex hw)
  · obtain ⟨done, rest, hcom, hext, hrest⟩ := h.prefixed
    refine ⟨done, rest, hp.committed.trans hcom, hp.wal ▸ hext, fun hf => ?_⟩
    obtain ⟨hf, hu⟩ := hp.unwritten hf
    exact (hrest hf).trans hu.symm
  · rw [hp.walChanSize] at hsize
    rw [hp.wal]
    exact h.sent hsize e (hp.sent hsize e he)
  · rw [hp.walChanSize] at hsize
    rw [hp.wal]
    rcases hp.returned hsize e he with he | he
    · exact h.returned hsize e he
    · exact h.sent hsize e he

/-- While no write has failed, the entries on their way go on from the log. -/
theorem Inv.unwritten_consecutive (h : Inv σ₀ σ) (hf : σ.failed = false) :
    ∃ done, σ.committed = done ++ σ.unwritten ∧ Extends σ₀.wal σ.wal done ∧
      Consecutive σ.wal.lastIndex σ.unwritten := by
  obtain ⟨done, rest, hcom, hext, hrest⟩ := h.prefixed
  obtain rfl := hrest hf
  have hcons := h.consecutive
  rw [hcom, Consecutive.append_iff] at hcons
  exact ⟨done, hcom, hext, hext.lastIndex ▸ hcons.2⟩

theorem Inv.commit [Sha256] (h : Inv σ₀ σ) (hopen : σ.walWriter = true) (hs : σ.commit = some σ') :
    Inv σ₀ σ' ∧ σ.Persists σ' := by
  obtain ⟨hidle, ⟨db, rfl, hdb⟩ | ⟨entry, db, hwal, hsave, hlt, rfl⟩⟩ := commit_inv hs
  · have hsame : db = σ.db := by
      rcases hdb with rfl | ⟨f, hsave, rfl⟩
      · rfl
      · exact DB.saveVersion_error hsave
    rw [hsame]
    exact h.of_passes (h.refuse hidle)
  · obtain ⟨hindex, hat⟩ := DB.saveVersion_atIndex hsave (h.atIndex hopen) hlt
    obtain ⟨hcoord, hnew, hsent⟩ :=
      h.toCoordinated.route hidle hopen hwal (Prod.mk.eta).symm db (σ.committed ++ [entry])
    refine ⟨⟨hcoord, ?_, fun _ => ?_, ?_, fun _ e he => absurd he (hsent e), h.returned⟩,
      fun hf => ⟨hf, rfl⟩, id⟩
    · refine Consecutive.append_iff.mpr ⟨h.consecutive, ?_⟩
      exact Consecutive.cons_iff.mpr ⟨hindex, fun k e he => by cases he⟩
    · rw [length_append, length_singleton, ← Nat.add_assoc]
      exact hat
    · obtain ⟨done, rest, hcom, hext, hrest⟩ := h.prefixed
      refine ⟨done, rest ++ [entry], by rw [hcom, append_assoc], hext, fun hf => ?_⟩
      rw [hnew, hrest hf]

theorem logHolds_of_extends {log log' : IndexedLog P} {entries : List WalEntry}
    (h : Extends log log' entries) {i : Nat} {data : WALEntry}
    (hold : MultiTree.LogHolds log i data) : MultiTree.LogHolds log' i data := by
  have hle : i ≤ log.lastIndex := by
    by_contra hlt
    rw [MultiTree.LogHolds, IndexedLog.read_eq_none (by omega)] at hold
    cases hold
  rw [MultiTree.LogHolds, h.old i hle]
  exact hold

theorem Inv.wrote (h : Inv σ₀ σ) (hf : σ.failed = false) {entries rest : List WalEntry}
    (hu : σ.unwritten = entries ++ rest) {wal : IndexedLog P} (hext : Extends σ.wal wal entries)
    (hcoord : Coordinated { σ with wal := wal, pipe := pipe, caller := caller })
    (hrest : unwritten { σ with wal := wal, pipe := pipe, caller := caller } = rest)
    (hsent : ∀ e, caller = .sent e → σ.caller = .sent e ∨ entries = [e]) :
    Inv σ₀ { σ with wal := wal, pipe := pipe, caller := caller } ∧
      σ.Persists { σ with wal := wal, pipe := pipe, caller := caller } := by
  obtain ⟨done, hcom, hext0, hcons⟩ := h.unwritten_consecutive hf
  refine ⟨⟨hcoord, h.consecutive, h.atIndex, ?_, fun hneg e he => ?_, fun hneg e he => ?_⟩, ?_, id⟩
  · refine ⟨done ++ entries, rest, ?_, hext0.trans hext, fun _ => hrest.symm⟩
    rw [hcom, hu, append_assoc]
  · rcases hsent e he with he | rfl
    · exact logHolds_of_extends hext (h.sent hneg e he)
    · rw [hu, singleton_append, Consecutive.cons_iff] at hcons
      rw [hcons.1]
      exact hext.new 0 e rfl
  · exact logHolds_of_extends hext (h.returned hneg e he)
  · intro hf'
    rw [hf] at hf'
    cases hf'

theorem Inv.writeSync (h : Inv σ₀ σ) (hs : σ.writeSync = some σ') :
    Inv σ₀ σ' ∧ σ.Persists σ' := by
  obtain ⟨entry, hcaller, hwrote⟩ := writeSync_inv hs
  obtain ⟨hnone, hf⟩ := h.writing entry hcaller
  have hu : σ.unwritten = [entry] ++ [] := by simp [unwritten, hnone, hcaller, Caller.outgoing]
  obtain ⟨-, -, -, hcons⟩ := h.unwritten_consecutive hf
  rw [hu] at hcons
  obtain ⟨wal, hw, hext⟩ := writeEntries_consecutive hcons
  rw [append_nil] at hw
  obtain rfl := hwrote wal hw
  refine h.wrote hf hu hext ?_ ?_ ?_
  · cases h.toCoordinated
    constructor <;> grind [isWaiting]
  · simp [unwritten, hnone, Caller.outgoing]
  · intro e he
    cases he
    exact .inr rfl

theorem Inv.writeBatch (h : Inv σ₀ σ) (hs : σ.writeBatch = some σ') :
    Inv σ₀ σ' ∧ σ.Persists σ' := by
  obtain ⟨walChan, entries, n, hpipe, hwrote⟩ := writeBatch_inv hs
  have hf : σ.failed = false := by
    by_contra hf
    simpa using h.stopped _ _ (by simpa using hf) hpipe
  obtain rfl := h.batching _ _ _ hpipe
  have hu : σ.unwritten = entries ++ (walChan ++ σ.caller.outgoing) := by
    simp [unwritten, hpipe, Pipe.held, Writer.inHand]
  obtain ⟨-, -, -, hcons⟩ := h.unwritten_consecutive hf
  rw [hu, Consecutive.append_iff] at hcons
  obtain ⟨wal, hw, hext⟩ := writeEntries_consecutive hcons.1
  obtain rfl := hwrote wal hw
  refine h.wrote hf hu hext ?_ ?_ fun e he => .inl he
  · cases h.toCoordinated
    constructor <;> grind [isWaiting]
  · simp [unwritten, Pipe.held, Writer.inHand]

variable [Sha256]

theorem Inv.step (h : Inv σ₀ σ) {a : CommitterAction} (hopen : σ.Open a) (hs : σ.step a = some σ') :
    Inv σ₀ σ' ∧ σ.Persists σ' := by
  cases a with
  | apply a =>
    rw [Committer.step] at hs
    split_ifs at hs
    cases hs
    exact h.of_passes (h.apply a)
  | commit => exact h.commit (hopen rfl) hs
  | send => exact h.of_passes (h.send hs)
  | sendQuit => exact h.of_passes (h.sendQuit hs)
  | writeSync => exact h.writeSync hs
  | failSync => exact h.of_passes (h.failSync hs)
  | finishCommit taskFailed => exact h.of_passes (h.finishCommit hs)
  | waitAsyncCommit => exact h.of_passes (h.wait hs)
  | close => exact h.of_passes (h.wait hs)
  | waited => exact h.of_passes (h.waited hs)
  | receive => exact h.of_passes (h.receive hs)
  | lenChan => exact h.of_passes (h.lenChan hs)
  | receiveMore => exact h.of_passes (h.receiveMore hs)
  | readLastIndex => exact h.of_passes (h.readLastIndex hs)
  | writeBatch => exact h.writeBatch hs
  | failWriter => exact h.of_passes (h.failWriter hs)
  | latch => exact h.of_passes (h.latch hs)
  | closeQuit => exact h.of_passes (h.closeQuit hs)

omit [Sha256] in
theorem Loaded.inv (h : σ₀.Loaded) : Inv σ₀ σ₀ := by
  obtain ⟨hat, hww, hpipe, herr, hcaller, hcom, hret, hfailed⟩ := h
  refine ⟨?_, ?_, fun _ => ?_, ⟨[], [], ?_, .refl _, fun _ => ?_⟩, ?_, ?_⟩
  · constructor <;> simp [hpipe, hcaller, herr, hfailed]
  · simp [Consecutive, hcom]
  · rw [hcom]
    exact hat
  · rw [hcom, append_nil]
  · simp [unwritten, hpipe, hcaller, Caller.outgoing]
  · simp [hcaller]
  · simp [hret]

theorem Inv.run (h : Inv σ₀ σ) (hrun : Runs Committer.step Open σ σ') : Inv σ₀ σ' ∧ σ.Persists σ' := by
  refine hrun.invariant (I := fun σ' => Inv σ₀ σ' ∧ σ.Persists σ') ⟨h, fun hf => ⟨hf, rfl⟩, id⟩ ?_
  rintro σ1 a σ2 ⟨hinv, hpers⟩ hopen hs
  obtain ⟨hinv', hpers'⟩ := hinv.step hopen hs
  refine ⟨hinv', fun hf => ?_, fun he => hpers'.walErr (hpers.walErr he)⟩
  obtain ⟨hf1, hw1⟩ := hpers.failed hf
  obtain ⟨hf2, hw2⟩ := hpers'.failed hf1
  exact ⟨hf2, hw2.trans hw1⟩

omit [WALCodec P] in
/-- Once an error is latched, a `Commit` returns it and changes nothing. -/
theorem commit_latched (he : σ.walErr = true) (hs : σ.commit = some σ') :
    σ' = { σ with returned := σ.returned ++ [none] } := by
  obtain ⟨hidle, ⟨db, rfl, hdb⟩ | ⟨entry, db, hwal, -⟩⟩ := commit_inv hs
  · rw [refuse, ← hidle]
    rcases hdb with rfl | ⟨f, hsave, rfl⟩
    · rfl
    · rw [DB.saveVersion_error hsave]
  · rw [he] at hwal
    cases hwal

/-- In any run from a database that was loaded at the last version of its log, in which
`Commit` is not called after `Close`: the log is what it was with the first entries of the
committed versions, whose indices go on from it; after a failure nothing is written; a `Commit`
after the error was latched returns an error and leaves everything else as it is; and in
synchronous mode what a successful `Commit` committed is in the log. -/
theorem wal_prefix_of_commits (h₀ : σ₀.Loaded) (hrun : Runs step Open σ₀ σ) :
    Consecutive σ₀.wal.lastIndex σ.committed ∧
    (σ.walWriter = true → σ.db.mtree.AtIndex (σ₀.wal.lastIndex + σ.committed.length)) ∧
    (∃ done rest, σ.committed = done ++ rest ∧ Extends σ₀.wal σ.wal done) ∧
    (σ.failed = true → ∀ σ', Runs step Open σ σ' → σ'.wal = σ.wal) ∧
    (σ.walErr = true → ∀ σ' σ'', Runs step Open σ σ' → σ'.step .commit = some σ'' →
      σ'' = { σ' with returned := σ'.returned ++ [none] }) ∧
    (σ.walChanSize < 0 → ∀ e, some e ∈ σ.returned → MultiTree.LogHolds σ.wal e.index e.data) := by
  have hinv := (h₀.inv.run hrun).1
  obtain ⟨done, rest, hcom, hext, -⟩ := hinv.prefixed
  refine ⟨hinv.consecutive, hinv.atIndex, ⟨done, rest, hcom, hext⟩, ?_, ?_, hinv.returned⟩
  · intro hf σ' hrun'
    exact ((hinv.run hrun').2.failed hf).2
  · intro he σ' σ'' hrun' hs
    exact commit_latched ((hinv.run hrun').2.walErr he) hs

omit [WALCodec P] [Sha256] in
def fresh (walChanSize : Int) : Committer WALEntry where
  walChanSize := walChanSize
  db := .new (.fresh 0) false
  wal := .empty
  walWriter := true
  pipe := none
  walErr := false
  caller := .idle
  committed := []
  returned := []
  failed := false

instance (σ : Committer P) (a : CommitterAction) : Decidable (σ.Open a) :=
  inferInstanceAs (Decidable (_ → _))

omit [WALCodec P] [Sha256] in
theorem fresh_loaded (walChanSize : Int) : (fresh walChanSize).Loaded where
  atIndex := ⟨.inl rfl, show (0 : Int) < 2 ^ 63 by decide⟩
  walWriter := rfl
  pipe := rfl
  walErr := rfl
  caller := rfl
  committed := rfl
  returned := rfl
  failed := rfl

def brokenWriter : List CommitterAction :=
  [.apply (.upgrades [⟨[1], [], false⟩]), .commit, .send, .finishCommit false, .receive, .lenChan,
    .receiveMore, .readLastIndex, .writeBatch, .commit, .send, .finishCommit false, .receive,
    .lenChan, .commit, .send, .finishCommit false, .receiveMore, .commit, .readLastIndex,
    .failWriter, .latch, .closeQuit, .sendQuit, .close, .waited]

omit [WALCodec P] [Sha256] in
theorem wal_prefix_of_commits_broken : let _ := Sha256.zero
    ∃ σ, runActions step Open (fresh 1) brokenWriter = some σ ∧
      σ.wal.lastIndex = 1 ∧ σ.committed.length = 4 ∧
      ∃ done rest, σ.committed = done ++ rest ∧ Extends (fresh 1).wal σ.wal done := by
  let _ := Sha256.zero
  obtain ⟨σ, hσ⟩ := Option.isSome_iff_exists.mp
    (show (runActions step Open (fresh 1) brokenWriter).isSome from by decide)
  have hlen : (runActions step Open (fresh 1) brokenWriter).map
      (fun σ => (σ.wal.lastIndex, σ.committed.length)) = some (1, 4) := by decide
  rw [hσ, Option.map_some, Option.some.injEq, Prod.mk.injEq] at hlen
  exact ⟨σ, hσ, hlen.1, hlen.2,
    (wal_prefix_of_commits (fresh_loaded 1) (Runs.init.runActions hσ)).2.2.1⟩

omit [WALCodec P] [Sha256] in
/-- `Commit` after `Close`: the log is not written any more. -/
theorem exists_commit_not_logged : let _ := Sha256.zero
    ∃ σ, Runs step (fun _ _ => True) (fresh (-1)) σ ∧ σ.walChanSize < 0 ∧
      ∃ e, some e ∈ σ.returned ∧ ¬MultiTree.LogHolds σ.wal e.index e.data := by
  let _ := Sha256.zero
  obtain ⟨σ, hσ⟩ := Option.isSome_iff_exists.mp
    (show (runActions step (fun _ _ => True) (fresh (-1)) [.close, .commit, .finishCommit false]).isSome
      from by decide)
  have hend : (runActions step (fun _ _ => True) (fresh (-1)) [.close, .commit, .finishCommit false]).map
      (fun σ => (σ.walChanSize, σ.returned, σ.wal)) =
        some (-1, [some ⟨1, ⟨[], []⟩⟩], IndexedLog.empty) := by decide
  rw [hσ, Option.map_some, Option.some.injEq, Prod.mk.injEq, Prod.mk.injEq] at hend
  obtain ⟨hsize, hret, hwal⟩ := hend
  refine ⟨σ, Runs.init.runActions hσ, by rw [hsize]; decide, ⟨1, ⟨[], []⟩⟩, ?_, ?_⟩
  · rw [hret]
    exact mem_singleton_self _
  · rw [hwal]
    exact fun h => by cases h

end Committer

end CronosStore.Memiavl
