import CronosStore.Foundation.Transitions
import CronosStore.Memiavl.Calls

/-!
# Commits and the writer of the log

`Commit`, `WaitAsyncCommit` and `Close` of `memiavl/db.go` and the goroutine that writes the
log, step by step: each action is one operation on what the two share, that is the channel
of entries, the channel that tells that the writer is gone, the latched error and the log.
The caller holds the mutex of the database from the start of a call to its end, so it is in
one call at a time (`Caller`), and a call that waits has closed the channel of entries.

Any read or write of the log may fail; a batch is written as a whole or not at all. At the
end of a `Commit` the other background tasks may add an error of their own. What they do to
the trees is left out here, since it neither writes the log nor changes a version; where they
wait for the writer, this is the same as a call of `WaitAsyncCommit` after the `Commit`.

The state keeps the entries of all committed versions, what the calls of `Commit` came back
with, and whether a write has failed; no step reads these.
-/

namespace CronosStore.Memiavl

open Foundation

/-- Where the goroutine that writes the log is. -/
inductive Writer
  | receiving
  /-- It has an entry and will look how many more there are. -/
  | received (entry : WalEntry)
  | collecting (remaining : Nat) (entries : List WalEntry)
  | collected (entries : List WalEntry)
  | batching (entries : List WalEntry) (lastIndex : Nat)
  | returned (failed : Bool)
  | latched
  | quit
deriving DecidableEq

structure Pipe where
  walChan : List WalEntry
  writer : Writer
deriving DecidableEq

/-- Where the caller is. -/
inductive Caller
  | idle
  /-- In the `select` of `Commit`. -/
  | sending (entry : WalEntry)
  | writing (entry : WalEntry)
  | sent (entry : WalEntry)
  /-- In `waitAsyncCommit`, of a `Close` or not. -/
  | waiting (closing : Bool)
deriving DecidableEq

structure Committer (P : Type) where
  walChanSize : Int
  db : DB
  wal : IndexedLog P
  walWriter : Bool
  pipe : Option Pipe
  walErr : Bool
  caller : Caller
  committed : List WalEntry
  /-- The entry of each `Commit` that came back without an error. -/
  returned : List (Option WalEntry)
  failed : Bool

inductive CommitterAction
  | apply (a : Apply)
  | commit
  | send
  | sendQuit
  | writeSync
  | failSync
  | finishCommit (taskFailed : Bool)
  | waitAsyncCommit
  | close
  | waited
  | receive
  | lenChan
  | receiveMore
  | readLastIndex
  | writeBatch
  | failWriter
  | latch
  | closeQuit
deriving DecidableEq

def MultiTree.close (t : MultiTree) : MultiTree :=
  { t with trees := [], treesByName := [], lastCommitInfo := ⟨0, []⟩ }

/-! ## The writer and the channel -/

namespace Pipe

variable {p p' : Pipe}

def receive (p : Pipe) (closed : Bool) : Option Pipe :=
  match p.writer, p.walChan with
  | .receiving, entry :: walChan => some ⟨walChan, .received entry⟩
  | .receiving, [] => if closed then some ⟨[], .returned false⟩ else none
  | _, _ => none

theorem receive_inv {closed : Bool} (h : p.receive closed = some p') :
    (∃ entry walChan, p = ⟨entry :: walChan, .receiving⟩ ∧ p' = ⟨walChan, .received entry⟩) ∨
      p = ⟨[], .receiving⟩ ∧ closed = true ∧ p' = ⟨[], .returned false⟩ := by
  obtain ⟨walChan, w⟩ := p
  unfold receive at h
  split at h
  · rename_i entry rest hw hc
    cases h
    exact .inl ⟨entry, rest, by simp_all⟩
  · rename_i hw hc
    split_ifs at h with hclosed
    cases h
    exact .inr ⟨by simp_all, hclosed, rfl⟩
  · cases h

def lenChan (p : Pipe) : Option Pipe :=
  match p.writer with
  | .received entry => some { p with writer := .collecting p.walChan.length [entry] }
  | _ => none

theorem lenChan_inv (h : p.lenChan = some p') : ∃ entry walChan, p = ⟨walChan, .received entry⟩ ∧
    p' = ⟨walChan, .collecting walChan.length [entry]⟩ := by
  obtain ⟨walChan, w⟩ := p
  unfold lenChan at h
  split at h
  · rename_i entry hw
    cases h
    exact ⟨entry, walChan, by simp_all⟩
  · cases h

def receiveMore (p : Pipe) : Option Pipe :=
  match p.writer, p.walChan with
  | .collecting (remaining + 1) entries, entry :: walChan =>
    some ⟨walChan, .collecting remaining (entries ++ [entry])⟩
  | .collecting 0 entries, walChan => some ⟨walChan, .collected entries⟩
  | _, _ => none

theorem receiveMore_inv (h : p.receiveMore = some p') :
    (∃ entry walChan remaining entries, p = ⟨entry :: walChan, .collecting (remaining + 1) entries⟩ ∧
      p' = ⟨walChan, .collecting remaining (entries ++ [entry])⟩) ∨
    ∃ walChan entries, p = ⟨walChan, .collecting 0 entries⟩ ∧ p' = ⟨walChan, .collected entries⟩ := by
  obtain ⟨walChan, w⟩ := p
  unfold receiveMore at h
  split at h
  · rename_i remaining entries entry rest hw hc
    cases h
    exact .inl ⟨entry, rest, remaining, entries, by simp_all⟩
  · rename_i entries hw
    cases h
    exact .inr ⟨walChan, entries, by simp_all⟩
  · cases h

def readLastIndex (p : Pipe) (lastIndex : Nat) : Option Pipe :=
  match p.writer with
  | .collected entries => some { p with writer := .batching entries lastIndex }
  | _ => none

theorem readLastIndex_inv {lastIndex : Nat} (h : p.readLastIndex lastIndex = some p') :
    ∃ walChan entries, p = ⟨walChan, .collected entries⟩ ∧
      p' = ⟨walChan, .batching entries lastIndex⟩ := by
  obtain ⟨walChan, w⟩ := p
  unfold readLastIndex at h
  split at h
  · rename_i entries hw
    cases h
    exact ⟨walChan, entries, by simp_all⟩
  · cases h

def closeQuit (p : Pipe) : Option Pipe :=
  if p.writer = .returned false ∨ p.writer = .latched then some { p with writer := .quit } else none

end Pipe

namespace Committer

variable {P : Type} {σ σ' : Committer P}

def onPipe (σ : Committer P) (f : Pipe → Option Pipe) : Option (Committer P) := do
  let p ← f (← σ.pipe)
  pure { σ with pipe := some p }

theorem onPipe_inv {f : Pipe → Option Pipe} (hs : σ.onPipe f = some σ') :
    ∃ p p', σ.pipe = some p ∧ f p = some p' ∧ σ' = { σ with pipe := some p' } := by
  unfold onPipe at hs
  cases hp : σ.pipe with
  | none =>
    rw [hp] at hs
    cases hs
  | some p =>
    cases hp' : f p with
    | none =>
      rw [hp] at hs
      simp [hp'] at hs
    | some p' =>
      rw [hp] at hs
      simp only [Results.some_bind, hp', Option.pure_def, Option.some.injEq] at hs
      exact ⟨p, p', rfl, hp', hs.symm⟩

def failWriter (σ : Committer P) : Option (Committer P) :=
  match σ.pipe with
  | some ⟨walChan, .collected _⟩ =>
    some { σ with pipe := some ⟨walChan, .returned true⟩, failed := true }
  | some ⟨walChan, .batching _ _⟩ =>
    some { σ with pipe := some ⟨walChan, .returned true⟩, failed := true }
  | _ => none

theorem failWriter_inv (hs : σ.failWriter = some σ') : ∃ walChan w, σ.pipe = some ⟨walChan, w⟩ ∧
    σ' = { σ with pipe := some ⟨walChan, .returned true⟩, failed := true } := by
  unfold failWriter at hs
  split at hs
  · rename_i walChan entries hp
    exact ⟨walChan, _, hp, (Option.some.inj hs).symm⟩
  · rename_i walChan entries n hp
    exact ⟨walChan, _, hp, (Option.some.inj hs).symm⟩
  · cases hs

def writeBatch [WALCodec P] (σ : Committer P) : Option (Committer P) :=
  match σ.pipe with
  | some ⟨walChan, .batching entries lastIndex⟩ =>
    match σ.wal.writeBatch ((entries.filter fun e => lastIndex < e.index).map fun e =>
        (e.index, marshal e.data)) with
    | none => σ.failWriter
    | some wal => some { σ with wal := wal, pipe := some ⟨walChan, .receiving⟩ }
  | _ => none

theorem writeBatch_inv [WALCodec P] (hs : σ.writeBatch = some σ') :
    ∃ walChan entries lastIndex, σ.pipe = some ⟨walChan, .batching entries lastIndex⟩ ∧
      ∀ wal, σ.wal.writeBatch ((entries.filter fun e => lastIndex < e.index).map fun e =>
        (e.index, marshal e.data)) = some wal →
          σ' = { σ with wal := wal, pipe := some ⟨walChan, .receiving⟩ } := by
  unfold writeBatch at hs
  split at hs
  · rename_i walChan entries lastIndex hp
    refine ⟨walChan, entries, lastIndex, hp, fun wal hw => ?_⟩
    rw [hw] at hs
    exact (Option.some.inj hs).symm
  · cases hs

def latch (σ : Committer P) : Option (Committer P) :=
  match σ.pipe with
  | some ⟨walChan, .returned true⟩ =>
    some { σ with pipe := some ⟨walChan, .latched⟩, walErr := true }
  | _ => none

theorem latch_inv (hs : σ.latch = some σ') : ∃ walChan, σ.pipe = some ⟨walChan, .returned true⟩ ∧
    σ' = { σ with pipe := some ⟨walChan, .latched⟩, walErr := true } := by
  unfold latch at hs
  split at hs
  · rename_i walChan hp
    exact ⟨walChan, hp, (Option.some.inj hs).symm⟩
  · cases hs

def refuse (σ : Committer P) : Committer P :=
  { σ with caller := .idle, returned := σ.returned ++ [none] }

def route (σ : Committer P) (entry : WalEntry) : Option Pipe × Caller :=
  if !σ.walWriter then (σ.pipe, .sent entry)
  else if σ.walChanSize ≥ 0 then
    -- `initAsyncCommit`
    (some (σ.pipe.getD ⟨[], .receiving⟩), .sending entry)
  else (σ.pipe, .writing entry)

/-- `Commit` up to where the entry goes. Versions are `int64`. -/
def commit [Sha256] (σ : Committer P) : Option (Committer P) :=
  if σ.caller ≠ .idle then none
  else if σ.db.readOnly || σ.walErr then some σ.refuse
  else
    match σ.db.saveVersion with
    | .error f => some (refuse { σ with db := f.state })
    | .ok (entry, db) =>
      if db.mtree.version < 2 ^ 63 then
        some { σ with
          db := db
          pipe := (σ.route entry).1
          caller := (σ.route entry).2
          committed := σ.committed ++ [entry] }
      else none

theorem commit_inv [Sha256] (hs : σ.commit = some σ') :
    σ.caller = .idle ∧ ((∃ db, σ' = refuse { σ with db := db } ∧
      (σ.db = db ∨ ∃ f, σ.db.saveVersion = .error f ∧ db = f.state)) ∨
    ∃ entry db, σ.walErr = false ∧ σ.db.saveVersion = .ok (entry, db) ∧ db.mtree.version < 2 ^ 63 ∧
      σ' = { σ with db := db, pipe := (σ.route entry).1, caller := (σ.route entry).2,
                    committed := σ.committed ++ [entry] }) := by
  unfold commit at hs
  split_ifs at hs with hidle hrefuse
  · exact ⟨by simpa using hidle, .inl ⟨σ.db, (Option.some.inj hs).symm, .inl rfl⟩⟩
  · refine ⟨by simpa using hidle, ?_⟩
    cases hsave : σ.db.saveVersion with
    | error f =>
      rw [hsave] at hs
      exact .inl ⟨f.state, (Option.some.inj hs).symm, .inr ⟨f, rfl, rfl⟩⟩
    | ok r =>
      rw [hsave] at hs
      simp only at hs
      split_ifs at hs with hlt
      simp only [Bool.or_eq_true, not_or, Bool.not_eq_true] at hrefuse
      exact .inr ⟨r.1, r.2, hrefuse.2, rfl, hlt, (Option.some.inj hs).symm⟩

def send (σ : Committer P) : Option (Committer P) :=
  match σ.caller, σ.pipe with
  | .sending entry, some ⟨walChan, writer⟩ =>
    if (walChan.length : Int) < σ.walChanSize then
      some { σ with caller := .sent entry, pipe := some ⟨walChan ++ [entry], writer⟩ }
    else if σ.walChanSize = 0 ∧ writer = .receiving then
      some { σ with caller := .sent entry, pipe := some ⟨walChan, .received entry⟩ }
    else none
  | _, _ => none

theorem send_inv (hs : σ.send = some σ') :
    ∃ entry walChan w, σ.caller = .sending entry ∧ σ.pipe = some ⟨walChan, w⟩ ∧
      ((walChan.length : Int) < σ.walChanSize ∧
        σ' = { σ with caller := .sent entry, pipe := some ⟨walChan ++ [entry], w⟩ } ∨
      σ.walChanSize = 0 ∧ w = .receiving ∧
        σ' = { σ with caller := .sent entry, pipe := some ⟨walChan, .received entry⟩ }) := by
  unfold send at hs
  split at hs
  · rename_i entry walChan w hcaller hpipe
    refine ⟨entry, walChan, w, hcaller, hpipe, ?_⟩
    split_ifs at hs with hroom hdirect
    · exact .inl ⟨hroom, (Option.some.inj hs).symm⟩
    · exact .inr ⟨hdirect.1, hdirect.2, (Option.some.inj hs).symm⟩
  · cases hs

def sendQuit (σ : Committer P) : Option (Committer P) :=
  match σ.caller, σ.pipe with
  | .sending _, some ⟨_, .quit⟩ => some (refuse { σ with walErr := true })
  | _, _ => none

theorem sendQuit_inv (hs : σ.sendQuit = some σ') :
    ∃ entry walChan, σ.caller = .sending entry ∧ σ.pipe = some ⟨walChan, .quit⟩ ∧
      σ' = refuse { σ with walErr := true } := by
  unfold sendQuit at hs
  split at hs
  · rename_i entry walChan hcaller hpipe
    exact ⟨entry, walChan, hcaller, hpipe, (Option.some.inj hs).symm⟩
  · cases hs

def failSync (σ : Committer P) : Option (Committer P) :=
  match σ.caller with
  | .writing _ => some (refuse { σ with walErr := true, failed := true })
  | _ => none

theorem failSync_inv (hs : σ.failSync = some σ') : ∃ entry, σ.caller = .writing entry ∧
    σ' = refuse { σ with walErr := true, failed := true } := by
  unfold failSync at hs
  split at hs
  · rename_i entry hcaller
    exact ⟨entry, hcaller, (Option.some.inj hs).symm⟩
  · cases hs

def writeSync [WALCodec P] (σ : Committer P) : Option (Committer P) :=
  match σ.caller with
  | .writing entry =>
    match writeEntries σ.wal [entry] with
    | none => σ.failSync
    | some wal => some { σ with wal := wal, caller := .sent entry }
  | _ => none

theorem writeSync_inv [WALCodec P] (hs : σ.writeSync = some σ') :
    ∃ entry, σ.caller = .writing entry ∧ ∀ wal, writeEntries σ.wal [entry] = some wal →
      σ' = { σ with wal := wal, caller := .sent entry } := by
  unfold writeSync at hs
  split at hs
  · rename_i entry hcaller
    refine ⟨entry, hcaller, fun wal hw => ?_⟩
    rw [hw] at hs
    exact (Option.some.inj hs).symm
  · cases hs

def finishCommit (σ : Committer P) (taskFailed : Bool) : Option (Committer P) :=
  match σ.caller with
  | .sent entry =>
    some { σ with
      db := σ.db.clearPending
      caller := .idle
      returned := σ.returned ++ [if σ.walErr || taskFailed then none else some entry] }
  | _ => none

theorem finishCommit_inv {taskFailed : Bool} (hs : σ.finishCommit taskFailed = some σ') :
    ∃ entry, σ.caller = .sent entry ∧
      σ' = { σ with db := σ.db.clearPending, caller := .idle, returned :=
                σ.returned ++ [if σ.walErr || taskFailed then none else some entry] } := by
  unfold finishCommit at hs
  split at hs
  · rename_i entry hcaller
    exact ⟨entry, hcaller, (Option.some.inj hs).symm⟩
  · cases hs

def waitOver (σ : Committer P) (closing : Bool) : Committer P :=
  if closing then { σ with walWriter := false, db := { σ.db with mtree := σ.db.mtree.close } }
  else σ

def wait (σ : Committer P) (closing : Bool) : Option (Committer P) :=
  if σ.caller ≠ .idle then none
  else if σ.pipe = none then some (σ.waitOver closing)
  else some { σ with caller := .waiting closing }

def waited (σ : Committer P) : Option (Committer P) :=
  match σ.caller, σ.pipe with
  | .waiting closing, some ⟨_, .quit⟩ =>
    some (waitOver { σ with pipe := none, caller := .idle } closing)
  | _, _ => none

theorem waited_inv (hs : σ.waited = some σ') :
    ∃ closing walChan, σ.caller = .waiting closing ∧ σ.pipe = some ⟨walChan, .quit⟩ ∧
      σ' = waitOver { σ with pipe := none, caller := .idle } closing := by
  unfold waited at hs
  split at hs
  · rename_i closing walChan hcaller hpipe
    exact ⟨closing, walChan, hcaller, hpipe, (Option.some.inj hs).symm⟩
  · cases hs

def isWaiting (σ : Committer P) : Bool :=
  match σ.caller with
  | .waiting _ => true
  | _ => false

/-! ## Both together -/

def step [WALCodec P] [Sha256] (σ : Committer P) : CommitterAction → Option (Committer P)
  | .apply a => if σ.caller = .idle then some { σ with db := stateAfter (σ.db.apply a) } else none
  | .commit => σ.commit
  | .send => σ.send
  | .sendQuit => σ.sendQuit
  | .writeSync => σ.writeSync
  | .failSync => σ.failSync
  | .finishCommit taskFailed => σ.finishCommit taskFailed
  | .waitAsyncCommit => σ.wait false
  | .close => σ.wait true
  | .waited => σ.waited
  | .receive => σ.onPipe (Pipe.receive · σ.isWaiting)
  | .lenChan => σ.onPipe Pipe.lenChan
  | .receiveMore => σ.onPipe Pipe.receiveMore
  | .readLastIndex => σ.onPipe (Pipe.readLastIndex · σ.wal.lastIndex)
  | .writeBatch => σ.writeBatch
  | .failWriter => σ.failWriter
  | .latch => σ.latch
  | .closeQuit => σ.onPipe Pipe.closeQuit

def Open (σ : Committer P) (a : CommitterAction) : Prop := a = .commit → σ.walWriter = true

structure Loaded (σ : Committer P) : Prop where
  atIndex : σ.db.mtree.AtIndex σ.wal.lastIndex
  walWriter : σ.walWriter = true
  pipe : σ.pipe = none
  walErr : σ.walErr = false
  caller : σ.caller = .idle
  committed : σ.committed = []
  returned : σ.returned = []
  failed : σ.failed = false

end Committer

end CronosStore.Memiavl
