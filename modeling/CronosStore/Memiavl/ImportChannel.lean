import CronosStore.Memiavl.ImportFiles

/-!
# The goroutines of an import

`AddTree` starts a goroutine that imports the nodes of the tree (`doImport`). `AddNode` hands
them over the buffered channel `nodesChan`; the result comes back over `quitChan`, which the
goroutine closes afterwards. `Add` either sends or receives, whatever can be done, so the
error of an import may come with any later call.

The caller makes one call after the other, stops at the first error and closes the importer.
Whatever the order in which it and the goroutines go on, a goroutine only returns nil when it
has imported all the nodes that were sent (`TreeImporter.Faithful`), and every error is
received once.
-/

namespace CronosStore.Memiavl

open Foundation List

def nodeChannelBuffer : Nat := 2048

/-! ## The goroutine of a tree -/

/-- Where the goroutine of a tree is. -/
inductive Goroutine
  | spawned
  /-- `doImport` takes nodes from `nodesChan`. -/
  | importing (i : Importer)
  /-- `doImport` has returned, and the result waits to be received. -/
  | returned (result : Option ImportError)
  | closing
  | ended

structure TreeImporter where
  name : Name
  buffer : List ExportNode
  closed : Bool
  /-- The channels of the `TreeImporter` are not nil. -/
  held : Bool
  goroutine : Goroutine
  /-- All the nodes that were sent so far. -/
  sent : List ExportNode

inductive GoroutineAction
  | start
  | take (flushed : SnapshotDir)
  | finish (flushed : SnapshotDir)
  | fault (e : ImportError) (flushed : SnapshotDir)
  | quit

namespace TreeImporter

variable [Sha256]

omit [Sha256] in
def new (name : Name) : TreeImporter where
  name := name
  buffer := []
  closed := false
  held := true
  goroutine := .spawned
  sent := []

def move (t : TreeImporter) (height : Nat) :
    GoroutineAction → Option (TreeImporter × Option SnapshotDir × Option ImportError)
  | .start =>
    match t.goroutine with
    | .spawned =>
      if height > maxUint32 then
        let e := ImportError.versionOverflow height
        some ({ t with goroutine := .returned (some e) }, none, some e)
      else some ({ t with goroutine := .importing ⟨newSnapshotWriter, [], []⟩ }, none, none)
    | _ => none
  | .take flushed =>
    match t.goroutine, t.buffer with
    | .importing i, n :: buffer =>
      match i.add n with
      | .ok i => some ({ t with buffer := buffer, goroutine := .importing i }, some flushed, none)
      | .error e =>
        some ({ t with buffer := buffer, goroutine := .returned (some e) }, some flushed, some e)
    | _, _ => none
  | .finish flushed =>
    match t.goroutine, t.buffer, t.closed with
    | .importing i, [], true =>
      match i.finish height with
      | .ok files => some ({ t with goroutine := .returned none }, some files, none)
      | .error e => some ({ t with goroutine := .returned (some e) }, some flushed, some e)
    | _, _, _ => none
  | .fault e flushed =>
    match t.goroutine with
    | .importing _ => some ({ t with goroutine := .returned (some e) }, some flushed, some e)
    | _ => none
  | .quit =>
    match t.goroutine with
    | .closing => some ({ t with goroutine := .ended }, none, none)
    | _ => none

omit [Sha256] in
def receive (t : TreeImporter) : Option (TreeImporter × Option ImportError) :=
  match t.goroutine with
  | .returned result => some ({ t with goroutine := .closing }, result)
  | .ended => some (t, none)
  | _ => none

end TreeImporter

inductive ImportCall
  | addTree (name : Name)
  | addNode (n : ExportNode)
  | finalize
  | close
deriving DecidableEq

/-- An import under way, with the items that are not added yet; the first of them is being
added. After an error nothing is added any more. -/
structure ImportRun (P : Type) where
  disk : Disk P
  height : Nat
  importer : Option TreeImporter
  items : List ImportItem
  /-- `Finalize` has returned, or will not be called. -/
  finalized : Bool
  ended : Bool
  /-- The call has closed `nodesChan` and waits for the result. -/
  waiting : Bool
  returns : List (ImportCall × Option MultiTreeImportError)
  failed : List ImportError

inductive ImportAction
  | call
  | send
  | receive
  | goroutine (a : GoroutineAction)

namespace ImportRun

variable {P : Type}

def init (D : Disk P) (height : Nat) (items : List ImportItem) : ImportRun P where
  disk := D
  height := height
  importer := none
  items := items
  finalized := false
  ended := false
  waiting := false
  returns := []
  failed := []

def current (s : ImportRun P) : ImportCall :=
  match s.items with
  | .tree name :: _ => .addTree name
  | .node n :: _ => .addNode n
  | [] => if s.finalized then .close else .finalize

def returnCall (s : ImportRun P) (error : Option MultiTreeImportError) : ImportRun P :=
  { s with
    items := if error.isSome then [] else s.items.tail
    finalized := s.finalized || error.isSome || s.items.isEmpty
    ended := s.finalized && s.items.isEmpty
    waiting := false
    returns := s.returns ++ [(s.current, error)] }

variable [Sha256]

def closed (s : ImportRun P) (result : Option ImportError) : ImportRun P :=
  match result with
  | some e => s.returnCall (some (.tree e))
  | none =>
    match s.current with
    | .addTree name => { s with importer := some (.new name) }.returnCall none
    | .finalize =>
      match DiskImporter.publish s.disk s.height with
      | .ok D => { s with importer := none, disk := D }.returnCall none
      | .error (e, D) => { s with importer := none, disk := D }.returnCall (some e)
    | .addNode _ | .close => s.returnCall none

def beginCall (s : ImportRun P) : Option (ImportRun P) :=
  if s.waiting then none
  else
    match s.current, s.importer with
    | .addNode _, none => some (s.returnCall (some .nodeBeforeTree))
    | .addNode _, some _ => none
    | _, none => some (s.closed none)
    | _, some t =>
      if t.held then some { s with importer := some { t with closed := true }, waiting := true }
      else some (s.closed none)

omit [Sha256] in
def send (s : ImportRun P) : Option (ImportRun P) :=
  match s.current, s.importer with
  | .addNode n, some t =>
    if t.held ∧ t.closed = false ∧ t.buffer.length < nodeChannelBuffer then
      some ({ s with
        importer := some { t with buffer := t.buffer ++ [n], sent := t.sent ++ [n] } }.returnCall none)
    else none
  | _, _ => none

def receive (s : ImportRun P) : Option (ImportRun P) :=
  match s.importer with
  | none => none
  | some t =>
    if t.held then
      match t.receive with
      | none => none
      | some (t', result) =>
        if s.waiting then
          some (closed { s with importer := some { t' with held := false } } result)
        else
          match s.current with
          | .addNode _ => some ({ s with importer := some t' }.returnCall (result.map .tree))
          | _ => none
    else none

def next (s : ImportRun P) : ImportAction → Option (ImportRun P)
  | .call => if s.ended then none else s.beginCall
  | .send => if s.ended then none else s.send
  | .receive => if s.ended then none else s.receive
  | .goroutine a =>
    match s.importer with
    | none => none
    | some t =>
      match t.move s.height a with
      | none => none
      | some (t', files, error) =>
        some { s with
          importer := some t'
          disk := match files with
            | none => s.disk
            | some files => s.disk.putTree (snapshotName s.height ++ tmpSuffix) t.name files
          failed := s.failed ++ error.toList }

end ImportRun

/-! ## The steps of a goroutine -/

namespace TreeImporter

variable {t t' : TreeImporter} {height : Nat} {result : Option ImportError}

def delivered (t : TreeImporter) : Bool :=
  match t.goroutine with
  | .closing | .ended => true
  | _ => false

def pendingError (t : TreeImporter) : List ImportError :=
  match t.goroutine with
  | .returned result => result.toList
  | _ => []

def weight (t : TreeImporter) : Nat :=
  match t.goroutine with
  | .spawned => t.buffer.length + 4
  | .importing _ => t.buffer.length + 3
  | .returned _ => 2
  | .closing => 1
  | .ended => 0

variable [Sha256]

def Faithful (t : TreeImporter) (height : Nat) : Prop :=
  match t.goroutine with
  | .spawned => t.held = true ∧ t.sent = t.buffer
  | .importing i => t.held = true ∧ height ≤ maxUint32 ∧ ∃ taken, t.sent = taken ++ t.buffer ∧
      taken.foldlM Importer.add ⟨newSnapshotWriter, [], []⟩ = .ok i
  | .returned none => t.held = true ∧ t.closed = true ∧ ∃ files, doImport height t.sent = .ok files
  | .returned (some _) => t.held = true
  | _ => True

theorem Faithful.close (h : t.Faithful height) : Faithful { t with closed := true } height := by
  obtain ⟨name, buffer, closed, held, goroutine, sent⟩ := t
  cases goroutine with
  | spawned | importing i => exact h
  | returned result =>
    cases result with
    | none => exact ⟨h.1, rfl, h.2.2⟩
    | some e => exact h
  | closing | ended => trivial

theorem Faithful.send (h : t.Faithful height) (hclosed : t.closed = false) (n : ExportNode) :
    Faithful { t with buffer := t.buffer ++ [n], sent := t.sent ++ [n] } height := by
  obtain ⟨name, buffer, closed, held, goroutine, sent⟩ := t
  cases goroutine with
  | spawned =>
    have hsent : sent = buffer := h.2
    exact ⟨h.1, by simp [hsent]⟩
  | importing i =>
    obtain ⟨hheld, hheight, taken, hsent, htaken⟩ := h
    have hsent : sent = taken ++ buffer := hsent
    exact ⟨hheld, hheight, taken, by simp [hsent], htaken⟩
  | returned result =>
    cases result with
    | none => exact absurd (hclosed.symm.trans h.2.1) nofun
    | some e => exact h
  | closing | ended => trivial

omit [Sha256] in
theorem pendingError_of_delivered (h : t.delivered = true) : t.pendingError = [] := by
  unfold delivered at h
  unfold pendingError
  split <;> simp_all

structure Moved (t t' : TreeImporter) (error : Option ImportError) : Prop where
  sent : t'.sent = t.sent
  closed : t'.closed = t.closed
  held : t'.held = t.held
  delivered : t'.delivered = t.delivered
  errors : t'.pendingError = t.pendingError ++ error.toList
  weight : t'.weight < t.weight

theorem moved {a : GoroutineAction} {files : Option SnapshotDir} {error : Option ImportError}
    (h : t.move height a = some (t', files, error)) :
    Moved t t' error ∧ (t.Faithful height → t'.Faithful height) := by
  obtain ⟨name, buffer, closed, held, goroutine, sent⟩ := t
  cases a with
  | start =>
    cases goroutine with
    | spawned =>
      simp only [TreeImporter.move] at h
      by_cases hheight : height > maxUint32
      · rw [if_pos hheight] at h
        cases h
        exact ⟨⟨rfl, rfl, rfl, rfl, rfl, by simp [weight]⟩, fun hf => hf.1⟩
      · rw [if_neg hheight] at h
        cases h
        exact ⟨⟨rfl, rfl, rfl, rfl, rfl, by simp [weight]⟩,
          fun hf => ⟨hf.1, Nat.le_of_not_lt hheight, [], hf.2, rfl⟩⟩
    | importing _ | returned _ | closing | ended => cases h
  | take flushed =>
    cases goroutine with
    | importing i =>
      cases buffer with
      | nil => cases h
      | cons n buffer =>
        cases hadd : i.add n with
        | error e =>
          simp only [TreeImporter.move, hadd] at h
          cases h
          exact ⟨⟨rfl, rfl, rfl, rfl, rfl, by simp [weight]⟩, fun hf => hf.1⟩
        | ok i' =>
          simp only [TreeImporter.move, hadd] at h
          cases h
          refine ⟨⟨rfl, rfl, rfl, rfl, rfl, by simp [weight]⟩, ?_⟩
          rintro ⟨hheld, hheight, taken, hsent, htaken⟩
          refine ⟨hheld, hheight, taken ++ [n], by simpa using hsent, ?_⟩
          rw [foldlM_append, htaken]
          simp [hadd]
    | spawned | returned _ | closing | ended => cases h
  | finish flushed =>
    cases goroutine with
    | importing i =>
      cases buffer with
      | cons n buffer => cases h
      | nil =>
        cases closed with
        | false => cases h
        | true =>
          cases hfinish : i.finish height with
          | error e =>
            simp only [TreeImporter.move, hfinish] at h
            cases h
            exact ⟨⟨rfl, rfl, rfl, rfl, rfl, by simp [weight]⟩, fun hf => hf.1⟩
          | ok dir =>
            simp only [TreeImporter.move, hfinish] at h
            cases h
            refine ⟨⟨rfl, rfl, rfl, rfl, rfl, by simp [weight]⟩, ?_⟩
            rintro ⟨hheld, hheight, taken, hsent, htaken⟩
            have hsent : sent = taken := by simpa using hsent
            refine ⟨hheld, rfl, dir, ?_⟩
            rw [doImport, if_neg (by omega), hsent, htaken]
            exact hfinish
    | spawned | returned _ | closing | ended => cases h
  | fault e flushed =>
    cases goroutine with
    | importing i =>
      cases h
      exact ⟨⟨rfl, rfl, rfl, rfl, rfl, by simp [weight]⟩, fun hf => hf.1⟩
    | spawned | returned _ | closing | ended => cases h
  | quit =>
    cases goroutine with
    | closing =>
      cases h
      exact ⟨⟨rfl, rfl, rfl, rfl, rfl, by simp [weight]⟩, fun _ => trivial⟩
    | spawned | importing _ | returned _ | ended => cases h

omit [Sha256] in
theorem receive_cases {result : Option ImportError} (h : t.receive = some (t', result)) :
    t.goroutine = .returned result ∧ t' = { t with goroutine := .closing } ∨
      t.goroutine = .ended ∧ t' = t ∧ result = none := by
  unfold receive at h
  split at h
  · rename_i hg
    cases h
    exact .inl ⟨hg, rfl⟩
  · rename_i hg
    cases h
    exact .inr ⟨hg, rfl, rfl⟩
  · cases h

end TreeImporter

/-! ## The steps of an import -/

namespace ImportRun

variable {P : Type} {s s' : ImportRun P}

def AddsNode (s : ImportRun P) : Prop := ∃ n items, s.items = .node n :: items

theorem items_cases (s : ImportRun P) :
    s.items = [] ∨ (∃ name items, s.items = .tree name :: items) ∨ s.AddsNode := by
  rcases hitems : s.items with _ | ⟨item, items⟩
  · exact .inl rfl
  · cases item with
    | tree name => exact .inr (.inl ⟨name, items, rfl⟩)
    | node n => exact .inr (.inr ⟨n, items, hitems⟩)

variable [Sha256]

inductive Step (s : ImportRun P) : ImportRun P → Prop
  | goroutine {t t' : TreeImporter} {a : GoroutineAction} {files : Option SnapshotDir}
      {error : Option ImportError} {D : Disk P} (importer : s.importer = some t)
      (move : t.move s.height a = some (t', files, error))
      (disk : D = s.disk ∨ ∃ files, D = s.disk.putTree (snapshotName s.height ++ tmpSuffix) t.name files) :
      Step s { s with importer := some t', disk := D, failed := s.failed ++ error.toList }
  | closes {t : TreeImporter} (ended : s.ended = false) (waiting : s.waiting = false)
      (call : ¬s.AddsNode) (importer : s.importer = some t) (held : t.held = true) :
      Step s { s with importer := some { t with closed := true }, waiting := true }
  | closed (ended : s.ended = false) (waiting : s.waiting = false) (call : ¬s.AddsNode)
      (importer : ∀ t, s.importer = some t → t.held = false) : Step s (s.closed none)
  | refused (ended : s.ended = false) (call : s.AddsNode) (importer : s.importer = none) :
      Step s (s.returnCall (some .nodeBeforeTree))
  | sends {n : ExportNode} {items : List ImportItem} {t : TreeImporter} (ended : s.ended = false)
      (call : s.items = .node n :: items) (importer : s.importer = some t) (held : t.held = true)
      (closed : t.closed = false) :
      Step s ({ s with
        importer := some { t with buffer := t.buffer ++ [n], sent := t.sent ++ [n] } }.returnCall none)
  | receives {t t' : TreeImporter} {result : Option ImportError} (ended : s.ended = false)
      (waiting : s.waiting = true) (importer : s.importer = some t) (held : t.held = true)
      (receive : t.receive = some (t', result)) :
      Step s (ImportRun.closed { s with importer := some { t' with held := false } } result)
  | fails {t t' : TreeImporter} {result : Option ImportError} (ended : s.ended = false)
      (waiting : s.waiting = false) (call : s.AddsNode) (importer : s.importer = some t)
      (held : t.held = true) (receive : t.receive = some (t', result)) :
      Step s ({ s with importer := some t' }.returnCall (result.map .tree))

section

omit [Sha256]

def callerWeight (s : ImportRun P) : Nat :=
  (s.items.map fun
    | .tree _ => 6
    | .node _ => 3).sum + (if s.finalized then 0 else 3) + (if s.ended then 0 else 3) +
      (if s.waiting then 0 else 1)

def weight (s : ImportRun P) : Nat := s.callerWeight + (s.importer.elim 0 TreeImporter.weight)

end

end ImportRun

/-! ## What holds all along -/

def nodesOf : List ImportItem → List ExportNode
  | .node n :: items => n :: nodesOf items
  | _ => []

def treeStreams : List ImportItem → List (Name × List ExportNode)
  | [] => []
  | .tree name :: items => (name, nodesOf items) :: treeStreams items
  | .node _ :: items => treeStreams items

def treeErrors (returns : List (ImportCall × Option MultiTreeImportError)) : List ImportError :=
  returns.filterMap fun
    | (_, some (.tree e)) => some e
    | _ => none

namespace ImportRun

variable {P : Type}

def Stopped (s : ImportRun P) : Prop := ∃ r ∈ s.returns, r.1 ≠ .close ∧ r.2.isSome = true

def pendingErrors (s : ImportRun P) : List ImportError :=
  s.importer.elim [] TreeImporter.pendingError

variable [Sha256]

structure Refusing (D : Disk P) (height : Nat) (items : List ImportItem) (s : ImportRun P) : Prop where
  fixed : s.height = height
  disk : s.disk.current = D.current ∧
    ∀ name ≠ snapshotName height ++ tmpSuffix, s.disk.get name = D.get name
  waits : s.waiting = true → ¬s.AddsNode ∧ ∃ t, s.importer = some t ∧ t.held = true
  faithful : ∀ t, s.importer = some t → t.Faithful height
  closed : ∀ t, s.importer = some t → t.held = true → t.closed = s.waiting
  /-- As long as the importer is held, its result was received exactly if a call has failed. -/
  held : ∀ t, s.importer = some t → t.held = true → (t.delivered = true ↔ s.Stopped)
  dropped : ∀ t, s.importer = some t → t.held = false → t.delivered = true ∧ s.Stopped
  stopped : s.Stopped → s.items = []
  finalized : s.finalized = true ↔ s.Stopped
  ended : s.ended = true → s.finalized = true ∧ ∀ t, s.importer = some t → t.held = false
  errors : treeErrors s.returns ++ s.pendingErrors = s.failed
  /-- A tree is imported, or is being imported, or will be imported. -/
  streams : ¬s.Stopped → ∀ tree ∈ treeStreams items, (∃ files, doImport height tree.2 = .ok files) ∨
    (∃ t, s.importer = some t ∧ tree.2 = t.sent ++ nodesOf s.items) ∨ tree ∈ treeStreams s.items

section Returns

variable {D : Disk P} {height : Nat} {items : List ImportItem} {s s' : ImportRun P}
  {error : MultiTreeImportError}

section

omit [Sha256]

theorem stopped_returnCall_none : (s.returnCall none).Stopped ↔ s.Stopped := by
  simp [Stopped, returnCall]

theorem stopped_returnCall_some (h : s.current ≠ .close) : (s.returnCall (some error)).Stopped :=
  ⟨(s.current, some error), mem_append_right _ (mem_singleton.mpr rfl), h, rfl⟩

theorem treeErrors_returnCall_none : treeErrors (s.returnCall none).returns = treeErrors s.returns := by
  simp [treeErrors, returnCall]

theorem current_eq_close : s.current = .close ↔ s.items = [] ∧ s.finalized = true := by
  unfold current
  split
  · simp_all
  · simp_all
  · split <;> simp_all

end

theorem closed_tree {name : Name} {rest : List ImportItem} (hitems : s.items = .tree name :: rest)
    (importer : Option TreeImporter) : ImportRun.closed { s with importer := importer } none =
      { s with importer := some (.new name) }.returnCall none := by
  simp [closed, current, hitems]

theorem closed_last (hitems : s.items = []) (hfin : s.finalized = true)
    (importer : Option TreeImporter) : ImportRun.closed { s with importer := importer } none =
      { s with importer := importer }.returnCall none := by
  simp [closed, current, hitems, hfin]

/-- A call fails when the result of the goroutine, if there is one, is received. -/
theorem refusing_returnCall_some (hfixed : s.height = height)
    (hdisk : s.disk.current = D.current ∧
      ∀ name ≠ snapshotName height ++ tmpSuffix, s.disk.get name = D.get name)
    (hcall : s.current ≠ .close)
    (himp : ∀ t, s.importer = some t →
      t.delivered = true ∧ t.Faithful height ∧ (t.held = true → t.closed = false))
    (herrors : treeErrors (s.returnCall (some error)).returns = s.failed) :
    Refusing D height items (s.returnCall (some error)) := by
  have hstopped : (s.returnCall (some error)).Stopped := stopped_returnCall_some hcall
  have hended : (s.returnCall (some error)).ended = false := by
    have hnot := mt current_eq_close.mpr hcall
    cases hitems : s.items <;> cases hfin : s.finalized <;> simp_all [returnCall]
  have hpending : (s.returnCall (some error)).pendingErrors = [] := by
    cases ht : s.importer with
    | none => simp [pendingErrors, returnCall, ht]
    | some t =>
      have hd := (himp t ht).1
      simpa [pendingErrors, returnCall, ht] using TreeImporter.pendingError_of_delivered hd
  exact {
    fixed := hfixed
    disk := hdisk
    waits := nofun
    faithful := fun t ht => (himp t ht).2.1
    closed := fun t ht => (himp t ht).2.2
    held := fun t ht _ => iff_of_true (himp t ht).1 hstopped
    dropped := fun t ht _ => ⟨(himp t ht).1, hstopped⟩
    stopped := fun _ => rfl
    finalized := iff_of_true (by simp [returnCall]) hstopped
    ended := fun h => absurd h (by simp [hended])
    errors := by rw [hpending, append_nil, herrors]; rfl
    streams := fun h => absurd hstopped h }

end Returns

namespace Refusing

variable {D D' : Disk P} {height : Nat} {items : List ImportItem} {s s' : ImportRun P}
  {t t' : TreeImporter}

section

variable (h : Refusing D height items s)
include h

theorem not_stopped (hitems : s.items ≠ []) : ¬s.Stopped :=
  mt h.stopped hitems

theorem goroutine {a : GoroutineAction} {files : Option SnapshotDir}
    {error : Option ImportError} (himp : s.importer = some t)
    (hmove : t.move s.height a = some (t', files, error))
    (hdisk : D' = s.disk ∨ ∃ files, D' = s.disk.putTree (snapshotName s.height ++ tmpSuffix) t.name files) :
    Refusing D height items
      { s with importer := some t', disk := D', failed := s.failed ++ error.toList } := by
  obtain ⟨hm, hfaithful⟩ := TreeImporter.moved hmove
  rw [h.fixed] at hfaithful hdisk
  refine { fixed := h.fixed, disk := ?_, waits := ?_, faithful := ?_, closed := ?_, held := ?_,
           dropped := ?_, stopped := h.stopped, finalized := h.finalized, ended := ?_, errors := ?_,
           streams := ?_ }
  · rcases hdisk with rfl | ⟨files, rfl⟩
    · exact h.disk
    · exact ⟨h.disk.1, fun name hname => (Disk.get_put_of_ne hname).trans (h.disk.2 name hname)⟩
  · intro hwait
    obtain ⟨hcall, t1, ht1, hheld⟩ := h.waits hwait
    obtain rfl : t = t1 := Option.some.inj (himp.symm.trans ht1)
    exact ⟨hcall, t', rfl, hm.held.trans hheld⟩
  · rintro _ ⟨⟩
    exact hfaithful (h.faithful t himp)
  · rintro _ ⟨⟩ hheld
    rw [hm.closed]
    exact h.closed t himp (hm.held.symm.trans hheld)
  · rintro _ ⟨⟩ hheld
    rw [hm.delivered]
    exact h.held t himp (hm.held.symm.trans hheld)
  · rintro _ ⟨⟩ hheld
    rw [hm.delivered]
    exact h.dropped t himp (hm.held.symm.trans hheld)
  · intro hended
    obtain ⟨hfin, hnone⟩ := h.ended hended
    refine ⟨hfin, ?_⟩
    rintro _ ⟨⟩
    exact hm.held.trans (hnone t himp)
  · have herrors := h.errors
    rw [pendingErrors, himp] at herrors
    show treeErrors s.returns ++ t'.pendingError = s.failed ++ error.toList
    rw [hm.errors, ← herrors, append_assoc]
    rfl
  · intro hnot tree htree
    refine (h.streams hnot tree htree).imp_right (Or.imp_left ?_)
    rintro ⟨t1, ht1, hsent⟩
    obtain rfl : t = t1 := Option.some.inj (himp.symm.trans ht1)
    exact ⟨t', rfl, by rw [hm.sent, hsent]⟩

theorem closes (hended : s.ended = false) (hcall : ¬s.AddsNode)
    (himp : s.importer = some t) (hheld : t.held = true) :
    Refusing D height items
      { s with importer := some { t with closed := true }, waiting := true } where
  fixed := h.fixed
  disk := h.disk
  waits _ := ⟨hcall, _, rfl, hheld⟩
  faithful := by
    rintro _ ⟨⟩
    exact (h.faithful t himp).close
  closed := by
    rintro _ ⟨⟩ -
    rfl
  held := by
    rintro _ ⟨⟩ -
    exact h.held t himp hheld
  dropped := by
    rintro _ ⟨⟩ hdropped
    exact absurd (hheld.symm.trans hdropped) nofun
  stopped := h.stopped
  finalized := h.finalized
  ended hend := absurd (hended.symm.trans hend) nofun
  errors := by
    have herrors := h.errors
    rw [pendingErrors, himp] at herrors
    exact herrors
  streams hnot tree htree := by
    refine (h.streams hnot tree htree).imp_right (Or.imp_left ?_)
    rintro ⟨t1, ht1, hsent⟩
    obtain rfl : t = t1 := Option.some.inj (himp.symm.trans ht1)
    exact ⟨_, rfl, hsent⟩

/-- A call takes an item and leaves an importer that is held and still at work. -/
theorem goesOn {item : ImportItem} {rest : List ImportItem} (hitems : s.items = item :: rest)
    {t' : TreeImporter} (hfaithful : t'.Faithful height) (hclosed : t'.closed = false)
    (hheld : t'.held = true) (hdelivered : t'.delivered = false)
    (herrors : s.pendingErrors = t'.pendingError)
    (hstreams : ∀ tree ∈ treeStreams items, (∃ files, doImport height tree.2 = .ok files) ∨
      tree.2 = t'.sent ++ nodesOf rest ∨ tree ∈ treeStreams rest) :
    Refusing D height items ({ s with importer := some t' }.returnCall none) := by
  have hnot : ¬s.Stopped := h.not_stopped (by simp [hitems])
  have hnot' : ¬({ s with importer := some t' }.returnCall none).Stopped := by
    rwa [stopped_returnCall_none]
  have hfin : s.finalized = false := by simpa using mt h.finalized.mp hnot
  refine { fixed := h.fixed, disk := h.disk, waits := nofun, faithful := ?_, closed := ?_, held := ?_,
           dropped := ?_, stopped := fun hs => absurd hs hnot', finalized := ?_, ended := ?_,
           errors := ?_, streams := fun _ tree htree => ?_ }
  · rintro _ ⟨⟩
    exact hfaithful
  · rintro _ ⟨⟩ -
    exact hclosed
  · rintro _ ⟨⟩ -
    exact iff_of_false (by simp [hdelivered]) hnot'
  · rintro _ ⟨⟩ hdropped
    exact absurd (hheld.symm.trans hdropped) nofun
  · exact iff_of_false (by simp [returnCall, hfin, hitems]) hnot'
  · intro hend
    simp [returnCall, hitems] at hend
  · rw [treeErrors_returnCall_none]
    exact (congrArg (treeErrors s.returns ++ ·) herrors).symm.trans h.errors
  · simpa [returnCall, hitems] using hstreams tree htree

theorem sends {n : ExportNode} {rest : List ImportItem}
    (hitems : s.items = .node n :: rest) (himp : s.importer = some t) (hheld : t.held = true)
    (hclosed : t.closed = false) :
    Refusing D height items ({ s with
      importer := some { t with buffer := t.buffer ++ [n], sent := t.sent ++ [n] } }.returnCall none) := by
  have hnot : ¬s.Stopped := h.not_stopped (by simp [hitems])
  have hdelivered : t.delivered = false := by simpa using mt (h.held t himp hheld).mp hnot
  refine h.goesOn hitems ((h.faithful t himp).send hclosed n) hclosed hheld hdelivered
    (by rw [pendingErrors, himp]; rfl) fun tree htree => ?_
  rcases h.streams hnot tree htree with hok | ⟨t1, ht1, hsent⟩ | hlater
  · exact .inl hok
  · obtain rfl : t = t1 := Option.some.inj (himp.symm.trans ht1)
    rw [hsent, hitems]
    exact .inr (.inl (by simp [nodesOf]))
  · rw [hitems] at hlater
    exact .inr (.inr hlater)

theorem delivered_of_stopped (hs : s.Stopped)
    (himp : s.importer = some t) : t.delivered = true := by
  cases hheld : t.held with
  | true => exact (h.held t himp hheld).mpr hs
  | false => exact (h.dropped t himp hheld).1

theorem pendingErrors_of_stopped (hs : s.Stopped) :
    s.pendingErrors = [] := by
  cases himp : s.importer with
  | none => simp [pendingErrors, himp]
  | some t =>
    rw [pendingErrors, himp]
    exact TreeImporter.pendingError_of_delivered (h.delivered_of_stopped hs himp)

theorem addsTree {name : Name} {rest : List ImportItem}
    (hitems : s.items = .tree name :: rest)
    (hdone : ∀ t, s.importer = some t →
      t.pendingError = [] ∧ ∃ files, doImport height t.sent = .ok files) :
    Refusing D height items ({ s with importer := some (.new name) }.returnCall none) := by
  have hnot : ¬s.Stopped := h.not_stopped (by simp [hitems])
  have hpending : s.pendingErrors = [] := by
    cases himp : s.importer with
    | none => simp [pendingErrors, himp]
    | some t => simp [pendingErrors, himp, (hdone t himp).1]
  refine h.goesOn hitems ⟨rfl, rfl⟩ rfl rfl rfl hpending fun tree htree => ?_
  rcases h.streams hnot tree htree with hok | ⟨t, ht, hsent⟩ | hlater
  · exact .inl hok
  · refine .inl ?_
    rw [hsent, hitems]
    simpa [nodesOf] using (hdone t ht).2
  · rw [hitems, treeStreams, mem_cons] at hlater
    rcases hlater with rfl | hlater
    · exact .inr (.inl rfl)
    · exact .inr (.inr hlater)

theorem closesLast {importer : Option TreeImporter}
    (hitems : s.items = []) (hfin : s.finalized = true)
    (himp : ∀ t, importer = some t → t.held = false ∧ t.delivered = true ∧ t.Faithful height) :
    Refusing D height items ({ s with importer := importer }.returnCall none) := by
  have hs := h.finalized.mp hfin
  have hs' : ({ s with importer := importer }.returnCall none).Stopped := stopped_returnCall_none.mpr hs
  have hpending : ({ s with importer := importer }.returnCall none).pendingErrors = [] := by
    cases importer with
    | none => rfl
    | some t => exact TreeImporter.pendingError_of_delivered (himp t rfl).2.1
  refine { fixed := h.fixed, disk := h.disk, waits := nofun, faithful := fun t ht => (himp t ht).2.2,
           closed := ?_, held := ?_, dropped := fun t ht _ => ⟨(himp t ht).2.1, hs'⟩, stopped := ?_,
           finalized := ?_, ended := ?_, errors := ?_, streams := fun hnot => absurd hs' hnot }
  · intro t ht hheld
    exact absurd (hheld.symm.trans (himp t ht).1) nofun
  · intro t ht hheld
    exact absurd (hheld.symm.trans (himp t ht).1) nofun
  · intro _
    simp [returnCall, hitems]
  · exact iff_of_true (by simp [returnCall, hfin]) hs'
  · intro _
    exact ⟨by simp [returnCall, hfin], fun t ht => (himp t ht).1⟩
  · rw [hpending, treeErrors_returnCall_none]
    have herrors := h.errors
    rw [h.pendingErrors_of_stopped hs] at herrors
    exact herrors

/-- `Finalize` is called when all the trees are imported, but one of them is refused. -/
theorem finalized_of_refused
    (hbad : ∃ tree ∈ treeStreams items, ∀ files, doImport height tree.2 ≠ .ok files)
    (hitems : s.items = [])
    (hdone : ∀ t, s.importer = some t → ∃ files, doImport height t.sent = .ok files) :
    s.finalized = true := by
  by_contra hfin
  obtain ⟨tree, htree, hrefused⟩ := hbad
  rcases h.streams (mt h.finalized.mpr hfin) tree htree with ⟨files, hok⟩ | ⟨t, ht, hsent⟩ | hlater
  · exact hrefused files hok
  · obtain ⟨files, hok⟩ := hdone t ht
    refine hrefused files ?_
    rw [hsent, hitems]
    simpa [nodesOf] using hok
  · rw [hitems] at hlater
    cases hlater

theorem importer_eq_none (hnot : ¬s.Stopped)
    (himp : ∀ t, s.importer = some t → t.held = false) : s.importer = none := by
  cases ht : s.importer with
  | none => rfl
  | some t => exact absurd (h.dropped t ht (himp t ht)).2 hnot

theorem closed_none (hbad : ∃ tree ∈ treeStreams items, ∀ files, doImport height tree.2 ≠ .ok files)
    (hcall : ¬s.AddsNode) (himp : ∀ t, s.importer = some t → t.held = false) :
    Refusing D height items (s.closed none) := by
  show Refusing D height items (ImportRun.closed { s with importer := s.importer } none)
  rcases s.items_cases with hitems | ⟨name, rest, hitems⟩ | hnode
  · have hfin : s.finalized = true := by
      by_contra hfin
      have hnone := h.importer_eq_none (mt h.finalized.mpr hfin) himp
      refine hfin (h.finalized_of_refused hbad hitems fun t ht => ?_)
      rw [hnone] at ht
      cases ht
    rw [closed_last hitems hfin]
    exact h.closesLast hitems hfin fun t ht =>
      ⟨himp t ht, (h.dropped t ht (himp t ht)).1, h.faithful t ht⟩
  · have hnone := h.importer_eq_none (h.not_stopped (by simp [hitems])) himp
    rw [closed_tree hitems]
    refine h.addsTree hitems fun t ht => ?_
    rw [hnone] at ht
    cases ht
  · exact absurd hnode hcall

theorem receives (hbad : ∃ tree ∈ treeStreams items, ∀ files, doImport height tree.2 ≠ .ok files)
    {result : Option ImportError} (hwait : s.waiting = true) (himp : s.importer = some t)
    (hheld : t.held = true) (hreceive : t.receive = some (t', result)) :
    Refusing D height items
      (ImportRun.closed { s with importer := some { t' with held := false } } result) := by
  rcases TreeImporter.receive_cases hreceive with ⟨hg, rfl⟩ | ⟨hg, rfl, rfl⟩
  · -- a result that was not received yet
    have hnot : ¬s.Stopped := by
      rw [← h.held t himp hheld, TreeImporter.delivered, hg]
      exact nofun
    cases result with
    | some e =>
      refine refusing_returnCall_some h.fixed h.disk ?_ ?_ ?_
      · intro hclose
        exact hnot (h.finalized.mp (current_eq_close.mp hclose).2)
      · rintro _ ⟨⟩
        exact ⟨rfl, trivial, nofun⟩
      · have herrors := h.errors
        rw [pendingErrors, himp, Option.elim_some, TreeImporter.pendingError, hg] at herrors
        simpa [treeErrors, returnCall] using herrors
    | none =>
      have hok : ∃ files, doImport height t.sent = .ok files := by
        have hf := h.faithful t himp
        rw [TreeImporter.Faithful, hg] at hf
        exact hf.2.2
      have hdone : ∀ t1, s.importer = some t1 →
          t1.pendingError = [] ∧ ∃ files, doImport height t1.sent = .ok files := by
        intro t1 ht1
        obtain rfl : t = t1 := Option.some.inj (himp.symm.trans ht1)
        exact ⟨by rw [TreeImporter.pendingError, hg]; rfl, hok⟩
      rcases s.items_cases with hitems | ⟨name, rest, hitems⟩ | hnode
      · have hfin := h.finalized_of_refused hbad hitems fun t1 ht1 => (hdone t1 ht1).2
        exact absurd (h.finalized.mp hfin) hnot
      · rw [closed_tree hitems]
        exact h.addsTree hitems hdone
      · exact absurd hnode (h.waits hwait).1
  · -- the channel is closed, so a call has failed before
    have hdelivered : t'.delivered = true := by
      rw [TreeImporter.delivered, hg]
    have hs := (h.held t' himp hheld).mp hdelivered
    have hitems := h.stopped hs
    have hfin := h.finalized.mpr hs
    rw [closed_last hitems hfin]
    refine h.closesLast hitems hfin ?_
    rintro _ ⟨⟩
    refine ⟨rfl, hdelivered, ?_⟩
    simp [TreeImporter.Faithful, hg]

theorem fails {result : Option ImportError}
    (hwait : s.waiting = false) (hcall : s.AddsNode) (himp : s.importer = some t)
    (hheld : t.held = true) (hreceive : t.receive = some (t', result)) :
    Refusing D height items ({ s with importer := some t' }.returnCall (result.map .tree)) := by
  obtain ⟨n, rest, hitems⟩ := hcall
  have hnot : ¬s.Stopped := h.not_stopped (by simp [hitems])
  have hclosed : t.closed = false := (h.closed t himp hheld).trans hwait
  rcases TreeImporter.receive_cases hreceive with ⟨hg, rfl⟩ | ⟨hg, rfl, rfl⟩
  · cases result with
    | none =>
      have hf := h.faithful t himp
      rw [TreeImporter.Faithful, hg] at hf
      exact absurd (hclosed.symm.trans hf.2.1) nofun
    | some e =>
      refine refusing_returnCall_some h.fixed h.disk ?_ ?_ ?_
      · simp [current, hitems]
      · rintro _ ⟨⟩
        exact ⟨rfl, trivial, fun _ => hclosed⟩
      · have herrors := h.errors
        rw [pendingErrors, himp, Option.elim_some, TreeImporter.pendingError, hg] at herrors
        simpa [treeErrors, returnCall] using herrors
  · refine absurd ((h.held t' himp hheld).mp ?_) hnot
    rw [TreeImporter.delivered, hg]

theorem step (hbad : ∃ tree ∈ treeStreams items, ∀ files, doImport height tree.2 ≠ .ok files)
    (hs : s.Step s') : Refusing D height items s' := by
  cases hs with
  | goroutine himp hmove hdisk => exact h.goroutine himp hmove hdisk
  | closes hended _ hcall himp hheld => exact h.closes hended hcall himp hheld
  | closed _ _ hcall himp => exact h.closed_none hbad hcall himp
  | refused _ hcall himp =>
    obtain ⟨n, rest, hitems⟩ := hcall
    refine refusing_returnCall_some h.fixed h.disk (by simp [current, hitems]) ?_ ?_
    · intro t ht
      rw [himp] at ht
      cases ht
    · have herrors := h.errors
      rw [pendingErrors, himp] at herrors
      simpa [treeErrors, returnCall] using herrors
  | sends _ hitems himp hheld hclosed => exact h.sends hitems himp hheld hclosed
  | receives _ hwait himp hheld hreceive => exact h.receives hbad hwait himp hheld hreceive
  | fails _ hwait hcall himp hheld hreceive => exact h.fails hwait hcall himp hheld hreceive

end

end Refusing

/-! ## No call blocks -/

variable {D : Disk P} {height : Nat} {items : List ImportItem} {s : ImportRun P} {t : TreeImporter}

end ImportRun

end CronosStore.Memiavl
