import Mathlib.Data.List.Forall2
import TimedTasks.Proofs.AllSettled
import TimedTasks.Proofs.Weaving
/-!
Two runs side by side that differ in a few tasks. A `Pairing` says which cells and children of the
one run stand for which of the other; those that stand for none are *veiled*, and so are the watcher
of one executor and the waiters for its termination or for a veiled cell. `Paired` says that the two
states agree in everything but what is veiled. What a task that is not veiled may refer to is
limited by the names that its body mentions.
-/

namespace TimedTasks

variable {V : Type}

/-! ## Names in bodies -/

/-- What a body or a call may refer to by name. -/
inductive Mention where
  | future (name : String)
  | executor (name : String)
  /-- The futures of a batch. -/
  | batch (name : String)

mutual

/-- What a step refers to, the bodies in it included. -/
def Step.mentions {V : Type} : Step V → List Mention
  | .act c => c.mentions
  | .get f | .join f => [.future f]
  | _ => []

def Step.mentionsOf {V : Type} : List (Step V) → List Mention
  | [] => []
  | s :: rest => s.mentions ++ Step.mentionsOf rest

def Body.mentions {V : Type} : Body V → List Mention
  | .broken => []
  | .steps s => Step.mentionsOf s

def Body.mentionsOf {V : Type} : List (Body V) → List Mention
  | [] => []
  | b :: rest => b.mentions ++ Body.mentionsOf rest

/-- What a call refers to, the bodies in it included. -/
def Call.mentions {V : Type} : Call V → List Mention
  | .create .. | .abort _ | .threadJoin _ => []
  | .execute e _ body => .executor e :: body.mentions
  | .submit e f _ body | .schedule e f _ body => .executor e :: .future f :: body.mentions
  | .repeating e f _ _ runs => .executor e :: .future f :: Body.mentionsOf runs
  | .cancel f _ | .forget f | .inspect f | .delay f _ | .dueTime f | .compareFixed f _ _ _
  | .get _ f _ | .blockingGet _ f => [.future f]
  | .share f g | .shareTask f g | .compare f g => [.future f, .future g]
  | .sort fs => fs.map .future
  | .invokeAll name e bodies _ => .executor e :: .batch name :: Body.mentionsOf bodies
  | .invokeAny _ e bodies _ => .executor e :: Body.mentionsOf bodies
  | .awaitTermination _ e _ | .shutdown e | .shutdownNow e | .lifecycle e | .describe e
  | .stats e => [.executor e]

end

def Work.mentions : Work V → List Mention
  | .once _ body | .delayed _ body | .oneOfAll _ body | .oneOfAny _ body => body.mentions
  | .periodic _ runs => Body.mentionsOf runs

/-- A periodic child runs no other bodies than it was handed in with. -/
theorem World.mem_mentionsOf_of_bodyForRun {runs : List (Body V)} {n : Nat} {m : Mention}
    (h : m ∈ (bodyForRun runs n).mentions) : m ∈ Body.mentionsOf runs := by
  have hmem {body : Body V} (hb : body ∈ runs) (hm : m ∈ body.mentions) :
      m ∈ Body.mentionsOf runs := by
    clear h
    induction runs with
    | nil => cases hb
    | cons b runs ih =>
      rcases List.mem_cons.mp hb with rfl | hb
      · exact List.mem_append_left _ hm
      · exact List.mem_append_right _ (ih hb)
  unfold bodyForRun at h
  cases hn : runs[n]? with
  | some body =>
    rw [hn] at h
    exact hmem (List.mem_of_getElem? hn) h
  | none =>
    rw [hn] at h
    cases hl : runs.getLast? with
    | some body =>
      rw [hl] at h
      exact hmem (List.mem_of_getLast? hl) h
    | none =>
      rw [hl] at h
      cases h

/-! ## What is veiled -/

/-- The parts of a run that have no counterpart in another one, and the executor that they belong
to. -/
structure Veil where
  cell : Nat → Prop
  child : Nat → Prop
  executor : Nat

namespace Veil

variable (veil : Veil)

def request : Request V → Prop
  | .get c _ => veil.cell c
  | .termination e _ => e = veil.executor
  | _ => False

def ref (waiters : List (Waiter V)) : TaskRef → Prop
  | .child i => veil.child i
  | .waiter j => ∃ x, waiters[j]? = some x ∧ veil.request x.request
  | .watcher e => e = veil.executor

/-- The names under which veiled tasks note what they do. -/
def who (children : List (Child V)) (waiters : List (Waiter V)) (name : String) : Prop :=
  (∃ (i : Nat) (child : Child V), veil.child i ∧ children[i]? = some child ∧ child.name = name) ∨
    ∃ (j : Nat) (x : Waiter V), waiters[j]? = some x ∧ veil.request x.request ∧ x.name = name

def happening : Happening V → Prop
  | .called c | .polled c | .ended c _ | .cancelled c => veil.cell c
  | .asked e | .draining e | .terminated e => e = veil.executor

end Veil

/-- Whether an answer tells of the life or the counters of an executor. -/
def Answer.IsLife : Answer V → Prop
  | .lifecycle .. | .halted .. | .executor _ | .stats _ => True
  | _ => False

/-! ## Pairings -/

/-- Which cells and children of two runs stand for each other. -/
structure Pairing where
  cell : Nat → Nat → Prop
  child : Nat → Nat → Prop
  /-- The executor of the veiled tasks. -/
  executor : Nat
  /-- Only one of the runs has shut that executor down, and neither looks at it any more. -/
  sealed : Prop
  /-- What no task refers to, veiled ones apart. -/
  shuns : Mention → Prop
  /-- Names that stand for veiled tasks in both runs. -/
  own : String → Prop
  own_shuns : ∀ n, own n → shuns (.future n)
  batch_shuns : ∀ (n : String) (k : Nat), own (n ++ "." ++ toString k) → shuns (.batch n)
  /-- The kinds of children that a shutdown of the executor does not stop. -/
  keeps : ChildKind → Prop
  /-- The children that start no run any more, on either side. -/
  past : Nat → Nat → Prop
  /-- How many runs of a child came before. -/
  start : Nat → Nat → Nat
  /-- How much of the logs came before. -/
  seenLeft : Nat
  seenRight : Nat

namespace Pairing

variable (σ : Pairing)

/-- The pairing seen from the other side. -/
def flip : Pairing where
  cell b a := σ.cell a b
  child j i := σ.child i j
  executor := σ.executor
  sealed := σ.sealed
  shuns := σ.shuns
  own := σ.own
  own_shuns := σ.own_shuns
  batch_shuns := σ.batch_shuns
  keeps := σ.keeps
  past j i := σ.past i j
  start j i := σ.start i j
  seenLeft := σ.seenRight
  seenRight := σ.seenLeft

/-- What is veiled on the left. -/
def left : Veil where
  cell a := ∀ b, ¬ σ.cell a b
  child i := ∀ j, ¬ σ.child i j
  executor := σ.executor

/-- What is veiled on the right. -/
def right : Veil := σ.flip.left

def Polite (l : List Mention) : Prop := ∀ m ∈ l, ¬ σ.shuns m

/-- Whether an executor may be used. -/
def Admits (e : Nat) : Prop := e = σ.executor → ¬ σ.sealed

inductive Waits : Wait → Wait → Prop
  | time (t : Instant) : Waits (.time t) (.time t)
  | cell {a b : Nat} (h : σ.cell a b) (joined : Bool) : Waits (.cell a joined) (.cell b joined)
  | forever : Waits .forever .forever

inductive Stages : Stage V → Stage V → Prop
  | created : Stages .created .created
  | scheduled (due : Instant) : Stages (.scheduled due) (.scheduled due)
  | suspended {on on' : Wait} (h : σ.Waits on on') (rest : List (Step V)) :
      Stages (.suspended on rest) (.suspended on' rest)
  | stranded : Stages .stranded .stranded
  | ended : Stages .ended .ended

/-- Whether the runs of a child from the `n`th on refer to nothing that is veiled. -/
def Ahead (n : Nat) : Work V → Prop
  | .periodic _ runs => ∀ k, n ≤ k → σ.Polite (World.bodyForRun runs k).mentions
  | work => σ.Polite work.mentions

structure Children (κ : Nat → Nat → Prop) (i j : Nat) (a b : Child V) : Prop where
  executor : a.executor = b.executor
  cell : σ.cell a.cell b.cell
  name : a.name = b.name
  work : a.work = b.work
  stage : σ.Stages a.stage b.stage
  rest : ∀ on rest, a.stage = .suspended on rest → κ i j ∨ σ.Polite (Step.mentionsOf rest)
  runs : a.runs = b.runs
  since : σ.start i j ≤ a.runs
  goesOn : σ.past i j ∨ σ.Ahead (σ.start i j) a.work ∧
    (σ.sealed → a.executor = σ.executor → σ.keeps a.work.kind)

inductive Awaits : Awaited → Awaited → Prop
  | cell {a b : Nat} (h : σ.cell a b) : Awaits (.cell a) (.cell b)
  | termination {e : Nat} (h : e ≠ σ.executor) : Awaits (.termination e) (.termination e)
  | batch (b : Nat) : Awaits (.batch b) (.batch b)

inductive WaiterStages : WaiterStage → WaiterStage → Prop
  | created : WaiterStages .created .created
  | waiting {on on' : Awaited} (h : σ.Awaits on on') (deadline : Option Instant) :
      WaiterStages (.waiting on deadline) (.waiting on' deadline)
  | ended : WaiterStages .ended .ended

/-- The requests of waiters that are not veiled. -/
inductive Requests : Request V → Request V → Prop
  | get {a b : Nat} (h : σ.cell a b) (bound : Option Duration) :
      Requests (.get a bound) (.get b bound)
  | termination {e : Nat} (h : e ≠ σ.executor) (bound : Duration) :
      Requests (.termination e bound) (.termination e bound)
  | invokeAll (e : Nat) (bodies : List (Body V)) (bound : Option Duration) :
      Requests (.invokeAll e bodies bound) (.invokeAll e bodies bound)
  | invokeAny (e : Nat) (bodies : List (Body V)) (bound : Option Duration) :
      Requests (.invokeAny e bodies bound) (.invokeAny e bodies bound)

/-- Whether a waiter that has not had a turn may hand in its batch. -/
def MayBegin : Request V → Prop
  | .invokeAll e bodies _ | .invokeAny e bodies _ =>
    σ.Admits e ∧ σ.Polite (Body.mentionsOf bodies)
  | _ => True

/-- Whether a waiter that has not ended may name what it gets. -/
def MayName (name : String) : Request V → Prop
  | .invokeAll .. => ¬ σ.shuns (.batch name)
  | _ => True

structure Waiters (a b : Waiter V) : Prop where
  name : a.name = b.name
  request : σ.Requests a.request b.request ∧ σ.WaiterStages a.stage b.stage ∨
    σ.left.request a.request ∧ σ.right.request b.request
  begins : a.stage = .created → σ.MayBegin a.request
  naming : a.stage ≠ .ended → σ.MayName a.name a.request
  begins' : b.stage = .created → σ.MayBegin b.request
  naming' : b.stage ≠ .ended → σ.MayName b.name b.request

structure Batches (a b : Batch V) : Prop where
  cells : List.Forall₂ σ.cell a.cells b.cells
  remaining : a.remaining = b.remaining
  notified : a.notified = b.notified
  winner : a.winner = b.winner
  lastFailure : a.lastFailure = b.lastFailure

structure Executors (e e' : Nat) (a b : Executor) : Prop where
  same : e = e'
  settings : a.settings = b.settings
  origin : a.origin = b.origin
  registry : Weave σ.left.child σ.right.child σ.child a.registry b.registry
  keeps : e = σ.executor → ∀ k, σ.keeps k → World.stopsAtShutdown a.settings k = false
  running : e = σ.executor → ¬ σ.sealed → (a.state = .running ↔ b.state = .running)
  exact : e ≠ σ.executor →
    a.state = b.state ∧ a.tracked = b.tracked ∧ a.closed = b.closed ∧ a.counters = b.counters

structure Handles (a b : Handle) : Prop where
  cell : σ.cell a.cell b.cell
  kind : a.kind = b.kind

inductive Refs (ws vs : List (Waiter V)) : TaskRef → TaskRef → Prop
  | child {i j : Nat} (h : σ.child i j) : Refs ws vs (.child i) (.child j)
  | waiter {j : Nat} {x y : Waiter V} (hx : ws[j]? = some x) (hy : vs[j]? = some y)
      (h : σ.Requests x.request y.request) : Refs ws vs (.waiter j) (.waiter j)
  | watcher {e : Nat} (h : e ≠ σ.executor) : Refs ws vs (.watcher e) (.watcher e)

/-- Answers agree, unless they tell of the life of an executor. -/
def Answers (a b : Answer V) : Prop := a = b ∨ ¬ σ.sealed ∧ a.IsLife ∧ b.IsLife

inductive Events : Event V → Event V → Prop
  | same (event : Event V) : Events event event
  | answered {a b : Answer V} (h : σ.Answers a b) : Events (.answered a) (.answered b)

structure Entries (a b : Entry V) : Prop where
  time : a.time = b.time
  who : a.who = b.who
  event : σ.Events a.event b.event

inductive Happenings : Happening V → Happening V → Prop
  | called {a b : Nat} (h : σ.cell a b) : Happenings (.called a) (.called b)
  | polled {a b : Nat} (h : σ.cell a b) : Happenings (.polled a) (.polled b)
  | ended {a b : Nat} (h : σ.cell a b) (r : RunEnd V) : Happenings (.ended a r) (.ended b r)
  | cancelled {a b : Nat} (h : σ.cell a b) : Happenings (.cancelled a) (.cancelled b)
  | asked (e : Nat) : Happenings (.asked e) (.asked e)
  | draining (e : Nat) : Happenings (.draining e) (.draining e)
  | terminated (e : Nat) : Happenings (.terminated e) (.terminated e)

end Pairing

/-! ## Veiled tasks -/

/-- Whether a call changes nothing but veiled tasks and their names. -/
def Call.Tame (σ : Pairing) : Call V → Prop
  | .inspect _ | .delay .. | .dueTime _ | .compare .. | .compareFixed .. | .sort _ | .lifecycle _
  | .describe _ | .stats _ => True
  | .cancel f _ => σ.own f
  | .forget f => σ.shuns (.future f)
  | .share f g | .shareTask f g => σ.own f ∧ σ.own g
  | _ => False

def Step.Tame (σ : Pairing) : Step V → Prop
  | .act c => c.Tame σ
  | _ => True

def Body.Tame (σ : Pairing) : Body V → Prop
  | .broken => True
  | .steps s => ∀ x ∈ s, x.Tame σ

/-- Whether the runs of a child from the `n`th on change nothing but veiled tasks and their
names. -/
def Work.Tame (σ : Pairing) (n : Nat) : Work V → Prop
  | .once _ body | .delayed _ body | .oneOfAll _ body | .oneOfAny _ body => body.Tame σ
  | .periodic _ runs => ∀ k, n ≤ k → (World.bodyForRun runs k).Tame σ

/-- What holds of a veiled child: it keeps to itself. What is left of its body may be exempt. -/
structure Child.Veiled (σ : Pairing) (veil : Veil) (exempt : Prop) (child : Child V) : Prop where
  executor : child.executor = σ.executor
  cell : veil.cell child.cell
  alone : child.work.batch? = none
  work : child.work.Tame σ child.runs
  stage : ∀ on rest, child.stage = .suspended on rest → exempt ∨ ∀ x ∈ rest, x.Tame σ

/-! ## Paired states -/

/-- No child is in the middle of its turn. -/
def nobody : Nat → Nat → Prop := fun _ _ => False

namespace World

/-- Two states that agree in all that is not veiled. A child whose turn is under way may be set
apart (`κ`): what is left of its body does not count until it is put by. -/
structure Paired (σ : Pairing) (κ : Nat → Nat → Prop) (w v : World V) : Prop where
  clock : w.clock = v.clock
  cells : Linked σ.cell (fun _ _ a b => a = b) w.cells v.cells
  children : Linked σ.child (σ.Children κ) w.children v.children
  waiters : Linked Eq (fun _ _ => σ.Waiters) w.waiters v.waiters
  batches : Linked Eq (fun _ _ => σ.Batches) w.batches v.batches
  executors : Linked Eq σ.Executors w.executors v.executors
  ready : Weave (σ.left.ref w.waiters) (σ.right.ref v.waiters) (σ.Refs w.waiters v.waiters)
    w.ready v.ready
  waiting : Weave (σ.left.ref w.waiters) (σ.right.ref v.waiters) (σ.Refs w.waiters v.waiters)
    w.waiting v.waiting
  executorNames : w.executorNames = v.executorNames
  unnamed : σ.sealed → ∀ n, w.executorNames.get? n = some σ.executor → σ.shuns (.executor n)
  here : σ.executor < w.executors.length
  futureNames : ∀ n, ¬ σ.shuns (.future n) →
    Option.Rel σ.Handles (w.futureNames.get? n) (v.futureNames.get? n)
  ownLeft : ∀ n h, σ.own n → w.futureNames.get? n = some h → σ.left.cell h.cell
  ownRight : ∀ n h, σ.own n → v.futureNames.get? n = some h → σ.right.cell h.cell
  waiterNames : w.waiterNames = v.waiterNames
  threadNames : ∀ n, Option.Rel σ.cell (w.threadNames.get? n) (v.threadNames.get? n)
  seenLeft : σ.seenLeft ≤ w.log.length
  seenRight : σ.seenRight ≤ v.log.length
  log : Weave (fun x => σ.left.who w.children w.waiters x.who)
    (fun x => σ.right.who v.children v.waiters x.who) σ.Entries (w.log.drop σ.seenLeft)
    (v.log.drop σ.seenRight)
  anew : ∀ n, σ.start (w.children.length + n) (v.children.length + n) = 0
  history : Weave (fun p => σ.left.happening p.2) (fun p => σ.right.happening p.2)
    (fun p q => p.1 = q.1 ∧ σ.Happenings p.2 q.2) w.history v.history
  veiledLeft : ∀ i child, w.children[i]? = some child → σ.left.child i →
    child.Veiled σ σ.left (∃ j, κ i j)
  veiledRight : ∀ j child, v.children[j]? = some child → σ.right.child j →
    child.Veiled σ σ.right (∃ i, κ i j)

end World

/-! ## The other side -/

theorem Option.Rel.swap {α β : Type} {r : α → β → Prop} {r' : β → α → Prop}
    (hr : ∀ a b, r a b → r' b a) {x : Option α} {y : Option β} (h : Option.Rel r x y) :
    Option.Rel r' y x := by
  cases h with
  | some h => exact .some (hr _ _ h)
  | none => exact .none

/-- What a lookup finds is related to itself if whatever it may find is. -/
theorem Option.Rel.of_some {α : Type} {r : α → α → Prop} {x : Option α}
    (h : ∀ a, x = some a → r a a) : Option.Rel r x x := by
  cases x with
  | some a => exact .some (h a rfl)
  | none => exact .none

namespace Pairing

variable {σ : Pairing}

theorem Waits.flip {on on' : Wait} (h : σ.Waits on on') : σ.flip.Waits on' on := by
  cases h with
  | time t => exact .time t
  | cell h joined => exact .cell (σ := σ.flip) h joined
  | forever => exact .forever

theorem Stages.flip {s t : Stage V} (h : σ.Stages s t) : σ.flip.Stages t s := by
  cases h with
  | created => exact .created
  | scheduled due => exact .scheduled due
  | suspended h rest => exact .suspended h.flip rest
  | stranded => exact .stranded
  | ended => exact .ended

theorem Stages.of_suspended {s t : Stage V} (h : σ.Stages s t) {on : Wait} {rest : List (Step V)}
    (ht : t = .suspended on rest) : ∃ on', s = .suspended on' rest := by
  cases h with
  | suspended h rest' => cases ht; exact ⟨_, rfl⟩
  | _ => cases ht

theorem Ahead.flip {n : Nat} {work : Work V} (h : σ.Ahead n work) : σ.flip.Ahead n work := by
  cases work <;> exact h

theorem Children.flip {κ : Nat → Nat → Prop} {i j : Nat} {a b : Child V}
    (h : σ.Children κ i j a b) : σ.flip.Children (fun j i => κ i j) j i b a where
  executor := h.executor.symm
  cell := h.cell
  name := h.name.symm
  work := h.work.symm
  stage := h.stage.flip
  rest on rest hs := by
    obtain ⟨on', hs'⟩ := h.stage.of_suspended hs
    exact h.rest on' rest hs'
  runs := h.runs.symm
  since := h.runs ▸ h.since
  goesOn := by
    rw [← h.work, ← h.executor]
    exact h.goesOn.imp id fun hp => ⟨hp.1.flip, hp.2⟩

theorem Awaits.flip {on on' : Awaited} (h : σ.Awaits on on') : σ.flip.Awaits on' on := by
  cases h with
  | cell h => exact .cell h
  | termination h => exact .termination h
  | batch b => exact .batch b

theorem WaiterStages.flip {s t : WaiterStage} (h : σ.WaiterStages s t) :
    σ.flip.WaiterStages t s := by
  cases h with
  | created => exact .created
  | waiting h deadline => exact .waiting h.flip deadline
  | ended => exact .ended

theorem Requests.flip {a b : Request V} (h : σ.Requests a b) : σ.flip.Requests b a := by
  cases h with
  | get h bound => exact .get (σ := σ.flip) h bound
  | termination h bound => exact .termination (σ := σ.flip) h bound
  | invokeAll e bodies bound => exact .invokeAll e bodies bound
  | invokeAny e bodies bound => exact .invokeAny e bodies bound

theorem MayBegin.flip {a : Request V} (h : σ.MayBegin a) : σ.flip.MayBegin a := by
  cases a <;> exact h

theorem MayName.flip {name : String} {a : Request V} (h : σ.MayName name a) :
    σ.flip.MayName name a := by
  cases a <;> exact h

theorem Requests.mayName {name : String} {a b : Request V} (h : σ.Requests a b)
    (hn : σ.MayName name a) : σ.MayName name b := by
  cases h <;> exact hn

theorem Waiters.flip {a b : Waiter V} (h : σ.Waiters a b) : σ.flip.Waiters b a where
  name := h.name.symm
  request := h.request.imp (fun hr => ⟨hr.1.flip, hr.2.flip⟩) And.symm
  begins hs := (h.begins' hs).flip
  naming hs := (h.naming' hs).flip
  begins' hs := (h.begins hs).flip
  naming' hs := (h.naming hs).flip

theorem Batches.flip {a b : Batch V} (h : σ.Batches a b) : σ.flip.Batches b a where
  cells := List.Forall₂.flip h.cells
  remaining := h.remaining.symm
  notified := h.notified.symm
  winner := h.winner.symm
  lastFailure := h.lastFailure.symm

theorem Executors.flip {e e' : Nat} {a b : Executor} (h : σ.Executors e e' a b) :
    σ.flip.Executors e' e b a where
  same := h.same.symm
  settings := h.settings.symm
  origin := h.origin.symm
  registry := h.registry.flip
  keeps he k hk := h.settings ▸ h.keeps (h.same.trans he) k hk
  running he hs := (h.running (h.same.trans he) hs).symm
  exact he := by
    obtain ⟨hstate, htracked, hclosed, hcounters⟩ := h.exact fun he' => he (h.same ▸ he')
    exact ⟨hstate.symm, htracked.symm, hclosed.symm, hcounters.symm⟩

theorem Handles.flip {a b : Handle} (h : σ.Handles a b) : σ.flip.Handles b a :=
  ⟨h.cell, h.kind.symm⟩

theorem Refs.flip {ws vs : List (Waiter V)} {r r' : TaskRef} (h : σ.Refs ws vs r r') :
    σ.flip.Refs vs ws r' r := by
  cases h with
  | child h => exact .child h
  | waiter hx hy h => exact .waiter hy hx h.flip
  | watcher h => exact .watcher h

theorem Answers.flip {a b : Answer V} (h : σ.Answers a b) : σ.flip.Answers b a :=
  h.imp Eq.symm fun h => ⟨h.1, h.2.2, h.2.1⟩

theorem Events.flip {a b : Event V} (h : σ.Events a b) : σ.flip.Events b a := by
  cases h with
  | same => exact .same _
  | answered h => exact .answered h.flip

theorem Entries.flip {a b : Entry V} (h : σ.Entries a b) : σ.flip.Entries b a :=
  ⟨h.time.symm, h.who.symm, h.event.flip⟩

theorem Happenings.flip {a b : Happening V} (h : σ.Happenings a b) : σ.flip.Happenings b a := by
  cases h with
  | called h => exact .called h
  | polled h => exact .polled h
  | ended h r => exact .ended (σ := σ.flip) h r
  | cancelled h => exact .cancelled h
  | asked e => exact .asked e
  | draining e => exact .draining e
  | terminated e => exact .terminated e

end Pairing

theorem Call.Tame.flip {σ : Pairing} {c : Call V} (h : c.Tame σ) : c.Tame σ.flip := by
  cases c <;> exact h

theorem Step.Tame.flip {σ : Pairing} {s : Step V} (h : s.Tame σ) : s.Tame σ.flip := by
  cases s with
  | act c => exact Call.Tame.flip h
  | _ => trivial

theorem Body.Tame.flip {σ : Pairing} {b : Body V} (h : b.Tame σ) : b.Tame σ.flip := by
  cases b with
  | broken => trivial
  | steps s => exact fun x hx => (h x hx).flip

theorem Work.Tame.flip {σ : Pairing} {n : Nat} {work : Work V} (h : work.Tame σ n) :
    work.Tame σ.flip n := by
  cases work with
  | periodic pace runs => exact fun k hk => (h k hk).flip
  | _ => exact Body.Tame.flip h

theorem Work.Tame.mono {σ : Pairing} {n m : Nat} {work : Work V} (h : work.Tame σ n)
    (hnm : n ≤ m) : work.Tame σ m := by
  cases work with
  | periodic pace runs => exact fun k hk => h k (Nat.le_trans hnm hk)
  | _ => exact h

theorem Child.Veiled.flip {σ : Pairing} {veil : Veil} {exempt : Prop} {child : Child V}
    (h : child.Veiled σ veil exempt) : child.Veiled σ.flip veil exempt where
  executor := h.executor
  cell := h.cell
  alone := h.alone
  work := h.work.flip
  stage on rest hs := (h.stage on rest hs).imp_right fun ht x hx => (ht x hx).flip

namespace World.Paired

variable {σ : Pairing} {κ : Nat → Nat → Prop} {w v : World V}

theorem flip (h : Paired σ κ w v) : Paired σ.flip (fun j i => κ i j) v w where
  clock := h.clock.symm
  cells := h.cells.flip (fun _ _ => .rfl) fun _ _ _ _ => Eq.symm
  children := h.children.flip (fun _ _ => .rfl) fun _ _ _ _ => Pairing.Children.flip
  waiters := h.waiters.flip (fun _ _ => eq_comm) fun _ _ _ _ => Pairing.Waiters.flip
  batches := h.batches.flip (fun _ _ => eq_comm) fun _ _ _ _ => Pairing.Batches.flip
  executors := h.executors.flip (fun _ _ => eq_comm) fun _ _ _ _ => Pairing.Executors.flip
  ready := h.ready.flip.mono (fun _ => id) (fun _ => id) fun _ _ hr => hr.flip
  waiting := h.waiting.flip.mono (fun _ => id) (fun _ => id) fun _ _ hr => hr.flip
  executorNames := h.executorNames.symm
  unnamed hs n hn := h.unnamed hs n (h.executorNames ▸ hn)
  here := h.executors.length_eq ▸ h.here
  futureNames n hn := Option.Rel.swap (fun _ _ => Pairing.Handles.flip) (h.futureNames n hn)
  ownLeft := h.ownRight
  ownRight := h.ownLeft
  waiterNames := h.waiterNames.symm
  threadNames n := Option.Rel.swap (fun _ _ => id) (h.threadNames n)
  seenLeft := h.seenRight
  seenRight := h.seenLeft
  log := h.log.flip.mono (fun _ => id) (fun _ => id) fun _ _ => Pairing.Entries.flip
  anew := h.anew
  history := h.history.flip.mono (fun _ => id) (fun _ => id) fun _ _ hp =>
    ⟨hp.1.symm, hp.2.flip⟩
  veiledLeft j child hc hv := (h.veiledRight j child hc hv).flip
  veiledRight i child hc hv := (h.veiledLeft i child hc hv).flip

end World.Paired

end TimedTasks
