import TimedTasks.Proofs.Settling
import TimedTasks.Proofs.Waiting
/-!
Bounded waits for a result or for a termination. The bound counts from the first turn of the waiter.
In each turn the waiter looks first for what it waits for, then at the clock; so it gives up only at
a turn at which its time is up and what it waits for has not come. Neither the call nor the turns
touch anything but the waiter, so a wait that was given up can be taken up again.
-/

namespace TimedTasks

variable {V : Type}

/-- What a waiter with a single thing to wait for waits for, and its bound. -/
def Request.asks? : Request V → Option (Awaited × Option Duration)
  | .get c bound => some (.cell c, bound)
  | .termination e bound => some (.termination e, some bound)
  | .invokeAll .. | .invokeAny .. => none

theorem Request.suits_of_asks? {request : Request V} {on : Awaited}
    {bound : Option Duration} (h : request.asks? = some (on, bound)) :
    request.Suits on ∧ ∀ b, ¬ request.Suits (.batch b) := by
  cases request with
  | get c d | termination e d =>
    obtain ⟨rfl, -⟩ := Prod.mk.inj (Option.some.inj h)
    exact ⟨rfl, by simp [Request.Suits]⟩
  | _ => cases h

namespace World

/-- A turn of a waiter ends the wait with an answer; beyond that it shows in reports only. -/
def Answers (w : World V) (j : Nat) (x : Waiter V) (a : Answer V) : Prop :=
  ∃ notices : List Notice,
    w.waiterTurn j = ({ w with notices := notices } : World V).finishWaiter j x.name a

/-- After a turn a waiter waits on. -/
def WaitsOn (w : World V) (j : Nat) (on : Awaited) (deadline : Option Instant) : Prop :=
  ∃ notices : List Notice,
    w.waiterTurn j = (({ w with notices := notices } : World V).modifyWaiter j fun y =>
      { y with stage := .waiting on deadline }).suspend (.waiter j)

/-- Whether a time that counts from `w₀` is up in `w`. A time that ends too late to be represented
never is. -/
def TimeUp (w₀ w : World V) (d : Duration) : Prop :=
  w₀.now + d.nanos < Instant.limit ∧ w₀.now + d.nanos ≤ w.now

/-- Whether no task and no executor has changed, and who was ready or waited goes on to. -/
structure SameTasks (w w' : World V) : Prop where
  clock : w'.clock = w.clock
  executors : w'.executors = w.executors
  cells : w'.cells = w.cells
  children : w'.children = w.children
  batches : w'.batches = w.batches
  history : w'.history = w.history
  ready : w.ready <+: w'.ready
  waiting : w.waiting <+: w'.waiting

/-- A waiter has a turn in `w`; its first one was in `w₀`, where it was `x`. -/
structure TurnSince (w₀ : World V) (j : Nat) (x : Waiter V) (w : World V) : Prop where
  reached : Reached (.turn (.waiter j)) w₀
  waiter : w₀.waiters[j]? = some x
  created : x.stage = .created
  turn : w = w₀ ∨ Ops (.caller none) (w₀.waiterTurn j) (.turn (.waiter j)) w
  goesOn : ∃ y, w.waiters[j]? = some y ∧ y.stage ≠ .ended

variable {w w₀ : World V} {j : Nat} {x : Waiter V} {on : Awaited} {bound : Option Duration}

/-- In its first turn a waiter begins to look, until a deadline that it sets there. -/
theorem waiterTurn_first (hx : w.waiters[j]? = some x) (hs : x.stage = .created)
    (hq : x.request.asks? = some (on, bound)) :
    ∃ notices : List Notice, w.waiterTurn j = ({ w with notices := notices } : World V).checkWaiter
      j x on (bound.bind (Instant.after? w.now)) := by
  rw [waiterTurn_created hx hs, beginWaiter]
  cases hr : x.request with
  | get c d =>
    rw [hr] at hq
    obtain ⟨rfl, rfl⟩ := Prod.mk.inj (Option.some.inj hq)
    exact ⟨_, rfl⟩
  | termination e d =>
    rw [hr] at hq
    obtain ⟨rfl, rfl⟩ := Prod.mk.inj (Option.some.inj hq)
    exact ⟨_, rfl⟩
  | _ =>
    rw [hr] at hq
    cases hq

/-- In each turn a waiter looks for the same thing, until the deadline that it set in its first. -/
theorem TurnSince.looks (h : w₀.TurnSince j x w) (hq : x.request.asks? = some (on, bound)) :
    ∃ (notices : List Notice) (y : Waiter V), y.name = x.name ∧ y.request = x.request ∧
      w.waiterTurn j = ({ w with notices := notices } : World V).checkWaiter j y on
        (bound.bind (Instant.after? w₀.now)) := by
  obtain ⟨notices, hfirst⟩ := waiterTurn_first h.waiter h.created hq
  rcases h.turn with rfl | ops
  · exact ⟨notices, x, rfl, rfl, hfirst⟩
  · -- It went on to wait after its first turn, as it has not ended.
    have hr₁ : Reached (.caller none) (w₀.waiterTurn j) := waiterTurn_leads.reached h.reached
    obtain ⟨y, hy, hne⟩ := h.goesOn
    have hlooked : (w₀.waiterTurn j).waiters[j]? = some { x with stage := .ended } ∨
        (w₀.waiterTurn j).waiters[j]? = some { x with
          stage := .waiting on (bound.bind (Instant.after? w₀.now)) } := by
      rw [hfirst]
      exact checkWaiter_looked (w := { w₀ with notices := notices }) h.waiter
        (Request.suits_of_asks? hq).2
    rcases hlooked with hended | hwaits
    · obtain ⟨z, hz, hl⟩ := ops.later.waiters j _ hended
      obtain rfl := Option.some.inj (hy.symm.trans hz)
      exact absurd (hl.hasEnded rfl) hne
    · obtain ⟨z, hz, hname, hrequest, hs⟩ := ops.waits hr₁ hwaits rfl
      obtain rfl := Option.some.inj (hy.symm.trans hz)
      refine ⟨w.notices, y, hname, hrequest, ?_⟩
      rw [waiterTurn, hy]
      dsimp only
      rw [hs.resolve_left hne]

/-- The answer of a waiter whose wait is over; whether in time makes no difference but for what the
answer finds. -/
theorem conclude_asks {inTime : Bool} (hq : x.request.asks? = some (on, bound)) :
    (∀ c, on = .cell c → w.conclude j x on inTime = w.finishWaiter j x.name
      (.read ((w.read? c).getD (.error (.timeout (bound.getD .zero)))))) ∧
    (∀ e, on = .termination e →
      w.conclude j x on inTime = w.finishWaiter j x.name (.flag (w.isTerminated e))) := by
  unfold conclude
  cases hr : x.request with
  | get c d =>
    rw [hr] at hq
    obtain ⟨rfl, rfl⟩ := Prod.mk.inj (Option.some.inj hq)
    refine ⟨?_, by simp⟩
    rintro k ⟨⟩
    dsimp only
    cases w.read? c <;> rfl
  | termination e d =>
    rw [hr] at hq
    obtain ⟨rfl, rfl⟩ := Prod.mk.inj (Option.some.inj hq)
    refine ⟨by simp, ?_⟩
    rintro k ⟨⟩
    rfl
  | _ =>
    rw [hr] at hq
    cases hq

/-- The deadline of a waiter has come when its time is up. -/
theorem deadline_iff {t : Instant} : bound.bind (Instant.after? w₀.now) = some t ∧ t ≤ w.now ↔
    ∃ d, bound = some d ∧ w₀.TimeUp w d ∧ t = w₀.now + d.nanos := by
  constructor
  · rintro ⟨ht, hle⟩
    obtain ⟨d, rfl, hd⟩ := Option.bind_eq_some_iff.mp ht
    have heq := Instant.after?_eq_some hd
    refine ⟨d, rfl, ⟨?_, heq ▸ hle⟩, heq⟩
    by_contra hn
    rw [Instant.after?, if_neg hn] at hd
    cases hd
  · rintro ⟨d, rfl, ⟨hlt, hle⟩, rfl⟩
    exact ⟨if_pos hlt, hle⟩

/-- What a turn of a waiter comes to: it ends if what it waits for has come or its time is up. -/
theorem TurnSince.turns (h : w₀.TurnSince j x w) (hq : x.request.asks? = some (on, bound)) :
    ∃ (notices : List Notice) (y : Waiter V), y.name = x.name ∧ y.request = x.request ∧
      ((w.hasCome on = true ∨ ∃ d, bound = some d ∧ w₀.TimeUp w d) ∧
        (∃ inTime,
          w.waiterTurn j = ({ w with notices := notices } : World V).conclude j y on inTime) ∨
      (w.hasCome on = false ∧ ∀ d, bound = some d → ¬ w₀.TimeUp w d) ∧
        w.WaitsOn j on (bound.bind (Instant.after? w₀.now))) := by
  obtain ⟨notices, y, hname, hrequest, hturn⟩ := h.looks hq
  refine ⟨notices, y, hname, hrequest, ?_⟩
  cases hc : w.hasCome on with
  | true =>
    refine .inl ⟨.inl rfl, true, hturn.trans ?_⟩
    unfold checkWaiter
    exact if_pos hc
  | false =>
    by_cases hd : ∃ t, bound.bind (Instant.after? w₀.now) = some t ∧ t ≤ w.now
    · obtain ⟨t, ht⟩ := hd
      obtain ⟨d, hb, hup, -⟩ := deadline_iff.mp ht
      refine .inl ⟨.inr ⟨d, hb, hup⟩, false, hturn.trans ?_⟩
      rw [ht.1]
      exact checkWaiter_late (w := { w with notices := notices }) hc ht.2
    · refine .inr ⟨⟨rfl, fun d hb hup => hd ⟨_, deadline_iff.mpr ⟨d, hb, hup, rfl⟩⟩⟩,
        notices, hturn.trans ?_⟩
      refine checkWaiter_waits (w := { w with notices := notices }) hc fun t ht => ?_
      exact Nat.lt_of_not_le fun hle => hd ⟨t, ht, hle⟩

theorem Answers.sameTasks {a : Answer V} (h : w.Answers j x a) : w.SameTasks (w.waiterTurn j) := by
  obtain ⟨notices, hturn⟩ := h
  rw [hturn]
  exact ⟨rfl, rfl, rfl, rfl, rfl, rfl, List.prefix_rfl, List.prefix_rfl⟩

theorem WaitsOn.sameTasks {deadline : Option Instant} (h : w.WaitsOn j on deadline) :
    w.SameTasks (w.waiterTurn j) := by
  obtain ⟨notices, hturn⟩ := h
  rw [hturn]
  exact ⟨rfl, rfl, rfl, rfl, rfl, rfl, List.prefix_rfl, List.prefix_append ..⟩

/-- A turn of a waiter touches no task. -/
theorem TurnSince.sameTasks (h : w₀.TurnSince j x w) (hasks : x.request.asks? ≠ none) :
    w.SameTasks (w.waiterTurn j) := by
  obtain ⟨⟨on, bound⟩, hasks⟩ := Option.ne_none_iff_exists'.mp hasks
  obtain ⟨notices, y, -, hrequest, ⟨-, inTime, hturn⟩ | ⟨-, hwaits⟩⟩ := h.turns hasks
  · have answers : ∃ a, w.Answers j y a := by
      cases on with
      | cell c => exact ⟨_, notices, hturn.trans ((conclude_asks (hrequest ▸ hasks)).1 c rfl)⟩
      | termination e =>
        exact ⟨_, notices, hturn.trans ((conclude_asks (hrequest ▸ hasks)).2 e rfl)⟩
      | batch b =>
        have hsuits := Request.suits_of_asks? hasks
        exact absurd hsuits.1 (hsuits.2 b)
    obtain ⟨a, ha⟩ := answers
    exact ha.sameTasks
  · exact hwaits.sameTasks

theorem addWaiter_sameTasks (w : World V) (name : String) (request : Request V) :
    w.SameTasks (w.addWaiter name request) :=
  ⟨rfl, rfl, rfl, rfl, rfl, rfl, List.prefix_append .., List.prefix_rfl⟩

theorem SameTasks.refl (w : World V) : w.SameTasks w :=
  ⟨rfl, rfl, rfl, rfl, rfl, rfl, List.prefix_rfl, List.prefix_rfl⟩

theorem perform_get_sameTasks (w : World V) (waiter future : String) (bound : Option Duration) :
    w.SameTasks (w.perform (.get waiter future bound)).1 := by
  unfold perform onFuture
  dsimp only
  split
  · exact addWaiter_sameTasks ..
  · exact .refl w

theorem perform_awaitTermination_sameTasks (w : World V) (waiter executor : String)
    (bound : Duration) : w.SameTasks (w.perform (.awaitTermination waiter executor bound)).1 := by
  unfold perform onExecutor
  dsimp only
  split
  · exact addWaiter_sameTasks ..
  · exact .refl w

end World

open World

variable {w w₀ : World V} {j : Nat} {x : Waiter V}

/-- Whoever waits for a termination is told of one that has come, in the next turn. -/
theorem Reached.answers_termination {f : Focus} (hr : Reached f w) {e : Nat} {bound : Duration}
    (hx : w.waiters[j]? = some x) (hq : x.request = .termination e bound) (hs : x.stage ≠ .ended)
    (ht : w.isTerminated e = true) : w.Answers j x (.flag true) := by
  have hasks : x.request.asks? = some (.termination e, some bound) := by rw [hq]; rfl
  have looks : ∀ (w : World V) deadline, w.isTerminated e = true →
      w.checkWaiter j x (.termination e) deadline = w.finishWaiter j x.name (.flag true) := by
    intro w deadline ht
    unfold checkWaiter
    rw [if_pos (show w.hasCome (.termination e) = true from ht),
      (conclude_asks hasks).2 e rfl, ht]
  cases hst : x.stage with
  | ended => exact absurd hst hs
  | created =>
    obtain ⟨notices, hturn⟩ := waiterTurn_first hx hst hasks
    exact ⟨notices, hturn.trans (looks { w with notices := notices } _ ht)⟩
  | waiting on deadline =>
    have hon := (hr.sound.seated hx).suits hst
    rw [hq] at hon
    obtain rfl : on = .termination e := hon
    refine ⟨w.notices, ?_⟩
    rw [waiterTurn, hx]
    dsimp only
    rw [hst]
    exact looks w deadline ht

/-- A turn of a waiter for a future yields what any reader gets, once the future is settled; while
it is not, the waiter gives up when its time is up, counted from its first turn, and waits on until
then. So does a waiter for a termination, which answers whether the executor has terminated. A time
that ends too late to be represented is never up. Neither the calls nor the turns touch tasks or
executors, so a wait that was given up can be repeated, and then yields the outcome. -/
theorem World.TurnSince.bounded_wait (h : w₀.TurnSince j x w) :
    (∀ c bound, x.request = .get c bound →
      (∀ o, w.outcomeOf c = some o → w.Answers j x (.read o.read) ∧ w.Reads c o.read) ∧
      (∀ d, w.outcomeOf c = none → bound = some d → w₀.TimeUp w d →
        w.Answers j x (.read (.error (.timeout d)))) ∧
      (w.outcomeOf c = none → (∀ d, bound = some d → ¬ w₀.TimeUp w d) →
        w.WaitsOn j (.cell c) (bound.bind (Instant.after? w₀.now))) ∧
      ∀ f' w', Ops (.caller none) (w.waiterTurn j) f' w' →
        ∀ o, w'.outcomeOf c = some o → w'.Reads c o.read) ∧
    (∀ e bound, x.request = .termination e bound →
      (w.isTerminated e = true → w.Answers j x (.flag true)) ∧
      (w.isTerminated e = false → w₀.TimeUp w bound → w.Answers j x (.flag false)) ∧
      (w.isTerminated e = false → ¬ w₀.TimeUp w bound →
        w.WaitsOn j (.termination e) (Instant.after? w₀.now bound)) ∧
      ∀ f' w', Ops (.caller none) (w.waiterTurn j) f' w' → w'.isTerminated e = true →
        ∀ k y bound', w'.waiters[k]? = some y → y.request = .termination e bound' →
          y.stage ≠ .ended → w'.Answers k y (.flag true)) ∧
    (x.request.asks? ≠ none → w.SameTasks (w.waiterTurn j)) ∧
    ∀ (w' : World V) (waiter name : String) (bound : Duration),
      w'.SameTasks (w'.perform (.get waiter name (some bound))).1 ∧
      w'.SameTasks (w'.perform (.awaitTermination waiter name bound)).1 := by
  have hr : Reached (.turn (.waiter j)) w := by
    rcases h.turn with rfl | ops
    · exact h.reached
    · exact (waiterTurn_leads.reached h.reached).ops ops
  have hr' : Reached (.caller none) (w.waiterTurn j) := waiterTurn_leads.reached hr
  refine ⟨fun c bound hq => ?_, fun e bound hq => ?_, h.sameTasks, fun w' waiter name bound =>
    ⟨perform_get_sameTasks .., perform_awaitTermination_sameTasks ..⟩⟩
  · have hasks : x.request.asks? = some (.cell c, bound) := by rw [hq]; rfl
    obtain ⟨notices, y, hname, hrequest, hturn⟩ := h.turns hasks
    have ends : ∀ inTime,
        w.waiterTurn j = ({ w with notices := notices } : World V).conclude j y (.cell c) inTime →
        w.Answers j x (.read ((w.read? c).getD (.error (.timeout (bound.getD .zero))))) :=
      fun inTime hturn => ⟨notices, by
        rw [hturn, (conclude_asks (hrequest ▸ hasks)).1 c rfl, hname]
        rfl⟩
    refine ⟨fun o ho => ⟨?_, hr.reads ho⟩, fun d hn hb hup => ?_, fun hn hd => ?_,
      fun f' w' ops o ho => (hr'.ops ops).reads ho⟩
    · rcases hturn with ⟨-, inTime, hturn⟩ | ⟨⟨hc, -⟩, -⟩
      · have := ends inTime hturn
        rwa [read?_eq ho] at this
      · rw [hasCome, isSettled, ho] at hc
        cases hc
    · rcases hturn with ⟨-, inTime, hturn⟩ | ⟨⟨-, hnever⟩, -⟩
      · have := ends inTime hturn
        rwa [read?, hn, hb] at this
      · exact absurd hup (hnever d hb)
    · rcases hturn with ⟨hc | ⟨d, hb, hup⟩, -⟩ | ⟨-, hwaits⟩
      · rw [hasCome, isSettled, hn] at hc
        cases hc
      · exact absurd hup (hd d hb)
      · exact hwaits
  · have hasks : x.request.asks? = some (.termination e, some bound) := by rw [hq]; rfl
    obtain ⟨notices, y, hname, hrequest, hturn⟩ := h.turns hasks
    have ends : ∀ inTime, w.waiterTurn j =
          ({ w with notices := notices } : World V).conclude j y (.termination e) inTime →
        w.Answers j x (.flag (w.isTerminated e)) :=
      fun inTime hturn => ⟨notices, by
        rw [hturn, (conclude_asks (hrequest ▸ hasks)).2 e rfl, hname]
        rfl⟩
    refine ⟨fun ht => ?_, fun hn hup => ?_, fun hn hd => ?_, fun f' w' ops ht k y bound' hy hq hs =>
      (hr'.ops ops).answers_termination hy hq hs ht⟩
    · rcases hturn with ⟨-, inTime, hturn⟩ | ⟨⟨hc, -⟩, -⟩
      · exact ht ▸ ends inTime hturn
      · exact Bool.noConfusion (hc.symm.trans ht)
    · rcases hturn with ⟨-, inTime, hturn⟩ | ⟨⟨-, hnever⟩, -⟩
      · exact hn ▸ ends inTime hturn
      · exact absurd hup (hnever bound rfl)
    · rcases hturn with ⟨hc | ⟨d, hb, hup⟩, -⟩ | ⟨-, hwaits⟩
      · exact Bool.noConfusion (hc.symm.trans hn)
      · exact absurd (Option.some.inj hb ▸ hup) hd
      · exact hwaits

/-- An executor has a task that takes `22` nanoseconds. One caller waits for its result for `11`,
another one for `22`, and a third one waits `16` for the termination. -/
def threeCallers : World Nat :=
  (World.start true).after
    [.call (.create "pool" none none none none),
      .call (.submit "pool" "job" none (.steps [.sleep ⟨22, by decide⟩, .ok (some 7)])),
      .call (.get "brief" "job" (some ⟨11, by decide⟩)),
      .call (.get "even" "job" (some ⟨22, by decide⟩)),
      .call (.awaitTermination "end" "pool" ⟨16, by decide⟩)]

/-- The state in which the first in line has its turn. -/
def atTurn (w : World Nat) : World Nat := { w with ready := w.ready.tail }

/-- The state at the end of some time, after the task and the callers have begun. -/
def callersAt (t : Duration) : World Nat := (threeCallers.turns 4).moveTo t

theorem ops_callersAt {n m : Nat} (h : (threeCallers.turns n).turns m = threeCallers.turns 4)
    {t : Duration} (ht : (threeCallers.turns 4).clock.elapsed ≤ t) (k : Nat) :
    Ops (.caller none) (threeCallers.turns n) (.caller none) ((callersAt t).turns k) := by
  have hr : Reached (.caller none) (threeCallers.turns n) :=
    (turns_leads n).reached (Reached.after true _)
  have hrest := turns_leads m hr
  have hr' := hrest.reached hr
  rw [h] at hrest hr'
  have hmove : Way (.caller none) (threeCallers.turns 4) (.caller none) (callersAt t) :=
    moveTo_way ht
  exact (hrest.ops.trans hmove.ops).trans (turns_leads k (hmove.reached hr')).ops

/-- The first caller gives up after `11` nanoseconds. The second one has its turn after `22`, behind
the task, and so gets the result although its time is up. -/
theorem bounded_wait_threeCallers :
    (atTurn (callersAt ⟨11, by decide⟩)).Answers 0
      { name := "brief", request := .get 0 (some ⟨11, by decide⟩) }
      (.read (.error (.timeout ⟨11, by decide⟩))) ∧
    (atTurn ((callersAt ⟨22, by decide⟩).turns 2)).Answers 1
      { name := "even", request := .get 0 (some ⟨22, by decide⟩) } (.read (.ok (some 7))) := by
  have hr : ∀ n, Reached (.caller none) (threeCallers.turns n) := fun n =>
    (turns_leads n).reached (Reached.after true _)
  constructor
  · have h : (atTurn (threeCallers.turns 1)).TurnSince 0
        { name := "brief", request := .get 0 (some ⟨11, by decide⟩) }
        (atTurn (callersAt ⟨11, by decide⟩)) :=
      ⟨(hr 1).op (.take rfl), rfl, rfl,
        .inr ((ops_callersAt (n := 2) (m := 2) rfl (by decide) 0).trans (Op.take rfl).ops),
        _, rfl, by simp⟩
    obtain ⟨hget, -⟩ := TurnSince.bounded_wait h
    obtain ⟨-, htimeout, -⟩ := hget 0 _ rfl
    exact htimeout _ rfl rfl ⟨by decide, by decide⟩
  · have h : (atTurn (threeCallers.turns 2)).TurnSince 1
        { name := "even", request := .get 0 (some ⟨22, by decide⟩) }
        (atTurn ((callersAt ⟨22, by decide⟩).turns 2)) :=
      ⟨(hr 2).op (.take rfl), rfl, rfl,
        .inr ((ops_callersAt (n := 3) (m := 1) rfl (by decide) 2).trans (Op.take rfl).ops),
        _, rfl, by simp⟩
    obtain ⟨hget, -⟩ := TurnSince.bounded_wait h
    obtain ⟨hsettled, -⟩ := hget 0 _ rfl
    exact (hsettled (.completed (some 7)) rfl).1

end TimedTasks
