import TimedTasks.Proofs.Verdict
/-!
Batches. A batch knows the cells of its children, and how many have not ended; and one whose caller
waits for a value knows the first value and the last failure that the history tells of.
-/

namespace TimedTasks

theorem filterMap_ite_eq_map {α β : Type} {l : List α} {p : α → Prop} [DecidablePred p]
    {f : α → β} (h : ∀ a ∈ l, p a) :
    (l.filterMap fun a => if p a then some (f a) else none) = l.map f := by
  induction l with
  | nil => rfl
  | cons a l ih =>
    have ha := h a List.mem_cons_self
    have hl := ih fun b hb => h b (List.mem_cons_of_mem a hb)
    simp [ha, hl]

variable {V : Type}

namespace RunEnd

def value? : RunEnd V → Option (Option V)
  | .returned value => some value
  | _ => none

def cause? : RunEnd V → Option Cause
  | .failed cause => some cause
  | _ => none

end RunEnd

/-- The batch that a task belongs to, if the caller of the batch waits for the first value. -/
def Work.raced? : Work V → Option Nat
  | oneOfAny b _ => some b
  | _ => none

theorem Work.batch?_of_raced? {work : Work V} {b : Nat} (h : work.raced? = some b) :
    work.batch? = some b := by
  cases work with
  | oneOfAny b' body => exact h
  | _ => cases h

namespace Happening

/-- The value that a run of one of some tasks ended with. -/
def value? (cells : List Nat) : Happening V → Option (Option V)
  | .ended c r => if c ∈ cells then r.value? else none
  | _ => none

def cause? (cells : List Nat) : Happening V → Option Cause
  | .ended c r => if c ∈ cells then r.cause? else none
  | _ => none

theorem value?_of_cell? {h : Happening V} {cells : List Nat} (hc : ∀ c ∈ cells, h.cell? ≠ some c) :
    h.value? cells = none ∧ h.cause? cells = none := by
  cases h with
  | ended k r =>
    have hk : k ∉ cells := fun hk => hc k hk rfl
    exact ⟨if_neg hk, if_neg hk⟩
  | _ => exact ⟨rfl, rfl⟩

end Happening

namespace Work

variable (work : Work V) (r : RunEnd V) (x : Batch V)

theorem tell_cells : (work.tell r x).cells = x.cells := (Batch.Later.tell x work r).cells

theorem tell_remaining : (work.tell r x).remaining = x.remaining - 1 := by
  cases work with
  | oneOfAny b body =>
    cases r with
    | returned value => simp only [tell, Batch.hear, Batch.countDown]; split <;> rfl
    | _ => rfl
  | _ => rfl

theorem tell_winner :
    (work.tell r x).winner = x.winner.or (if work.raced?.isSome then r.value? else none) := by
  cases work with
  | oneOfAny b body =>
    cases r with
    | returned value =>
      cases hw : x.winner <;> simp [tell, Batch.hear, Batch.countDown, hw, raced?, RunEnd.value?]
    | _ => exact (Option.or_none ..).symm
  | _ => exact (Option.or_none ..).symm

theorem tell_lastFailure :
    (work.tell r x).lastFailure =
      (if work.raced?.isSome then r.cause? else none).or x.lastFailure := by
  cases work with
  | oneOfAny b body =>
    cases r with
    | returned value => simp only [tell, Batch.hear, Batch.countDown]; split <;> rfl
    | _ => rfl
  | _ => rfl

theorem tell_notified (h : x.notified = (x.winner.isSome || x.remaining == 0)) :
    (work.tell r x).notified =
      ((work.tell r x).winner.isSome || (work.tell r x).remaining == 0) := by
  have hd : ∀ y : Batch V, y.notified = (y.winner.isSome || y.remaining == 0) →
      y.countDown.notified = (y.countDown.winner.isSome || y.countDown.remaining == 0) := by
    intro y hy
    rw [Batch.countDown, hy]
    cases y.winner <;> cases hr : y.remaining <;> simp
  cases work with
  | oneOfAny b body =>
    refine hd _ ?_
    cases r with
    | returned value => simp only [Batch.hear]; split <;> simp [h]
    | _ => exact h
  | _ => exact hd x h

end Work

namespace World

/-- The cells of the children of a batch. -/
def members (w : World V) (b : Nat) : List Nat :=
  w.children.filterMap fun child => if child.work.batch? = some b then some child.cell else none

/-- The cells of the children of a batch whose caller waits for the first value. -/
def racers (w : World V) (b : Nat) : List Nat :=
  w.children.filterMap fun child => if child.work.raced? = some b then some child.cell else none

/-- How many children of a batch have not ended. -/
def pending (w : World V) (b : Nat) : Nat :=
  w.children.countP fun child => child.work.batch? == some b && !child.hasEnded

def firstValue? (w : World V) (b : Nat) : Option (Option V) :=
  w.history.findSome? fun p => p.2.value? (w.racers b)

def lastCause? (w : World V) (b : Nat) : Option Cause :=
  w.history.reverse.findSome? fun p => p.2.cause? (w.racers b)

/-- A batch knows what became of its children. -/
structure Tallied (w : World V) (b : Nat) (x : Batch V) : Prop where
  cells : x.cells = w.members b
  remaining : x.remaining = w.pending b
  notified : x.notified = (x.winner.isSome || x.remaining == 0)
  winner : x.winner = w.firstValue? b
  lastFailure : x.lastFailure = w.lastCause? b

structure Batched (w : World V) : Prop where
  tallied : ∀ (b : Nat) (x : Batch V), w.batches[b]? = some x → w.Tallied b x
  within : ∀ child ∈ w.children, ∀ b, child.work.batch? = some b → b < w.batches.length
  alike : ∀ child ∈ w.children, ∀ other ∈ w.children, ∀ b, child.work.raced? = some b →
    other.work.batch? = some b → other.work.raced? = some b

theorem mem_racers {w : World V} {b c : Nat} :
    c ∈ w.racers b ↔ ∃ child ∈ w.children, child.work.raced? = some b ∧ child.cell = c := by
  simp [racers]

theorem mem_members {w : World V} {b c : Nat} :
    c ∈ w.members b ↔ ∃ child ∈ w.children, child.work.batch? = some b ∧ child.cell = c := by
  simp [members]

/-- What a batch knows of a child. -/
def mark (child : Child V) : Nat × Work V := (child.cell, child.work)

variable {w w' : World V} {b : Nat} {x : Batch V}

theorem members_congr (h : w'.children.map mark = w.children.map mark) :
    w'.members b = w.members b := by
  have hm : ∀ w : World V, w.members b = (w.children.map mark).filterMap fun p =>
      if p.2.batch? = some b then some p.1 else none := by
    intro w
    rw [List.filterMap_map]
    rfl
  rw [hm, hm, h]

theorem racers_congr (h : w'.children.map mark = w.children.map mark) :
    w'.racers b = w.racers b := by
  have hm : ∀ w : World V, w.racers b = (w.children.map mark).filterMap fun p =>
      if p.2.raced? = some b then some p.1 else none := by
    intro w
    rw [List.filterMap_map]
    rfl
  rw [hm, hm, h]

theorem pending_congr (h : w'.children.map (fun child => (mark child, child.hasEnded)) =
    w.children.map fun child => (mark child, child.hasEnded)) : w'.pending b = w.pending b := by
  have hp : ∀ w : World V, w.pending b = (w.children.map fun child =>
      (mark child, child.hasEnded)).countP fun p => p.1.2.batch? == some b && !p.2 := by
    intro w
    rw [List.countP_map]
    rfl
  rw [hp, hp, h]

namespace Tallied

/-- No child of the batch comes, ends or yields anything. -/
theorem keep (h : w.Tallied b x) {l : List (Instant × Happening V)}
    (history : w'.history = w.history ++ l)
    (quiet : ∀ p ∈ l, p.2.value? (w.racers b) = none ∧ p.2.cause? (w.racers b) = none)
    (members : w'.members b = w.members b) (racers : w'.racers b = w.racers b)
    (pending : w'.pending b = w.pending b) : w'.Tallied b x where
  cells := h.cells.trans members.symm
  remaining := h.remaining.trans pending.symm
  notified := h.notified
  winner := by
    rw [h.winner, firstValue?, firstValue?, history, racers, List.findSome?_append,
      List.findSome?_eq_none_iff (l := l).mpr fun p hp => (quiet p hp).1, Option.or_none]
  lastFailure := by
    rw [h.lastFailure, lastCause?, lastCause?, history, racers, List.reverse_append,
      List.findSome?_append,
      List.findSome?_eq_none_iff (l := l.reverse).mpr fun p hp =>
        (quiet p (List.mem_reverse.mp hp)).2, Option.none_or]

/-- Only children of other batches come, and none ends. -/
theorem grow (h : w.Tallied b x) {new : List (Child V)} (history : w'.history = w.history)
    (children : w'.children = w.children ++ new) (others : ∀ y ∈ new, y.work.batch? ≠ some b) :
    w'.Tallied b x := by
  have hraced : ∀ y ∈ new, y.work.raced? ≠ some b := fun y hy hr =>
    others y hy (Work.batch?_of_raced? hr)
  refine h.keep (l := []) (by rw [history, List.append_nil]) (by simp) ?_ ?_ ?_
  · rw [members, members, children, List.filterMap_append,
      List.filterMap_eq_nil_iff.mpr fun y hy => if_neg (others y hy), List.append_nil]
  · rw [racers, racers, children, List.filterMap_append,
      List.filterMap_eq_nil_iff.mpr fun y hy => if_neg (hraced y hy), List.append_nil]
  · rw [pending, pending, children, List.countP_append,
      List.countP_eq_zero (l := new).mpr fun y hy => by simp [others y hy], Nat.add_zero]

/-- A batch comes with its children, of which nothing has been heard yet. -/
theorem fresh {new : List (Child V)} (hne : new ≠ []) (children : w'.children = w.children ++ new)
    (before : ∀ y ∈ w.children, y.work.batch? ≠ some b)
    (news : ∀ y ∈ new, y.work.batch? = some b ∧ y.hasEnded = false)
    (unheard : ∀ p ∈ w'.history, ∀ y ∈ new, p.2.cell? ≠ some y.cell) :
    w'.Tallied b { cells := new.map (·.cell), remaining := new.length } := by
  have hquiet : ∀ p ∈ w'.history,
      p.2.value? (w'.racers b) = none ∧ p.2.cause? (w'.racers b) = none := by
    refine fun p hp => Happening.value?_of_cell? fun c hc => ?_
    obtain ⟨y, hy, hr, rfl⟩ := mem_racers.mp hc
    rcases List.mem_append.mp (children ▸ hy) with hy | hy
    · exact absurd (Work.batch?_of_raced? hr) (before y hy)
    · exact unheard p hp y hy
  constructor
  case cells =>
    rw [members, children, List.filterMap_append,
      List.filterMap_eq_nil_iff.mpr fun y hy => if_neg (before y hy), List.nil_append,
      filterMap_ite_eq_map fun y hy => (news y hy).1]
  case remaining =>
    rw [pending, children, List.countP_append,
      List.countP_eq_zero.mpr fun y hy => by simp [before y hy], Nat.zero_add,
      List.countP_eq_length.mpr fun y hy => by simp [news y hy]]
  case notified => cases new <;> first | rfl | exact absurd rfl hne
  case winner =>
    exact (List.findSome?_eq_none_iff.mpr fun p hp => (hquiet p hp).1).symm
  case lastFailure =>
    exact (List.findSome?_eq_none_iff.mpr fun p hp => (hquiet p (List.mem_reverse.mp hp)).2).symm

/-- A child of some batch ends. -/
theorem finish (h : w.Tallied b x) (ho : Owned w) {i : Nat} {child : Child V} (r : RunEnd V)
    (hc : w.children[i]? = some child) (he : child.hasEnded = false) {x' : Batch V}
    (hx : x' = if child.work.batch? = some b then child.work.tell r x else x) :
    (w.finish i child r).Tallied b x' := by
  have hm : (w.finish i child r).children.map mark = w.children.map mark := by
    rw [(finish_frame r hc).2.1]
    exact map_modify_eq fun _ _ => rfl
  have hp : (w.finish i child r).pending b + (child.work.batch? == some b).toNat =
      w.pending b := by
    have := countP_modify (f := fun x : Child V => { x with stage := .ended })
      (fun child => child.work.batch? == some b && !child.hasEnded) hc
    have hend : ({ child with stage := .ended } : Child V).hasEnded = true := rfl
    rw [he, hend, Bool.not_false, Bool.not_true, Bool.and_true, Bool.and_false,
      ← (finish_frame r hc).2.1] at this
    exact this
  -- The cell is one of those raced for exactly if the child is of that batch.
  have hmem : child.cell ∈ w.racers b ↔ child.work.raced? = some b := by
    rw [mem_racers]
    refine ⟨?_, fun hr => ⟨child, List.mem_of_getElem? hc, hr, rfl⟩⟩
    rintro ⟨y, hy, hr, hcell⟩
    obtain rfl := ho.eq_of_cell hc hy hcell
    exact hr
  let v? := if child.work.raced? = some b then r.value? else none
  let c? := if child.work.raced? = some b then r.cause? else none
  have hval : (Happening.ended child.cell r).value? (w.racers b) = v? := by
    simp only [Happening.value?, hmem, v?]
  have hcause : (Happening.ended child.cell r).cause? (w.racers b) = c? := by
    simp only [Happening.cause?, hmem, c?]
  obtain ⟨l, hhist, hl⟩ : ∃ l, (w.finish i child r).history =
      w.history ++ (w.now, .ended child.cell r) :: l ∧ ∀ p ∈ l, p.2.value? (w.racers b) = none ∧
        p.2.cause? (w.racers b) = none := by
    refine ⟨_, finish_history r hc, fun p hp => ?_⟩
    split at hp
    · exact List.mem_singleton.mp hp ▸ ⟨rfl, rfl⟩
    · cases hp
  have hw : (w.finish i child r).firstValue? b = (w.firstValue? b).or v? := by
    rw [firstValue?, firstValue?, hhist, racers_congr hm, List.findSome?_append,
      List.findSome?_cons, hval, List.findSome?_eq_none_iff.mpr fun p hp => (hl p hp).1]
    cases v? <;> rfl
  have hf : (w.finish i child r).lastCause? b = c?.or (w.lastCause? b) := by
    rw [lastCause?, lastCause?, hhist, racers_congr hm, List.reverse_append, List.reverse_cons,
      List.findSome?_append, List.findSome?_append, List.findSome?_singleton, hcause,
      List.findSome?_eq_none_iff.mpr fun p hp => (hl p (List.mem_reverse.mp hp)).2, Option.none_or]
  by_cases hb : child.work.batch? = some b
  · rw [if_pos hb] at hx
    subst hx
    rw [beq_iff_eq.mpr hb] at hp
    have hraced : child.work.raced?.isSome = decide (child.work.raced? = some b) := by
      cases hr : child.work.raced? with
      | none => rfl
      | some b' =>
        obtain rfl := Option.some.inj ((Work.batch?_of_raced? hr).symm.trans hb)
        simp
    refine ⟨?_, ?_, Work.tell_notified _ r x h.notified, ?_, ?_⟩
    · rw [Work.tell_cells, h.cells, members_congr hm]
    · rw [Work.tell_remaining, h.remaining, ← hp]
      rfl
    · rw [Work.tell_winner, h.winner, hw, hraced]
      simp [v?]
    · rw [Work.tell_lastFailure, h.lastFailure, hf, hraced]
      simp [c?]
  · rw [if_neg hb] at hx
    subst hx
    rw [beq_eq_false_iff_ne.mpr hb] at hp
    have hr : child.work.raced? ≠ some b := fun hr => hb (Work.batch?_of_raced? hr)
    refine ⟨?_, h.remaining.trans hp.symm, h.notified, ?_, ?_⟩
    · rw [h.cells, members_congr hm]
    · rw [h.winner, hw, show v? = none from if_neg hr, Option.or_none]
    · rw [h.lastFailure, hf, show c? = none from if_neg hr, Option.none_or]

end Tallied

/-- The children that a batch brings in. -/
theorem addBatchChildren_children (w : World V) (e : Nat) (name : String) (work : Body V → Work V)
    (n : Nat) (bodies : List (Body V)) :
    ∃ new : List (Child V),
      (w.addBatchChildren e name work n bodies).1.children = w.children ++ new ∧
      (w.addBatchChildren e name work n bodies).2 = new.map (·.cell) ∧
      new.map (·.work) = bodies.map work ∧
      ∀ x ∈ new, x.executor = e ∧ x.hasEnded = false ∧ w.cells.length ≤ x.cell := by
  induction bodies generalizing w n with
  | nil => exact ⟨[], (List.append_nil _).symm, rfl, rfl, by simp⟩
  | cons body bodies ih =>
    obtain ⟨new, hchildren, hcells, hworks, hnew⟩ :=
      ih (w.addChild e (name ++ "." ++ toString n) (work body) none).1 (n + 1)
    obtain ⟨x, hx, hxc, hxw, hxe⟩ : ∃ x : Child V,
        (w.addChild e (name ++ "." ++ toString n) (work body) none).1.children =
          w.children ++ [x] ∧ x.cell = w.cells.length ∧ x.work = work body ∧
        x.executor = e ∧ x.hasEnded = false := ⟨_, rfl, rfl, rfl, rfl, rfl⟩
    refine ⟨x :: new, hchildren.trans ?_, (congrArg (w.cells.length :: ·) hcells).trans ?_, ?_,
      fun y hy => ?_⟩
    · rw [hx, List.append_assoc]
      rfl
    · rw [List.map_cons, hxc]
    · rw [List.map_cons, hxw, hworks, List.map_cons]
    · rcases List.mem_cons.mp hy with rfl | hy
      · exact ⟨hxe.1, hxe.2, Nat.le_of_eq hxc.symm⟩
      · obtain ⟨hye, hyn, hyc⟩ := hnew y hy
        refine ⟨hye, hyn, Nat.le_trans ?_ hyc⟩
        exact (addChild_later w e _ (work body) none).cells.length_le

theorem openBatch_batches (w : World V) (e : Nat) (name : String) (work : Nat → Body V → Work V)
    (bodies : List (Body V)) :
    (w.openBatch e name work bodies).batches = w.batches ++
      [{ cells := (w.addBatchChildren e name (work w.batches.length) 0 bodies).2
         remaining := bodies.length }] := by
  have hb := (addBatchChildren_frame w e name (work w.batches.length) 0 bodies).2.2.1
  exact congrArg (· ++ _) hb

/-- The children of a batch are of that batch, and all of them are raced for or none is. -/
theorem batch?_of_new {work : Nat → Body V → Work V} (hw : work = .oneOfAll ∨ work = .oneOfAny)
    {new : List (Child V)} {n : Nat} {bodies : List (Body V)}
    (hworks : new.map (·.work) = bodies.map (work n)) :
    (∀ y ∈ new, y.work.batch? = some n) ∧
      ((∀ y ∈ new, y.work.raced? = none) ∨ ∀ y ∈ new, y.work.raced? = some n) := by
  have hof : ∀ y ∈ new, ∃ body, work n body = y.work := by
    intro y hy
    have hm := List.mem_map_of_mem (f := (·.work)) hy
    rw [hworks] at hm
    obtain ⟨body, -, hb⟩ := List.mem_map.mp hm
    exact ⟨body, hb⟩
  rcases hw with rfl | rfl
  · refine ⟨fun y hy => ?_, .inl fun y hy => ?_⟩ <;>
      obtain ⟨body, hb⟩ := hof y hy <;> rw [← hb] <;> rfl
  · refine ⟨fun y hy => ?_, .inr fun y hy => ?_⟩ <;>
      obtain ⟨body, hb⟩ := hof y hy <;> rw [← hb] <;> rfl

namespace Batched

/-- No child comes or ends, and none that is raced for yields anything. -/
theorem same (h : Batched w) {l : List (Instant × Happening V)}
    (history : w'.history = w.history ++ l)
    (quiet : ∀ b, ∀ p ∈ l, p.2.value? (w.racers b) = none ∧ p.2.cause? (w.racers b) = none)
    (batches : w'.batches = w.batches)
    (children : w'.children.map (fun child => (mark child, child.hasEnded)) =
      w.children.map fun child => (mark child, child.hasEnded)) : Batched w' := by
  have hm : w'.children.map mark = w.children.map mark := by
    have := congrArg (List.map Prod.fst) children
    rwa [List.map_map, List.map_map] at this
  have hin : ∀ child' ∈ w'.children, ∃ child ∈ w.children, child'.work = child.work := by
    intro child' hc
    have := List.mem_map_of_mem (f := mark) hc
    rw [hm] at this
    obtain ⟨child, hc, he⟩ := List.mem_map.mp this
    exact ⟨child, hc, (congrArg Prod.snd he).symm⟩
  refine ⟨fun b x hx => ?_, fun child' hc b hb => ?_, fun child' hc other' ho b hr hb => ?_⟩
  · exact (h.tallied b x (batches ▸ hx)).keep history (quiet b) (members_congr hm)
      (racers_congr hm) (pending_congr children)
  · obtain ⟨child, hc, he⟩ := hin child' hc
    exact batches ▸ h.within child hc b (he ▸ hb)
  · obtain ⟨child, hc, he⟩ := hin child' hc
    obtain ⟨other, ho, he'⟩ := hin other' ho
    rw [he']
    exact h.alike child hc other ho b (he ▸ hr) (he' ▸ hb)

/-- Nothing happens. -/
theorem still (h : Batched w) (history : w'.history = w.history) (batches : w'.batches = w.batches)
    (children : w'.children.map (fun child => (mark child, child.hasEnded)) =
      w.children.map fun child => (mark child, child.hasEnded)) : Batched w' :=
  h.same (l := []) (by rw [history, List.append_nil]) (by simp) batches children

/-- One thing happens, which yields nothing. -/
theorem tell (h : Batched w) {a : Happening V} (history : w'.history = w.history ++ [(w.now, a)])
    (quiet : ∀ b, a.value? (w.racers b) = none ∧ a.cause? (w.racers b) = none)
    (batches : w'.batches = w.batches)
    (children : w'.children.map (fun child => (mark child, child.hasEnded)) =
      w.children.map fun child => (mark child, child.hasEnded)) : Batched w' :=
  h.same history (fun b p hp => by rw [List.mem_singleton.mp hp]; exact quiet b) batches children

theorem finish (h : Batched w) (ho : Owned w) {i : Nat} {child : Child V} (r : RunEnd V)
    (hc : w.children[i]? = some child) (he : child.hasEnded = false) :
    Batched (w.finish i child r) := by
  have hin : ∀ child' ∈ (w.finish i child r).children, ∃ child ∈ w.children,
      child'.work = child.work := by
    intro child' hc'
    rw [(finish_frame r hc).2.1] at hc'
    obtain ⟨k, hk⟩ := List.mem_iff_getElem?.mp hc'
    obtain ⟨y, hy, ⟨-, rfl⟩ | ⟨-, rfl⟩⟩ := exists_getElem?_of_modify hk
    · exact ⟨y, List.mem_of_getElem? hy, rfl⟩
    · exact ⟨_, List.mem_of_getElem? hy, rfl⟩
  have hlen : (w.finish i child r).batches.length = w.batches.length := by
    rw [finish_batches r hc]
    cases child.work.batch? with
    | none => rfl
    | some b => exact List.length_modify ..
  refine ⟨fun b x' hx => ?_, fun child' hc' b hb => ?_, fun child' hc' other' ho' b hr hb => ?_⟩
  · rw [finish_batches r hc] at hx
    cases hb : child.work.batch? with
    | none =>
      rw [hb] at hx
      exact (h.tallied b x' hx).finish ho r hc he (by simp [hb])
    | some b₀ =>
      rw [hb] at hx
      obtain ⟨x, hx', ⟨rfl, rfl⟩ | ⟨hne, rfl⟩⟩ := exists_getElem?_of_modify hx
      · exact (h.tallied _ x hx').finish ho r hc he (by simp [hb])
      · exact (h.tallied b _ hx').finish ho r hc he (by simp [hb, hne])
  · obtain ⟨y, hy, hw⟩ := hin child' hc'
    exact hlen ▸ h.within y hy b (hw ▸ hb)
  · obtain ⟨y, hy, hw⟩ := hin child' hc'
    obtain ⟨z, hz, hw'⟩ := hin other' ho'
    rw [hw']
    exact h.alike y hy z hz b (hw ▸ hr) (hw' ▸ hb)

theorem parkChild (h : Batched w) {i : Nat} {child : Child V} {s : Stage V}
    (hc : w.children[i]? = some child) (he : child.hasEnded = false)
    (hs : ∀ x : Child V, ({ x with stage := s } : Child V).hasEnded = false) :
    Batched (w.parkChild i s) := by
  obtain ⟨-, -, -, hchildren, -, hbatches, -, hhistory, -⟩ := parkChild_frame s hc
  refine h.still hhistory hbatches ?_
  rw [hchildren]
  apply map_modify_eq
  intro x hx
  obtain rfl := Option.some.inj (hc.symm.trans hx)
  exact congrArg (Prod.mk _) ((hs _).trans he.symm)

/-- A child comes that is of no batch. -/
theorem addChild (h : Batched w) (e : Nat) (name : String) {work : Work V} (mark : Option Mark)
    (hb : work.batch? = none) : Batched (w.addChild e name work mark).1 := by
  obtain ⟨new, hchildren, hnew⟩ : ∃ new : Child V,
      (w.addChild e name work mark).1.children = w.children ++ [new] ∧ new.work = work :=
    ⟨_, rfl, rfl⟩
  have hold : ∀ child ∈ (w.addChild e name work mark).1.children, ∀ b,
      child.work.batch? = some b → child ∈ w.children := by
    intro child hc b hcb
    rcases List.mem_append.mp (hchildren ▸ hc) with hc | hc
    · exact hc
    · rw [List.mem_singleton.mp hc, hnew, hb] at hcb
      cases hcb
  refine ⟨fun b x hx => ?_, fun child hc b hcb => ?_, fun child hc other ho b hr hob => ?_⟩
  · exact (h.tallied b x hx).grow rfl hchildren (by simp [hnew, hb])
  · exact h.within child (hold child hc b hcb) b hcb
  · exact h.alike child (hold child hc b (Work.batch?_of_raced? hr)) other (hold other ho b hob) b
      hr hob

/-- A batch comes, with its children. -/
theorem openBatch (h : Batched w) (hj : Judged w) {e : Nat} {name : String}
    {work : Nat → Body V → Work V} {bodies : List (Body V)}
    (hw : work = .oneOfAll ∨ work = .oneOfAny) (hn : bodies ≠ []) :
    Batched (w.openBatch e name work bodies) := by
  obtain ⟨new, hnew, hcells, hworks, hall⟩ :=
    addBatchChildren_children w e name (work w.batches.length) 0 bodies
  have hchildren : (w.openBatch e name work bodies).children = w.children ++ new := hnew
  have hhist : (w.openBatch e name work bodies).history = w.history :=
    (openBatch_frame w e name work bodies).2.2.2.2
  have hlen : new.length = bodies.length := by
    simpa using congrArg List.length hworks
  have hbatches : (w.openBatch e name work bodies).batches =
      w.batches ++ [{ cells := new.map (·.cell), remaining := new.length }] := by
    rw [openBatch_batches, hcells, hlen]
  obtain ⟨hof, hraced⟩ := batch?_of_new hw hworks
  have hold : ∀ child ∈ w.children, child.work.batch? ≠ some w.batches.length :=
    fun child hc hb => Nat.lt_irrefl _ (h.within child hc _ hb)
  have hfresh : ∀ b, b ≠ w.batches.length → ∀ y ∈ new, y.work.batch? ≠ some b :=
    fun b hb y hy he => hb (Option.some.inj (he.symm.trans (hof y hy)))
  refine ⟨fun b x hx => ?_, fun child hc b hcb => ?_, fun child hc other ho b hr hob => ?_⟩
  · rw [hbatches] at hx
    rcases getElem?_concat_iff.mp hx with hx | ⟨rfl, rfl⟩
    · have hb : b ≠ w.batches.length := Nat.ne_of_lt (List.getElem?_eq_some_iff.mp hx).1
      exact (h.tallied b x hx).grow hhist hchildren (hfresh b hb)
    · have hne : new ≠ [] := by
        rintro rfl
        exact hn (List.length_eq_zero_iff.mp hlen.symm)
      refine .fresh hne hchildren hold (fun y hy => ⟨hof y hy, (hall y hy).2.1⟩)
        fun p hp y hy hpc => ?_
      -- What has happened befell tasks that were there.
      exact Nat.lt_irrefl _ (Nat.lt_of_lt_of_le (hj.within p (hhist ▸ hp) _ hpc) (hall y hy).2.2)
  · rw [hbatches, List.length_append]
    rcases List.mem_append.mp (hchildren ▸ hc) with hc | hc
    · exact Nat.lt_succ_of_lt (h.within child hc b hcb)
    · obtain rfl := Option.some.inj ((hof child hc).symm.trans hcb)
      exact Nat.lt_succ_self _
  · rcases List.mem_append.mp (hchildren ▸ hc) with hc | hc <;>
      rcases List.mem_append.mp (hchildren ▸ ho) with ho' | ho'
    · exact h.alike child hc other ho' b hr hob
    -- A child that was there and one of the new batch are not of one batch.
    · have hb := h.within child hc b (Work.batch?_of_raced? hr)
      exact absurd hob (hfresh b (Nat.ne_of_lt hb) other ho')
    · have hb := h.within other ho' b hob
      exact absurd (Work.batch?_of_raced? hr) (hfresh b (Nat.ne_of_lt hb) child hc)
    · rcases hraced with hnone | hsome
      · rw [hnone child hc] at hr
        cases hr
      · rw [hsome other ho', ← hr, hsome child hc]

end Batched

end World

open World

variable {f f' : Focus} {w w' : World V}

theorem Op.batched (op : Op f w f' w') (ho : Owned w) (hj : Judged w) (h : Batched w) :
    Batched w' := by
  cases op with
  | enrol name mark hr hb => exact h.addChild _ name mark hb
  | @cancel _ _ c interrupt hg =>
    obtain ⟨-, -, hchildren, -, hbatches, -⟩ := w.cancel_frame c interrupt
    exact h.tell (cancel_history_of_granted hg) (fun _ => ⟨rfl, rfl⟩) hbatches (by rw [hchildren])
  | ask he hr => exact h.tell rfl (fun _ => ⟨rfl, rfl⟩) rfl rfl
  | drain hr =>
    refine h.same (List.append_assoc ..) (fun b p hp => ?_) rfl rfl
    rcases List.mem_cons.mp hp with rfl | hp
    · exact ⟨rfl, rfl⟩
    · exact List.mem_singleton.mp hp ▸ ⟨rfl, rfl⟩
  | close hx h0 => exact h.tell rfl (fun _ => ⟨rfl, rfl⟩) rfl rfl
  | @start _ i child hc he hm hs' hr hd =>
    obtain ⟨-, -, -, hbatches, -⟩ := countRun_frame w i child
    refine h.tell (begin_history w i child) (fun _ => ⟨rfl, rfl⟩) hbatches ?_
    exact (congrArg (List.map _) (countRun_children w i child)).trans (map_modify_eq fun _ _ => rfl)
  | poll hc | resume hc he hs' => exact h.tell rfl (fun _ => ⟨rfl, rfl⟩) rfl rfl
  | pause rest hc he ho' hp => exact h.parkChild hc he fun _ => rfl
  | @again _ i child value hc hk =>
    refine h.tell rfl (fun b => ?_) rfl rfl
    -- A periodic child is of no batch.
    have hn : child.cell ∉ w.racers b := by
      intro hm
      obtain ⟨y, hy, hr, hcell⟩ := mem_racers.mp hm
      obtain rfl := ho.eq_of_cell hc hy hcell
      cases hw : y.work <;> simp [hw, Work.kind, Work.raced?] at hk hr
    exact ⟨if_neg hn, if_neg hn⟩
  | sleep hc he hp hs' hk => exact h.parkChild hc he (Child.hasEnded_of_sleep hs')
  | yield hc he hp hk =>
    refine h.still rfl rfl (map_modify_eq fun x hx => ?_)
    obtain rfl := Option.some.inj (hc.symm.trans hx)
    exact congrArg (Prod.mk _) he.symm
  | @finish _ i child r hc he hr hk =>
    have hl₁ := leave_later w child.cell r
    have h₁ : Batched (w.modifyCell child.cell (·.leave r)) := h.still rfl rfl rfl
    exact h₁.finish (ho.of_later hl₁ rfl (List.length_modify ..) rfl) r hc he
  | stop hc he hb => exact h.finish ho _ hc he
  | openBatch name hr hw hn => exact h.openBatch hj hw hn
  | grant count =>
    rw [addCancelledCells_cells]
    exact h.still rfl rfl rfl
  | terminate hd => exact h.tell rfl (fun _ => ⟨rfl, rfl⟩) rfl rfl
  | _ => exact h.still rfl rfl rfl

theorem Reached.batched (h : Reached f w) : Batched w := by
  refine h.induct (P := fun _ w => Batched w) (fun jumps => ?_) fun hr op hw =>
    op.batched hr.owned hr.judged hw
  exact ⟨fun b x hx => by simp [World.start] at hx, by simp [World.start], by simp [World.start]⟩

end TimedTasks
