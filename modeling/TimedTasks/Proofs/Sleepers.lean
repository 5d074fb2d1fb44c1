import Mathlib.Data.List.Basic
import TimedTasks.Time.ManualClock
/-!
A manual clock keeps time for its sleepers. No wake-up is lost although a sleeper only looks at the
time when it has been set: between two commands every sleeper that waits has seen the time as it is,
and it was too early for it. So a command either sets the time, and all look, or leaves it, and none
has to. Each sleeper wakes at the first command after which its time has come, whatever the commands
are that brought it there.
-/

namespace TimedTasks

/-- A list that is sorted by its keys has at most one entry of a key. -/
theorem filter_key_eq_singleton {α : Type} {l : List (String × α)} {k : String} {a : α}
    (hl : l.Pairwise fun p q => p.1 < q.1) (h : (k, a) ∈ l) : l.filter (·.1 == k) = [(k, a)] := by
  induction l with
  | nil => cases h
  | cons p l ih =>
    obtain ⟨hp, hl⟩ := List.pairwise_cons.mp hl
    rcases List.mem_cons.mp h with rfl | h
    · have hnone : l.filter (·.1 == k) = [] := by
        refine List.filter_eq_nil_iff.mpr fun q hq heq => ?_
        have := hp q hq
        rw [beq_iff_eq.mp heq] at this
        exact String.lt_irrefl _ this
      rw [List.filter_cons_of_pos (by simp), hnone]
    · have hne : (p.1 == k) = false := by
        have := hp _ h
        refine beq_eq_false_iff_ne.mpr fun heq => ?_
        rw [heq] at this
        exact String.lt_irrefl _ this
      rw [List.filter_cons_of_neg (by simp [hne]), ih hl h]

theorem filter_key_eq_nil {α : Type} {l : List (String × α)} {k : String}
    (h : ∀ a, (k, a) ∉ l) : l.filter (·.1 == k) = [] := by
  refine List.filter_eq_nil_iff.mpr fun q hq heq => ?_
  obtain rfl := beq_iff_eq.mp heq
  exact h q.2 hq

theorem Duration.add?_cases (a b : Duration) :
    (∃ t, a.add? b = some t ∧ t.nanos = a.nanos + b.nanos ∧ a.nanos + b.nanos < limit) ∨
      a.add? b = none ∧ limit ≤ a.nanos + b.nanos := by
  rcases Nat.lt_or_ge (a.nanos + b.nanos) limit with h | h
  · exact .inl ⟨_, dif_pos h, rfl, h⟩
  · exact .inr ⟨dif_neg (Nat.not_lt.mpr h), h⟩

namespace ManualClock

variable {c c' : ManualClock} {handle name : String} {command : Command} {s : Sleeper}

/-! ## One command -/

/-- What a command makes of the time that has elapsed; a sum that is too long leaves it. -/
def Command.elapse (t : Nat) : Command → Nat
  | .advance d => if t + d.nanos < Duration.limit then t + d.nanos else t
  | .setElapsed d => max t d.nanos
  | _ => t

/-- The sleeper that a command makes, and the instant that it waits for. -/
def Command.sleeper? (c : ManualClock) : Command → Option (String × Option Instant)
  | .sleep name d => c.now?.map fun t => (name, t.after? d)
  | .sleepUntil name d => (c.start.after? d).map fun t => (name, some t)
  | .sleepTill name t => some (name, some t)
  | _ => none

/-- The name that a command gives to a sleeper. -/
def Command.name? : Command → Option String
  | .sleep name _ | .sleepUntil name _ | .sleepTill name _ => some name
  | _ => none

theorem Command.name?_eq {deadline : Option Instant}
    (h : command.sleeper? c = some (name, deadline)) : command.name? = some name := by
  cases command with
  | sleep n d | sleepUntil n d =>
    obtain ⟨t, -, h⟩ := Option.map_eq_some_iff.mp h
    cases h
    rfl
  | sleepTill n t =>
    cases h
    rfl
  | _ => cases h

/-- The command that is carried out: on a handle that does not exist, no more than a look. -/
def heard (c : ManualClock) (handle : String) (command : Command) : Command :=
  if handle ∈ c.handles then command else .read

/-- All that a command can do: it sets the time or adds a sleeper, if there is a handle, or changes
who has one. -/
inductive Effect (c : ManualClock) (command : Command) : ManualClock → Prop
  | sets (t : Duration) (hne : c.handles ≠ []) (ht : t.nanos = command.elapse c.elapsed.nanos)
      (hle : c.elapsed ≤ t) : Effect c command (c.set t)
  | sleeps (name : String) (deadline : Option Instant) (hne : c.handles ≠ [])
      (hs : command.sleeper? c = some (name, deadline)) :
      Effect c command (c.addSleeper name deadline)
  | hands (handles : List String) (hn : c.handles = [] → handles = [])
      (ht : command.elapse c.elapsed.nanos = c.elapsed.nanos) :
      Effect c command { c with handles := handles }

theorem elapse_of_sleeper {p : String × Option Instant} (h : command.sleeper? c = some p)
    (t : Nat) : command.elapse t = t := by
  cases command <;> first | rfl | cases h

theorem perform_effect (hne : c.handles ≠ []) (h : c.perform handle command = .ok c') :
    Effect c command c' := by
  cases command with
  | advance d =>
    rw [perform] at h
    rcases c.elapsed.add?_cases d with ⟨t, ha, ht, hlt⟩ | ⟨ha, -⟩ <;> rw [ha] at h <;> cases h
    refine .sets t hne ?_ ?_
    · rw [ht, Command.elapse, if_pos hlt]
    · exact Nat.le_trans (Nat.le_add_right ..) (Nat.le_of_eq ht.symm)
  | setElapsed d =>
    cases h
    by_cases hlt : c.elapsed < d
    · rw [if_pos hlt]
      exact .sets d hne (Nat.max_eq_right (Nat.le_of_lt hlt)).symm (Nat.le_of_lt hlt)
    · rw [if_neg hlt]
      exact .hands c.handles id (Nat.max_eq_left (Nat.le_of_not_lt hlt))
  | sleep n d =>
    rw [perform] at h
    cases ht : c.now? <;> rw [ht] at h <;> cases h
    exact .sleeps n _ hne (by rw [Command.sleeper?, ht]; rfl)
  | sleepUntil n d =>
    rw [perform] at h
    cases ht : c.start.after? d <;> rw [ht] at h <;> cases h
    exact .sleeps n _ hne (by rw [Command.sleeper?, ht]; rfl)
  | sleepTill n t =>
    cases h
    exact .sleeps n _ hne rfl
  | share new | release =>
    cases h
    exact .hands _ (fun hn => absurd hn hne) rfl
  | read =>
    cases h
    exact .hands c.handles id rfl

/-- A command that breaks off would not have moved the time. -/
theorem elapse_of_error {p : Panic} (h : c.perform handle command = .error p) :
    command.elapse c.elapsed.nanos = c.elapsed.nanos := by
  cases command with
  | advance d =>
    rw [perform] at h
    rcases c.elapsed.add?_cases d with ⟨t, ha, -, -⟩ | ⟨ha, hlimit⟩ <;> rw [ha] at h <;> cases h
    exact if_neg (Nat.not_lt.mpr hlimit)
  | setElapsed d => cases h
  | _ => rfl

theorem command_effect (c : ManualClock) (handle : String) (command : Command) :
    Effect c (c.heard handle command) (c.command handle command).1 := by
  unfold ManualClock.command heard
  split
  · rename_i hh
    split
    · rename_i c' h
      exact perform_effect (List.ne_nil_of_mem hh) h
    · rename_i p h
      exact .hands c.handles id (elapse_of_error h)
  · exact .hands c.handles id rfl

namespace Effect

theorem start_eq (e : Effect c command c') : c'.start = c.start := by
  cases e <;> rfl

theorem elapsed_eq (e : Effect c command c') :
    c'.elapsed.nanos = command.elapse c.elapsed.nanos := by
  cases e with
  | sets t hne ht hle => exact ht
  | sleeps name deadline hne hs => exact (elapse_of_sleeper hs _).symm
  | hands handles hn ht => exact ht.symm

theorem elapsed_le (e : Effect c command c') : c.elapsed ≤ c'.elapsed := by
  cases e with
  | sets t hne ht hle => exact hle
  | _ => exact Nat.le_refl c.elapsed.nanos

end Effect

/-! ## Between two commands -/

/-- What the clock shows. -/
def reading (c : ManualClock) : Instant := c.start + c.elapsed.nanos

/-- Whether the time of a sleeper has come. -/
def hasCome (now : Instant) : (deadline : Option Instant) → Bool
  | some d => d ≤ now
  | none => false

/-- Whether all sleepers have looked at the time, and it was too early for them. -/
structure AtRest (c : ManualClock) : Prop where
  sorted : c.sleepers.Pairwise fun p q => p.1 < q.1
  seen : ∀ p ∈ c.sleepers, p.2.seen = some c.changes
  early : ∀ p ∈ c.sleepers, hasCome c.reading p.2.deadline = false

/-- Whether a sleeper that is asked wakes if its time has come, and only then. -/
structure Sees (c : ManualClock) (s : Sleeper) : Prop where
  due : hasCome c.reading s.deadline = true → c.sight s = .wakes
  early : hasCome c.reading s.deadline = false → c.sight s = .waits ∨ c.sight s = .stranded

/-- Whether this is so for all sleepers. -/
structure Alert (c : ManualClock) : Prop where
  sorted : c.sleepers.Pairwise fun p q => p.1 < q.1
  sees : ∀ p ∈ c.sleepers, c.Sees p.2

theorem idle_cases (c : ManualClock) : c.idle = .waits ∨ c.idle = .stranded := by
  unfold idle
  split
  · exact .inr rfl
  · exact .inl rfl

theorem handles_of_stranded (h : c.sight s = .stranded) : c.handles = [] := by
  have hidle (hi : c.idle = .stranded) : c.handles = [] := by
    unfold idle at hi
    split at hi
    · exact List.isEmpty_iff.mp ‹_›
    · cases hi
  unfold sight at h
  split at h
  · cases h
  · split at h
    · exact hidle h
    · split at h
      · split at h
        · cases h
        · exact hidle h
      · cases h

theorem now?_eq (h : c.now?.isSome) : c.now? = some c.reading := by
  obtain ⟨t, ht⟩ := Option.isSome_iff_exists.mp h
  rw [ht, Instant.after?_eq_some ht, reading]

/-- A sleeper that looks at the time wakes when its own has come. -/
theorem sees_of_unseen (h : c.now?.isSome) (hs : s.seen ≠ some c.changes) : c.Sees s := by
  obtain ⟨deadline, seen⟩ := s
  cases deadline with
  | none => exact ⟨nofun, fun _ => .inl rfl⟩
  | some d =>
    have hlook : c.sight ⟨some d, seen⟩ = if d ≤ c.reading then .wakes else c.idle := by
      simp only [sight, if_neg hs, now?_eq h]
    refine ⟨fun hd => hlook.trans (if_pos (of_decide_eq_true hd)), fun hd => ?_⟩
    rw [hlook, if_neg (of_decide_eq_false hd)]
    exact c.idle_cases

theorem sight_of_seen (hs : s.seen = some c.changes) :
    c.sight s = .waits ∨ c.sight s = .stranded := by
  unfold sight
  split
  · exact .inl rfl
  · rw [if_pos hs]
    exact c.idle_cases

/-- A sleeper that has seen the time does not look, and need not. -/
theorem sees_of_seen (hs : s.seen = some c.changes) (he : hasCome c.reading s.deadline = false) :
    c.Sees s :=
  ⟨fun hd => absurd hd (Bool.eq_false_iff.mp he), fun _ => sight_of_seen hs⟩

theorem mem_place {q : String × Sleeper} {l : List (String × Sleeper)} (h : q ∈ place name s l) :
    q = (name, s) ∨ q ∈ l := by
  induction l with
  | nil => exact .inl (List.mem_singleton.mp h)
  | cons p l ih =>
    unfold place at h
    split at h
    · exact List.mem_cons.mp h
    · split at h
      · exact (List.mem_cons.mp h).imp id (List.mem_cons_of_mem p)
      · rcases List.mem_cons.mp h with rfl | h
        · exact .inr List.mem_cons_self
        · exact (ih h).imp id (List.mem_cons_of_mem p)

theorem place_self_mem (name : String) (s : Sleeper) (l : List (String × Sleeper)) :
    (name, s) ∈ place name s l := by
  induction l with
  | nil => exact List.mem_singleton_self _
  | cons p l ih =>
    unfold place
    split
    · exact List.mem_cons_self
    · split
      · exact List.mem_cons_self
      · exact List.mem_cons_of_mem p ih

/-- A sleeper of another name keeps its place. -/
theorem place_mem {q : String × Sleeper} {l : List (String × Sleeper)} (hq : q ∈ l)
    (hn : q.1 ≠ name) : q ∈ place name s l := by
  induction l with
  | nil => cases hq
  | cons p l ih =>
    unfold place
    split
    · exact List.mem_cons_of_mem _ hq
    · split
      · rename_i heq
        refine List.mem_cons_of_mem _ ((List.mem_cons.mp hq).resolve_left ?_)
        rintro rfl
        exact hn heq.symm
      · rcases List.mem_cons.mp hq with rfl | hq
        · exact List.mem_cons_self
        · exact List.mem_cons_of_mem p (ih hq)

theorem place_sorted {l : List (String × Sleeper)} (hl : l.Pairwise fun p q => p.1 < q.1) :
    (place name s l).Pairwise fun p q => p.1 < q.1 := by
  induction l with
  | nil => exact List.pairwise_singleton _ _
  | cons p l ih =>
    obtain ⟨hp, hl'⟩ := List.pairwise_cons.mp hl
    unfold place
    split
    · rename_i hlt
      refine List.pairwise_cons.mpr ⟨fun q hq => ?_, hl⟩
      rcases List.mem_cons.mp hq with rfl | hq
      · exact hlt
      · exact String.lt_trans hlt (hp q hq)
    · rename_i hnlt
      split
      · rename_i heq
        exact List.pairwise_cons.mpr ⟨fun q hq => heq ▸ hp q hq, hl'⟩
      · rename_i hne
        refine List.pairwise_cons.mpr ⟨fun q hq => ?_, ih hl'⟩
        rcases mem_place hq with rfl | hq
        · exact Std.lt_of_le_of_ne (String.not_lt.mp hnlt) (Ne.symm hne)
        · exact hp q hq

/-- No wake-up is lost: after a command those sleepers wake whose time has come. -/
theorem AtRest.alert (h : c.AtRest) (e : Effect c command c') (hnow : c'.now?.isSome) :
    c'.Alert := by
  cases e with
  | sets t hne ht hle =>
    -- whatever they have seen was the time before this one
    refine ⟨h.sorted, fun p hp => sees_of_unseen hnow ?_⟩
    rw [h.seen p hp]
    exact fun heq => Nat.succ_ne_self c.changes (Option.some.inj heq).symm
  | sleeps name deadline hne hs =>
    refine ⟨place_sorted h.sorted, fun p hp => ?_⟩
    rcases mem_place hp with rfl | hp
    · exact sees_of_unseen hnow nofun
    · exact sees_of_seen (h.seen p hp) (h.early p hp)
  | hands handles hn ht =>
    exact ⟨h.sorted, fun p hp => sees_of_seen (h.seen p hp) (h.early p hp)⟩

/-! ## After the sleepers have looked -/

theorem keep_eq_some {p q : String × Sleeper} (h : c.keep p = some q) :
    q.1 = p.1 ∧ q.2.seen = some c.changes ∧
      (c.sight p.2 = .waits ∧ q.2.deadline = p.2.deadline ∨
        c.sight p.2 = .stranded ∧ q.2.deadline = none) := by
  unfold keep at h
  cases hs : c.sight p.2 <;> rw [hs] at h <;> cases h
  · exact ⟨rfl, rfl, .inl ⟨rfl, rfl⟩⟩
  · exact ⟨rfl, rfl, .inr ⟨rfl, rfl⟩⟩

theorem stir_fst (c : ManualClock) (p : String × Sleeper) (name : String) :
    (c.stir p).filter (·.1 == name) = if p.1 == name then c.stir p else none := by
  unfold stir
  by_cases hn : p.1 = name <;> cases c.sight p.2 <;> simp [hn]

theorem Alert.settled (h : c.Alert) : c.settled.AtRest := by
  refine ⟨?_, fun q hq => ?_, fun q hq => ?_⟩
  · refine List.Pairwise.filterMap _ (fun p p' hlt q hq q' hq' => ?_) h.sorted
    rw [(keep_eq_some hq).1, (keep_eq_some hq').1]
    exact hlt
  · obtain ⟨p, -, hk⟩ := List.mem_filterMap.mp hq
    exact (keep_eq_some hk).2.1
  · obtain ⟨p, hp, hk⟩ := List.mem_filterMap.mp hq
    obtain ⟨-, -, ⟨hw, hd⟩ | ⟨-, hd⟩⟩ := keep_eq_some hk
    · rw [hd]
      refine Bool.eq_false_iff.mpr fun hdue => ?_
      rw [(h.sees p hp).due hdue] at hw
      cases hw
    · rw [hd]
      rfl

/-- What the sleepers of one name do. -/
theorem filter_stirred (c : ManualClock) (name : String) :
    c.stirred.filter (·.1 == name) = (c.sleepers.filter (·.1 == name)).filterMap c.stir := by
  unfold stirred
  rw [List.filter_filterMap, List.filterMap_filter]
  exact congrArg (List.filterMap · c.sleepers) (funext fun p => c.stir_fst p name)

/-- Whether there is no sleeper of a name. -/
def Gone (c : ManualClock) (name : String) : Prop := ∀ s, (name, s) ∉ c.sleepers

/-- Whether a sleeper waits for a deadline, or has given up because it will not come. -/
def Tended (c : ManualClock) (name : String) (deadline : Option Instant) : Prop :=
  ∃ s, (name, s) ∈ c.sleepers ∧ (s.deadline = deadline ∨
    s.deadline = none ∧ c.handles = [] ∧ hasCome c.reading deadline = false)

theorem Gone.stirred (h : c.Gone name) : c.stirred.filter (·.1 == name) = [] := by
  rw [filter_stirred, filter_key_eq_nil h]
  rfl

theorem mem_settled (hs : (name, s) ∈ c.settled.sleepers) :
    ∃ q, (name, q) ∈ c.sleepers ∧ c.keep (name, q) = some (name, s) := by
  obtain ⟨⟨n, q⟩, hq, hk⟩ := List.mem_filterMap.mp hs
  obtain rfl : name = n := (keep_eq_some hk).1
  exact ⟨q, hq, hk⟩

theorem Gone.settled (h : c.Gone name) : c.settled.Gone name := by
  intro s hs
  obtain ⟨q, hq, -⟩ := mem_settled hs
  exact h q hq

variable {deadline : Option Instant}

/-- A sleeper whose time has come wakes, once and for all. -/
theorem Alert.wakes (h : c.Alert) (ht : c.Tended name deadline)
    (hdue : hasCome c.reading deadline = true) :
    c.stirred.filter (·.1 == name) = [(name, false)] ∧ c.settled.Gone name := by
  obtain ⟨s, hs, hd⟩ := ht
  obtain rfl : s.deadline = deadline :=
    hd.resolve_right fun ⟨_, _, hn⟩ => absurd hdue (Bool.eq_false_iff.mp hn)
  have hsight := (h.sees _ hs).due hdue
  have hone := filter_key_eq_singleton h.sorted hs
  constructor
  · rw [filter_stirred, hone]
    simp [stir, hsight]
  · intro r hr
    obtain ⟨q, hq, hk⟩ := mem_settled hr
    have hq' : (name, q) ∈ c.sleepers.filter (·.1 == name) :=
      List.mem_filter.mpr ⟨hq, beq_self_eq_true name⟩
    rw [hone, List.mem_singleton] at hq'
    cases hq'
    simp [keep, hsight] at hk

/-- Before that it only waits. -/
theorem Alert.waits (h : c.Alert) (ht : c.Tended name deadline)
    (hearly : hasCome c.reading deadline = false) :
    c.stirred.filter (·.1 == name) = [] ∧ c.settled.Tended name deadline := by
  obtain ⟨s, hs, hd⟩ := ht
  have hnot : hasCome c.reading s.deadline = false := by
    rcases hd with rfl | ⟨hd, -, -⟩
    · exact hearly
    · rw [hd]
      rfl
  have hsight := (h.sees _ hs).early hnot
  constructor
  · rw [filter_stirred, filter_key_eq_singleton h.sorted hs]
    rcases hsight with hsight | hsight <;> simp [stir, hsight]
  · rcases hsight with hw | hw
    · exact ⟨{ s with seen := some c.changes },
        List.mem_filterMap.mpr ⟨_, hs, by simp only [keep, hw]⟩, hd⟩
    · exact ⟨⟨none, some c.changes⟩, List.mem_filterMap.mpr ⟨_, hs, by simp only [keep, hw]⟩,
        .inr ⟨rfl, handles_of_stranded hw, hearly⟩⟩

/-! ## Several commands -/

/-- A clock that has just been made. -/
def fresh (start : Instant) (handle : String) : ManualClock := { start, handles := [handle] }

/-- The clock after several commands. -/
def after (c : ManualClock) : List (String × Command) → ManualClock
  | [] => c
  | (handle, command) :: l => (c.step handle command).1.after l

/-- The commands that are carried out, one after the other. -/
def heardAll (c : ManualClock) : List (String × Command) → List Command
  | [] => []
  | (handle, command) :: l => c.heard handle command :: (c.step handle command).1.heardAll l

variable {l : List (String × Command)}

theorem start_after (c : ManualClock) (l : List (String × Command)) :
    (c.after l).start = c.start := by
  induction l generalizing c with
  | nil => rfl
  | cons x l ih => exact (ih _).trans (command_effect c x.1 x.2).start_eq

theorem elapsed_after (c : ManualClock) (l : List (String × Command)) :
    (c.after l).elapsed.nanos = (c.heardAll l).foldl Command.elapse c.elapsed.nanos := by
  induction l generalizing c with
  | nil => rfl
  | cons x l ih =>
    rw [after, ih, heardAll, List.foldl_cons]
    exact congrArg (List.foldl _ · _) (command_effect c x.1 x.2).elapsed_eq

theorem elapsed_le_after (c : ManualClock) (l : List (String × Command)) :
    c.elapsed ≤ (c.after l).elapsed := by
  induction l generalizing c with
  | nil => exact Nat.le_refl c.elapsed.nanos
  | cons x l ih =>
    show c.elapsed.nanos ≤ ((c.step x.1 x.2).1.after l).elapsed.nanos
    exact Nat.le_trans (command_effect c x.1 x.2).elapsed_le (ih (c.step x.1 x.2).1)

theorem now?_isSome_iff (c : ManualClock) : c.now?.isSome ↔ c.reading < Instant.limit := by
  unfold now? Instant.after? reading
  split <;> simp [*]

theorem now?_of_after (h : (c.after l).now?.isSome) : c.now?.isSome := by
  rw [now?_isSome_iff] at *
  refine Nat.lt_of_le_of_lt ?_ h
  rw [reading, reading, start_after]
  exact Nat.add_le_add_left (elapsed_le_after c l) c.start

theorem AtRest.alert_command {x : String × Command} (h : c.AtRest)
    (hnow : (c.after (x :: l)).now?.isSome) : (c.command x.1 x.2).1.Alert :=
  h.alert (command_effect c x.1 x.2) (now?_of_after (c := (c.step x.1 x.2).1) (l := l) hnow)

/-- Between two commands all sleepers have looked. -/
theorem AtRest.after (h : c.AtRest) (hnow : (c.after l).now?.isSome) : (c.after l).AtRest := by
  induction l generalizing c with
  | nil => exact h
  | cons x l ih => exact ih (h.alert_command hnow).settled hnow

theorem name?_heard (h : command.name? ≠ some name) :
    (c.heard handle command).name? ≠ some name := by
  unfold heard
  split
  · exact h
  · exact nofun

/-- A sleeper stays tended as long as no other one takes its name. -/
theorem Tended.effect (ht : c.Tended name deadline) (e : Effect c command c')
    (hn : command.name? ≠ some name) : c'.Tended name deadline := by
  obtain ⟨s, hs, hd⟩ := ht
  cases e with
  | sets t hne ht hle =>
    -- there is a handle, so it cannot have given up
    exact ⟨s, hs, .inl (hd.resolve_right fun ⟨_, h0, _⟩ => hne h0)⟩
  | sleeps n d hne hsl =>
    refine ⟨s, place_mem hs ?_, hd⟩
    rintro rfl
    exact hn (Command.name?_eq hsl)
  | hands handles h0 ht => exact ⟨s, hs, hd.imp id fun ⟨hd, hh, hc⟩ => ⟨hd, h0 hh, hc⟩⟩

theorem Gone.effect (hg : c.Gone name) (e : Effect c command c')
    (hn : command.name? ≠ some name) : c'.Gone name := by
  cases e with
  | sleeps n d hne hsl =>
    intro s hs
    rcases mem_place hs with heq | hs
    · cases heq
      exact hn (Command.name?_eq hsl)
    · exact hg s hs
  | _ => exact hg

theorem Gone.run (hg : c.Gone name) (hl : ∀ x ∈ l, x.2.name? ≠ some name) :
    ∀ o ∈ c.run l, o.stirred.filter (·.1 == name) = [] := by
  induction l generalizing c with
  | nil => exact nofun
  | cons x l ih =>
    have hg' := hg.effect (command_effect c x.1 x.2) (name?_heard (hl x List.mem_cons_self))
    intro o ho
    rcases List.mem_cons.mp ho with rfl | ho
    · exact hg'.stirred
    · exact ih hg'.settled (fun y hy => hl y (List.mem_cons_of_mem x hy)) o ho

/-- Whether the time that is seen, on a clock which started at some instant, has come for a
deadline. -/
def Observation.shows (start : Instant) (deadline : Option Instant) (o : Observation) : Bool :=
  hasCome (start + o.elapsed.nanos) deadline

/-- Whether a sleeper wakes at the first of several observations that shows its time, and at no
other. -/
def WakesFirst (start : Instant) (name : String) (deadline : Option Instant)
    (seen : List Observation) : Prop :=
  ∀ i o, seen[i]? = some o → o.stirred.filter (·.1 == name) =
    if i = seen.findIdx (·.shows start deadline) then [(name, false)] else []

namespace WakesFirst

variable {start : Instant} {o : Observation} {seen : List Observation}

theorem cons_due (hdue : o.shows start deadline = true)
    (ho : o.stirred.filter (·.1 == name) = [(name, false)])
    (hseen : ∀ o ∈ seen, o.stirred.filter (·.1 == name) = []) :
    WakesFirst start name deadline (o :: seen) := by
  intro i o' hi
  rw [List.findIdx_cons, hdue, cond_true]
  cases i with
  | zero =>
    cases hi
    exact ho
  | succ i => exact hseen o' (List.mem_of_getElem? hi)

theorem cons_early (hearly : o.shows start deadline = false)
    (ho : o.stirred.filter (·.1 == name) = []) (hseen : WakesFirst start name deadline seen) :
    WakesFirst start name deadline (o :: seen) := by
  intro i o' hi
  rw [List.findIdx_cons, hearly, cond_false]
  cases i with
  | zero =>
    cases hi
    exact ho
  | succ i =>
    simp only [Nat.add_right_cancel_iff]
    exact hseen i o' hi

/-- It wakes if its time is shown at all, and it never breaks. -/
theorem stirred_iff (h : WakesFirst start name deadline seen) (broken : Bool) :
    (∃ o ∈ seen, (name, broken) ∈ o.stirred) ↔
      broken = false ∧ ∃ o ∈ seen, o.shows start deadline = true := by
  have hmem (o : Observation) :
      (name, broken) ∈ o.stirred ↔ (name, broken) ∈ o.stirred.filter (·.1 == name) :=
    ⟨fun ho => List.mem_filter.mpr ⟨ho, beq_self_eq_true name⟩, fun ho => (List.mem_filter.mp ho).1⟩
  constructor
  · rintro ⟨o, ho, hs⟩
    obtain ⟨i, hi⟩ := List.mem_iff_getElem?.mp ho
    have hw := h i o hi
    rw [hmem] at hs
    split at hw
    · rename_i heq
      rw [hw, List.mem_singleton, Prod.mk.injEq] at hs
      obtain ⟨hlt, rfl⟩ := List.getElem?_eq_some_iff.mp hi
      subst heq
      exact ⟨hs.2, _, ho, List.findIdx_getElem (w := hlt)⟩
    · rw [hw] at hs
      cases hs
  · rintro ⟨rfl, o, ho, hdue⟩
    have hlt := List.findIdx_lt_length_of_exists ⟨o, ho, hdue⟩
    refine ⟨_, List.getElem_mem hlt, (hmem _).mpr ?_⟩
    rw [h _ _ (List.getElem?_eq_getElem hlt), if_pos rfl]
    exact List.mem_singleton_self _

end WakesFirst

/-- A sleeper that looks wakes if its time has come; otherwise it wakes as it does later. -/
theorem Alert.wakesFirst (h : c.Alert) (ht : c.Tended name deadline) (panic : Option Panic)
    (hl : ∀ x ∈ l, x.2.name? ≠ some name)
    (hlater : c.settled.Tended name deadline →
      WakesFirst c.start name deadline (c.settled.run l)) :
    WakesFirst c.start name deadline
      (⟨panic, c.stirred, c.handles, c.elapsed, c.now?⟩ :: c.settled.run l) := by
  cases hcome : hasCome c.reading deadline with
  | true =>
    obtain ⟨hw, hgone⟩ := h.wakes ht hcome
    exact .cons_due hcome hw (hgone.run hl)
  | false =>
    obtain ⟨hw, ht'⟩ := h.waits ht hcome
    exact .cons_early hcome hw (hlater ht')

theorem AtRest.wakesFirst (h : c.AtRest) (ht : c.Tended name deadline)
    (hl : ∀ x ∈ l, x.2.name? ≠ some name) (hnow : (c.after l).now?.isSome) :
    WakesFirst c.start name deadline (c.run l) := by
  -- until it wakes it stays tended; once it has woken, none of its name is left
  induction l generalizing c with
  | nil => exact nofun
  | cons x l ih =>
    have e := command_effect c x.1 x.2
    have hl' : ∀ y ∈ l, y.2.name? ≠ some name := fun y hy => hl y (List.mem_cons_of_mem x hy)
    have halert := h.alert_command hnow
    have ht' := ht.effect e (name?_heard (hl x List.mem_cons_self))
    rw [← e.start_eq]
    exact halert.wakesFirst ht' _ hl' fun ht' => ih halert.settled ht' hl' hnow

theorem command_eq_addSleeper (hh : handle ∈ c.handles)
    (hs : command.sleeper? c = some (name, deadline)) :
    c.command handle command = (c.addSleeper name deadline, none) := by
  rw [ManualClock.command, if_pos hh]
  cases command with
  | sleep n d | sleepUntil n d =>
    obtain ⟨t, ht, heq⟩ := Option.map_eq_some_iff.mp hs
    cases heq
    simp only [perform, ht]
  | sleepTill n t =>
    cases hs
    rfl
  | _ => cases hs

/-- A new sleeper wakes at the first command after which its time has come, its own included. -/
theorem AtRest.wakesFirst_sleeper (h : c.AtRest) (hh : handle ∈ c.handles)
    (hs : command.sleeper? c = some (name, deadline)) (hl : ∀ x ∈ l, x.2.name? ≠ some name)
    (hnow : (c.after ((handle, command) :: l)).now?.isSome) :
    WakesFirst c.start name deadline (c.run ((handle, command) :: l)) := by
  have halert := h.alert_command hnow
  rw [ManualClock.after, step] at hnow
  rw [run, step]
  rw [command_eq_addSleeper hh hs] at *
  exact halert.wakesFirst ⟨_, place_self_mem .., .inl rfl⟩ none hl fun ht =>
    halert.settled.wakesFirst ht hl hnow

theorem run_elapsed_le (c : ManualClock) (l : List (String × Command)) :
    ∀ o ∈ c.run l, o.elapsed ≤ (c.after l).elapsed := by
  induction l generalizing c with
  | nil => exact nofun
  | cons x l ih =>
    intro o ho
    rcases List.mem_cons.mp ho with rfl | ho
    · exact elapsed_le_after (c.step x.1 x.2).1 l
    · exact ih _ o ho

theorem exists_run_elapsed (c : ManualClock) (hne : l ≠ []) :
    ∃ o ∈ c.run l, o.elapsed = (c.after l).elapsed := by
  induction l generalizing c with
  | nil => exact absurd rfl hne
  | cons x l ih =>
    by_cases hl : l = []
    · subst hl
      exact ⟨_, List.mem_singleton_self _, rfl⟩
    · obtain ⟨o, ho, heq⟩ := ih (c.step x.1 x.2).1 hl
      exact ⟨o, List.mem_cons_of_mem _ ho, heq⟩

/-- The time that several commands lead to is seen after the last of them, if not before. -/
theorem run_shows_iff (c : ManualClock) (hne : l ≠ []) (deadline : Option Instant) :
    (∃ o ∈ c.run l, o.shows c.start deadline = true) ↔
      ∃ d, deadline = some d ∧ d ≤ (c.after l).reading := by
  rw [reading, start_after]
  constructor
  · rintro ⟨o, ho, hs⟩
    cases deadline with
    | none => cases hs
    | some d =>
      have hle : o.elapsed.nanos ≤ (c.after l).elapsed.nanos := run_elapsed_le c l o ho
      exact ⟨d, rfl, Nat.le_trans (of_decide_eq_true hs) (Nat.add_le_add_left hle c.start)⟩
  · rintro ⟨d, rfl, hd⟩
    obtain ⟨o, ho, heq⟩ := exists_run_elapsed c hne
    refine ⟨o, ho, decide_eq_true ?_⟩
    rw [heq]
    exact hd

/-! ## No handle left -/

theorem Effect.handles_nil (e : Effect c command c') (h : c.handles = []) : c'.handles = [] := by
  cases e with
  | hands handles hn ht => exact hn h
  | _ => exact h

/-- Nobody stirs who has seen the time. -/
theorem stirred_nil (h : ∀ p ∈ c.sleepers, p.2.seen = some c.changes) : c.stirred = [] := by
  refine List.filterMap_eq_nil_iff.mpr fun p hp => ?_
  rcases sight_of_seen (h p hp) with hs | hs <;> simp only [stir, hs]

/-- Without a handle nothing has been set. -/
theorem AtRest.stirred_nil_of_handles (h : c.AtRest) (e : Effect c command c')
    (hnil : c'.handles = []) : c'.stirred = [] := by
  cases e with
  | sets t hne ht hle => exact absurd hnil hne
  | sleeps n d hne hs => exact absurd hnil hne
  | hands handles hn ht => exact stirred_nil h.seen

theorem AtRest.run_stirred_nil (h : c.AtRest) (hnow : (c.after l).now?.isSome) :
    ∀ o ∈ c.run l, o.handles = [] → o.stirred = [] := by
  induction l generalizing c with
  | nil => exact nofun
  | cons x l ih =>
    intro o ho hnil
    rcases List.mem_cons.mp ho with rfl | ho
    · exact h.stirred_nil_of_handles (command_effect c x.1 x.2) hnil
    · exact ih (h.alert_command hnow).settled hnow o ho hnil

theorem run_handles_nil (h : c.handles = []) : ∀ o ∈ c.run l, o.handles = [] := by
  induction l generalizing c with
  | nil => exact nofun
  | cons x l ih =>
    have h' := (command_effect c x.1 x.2).handles_nil h
    intro o ho
    rcases List.mem_cons.mp ho with rfl | ho
    · exact h'
    · exact ih (c := (c.step x.1 x.2).1) h' o ho

/-! ## Any handle -/

theorem command_congr {a b : String} (ha : a ∈ c.handles) (hb : b ∈ c.handles)
    (hc : command ≠ .release) : c.command a command = c.command b command := by
  rw [ManualClock.command, ManualClock.command, if_pos ha, if_pos hb]
  cases command with
  | release => exact absurd rfl hc
  | _ => rfl

/-- Looking once more changes nothing, as long as there is a handle. -/
theorem AtRest.settled_eq (h : c.AtRest) (hne : c.handles ≠ []) : c.settled = c := by
  have hkeep : ∀ p ∈ c.sleepers, c.keep p = some p := by
    rintro ⟨n, s⟩ hp
    have hseen := h.seen _ hp
    have hw := (sight_of_seen hseen).resolve_right fun hs => hne (handles_of_stranded hs)
    simp only [keep, hw, ← hseen]
  have hsleepers : c.sleepers.filterMap c.keep = c.sleepers :=
    (List.filterMap_congr hkeep).trans List.filterMap_some
  rw [settled, hsleepers]

/-- A sum that is too long breaks off, and leaves the clock as it was. -/
theorem AtRest.step_overflow (h : c.AtRest) (hh : handle ∈ c.handles) {d : Duration}
    (hd : Duration.limit ≤ c.elapsed.nanos + d.nanos) :
    c.step handle (.advance d) =
      (c, ⟨some .durationOverflow, [], c.handles, c.elapsed, c.now?⟩) := by
  have hadd : c.elapsed.add? d = none := dif_neg (Nat.not_lt.mpr hd)
  have hcommand : c.command handle (.advance d) = (c, some .durationOverflow) := by
    simp only [ManualClock.command, if_pos hh, perform, hadd]
  simp only [step, hcommand, h.settled_eq (List.ne_nil_of_mem hh), stirred_nil h.seen]

/-- Whether a clock is what commands made of a new one. -/
def Used (c : ManualClock) : Prop := ∃ start first l, c = (fresh start first).after l

theorem fresh_atRest (start : Instant) (handle : String) : (fresh start handle).AtRest :=
  ⟨.nil, nofun, nofun⟩

theorem Used.atRest (hu : c.Used) (hnow : c.now?.isSome) : c.AtRest := by
  obtain ⟨start, first, l, rfl⟩ := hu
  exact (fresh_atRest start first).after hnow

/-- A clock whose time can be represented keeps time. It counts what the commands on its handles
say, which never takes it back, and it does not matter which of the handles they are on; a sum that
is too long breaks off and changes nothing. A sleeper wakes once, in the first command after which
its time has come, however the clock got there, and not at all if it does not come; and as soon as
there is no handle left nobody wakes any more. -/
theorem Used.moves_and_wakes (hu : c.Used) (hnow : (c.after l).now?.isSome) :
    (c.elapsed ≤ (c.after l).elapsed ∧
      (c.after l).elapsed.nanos = (c.heardAll l).foldl Command.elapse c.elapsed.nanos) ∧
    (∀ a ∈ c.handles, (c.step a .read).2.elapsed = c.elapsed ∧
      (∀ b ∈ c.handles, ∀ command, command ≠ .release → c.step a command = c.step b command) ∧
      ∀ d : Duration, Duration.limit ≤ c.elapsed.nanos + d.nanos →
        c.step a (.advance d) = (c, ⟨some .durationOverflow, [], c.handles, c.elapsed, c.now?⟩)) ∧
    (∀ a ∈ c.handles, ∀ command l' name deadline, l = (a, command) :: l' →
      command.sleeper? c = some (name, deadline) → (∀ x ∈ l', x.2.name? ≠ some name) →
      WakesFirst c.start name deadline (c.run l) ∧
      ∀ broken, (∃ o ∈ c.run l, (name, broken) ∈ o.stirred) ↔
        broken = false ∧ ∃ d, deadline = some d ∧ d ≤ (c.after l).reading) ∧
    (∀ o ∈ c.run l, o.handles = [] → o.stirred = []) ∧
    (c.handles = [] → ∀ o ∈ c.run l, o.handles = []) := by
  have h := hu.atRest (now?_of_after hnow)
  refine ⟨⟨elapsed_le_after c l, elapsed_after c l⟩, fun a ha => ⟨?_, ?_, ?_⟩, ?_,
    h.run_stirred_nil hnow, run_handles_nil⟩
  · rw [step, ManualClock.command, if_pos ha]
    rfl
  · intro b hb command hc
    rw [step, command_congr ha hb hc, step]
  · exact fun d hd => h.step_overflow ha hd
  · rintro a ha command l' name deadline rfl hs hl
    have hw := h.wakesFirst_sleeper ha hs hl hnow
    exact ⟨hw, fun broken => by rw [hw.stirred_iff, run_shows_iff c (List.cons_ne_nil _ _)]⟩

/-- A clock with two handles, a while after it was made. -/
def shared : ManualClock :=
  (fresh 5000000 "a").after [("a", .share "b"), ("b", .advanceMillis 3)]

/-- A sleeper that waits for a time which the clock just reaches, and the end of the clock. -/
def night : List (String × Command) :=
  [("a", .sleep "s" (.ofMillis 4)), ("b", .setElapsed (.ofMillis 2)),
    ("b", .setElapsed (.ofMillis 7)), ("a", .release), ("b", .release)]

theorem moves_and_wakes_shared :
    (shared.Used ∧ (shared.after night).now?.isSome) ∧
    (shared.after night).elapsed.nanos = 7000000 ∧
    WakesFirst 5000000 "s" (some 12000000) (shared.run night) ∧
    (shared.run night).map (·.stirred) = [[], [], [("s", false)], [], []] := by
  have hu : shared.Used := ⟨5000000, "a", _, rfl⟩
  have hnow : (shared.after night).now?.isSome := by decide
  obtain ⟨⟨-, helapsed⟩, -, hwakes, -⟩ := hu.moves_and_wakes hnow
  refine ⟨⟨hu, hnow⟩, helapsed.trans (by decide), ?_, by decide⟩
  exact (hwakes "a" (by decide) _ _ "s" (some 12000000) rfl (by decide) (by decide)).1

end ManualClock

end TimedTasks
