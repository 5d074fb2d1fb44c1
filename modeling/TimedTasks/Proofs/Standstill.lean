import Mathlib.Data.List.Perm.Subperm
import TimedTasks.Proofs.Repose
/-!
A state in which no task is ready is always reached while the clock stands still. The turn of a
waiter or of a watcher lowers the burden as that of a child does, so no more turns are taken than
the burden tells; and the turns that are allowed when turns are taken until no task is ready are
never fewer.
-/

namespace TimedTasks

open World

variable {V : Type} {f : Focus} {w w' : World V} {j : Nat} {x : Waiter V}

namespace World

/-! ## The answers of waiters -/

section Answers

variable {on : Awaited} {deadline : Option Instant}

theorem finishWaiter_toils (name : String) (a : Answer V) :
    Toils 0 (.turn (.waiter j)) w (.caller none) (w.finishWaiter j name a) := by
  refine .alone (l := []) (finishWaiter_leads name a).ops rfl rfl rfl
    (fun _ _ _ hc => ⟨hc, rfl⟩) (fun k y hk hy => ?_) (fun _ _ => Nat.le_refl _) (.refl _)
    (Nat.le_refl 0)
  have hne : j ≠ k := fun h => hk (h ▸ rfl)
  exact (List.getElem?_modify_ne _ _ hne).trans hy

theorem nameBatch_sameWork (w : World V) (name : String) (n : Nat) (cells : List Nat) :
    SameWork w (w.nameBatch name n cells) := by
  induction cells generalizing w n with
  | nil => exact .refl w
  | cons c cells ih => exact (nameFuture_sameWork w _ _).trans (ih _ _)

theorem answerAll_toils (name : String) {cells : List Nat}
    (hc : ∀ c ∈ cells, c < w.cells.length) :
    Toils 0 (.turn (.waiter j)) w (.caller none) (w.answerAll j name cells) :=
  (Toils.same (nameBatch_leads name 0 hc).ops (nameBatch_sameWork w name 0 cells)).trans
    (finishWaiter_toils _ _)

/-- A waiter that is done has nothing to do any more, and gives nobody anything to do. -/
theorem conclude_toils (inTime : Bool) (hq : x.request.Suits on)
    (hb : ∀ b, on = .batch b → b < w.batches.length) :
    Toils 0 (.turn (.waiter j)) w (.caller none) (w.conclude j x on inTime) := by
  have batch : ∀ {b}, (∀ b', Awaited.batch b = .batch b' → b' < w.batches.length) →
      ∃ batch, w.batches[b]? = some batch := fun hb =>
    ⟨_, List.getElem?_eq_getElem (hb _ rfl)⟩
  have cancels : ∀ cells : List Nat, Toils 0 (.turn (.waiter j)) w (.turn (.waiter j))
      (w.cancelAll cells).1 := fun cells =>
    .same (cancelAll_leads cells).ops (cancelAll_sameWork w cells)
  unfold conclude
  cases hreq : x.request with
  | get c bound =>
    rw [hreq] at hq
    obtain rfl : on = .cell c := hq
    dsimp only
    split <;> exact finishWaiter_toils _ _
  | termination e bound =>
    rw [hreq] at hq
    obtain rfl : on = .termination e := hq
    exact finishWaiter_toils _ _
  | invokeAll e bodies bound =>
    rw [hreq] at hq
    obtain ⟨b, rfl⟩ := hq
    obtain ⟨batch, hbatch⟩ := batch hb
    dsimp only
    rw [hbatch]
    apply Toils.known
    intro hr
    have hcells := batch_cell_lt hr hbatch
    dsimp only
    split
    · exact answerAll_toils _ hcells
    · refine (cancels batch.cells).trans ((Toils.same (report_leads _).ops
        (report_sameWork _ _)).trans (answerAll_toils _ ?_))
      intro c hc
      exact Nat.lt_of_lt_of_le (hcells c hc) (cancelAll_later w _).cells.length_le
  | invokeAny e bodies bound =>
    rw [hreq] at hq
    obtain ⟨b, rfl⟩ := hq
    obtain ⟨batch, hbatch⟩ := batch hb
    dsimp only
    rw [hbatch]
    refine (cancels batch.cells).trans (n := 0) ?_
    dsimp only
    split
    · exact (Toils.same (report_leads _).ops (report_sameWork _ _)).trans (finishWaiter_toils _ _)
    · exact finishWaiter_toils _ _

/-- A waiter that waits has one turn before it. -/
theorem wait_toils (hx : w.waiters[j]? = some x) (he : x.Looks on deadline)
    (hq : x.request.Suits on) (hb : ∀ b, on = .batch b → b < w.batches.length)
    (hc : w.hasCome on = false) (hd : ∀ t, deadline = some t → w.now < t) :
    Toils 1 (.turn (.waiter j)) w (.caller none)
      ((w.modifyWaiter j fun y => { y with stage := .waiting on deadline }).suspend
        (.waiter j)) := by
  refine .alone (l := [.waiter j]) (fun _ => (Op.wait hx he hq hb hc hd).ops) rfl rfl rfl
    (fun _ _ _ hc => ⟨hc, rfl⟩) (fun k y hk hy => ?_) (fun _ _ => Nat.le_refl _)
    (suspend_queue _ _) (Nat.le_of_eq ?_)
  · have hne : j ≠ k := fun h => hk (h ▸ rfl)
    exact (List.getElem?_modify_ne _ _ hne).trans hy
  · show ((w.waiters.modify j _)[j]?.map Waiter.burden).getD 0 + 0 = 1
    rw [List.getElem?_modify_eq, hx]
    rfl

theorem checkWaiter_toils (hx : w.waiters[j]? = some x) (he : x.Looks on deadline)
    (hq : x.request.Suits on) (hb : ∀ b, on = .batch b → b < w.batches.length) :
    Toils 1 (.turn (.waiter j)) w (.caller none) (w.checkWaiter j x on deadline) := by
  unfold checkWaiter
  split
  · exact (conclude_toils true hq hb).mono (Nat.zero_le _)
  · rename_i hc
    have hc := Bool.not_eq_true _ ▸ hc
    split
    · rename_i t
      split
      · exact (conclude_toils false hq hb).mono (Nat.zero_le _)
      · rename_i ht
        refine wait_toils hx he hq hb hc fun t' ht' => ?_
        obtain rfl := Option.some.inj ht'
        exact Nat.lt_of_not_le ht
    · exact wait_toils hx he hq hb hc (by simp)

/-- A waiter whose wait is over does not wait again. -/
theorem checkWaiter_toils_of_awake (hq : x.request.Suits on)
    (hb : ∀ b, on = .batch b → b < w.batches.length)
    (hawake : ¬ (w.hasCome on = false ∧ ∀ t, deadline = some t → w.now < t)) :
    Toils 0 (.turn (.waiter j)) w (.caller none) (w.checkWaiter j x on deadline) := by
  unfold checkWaiter
  split
  · exact conclude_toils true hq hb
  · rename_i hc
    have hc := Bool.not_eq_true _ ▸ hc
    split
    · rename_i t
      split
      · exact conclude_toils false hq hb
      · rename_i ht
        refine absurd ⟨hc, fun t' ht' => ?_⟩ hawake
        obtain rfl := Option.some.inj ht'
        exact Nat.lt_of_not_le ht
    · exact absurd ⟨hc, by simp⟩ hawake

end Answers

/-! ## Batches -/

section Handing

variable {e : Nat} {bodies : List (Body V)} {bound : Option Duration}

/-- A batch that comes in has two turns for each of its children before it, and their bodies. -/
theorem InLine.addBatchChildren_total (h : w.InLine) (e : Nat) (name : String)
    {work : Body V → Work V} (hw : ∀ body, (work body).load 2 = body.load) (n : Nat)
    (bodies : List (Body V)) :
    total (w.addBatchChildren e name work n bodies).1.burdenOf
        (w.addBatchChildren e name work n bodies).1.queue ≤
      total w.burdenOf w.queue + (2 * bodies.length + Body.loads bodies) := by
  induction bodies generalizing w n with
  | nil => exact Nat.le_refl _
  | cons body bodies ih =>
    have hone := h.addChild_total e (name ++ "." ++ toString n) (work body) none
    have hrest := ih (h.addChild e (name ++ "." ++ toString n) (work body) none) (n + 1)
    rw [hw body] at hone
    have hlen : (body :: bodies).length = bodies.length + 1 := List.length_cons
    have hloads : Body.loads (body :: bodies) = body.load + Body.loads bodies := rfl
    unfold addBatchChildren
    dsimp only
    omega

theorem openBatch_toils (name : String) {work : Nat → Body V → Work V}
    (hrun : w.isRunning e = true) (hw : work = .oneOfAll ∨ work = .oneOfAny) (hn : bodies ≠ []) :
    Toils (2 * bodies.length + Body.loads bodies) (.turn (.waiter j)) w (.turn (.waiter j))
      (w.openBatch e name work bodies) := by
  have hload : ∀ b body, (work b body).load 2 = body.load := by
    rcases hw with rfl | rfl <;> exact fun _ _ => rfl
  have hkind : ∀ b body, (work b body).kind = .immediate := by
    rcases hw with rfl | rfl <;> exact fun _ _ => rfl
  obtain ⟨hcells, hexecutors⟩ := addBatchChildren_induct
    (P := fun w' => w.cells <+: w'.cells ∧ w'.executors.length = w.executors.length)
    ⟨List.prefix_refl _, rfl⟩ e name (work w.batches.length) 0 bodies fun u name body h =>
      ⟨h.1.trans (List.prefix_append ..), (List.length_modify ..).trans h.2⟩
  obtain ⟨new, hchildren, -, hworks, -⟩ :=
    addBatchChildren_children w e name (work w.batches.length) 0 bodies
  have hframe := openBatch_frame w e name work bodies
  refine .of_total (k := 0) (fun _ => (Op.openBatch name hrun hw hn).ops) hframe.2.2.2.1 hexecutors
    (fun i child hi hc => .of_kind ?_) (fun c hc => Nat.le_of_eq ?_) fun hin => ?_
  · -- The children of a batch run at once.
    have hc : (w.children ++ new)[i]? = some child := hchildren ▸ hc
    rw [List.getElem?_append_right hi] at hc
    have hmem : child.work ∈ new.map (·.work) := List.mem_map_of_mem (List.mem_of_getElem? hc)
    rw [hworks] at hmem
    obtain ⟨body, -, hbody⟩ := List.mem_map.mp hmem
    simp [← hbody, hkind]
  · exact startsLeft_eq hframe.2.2.2.1 (markOf?_of_grown hcells hc)
  · exact hin.addBatchChildren_total e name (hload _) 0 bodies

theorem startBatch_toils {work : Nat → Body V → Work V} (bound : Option Duration)
    (hx : w.waiters[j]? = some x) (he : x.stage = .created)
    (hq : ∀ b, x.request.Suits (.batch b)) (hrun : w.isRunning e = true)
    (hw : work = .oneOfAll ∨ work = .oneOfAny) (hn : bodies ≠ []) :
    Toils (2 * bodies.length + Body.loads bodies + 1) (.turn (.waiter j)) w (.caller none)
      (w.startBatch j x e work bodies bound) := by
  refine (openBatch_toils x.name hrun hw hn).trans (checkWaiter_toils ?_ (.inl he) (hq _) ?_)
  · rw [(openBatch_frame w e x.name work bodies).1]
    exact hx
  · intro b hb
    obtain rfl := Awaited.batch.inj hb
    rw [openBatch_batches, List.length_append]
    exact Nat.lt_succ_self _

theorem addCancelledCells_sameWork (w : World V) (count : Nat) :
    SameWork w (w.addCancelledCells count).1 := by
  rw [addCancelledCells_cells]
  refine .of_perm rfl rfl rfl rfl (fun c => ?_) (.refl _)
  rw [markOf?, markOf?]
  by_cases hc : c < w.cells.length
  · rw [List.getElem?_append_left hc]
  · rw [List.getElem?_append_right (Nat.le_of_not_lt hc), List.getElem?_replicate,
      List.getElem?_eq_none (Nat.le_of_not_lt hc)]
    split <;> rfl

theorem rejected_toils (name : String) (a : Answer V) :
    Toils 0 (.turn (.waiter j)) w (.caller none) ((w.reject e).1.finishWaiter j name a) :=
  (Toils.same (fun _ => (Op.refuse e).ops) (reject_sameWork w e)).trans (finishWaiter_toils _ _)

theorem beginAll_toils (hx : w.waiters[j]? = some x) (he : x.stage = .created)
    (hq : x.request = .invokeAll e bodies bound) :
    Toils (2 * bodies.length + Body.loads bodies + 1) (.turn (.waiter j)) w (.caller none)
      (w.beginAll j x e bodies bound) := by
  unfold beginAll
  dsimp only
  refine ((Toils.same (report_leads (.invokeAllCalled (w.nameOf e) bodies.length bound)).ops
    (report_sameWork _ _)).trans (n := 2 * bodies.length + Body.loads bodies + 1) ?_).mono
    (Nat.le_of_eq (Nat.zero_add _))
  split
  · exact (rejected_toils _ _).mono (Nat.zero_le _)
  · rename_i hrun
    split
    · refine ((Toils.same (report_leads .cancelledUpFront).ops (report_sameWork _ _)).trans
        ((Toils.same (fun _ => (Op.grant bodies.length).ops)
          (addCancelledCells_sameWork _ bodies.length)).trans
          (answerAll_toils x.name (addCancelledCells_lt _ _)))).mono (Nat.zero_le _)
    · split
      · exact (answerAll_toils _ (by simp)).mono (Nat.zero_le _)
      · rename_i hn
        refine startBatch_toils bound hx he (fun b => ?_) (by simpa using hrun) (.inl rfl)
          (by simpa using hn)
        rw [hq]
        exact ⟨b, rfl⟩

theorem beginAny_toils (hx : w.waiters[j]? = some x) (he : x.stage = .created)
    (hq : x.request = .invokeAny e bodies bound) :
    Toils (2 * bodies.length + Body.loads bodies + 1) (.turn (.waiter j)) w (.caller none)
      (w.beginAny j x e bodies bound) := by
  unfold beginAny
  dsimp only
  refine ((Toils.same (report_leads (.invokeAnyCalled (w.nameOf e) bodies.length bound)).ops
    (report_sameWork _ _)).trans (n := 2 * bodies.length + Body.loads bodies + 1) ?_).mono
    (Nat.le_of_eq (Nat.zero_add _))
  split
  · exact (finishWaiter_toils _ _).mono (Nat.zero_le _)
  · rename_i hn
    split
    · exact (rejected_toils _ _).mono (Nat.zero_le _)
    · rename_i hrun
      split
      · exact (finishWaiter_toils _ _).mono (Nat.zero_le _)
      · refine startBatch_toils bound hx he (fun b => ?_) (by simpa using hrun) (.inr rfl)
          (by simpa using hn)
        rw [hq]
        exact ⟨b, rfl⟩

end Handing

/-! ## The turns of waiters and watchers -/

/-- A waiter that has a turn, and is not to wait any longer, has less to do after it. -/
theorem waiterTurn_toils (hr : Reached (.turn (.waiter j)) w) (hawake : ¬ w.Sleeps (.waiter j)) :
    ∃ n < w.burdenOf (.waiter j),
      Toils n (.turn (.waiter j)) w (.caller none) (w.waiterTurn j) := by
  obtain ⟨x, hx⟩ : ∃ x, w.waiters[j]? = some x := by
    rcases hr.placed.known (.waiter j) List.mem_cons_self with hl | ⟨k, hk, he⟩
    · obtain ⟨x, hx, -⟩ := live_waiter.mp hl
      exact ⟨x, hx⟩
    · obtain rfl := TaskRef.waiter.inj he
      exact ⟨_, List.getElem?_eq_getElem hk⟩
  have hburden : w.burdenOf (.waiter j) = x.burden := by
    rw [burdenOf, hx]
    rfl
  rw [hburden]
  unfold waiterTurn
  rw [hx]
  dsimp only
  cases hst : x.stage with
  | created =>
    have hload : x.burden = x.load := by rw [Waiter.burden, hst]
    rw [hload, Waiter.load, hst]
    dsimp only
    unfold beginWaiter
    cases hq : x.request with
    | get c bound =>
      exact ⟨1, Nat.one_lt_two, checkWaiter_toils hx (.inl hst) (by rw [hq]; rfl) (by simp)⟩
    | termination e bound =>
      refine ⟨0 + 1, Nat.one_lt_two, (Toils.same
        (report_leads (.awaitTerminationCalled (w.nameOf e) bound)).ops (report_sameWork _ _)).trans
        (checkWaiter_toils hx (.inl hst) (by rw [hq]; rfl) (by simp))⟩
    | invokeAll e bodies bound =>
      refine ⟨_, ?_, beginAll_toils hx hst hq⟩
      dsimp only
      omega
    | invokeAny e bodies bound =>
      refine ⟨_, ?_, beginAny_toils hx hst hq⟩
      dsimp only
      omega
  | waiting on deadline =>
    have hseat := hr.sound.seated hx
    refine ⟨0, x.burden_pos, checkWaiter_toils_of_awake (hseat.suits hst) ?_ fun h => ?_⟩
    · rintro b rfl
      exact hseat.batch_lt hst
    · exact hawake ⟨x, on, deadline, hx, hst, h⟩
  | ended =>
    have hover : w.IsOver (.waiter j) := fun y hy => by
      obtain rfl := Option.some.inj (hx.symm.trans hy)
      exact hst
    exact ⟨0, x.burden_pos, .same (fun _ => (Op.leave hover).ops) (.refl w)⟩

/-- The watcher of an executor has less to do after its turn. -/
theorem watcherTurn_burden {e : Nat} (hr : Reached (.turn (.watcher e)) w) :
    (w.watcherTurn e).burden < w.burden := by
  have hlive := (hr.placed.known (.watcher e) List.mem_cons_self).resolve_right (by simp)
  obtain ⟨x, hx, hclosed, hstate⟩ := live_watcher.mp hlive
  have hlt : e < w.executors.length := (List.getElem?_eq_some_iff.mp hx).1
  have hs : w.stateOf? e = some .draining := by rw [stateOf?, hx, ← hstate]; rfl
  -- Nobody else has more to do, so it is enough that this watcher has less.
  have lighter : ∀ {w' : World V}, SameWork w w' → Op (.turn (.watcher e)) w (.caller none) w' →
      w'.watchesLeft e < w.watchesLeft e → w'.burden < w.burden := by
    intro w' hsame op hless
    have htasks := hsame.total_burdenOf (.of_reached hr)
    have hwatches := total_lt (l := List.range w.executors.length)
      (fun k hk => op.watchesLeft_le hr (List.mem_range.mp hk)) (List.mem_range.mpr hlt) hless
    rw [burden, burden, htasks, hsame.executors]
    exact Nat.add_lt_add_left hwatches _
  unfold watcherTurn
  split
  · rename_i hd
    refine lighter (markTerminated_sameWork w e) (.terminate hd) ?_
    have hs' : (w.markTerminated e).stateOf? e = some .terminated := by
      show (List.modify _ e _)[e]?.map _ = _
      rw [List.getElem?_modify_eq, hx]
      rfl
    rw [watchesLeft, watchesLeft, hs, hs']
    dsimp only
    rw [if_pos (.inl hd)]
    exact Nat.one_pos
  · rename_i hd
    have hsame : SameWork w (w.suspend (.watcher e)) :=
      ⟨rfl, rfl, rfl, rfl, fun _ => rfl, fun load hload => by
        rw [total_perm (suspend_queue w (.watcher e)), total, hload, Nat.zero_add]⟩
    refine lighter hsame (.linger (by simpa using hd)) ?_
    have hnot : .watcher e ∉ w.waiting := fun hm =>
      hr.placed.notMem rfl (List.mem_append_right _ hm)
    rw [watchesLeft, watchesLeft, hs, show (w.suspend _).stateOf? e = _ from hs]
    dsimp only
    rw [if_pos (.inr (List.mem_append_right _ (List.mem_singleton_self _))),
      if_neg (not_or.mpr ⟨hd, hnot⟩)]
    exact Nat.one_lt_two

/-! ## Turns -/

/-- A turn leaves less to do, and lets no time pass. A child that waits for a time after its turn
waits for one that is yet to come. -/
theorem turn_burden (hr : Reached (.caller none) w) (ht : w.Timed) (hin : w.InTime) {r : TaskRef}
    {rest : List TaskRef} (hready : w.ready = r :: rest) :
    w.turn.burden < w.burden ∧ w.turn.Timed ∧ w.turn.clock = w.clock ∧
      ∀ i, r = .child i → w.turn.Parked i := by
  have hr₁ : Reached (.turn r) { w with ready := rest } := hr.op (.take hready)
  have hburden : w.burden = w.burdenOf r + ({ w with ready := rest } : World V).burden := by
    rw [burden, queue, hready]
    exact Nat.add_assoc ..
  have hturn : w.turn = ({ w with ready := rest } : World V).taskTurn r := by
    rw [turn, hready]
  have hawake := hr.awake r (hready ▸ List.mem_cons_self)
  rw [hturn, hburden]
  cases r with
  | child i =>
    obtain ⟨n, hn, htoils, hparked⟩ := childTurn_toils hr₁ (hawake (by simp)) ht hin
    obtain ⟨-, hclock, htimed, -, hless⟩ := htoils hr₁
    refine ⟨Nat.lt_of_le_of_lt hless ?_, htimed ht, hclock, fun k hk => ?_⟩
    · rw [Nat.add_comm]
      exact Nat.add_lt_add_right hn _
    · obtain rfl := TaskRef.child.inj hk
      exact hparked
  | waiter j =>
    obtain ⟨n, hn, htoils⟩ := waiterTurn_toils hr₁ (hawake (by simp))
    obtain ⟨-, hclock, htimed, -, hless⟩ := htoils hr₁
    refine ⟨Nat.lt_of_le_of_lt hless ?_, htimed ht, hclock, fun k hk => by cases hk⟩
    rw [Nat.add_comm]
    exact Nat.add_lt_add_right hn _
  | watcher e =>
    have hleads : Leads (.turn (.watcher e)) { w with ready := rest } (.caller none)
      (({ w with ready := rest } : World V).watcherTurn e) := watcherTurn_leads
    have hchildren :
        (({ w with ready := rest } : World V).watcherTurn e).children = w.children := by
      unfold watcherTurn
      split <;> rfl
    refine ⟨Nat.lt_of_lt_of_le (watcherTurn_burden hr₁) (Nat.le_add_left ..), ?_,
      (hleads hr₁).clock, fun k hk => by cases hk⟩
    exact (hleads.ops hr₁).timed hr₁ ht fun i child hi hc => by
      refine absurd (List.getElem?_eq_some_iff.mp hc).1 (Nat.not_lt_of_le ?_)
      rw [hchildren]
      exact hi

/-- After as many turns as the burden tells no task is ready. -/
theorem turns_ready (hr : Reached (.caller none) w) (ht : w.Timed) (hin : w.InTime) {n : Nat}
    (hn : w.burden ≤ n) : (w.turns n).ready = [] := by
  induction n generalizing w with
  | zero =>
    cases hready : w.ready with
    | nil => exact hready
    | cons r rest =>
      have hless := (turn_burden hr ht hin hready).1
      omega
  | succ n ih =>
    unfold turns
    cases hready : w.ready with
    | nil => exact hready
    | cons r rest =>
      obtain ⟨hless, htimed, hclock, -⟩ := turn_burden hr ht hin hready
      have hops := turn_leads.ops hr
      exact ih (hr.ops hops) htimed (hin.ops hr hops hclock) (by omega)

/-! ## The turns that are allowed -/

section Sums

variable {α β : Type} {load : α → Nat}

theorem total_map (g : β → α) (l : List β) :
    total load (l.map g) = total (fun b => load (g b)) l := by
  induction l with
  | nil => rfl
  | cons b l ih => exact congrArg (load (g b) + ·) ih

/-- The members of a list, one place after the other. -/
theorem total_range (l : List α) :
    total (fun i => (l[i]?.map load).getD 0) (List.range l.length) = total load l := by
  induction l with
  | nil => rfl
  | cons a l ih =>
    rw [List.length_cons, List.range_succ_eq_map, total, total_map]
    exact congrArg (load a + ·) ih

theorem total_succ (l : List α) : total (fun a => load a + 1) l = total load l + l.length := by
  induction l with
  | nil => rfl
  | cons a l ih =>
    rw [total, total, ih, List.length_cons]
    omega

end Sums

/-- What a task is taken to make ready where the turns that are allowed are added up. -/
def loadOf (w : World V) : TaskRef → Nat
  | .child i => (w.children[i]?.map Child.load).getD 0
  | .waiter j => (w.waiters[j]?.map Waiter.load).getD 0
  | .watcher _ => 0

end World

theorem Stage.turnsLeft_le (s : Stage V) (now : Instant) : s.turnsLeft now ≤ 2 := by
  unfold Stage.turnsLeft
  split
  · exact Nat.le_refl 2
  · split <;> decide
  · split <;> decide
  · exact Nat.le_refl 2
  · exact Nat.le_succ 1
  · exact Nat.le_succ 1
  · exact Nat.zero_le 2

theorem Child.burden_le_load (child : Child V) (now : Instant) {starts : Nat} (hs : starts ≤ 2) :
    child.burden now starts ≤ child.load := by
  have hturns := child.stage.turnsLeft_le now
  have hruns : ∀ runs : List (Body V), starts * Body.loads runs ≤ 2 * Body.loads runs :=
    fun _ => Nat.mul_le_mul_right _ hs
  have hafter : ∀ runs : List (Body V), (starts - 1) * Body.loads runs ≤ 2 * Body.loads runs :=
    fun _ => Nat.mul_le_mul_right _ (Nat.le_trans (Nat.sub_le ..) hs)
  unfold Child.burden Child.load
  cases hst : child.stage with
  | created | scheduled =>
    rw [hst] at hturns
    cases hw : child.work with
    | periodic pace runs =>
      have := hruns runs
      dsimp only [Work.load]
      omega
    | _ => exact Nat.add_le_add_right hturns _
  | suspended on rest =>
    rw [hst] at hturns
    cases hw : child.work with
    | periodic pace runs =>
      have := hafter runs
      dsimp only [Work.loadAfter]
      omega
    | _ =>
      dsimp only [Work.loadAfter]
      omega
  | stranded => exact Nat.le_succ 1
  | ended => exact Nat.le_refl 0

theorem Waiter.burden_le_load (x : Waiter V) : x.burden ≤ x.load + 1 := by
  unfold Waiter.burden
  split
  · exact Nat.le_succ _
  · exact Nat.le_add_left ..
  · exact Nat.le_add_left ..

namespace World

/-- A task that is ready may have been given up, so it may have one turn more. -/
theorem burdenOf_le_loadOf (w : World V) (r : TaskRef) : w.burdenOf r ≤ w.loadOf r + 1 := by
  cases r with
  | child i =>
    rw [burdenOf, loadOf]
    cases w.children[i]? with
    | none => exact Nat.zero_le _
    | some child => exact Nat.le_succ_of_le (child.burden_le_load w.now (w.startsLeft_le _))
  | waiter j =>
    rw [burdenOf, loadOf]
    cases w.waiters[j]? with
    | none => exact Nat.zero_le _
    | some x => exact x.burden_le_load
  | watcher e => exact Nat.zero_le _

theorem burdenOf_le_loadOf_of_sleeps {r : TaskRef} (hs : w.Sleeps r) :
    w.burdenOf r ≤ w.loadOf r := by
  cases r with
  | child i =>
    obtain ⟨child, hc, -⟩ := hs
    rw [burdenOf, loadOf, hc]
    exact child.burden_le_load w.now (w.startsLeft_le _)
  | waiter j =>
    obtain ⟨x, on, deadline, hx, hst, -⟩ := hs
    rw [burdenOf, loadOf, hx]
    show x.burden ≤ x.load
    rw [Waiter.burden, Waiter.load, hst]
    exact Nat.le_succ 1
  | watcher e => exact Nat.le_refl 0

/-- Every task is in line once at most. -/
theorem total_loadOf_queue (hr : Reached (.caller none) w) :
    total w.loadOf w.queue ≤ total Child.load w.children + total Waiter.load w.waiters := by
  have hknown : w.queue ⊆ (List.range w.children.length).map .child ++
      ((List.range w.waiters.length).map .waiter ++
        (List.range w.executors.length).map .watcher) := by
    intro r hm
    have place : ∀ {α : Type} {l : List α} {i : Nat} {a : α}, l[i]? = some a →
        i ∈ List.range l.length := fun h =>
      List.mem_range.mpr (List.getElem?_eq_some_iff.mp h).1
    have hwaiter : ∀ k < w.waiters.length, TaskRef.waiter k ∈
        (List.range w.waiters.length).map TaskRef.waiter := fun k hk =>
      List.mem_map_of_mem (List.mem_range.mpr hk)
    rcases hr.placed.known r hm with hl | ⟨k, hk, rfl⟩
    · cases r with
      | child i =>
        obtain ⟨child, hc, -⟩ := live_child.mp hl
        exact List.mem_append_left _ (List.mem_map_of_mem (place hc))
      | waiter j =>
        obtain ⟨x, hx, -⟩ := live_waiter.mp hl
        exact List.mem_append_right _ (List.mem_append_left _ (List.mem_map_of_mem (place hx)))
      | watcher e =>
        obtain ⟨x, hx, -⟩ := live_watcher.mp hl
        exact List.mem_append_right _ (List.mem_append_right _ (List.mem_map_of_mem (place hx)))
    · exact List.mem_append_right _ (List.mem_append_left _ (hwaiter k hk))
  obtain ⟨l, hperm, hsub⟩ := List.subperm_of_subset hr.placed.nodup hknown
  have hwatchers : total w.loadOf ((List.range w.executors.length).map .watcher) = 0 := by
    rw [total_map]
    generalize List.range w.executors.length = es
    induction es with
    | nil => rfl
    | cons e es ih => exact (Nat.zero_add _).trans ih
  calc total w.loadOf w.queue
      = total w.loadOf l := (total_perm hperm).symm
    _ ≤ _ := total_sublist hsub
    _ = total Child.load w.children + total Waiter.load w.waiters := by
      rw [total_append, total_append, hwatchers, total_map, total_map]
      exact congrArg₂ (· + ·) (total_range w.children) (total_range w.waiters)

/-- The burden of a state is no more than the turns that are allowed. -/
theorem burden_le_workload (hr : Reached (.caller none) w) : w.burden ≤ w.workload := by
  have hready : total w.burdenOf w.ready ≤ total w.loadOf w.ready + w.ready.length := by
    rw [← total_succ]
    exact total_le fun r _ => w.burdenOf_le_loadOf r
  have hwaiting : total w.burdenOf w.waiting ≤ total w.loadOf w.waiting :=
    total_le fun r hm => burdenOf_le_loadOf_of_sleeps (hr.asleep r hm)
  have hqueue := total_loadOf_queue hr
  have hwatchers : total w.watchesLeft (List.range w.executors.length) ≤
      w.executors.length * 2 := by
    have h := total_le_length (l := List.range w.executors.length) fun e _ => w.watchesLeft_le e
    rwa [List.length_range] at h
  rw [queue, total_append] at hqueue
  rw [burden, queue, total_append, workload]
  omega

end World

/-! ## Runs of calls and turns -/

/-- The states of a run between its turns: someone outside makes a call, the task that is ready
first takes its turn, or the clock moves, which may be reported. -/
inductive Played : World V → Prop
  | start (jumps : Bool) : Played (World.start jumps)
  | call {w : World V} (h : Played w) (c : Call V) : Played (w.perform c).1
  | turn {w : World V} (h : Played w) : Played w.turn
  | move {w : World V} (h : Played w) {t : Duration} (ht : w.clock.elapsed ≤ t) :
    Played (w.moveTo t)
  | report {w : World V} (h : Played w) (n : Notice) : Played (w.report n)

namespace World

/-- Every executor was made before, and the clock was not ahead of what it reads. -/
theorem InTime.before (h : w'.InTime) (hl : Later w w') : w.InTime := by
  intro x hx
  obtain ⟨e, he⟩ := List.mem_iff_getElem?.mp hx
  obtain ⟨y, hy, hlater⟩ := hl.executors e x he
  have hin := h y (List.mem_of_getElem? hy)
  rw [hlater.origin] at hin
  exact Nat.lt_of_le_of_lt hl.clock hin

end World

namespace Played

theorem reached (h : Played w) : Reached (.caller none) w := by
  induction h with
  | start jumps => exact .start jumps
  | call h c ih => exact (perform_leads c).reached ih
  | turn h ih => exact turn_leads.reached ih
  | move h ht ih => exact ih.op (.clock ht)
  | report h n ih => exact (report_leads n).reached ih

/-- Periodic tasks are handed in with an interval and a due time, and their due times are set from
their marks. -/
theorem timed (h : Played w) (hin : w.InTime) : w.Timed := by
  induction h with
  | start jumps => exact fun i child hc => by cases hc
  | @call w h c ih =>
    have hin := hin.before ((perform_leads c).ops h.reached).later
    exact (perform_toils c h.reached).timed (ih hin)
  | @turn w h ih =>
    have hin := hin.before (turn_leads.ops h.reached).later
    cases hready : w.ready with
    | nil =>
      rw [World.turn, hready]
      exact ih hin
    | cons r rest => exact (turn_burden h.reached (ih hin) hin hready).2.1
  | @move w h t ht ih => exact ih (hin.before (Op.clock ht).later)
  | @report w h n ih => exact ih hin

theorem turns (h : Played w) (n : Nat) : Played (w.turns n) := by
  induction n generalizing w with
  | zero => exact h
  | succ n ih =>
    unfold World.turns
    split
    · exact h
    · exact ih h.turn

theorem quiesce (h : Played w) : Played w.quiesce := h.turns _

theorem passTo (h : Played w) {target : Duration} (ht : w.clock.elapsed ≤ target) (n : Nat) :
    Played (w.passTo target n) := by
  induction n generalizing w with
  | zero => exact (h.move ht).quiesce
  | succ n ih =>
    unfold World.passTo
    split
    · rename_i t hstop
      obtain ⟨hnow, hle⟩ := nextStop?_bounds hstop
      refine ih (h.move hnow).quiesce ?_
      rw [(quiesce_leads (h.move hnow).reached).clock]
      exact hle
    · exact (h.move ht).quiesce

theorem goTo (h : Played w) {target : Duration} (ht : w.clock.elapsed ≤ target) :
    Played (w.goTo target) := by
  unfold World.goTo
  split
  · exact (h.move ht).quiesce
  · exact h.passTo ht _

theorem take (h : Played w) (s : ScenarioStep V) : Played (w.take s).1 := by
  cases s with
  | call c => exact h.call c
  | settle => exact h.quiesce
  | advance d =>
    show Played (w.advance d).1
    unfold World.advance
    dsimp only
    split
    · exact h.quiesce
    · rename_i target hadd
      have hle := Duration.le_of_add? hadd
      split
      · exact (h.quiesce.report _).goTo hle
      · exact h.quiesce.goTo hle
  | setElapsed t =>
    show Played (w.setElapsed t)
    unfold World.setElapsed
    dsimp only
    split
    · rename_i hlt
      exact h.quiesce.goTo (Nat.le_of_lt hlt)
    · exact h.quiesce

/-- The states between the steps of a scenario are such states. -/
theorem after (h : Played w) (steps : List (ScenarioStep V)) : Played (w.after steps) := by
  induction steps generalizing w with
  | nil => exact h
  | cons s steps ih => exact ih (h.take s)

/-- While the clock stands still, tasks come to rest, if a mark can still hold how far the clock is
past the time at which each executor was made. In its turn no child runs on and on: a child that
waits for a time after its turn waits for one that is yet to come. -/
theorem comes_to_rest (h : Played w) (hin : w.InTime) :
    w.quiesce.ready = [] ∧ w.quiesce.clock = w.clock ∧
      ∀ n i rest child due, (w.turns n).ready = .child i :: rest →
        (w.turns n).turn.children[i]? = some child → child.stage = .scheduled due →
          w.now < due := by
  have hr := h.reached
  have hquiet := turns_ready hr (h.timed hin) hin (burden_le_workload hr)
  refine ⟨hquiet, (quiesce_leads hr).clock, fun n i rest child due hready hc hst => ?_⟩
  have hturns := turns_leads n hr
  have hnow : (w.turns n).now = w.now := congrArg (·.elapsed.nanos) hturns.clock
  have hin' := hin.ops hr hturns.ops hturns.clock
  obtain ⟨-, -, hclock, hparked⟩ :=
    turn_burden (hturns.reached hr) ((h.turns n).timed hin') hin' hready
  have hdue := hparked i rfl child due hc hst
  have hnow' : (w.turns n).turn.now = (w.turns n).now := congrArg (·.elapsed.nanos) hclock
  rwa [hnow', hnow] at hdue

end Played

/-- A task runs every `17` nanoseconds and hands in another one each time. The clock has just jumped
from its first run to `43`, so it is late for one run and then due for another. -/
def tardyTask : World Nat :=
  ((World.start true).after
    [.call (.create "pool" none none none none),
      .call (.repeating "pool" "tick" (.fixedRate ⟨17, by decide⟩) .zero
        [.steps [.act (.submit "pool" "extra" none (.steps []))]]),
      .settle]).moveTo ⟨43, by decide⟩

theorem comes_to_rest_tardyTask :
    tardyTask.ready = [.child 0] ∧ tardyTask.quiesce.ready = [] ∧
      tardyTask.quiesce.clock = tardyTask.clock ∧
      ∀ child due, tardyTask.turn.children[0]? = some child → child.stage = .scheduled due →
        43 < due := by
  have h : Played tardyTask := ((Played.start true).after _).move (by decide)
  have hin : tardyTask.InTime := show ∀ x ∈ tardyTask.executors,
    tardyTask.now < x.origin + (UInt64.size - 1) by decide
  obtain ⟨hready, hclock, hparked⟩ := Played.comes_to_rest h hin
  exact ⟨rfl, hready, hclock, fun child due => hparked 0 0 [] child due rfl⟩

end TimedTasks
