import TimedTasks.Proofs.Pairing
/-!
What paired states have in common, and the changes that keep them paired: the same change on both
sides to what stands for each other, or a change on one side to what is veiled there.
-/

namespace TimedTasks

variable {V : Type}

/-! ## Names of what is veiled -/

theorem Veil.ref_mono {veil : Veil} {ws ws' : List (Waiter V)} {r : TaskRef}
    (hw : Keeps (fun a b => b.request = a.request) ws ws') (h : veil.ref ws r) :
    veil.ref ws' r := by
  cases r with
  | waiter j =>
    obtain ⟨x, hx, hr⟩ := h
    obtain ⟨x', hx', he⟩ := hw j x hx
    exact ⟨x', hx', he ▸ hr⟩
  | _ => exact h

theorem Veil.who_mono {veil : Veil} {cs cs' : List (Child V)} {ws ws' : List (Waiter V)}
    {name : String} (hc : Keeps (fun a b => b.name = a.name) cs cs')
    (hw : Keeps (fun a b => b.name = a.name ∧ b.request = a.request) ws ws')
    (h : veil.who cs ws name) : veil.who cs' ws' name := by
  rcases h with ⟨i, child, hv, hi, rfl⟩ | ⟨j, x, hx, hr, rfl⟩
  · obtain ⟨child', hi', hn⟩ := hc i child hi
    exact .inl ⟨i, child', hv, hi', hn⟩
  · obtain ⟨x', hx', hn, he⟩ := hw j x hx
    exact .inr ⟨j, x', hx', he ▸ hr, hn⟩

theorem Pairing.Refs.mono {σ : Pairing} {ws ws' vs vs' : List (Waiter V)} {r r' : TaskRef}
    (hw : Keeps (fun a b => b.name = a.name ∧ b.request = a.request) ws ws')
    (hv : Keeps (fun a b => b.name = a.name ∧ b.request = a.request) vs vs')
    (h : σ.Refs ws vs r r') : σ.Refs ws' vs' r r' := by
  cases h with
  | child h => exact .child h
  | waiter hx hy h =>
    obtain ⟨x', hx', -, hr⟩ := hw _ _ hx
    obtain ⟨y', hy', -, hr'⟩ := hv _ _ hy
    exact .waiter hx' hy' (by rwa [hr, hr'])
  | watcher h => exact .watcher h

/-- A veiled waiter hands in nothing. -/
theorem Veil.request_plain {veil : Veil} {x : Request V} (h : veil.request x)
    (σ : Pairing) (name : String) : σ.MayBegin x ∧ σ.MayName name x := by
  cases x with
  | get c bound => exact ⟨trivial, trivial⟩
  | termination e bound => exact ⟨trivial, trivial⟩
  | _ => exact h.elim

theorem Pairing.Requests.not_left {σ : Pairing} {x y : Request V} (h : σ.Requests x y) :
    ¬ σ.left.request x := by
  cases h with
  | get h bound => exact fun hl => hl _ h
  | termination h bound => exact h
  | _ => exact id

/-- Whether an executor that may be used is running is the same on both sides. -/
theorem Pairing.Executors.isRunning_eq {σ : Pairing} {e e' : Nat} {x y : Executor}
    (h : σ.Executors e e' x y) (ha : σ.Admits e) :
    ((some x).map (·.state) == some .running) = ((some y).map (·.state) == some .running) := by
  by_cases he : e = σ.executor
  · have hrun := h.running he (ha he)
    rw [Bool.eq_iff_iff]
    simpa using hrun
  · simp [(h.exact he).1]

namespace World

/-- The changes of waiters and children that leave names and requests as they are. -/
structure SameSigns (w w' : World V) : Prop where
  children : Keeps (fun a b => b.name = a.name) w.children w'.children
  waiters : Keeps (fun a b : Waiter V => b.name = a.name ∧ b.request = a.request) w.waiters
    w'.waiters

theorem SameSigns.requests {w w' : World V} (h : SameSigns w w') :
    Keeps (fun a b : Waiter V => b.request = a.request) w.waiters w'.waiters := fun i a ha => by
  obtain ⟨b, hb, hr⟩ := h.waiters i a ha
  exact ⟨b, hb, hr.2⟩

theorem SameSigns.refl (w : World V) : SameSigns w w :=
  ⟨fun _ a ha => ⟨a, ha, rfl⟩, fun _ a ha => ⟨a, ha, rfl, rfl⟩⟩

theorem SameSigns.children_modify {w : World V} {i : Nat} {f : Child V → Child V}
    (hf : ∀ x, (f x).name = x.name) : SameSigns w (w.modifyChild i f) where
  children := Keeps.modify (R := fun a b : Child V => b.name = a.name) (fun _ => rfl)
    fun x _ => hf x
  waiters := (SameSigns.refl w).waiters

theorem SameSigns.of_concat {w w' : World V} {x : Child V}
    (hc : w'.children = w.children ++ [x]) (hw : w'.waiters = w.waiters) : SameSigns w w' where
  children := hc ▸ Keeps.append (R := fun a b : Child V => b.name = a.name) (fun _ => rfl) _ _
  waiters := hw ▸ (SameSigns.refl w).waiters

theorem SameSigns.waiters_modify {w : World V} {j : Nat} {f : Waiter V → Waiter V}
    (hf : ∀ x, (f x).name = x.name ∧ (f x).request = x.request) :
    SameSigns w (w.modifyWaiter j f) where
  children := (SameSigns.refl w).children
  waiters := Keeps.modify (R := fun a b : Waiter V => b.name = a.name ∧ b.request = a.request)
    (fun _ => ⟨rfl, rfl⟩) fun x _ => hf x

namespace Paired

variable {σ : Pairing} {κ : Nat → Nat → Prop} {w v w' v' : World V} {a b c e i j : Nat}

/-! ## What agrees -/

theorem now_eq (h : Paired σ κ w v) : w.now = v.now := congrArg (·.elapsed.nanos) h.clock

theorem cell_eq (h : Paired σ κ w v) (hc : σ.cell a b) : w.cells[a]? = v.cells[b]? := by
  have hr := h.cells.rel hc
  cases ha : w.cells[a]? with
  | none => exact (h.cells.get_none hc ha).symm
  | some cell =>
    obtain ⟨_, hb, rfl⟩ := h.cells.get hc ha
    exact hb.symm

theorem outcomeOf_eq (h : Paired σ κ w v) (hc : σ.cell a b) : w.outcomeOf a = v.outcomeOf b := by
  rw [outcomeOf, outcomeOf, h.cell_eq hc]

theorem isSettled_eq (h : Paired σ κ w v) (hc : σ.cell a b) : w.isSettled a = v.isSettled b := by
  rw [isSettled, isSettled, h.outcomeOf_eq hc]

theorem isSignalled_eq (h : Paired σ κ w v) (hc : σ.cell a b) :
    w.isSignalled a = v.isSignalled b := by
  rw [isSignalled, isSignalled, h.cell_eq hc]

theorem read?_eq (h : Paired σ κ w v) (hc : σ.cell a b) : w.read? a = v.read? b := by
  rw [read?, read?, h.outcomeOf_eq hc]

theorem endingOf_eq (h : Paired σ κ w v) (hc : σ.cell a b) : w.endingOf a = v.endingOf b := by
  rw [endingOf, endingOf, h.outcomeOf_eq hc]

theorem markOf?_eq (h : Paired σ κ w v) (hc : σ.cell a b) : w.markOf? a = v.markOf? b := by
  rw [markOf?, markOf?, h.cell_eq hc]

theorem mayStart_eq (h : Paired σ κ w v) (hc : σ.cell a b) : w.mayStart a = v.mayStart b := by
  rw [mayStart, mayStart, h.cell_eq hc]

theorem cancellable_eq (h : Paired σ κ w v) (hc : σ.cell a b) (interrupt : Bool) :
    w.cancellable a interrupt = v.cancellable b interrupt := by
  rw [cancellable, cancellable, h.cell_eq hc]

/-- Every executor has a counterpart. -/
theorem executor (h : Paired σ κ w v) {x : Executor} (hx : w.executors[e]? = some x) :
    ∃ y, v.executors[e]? = some y ∧ σ.Executors e e x y := h.executors.get rfl hx

theorem nameOf_eq (h : Paired σ κ w v) (e : Nat) : w.nameOf e = v.nameOf e := by
  unfold nameOf
  cases hx : w.executors[e]? with
  | none => rw [h.executors.get_none rfl hx]
  | some x =>
    obtain ⟨y, hy, hxy⟩ := h.executor hx
    simp [hy, hxy.settings]

theorem originOf_eq (h : Paired σ κ w v) (e : Nat) : w.originOf e = v.originOf e := by
  unfold originOf
  cases hx : w.executors[e]? with
  | none => rw [h.executors.get_none rfl hx]
  | some x =>
    obtain ⟨y, hy, hxy⟩ := h.executor hx
    simp [hy, hxy.origin]

theorem isRunning_eq (h : Paired σ κ w v) (ha : σ.Admits e) : w.isRunning e = v.isRunning e := by
  unfold isRunning stateOf?
  cases hx : w.executors[e]? with
  | none => rw [h.executors.get_none rfl hx]
  | some x =>
    obtain ⟨y, hy, hxy⟩ := h.executor hx
    rw [hy]
    exact hxy.isRunning_eq ha

/-- An executor of no veiled task is the same on both sides but for its registry. -/
theorem stateOf?_eq (h : Paired σ κ w v) (he : e ≠ σ.executor) : w.stateOf? e = v.stateOf? e := by
  unfold stateOf?
  cases hx : w.executors[e]? with
  | none => rw [h.executors.get_none rfl hx]
  | some x =>
    obtain ⟨y, hy, hxy⟩ := h.executor hx
    simp [hy, (hxy.exact he).1]

theorem isDrained_eq (h : Paired σ κ w v) (he : e ≠ σ.executor) :
    w.isDrained e = v.isDrained e := by
  unfold isDrained
  cases hx : w.executors[e]? with
  | none => rw [h.executors.get_none rfl hx]
  | some x =>
    obtain ⟨y, hy, hxy⟩ := h.executor hx
    obtain ⟨-, htracked, hclosed, -⟩ := hxy.exact he
    simp [hy, htracked, hclosed]

theorem mayRun_eq (h : Paired σ κ w v) {kind : ChildKind}
    (hk : e = σ.executor → σ.sealed → σ.keeps kind) : w.mayRun e kind = v.mayRun e kind := by
  unfold mayRun
  cases hx : w.executors[e]? with
  | none => rw [h.executors.get_none rfl hx]
  | some x =>
    obtain ⟨y, hy, hxy⟩ := h.executor hx
    rw [hy]
    simp only [hxy.settings]
    by_cases ha : σ.Admits e
    · have hrun : (x.state == .running) = (y.state == .running) := by
        simpa using hxy.isRunning_eq ha
      rw [hrun]
    · simp only [Pairing.Admits, not_forall, not_not] at ha
      obtain ⟨he, hs⟩ := ha
      simp [← hxy.settings, hxy.keeps he kind (hk he hs)]

theorem executor_eq (h : Paired σ κ w v) (name : String) : w.executor name = v.executor name := by
  rw [World.executor, World.executor, h.executorNames]

/-- A child that is not veiled has a counterpart. -/
theorem child (h : Paired σ κ w v) (hi : σ.child i j) {x : Child V} (hx : w.children[i]? = some x) :
    ∃ y, v.children[j]? = some y ∧ σ.Children κ i j x y := h.children.get hi hx

/-! ## Changes -/

/-- A change that leaves the queues, the log and the history alone. -/
theorem of_signs (h : Paired σ κ w v) (hw : SameSigns w w') (hv : SameSigns v v') :
    Weave (σ.left.ref w'.waiters) (σ.right.ref v'.waiters) (σ.Refs w'.waiters v'.waiters)
      w.ready v.ready ∧
    Weave (σ.left.ref w'.waiters) (σ.right.ref v'.waiters) (σ.Refs w'.waiters v'.waiters)
      w.waiting v.waiting ∧
    Weave (fun x => σ.left.who w'.children w'.waiters x.who)
      (fun x => σ.right.who v'.children v'.waiters x.who) σ.Entries (w.log.drop σ.seenLeft)
      (v.log.drop σ.seenRight) := by
  refine ⟨h.ready.mono ?_ ?_ ?_, h.waiting.mono ?_ ?_ ?_, h.log.mono ?_ ?_ fun _ _ => id⟩
  · exact fun r => Veil.ref_mono hw.requests
  · exact fun r => Veil.ref_mono hv.requests
  · exact fun r r' hr => hr.mono hw.waiters hv.waiters
  · exact fun r => Veil.ref_mono hw.requests
  · exact fun r => Veil.ref_mono hv.requests
  · exact fun r r' hr => hr.mono hw.waiters hv.waiters
  · exact fun x => Veil.who_mono hw.children hw.waiters
  · exact fun x => Veil.who_mono hv.children hv.waiters

theorem report_left (h : Paired σ κ w v) (n : Notice) : Paired σ κ (w.report n) v := { h with }

theorem report (h : Paired σ κ w v) (n n' : Notice) : Paired σ κ (w.report n) (v.report n') :=
  { h with }

theorem modifyCell (h : Paired σ κ w v) (hc : σ.cell a b) (f : Cell V → Cell V) :
    Paired σ κ (w.modifyCell a f) (v.modifyCell b f) :=
  { h with cells := h.cells.modify hc fun _ _ _ _ hab => congrArg f hab }

theorem modifyCell_left (h : Paired σ κ w v) (hc : σ.left.cell a) (f : Cell V → Cell V) :
    Paired σ κ (w.modifyCell a f) v :=
  { h with cells := h.cells.modify_hidden hc f }

theorem modifyChild (h : Paired σ κ w v) (hi : σ.child i j) {f g : Child V → Child V}
    (hf : ∀ x, (f x).name = x.name) (hg : ∀ x, (g x).name = x.name)
    (hfg : ∀ x y, σ.Children κ i j x y → σ.Children κ i j (f x) (g y)) :
    Paired σ κ (w.modifyChild i f) (v.modifyChild j g) := by
  have hw : SameSigns w (w.modifyChild i f) := .children_modify hf
  have hv : SameSigns v (v.modifyChild j g) := .children_modify hg
  obtain ⟨-, -, hlog⟩ := h.of_signs hw hv
  exact { h with
    children := h.children.modify hi fun x y _ _ hxy => hfg x y hxy
    log := hlog
    anew := fun n => by simpa [World.modifyChild] using h.anew n
    veiledLeft := fun k child hc hk => by
      obtain ⟨x, hx, ⟨rfl, -⟩ | ⟨-, rfl⟩⟩ := exists_getElem?_of_modify hc
      · exact absurd hi (hk j)
      · exact h.veiledLeft k child hx hk
    veiledRight := fun k child hc hk => by
      obtain ⟨x, hx, ⟨rfl, -⟩ | ⟨-, rfl⟩⟩ := exists_getElem?_of_modify hc
      · exact absurd hi (hk i)
      · exact h.veiledRight k child hx hk }

theorem modifyChild_left (h : Paired σ κ w v) (hi : σ.left.child i) {f : Child V → Child V}
    (hf : ∀ x, (f x).name = x.name)
    (hv : ∀ (x : Child V) (p : Prop), x.Veiled σ σ.left p → (f x).Veiled σ σ.left p) :
    Paired σ κ (w.modifyChild i f) v := by
  have hw : SameSigns w (w.modifyChild i f) := .children_modify hf
  obtain ⟨-, -, hlog⟩ := h.of_signs hw (.refl v)
  exact { h with
    children := h.children.modify_hidden hi f
    log := hlog
    anew := fun n => by simpa [World.modifyChild] using h.anew n
    veiledLeft := fun k child hc hk => by
      obtain ⟨x, hx, ⟨-, rfl⟩ | ⟨-, rfl⟩⟩ := exists_getElem?_of_modify hc
      · exact hv x _ (h.veiledLeft k x hx hk)
      · exact h.veiledLeft k child hx hk }

/-- A change of a waiter on both sides. -/
theorem modifyWaiter (h : Paired σ κ w v) {f g : Waiter V → Waiter V}
    (hf : ∀ x, (f x).name = x.name ∧ (f x).request = x.request)
    (hg : ∀ x, (g x).name = x.name ∧ (g x).request = x.request)
    (hfg : ∀ x y, w.waiters[j]? = some x → v.waiters[j]? = some y → σ.Waiters x y →
      σ.Waiters (f x) (g y)) :
    Paired σ κ (w.modifyWaiter j f) (v.modifyWaiter j g) := by
  have hw : SameSigns w (w.modifyWaiter j f) := .waiters_modify hf
  have hv : SameSigns v (v.modifyWaiter j g) := .waiters_modify hg
  obtain ⟨hready, hwaiting, hlog⟩ := h.of_signs hw hv
  exact { h with
    waiters := h.waiters.modify rfl hfg
    ready := hready, waiting := hwaiting, log := hlog }

/-- A change of a veiled waiter. -/
theorem modifyWaiter_left (h : Paired σ κ w v) {x : Waiter V} (hx : w.waiters[j]? = some x)
    (hr : σ.left.request x.request) {f : Waiter V → Waiter V}
    (hf : ∀ x, (f x).name = x.name ∧ (f x).request = x.request) :
    Paired σ κ (w.modifyWaiter j f) v := by
  have hw : SameSigns w (w.modifyWaiter j f) := .waiters_modify hf
  obtain ⟨hready, hwaiting, hlog⟩ := h.of_signs hw (.refl v)
  exact { h with
    waiters := h.waiters.modify_left fun k x' y hk hx' hxy => by
      obtain rfl := Option.some.inj (hx.symm.trans hx')
      obtain ⟨hbegin, hname⟩ := Veil.request_plain hr σ x.name
      refine ⟨(hf x).1.trans hxy.name, .inr ⟨by rwa [(hf x).2], ?_⟩, fun _ => ?_, fun _ => ?_,
        hxy.begins', hxy.naming'⟩
      · rcases hxy.request with ⟨hreq, -⟩ | ⟨-, hreq⟩
        · exact absurd hr hreq.not_left
        · exact hreq
      · rwa [(hf x).2]
      · rwa [(hf x).1, (hf x).2]
    ready := hready, waiting := hwaiting, log := hlog }

theorem modifyBatch (h : Paired σ κ w v) (b : Nat) {f g : Batch V → Batch V}
    (hfg : ∀ x y, σ.Batches x y → σ.Batches (f x) (g y)) :
    Paired σ κ (w.modifyBatch b f) (v.modifyBatch b g) :=
  { h with batches := h.batches.modify rfl fun x y _ _ hxy => hfg x y hxy }

theorem modifyExecutor (h : Paired σ κ w v) {f g : Executor → Executor}
    (hfg : ∀ x y, σ.Executors e e x y → σ.Executors e e (f x) (g y)) :
    Paired σ κ (w.modifyExecutor e f) (v.modifyExecutor e g) :=
  { h with
    executors := h.executors.modify rfl fun x y _ _ hxy => hfg x y hxy
    here := Nat.lt_of_lt_of_eq h.here (List.length_modify ..).symm }

theorem modifyExecutor_left (h : Paired σ κ w v) {f : Executor → Executor}
    (hf : ∀ x y, w.executors[e]? = some x → σ.Executors e e x y → σ.Executors e e (f x) y) :
    Paired σ κ (w.modifyExecutor e f) v :=
  { h with
    executors := h.executors.modify_left fun k x y hk hx hxy => by
      obtain rfl := hk
      exact hf x y hx hxy
    here := Nat.lt_of_lt_of_eq h.here (List.length_modify ..).symm }

theorem note (h : Paired σ κ w v) (who : String) {x y : Event V} (hxy : σ.Events x y) :
    Paired σ κ (w.note who x) (v.note who y) :=
  { h with
    seenLeft := Nat.le_trans h.seenLeft (by simp [World.note])
    seenRight := Nat.le_trans h.seenRight (by simp [World.note])
    log := by
      simp only [World.note]
      rw [List.drop_append_of_le_length h.seenLeft, List.drop_append_of_le_length h.seenRight]
      exact h.log.concat ⟨h.now_eq, rfl, hxy⟩ }

theorem note_left (h : Paired σ κ w v) {who : String} (hw : σ.left.who w.children w.waiters who)
    (event : Event V) : Paired σ κ (w.note who event) v :=
  { h with
    seenLeft := Nat.le_trans h.seenLeft (by simp [World.note])
    log := by
      simp only [World.note]
      rw [List.drop_append_of_le_length h.seenLeft]
      exact h.log.concat_left hw }

theorem record (h : Paired σ κ w v) {x y : Happening V} (hxy : σ.Happenings x y) :
    Paired σ κ (w.record x) (v.record y) :=
  { h with history := h.history.concat ⟨h.now_eq, hxy⟩ }

theorem record_left (h : Paired σ κ w v) {x : Happening V} (hx : σ.left.happening x) :
    Paired σ κ (w.record x) v :=
  { h with history := h.history.concat_left hx }

/-! ## Queues -/

theorem enqueue (h : Paired σ κ w v) {r r' : TaskRef} (hr : σ.Refs w.waiters v.waiters r r') :
    Paired σ κ (w.enqueue r) (v.enqueue r') :=
  { h with ready := h.ready.concat hr }

theorem enqueue_left (h : Paired σ κ w v) {r : TaskRef} (hr : σ.left.ref w.waiters r) :
    Paired σ κ (w.enqueue r) v :=
  { h with ready := h.ready.concat_left hr }

theorem suspend (h : Paired σ κ w v) {r r' : TaskRef} (hr : σ.Refs w.waiters v.waiters r r') :
    Paired σ κ (w.suspend r) (v.suspend r') :=
  { h with waiting := h.waiting.concat hr }

theorem suspend_left (h : Paired σ κ w v) {r : TaskRef} (hr : σ.left.ref w.waiters r) :
    Paired σ κ (w.suspend r) v :=
  { h with waiting := h.waiting.concat_left hr }

theorem wake (h : Paired σ κ w v) {p q : TaskRef → Bool}
    (hpq : ∀ r r', σ.Refs w.waiters v.waiters r r' → p r = q r') :
    Paired σ κ (w.wake p) (v.wake q) :=
  { h with
    ready := h.ready.append (h.waiting.filter hpq)
    waiting := h.waiting.filter fun r r' hr => by rw [hpq r r' hr] }

theorem wake_left (h : Paired σ κ w v) {p : TaskRef → Bool}
    (hp : ∀ r r', σ.Refs w.waiters v.waiters r r' → p r = false) : Paired σ κ (w.wake p) v := by
  obtain ⟨hwoken, hrest⟩ := h.waiting.filter_left hp
  have hready := h.ready.append hwoken
  rw [List.append_nil] at hready
  exact { h with ready := hready, waiting := hrest }

end Paired

end World

end TimedTasks
